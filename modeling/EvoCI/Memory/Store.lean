import Mathlib.Algebra.Order.Ring.Rat
import EvoCI.Capability.Registry
import EvoCI.Graph.State

/-! The memory store: the episodes of finished runs and the facts about a repository, each
with an index for text search, and the operations that were applied. A statement that raises
leaves the transaction of the connection open, for a later call to commit. -/

namespace EvoCI

open Library

/-- An exception as the learning code reports it: its class and `str`. -/
structure Raised where
  kind : String
  message : String
  deriving DecidableEq, Repr

/-! ## Rows -/

structure Episode where
  id : String
  runId : String
  repo : String
  taskFamily : String
  failureSummary : String
  rootCause : Option String := none
  attempts : Nat
  successfulFixSummary : Option String := none
  toolsUsed : List String := []
  hypothesesAttempted : List String := []
  verificationFailures : List String := []
  failureReason : Option String := none
  success : Bool
  failureClass : FailureClass := .repair
  failureStage : Option String := none
  attemptedFixSummaries : List String := []
  attemptedFiles : List String := []
  externalFailureDetails : List String := []
  deriving DecidableEq

structure LongTermMemory where
  id : String
  repository : String
  content : String
  confidence : Rat
  sourceRunIds : List String
  createdAt : Nat
  updatedAt : Nat
  lastAccessedAt : Option Nat := none
  archived : Bool := false
  deriving DecidableEq

inductive FactType where
  | fact
  | none
  deriving DecidableEq

structure LongTermFactCandidate where
  type : FactType
  content : Option String := none
  confidence : Rat
  deriving DecidableEq

/-- What `applied_operations` stores: a proposal, or how its commit went. -/
inductive MemoryOperation where
  | proposed (candidate : LongTermFactCandidate)
  | committed (memoryId : Option String) (created : Bool)
  deriving DecidableEq

structure StoreTables where
  episodes : List Episode
  episodesFts : List (String × String)
  longTerm : String → Option LongTermMemory
  longTermFts : List (String × String)
  operations : String → Option MemoryOperation

/-- The file, and what the open transaction of the connection sees. -/
structure MemoryStore where
  committed : StoreTables
  pending : Option StoreTables := none

def MemoryStore.empty : MemoryStore where
  committed := ⟨[], [], fun _ => none, [], fun _ => none⟩

def MemoryStore.current (s : MemoryStore) : StoreTables := s.pending.getD s.committed

/-! ## What the index holds of an episode -/

def FailureClass.text : FailureClass → String
  | .repair => "repair"
  | .model => "model"
  | .budget => "budget"
  | .policy => "policy"
  | .infrastructure => "infrastructure"

/-- `_join`. -/
def joinItems (items : List String) : String := "; ".intercalate (items.filter (· ≠ ""))

/-- A line of the content, if there is something to tell. -/
def contentLine (label : String) (value : Option String) : List String :=
  match value.filter (· ≠ "") with
  | none => []
  | some text => [label ++ text]

def contentList (label : String) (items : List String) : List String :=
  if items = [] then [] else [label ++ joinItems items]

/-- A fix of a failed run is marked as such. -/
def markFix (lower : String → String) (fix : String) : String :=
  if containsText "failed" (lower fix) ∨ containsText "unconfirmed" (lower fix) then fix
  else fix ++ " (failed/unconfirmed)"

/-- `format_episode_content`. -/
def Episode.content (lower : String → String) (e : Episode) : String :=
  let parts :=
    if e.success then
      ["OUTCOME=success", e.failureSummary] ++ contentLine "ROOT_CAUSE=" e.rootCause ++
        contentLine "SUCCESSFUL_FIX=" e.successfulFixSummary
    else
      ["OUTCOME=failed", "FAILURE_CLASS=" ++ e.failureClass.text, e.failureSummary] ++
        contentLine "FAILURE_STAGE=" e.failureStage ++
        contentLine "FAILURE_REASON=" e.failureReason ++
        contentList "ATTEMPTED_FIXES=" (e.attemptedFixSummaries.map (markFix lower)) ++
        contentList "ATTEMPTED_FILES=" e.attemptedFiles ++
        contentList "VERIFICATION_FAILURES=" e.verificationFailures ++
        contentList "EXTERNAL_FAILURE_DETAILS=" e.externalFailureDetails ++
        contentLine "HYPOTHESIS (unverified): " e.rootCause ++
        contentList "HYPOTHESES_ATTEMPTED (unverified): " e.hypothesesAttempted
  "\n".intercalate (parts.filter (· ≠ ""))

/-! ## Transactions -/

/-- What can raise. -/
inductive MemoryStep where
  | readOperation
  | readFacts
  | episode
  | episodeFts
  | episodeCommit
  | operation
  | operationCommit
  | longTerm
  deriving DecidableEq

/-- `str.lower` and `uuid5(NAMESPACE_URL, ·)`. -/
structure MemoryConfig where
  lower : String → String
  uuid5 : String → String

/-- What the host answers during one process: its clock and what raises. -/
structure MemoryAnswers where
  now : Nat
  fault : MemoryStep → Option Raised

abbrev MemoryM := Durable MemoryStep MemoryStore Raised

def MemoryAnswers.check (a : MemoryAnswers) (step : MemoryStep) : Except Raised Unit :=
  match a.fault step with
  | some e => .error e
  | none => .ok ()

/-- The transaction stays open on these rows. -/
def MemoryStore.leftOpen (s : MemoryStore) (rows : StoreTables) : MemoryStore :=
  ⟨s.committed, some rows⟩

/-- `rollback`; so it also goes when the process ends. -/
def MemoryStore.rolledBack (s : MemoryStore) : MemoryStore := ⟨s.committed, none⟩

/-- `commit`. -/
def MemoryStore.commit {α : Type} (s : MemoryStore) (a : MemoryAnswers) (step : MemoryStep)
    (rows : StoreTables) (result : α) : Except Raised α × MemoryStore :=
  match a.fault step with
  | some e => (.error e, s.leftOpen rows)
  | none => (.ok result, ⟨rows, none⟩)

/-- `id` and `run_id` are unique. -/
def StoreTables.Has (rows : StoreTables) (e : Episode) : Prop :=
  ∃ row ∈ rows.episodes, row.id = e.id ∨ row.runId = e.runId

instance (rows : StoreTables) (e : Episode) : Decidable (rows.Has e) :=
  inferInstanceAs (Decidable (∃ row ∈ rows.episodes, _))

/-- The row alone. -/
def StoreTables.addRow (rows : StoreTables) (e : Episode) : StoreTables :=
  { rows with episodes := rows.episodes ++ [e] }

/-- `INSERT OR IGNORE INTO episodes`: the index gets a row only with the episode. -/
def StoreTables.insertEpisode (cfg : MemoryConfig) (rows : StoreTables) (e : Episode) :
    StoreTables :=
  if rows.Has e then rows
  else
    { rows.addRow e with
      episodesFts := rows.episodesFts ++ [(e.id, e.content cfg.lower)] }

/-- `add_episode`. -/
def addEpisode (cfg : MemoryConfig) (a : MemoryAnswers) (e : Episode) : MemoryM Unit :=
  Durable.statement .episode fun s =>
    let rows := s.current
    match a.fault .episode with
    | some raised => (.error raised, s.leftOpen rows)
    | none =>
      if rows.Has e then s.commit a .episodeCommit rows ()
      else
        match a.fault .episodeFts with
        | some raised => (.error raised, s.leftOpen (rows.addRow e))
        | none => s.commit a .episodeCommit (rows.insertEpisode cfg e) ()

/-- `INSERT OR IGNORE INTO applied_operations`. -/
def StoreTables.record (rows : StoreTables) (key : String) (result : MemoryOperation) :
    StoreTables :=
  { rows with
    operations := Function.update rows.operations key (some ((rows.operations key).getD result)) }

/-- `operation_result`. -/
def operationResult (a : MemoryAnswers) (key : String) : MemoryM (Option MemoryOperation) :=
  Durable.look fun s => (a.check .readOperation).map fun _ => s.current.operations key

/-- `record_operation`. -/
def recordMemoryOperation (a : MemoryAnswers) (key : String) (result : MemoryOperation) :
    MemoryM Bool :=
  Durable.statement .operation fun s =>
    let rows := s.current
    match a.fault .operation with
    | some raised => (.error raised, s.leftOpen rows)
    | none =>
      s.commit a .operationCommit (rows.record key result) (rows.operations key).isNone

/-- A fact that is there already is merged with the new one. -/
def LongTermMemory.merge (current memory : LongTermMemory) (now : Nat) : LongTermMemory :=
  { current with
    sourceRunIds := fromKeys (current.sourceRunIds ++ memory.sourceRunIds)
    confidence := max current.confidence memory.confidence
    updatedAt := now
    archived := false }

/-- The rows of `add_long_term`, and whether the fact is new. -/
def StoreTables.putFact (rows : StoreTables) (memory : LongTermMemory) (now : Nat) :
    Bool × StoreTables :=
  match rows.longTerm memory.id with
  | some current =>
    (false, { rows with
      longTerm := Function.update rows.longTerm memory.id (some (current.merge memory now)) })
  | none =>
    (true, { rows with
      longTerm := Function.update rows.longTerm memory.id (some { memory with archived := false })
      longTermFts := rows.longTermFts ++ [(memory.id, memory.content)] })

/-- `add_long_term`: one transaction, which its operation key lets happen once and any exception
rolls back. -/
def addLongTerm (a : MemoryAnswers) (memory : LongTermMemory) (operationKey : Option String) :
    MemoryM Bool :=
  Durable.statement .longTerm fun s =>
    let rows := s.committed
    let begun : Except Raised Unit :=
      if s.pending.isSome then
        .error ⟨"OperationalError", "cannot start a transaction within a transaction"⟩
      else a.check .longTerm
    match begun with
    | .error e =>
      (.error ⟨"RuntimeError", s!"Failed to add long-term memory {memory.id}: {e.message}"⟩,
        s.rolledBack)
    | .ok _ =>
      match givenKey operationKey with
      | none =>
        let (created, rows) := rows.putFact memory a.now
        (.ok created, ⟨rows, none⟩)
      | some key =>
        if (rows.operations key).isSome then (.ok false, s.rolledBack)
        else
          let (created, rows) := rows.putFact memory a.now
          (.ok created, ⟨rows.record key (.committed (some memory.id) created), none⟩)

/-! ## Committing a fact -/

/-- `re.sub(r"\s+", " ", text)`. -/
def collapseSpaces : List Char → List Char
  | [] => []
  | c :: cs =>
    if isSpace c then
      match collapseSpaces cs with
      | ' ' :: rest => ' ' :: rest
      | rest => ' ' :: rest
    else c :: collapseSpaces cs

def factPunctuation : List Char :=
  ['.', '。', '!', '！', '?', '？', ';', '；', ',', '，', ':', '：']

def normalizeFactContent (cfg : MemoryConfig) (content : String) : String :=
  String.ofList ((collapseSpaces (cfg.lower (strip content)).toList).reverse.dropWhile
    (· ∈ factPunctuation)).reverse

def factMemoryId (cfg : MemoryConfig) (repository content : String) : String :=
  cfg.uuid5 s!"evoci:{repository}:{normalizeFactContent cfg content}"

/-- The text of a candidate that is a fact to keep. -/
def LongTermFactCandidate.fact? (cfg : MemoryConfig) (candidate : LongTermFactCandidate) :
    Option String :=
  match candidate.type, candidate.content with
  | .fact, some content => if normalizeFactContent cfg content = "" then none else some content
  | _, _ => none

/-- The id of the fact that an earlier commit created. -/
def MemoryOperation.createdId : MemoryOperation → Option String
  | .committed memoryId true => memoryId.filter (· ≠ "")
  | _ => none

def commitCandidate (cfg : MemoryConfig) (a : MemoryAnswers) (candidate : LongTermFactCandidate)
    (runId repository operationKey : String) : MemoryM (Option String) := do
  match ← operationResult a operationKey with
  | some existing => return existing.createdId
  | none =>
    match candidate.fact? cfg with
    | none =>
      let _ ← recordMemoryOperation a operationKey (.committed none false)
      return none
    | some content =>
      let memory : LongTermMemory :=
        { id := factMemoryId cfg repository content, repository, content := strip content
          confidence := candidate.confidence, sourceRunIds := [runId]
          createdAt := a.now, updatedAt := a.now }
      let created ← addLongTerm a memory (some operationKey)
      return if created then some memory.id else none

end EvoCI
