import EvoCI.Patch

/-! The domain models that the recovery graph passes around: tasks, supervisor
decisions, worker runs, patch proposals and verification results. -/

namespace EvoCI

/-! ## Verification commands -/

/-- The root that `PurePosixPath(path)` has: two slashes are a root of their own, more are not. -/
def pathRoot (path : String) : String :=
  match path.toList with
  | '/' :: '/' :: '/' :: _ => "/"
  | '/' :: '/' :: _ => "//"
  | '/' :: _ => "/"
  | _ => ""

/-- `str(cwd).strip() or "."`. -/
def rawCwd (cwd : String) : String := if strip cwd = "" then "." else strip cwd

/-- `raw.replace("\\", "/")`. -/
def slashed (raw : String) : String :=
  String.ofList (raw.toList.map fun c => if c = '\\' then '/' else c)

/-- `normalize_repo_cwd`. -/
def normalizeRepoCwd (cwd : String) : Except PyError String :=
  if isAbsolute (rawCwd cwd) then
    .error (.valueError s!"verification cwd must be workspace-relative: {cwd}")
  else
    let path := slashed (rawCwd cwd)
    let parts := pathParts path
    if ".." ∈ parts then .error (.valueError s!"verification cwd escapes workspace: {cwd}")
    else if pathRoot path = "" ∧ parts = [] then .ok "."
    else .ok (pathRoot path ++ joinParts parts)

structure VerificationCommandSpec where
  argv : List String
  cwd : String
  argvLength : argv ≠ [] ∧ argv.length ≤ 32
  argvNonempty : ∀ item ∈ argv, strip item ≠ ""
  cwdNormal : ∃ raw, normalizeRepoCwd raw = .ok cwd

/-- `parse_verification_command` of a plain argument list. -/
def parseVerificationCommand (argv : List String) : Except PyError VerificationCommandSpec :=
  if hnil : argv = [] then .error (.valueError "invalid verification command: []")
  else if hlen : argv.length ≤ 32 then
    if hitems : ∀ item ∈ argv, strip item ≠ "" then
      .ok ⟨argv, ".", ⟨hnil, hlen⟩, hitems, ".", by rfl⟩
    else .error (.valueError "verification argv items must be non-empty")
  else .error (.valueError "verification argv holds more than 32 items")

/-! ## Tasks and decisions -/

inductive WorkerKind where
  | investigate
  | repair
  deriving DecidableEq, Repr

structure TaskBudget where
  maxModelCalls : Nat
  maxToolCalls : Nat
  positive : 1 ≤ maxModelCalls ∧ 1 ≤ maxToolCalls

/-- A task as the harness uses it after normalising its scopes. -/
structure WorkerTask where
  taskId : String
  kind : WorkerKind
  readScope : List String := []
  writeScope : List String := []
  dependsOn : List String := []
  budget : Option TaskBudget := none
  resumeCandidateId : Option String := none

/-- `WorkerTask.scope_matches_kind`. -/
def WorkerTask.Valid (task : WorkerTask) : Prop :=
  strip task.taskId ≠ "" ∧ (task.kind = .investigate → task.writeScope = []) ∧ task.dependsOn = []

inductive SupervisorAction where
  | dispatch
  | stop
  deriving DecidableEq, Repr

def SupervisorAction.text : SupervisorAction → String
  | .dispatch => "dispatch"
  | .stop => "stop"

structure SupervisorDecision where
  action : SupervisorAction
  reasoningSummary : String
  tasks : List WorkerTask := []
  stopReason : Option String := none
  tasksValid : ∀ task ∈ tasks, task.Valid
  /-- `action_payload_is_complete`. -/
  dispatchOne : action = .dispatch → tasks.length = 1
  stopComplete : action = .stop → tasks = [] ∧ ∃ reason, stopReason = some reason ∧
    strip reason ≠ ""

/-! ## Worker runs -/

inductive WorkerTaskStatus where
  | completed
  | blocked
  | budgetExhausted
  deriving DecidableEq, Repr

inductive EvidenceKind where
  | testResult
  | other (name : String)
  deriving DecidableEq, Repr

/-- An evidence item; the confidence is in percent. -/
structure EvidenceItem where
  sourceAgent : String
  kind : EvidenceKind
  claim : String
  command : Option String := none
  confidence : Nat
  deriving DecidableEq, Repr

structure WorkerExecutionResult where
  taskId : String
  status : WorkerTaskStatus
  summary : String
  evidence : List EvidenceItem := []
  baseRevision : Option String := none
  snapshotId : Option String := none
  patchArtifactRef : Option String := none
  changedFiles : List String := []
  usedSkillRefs : List String := []
  deriving DecidableEq, Repr

inductive Risk where
  | low
  | medium
  | high
  deriving DecidableEq, Repr

structure PatchProposal where
  summary : String
  changedFiles : List String
  commandsRun : List String
  risk : Risk
  verificationPlan : List VerificationCommandSpec

structure FixerOutput where
  proposal : PatchProposal
  edits : List FileEdit
  editsMatchChangedFiles : (edits.map FileEdit.path).Perm proposal.changedFiles

/-- What `worker.execute` returns. -/
structure WorkerRun where
  result : WorkerExecutionResult
  edits : List FileEdit := []
  commandsRun : List String := []
  verificationPlan : List VerificationCommandSpec := []
  risk : String := "low"

def resolveRisk (risk : String) (editCount : Nat) : Risk :=
  match risk with
  | "low" => .low
  | "medium" => .medium
  | "high" => .high
  | "" => if editCount ≤ 4 then .low else .medium
  | _ => .medium

/-- `fixer_output_from_edits`. -/
def fixerOutputFromEdits (summary : String) (edits : List FileEdit) (commandsRun : List String)
    (verificationPlan : List VerificationCommandSpec) (risk : String) : FixerOutput where
  proposal :=
    { summary, changedFiles := edits.map FileEdit.path, commandsRun,
      risk := resolveRisk risk edits.length, verificationPlan }
  edits
  editsMatchChangedFiles := List.Perm.refl _

structure FailedCandidateRef where
  candidateId : String
  taskId : String
  batch : Nat
  baselineSnapshotId : String
  artifactRef : String
  changedFiles : List String
  deriving DecidableEq, Repr

/-! ## Verification results -/

inductive VerificationCommandSource where
  | mandatory
  | supplementary
  deriving DecidableEq, Repr

inductive VerificationStatus where
  | passed
  | failed
  | incomplete
  | unavailable
  | infraError
  | inconclusive
  deriving DecidableEq, Repr

def VerificationStatus.text : VerificationStatus → String
  | .passed => "passed"
  | .failed => "failed"
  | .incomplete => "incomplete"
  | .unavailable => "unavailable"
  | .infraError => "infra_error"
  | .inconclusive => "inconclusive"

inductive IncompleteCause where
  | budget
  | execution
  deriving DecidableEq, Repr

structure VerificationCommandResult where
  command : List String
  exitCode : Int
  stdout : String
  stderr : String
  timedOut : Bool := false
  source : VerificationCommandSource := .mandatory
  executed : Bool := true
  skipReason : Option String := none
  cwd : String := "."
  deriving DecidableEq, Repr

structure VerificationResult where
  passed : Bool
  status : VerificationStatus
  commands : List VerificationCommandResult
  expectedCount : Nat
  executedCount : Nat
  incompleteReason : Option String := none
  incompleteCause : Option IncompleteCause := none
  /-- `verify_success_contract`. -/
  successContract : passed = true ↔ status = .passed
  deriving DecidableEq

structure CIFailure where
  summary : String
  logExcerpt : String
  failedCommands : List (List String) := []
  workflowYaml : String := ""
  workflowPath : Option String := none
  taskFamily : String := "unknown"
  deriving DecidableEq

structure ReviewResult where
  accepted : Bool
  blockers : List String := []
  deriving DecidableEq, Repr

end EvoCI
