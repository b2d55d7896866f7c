import Mathlib.Data.List.Sort
import EvoCI.Memory.Store

/-! What an agent is shown of the memory: facts and episodes that a failure finds in the store, each
as a short preview, as many as a limit on characters lets in. -/

namespace EvoCI

/-! ## The rows that are searched -/

structure StoredEpisode where
  episode : Episode
  failureFingerprint : String := ""
  createdAt : Nat

structure MemoryTables where
  episodes : List StoredEpisode
  longTerm : List LongTermMemory

structure MemoryHit where
  memoryId : String
  «namespace» : String
  content : String
  score : Rat
  deriving DecidableEq, Repr

/-- What the store rests on: `str.lower`, and the rank that the text index gives a row that matches
an expression. -/
structure TextSearch where
  lower : String → String
  longTermRank : String → String → Option Rat
  episodeRank : String → String → Option Rat

/-! ## Searching -/

/-- The runs of such characters, of at least that length, that `re.findall` finds; the accumulator
is the current run, reversed. -/
def findRuns (p : Char → Bool) (least : Nat) : List Char → List Char → List String
  | run, [] => if least ≤ run.length then [String.ofList run.reverse] else []
  | run, c :: cs =>
    if p c then findRuns p least (c :: run) cs
    else if least ≤ run.length then String.ofList run.reverse :: findRuns p least [] cs
    else findRuns p least [] cs

def isAsciiWord (c : Char) : Bool :=
  ('a' ≤ c ∧ c ≤ 'z') ∨ ('A' ≤ c ∧ c ≤ 'Z') ∨ ('0' ≤ c ∧ c ≤ '9') ∨ c = '_'

def isBeyondAscii (c : Char) : Bool := '\u0080' ≤ c ∧ c ≤ '\uffff'

/-- `list(dict.fromkeys(items))`. -/
def firstOccurrences (items : List String) : List String :=
  items.foldl (fun kept item => if item ∈ kept then kept else kept ++ [item]) []

/-- `" OR ".join(f'"{token}"' for token in tokens)`. -/
def orExpression (tokens : List String) : String :=
  " OR ".intercalate (tokens.map fun token => "\"" ++ token ++ "\"")

/-- `_fts_query`. -/
def ftsQuery (lower : String → String) (text : String) : String :=
  let tokens := (firstOccurrences (findRuns isAsciiWord 2 [] (lower text).toList ++
    findRuns isBeyondAscii 2 [] text.toList)).take 24
  if tokens = [] then
    orExpression ((((lower text).toList.filter fun c =>
      (isAsciiWord c && c != '_') || isBeyondAscii c).map String.singleton).take 24)
  else orExpression tokens

/-- `1.0 / (1.0 + abs(rank))`. -/
def hitScore (rank : Rat) : Rat := 1 / (1 + |rank|)

def longTermHit (memory : LongTermMemory) (rank : Rat) : MemoryHit :=
  ⟨memory.id, "repo:" ++ memory.repository, memory.content, hitScore rank⟩

def episodeHit (lower : String → String) (e : Episode) (rank : Option Rat) : MemoryHit :=
  ⟨e.id, "episode:" ++ e.repo, e.content lower, rank.elim 1 hitScore⟩

def searchLongTerm (search : TextSearch) (tables : MemoryTables) (query repository : String)
    (limit : Nat) : List MemoryHit :=
  let expression := ftsQuery search.lower query
  if expression = "" ∨ repository = "" ∨ limit = 0 then []
  else
    let rows := tables.longTerm.filterMap fun memory =>
      if memory.repository = repository ∧ memory.archived = false then
        (search.longTermRank expression memory.id).map fun rank => (memory, rank)
      else none
    let ordered := rows.insertionSort fun row other =>
      row.2 < other.2 ∨ (row.2 = other.2 ∧ other.1.confidence ≤ row.1.confidence)
    (ordered.take limit).map fun row => longTermHit row.1 row.2

/-- `(e.repo = ?) DESC, e.success DESC, rank, e.created_at DESC`. -/
def episodeBefore (repo : String) (row other : StoredEpisode × Rat) : Prop :=
  let own := fun item : StoredEpisode × Rat => decide (item.1.episode.repo = repo)
  let key := fun item : StoredEpisode × Rat =>
    ((own item).toNat, item.1.episode.success.toNat)
  (key other).1 < (key row).1 ∨ ((key other).1 = (key row).1 ∧
    ((key other).2 < (key row).2 ∨ ((key other).2 = (key row).2 ∧
      (row.2 < other.2 ∨ (row.2 = other.2 ∧ other.1.createdAt ≤ row.1.createdAt)))))

instance (repo : String) : DecidableRel (episodeBefore repo) := fun _ _ =>
  inferInstanceAs (Decidable (_ ∨ (_ ∧ (_ ∨ (_ ∧ (_ ∨ (_ ∧ _)))))))

def searchEpisodes (search : TextSearch) (tables : MemoryTables) (query repo : String)
    (limit : Nat) : List MemoryHit :=
  let expression := ftsQuery search.lower query
  if expression = "" ∨ limit = 0 then []
  else
    let rows := tables.episodes.filterMap fun row =>
      (search.episodeRank expression row.episode.id).map fun rank => (row, rank)
    ((rows.insertionSort (episodeBefore repo)).take limit).map fun row =>
      episodeHit search.lower row.1.episode (some row.2)

/-- The latest failed and the latest successful episode of the fingerprint. -/
def searchEpisodesByFingerprint (search : TextSearch) (tables : MemoryTables)
    (repo fingerprint : String) (limit : Nat) : List MemoryHit :=
  if fingerprint = "" ∨ limit = 0 then []
  else
    let rows := (tables.episodes.filter fun row =>
      row.episode.repo = repo && row.failureFingerprint = fingerprint).insertionSort
        fun row other => other.createdAt ≤ row.createdAt
    let latestFailed := rows.find? fun row => !row.episode.success
    let latestSuccess := rows.find? fun row => row.episode.success
    ((latestFailed.toList ++ latestSuccess.toList).take limit).map fun row =>
      episodeHit search.lower row.episode none

/-! ## Previews -/

/-- `text.split()`; the accumulator is the current word, reversed. -/
def wordsFrom : List Char → List Char → List (List Char)
  | [], [] => []
  | word, [] => [word.reverse]
  | word, c :: cs =>
    if isSpace c then
      if word = [] then wordsFrom [] cs else word.reverse :: wordsFrom [] cs
    else wordsFrom (c :: word) cs

/-- `" ".join(text.split())`. -/
def compactText (text : String) : String :=
  String.ofList ([' '].intercalate (wordsFrom [] text.toList))

/-- `str.rstrip` of characters. -/
def rstrip (cs : List Char) : List Char := (cs.reverse.dropWhile isSpace).reverse

/-- `_clip`. -/
def clip (text : String) (limit : Nat) : String :=
  let compact := compactText text
  if compact.length ≤ limit then compact
  else String.ofList (rstrip (compact.toList.take (limit - 1))) ++ "…"

/-- The lines that are never taken for the summary. -/
def fieldLabels : List String :=
  ["FAILURE_CLASS=", "FAILURE_REASON=", "ROOT_CAUSE=", "SUCCESSFUL_FIX=", "ATTEMPTED_FILES="]

def isSummaryLine (line : String) : Bool :=
  strip line != "" && !fieldLabels.any (startsWith line) && !(line.toList.take 32).contains '=' &&
    !startsWith line "HYPOTHESIS "

/-- What follows the label in the first line that starts with it. -/
def labelled (label : String) (lines : List String) : String :=
  ((lines.find? fun line => startsWith line label).map fun line =>
    String.ofList (line.toList.drop label.length)).getD ""

/-- The part of a preview for a field, if the field has a value. -/
def previewField (lines : List String) (field : String × Nat) : List String :=
  let value := labelled field.1 lines
  if value ≠ "" then [field.1 ++ clip value field.2] else []

def failedFields : List (String × Nat) :=
  [("FAILURE_CLASS=", 40), ("FAILURE_REASON=", 220), ("ATTEMPTED_FILES=", 100)]

def solvedFields : List (String × Nat) := [("ROOT_CAUSE=", 150), ("SUCCESSFUL_FIX=", 180)]

/-- The preview of an episode from its content. -/
def previewEpisode (content : String) : String :=
  let lines := splitLines content
  let outcome := lines.headD "OUTCOME=unknown"
  let summary := (lines.tail.find? isSummaryLine).getD ""
  let fields := if outcome = "OUTCOME=failed" then failedFields else solvedFields
  "\n".intercalate ([outcome, "SUMMARY=" ++ clip summary 180] ++
    fields.flatMap (previewField lines))

/-- `_preview`. -/
def preview (hit : MemoryHit) : MemoryHit :=
  if startsWith hit.namespace "episode:" then
    { hit with content := previewEpisode hit.content }
  else { hit with content := "FACT=" ++ clip hit.content 360 }

/-! ## Selecting -/

def truncationMarker : String := "\n[truncated]"

/-- `_truncate_preserving_outcome`. -/
def truncatePreservingOutcome (content : String) (remaining : Int) : String :=
  if remaining ≤ 0 then ""
  else if content.length ≤ remaining then content
  else if remaining ≤ truncationMarker.length then
    String.ofList (content.toList.take remaining.toNat)
  else
    String.ofList (content.toList.take (remaining - truncationMarker.length).toNat) ++
      truncationMarker

/-- The hits with an id that was not seen before, as previews. -/
def deduplicate : List String → List MemoryHit → List MemoryHit
  | _, [] => []
  | seen, hit :: hits =>
    if hit.memoryId ∈ seen then deduplicate seen hits
    else preview hit :: deduplicate (hit.memoryId :: seen) hits

/-- The selected hits and the characters they come to, with `used` of them already taken. -/
def selectHits (limit : Int) : Nat → List MemoryHit → List MemoryHit × Nat
  | used, [] => ([], used)
  | used, hit :: hits =>
    let remaining := limit - used
    if remaining ≤ 0 then ([], used)
    else
      let content := truncatePreservingOutcome hit.content remaining
      if content = "" then ([], used)
      else
        let (selected, total) := selectHits limit (used + content.length) hits
        ({ hit with content } :: selected, total)

structure MemoryRetriever where
  search : TextSearch
  fingerprint : String → CIFailure → String
  messages : CIFailure → List String
  contextLimitChars : Int

structure MemoryRetrieval where
  hits : List MemoryHit
  retrievedIds : List String
  selectedIds : List String
  contextChars : Nat

namespace MemoryRetriever

variable (R : MemoryRetriever)

def query (failure : CIFailure) : String :=
  let command := " ".intercalate failure.failedCommands.flatten
  s!"{failure.taskFamily} {failure.summary} {command} " ++
    " ".intercalate (R.messages failure) ++ " " ++
      String.ofList (failure.logExcerpt.toList.take 800)

def retrieved (tables : MemoryTables) (repo : String) (failure : CIFailure) : List MemoryHit :=
  let query := R.query failure
  searchLongTerm R.search tables query repo 4 ++
    searchEpisodesByFingerprint R.search tables repo (R.fingerprint repo failure) 2 ++
    searchEpisodes R.search tables query repo 4

/-- The candidates of a retrieval. -/
def candidates (tables : MemoryTables) (repo : String) (failure : CIFailure) : List MemoryHit :=
  deduplicate [] (R.retrieved tables repo failure)

def retrieve (tables : MemoryTables) (repo : String) (failure : CIFailure) : MemoryRetrieval :=
  let deduplicated := R.candidates tables repo failure
  let (selected, used) := selectHits R.contextLimitChars 0 deduplicated
  { hits := selected
    retrievedIds := deduplicated.map MemoryHit.memoryId
    selectedIds := selected.map MemoryHit.memoryId
    contextChars := used }

end MemoryRetriever

end EvoCI
