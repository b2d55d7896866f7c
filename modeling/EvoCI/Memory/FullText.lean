import EvoCI.Library.Indexed
import EvoCI.Library.JsonText
import EvoCI.Library.Run
import EvoCI.Memory.Store

/-! The full-text tables of the memory store beside its base tables, statement by statement: what a
call leaves open when one of its statements raises, and the merge of one store into another. Python
strings can hold lone surrogates, which JSON keeps and a bound parameter does not. -/

namespace EvoCI

open Library

/-! ## Lists in columns -/

/-- `json.loads(json.dumps(items))`. -/
def throughJson (items : List PyText) : List PyText := items.map JsonText.joinSurrogates

/-! ## Rows -/

/-- An episode, as it is passed in or as its row is read back. -/
structure EpisodeRow where
  id : PyText
  runId : PyText
  repo : PyText
  taskFamily : PyText
  failureSummary : PyText
  rootCause : Option PyText := none
  importantEvidence : List PyText := []
  attempts : Nat := 0
  successfulFixSummary : Option PyText := none
  toolsUsed : List PyText := []
  hypothesesAttempted : List PyText := []
  verificationFailures : List PyText := []
  failureReason : Option PyText := none
  success : Bool
  failureFingerprint : PyText := []
  repoRevision : Option PyText := none
  failureClass : FailureClass := .repair
  failureStage : Option PyText := none
  attemptedFixSummaries : List PyText := []
  attemptedFiles : List PyText := []
  externalFailureDetails : List PyText := []
  createdAt : Nat := 0
  deriving DecidableEq

/-- The row of an episode: its lists are columns of JSON. -/
def EpisodeRow.stored (e : EpisodeRow) : EpisodeRow :=
  { e with
    importantEvidence := throughJson e.importantEvidence
    toolsUsed := throughJson e.toolsUsed
    hypothesesAttempted := throughJson e.hypothesesAttempted
    verificationFailures := throughJson e.verificationFailures
    attemptedFixSummaries := throughJson e.attemptedFixSummaries
    attemptedFiles := throughJson e.attemptedFiles
    externalFailureDetails := throughJson e.externalFailureDetails }

/-- The strings that are bound as they are. -/
def EpisodeRow.columns (e : EpisodeRow) : List PyText :=
  [e.id, e.runId, e.repo, e.taskFamily, e.failureSummary] ++ e.rootCause.toList ++
    e.successfulFixSummary.toList ++ e.failureReason.toList ++ [e.failureFingerprint] ++
    e.repoRevision.toList ++ e.failureStage.toList

/-- `_join`. -/
def joinTexts (items : List PyText) : PyText :=
  (pyText "; ").intercalate (items.filter (· ≠ []))

def textLine (label : String) (value : Option PyText) : List PyText :=
  match value.filter (· ≠ []) with
  | none => []
  | some text => [pyText label ++ text]

def textList (label : String) (items : List PyText) : List PyText :=
  if items = [] then [] else [pyText label ++ joinTexts items]

/-- A fix of a failed run is marked as such. -/
def markFixText (lower : PyText → PyText) (fix : PyText) : PyText :=
  if pyText "failed" <:+: lower fix ∨ pyText "unconfirmed" <:+: lower fix then fix
  else fix ++ pyText " (failed/unconfirmed)"

/-- The parts of `format_episode_content`. -/
def EpisodeRow.parts (lower : PyText → PyText) (e : EpisodeRow) : List PyText :=
  if e.success then
    [pyText "OUTCOME=success", e.failureSummary] ++ textLine "ROOT_CAUSE=" e.rootCause ++
      textLine "SUCCESSFUL_FIX=" e.successfulFixSummary
  else
    [pyText "OUTCOME=failed", pyText ("FAILURE_CLASS=" ++ e.failureClass.text),
        e.failureSummary] ++
      textLine "FAILURE_STAGE=" e.failureStage ++
      textLine "FAILURE_REASON=" e.failureReason ++
      textList "ATTEMPTED_FIXES=" (e.attemptedFixSummaries.map (markFixText lower)) ++
      textList "ATTEMPTED_FILES=" e.attemptedFiles ++
      textList "VERIFICATION_FAILURES=" e.verificationFailures ++
      textList "EXTERNAL_FAILURE_DETAILS=" e.externalFailureDetails ++
      textLine "HYPOTHESIS (unverified): " e.rootCause ++
      textList "HYPOTHESES_ATTEMPTED (unverified): " e.hypothesesAttempted

/-- `format_episode_content`, of an episode and of a row alike. -/
def EpisodeRow.content (lower : PyText → PyText) (e : EpisodeRow) : PyText :=
  (pyText "\n").intercalate ((e.parts lower).filter (· ≠ []))

structure FactRow where
  id : PyText
  repository : PyText
  content : PyText
  confidence : Rat
  sourceRunIds : List PyText
  createdAt : Nat
  updatedAt : Nat
  lastAccessedAt : Option Nat := none
  archived : Bool := false
  deriving DecidableEq

/-- The tables of a file; of an operation only that it was applied is read here. -/
structure MemoryRows where
  episodes : List EpisodeRow := []
  episodesFts : List (PyText × PyText) := []
  longTerm : List FactRow := []
  longTermFts : List (PyText × PyText) := []
  operations : List PyText := []
  deriving DecidableEq

/-! ## Calls -/

/-- A file and what the open transaction of its connection sees. -/
structure MemoryFile where
  committed : MemoryRows := {}
  pending : Option MemoryRows := none
  deriving DecidableEq

inductive StatementError where
  | unicodeEncode
  | inTransaction
  | locked
  deriving DecidableEq, Repr

def MemoryFile.current (f : MemoryFile) : MemoryRows := f.pending.getD f.committed

/-- `id` is the primary key and `run_id` is unique. -/
def episodeClash (row current : EpisodeRow) : Bool :=
  current.id = row.id ∨ current.runId = row.runId

/-- `add_episode`: a statement that raises leaves the transaction open. -/
def MemoryFile.addEpisode (lower : PyText → PyText) (f : MemoryFile) (e : EpisodeRow) :
    Except StatementError Unit × MemoryFile :=
  let rows := f.current
  if ¬ ∀ column ∈ e.columns, Bindable column then
    (.error .unicodeEncode, { f with pending := some rows })
  else if rows.episodes.any (episodeClash e) then (.ok (), ⟨rows, none⟩)
  else
    let inserted := { rows with episodes := rows.episodes ++ [e.stored] }
    if Bindable (e.content lower) then
      (.ok (), ⟨{ inserted with
        episodesFts := rows.episodesFts ++ [(e.id, e.content lower)] }, none⟩)
    else (.error .unicodeEncode, { f with pending := some inserted })

/-- A fact that is there already is merged with the new one. -/
def FactRow.merge (now : Nat) (current memory : FactRow) : FactRow :=
  { current with
    sourceRunIds := throughJson ((current.sourceRunIds ++ memory.sourceRunIds).foldl
      (fun kept item => if item ∈ kept then kept else kept ++ [item]) [])
    confidence := max current.confidence memory.confidence
    updatedAt := now
    archived := false }

/-- `add_long_term`: any exception rolls the transaction back. -/
def MemoryFile.addLongTerm (f : MemoryFile) (memory : FactRow) (operationKey : PyText)
    (now : Nat) : Except StatementError Bool × MemoryFile :=
  let rows := f.committed
  if f.pending.isSome then (.error .inTransaction, ⟨rows, none⟩)
  else if ¬ Bindable operationKey then (.error .unicodeEncode, ⟨rows, none⟩)
  else if operationKey ≠ [] ∧ operationKey ∈ rows.operations then (.ok false, ⟨rows, none⟩)
  else if ¬ Bindable memory.id then (.error .unicodeEncode, ⟨rows, none⟩)
  else
    let operations := if operationKey = [] then rows.operations
      else rows.operations ++ [operationKey]
    if memory.id ∈ rows.longTerm.map FactRow.id then
      (.ok false, ⟨{ rows with
        longTerm := rows.longTerm.map fun current =>
          if current.id = memory.id then current.merge now memory else current
        operations := operations }, none⟩)
    else if Bindable memory.repository ∧ Bindable memory.content then
      (.ok true, ⟨{ rows with
        longTerm := rows.longTerm ++ [{ memory with
          sourceRunIds := throughJson memory.sourceRunIds, archived := false }]
        longTermFts := rows.longTermFts ++ [(memory.id, memory.content)]
        operations := operations }, none⟩)
    else (.error .unicodeEncode, ⟨rows, none⟩)

def MemoryFile.archive (f : MemoryFile) (memoryId : PyText) :
    Except StatementError Unit × MemoryFile :=
  let rows := f.current
  if Bindable memoryId then
    (.ok (), ⟨{ rows with longTerm := rows.longTerm.map fun current =>
      if current.id = memoryId then { current with archived := true } else current }, none⟩)
  else (.error .unicodeEncode, { f with pending := some rows })

/-- `record_operation`. -/
def MemoryFile.recordOperation (f : MemoryFile) (operationKey : PyText) : MemoryFile :=
  let rows := f.current
  if ¬ Bindable operationKey then { f with pending := some rows }
  else if operationKey ∈ rows.operations then ⟨rows, none⟩
  else ⟨{ rows with operations := rows.operations ++ [operationKey] }, none⟩

/-- What `search_long_term` writes of the facts that it found. -/
def MemoryFile.access (f : MemoryFile) (found : List PyText) (now : Nat) : MemoryFile :=
  let rows := f.current
  ⟨{ rows with longTerm := rows.longTerm.map fun row =>
    if row.id ∈ found then { row with lastAccessedAt := some now } else row }, none⟩

/-- `ON CONFLICT(id) DO UPDATE`: all but the time of creation. -/
def FactRow.replace (current excluded : FactRow) : FactRow :=
  { excluded with createdAt := current.createdAt }

/-- `_merge_memory`: the rows of the source go into the target and both indexes are written anew;
an exception loses the whole transaction. -/
def mergeMemory (lower : PyText → PyText) (source target : MemoryRows) :
    Except StatementError MemoryRows :=
  let episodes := source.episodes.foldl (insertNew episodeClash) target.episodes
  let longTerm := source.longTerm.foldl (upsert FactRow.id FactRow.replace) target.longTerm
  if ∀ row ∈ episodes, Bindable (row.content lower) then
    .ok
      { episodes
        episodesFts := episodes.map fun row => (row.id, row.content lower)
        longTerm
        longTermFts := longTerm.map fun row => (row.id, row.content)
        operations := source.operations.foldl (insertNew fun key current => key = current)
          target.operations }
  else .error .unicodeEncode

/-! ## Runs -/

/-- The files of a campaign, by path. -/
abbrev MemoryFiles := String → Option MemoryFile

inductive MemoryAction where
  | addEpisode (path : String) (episode : EpisodeRow)
  | addLongTerm (path : String) (memory : FactRow) (operationKey : PyText) (now : Nat)
  | archive (path : String) (memoryId : PyText)
  | reopen (path : String)
  | mergeMemory (source target : String)

/-- Opening a store creates its file. -/
def MemoryFiles.opened (files : MemoryFiles) (path : String) : MemoryFile :=
  (files path).getD {}

/-- The target of a merge that is written by another connection stays as it is. -/
def MemoryFiles.merge (lower : PyText → PyText) (files : MemoryFiles) (source target : String) :
    Except StatementError MemoryFiles :=
  match files source with
  | none => .ok files
  | some f =>
    if (files.opened target).pending.isSome then .error .locked
    else do
      let merged ← EvoCI.mergeMemory lower f.committed (files.opened target).committed
      return Function.update files target (some ⟨merged, none⟩)

def MemoryAction.perform (lower : PyText → PyText) (action : MemoryAction)
    (files : MemoryFiles) : MemoryFiles :=
  match action with
  | .addEpisode path episode =>
    Function.update files path (some ((files.opened path).addEpisode lower episode).2)
  | .addLongTerm path memory operationKey now =>
    Function.update files path (some ((files.opened path).addLongTerm memory operationKey now).2)
  | .archive path memoryId =>
    Function.update files path (some ((files.opened path).archive memoryId).2)
  | .reopen path =>
    Function.update files path (some ⟨(files.opened path).committed, none⟩)
  | .mergeMemory source target =>
    match files.merge lower source target with
    | .ok merged => merged
    | .error _ => files

/-! ## What can be bound -/

theorem bindable_append {text rest : PyText} (h : Bindable text) (hrest : Bindable rest) :
    Bindable (text ++ rest) := by
  intro point hmem
  rcases List.mem_append.mp hmem with hmem | hmem
  · exact h point hmem
  · exact hrest point hmem

theorem bindable_intercalate {sep : PyText} (hsep : Bindable sep) {parts : List PyText}
    (h : ∀ part ∈ parts, Bindable part) : Bindable (sep.intercalate parts) := by
  induction parts with
  | nil => exact fun _ hmem => nomatch hmem
  | cons part parts ih =>
    cases parts with
    | nil =>
      rw [List.intercalate_singleton]
      exact h part List.mem_cons_self
    | cons next parts =>
      rw [List.intercalate_cons_cons]
      refine bindable_append (bindable_append (h part List.mem_cons_self) hsep) ?_
      exact ih fun other hother => h other (List.mem_cons_of_mem _ hother)

theorem bindable_textLine {label : String} (hlabel : Bindable (pyText label))
    {value : Option PyText} (h : ∀ text ∈ value, Bindable text) :
    ∀ part ∈ textLine label value, Bindable part := by
  intro part hpart
  unfold textLine at hpart
  split at hpart
  · cases hpart
  · next text heq =>
    rw [List.mem_singleton.mp hpart]
    exact bindable_append hlabel (h text (Option.filter_eq_some_iff.mp heq).1)

theorem bindable_textList {label : String} (hlabel : Bindable (pyText label))
    {items : List PyText} (h : ∀ item ∈ items, Bindable item) :
    ∀ part ∈ textList label items, Bindable part := by
  intro part hpart
  unfold textList at hpart
  split at hpart
  · cases hpart
  · rw [List.mem_singleton.mp hpart]
    refine bindable_append hlabel (bindable_intercalate (by decide) fun item hitem => ?_)
    exact h item (List.mem_of_mem_filter hitem)

theorem bindable_markFixText (lower : PyText → PyText) {fix : PyText} (h : Bindable fix) :
    Bindable (markFixText lower fix) := by
  unfold markFixText
  split
  · exact h
  · exact bindable_append h (by decide)

theorem joinSurrogates_bindable {text : PyText} (h : Bindable text) :
    JsonText.joinSurrogates text = text := by
  fun_induction JsonText.joinSurrogates text with
  | case1 high low units hpair =>
    have hhigh := h high List.mem_cons_self
    simp only [isSurrogate, decide_eq_false_iff_not] at hhigh
    omega
  | case2 high low units _ ih =>
    rw [ih fun point hpoint => h point (List.mem_cons_of_mem _ hpoint)]
  | case3 => rfl

theorem throughJson_bindable {items : List PyText} (h : ∀ item ∈ items, Bindable item) :
    throughJson items = items := by
  rw [throughJson]
  exact (List.map_congr_left fun item hitem => joinSurrogates_bindable (h item hitem)).trans
    (List.map_id items)

/-- The lists that the content of a failed run tells. -/
def EpisodeRow.told (e : EpisodeRow) : List PyText :=
  e.attemptedFixSummaries ++ e.attemptedFiles ++ e.verificationFailures ++
    e.externalFailureDetails ++ e.hypothesesAttempted

/-- The lists that the content tells have no lone surrogates. -/
def EpisodeRow.Tellable (e : EpisodeRow) : Prop :=
  e.success = false → ∀ item ∈ e.told, Bindable item

instance : DecidablePred EpisodeRow.Tellable := fun e =>
  inferInstanceAs (Decidable (e.success = false → ∀ item ∈ e.told, Bindable item))

theorem EpisodeRow.Tellable.content_stored {lower : PyText → PyText} {e : EpisodeRow}
    (h : e.Tellable) : e.stored.content lower = e.content lower := by
  cases hsuccess : e.success with
  | true => simp only [content, parts, stored, hsuccess, if_true]
  | false =>
    have htold := h hsuccess
    simp only [told, List.mem_append] at htold
    have h₁ := throughJson_bindable fun item hi => htold item (.inl (.inl (.inl (.inl hi))))
    have h₂ := throughJson_bindable fun item hi => htold item (.inl (.inl (.inl (.inr hi))))
    have h₃ := throughJson_bindable fun item hi => htold item (.inl (.inl (.inr hi)))
    have h₄ := throughJson_bindable fun item hi => htold item (.inl (.inr hi))
    have h₅ := throughJson_bindable fun item hi => htold item (.inr hi)
    simp only [content, parts, stored, h₁, h₂, h₃, h₄, h₅]

theorem EpisodeRow.Tellable.bindable_content {lower : PyText → PyText} {e : EpisodeRow}
    (h : e.Tellable) (hcolumns : ∀ column ∈ e.columns, Bindable column) :
    Bindable (e.content lower) := by
  have hsummary : Bindable e.failureSummary := hcolumns _ (by simp [columns])
  have hcause : ∀ text ∈ e.rootCause, Bindable text :=
    fun text ht => hcolumns _ (by simp [columns, Option.mem_def.mp ht])
  have hfix : ∀ text ∈ e.successfulFixSummary, Bindable text :=
    fun text ht => hcolumns _ (by simp [columns, Option.mem_def.mp ht])
  have hreason : ∀ text ∈ e.failureReason, Bindable text :=
    fun text ht => hcolumns _ (by simp [columns, Option.mem_def.mp ht])
  have hstage : ∀ text ∈ e.failureStage, Bindable text :=
    fun text ht => hcolumns _ (by simp [columns, Option.mem_def.mp ht])
  refine bindable_intercalate (by decide) fun part hpart => ?_
  have hpart := List.mem_of_mem_filter hpart
  unfold parts at hpart
  split at hpart
  · simp only [List.mem_append, List.mem_cons, List.not_mem_nil, or_false] at hpart
    rcases hpart with ((rfl | rfl) | hpart) | hpart
    · decide
    · exact hsummary
    · exact bindable_textLine (by decide) hcause part hpart
    · exact bindable_textLine (by decide) hfix part hpart
  · next hsuccess =>
    have htold := h (Bool.eq_false_iff.mpr hsuccess)
    simp only [told, List.mem_append] at htold
    simp only [List.mem_append, List.mem_cons, List.not_mem_nil, or_false] at hpart
    rcases hpart with (((((((hpart | hpart) | hpart) | hpart) | hpart) | hpart) | hpart) |
      hpart) | hpart
    · rcases hpart with rfl | rfl | rfl
      · decide
      · cases e.failureClass <;> decide
      · exact hsummary
    · exact bindable_textLine (by decide) hstage part hpart
    · exact bindable_textLine (by decide) hreason part hpart
    · refine bindable_textList (by decide) (fun item hitem => ?_) part hpart
      obtain ⟨fix, hfix, rfl⟩ := List.mem_map.mp hitem
      exact bindable_markFixText lower (htold fix (.inl (.inl (.inl (.inl hfix)))))
    · exact bindable_textList (by decide)
        (fun item hi => htold item (.inl (.inl (.inl (.inr hi))))) part hpart
    · exact bindable_textList (by decide)
        (fun item hi => htold item (.inl (.inl (.inr hi)))) part hpart
    · exact bindable_textList (by decide) (fun item hi => htold item (.inl (.inr hi))) part hpart
    · exact bindable_textLine (by decide) hcause part hpart
    · exact bindable_textList (by decide) (fun item hi => htold item (.inr hi)) part hpart

/-! ## The indexes stay in step -/

section InStep

variable (lower : PyText → PyText)

/-- Every episode and every fact has its one entry in the index, of what its row says, and there
are no other entries. -/
structure MemoryRows.InStep (rows : MemoryRows) : Prop where
  episodes : Indexed EpisodeRow.id (EpisodeRow.content lower) rows.episodes rows.episodesFts
  facts : Indexed FactRow.id FactRow.content rows.longTerm rows.longTermFts

/-- What the file holds, and what it would hold if the open transaction were committed. -/
structure MemoryFile.InStep (f : MemoryFile) : Prop where
  committed : f.committed.InStep lower
  pending : ∀ rows, f.pending = some rows → rows.InStep lower

variable {lower}

theorem MemoryFile.InStep.of_closed {rows : MemoryRows} (h : rows.InStep lower) :
    MemoryFile.InStep lower ⟨rows, none⟩ := ⟨h, fun _ heq => nomatch heq⟩

theorem MemoryFile.InStep.current {f : MemoryFile} (h : f.InStep lower) :
    f.current.InStep lower := by
  unfold MemoryFile.current
  cases hpending : f.pending with
  | none => exact h.committed
  | some rows => exact h.pending rows hpending

/-- A statement that raised before it changed anything leaves its transaction open. -/
theorem MemoryFile.InStep.opened {f : MemoryFile} (h : f.InStep lower) :
    MemoryFile.InStep lower { f with pending := some f.current } :=
  ⟨h.committed, fun _ heq => Option.some.inj heq ▸ h.current⟩

theorem notMem_of_noClash {rows : List EpisodeRow} {e : EpisodeRow}
    (h : rows.any (episodeClash e) = false) : e.id ∉ rows.map EpisodeRow.id := by
  intro hmem
  obtain ⟨row, hrow, heq⟩ := List.mem_map.mp hmem
  have hclash := List.any_eq_false.mp h row hrow
  simp [episodeClash, heq] at hclash

/-- A new episode is told without lone surrogates, unless its columns have some already. -/
theorem addEpisode_inStep {f : MemoryFile} (h : f.InStep lower) {e : EpisodeRow}
    (hok : (∀ column ∈ e.columns, Bindable column) →
      f.current.episodes.any (episodeClash e) = false → e.Tellable) :
    (f.addEpisode lower e).2.InStep lower := by
  simp only [MemoryFile.addEpisode]
  split
  · exact h.opened
  · next hcolumns =>
    have hcolumns := not_not.mp hcolumns
    split
    · exact .of_closed h.current
    · next hfree =>
      have hfree := Bool.eq_false_iff.mpr hfree
      have htell := hok hcolumns hfree
      rw [if_pos (htell.bindable_content hcolumns)]
      refine .of_closed ⟨?_, h.current.facts⟩
      have hnew : e.stored.id ∉ f.current.episodes.map EpisodeRow.id := notMem_of_noClash hfree
      have hconcat := h.current.episodes.concat hnew
      rwa [htell.content_stored] at hconcat

/-- A change of facts that leaves their ids and contents. -/
theorem MemoryRows.InStep.of_facts {rows : MemoryRows} (h : rows.InStep lower)
    {change : FactRow → FactRow} (hid : ∀ row, (change row).id = row.id)
    (hcontent : ∀ row, (change row).content = row.content) (operations : List PyText) :
    MemoryRows.InStep lower
      { rows with longTerm := rows.longTerm.map change, operations := operations } := by
  refine ⟨h.episodes, h.facts.congr ?_⟩
  rw [List.map_map]
  exact List.map_congr_left fun row _ => by simp only [Function.comp_apply, hid, hcontent]

theorem addLongTerm_inStep {f : MemoryFile} (h : f.InStep lower) (memory : FactRow)
    (operationKey : PyText) (now : Nat) :
    (f.addLongTerm memory operationKey now).2.InStep lower := by
  simp only [MemoryFile.addLongTerm]
  split
  · exact .of_closed h.committed
  · split
    · exact .of_closed h.committed
    · split
      · exact .of_closed h.committed
      · split
        · exact .of_closed h.committed
        · split
          · refine .of_closed (h.committed.of_facts (fun row => ?_) (fun row => ?_) _)
            · split <;> rfl
            · split <;> rfl
          · next hnew =>
            split
            · exact .of_closed ⟨h.committed.episodes, h.committed.facts.concat hnew⟩
            · exact .of_closed h.committed

theorem archive_inStep {f : MemoryFile} (h : f.InStep lower) (memoryId : PyText) :
    (f.archive memoryId).2.InStep lower := by
  simp only [MemoryFile.archive]
  split
  · refine .of_closed (h.current.of_facts (fun row => ?_) (fun row => ?_) _)
    · split <;> rfl
    · split <;> rfl
  · exact h.opened

/-- The rows of a merge: all of the target, and of the source those that clash with none; of facts
there is one for each id of either side. -/
structure Union (source target merged : MemoryRows) : Prop where
  kept : target.episodes ⊆ merged.episodes
  from_either : ∀ row ∈ merged.episodes, row ∈ target.episodes ∨ row ∈ source.episodes
  represented : ∀ row ∈ source.episodes, ∃ kept ∈ merged.episodes, episodeClash row kept = true
  facts : ∀ id, id ∈ merged.longTerm.map FactRow.id ↔
    id ∈ target.longTerm.map FactRow.id ∨ id ∈ source.longTerm.map FactRow.id

theorem mergeMemory_inStep {source target merged : MemoryRows} (h : target.InStep lower)
    (hmerge : mergeMemory lower source target = .ok merged) :
    merged.InStep lower ∧ Union source target merged := by
  have hclash : ∀ row current : EpisodeRow, row.id = current.id →
      episodeClash row current = true := by
    intro row current heq
    simp [episodeClash, heq]
  have hreplace : ∀ current row : FactRow, (FactRow.replace current row).id = row.id :=
    fun _ _ => rfl
  obtain ⟨hnodup, hkept, hfrom, hrepresented⟩ :=
    insertNews_spec hclash h.episodes.keys source.episodes
  simp only [mergeMemory] at hmerge
  split at hmerge
  · cases hmerge
    exact ⟨⟨.rebuild hnodup, .rebuild (nodup_upserts hreplace h.facts.keys _)⟩,
      hkept, hfrom, hrepresented, mem_upserts hreplace _⟩
  · cases hmerge

/-- A new episode whose columns can be bound has no lone surrogate in a list that its content
tells. -/
def MemoryAction.Tellable (action : MemoryAction) (files : MemoryFiles) : Prop :=
  match action with
  | .addEpisode path e => (∀ column ∈ e.columns, Bindable column) →
      (files.opened path).current.episodes.any (episodeClash e) = false → e.Tellable
  | _ => True

instance (action : MemoryAction) (files : MemoryFiles) : Decidable (action.Tellable files) :=
  match action with
  | .addEpisode path e => inferInstanceAs (Decidable
      ((∀ column ∈ e.columns, Bindable column) →
        (files.opened path).current.episodes.any (episodeClash e) = false → e.Tellable))
  | .addLongTerm _ _ _ _ => .isTrue trivial
  | .archive _ _ => .isTrue trivial
  | .reopen _ => .isTrue trivial
  | .mergeMemory _ _ => .isTrue trivial

def MemoryFiles.InStep (lower : PyText → PyText) (files : MemoryFiles) : Prop :=
  ∀ path f, files path = some f → f.InStep lower

theorem MemoryFiles.InStep.opened {files : MemoryFiles} (h : files.InStep lower) (path : String) :
    (files.opened path).InStep lower := by
  unfold MemoryFiles.opened
  cases hfile : files path with
  | none => exact .of_closed ⟨.nil, .nil⟩
  | some f => exact h path f hfile

theorem MemoryFiles.InStep.update {files : MemoryFiles} (h : files.InStep lower) {path : String}
    {f : MemoryFile} (hf : f.InStep lower) :
    MemoryFiles.InStep lower (Function.update files path (some f)) := by
  intro other g hg
  rcases eq_or_ne other path with rfl | hne
  · rw [Function.update_self] at hg
    exact Option.some.inj hg ▸ hf
  · rw [Function.update_of_ne hne] at hg
    exact h other g hg

theorem MemoryFiles.InStep.merge {files merged : MemoryFiles} (h : files.InStep lower)
    {source target : String} (hmerge : files.merge lower source target = .ok merged) :
    merged.InStep lower := by
  unfold MemoryFiles.merge at hmerge
  split at hmerge
  · exact Except.ok.inj hmerge ▸ h
  · next f _ =>
    split at hmerge
    · cases hmerge
    · obtain ⟨rows, hrows, heq⟩ := bind_eq_ok.mp hmerge
      cases heq
      exact h.update (.of_closed (mergeMemory_inStep (h.opened target).committed hrows).1)

theorem perform_inStep {files : MemoryFiles} {action : MemoryAction}
    (hok : action.Tellable files) (h : files.InStep lower) :
    (action.perform lower files).InStep lower := by
  cases action with
  | addEpisode path e => exact h.update (addEpisode_inStep (h.opened path) hok)
  | addLongTerm path memory operationKey now =>
    exact h.update (addLongTerm_inStep (h.opened path) memory operationKey now)
  | archive path memoryId => exact h.update (archive_inStep (h.opened path) memoryId)
  | reopen path => exact h.update (.of_closed (h.opened path).committed)
  | mergeMemory source target =>
    simp only [MemoryAction.perform]
    split
    · next merged hmerge => exact h.merge hmerge
    · exact h

/-- In every run whose new episodes can be told, every file keeps its indexes in step, and so does
what a merge makes of two of them. -/
theorem memory_inStep {actions : List MemoryAction}
    (h : Run.Every (MemoryAction.perform lower) MemoryAction.Tellable (fun _ => none) actions) :
    (∀ path f, Run.run (MemoryAction.perform lower) (fun _ => none) actions path = some f →
      f.committed.InStep lower) ∧
    ∀ source target s t merged,
      Run.run (MemoryAction.perform lower) (fun _ => none) actions source = some s →
      Run.run (MemoryAction.perform lower) (fun _ => none) actions target = some t →
      mergeMemory lower s.committed t.committed = .ok merged →
      merged.InStep lower ∧ Union s.committed t.committed merged := by
  have hnone : MemoryFiles.InStep lower (fun _ => none) := by
    intro path f hf
    cases hf
  have hfiles : MemoryFiles.InStep lower
      (Run.run (MemoryAction.perform lower) (fun _ => none) actions) :=
    Run.invariant_of_every (fun _ _ hok hinv => perform_inStep hok hinv) hnone h
  exact ⟨fun path f hf => (hfiles path f hf).committed, fun source target s t merged _ ht hmerge =>
    mergeMemory_inStep (hfiles target t ht).committed hmerge⟩

end InStep

namespace Sample

def branchEpisode (runId : String) (files : List PyText) : EpisodeRow where
  id := pyText ("episode:" ++ runId)
  runId := pyText runId
  repo := pyText "o/r"
  taskFamily := pyText "test"
  failureSummary := pyText "a test fails"
  success := false
  attemptedFiles := files

def pathFact : FactRow where
  id := pyText "fact"
  repository := pyText "o/r"
  content := pyText "tests need a database"
  confidence := 1 / 2
  sourceRunIds := [pyText "run-1"]
  createdAt := 0
  updatedAt := 0

/-- Two runs of a branch, a fact that is told twice and archived, and the merge into a
generation. -/
def branchRun : List MemoryAction :=
  [.addEpisode "branch" (branchEpisode "run-1" [pyText "a.py"]),
    .addLongTerm "branch" pathFact (pyText "key-1") 1,
    .addEpisode "branch" (branchEpisode "run-2" []),
    .addLongTerm "branch" pathFact (pyText "key-2") 2,
    .archive "branch" (pyText "fact"), .reopen "branch", .mergeMemory "branch" "generation"]

theorem branchRun_inStep : ∃ f, Run.run (MemoryAction.perform id) (fun _ => none) branchRun
    "generation" = some f ∧ f.committed.episodesFts.length = 2 ∧ f.committed.InStep id := by
  have hevery : Run.Every (MemoryAction.perform id) MemoryAction.Tellable (fun _ => none)
      branchRun := by decide +kernel
  have hfiles := (memory_inStep hevery).1
  have hlength : (Run.run (MemoryAction.perform id) (fun _ => none) branchRun
      "generation").map (fun f => f.committed.episodesFts.length) = some 2 := by decide +kernel
  obtain ⟨f, hf, hlen⟩ := Option.map_eq_some_iff.mp hlength
  exact ⟨f, hf, hlen, hfiles "generation" f hf⟩

/-- A file name that is not UTF-8 has a lone surrogate; the call raises, and the next one commits
the row that it left behind. -/
def strayRun : List MemoryAction :=
  [.addEpisode "branch" (branchEpisode "run-1" [[0xdcff]]),
    .addEpisode "branch" (branchEpisode "run-2" [])]

theorem stray_episode_not_indexed :
    ¬ ∀ actions path f, Run.run (MemoryAction.perform id) (fun _ => none) actions path = some f →
      f.committed.InStep id := by
  intro h
  have hlength : (Run.run (MemoryAction.perform id) (fun _ => none) strayRun "branch").map
      (fun f => (f.committed.episodes.length, f.committed.episodesFts.length)) = some (2, 1) := by
    decide +kernel
  obtain ⟨f, hf, hlen⟩ := Option.map_eq_some_iff.mp hlength
  obtain ⟨hrows, hentries⟩ := Prod.mk.inj hlen
  have heq := (h strayRun "branch" f hf).episodes.entries.length_eq
  rw [List.length_map] at heq
  omega

end Sample

end EvoCI
