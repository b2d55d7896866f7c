import EvoCI.WriteTools
import Mathlib.Data.List.Dedup

/-! What a repair worker hands on: the edits that turn the recorded paths of the
source into those of the staging copy. -/

namespace EvoCI

open Library

/-- `sorted(set(paths))`. -/
def sortedPaths (paths : List String) : List String := paths.dedup.insertionSort (· ≤ ·)

def maxStagedBytes : Nat := 4 * 1024 * 1024

/-- The trees that edits are collected from. -/
structure StagedPair where
  source : Files
  sourceRoot : Loc
  staging : Files
  stagingRoot : Loc
  /-- `_file_digest`. -/
  sha256 : Content → String

/-- One round of `collect_staged_edits`: the edit of a path, if it needs one, and the
bytes it adds to the total. -/
def StagedPair.collectPath (p : StagedPair) (path : String) (totalBytes : Nat) :
    Except PyError (Option FileEdit × Nat) :=
  match p.source.resolveRegularFile p.sourceRoot path false with
  | .error e => .error e
  | .ok sourceTarget =>
    match p.staging.resolveRegularFile p.stagingRoot path false with
    | .error e => .error e
    | .ok stagingTarget =>
      let expected := (p.source.contentAt sourceTarget).map p.sha256
      match p.source.contentAt sourceTarget, p.staging.contentAt stagingTarget with
      | some _, none => .ok (some (.remove path expected), totalBytes)
      | none, none => .ok (none, totalBytes)
      | before, some after =>
        match after.readText with
        | .error _ => .error (.policyViolation s!"staged file is not valid UTF-8 text: {path}")
        | .ok text =>
          if before.map Content.bytes = some (encode text) then .ok (none, totalBytes)
          else if maxStagedBytes < totalBytes + (encode text).length then
            .error (.policyViolation "staged changes exceed the total byte limit")
          else
            .ok (some (.replace path text expected), totalBytes + (encode text).length)

def StagedPair.collectPaths (p : StagedPair) : List String → Nat → Except PyError (List FileEdit)
  | [], _ => .ok []
  | path :: paths, totalBytes =>
    match p.collectPath path totalBytes with
    | .error e => .error e
    | .ok (edit, total) =>
      match p.collectPaths paths total with
      | .error e => .error e
      | .ok edits => .ok (edit.toList ++ edits)

/-- `collect_staged_edits`. -/
def StagedPair.collectStagedEdits (p : StagedPair) (changedPaths : List String) :
    Except PyError (List FileEdit) :=
  let uniquePaths := sortedPaths (changedPaths.filter (· ≠ ""))
  if maxPatchFiles < uniquePaths.length then
    .error (.policyViolation s!"staged changes include too many files: {uniquePaths.length}")
  else p.collectPaths uniquePaths 0

/-- `_collect_repair_edits` for the write scope of a task. -/
def StagedPair.collectRepairEdits (p : StagedPair)
    (changed restoredPaths writeScope : List String) :
    Except PyError (List FileEdit) :=
  match p.collectStagedEdits (sortedPaths (changed ++ restoredPaths)) with
  | .error e => .error e
  | .ok edits =>
    match assertEditsAllowed writeScope edits with
    | .error e => .error e
    | .ok () => .ok edits

/-- The edits of a worker that makes the calls on its staging copy. -/
def StagedPair.repairEdits (p : StagedPair) (registry : WriteRegistry) (calls : List WriteCall)
    (restoredPaths writeScope : List String) : Except PyError (List FileEdit) :=
  let st := Run.run (Staging.invoke registry) { files := p.staging } calls
  { p with staging := st.files, stagingRoot := registry.root }.collectRepairEdits
    st.changedPaths restoredPaths writeScope

/-! ## What is collected -/

theorem mem_sortedPaths (paths : List String) (path : String) :
    path ∈ sortedPaths paths ↔ path ∈ paths := by
  unfold sortedPaths
  rw [List.mem_insertionSort, List.mem_dedup]

theorem collectPath_path {p : StagedPair} {path : String} {bytes total : Nat} {edit : FileEdit}
    (h : p.collectPath path bytes = .ok (some edit, total)) : edit.path = path := by
  unfold StagedPair.collectPath at h
  simp only at h
  repeat' split at h
  all_goals cases h
  all_goals rfl

theorem collectPaths_path {p : StagedPair} {paths : List String} {bytes : Nat}
    {edits : List FileEdit} (h : p.collectPaths paths bytes = .ok edits) :
    ∀ edit ∈ edits, edit.path ∈ paths := by
  induction paths generalizing bytes edits with
  | nil =>
    cases h
    simp
  | cons path paths ih =>
    unfold StagedPair.collectPaths at h
    split at h
    · cases h
    next first total hfirst =>
      split at h
      · cases h
      next rest hrest =>
        cases h
        intro edit hedit
        rcases List.mem_append.mp hedit with hin | hin
        · rw [Option.mem_toList] at hin
          subst hin
          exact List.mem_cons.mpr (.inl (collectPath_path hfirst))
        · exact List.mem_cons_of_mem _ (ih hrest edit hin)

/-- Edits are collected for recorded and restored paths only. -/
theorem collectRepairEdits_path {p : StagedPair} {changed restoredPaths writeScope : List String}
    {edits : List FileEdit}
    (h : p.collectRepairEdits changed restoredPaths writeScope = .ok edits) :
    ∀ edit ∈ edits, edit.path ∈ changed ∨ edit.path ∈ restoredPaths := by
  unfold StagedPair.collectRepairEdits at h
  split at h
  · cases h
  next collected hcollected =>
    split at h
    · cases h
    · cases h
      unfold StagedPair.collectStagedEdits at hcollected
      simp only at hcollected
      split at hcollected
      · cases hcollected
      · intro edit hedit
        have hin := collectPaths_path hcollected edit hedit
        rw [mem_sortedPaths, List.mem_filter, mem_sortedPaths] at hin
        exact List.mem_append.mp hin.1

end EvoCI
