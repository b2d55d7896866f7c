import EvoCI.Campaign.TreeHash
import EvoCI.Capability.UsageMemory
import EvoCI.Library.Indexed
import EvoCI.Library.Keyed

/-! The merge of the skills of a round: every task learned in a copy of the parent generation, and
packages, rows, counters, usage memories and the full-text index are brought together by routines
that share what was accepted and what is claimed. -/

namespace EvoCI

open Library

/-! ## Skills of a generation and of a branch -/

/-- A directory `skills/<skill_id>`. -/
structure SkillDir where
  package : Option FileTree := none
  previous : Option FileTree := none
  memory : Option String := none

/-- A row of `applied_operations`. -/
structure StoredOperation where
  resultJson : String
  createdAt : Nat
  deriving DecidableEq, Repr

/-- The tables of `capabilities.sqlite`, by primary key. -/
structure SkillTables where
  skills : Dict String SkillRow
  stats : Dict String SkillStats
  fts : List (String × String)
  operations : Dict String StoredOperation

/-- The directory `skills` and the database beside it. -/
structure SkillState where
  dirs : Dict String SkillDir
  tables : SkillTables

/-- What a task left: a branch may have no database. -/
structure SkillBranch where
  dirs : Dict String SkillDir
  tables : Option SkillTables

/-- The hash function, `LIKE` and the clock. -/
structure MergeHost where
  sha256 : List UInt8 → String
  like : String → String → Bool
  now : Nat

/-! ## Packages -/

def mergeSkillMemory (destination source : Option String) : String :=
  mergeMemoryTexts ((destination.toList ++ source.toList).map readMemoryText)

/-- The body of the loop over the directories of a branch: what stands in the target afterwards,
and whether the package was accepted. -/
def mergeSkillDir (sha256 : List UInt8 → String) (parentSkill : Option SkillDir)
    (claimed : Bool) (source : SkillDir) (destination : Option SkillDir) : SkillDir × Bool :=
  match destination with
  | none => (source, true)
  | some current =>
    let kept := { current with memory := some (mergeSkillMemory current.memory source.memory) }
    match source.package with
    | none => (kept, false)
    | some package =>
      if packageChanged sha256 (parentSkill.bind SkillDir.package) package ∧ claimed = false then
        ({ kept with package := some package, previous := kept.package }, true)
      else (kept, false)

structure PackageMerge where
  dirs : Dict String SkillDir
  claimedUpdates : List String
  accepted : List String

def mergePackage (sha256 : List UInt8 → String) (parent : Dict String SkillDir)
    (m : PackageMerge) (item : String × SkillDir) : PackageMerge :=
  let (dir, taken) := mergeSkillDir sha256 (parent.get? item.1) (item.1 ∈ m.claimedUpdates) item.2
    (m.dirs.get? item.1)
  { dirs := m.dirs.set item.1 dir
    claimedUpdates := if taken then m.claimedUpdates ++ [item.1] else m.claimedUpdates
    accepted := if taken then m.accepted ++ [item.1] else m.accepted }

/-- `skill_id.startswith(".")`. -/
def isHidden (name : String) : Bool := name.toList.head? = some '.'

/-- The directories a merge looks at, sorted by name. -/
def visibleSkills (dirs : Dict String SkillDir) : Dict String SkillDir :=
  (dirs.filter fun item => !isHidden item.1).insertionSort fun item other => item.1 ≤ other.1

/-- `_merge_skill_packages`. -/
def mergeSkillPackages (sha256 : List UInt8 → String) (parent source : Dict String SkillDir)
    (dirs : Dict String SkillDir) (claimedUpdates : List String) : PackageMerge :=
  (visibleSkills source).foldl (mergePackage sha256 parent) ⟨dirs, claimedUpdates, []⟩

/-! ## Rows -/

def storedPackagePath (skillRoot skillId : String) : String := s!"{skillRoot}/{skillId}/package"

/-- The operations of a source whose result names the skill. -/
def mergeOperations (host : MergeHost) (skillId : String)
    (source target : Dict String StoredOperation) : Dict String StoredOperation :=
  (source.filter fun item => host.like item.2.resultJson s!"%\"skill_id\": \"{skillId}\"%").foldl
    (fun target item => if item.1 ∈ target.keys then target else target.set item.1 item.2) target

def mergeSkillRow (host : MergeHost) (skillRoot : String) (source : SkillTables)
    (accepted : List String) (target : SkillTables) (item : String × SkillRow) : SkillTables :=
  let row : SkillRow := { item.2 with packagePath := storedPackagePath skillRoot item.1 }
  { target with
    skills :=
      if (target.skills.get? item.1).isNone ∨ item.1 ∈ accepted then target.skills.set item.1 row
      else target.skills
    stats :=
      if (target.stats.get? item.1).isSome then target.stats
      else target.stats.set item.1
        ((source.stats.get? item.1).getD { createdAt := host.now, updatedAt := host.now })
    operations := mergeOperations host item.1 source.operations target.operations }

/-- `_merge_skill_rows`. -/
def mergeSkillRows (host : MergeHost) (skillRoot : String) (source : SkillTables)
    (accepted : List String) (target : SkillTables) : SkillTables :=
  source.skills.foldl (mergeSkillRow host skillRoot source accepted) target

/-- The counters with what a branch added to those of the parent. -/
def SkillStats.grow (stats delta parent : SkillStats) : SkillStats :=
  { stats with
    retrievalCount := stats.retrievalCount + (delta.retrievalCount - parent.retrievalCount)
    selectedCount := stats.selectedCount + (delta.selectedCount - parent.selectedCount)
    useCount := stats.useCount + (delta.useCount - parent.useCount)
    successCount := stats.successCount + (delta.successCount - parent.successCount)
    failureCount := stats.failureCount + (delta.failureCount - parent.failureCount)
    patchCount := stats.patchCount + (delta.patchCount - parent.patchCount) }

/-- Only a skill that both sides of the join have grows. -/
def SkillStats.growBy (delta parent : Option SkillStats) (stats : SkillStats) : SkillStats :=
  match delta, parent with
  | some delta, some parent => stats.grow delta parent
  | _, _ => stats

def mergeStatDelta (parent stats : Dict String SkillStats) (item : String × SkillStats) :
    Dict String SkillStats :=
  match parent.get? item.1, stats.get? item.1 with
  | some before, some current => stats.set item.1 (current.grow item.2 before)
  | _, _ => stats

/-- `_merge_existing_skill_stat_deltas`. -/
def mergeStatDeltas (source parent stats : Dict String SkillStats) : Dict String SkillStats :=
  source.foldl (mergeStatDelta parent) stats

/-- What the index has of a skill. -/
def indexedContent (manifest : SkillManifest) : String :=
  " ".intercalate
    (manifest.name :: manifest.description :: (manifest.triggers ++ manifest.taskFamilies))

def SkillRow.moveTo (path : String) (row : SkillRow) : SkillRow := { row with packagePath := path }

/-- `_relocate_skill_paths`. -/
def relocateSkillPaths (storedRoot validationRoot : String) (dirs : Dict String SkillDir)
    (tables : SkillTables) : Except PyError SkillTables :=
  let missing := tables.skills.filter fun item =>
    ((dirs.get? item.1).bind SkillDir.package).isNone
  if missing = [] then
    .ok { tables with skills := tables.skills.map fun item =>
      (item.1, item.2.moveTo (storedPackagePath storedRoot item.1)) }
  else
    let details := ", ".intercalate <| missing.map fun item =>
      item.1 ++ " at " ++ storedPackagePath validationRoot item.1
    .error (.runtimeError s!"skill package missing during generation commit: {details}")

/-- The target of a round's merge, and which updates are claimed. -/
structure MergedSkills where
  state : SkillState
  claimedUpdates : List String := []

/-- `_merge_skills` up to the relocation of the paths. -/
def joinSkills (host : MergeHost) (skillRoot : String) (parent : SkillState) (m : MergedSkills)
    (dirs : Dict String SkillDir) (source : SkillTables) : MergedSkills :=
  let packages := mergeSkillPackages host.sha256 parent.dirs dirs m.state.dirs m.claimedUpdates
  let rows := mergeSkillRows host skillRoot source packages.accepted m.state.tables
  { state :=
      { dirs := packages.dirs
        tables := { rows with
          stats := mergeStatDeltas source.stats parent.tables.stats rows.stats
          fts := rows.skills.map fun item => (item.1, indexedContent item.2.manifest) } }
    claimedUpdates := packages.claimedUpdates }

/-- `_merge_skills`: a branch without a database gives nothing. -/
def mergeSkills (host : MergeHost) (skillRoot : String) (parent : SkillState) (m : MergedSkills)
    (branch : SkillBranch) : Except PyError MergedSkills :=
  match branch.tables with
  | none => .ok m
  | some source => do
    let joined := joinSkills host skillRoot parent m branch.dirs source
    let relocated ← relocateSkillPaths skillRoot skillRoot joined.state.dirs joined.state.tables
    return { joined with state := { joined.state with tables := relocated } }

/-- The skills of the next generation: a copy of the parent, then branch after branch. -/
def mergeSkillBranches (host : MergeHost) (skillRoot : String) (parent : SkillState)
    (branches : List SkillBranch) : Except PyError MergedSkills :=
  branches.foldlM (mergeSkills host skillRoot parent) ⟨parent, []⟩

/-! ## One skill -/

/-- What a row says of a skill, wherever its package stands. -/
structure SkillEntry where
  manifest : SkillManifest
  enabled : Bool
  deriving DecidableEq, Repr

def SkillRow.entry (row : SkillRow) : SkillEntry := ⟨row.manifest, row.enabled⟩

/-- What a branch has of one skill. -/
structure BranchSkill where
  dir : Option SkillDir := none
  row : Option SkillEntry := none
  stats : Option SkillStats := none

/-- What the target has of one skill, and whether its update is claimed. -/
@[ext] structure SkillView where
  dir : Option SkillDir
  claimed : Bool
  row : Option SkillEntry
  stats : Option SkillStats

/-- What a branch brings of a skill: nothing without a database, and no hidden directory. -/
def SkillBranch.skill (branch : SkillBranch) (skillId : String) : BranchSkill :=
  match branch.tables with
  | none => {}
  | some source =>
    { dir := if isHidden skillId then none else branch.dirs.get? skillId
      row := (source.skills.get? skillId).map SkillRow.entry
      stats := source.stats.get? skillId }

def MergedSkills.skill (m : MergedSkills) (skillId : String) : SkillView where
  dir := m.state.dirs.get? skillId
  claimed := skillId ∈ m.claimedUpdates
  row := (m.state.tables.skills.get? skillId).map SkillRow.entry
  stats := m.state.tables.stats.get? skillId

section Merge

variable (host : MergeHost) (parentSkill : Option SkillDir) (parentStats : Option SkillStats)

/-- The merge of a branch, for one skill. -/
def SkillView.merge (v : SkillView) (b : BranchSkill) : SkillView :=
  let merged := b.dir.map fun source =>
    mergeSkillDir host.sha256 parentSkill v.claimed source v.dir
  let accepted := merged.any Prod.snd
  { dir := (merged.map Prod.fst).or v.dir
    claimed := v.claimed || accepted
    row := (b.row.filter fun _ => v.row.isNone || accepted).or v.row
    stats := (v.stats.or (b.row.map fun _ =>
        b.stats.getD { createdAt := host.now, updatedAt := host.now })).map
      (SkillStats.growBy b.stats parentStats) }

end Merge

/-! ## The merge as it is seen of one skill -/

theorem keys_visibleSkills_nodup {dirs : Dict String SkillDir} (h : dirs.keys.Nodup) :
    (visibleSkills dirs).keys.Nodup := by
  have hperm := (List.perm_insertionSort (fun item other : String × SkillDir => item.1 ≤ other.1)
    (dirs.filter fun item => !isHidden item.1)).map Prod.fst
  refine hperm.nodup_iff.mpr (List.Nodup.sublist ?_ h)
  exact List.filter_sublist.map Prod.fst

theorem get?_visibleSkills {dirs : Dict String SkillDir} (h : dirs.keys.Nodup) (skillId : String) :
    (visibleSkills dirs).get? skillId = if isHidden skillId then none else dirs.get? skillId := by
  refine Option.ext fun dir => ?_
  rw [← Dict.mem_iff_get? _ (keys_visibleSkills_nodup h), visibleSkills, List.mem_insertionSort,
    List.mem_filter, Dict.mem_iff_get? _ h]
  cases hhidden : isHidden skillId with
  | true => simp
  | false => simp

/-- A package's merge, as it is seen of one skill. -/
theorem mergePackage_local (sha256 : List UInt8 → String) (parent : Dict String SkillDir) :
    Keyed.Local Prod.fst
      (fun (m : PackageMerge) k => (m.dirs.get? k, decide (k ∈ m.claimedUpdates),
        decide (k ∈ m.accepted)))
      (mergePackage sha256 parent)
      (fun item seen =>
        let merged := mergeSkillDir sha256 (parent.get? item.1) seen.2.1 item.2 seen.1
        (some merged.1, seen.2.1 || merged.2, seen.2.2 || merged.2)) where
  here m item := by
    simp only [mergePackage, Dict.get?_set_self]
    split
    · next htaken => simp [htaken]
    · next htaken => simp [htaken]
  elsewhere m item k hne := by
    simp only [mergePackage, Dict.get?_set_of_ne _ _ hne]
    split
    · simp [hne]
    · rfl

theorem mergeSkillPackages_skill (sha256 : List UInt8 → String)
    (parent : Dict String SkillDir) {source : Dict String SkillDir} (h : source.keys.Nodup)
    (dirs : Dict String SkillDir) (claimedUpdates : List String) (k : String) :
    let packages := mergeSkillPackages sha256 parent source dirs claimedUpdates
    let merged := (if isHidden k then none else source.get? k).map fun found =>
      mergeSkillDir sha256 (parent.get? k) (k ∈ claimedUpdates) found (dirs.get? k)
    packages.dirs.get? k = (merged.map Prod.fst).or (dirs.get? k) ∧
      decide (k ∈ packages.claimedUpdates) =
        (decide (k ∈ claimedUpdates) || merged.any Prod.snd) ∧
      decide (k ∈ packages.accepted) = merged.any Prod.snd := by
  have hview := Keyed.foldl_dict (mergePackage_local sha256 parent) (keys_visibleSkills_nodup h)
    ⟨dirs, claimedUpdates, []⟩ k
  rw [get?_visibleSkills h] at hview
  simp only [mergeSkillPackages]
  cases hfound : (if isHidden k = true then none else source.get? k) with
  | none =>
    rw [hfound] at hview
    simp only [Prod.mk.injEq] at hview
    obtain ⟨hdirs, hclaimed, haccepted⟩ := hview
    exact ⟨hdirs, hclaimed.trans (Bool.or_false _).symm, haccepted.trans (by simp)⟩
  | some found =>
    rw [hfound] at hview
    simp only [Prod.mk.injEq] at hview
    obtain ⟨hdirs, hclaimed, haccepted⟩ := hview
    exact ⟨hdirs, hclaimed, haccepted.trans (by simp)⟩

/-- The rows of a source, as they are seen of one skill. -/
theorem mergeSkillRow_local (host : MergeHost) (skillRoot : String) (source : SkillTables)
    (accepted : List String) :
    Keyed.Local Prod.fst
      (fun (t : SkillTables) k => ((t.skills.get? k).map SkillRow.entry, t.stats.get? k))
      (mergeSkillRow host skillRoot source accepted)
      (fun item seen =>
        (if seen.1.isNone ∨ item.1 ∈ accepted then some item.2.entry else seen.1,
          seen.2.or (some ((source.stats.get? item.1).getD
            { createdAt := host.now, updatedAt := host.now })))) where
  here t item := by
    simp only [mergeSkillRow, Option.isNone_map]
    refine Prod.ext ?_ ?_
    · split
      · rw [Dict.get?_set_self]
        rfl
      · rfl
    · cases hstats : t.stats.get? item.1 with
      | none => simp
      | some stats => simp [hstats]
  elsewhere t item k hne := by
    simp only [mergeSkillRow, Prod.mk.injEq]
    constructor
    · split
      · rw [Dict.get?_set_of_ne _ _ hne]
      · rfl
    · split
      · rfl
      · rw [Dict.get?_set_of_ne _ _ hne]

theorem mergeSkillRows_skill (host : MergeHost) (skillRoot : String) {source : SkillTables}
    (h : source.skills.keys.Nodup) (accepted : List String) (target : SkillTables) (k : String) :
    let rows := mergeSkillRows host skillRoot source accepted target
    let row := (source.skills.get? k).map SkillRow.entry
    let old := (target.skills.get? k).map SkillRow.entry
    (rows.skills.get? k).map SkillRow.entry =
        (row.filter fun _ => old.isNone || decide (k ∈ accepted)).or old ∧
      rows.stats.get? k = (target.stats.get? k).or (row.map fun _ =>
        (source.stats.get? k).getD { createdAt := host.now, updatedAt := host.now }) := by
  have hview := Keyed.foldl_dict (mergeSkillRow_local host skillRoot source accepted) h target k
  simp only [mergeSkillRows]
  cases hrow : source.skills.get? k with
  | none =>
    rw [hrow, Prod.mk.injEq] at hview
    refine ⟨hview.1, hview.2.trans ?_⟩
    simp
  | some row =>
    rw [hrow, Prod.mk.injEq] at hview
    refine ⟨hview.1.trans ?_, hview.2⟩
    simp only [Option.map_some, Option.filter_some, Bool.or_eq_true, decide_eq_true_eq]
    split
    · rfl
    · rfl

theorem SkillStats.map_growBy_none (parent stats : Option SkillStats) :
    stats.map (SkillStats.growBy none parent) = stats := by
  cases stats with
  | none => rfl
  | some stats => rfl

theorem mergeStatDelta_local (parent : Dict String SkillStats) :
    Keyed.Local Prod.fst (fun (stats : Dict String SkillStats) k => stats.get? k)
      (mergeStatDelta parent)
      (fun item seen => seen.map (SkillStats.growBy (some item.2) (parent.get? item.1))) where
  here stats item := by
    simp only [mergeStatDelta]
    split
    · next before current hbefore hcurrent =>
      rw [Dict.get?_set_self, hbefore, hcurrent]
      rfl
    · next hnone =>
      cases hcurrent : stats.get? item.1 with
      | none => rfl
      | some current =>
        cases hbefore : parent.get? item.1 with
        | none => rfl
        | some before => exact absurd hcurrent (hnone before current hbefore)
  elsewhere stats item k hne := by
    simp only [mergeStatDelta]
    split
    · exact Dict.get?_set_of_ne _ _ hne
    · rfl

theorem mergeStatDeltas_skill {source : Dict String SkillStats} (h : source.keys.Nodup)
    (parent stats : Dict String SkillStats) (k : String) :
    (mergeStatDeltas source parent stats).get? k =
      (stats.get? k).map (SkillStats.growBy (source.get? k) (parent.get? k)) := by
  have hview := Keyed.foldl_dict (mergeStatDelta_local parent) h stats k
  rw [mergeStatDeltas, hview]
  cases source.get? k with
  | none => exact (SkillStats.map_growBy_none (parent.get? k) (stats.get? k)).symm
  | some delta => rfl

/-! ## Paths -/

theorem mem_of_get? {ν : Type} {d : Dict String ν} {k : String} {value : ν}
    (h : d.get? k = some value) : (k, value) ∈ d := by
  induction d with
  | nil => cases h
  | cons item d ih =>
    obtain ⟨key, first⟩ := item
    rw [Dict.get?_cons] at h
    split at h
    · next heq =>
      obtain rfl := Option.some.inj h
      rw [heq]
      exact List.mem_cons_self
    · exact List.mem_cons_of_mem _ (ih h)

theorem get?_map_snd {ν ω : Type} (f : String → ν → ω) (d : Dict String ν) (k : String) :
    Dict.get? (d.map fun item => (item.1, f item.1 item.2)) k = (Dict.get? d k).map (f k) := by
  induction d with
  | nil => rfl
  | cons item d ih =>
    rw [List.map_cons, Dict.get?_cons, Dict.get?_cons, ih]
    split
    · next heq => rw [heq, Option.map_some]
    · rfl

theorem entry_moved (path : String → String) (d : Dict String SkillRow) (k : String) :
    (Dict.get? (d.map fun item => (item.1, item.2.moveTo (path item.1))) k).map SkillRow.entry =
      (Dict.get? d k).map SkillRow.entry := by
  rw [get?_map_snd fun id row => SkillRow.moveTo (path id) row, Option.map_map]
  rfl

/-- Rows whose packages are there are given their paths, and nothing else changes. -/
theorem relocateSkillPaths_ok {storedRoot validationRoot : String} {dirs : Dict String SkillDir}
    {tables relocated : SkillTables} :
    relocateSkillPaths storedRoot validationRoot dirs tables = .ok relocated ↔
      (∀ item ∈ tables.skills, ((dirs.get? item.1).bind SkillDir.package).isSome = true) ∧
      relocated = { tables with skills := tables.skills.map fun item =>
        (item.1, item.2.moveTo (storedPackagePath storedRoot item.1)) } := by
  have hmissing : (tables.skills.filter fun item =>
      ((dirs.get? item.1).bind SkillDir.package).isNone) = [] ↔
      ∀ item ∈ tables.skills, ((dirs.get? item.1).bind SkillDir.package).isSome = true := by
    rw [List.filter_eq_nil_iff]
    refine forall₂_congr fun item _ => ?_
    cases (dirs.get? item.1).bind SkillDir.package <;> simp
  rw [relocateSkillPaths, ← hmissing]
  split
  · next hnone => simp only [hnone, Except.ok.injEq, true_and, eq_comm]
  · next hsome =>
    simp only [hsome, false_and, iff_false]
    intro h
    cases h

/-! ## Branches -/

/-- The tables of a branch have their primary keys, and a directory lists a name once. -/
structure SkillBranch.Keyed (branch : SkillBranch) : Prop where
  dirs : branch.dirs.keys.Nodup
  skills : ∀ tables ∈ branch.tables, tables.skills.keys.Nodup
  stats : ∀ tables ∈ branch.tables, tables.stats.keys.Nodup

theorem joinSkills_skill (host : MergeHost) (skillRoot : String) (parent : SkillState)
    (m : MergedSkills) {branch : SkillBranch} {source : SkillTables} (hkeyed : branch.Keyed)
    (h : branch.tables = some source) (k : String) :
    (joinSkills host skillRoot parent m branch.dirs source).skill k =
      (m.skill k).merge host (parent.dirs.get? k) (parent.tables.stats.get? k)
        (branch.skill k) := by
  obtain ⟨hdirs, hclaimed, haccepted⟩ := mergeSkillPackages_skill host.sha256 parent.dirs
    hkeyed.dirs m.state.dirs m.claimedUpdates k
  obtain ⟨hrow, hstats⟩ := mergeSkillRows_skill host skillRoot (hkeyed.skills source h)
    (mergeSkillPackages host.sha256 parent.dirs branch.dirs m.state.dirs
      m.claimedUpdates).accepted m.state.tables k
  have hgrown := mergeStatDeltas_skill (hkeyed.stats source h) parent.tables.stats
  simp only [SkillBranch.skill, h]
  refine SkillView.ext hdirs hclaimed (hrow.trans ?_) ((hgrown _ k).trans ?_)
  · simp only [SkillView.merge]
    rw [haccepted]
    rfl
  · rw [hstats]
    rfl

/-- What a branch with a database makes of the target, unless a package is missing. -/
theorem mergeSkills_ok {host : MergeHost} {skillRoot : String} {parent : SkillState}
    {m merged : MergedSkills} {branch : SkillBranch} {source : SkillTables}
    (h : branch.tables = some source) :
    let joined := joinSkills host skillRoot parent m branch.dirs source
    mergeSkills host skillRoot parent m branch = .ok merged ↔
      (∀ item ∈ joined.state.tables.skills,
        ((joined.state.dirs.get? item.1).bind SkillDir.package).isSome = true) ∧
      merged = { joined with state := { joined.state with tables :=
        { joined.state.tables with skills := joined.state.tables.skills.map fun item =>
          (item.1, item.2.moveTo (storedPackagePath skillRoot item.1)) } } } := by
  simp only [mergeSkills, h]
  constructor
  · intro hok
    obtain ⟨relocated, hrelocated, heq⟩ := bind_eq_ok.mp hok
    obtain ⟨hthere, rfl⟩ := relocateSkillPaths_ok.mp hrelocated
    exact ⟨hthere, (Except.ok.inj heq).symm⟩
  · rintro ⟨hthere, rfl⟩
    exact bind_eq_ok.mpr ⟨_, relocateSkillPaths_ok.mpr ⟨hthere, rfl⟩, rfl⟩

theorem mergeSkills_skill {host : MergeHost} {skillRoot : String} {parent : SkillState}
    {m merged : MergedSkills} {branch : SkillBranch} (hkeyed : branch.Keyed)
    (h : mergeSkills host skillRoot parent m branch = .ok merged) (k : String) :
    merged.skill k = (m.skill k).merge host (parent.dirs.get? k) (parent.tables.stats.get? k)
      (branch.skill k) := by
  cases htables : branch.tables with
  | none =>
    simp only [mergeSkills, htables] at h
    obtain rfl := Except.ok.inj h
    simp [SkillBranch.skill, htables, SkillView.merge, MergedSkills.skill,
      SkillStats.map_growBy_none]
  | some source =>
    obtain ⟨-, rfl⟩ := (mergeSkills_ok htables).mp h
    rw [← joinSkills_skill host skillRoot parent m hkeyed htables]
    simp only [MergedSkills.skill, entry_moved]

theorem mergeSkillBranches_skill {host : MergeHost} {skillRoot : String} {parent : SkillState}
    {branches : List SkillBranch} (hkeyed : ∀ branch ∈ branches, branch.Keyed)
    {m merged : MergedSkills}
    (h : branches.foldlM (mergeSkills host skillRoot parent) m = .ok merged) (k : String) :
    merged.skill k = branches.foldl (fun v branch => v.merge host (parent.dirs.get? k)
      (parent.tables.stats.get? k) (branch.skill k)) (m.skill k) := by
  induction branches generalizing m with
  | nil =>
    obtain rfl := Except.ok.inj h
    rfl
  | cons branch branches ih =>
    rw [List.foldlM_cons] at h
    obtain ⟨next, hnext, hrest⟩ := bind_eq_ok.mp h
    rw [ih (fun other hother => hkeyed other (List.mem_cons_of_mem _ hother)) hrest,
      mergeSkills_skill (hkeyed branch List.mem_cons_self) hnext, List.foldl_cons]

/-! ## Packages -/

def SkillDir.withoutMemory (dir : SkillDir) : SkillDir := { dir with memory := none }

/-- Whether a branch changed the skill: its package is another than the parent's, or the parent has
no such skill. -/
def changesSkill (sha256 : List UInt8 → String) (parentSkill : Option SkillDir)
    (source : SkillDir) : Bool :=
  match parentSkill with
  | none => true
  | some parent => source.package.any (packageChanged sha256 parent.package)

/-- The skill as the first branch that changed it has it, over the parent's; unchanged it is the
parent's. What counts as changed is what `tree_hash` tells: a package with the hash of the parent's
is taken for it. -/
def settledDir (sha256 : List UInt8 → String) (parentSkill : Option SkillDir)
    (found : List SkillDir) : Option SkillDir :=
  match found.find? (changesSkill sha256 parentSkill), parentSkill with
  | none, _ => parentSkill
  | some dir, none => some dir
  | some dir, some parent => some { dir with previous := parent.package }

section OneSkill

variable (host : MergeHost) (parentSkill : Option SkillDir) (parentStats : Option SkillStats)

/-- What is there of a skill after the branches that had these directories of it. -/
structure SettledBy (v : SkillView) (found : List SkillDir) : Prop where
  dir : v.dir.map SkillDir.withoutMemory =
    (settledDir host.sha256 parentSkill found).map SkillDir.withoutMemory
  claimed : v.claimed = found.any (changesSkill host.sha256 parentSkill)

variable {host parentSkill parentStats}

variable (parentSkill) in
theorem mergeSkillDir_some (sha256 : List UInt8 → String) (claimed : Bool)
    (source current : SkillDir) :
    let merged := mergeSkillDir sha256 parentSkill claimed source (some current)
    let taken := source.package.any
      (packageChanged sha256 (parentSkill.bind SkillDir.package)) && !claimed
    merged.2 = taken ∧ merged.1.withoutMemory =
      if taken then { package := source.package, previous := current.package }
      else current.withoutMemory := by
  cases hpackage : source.package with
  | none => simp [mergeSkillDir, hpackage, SkillDir.withoutMemory]
  | some package =>
    simp only [mergeSkillDir, hpackage, Option.any_some, Bool.and_eq_true, Bool.not_eq_true']
    split
    · next htaken => simp [htaken, SkillDir.withoutMemory]
    · next hkept =>
      have htaken : (packageChanged sha256 (parentSkill.bind SkillDir.package) package &&
          !claimed) = false := by
        rw [Bool.and_eq_false_iff]
        by_cases hchanged : packageChanged sha256 (parentSkill.bind SkillDir.package) package = true
        · right
          rw [Bool.not_eq_false']
          exact Bool.eq_true_of_not_eq_false fun hfree => hkept ⟨hchanged, hfree⟩
        · exact .inl (Bool.eq_false_iff.mpr hchanged)
      exact ⟨htaken.symm, rfl⟩

/-- A directory that is not the first that changed the skill changes nothing. -/
theorem settledDir_concat {sha256 : List UInt8 → String} {found : List SkillDir}
    {source : SkillDir} :
    settledDir sha256 parentSkill (found ++ [source]) =
      if changesSkill sha256 parentSkill source && !found.any (changesSkill sha256 parentSkill) then
        settledDir sha256 parentSkill [source]
      else settledDir sha256 parentSkill found := by
  unfold settledDir
  rw [List.find?_append]
  cases hfound : found.find? (changesSkill sha256 parentSkill) with
  | some dir =>
    have hany : found.any (changesSkill sha256 parentSkill) = true :=
      List.any_eq_true.mpr ⟨dir, List.mem_of_find?_eq_some hfound, List.find?_some hfound⟩
    simp [hany]
  | none =>
    have hany : found.any (changesSkill sha256 parentSkill) = false :=
      List.any_eq_false.mpr (List.find?_eq_none.mp hfound)
    cases hsource : changesSkill sha256 parentSkill source with
    | true => simp [hany, hsource]
    | false => simp [hany, hsource]

theorem settledDir_of_none {sha256 : List UInt8 → String} {found : List SkillDir}
    (h : found.any (changesSkill sha256 parentSkill) = false) :
    settledDir sha256 parentSkill found = parentSkill := by
  unfold settledDir
  rw [List.find?_eq_none.mpr (List.any_eq_false.mp h)]

/-- A skill that nobody has is new in the branch. -/
theorem SettledBy.absent {v : SkillView} {found : List SkillDir}
    (h : SettledBy host parentSkill v found) (hdir : v.dir = none) :
    parentSkill = none ∧ found.any (changesSkill host.sha256 parentSkill) = false := by
  have hsettled : settledDir host.sha256 parentSkill found = none := by
    have hmap := h.dir
    rw [hdir] at hmap
    exact Option.map_eq_none_iff.mp hmap.symm
  unfold settledDir at hsettled
  split at hsettled
  · next hnone => exact ⟨hsettled, List.any_eq_false.mpr (List.find?_eq_none.mp hnone)⟩
  · cases hsettled
  · cases hsettled

/-- A skill that is there and not claimed is the parent's. -/
theorem SettledBy.unclaimed {v : SkillView} {found : List SkillDir}
    (h : SettledBy host parentSkill v found) (hclaimed : v.claimed = false) :
    v.dir.map SkillDir.withoutMemory = parentSkill.map SkillDir.withoutMemory := by
  rw [h.dir, settledDir_of_none (h.claimed.symm.trans hclaimed)]

theorem SettledBy.taken {v : SkillView} {found : List SkillDir} {current source : SkillDir}
    (h : SettledBy host parentSkill v found) (hdir : v.dir = some current) :
    (source.package.any (packageChanged host.sha256 (parentSkill.bind SkillDir.package)) &&
        !v.claimed) =
      (changesSkill host.sha256 parentSkill source &&
        !found.any (changesSkill host.sha256 parentSkill)) := by
  rw [h.claimed]
  cases hparent : parentSkill with
  | some parent => rfl
  | none =>
    cases hany : found.any (changesSkill host.sha256 none) with
    | true => simp
    | false =>
      have hunclaimed := h.unclaimed (h.claimed.trans (hparent ▸ hany))
      rw [hdir, hparent] at hunclaimed
      cases hunclaimed

variable (parentStats) in
theorem SettledBy.merge {v : SkillView} {found : List SkillDir}
    (h : SettledBy host parentSkill v found) (b : BranchSkill) :
    SettledBy host parentSkill (v.merge host parentSkill parentStats b)
      (found ++ b.dir.toList) := by
  cases hsource : b.dir with
  | none =>
    rw [Option.toList_none, List.append_nil]
    refine ⟨?_, ?_⟩
    · simp only [SkillView.merge, hsource, Option.map_none, Option.none_or]
      exact h.dir
    · simp only [SkillView.merge, hsource, Option.map_none, Option.any_none, Bool.or_false]
      exact h.claimed
  | some source =>
    rw [Option.toList_some]
    have hclaimed : (found ++ [source]).any (changesSkill host.sha256 parentSkill) =
        (v.claimed || (changesSkill host.sha256 parentSkill source &&
          !found.any (changesSkill host.sha256 parentSkill))) := by
      rw [List.any_append, h.claimed]
      cases found.any (changesSkill host.sha256 parentSkill) <;> simp
    cases hdir : v.dir with
    | none =>
      obtain ⟨hparent, hany⟩ := h.absent hdir
      have hchanges : changesSkill host.sha256 parentSkill source = true := by
        rw [hparent]
        rfl
      refine ⟨?_, ?_⟩
      · rw [settledDir_concat, hany, hchanges]
        simp [SkillView.merge, hsource, hdir, mergeSkillDir, settledDir, hparent, changesSkill]
      · rw [hclaimed, hany, hchanges]
        simp [SkillView.merge, hsource, hdir, mergeSkillDir]
    | some current =>
      obtain ⟨htaken, hstands⟩ :=
        mergeSkillDir_some parentSkill host.sha256 v.claimed source current
      rw [h.taken hdir] at htaken hstands
      refine ⟨?_, ?_⟩
      · simp only [SkillView.merge, hsource, hdir, Option.map_some, Option.some_or, hstands]
        rw [settledDir_concat]
        split
        · next hfirst =>
          rw [Bool.and_eq_true, Bool.not_eq_true'] at hfirst
          have hunclaimed := h.unclaimed (h.claimed.trans hfirst.2)
          rw [hdir] at hunclaimed
          cases hparent : parentSkill with
          | none =>
            rw [hparent] at hunclaimed
            cases hunclaimed
          | some parent =>
            rw [hparent, Option.map_some, Option.map_some] at hunclaimed
            have hpackage := congrArg SkillDir.package (Option.some.inj hunclaimed)
            have hchanges := hparent ▸ hfirst.1
            simp only [settledDir, List.find?_singleton, hchanges, if_true, Option.map_some]
            exact congrArg (fun previous => some (SkillDir.mk source.package previous none))
              hpackage
        · next hlater => rw [← h.dir, hdir, Option.map_some]
      · rw [hclaimed]
        simp only [SkillView.merge, hsource, hdir, Option.map_some, Option.any_some, htaken]

/-! ## Rows and counters -/

/-- A skill has a row and a package whose manifest the row holds, or neither. -/
def Matched (manifestOf : FileTree → Option SkillManifest) :
    Option SkillDir → Option SkillEntry → Prop
  | none, none => True
  | some dir, some row => dir.package.bind manifestOf = some row.manifest
  | _, _ => False

variable (host parentSkill parentStats) in
theorem matched_merge {manifestOf : FileTree → Option SkillManifest} {v : SkillView}
    {b : BranchSkill} (h : Matched manifestOf v.dir v.row) (hb : Matched manifestOf b.dir b.row) :
    Matched manifestOf (v.merge host parentSkill parentStats b).dir
      (v.merge host parentSkill parentStats b).row := by
  cases hsource : b.dir with
  | none =>
    cases hrow : b.row with
    | none => simpa [SkillView.merge, hsource, hrow] using h
    | some row =>
      rw [hsource, hrow] at hb
      exact hb.elim
  | some source =>
    cases hrow : b.row with
    | none =>
      rw [hsource, hrow] at hb
      exact hb.elim
    | some row =>
      rw [hsource, hrow] at hb
      cases hdir : v.dir with
      | none =>
        simp only [SkillView.merge, hsource, hrow, hdir, mergeSkillDir, Option.map_some,
          Option.any_some, Bool.or_true, Option.filter_some, if_true, Option.some_or]
        exact hb
      | some current =>
        cases hold : v.row with
        | none =>
          rw [hdir, hold] at h
          exact h.elim
        | some old =>
          rw [hdir, hold] at h
          obtain ⟨htaken, hstands⟩ :=
            mergeSkillDir_some parentSkill host.sha256 v.claimed source current
          have hpackage := congrArg SkillDir.package hstands
          simp only [SkillView.merge, hsource, hrow, hdir, hold, Option.map_some, Option.any_some,
            Option.isNone_some, Bool.false_or, Option.some_or, htaken]
          split at hpackage
          · next hfirst =>
            simp only [hfirst, Option.filter_some, if_true, Option.some_or]
            exact (congrArg (Option.bind · manifestOf) hpackage).trans hb
          · next hlater =>
            simp only [hlater, Option.filter_some, Bool.false_eq_true, if_false, Option.none_or]
            exact (congrArg (Option.bind · manifestOf) hpackage).trans h

end OneSkill

/-- The counters of a skill that a merge adds up. -/
inductive SkillCounter where
  | retrieval
  | selected
  | use
  | success
  | failure
  | patch
  deriving DecidableEq, Repr

def SkillCounter.of : SkillCounter → SkillStats → Nat
  | .retrieval => SkillStats.retrievalCount
  | .selected => SkillStats.selectedCount
  | .use => SkillStats.useCount
  | .success => SkillStats.successCount
  | .failure => SkillStats.failureCount
  | .patch => SkillStats.patchCount

/-- What a branch added to a counter of the parent. -/
def SkillCounter.added (counter : SkillCounter) (before : SkillStats) (b : BranchSkill) : Nat :=
  b.stats.elim 0 fun delta => counter.of delta - counter.of before

theorem SkillCounter.of_growBy (counter : SkillCounter) (before stats : SkillStats)
    (b : BranchSkill) :
    counter.of (stats.growBy b.stats (some before)) =
      counter.of stats + counter.added before b := by
  unfold SkillCounter.added
  cases b.stats with
  | none => rfl
  | some delta => cases counter <;> rfl

theorem counters_merged {host : MergeHost} {parentSkill : Option SkillDir} {before : SkillStats}
    (skills : List BranchSkill) {v : SkillView} {stats : SkillStats} (h : v.stats = some stats) :
    ∃ after, (skills.foldl (SkillView.merge host parentSkill (some before)) v).stats = some after ∧
      ∀ counter : SkillCounter, counter.of after =
        counter.of stats + (skills.map (counter.added before)).sum := by
  induction skills generalizing v stats with
  | nil => exact ⟨stats, h, fun counter => rfl⟩
  | cons b skills ih =>
    have hnext : (v.merge host parentSkill (some before) b).stats =
        some (stats.growBy b.stats (some before)) := by
      simp only [SkillView.merge, h, Option.some_or, Option.map_some]
    obtain ⟨after, hafter, hsum⟩ := ih hnext
    refine ⟨after, hafter, fun counter => ?_⟩
    rw [hsum, counter.of_growBy, List.map_cons, List.sum_cons]
    omega

/-! ## A generation -/

/-- Every row has its package, with the manifest that the row holds, and every package its row. -/
structure SkillsMatch (manifestOf : FileTree → Option SkillManifest) (dirs : Dict String SkillDir)
    (rows : Dict String SkillRow) : Prop where
  visible : ∀ skillId, isHidden skillId = false →
    Matched manifestOf (dirs.get? skillId) ((rows.get? skillId).map SkillRow.entry)
  hidden : ∀ skillId, isHidden skillId = true → rows.get? skillId = none

/-- What a branch that no crash cut short has. -/
structure SkillBranch.Consistent (manifestOf : FileTree → Option SkillManifest)
    (branch : SkillBranch) : Prop where
  keyed : branch.Keyed
  matched : ∀ source ∈ branch.tables, SkillsMatch manifestOf branch.dirs source.skills

/-- A generation whose index has each skill once, with what its row says. -/
structure SkillState.Consistent (manifestOf : FileTree → Option SkillManifest)
    (state : SkillState) : Prop where
  matched : SkillsMatch manifestOf state.dirs state.tables.skills
  indexed : Indexed Prod.fst (fun item : String × SkillRow => indexedContent item.2.manifest)
    state.tables.skills state.tables.fts

variable {manifestOf : FileTree → Option SkillManifest}

instance decidableMatched (dir : Option SkillDir) (row : Option SkillEntry) :
    Decidable (Matched manifestOf dir row) :=
  match dir, row with
  | none, none => .isTrue trivial
  | some dir, some row =>
    inferInstanceAs (Decidable (dir.package.bind manifestOf = some row.manifest))
  | none, some _ => .isFalse id
  | some _, none => .isFalse id

/-- It is enough to look at the directories and the rows that are there. -/
theorem SkillsMatch.of_items {dirs : Dict String SkillDir} {rows : Dict String SkillRow}
    (hdirs : ∀ item ∈ dirs, isHidden item.1 = true ∨
      Matched manifestOf (some item.2) ((rows.get? item.1).map SkillRow.entry))
    (hrows : ∀ item ∈ rows, isHidden item.1 = false ∧ (dirs.get? item.1).isSome = true) :
    SkillsMatch manifestOf dirs rows := by
  refine ⟨fun skillId hvisible => ?_, fun skillId hhidden => ?_⟩
  · cases hdir : dirs.get? skillId with
    | some dir =>
      rcases hdirs _ (mem_of_get? hdir) with hhidden | hmatched
      · rw [hvisible] at hhidden
        cases hhidden
      · exact hmatched
    | none =>
      cases hrow : rows.get? skillId with
      | none => trivial
      | some row =>
        have hthere := (hrows _ (mem_of_get? hrow)).2
        rw [hdir] at hthere
        cases hthere
  · cases hrow : rows.get? skillId with
    | none => rfl
    | some row =>
      have hvisible := (hrows _ (mem_of_get? hrow)).1
      rw [hhidden] at hvisible
      cases hvisible

theorem SkillBranch.Consistent.skill {branch : SkillBranch} (h : branch.Consistent manifestOf)
    (skillId : String) :
    Matched manifestOf (branch.skill skillId).dir (branch.skill skillId).row := by
  cases htables : branch.tables with
  | none => simp only [SkillBranch.skill, htables, Matched]
  | some source =>
    have hmatched := h.matched source htables
    simp only [SkillBranch.skill, htables]
    cases hhidden : isHidden skillId with
    | true =>
      rw [hmatched.hidden skillId hhidden]
      trivial
    | false => exact hmatched.visible skillId hhidden

theorem SkillBranch.Consistent.skill_hidden {branch : SkillBranch}
    (h : branch.Consistent manifestOf) {skillId : String} (hhidden : isHidden skillId = true) :
    (branch.skill skillId).dir = none ∧ (branch.skill skillId).row = none := by
  cases htables : branch.tables with
  | none => simp [SkillBranch.skill, htables]
  | some source =>
    have hrow := (h.matched source htables).hidden skillId hhidden
    simp [SkillBranch.skill, htables, hhidden, hrow]

theorem SkillsMatch.packaged {dirs : Dict String SkillDir} {rows : Dict String SkillRow}
    (h : SkillsMatch manifestOf dirs rows) (hids : rows.keys.Nodup) :
    ∀ item ∈ rows, ((dirs.get? item.1).bind SkillDir.package).isSome = true := by
  rintro ⟨skillId, row⟩ hitem
  have hrow := (Dict.mem_iff_get? rows hids skillId row).mp hitem
  cases hhidden : isHidden skillId with
  | true =>
    rw [h.hidden skillId hhidden] at hrow
    cases hrow
  | false =>
    have hmatched := h.visible skillId hhidden
    rw [hrow] at hmatched
    cases hdir : dirs.get? skillId with
    | none =>
      rw [hdir] at hmatched
      exact hmatched.elim
    | some dir =>
      rw [hdir] at hmatched
      obtain ⟨package, hpackage, -⟩ := Option.bind_eq_some_iff.mp hmatched
      rw [Option.bind_some, hpackage, Option.isSome_some]

theorem mergeSkillRows_ids (host : MergeHost) (skillRoot : String) (source : SkillTables)
    (accepted : List String) {target : SkillTables} (h : target.skills.keys.Nodup) :
    (mergeSkillRows host skillRoot source accepted target).skills.keys.Nodup := by
  unfold mergeSkillRows
  induction source.skills generalizing target with
  | nil => exact h
  | cons item rows ih =>
    rw [List.foldl_cons]
    apply ih
    simp only [mergeSkillRow]
    split
    · exact Dict.keys_set_nodup _ _ _ h
    · exact h

/-- A branch without stray directories is merged, and the target stays consistent. -/
theorem mergeSkills_consistent (host : MergeHost) (skillRoot : String) (parent : SkillState)
    {m : MergedSkills} (h : m.state.Consistent manifestOf) {branch : SkillBranch}
    (hbranch : branch.Consistent manifestOf) :
    ∃ merged, mergeSkills host skillRoot parent m branch = .ok merged ∧
      merged.state.Consistent manifestOf := by
  cases htables : branch.tables with
  | none => exact ⟨m, by simp only [mergeSkills, htables], h⟩
  | some source =>
    have hids := mergeSkillRows_ids host skillRoot source (mergeSkillPackages host.sha256
      parent.dirs branch.dirs m.state.dirs m.claimedUpdates).accepted h.indexed.keys
    have hskill := joinSkills_skill host skillRoot parent m hbranch.keyed htables
    have hmatch : SkillsMatch manifestOf
        (joinSkills host skillRoot parent m branch.dirs source).state.dirs
        (joinSkills host skillRoot parent m branch.dirs source).state.tables.skills := by
      refine ⟨fun skillId hvisible => ?_, fun skillId hhidden => ?_⟩
      · have hmerged := matched_merge host (parent.dirs.get? skillId)
          (parent.tables.stats.get? skillId) (v := m.skill skillId)
          (h.matched.visible skillId hvisible) (hbranch.skill skillId)
        rw [← hskill] at hmerged
        exact hmerged
      · obtain ⟨-, hrow⟩ := hbranch.skill_hidden hhidden
        have hold := h.matched.hidden skillId hhidden
        have hmerged := congrArg SkillView.row (hskill skillId)
        simp only [SkillView.merge, hrow, MergedSkills.skill, hold] at hmerged
        exact Option.map_eq_none_iff.mp hmerged
    refine ⟨_, (mergeSkills_ok htables).mpr ⟨hmatch.packaged hids, rfl⟩, ⟨⟨?_, ?_⟩, ?_⟩⟩
    · intro skillId hvisible
      rw [entry_moved]
      exact hmatch.visible skillId hvisible
    · intro skillId hhidden
      have hrow := congrArg (Option.map SkillRow.entry) (hmatch.hidden skillId hhidden)
      rw [← entry_moved (storedPackagePath skillRoot)] at hrow
      exact Option.map_eq_none_iff.mp hrow
    · refine (Indexed.rebuild hids).congr ?_
      rw [List.map_map]
      rfl

theorem mergeSkillBranches_consistent (host : MergeHost) (skillRoot : String)
    (parent : SkillState) {branches : List SkillBranch}
    (hbranches : ∀ branch ∈ branches, branch.Consistent manifestOf) {m : MergedSkills}
    (h : m.state.Consistent manifestOf) :
    ∃ merged, branches.foldlM (mergeSkills host skillRoot parent) m = .ok merged ∧
      merged.state.Consistent manifestOf := by
  induction branches generalizing m with
  | nil => exact ⟨m, rfl, h⟩
  | cons branch branches ih =>
    obtain ⟨next, hnext, hconsistent⟩ := mergeSkills_consistent host skillRoot parent h
      (hbranches branch List.mem_cons_self)
    obtain ⟨merged, hmerged, hlast⟩ := ih
      (fun other hother => hbranches other (List.mem_cons_of_mem _ hother)) hconsistent
    refine ⟨merged, ?_, hlast⟩
    rw [List.foldlM_cons]
    exact bind_eq_ok.mpr ⟨next, hnext, hmerged⟩

theorem settled_merged {host : MergeHost} {parentSkill : Option SkillDir}
    {parentStats : Option SkillStats} (skills : List BranchSkill) {v : SkillView}
    {found : List SkillDir} (h : SettledBy host parentSkill v found) :
    SettledBy host parentSkill (skills.foldl (SkillView.merge host parentSkill parentStats) v)
      (found ++ skills.filterMap BranchSkill.dir) := by
  induction skills generalizing v found with
  | nil =>
    rw [List.filterMap_nil, List.append_nil]
    exact h
  | cons b skills ih =>
    have hnext := ih (h.merge parentStats b)
    rw [List.foldl_cons, List.filterMap_cons]
    cases hdir : b.dir with
    | none =>
      rw [hdir, Option.toList_none, List.append_nil] at hnext
      exact hnext
    | some dir =>
      rw [hdir, Option.toList_some, List.append_assoc, List.singleton_append] at hnext
      exact hnext

theorem rows_merged {host : MergeHost} {parentSkill : Option SkillDir}
    {parentStats : Option SkillStats} (skills : List BranchSkill) (v : SkillView) :
    (skills.foldl (SkillView.merge host parentSkill parentStats) v).row.isSome = true ↔
      v.row.isSome = true ∨ ∃ b ∈ skills, b.row.isSome = true := by
  induction skills generalizing v with
  | nil => simp
  | cons b skills ih =>
    have hnext : (v.merge host parentSkill parentStats b).row.isSome = true ↔
        v.row.isSome = true ∨ b.row.isSome = true := by
      simp only [SkillView.merge]
      cases v.row <;> cases b.row <;> simp [Option.filter]
    rw [List.foldl_cons, ih, hnext, or_assoc]
    simp only [List.mem_cons, exists_eq_or_imp]

/-- From consistent branches of a consistent generation a consistent one is made, in whose place
the paths can be written: a skill stands there as the first branch that changed it has it, over the
parent's, its row is there when anyone has it, and each counter grew by what all branches added. -/
theorem skills_merged (host : MergeHost) (skillRoot storedRoot validationRoot : String)
    {parent : SkillState} {branches : List SkillBranch} (hparent : parent.Consistent manifestOf)
    (hbranches : ∀ branch ∈ branches, branch.Consistent manifestOf) :
    ∃ merged, mergeSkillBranches host skillRoot parent branches = .ok merged ∧
      merged.state.Consistent manifestOf ∧
      (relocateSkillPaths storedRoot validationRoot merged.state.dirs
        merged.state.tables).isOk = true ∧
      ∀ skillId,
        let skills := branches.map fun branch => branch.skill skillId
        (merged.skill skillId).dir.map SkillDir.withoutMemory =
            (settledDir host.sha256 (parent.dirs.get? skillId)
              (skills.filterMap BranchSkill.dir)).map SkillDir.withoutMemory ∧
          ((merged.skill skillId).row.isSome = true ↔
            (parent.tables.skills.get? skillId).isSome = true ∨
              ∃ b ∈ skills, b.row.isSome = true) ∧
          ∀ before, parent.tables.stats.get? skillId = some before →
            ∃ after, (merged.skill skillId).stats = some after ∧ ∀ counter : SkillCounter,
              counter.of after = counter.of before + (skills.map (counter.added before)).sum := by
  obtain ⟨merged, hmerged, hconsistent⟩ :=
    mergeSkillBranches_consistent host skillRoot parent hbranches (m := ⟨parent, []⟩) hparent
  refine ⟨merged, hmerged, hconsistent, ?_, fun skillId => ?_⟩
  · rw [relocateSkillPaths_ok.mpr
      ⟨hconsistent.matched.packaged hconsistent.indexed.keys, rfl⟩]
    rfl
  · have hview := mergeSkillBranches_skill (fun branch hb => (hbranches branch hb).keyed) hmerged
      skillId
    rw [← List.foldl_map (f := fun branch : SkillBranch => branch.skill skillId)
      (g := SkillView.merge host (parent.dirs.get? skillId)
        (parent.tables.stats.get? skillId))] at hview
    rw [hview]
    refine ⟨?_, ?_, fun before hbefore => ?_⟩
    · have hstart : SettledBy host (parent.dirs.get? skillId)
          (MergedSkills.skill ⟨parent, []⟩ skillId) [] := ⟨rfl, rfl⟩
      exact (settled_merged _ hstart).dir
    · rw [rows_merged]
      simp only [MergedSkills.skill, Option.isSome_map]
    · rw [hbefore]
      exact counters_merged _ hbefore

/-! ## Usage memories -/

/-- The usage memory of a skill, where there is one. -/
def usageText (dir : Option SkillDir) : String := (dir.bind SkillDir.memory).getD ""

/-- The usage memory holds these entries, one for each run. -/
def Remembers (skillId : String) (dir : Option SkillDir) (entries : List SkillMemoryEntry) :
    Prop :=
  (∃ text, usageText dir = String.ofList text ∧ Stores skillId text entries) ∧
    (entries.map SkillMemoryEntry.runId).Nodup

theorem remembers_of_faithful {skillId : String} {m : UsageMemory} (dir : SkillDir)
    (h : m.Faithful skillId) :
    Remembers skillId (some { dir with memory := some m.text }) m.stored := h

/-- A memory that is not there is an empty one. -/
theorem mergeSkillMemory_eq (destination source : Option String) :
    mergeSkillMemory destination source =
      mergeMemoryTexts [readMemoryText (destination.getD ""), readMemoryText (source.getD "")] := by
  have hread : readMemoryText "" = "" := rfl
  have hempty : splitMemoryBlocks "" = [] := by decide +kernel
  cases destination <;> cases source <;>
    simp [mergeSkillMemory, mergeMemoryTexts, hread, hempty]

theorem stores_nil {skillId : String} {entries : List SkillMemoryEntry}
    (h : Stores skillId [] entries) : entries = [] := by
  generalize htext : ([] : List Char) = text at h
  cases h with
  | nil => rfl
  | @cons entry gap rest _ _ _ _ _ _ =>
    obtain ⟨inner, hinner⟩ := blockCore_cons skillId entry
    rw [hinner] at htext
    cases htext

theorem Remembers.of_none {skillId : String} {entries : List SkillMemoryEntry}
    (h : Remembers skillId none entries) : entries = [] := by
  obtain ⟨⟨text, htext, hstores⟩, -⟩ := h
  have hnil : text = [] := (String.ofList_eq_empty_iff.mp htext.symm)
  exact stores_nil (hnil ▸ hstores)

/-- Merged entries are those of both, one for each run. -/
theorem distinctRuns_nodup {kept entries : List SkillMemoryEntry}
    (hkept : (kept.map SkillMemoryEntry.runId).Nodup)
    (hentries : (entries.map SkillMemoryEntry.runId).Nodup) :
    ((distinctRuns kept entries).map SkillMemoryEntry.runId).Nodup := by
  rw [distinctRuns_eq hentries, List.map_append]
  refine List.nodup_append.mpr
    ⟨hkept, hentries.sublist (List.filter_sublist.map _), fun a ha b hb heq => ?_⟩
  obtain ⟨entry, hentry, rfl⟩ := List.mem_map.mp hb
  have hnew := (List.mem_filter.mp hentry).2
  exact of_decide_eq_true hnew (heq ▸ ha)

theorem mem_distinctRuns {kept entries : List SkillMemoryEntry} {runId : String} :
    runId ∈ (distinctRuns kept entries).map SkillMemoryEntry.runId ↔
      runId ∈ kept.map SkillMemoryEntry.runId ∨ runId ∈ entries.map SkillMemoryEntry.runId := by
  induction entries generalizing kept with
  | nil => simp [distinctRuns]
  | cons entry entries ih =>
    rw [distinctRuns, List.foldl_cons, ← distinctRuns, ih, List.map_cons, List.mem_cons]
    split
    · next hthere =>
      constructor
      · exact fun h => h.imp_right .inr
      · rintro (h | rfl | h)
        · exact .inl h
        · exact .inl hthere
        · exact .inr h
    · rw [List.map_append, List.mem_append, List.map_singleton, List.mem_singleton, or_assoc]

theorem Remembers.merge (host : MergeHost) (parentSkill : Option SkillDir)
    (parentStats : Option SkillStats) {skill : SkillSlug} {v : SkillView} {b : BranchSkill}
    {entries learned : List SkillMemoryEntry} (h : Remembers skill.text v.dir entries)
    (hb : Remembers skill.text b.dir learned) :
    Remembers skill.text (v.merge host parentSkill parentStats b).dir
      (distinctRuns entries learned) := by
  refine ⟨?_, distinctRuns_nodup h.2 hb.2⟩
  cases hsource : b.dir with
  | none =>
    rw [hsource] at hb
    rw [hb.of_none]
    simp only [SkillView.merge, hsource, Option.map_none, Option.none_or]
    exact h.1
  | some source =>
    rw [hsource] at hb
    simp only [SkillView.merge, hsource, Option.map_some, Option.some_or]
    cases hdir : v.dir with
    | none =>
      rw [hdir] at h
      rw [h.of_none, distinctRuns_eq hb.2]
      simpa [mergeSkillDir] using hb.1
    | some current =>
      rw [hdir] at h
      obtain ⟨⟨text, htext, hstores⟩, hnodup⟩ := h
      obtain ⟨⟨text', htext', hstores'⟩, hnodup'⟩ := hb
      obtain ⟨merged, hmerged, hunion⟩ := hstores.merge hstores' hnodup hnodup'
      have hmemory : (mergeSkillDir host.sha256 parentSkill v.claimed source
          (some current)).1.memory = some (mergeSkillMemory current.memory source.memory) := by
        simp only [mergeSkillDir]
        split
        · rfl
        · split <;> rfl
      refine ⟨merged, ?_, ?_⟩
      · simp only [usageText, Option.bind_some] at htext htext'
        rw [usageText, Option.bind_some, hmemory, Option.getD_some, mergeSkillMemory_eq, htext,
          htext', hstores.readMemoryText_eq, hstores'.readMemoryText_eq, hmerged]
      · rw [distinctRuns_eq hnodup']
        exact hunion

/-- The usage memory of a merged skill is read as the entries of the parent and of all branches,
one for each run, the earlier one first. -/
theorem usage_merged (host : MergeHost) (skillRoot : String) {parent : SkillState}
    {branches : List SkillBranch} (hkeyed : ∀ branch ∈ branches, branch.Keyed)
    {merged : MergedSkills}
    (hmerged : mergeSkillBranches host skillRoot parent branches = .ok merged)
    (skill : SkillSlug) {entries : List SkillMemoryEntry}
    (learned : SkillBranch → List SkillMemoryEntry)
    (hparent : Remembers skill.text (parent.dirs.get? skill.text) entries)
    (hbranches : ∀ branch ∈ branches,
      Remembers skill.text (branch.skill skill.text).dir (learned branch)) :
    parseSkillMemoryEntries (readMemoryText (usageText (merged.state.dirs.get? skill.text))) =
        (distinctRuns entries (branches.flatMap learned)).map SkillMemoryEntry.trimmed ∧
      ((distinctRuns entries (branches.flatMap learned)).map SkillMemoryEntry.runId).Nodup ∧
      ∀ runId, runId ∈ (distinctRuns entries (branches.flatMap learned)).map
        SkillMemoryEntry.runId ↔ runId ∈ entries.map SkillMemoryEntry.runId ∨
          ∃ branch ∈ branches, runId ∈ (learned branch).map SkillMemoryEntry.runId := by
  have hview := mergeSkillBranches_skill hkeyed hmerged skill.text
  have hremembers : Remembers skill.text (merged.skill skill.text).dir
      (distinctRuns entries (branches.flatMap learned)) := by
    rw [hview]
    clear hview hmerged hkeyed
    have hstart : Remembers skill.text (MergedSkills.skill ⟨parent, []⟩ skill.text).dir entries :=
      hparent
    generalize MergedSkills.skill ⟨parent, []⟩ skill.text = v at hstart
    clear hparent
    induction branches generalizing v entries with
    | nil => exact hstart
    | cons branch branches ih =>
      have hnext := ih (fun other hother => hbranches other (List.mem_cons_of_mem _ hother)) _
        (hstart.merge host (parent.dirs.get? skill.text) (parent.tables.stats.get? skill.text)
          (hbranches branch List.mem_cons_self))
      rw [List.foldl_cons, List.flatMap_cons, distinctRuns, List.foldl_append, ← distinctRuns,
        ← distinctRuns]
      exact hnext
  obtain ⟨⟨text, htext, hstores⟩, hnodup⟩ := hremembers
  refine ⟨?_, hnodup, fun runId => ?_⟩
  · have htext' : usageText (merged.state.dirs.get? skill.text) = String.ofList text := htext
    rw [htext', hstores.readMemoryText_eq, hstores.parse]
  · rw [mem_distinctRuns, List.map_flatMap, List.mem_flatMap]

namespace Sample

/-- A package of which only the manifest counts. -/
def markedPackage (mark : UInt8) : FileTree where
  files := [⟨["manifest.json"], [mark]⟩]
  distinct := List.nodup_singleton _
  named := by
    intro file hfile
    obtain rfl := List.mem_singleton.mp hfile
    have hname : ∀ part ∈ ["manifest.json"], IsName part := by decide +kernel
    exact ⟨List.cons_ne_nil _ _, hname⟩

def markedManifest (skillId : String) (mark : UInt8) : SkillManifest where
  skillId
  name := skillId
  description := ""
  triggers := []
  taskFamilies := ["test"]
  permissions := {}
  sourceRunIds := []
  files := []
  createdAt := 0
  updatedAt := mark.toNat

/-- The mark tells the version, and from ten on the other skill. -/
def readMark (tree : FileTree) : Option SkillManifest :=
  tree.files.head?.bind fun file => file.bytes.head?.map fun mark =>
    markedManifest (if mark < 10 then "pin" else "cache") mark

def markedRow (skillId : String) (mark : UInt8) : SkillRow :=
  ⟨markedManifest skillId mark, true, ""⟩

def usedTimes (uses successes : Nat) : SkillStats :=
  { useCount := uses, successCount := successes, createdAt := 0, updatedAt := 0 }

def mergeHost : MergeHost := ⟨byteText, fun _ _ => false, 7⟩

def learnedDir (mark : UInt8) : SkillDir := { package := some (markedPackage mark) }

/-- One skill, used three times. -/
def parentSkills : SkillState where
  dirs := [("pin", { learnedDir 1 with memory := some (appendAll "pin" usageEntries).text })]
  tables :=
    { skills := [("pin", markedRow "pin" 1)]
      stats := [("pin", usedTimes 3 2)]
      fts := [("pin", indexedContent (markedManifest "pin" 1))]
      operations := [] }

/-- A task that used the skill as it is, one that changed it, and one that changed it too and made
another. -/
def learningBranches : List SkillBranch :=
  [{ dirs := [("pin", learnedDir 1)]
     tables := some ⟨[("pin", markedRow "pin" 1)], [("pin", usedTimes 4 2)], [], []⟩ },
   { dirs := [(".staging-pin", {}),
       ("pin", { learnedDir 2 with memory := some (appendAll "pin" otherEntries).text })]
     tables := some ⟨[("pin", markedRow "pin" 2)], [("pin", usedTimes 5 4)], [], []⟩ },
   { dirs := [("pin", learnedDir 3), ("cache", learnedDir 12)]
     tables := some ⟨[("pin", markedRow "pin" 3), ("cache", markedRow "cache" 12)],
       [("pin", usedTimes 4 2), ("cache", usedTimes 1 1)], [], []⟩ }]

theorem parentSkills_consistent : parentSkills.Consistent readMark where
  matched := .of_items (by decide +kernel) (by decide +kernel)
  indexed := .rebuild (by decide +kernel)

theorem learningBranches_consistent :
    ∀ branch ∈ learningBranches, branch.Consistent readMark := by
  have hitems : ∀ branch ∈ learningBranches, branch.dirs.keys.Nodup ∧
      ∀ source ∈ branch.tables, source.skills.keys.Nodup ∧ source.stats.keys.Nodup ∧
        (∀ item ∈ branch.dirs, isHidden item.1 = true ∨
          Matched readMark (some item.2) ((source.skills.get? item.1).map SkillRow.entry)) ∧
        ∀ item ∈ source.skills,
          isHidden item.1 = false ∧ (branch.dirs.get? item.1).isSome = true := by
    decide +kernel
  intro branch hbranch
  obtain ⟨hdirs, htables⟩ := hitems branch hbranch
  exact ⟨⟨hdirs, fun source h => (htables source h).1, fun source h => (htables source h).2.1⟩,
    fun source h => .of_items (htables source h).2.2.1 (htables source h).2.2.2⟩

/-- The second task's package is taken, and all uses are counted. -/
theorem learningBranches_merged : ∃ merged,
    mergeSkillBranches mergeHost "new/skills" parentSkills learningBranches = .ok merged ∧
      ((merged.skill "pin").dir.bind SkillDir.package).bind readMark =
        some (markedManifest "pin" 2) ∧
      (merged.skill "pin").stats.map SkillStats.useCount = some 7 ∧
      (merged.skill "cache").row.isSome = true := by
  obtain ⟨merged, hmerged, -, -, hskills⟩ := skills_merged mergeHost "new/skills" "skills"
    "new/skills" parentSkills_consistent learningBranches_consistent
  obtain ⟨hdir, -, hstats⟩ := hskills "pin"
  obtain ⟨after, hafter, hsum⟩ := hstats (usedTimes 3 2) rfl
  refine ⟨merged, hmerged, ?_, ?_, (hskills "cache").2.1.mpr ?_⟩
  · have hpackage : ∀ dir : Option SkillDir,
        (dir.map SkillDir.withoutMemory).bind SkillDir.package = dir.bind SkillDir.package := by
      intro dir
      cases dir <;> rfl
    have hmark := congrArg (fun dir => (Option.bind dir SkillDir.package).bind readMark) hdir
    simp only [hpackage] at hmark
    rw [hmark]
    decide +kernel
  · rw [hafter]
    exact congrArg some (hsum .use)
  · decide +kernel

/-- Only the second task has written lessons, the one that left a staging directory. -/
def learnedUsage (branch : SkillBranch) : List SkillMemoryEntry :=
  if ".staging-pin" ∈ branch.dirs.keys then otherEntries else []

theorem pin_remembered : ∃ merged,
    mergeSkillBranches mergeHost "new/skills" parentSkills learningBranches = .ok merged ∧
      parseSkillMemoryEntries (readMemoryText (usageText (merged.state.dirs.get? "pin"))) =
        [usageEntry "pin it\n## and say why", usageEntry "look twice" "run 2",
          usageEntry "ask first" "run 3"] := by
  obtain ⟨merged, hmerged, -⟩ := mergeSkillBranches_consistent mergeHost "new/skills" parentSkills
    learningBranches_consistent (m := ⟨parentSkills, []⟩) parentSkills_consistent
  have hall := fun entry hentry => And.intro (usageEntries_typed entry hentry)
    (usageEntries_plain entry hentry)
  have hpin := remembers_of_faithful (learnedDir 1) (appendAll_faithful fun entry hentry =>
    hall entry (List.mem_append_left _ hentry))
  have htask := remembers_of_faithful (learnedDir 2) (appendAll_faithful fun entry hentry =>
    hall entry (List.mem_append_right _ hentry))
  rw [usageEntries_stored.1] at hpin
  rw [usageEntries_stored.2] at htask
  have hnone : ∀ mark, Remembers "pin" (some (learnedDir mark)) [] := fun _ =>
    ⟨⟨[], rfl, .nil⟩, List.nodup_nil⟩
  have hread := (usage_merged mergeHost "new/skills"
    (fun branch hb => (learningBranches_consistent branch hb).keyed) hmerged usageSkill
    learnedUsage hpin ?_).1
  · refine ⟨merged, hmerged, hread.trans ?_⟩
    decide +kernel
  · intro branch hbranch
    simp only [learningBranches, List.mem_cons, List.not_mem_nil, or_false] at hbranch
    rcases hbranch with rfl | rfl | rfl
    · exact hnone 1
    · exact htask
    · exact hnone 3

end Sample

end EvoCI
