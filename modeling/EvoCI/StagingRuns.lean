import EvoCI.CarryOver

/-! Runs of write calls on a staging copy: what a call changes it records, unless it
raises part way or is a script, and what is recorded is carried over to the source. -/

namespace EvoCI

open Library

/-! ## A tree without links -/

theorem walk_unlinked {links : Loc → Option String} (parts : List String) {base : Loc}
    (hlinks : ∀ l, base <+: l → links l = none) (hdots : ".." ∉ parts) :
    Files.walk links base parts = .done (base ++ parts) := by
  induction parts generalizing base with
  | nil => simp [Files.walk]
  | cons name parts ih =>
    obtain ⟨hname, hparts⟩ := not_or.mp (fun h => hdots (List.mem_cons.mpr h))
    have hbelow : base <+: base ++ [name] := List.prefix_append _ _
    unfold Files.walk
    rw [if_neg (fun h => hname h.symm), hlinks _ hbelow]
    have hstep := ih (fun l hl => hlinks l (hbelow.trans hl)) hparts
    rw [List.append_assoc] at hstep
    exact hstep

/-- A relative path resolves to its components. -/
theorem Files.resolve_unlinked {files : Files} {root : Loc} {path : String}
    (hlinks : ∀ l, root <+: l → files.linkAt l = none) (habsolute : isAbsolute path = false)
    (hdots : ".." ∉ pathParts path) : files.resolve root path = .ok (root ++ pathParts path) := by
  have hwalk := walk_unlinked (pathParts path) hlinks hdots
  unfold Files.resolve Files.realpath Files.maxLinks
  simp [habsolute, hwalk]

/-- A copy of a workspace: copying follows links, so there are none. -/
structure StagedTree (files : Files) (root : Loc) : Prop where
  tree : IsTree files root
  links : ∀ l, root <+: l → files.linkAt l = none

theorem StagedTree.fileAt_root {files : Files} {root : Loc} (h : StagedTree files root) :
    files.fileAt root = none := by
  obtain ⟨mode, hdir⟩ := h.tree.rootDir
  simp [Files.fileAt, hdir]

section Writers

variable {files : Files} {root target : Loc}

/-- Below a root without links, what stands above an unblocked target is made a
directory. -/
theorem mkdirParents_dir (h : StagedTree files root) (hopen : files.parentBlocked target = false)
    {l : Loc} (hl : root <+: l) (hle : l <+: target) (hne : l ≠ target) :
    ∃ mode, files.mkdirParents target l = some (.dir mode) := by
  have hfile := Files.parentBlocked_eq_false.mp hopen l hle hne
  have hlink := h.links l hl
  cases hentry : files l with
  | none => exact ⟨Files.newDirMode, by simp [Files.mkdirParents, hle, hne, hentry]⟩
  | some entry =>
    have hkept : files.mkdirParents target l = files l := by simp [Files.mkdirParents, hentry]
    cases entry with
    | file content mode => simp [Files.fileAt, hentry] at hfile
    | link t => simp [Files.linkAt, hentry] at hlink
    | dir mode => exact ⟨mode, hkept.trans hentry⟩

theorem mkdirParents_tree (h : StagedTree files root) (hopen : files.parentBlocked target = false)
    (hne : target ≠ root) (hroot : root <+: target) :
    IsTree (files.mkdirParents target) root := by
  refine ⟨mkdirParents_dir h hopen List.prefix_rfl hroot (Ne.symm hne), fun l name hl hentry => ?_⟩
  rcases Files.mkdirParents_cases files target (l ++ [name]) with hs | ⟨-, -, hle, -⟩
  · rw [hs] at hentry
    obtain ⟨mode, hdir⟩ := h.tree.parents l name hl hentry
    exact ⟨mode, by simp [Files.mkdirParents, hdir]⟩
  · refine mkdirParents_dir h hopen hl ((List.prefix_append _ _).trans hle) ?_
    rintro rfl
    have hlen := hle.length_le
    simp only [List.length_append, List.length_singleton] at hlen
    omega

/-- Putting a file where no directory is, below directories. -/
theorem IsTree.put (h : IsTree files root) {content : Content} {mode : Nat}
    (hdir : ∀ mode, files target ≠ some (.dir mode))
    (habove : ∀ l name, root <+: l → l ++ [name] = target → ∃ mode, files l = some (.dir mode))
    (hroot : target ≠ root) : IsTree (files.put target (.file content mode)) root := by
  refine ⟨?_, fun l name hl hentry => ?_⟩
  · rw [Files.put_of_ne _ _ (Ne.symm hroot)]
    exact h.rootDir
  · have hparent : ∃ mode, files l = some (.dir mode) := by
      by_cases heq : l ++ [name] = target
      · exact habove l name hl heq
      · rw [Files.put_of_ne _ _ heq] at hentry
        exact h.parents l name hl hentry
    obtain ⟨mode, hmode⟩ := hparent
    have hne : l ≠ target := by
      rintro rfl
      exact hdir mode hmode
    exact ⟨mode, by rw [Files.put_of_ne _ _ hne]; exact hmode⟩

theorem IsTree.remove (h : IsTree files root) (hdir : ∀ mode, files target ≠ some (.dir mode)) :
    IsTree (files.remove target) root := by
  have hkept : ∀ l mode, files l = some (.dir mode) → files.remove target l = some (.dir mode) := by
    intro l mode hmode
    rw [Files.remove_of_ne, hmode]
    rintro rfl
    exact hdir mode hmode
  obtain ⟨mode, hmode⟩ := h.rootDir
  refine ⟨⟨mode, hkept root mode hmode⟩, fun l name hl hentry => ?_⟩
  have hbefore : files (l ++ [name]) ≠ none := by
    intro hnone
    apply hentry
    by_cases heq : l ++ [name] = target
    · simp [Files.remove, heq]
    · rw [Files.remove_of_ne _ heq, hnone]
  obtain ⟨mode, hmode⟩ := h.parents l name hl hbefore
  exact ⟨mode, hkept l mode hmode⟩

theorem not_dir_of_isDir (h : files.isDir root target = false) :
    target ≠ root ∧ ∀ mode, files target ≠ some (.dir mode) := by
  refine ⟨?_, fun mode heq => ?_⟩
  · rintro rfl
    rw [Files.isDir_root] at h
    cases h
  · simp [Files.isDir, heq] at h

theorem StagedTree.writeFile {files' : Files} {denied : Loc → Bool} {path content : String}
    {mode : Option Nat} (h : StagedTree files root)
    (hwrite : files.writeFile denied root path content mode = .ok files') :
    StagedTree files' root := by
  obtain ⟨target, ht, htouch, -⟩ := Files.writeFile_ok hwrite
  refine ⟨?_, fun l hl => by rw [htouch.links]; exact h.links l hl⟩
  have hroot := (Files.boundaryResolve_ok ht).2
  unfold Files.writeFile at hwrite
  rw [ht] at hwrite
  simp only at hwrite
  split at hwrite
  · cases hwrite
  next hopen =>
    split at hwrite
    · cases hwrite
    next hisDir =>
      split at hwrite
      · cases hwrite
      · cases hwrite
        have hopen : files.parentBlocked target = false := Bool.not_eq_true _ ▸ hopen
        obtain ⟨hne, hdir⟩ := not_dir_of_isDir (Bool.not_eq_true _ ▸ hisDir)
        refine (mkdirParents_tree h hopen hne hroot).put (fun mode heq => ?_) ?_ hne
        · rcases Files.mkdirParents_cases files target target with hs | ⟨-, -, -, hlt⟩
          · exact hdir mode (hs.symm.trans heq)
          · exact hlt rfl
        · rintro l name hl rfl
          exact mkdirParents_dir h hopen hl (List.prefix_append _ _) (by simp)

theorem StagedTree.unlink {files' : Files} {denied : Loc → Bool} {path : String}
    (h : StagedTree files root) (ht : files.boundaryResolve root path = .ok target)
    (hunlink : files.unlink denied root target = .ok files') : StagedTree files' root := by
  obtain ⟨htouch, -⟩ := Files.unlink_ok ht hunlink
  refine ⟨?_, fun l hl => by rw [htouch.links]; exact h.links l hl⟩
  unfold Files.unlink at hunlink
  split at hunlink
  · cases hunlink
  next hisDir =>
    split at hunlink
    · cases hunlink
    · cases hunlink
      exact h.tree.remove (not_dir_of_isDir (Bool.not_eq_true _ ▸ hisDir)).2

end Writers

/-! ## One call -/

/-- A relative path below the root, as the tools accept it. -/
def Relative (path : String) : Prop :=
  path ≠ "" ∧ isAbsolute path = false ∧ ".." ∉ pathParts path

/-- A script leaves a tree without links. -/
def WriteCall.LeavesTree (root : Loc) : WriteCall → Prop
  | .runSkillScript after _ => StagedTree after root
  | _ => True

/-- The files of these relative paths are all that changed. -/
structure Named (files files' : Files) (root : Loc) (paths : List String) : Prop where
  relative : ∀ path ∈ paths, Relative path
  touches : files.Touches files' (fun l => ∃ path ∈ paths, l = root ++ pathParts path)

theorem normalizeWritePath_parts {path normalized : String}
    (h : normalizeWritePath path = .ok normalized) : pathParts (strip path) ≠ [] := by
  intro hnil
  unfold normalizeWritePath at h
  simp only [hnil, true_or, if_true] at h
  repeat' split at h
  all_goals cases h

theorem normalizeWritePath_relative {path normalized : String}
    (h : normalizeWritePath path = .ok normalized) : Relative normalized := by
  obtain ⟨hparts, habsolute, -, hdots⟩ := normalizeWritePath_ok h
  have hne := normalizeWritePath_parts h
  rw [← hparts] at hdots hne
  refine ⟨fun hempty => hne ?_, habsolute, hdots⟩
  rw [hempty]
  decide

theorem requireWritePath_relative {registry : WriteRegistry} {files : Files}
    {path normalized : String} (h : registry.requireWritePath files path = .ok normalized) :
    Relative normalized := by
  unfold WriteRegistry.requireWritePath at h
  split at h
  · cases h
  next found hfound =>
    split at h
    · cases h
    · split at h
      · cases h
      · cases h
        unfold assertWritePathAllowed at hfound
        split at hfound
        · cases hfound
        next normalized hnormalized =>
          split at hfound
          · cases hfound
          · cases hfound
            exact normalizeWritePath_relative hnormalized

theorem guardPaths_relative {registry : WriteRegistry} {files : Files}
    (entries : List (String × String)) {guarded result : Dict String String}
    (h : registry.guardPaths files entries guarded = .ok result)
    (hguarded : ∀ path ∈ Dict.keys guarded, Relative path) :
    ∀ path ∈ Dict.keys result, Relative path := by
  induction entries generalizing guarded with
  | nil =>
    cases h
    exact hguarded
  | cons entry entries ih =>
    obtain ⟨path, content⟩ := entry
    unfold WriteRegistry.guardPaths at h
    split at h
    · cases h
    next normalized hnormalized =>
      refine ih h fun other hother => ?_
      rcases (Dict.mem_keys_set _ _ _ _).mp hother with rfl | hother
      · exact requireWritePath_relative hnormalized
      · exact hguarded other hother

section Tools

variable {files files' : Files} {denied : Loc → Bool} {root : Loc}

theorem writeFile_named (h : StagedTree files root) {path content : String} (hpath : Relative path)
    (hwrite : files.writeFile denied root path content none = .ok files') :
    Named files files' root [path] := by
  obtain ⟨target, ht, htouch, -⟩ := Files.writeFile_ok hwrite
  have hres := (Files.boundaryResolve_ok ht).1
  rw [Files.resolve_unlinked h.links hpath.2.1 hpath.2.2] at hres
  cases hres
  refine ⟨by simpa using hpath, htouch.mono ?_⟩
  rintro l rfl
  exact ⟨path, List.mem_singleton.mpr rfl, rfl⟩

/-- The loop of `apply_patch` keeps the tree, also where it stops part way. -/
theorem patchFiles_staged (h : StagedTree files root) (entries : List (String × String))
    (given : PatchApplicationResult) :
    StagedTree (files.patchFiles denied root entries given).1 root := by
  induction entries generalizing files given with
  | nil => exact h
  | cons entry entries ih =>
    obtain ⟨path, content⟩ := entry
    unfold Files.patchFiles
    split
    · exact h
    · split
      · exact h
      next mid hmid => exact ih (h.writeFile hmid) _

theorem patchFiles_named (h : StagedTree files root) {entries : List (String × String)}
    (hentries : ∀ path ∈ entries.map Prod.fst, Relative path)
    {given result : PatchApplicationResult}
    (hgiven : ∀ path ∈ given.paths, Relative path)
    (hpatch : files.patchFiles denied root entries given = (files', .ok result)) :
    Named files files' root result.paths ∧ given.paths ⊆ result.paths := by
  induction entries generalizing files given with
  | nil =>
    cases hpatch
    exact ⟨⟨hgiven, Files.Touches.refl _ _⟩, List.Subset.refl _⟩
  | cons entry entries ih =>
    obtain ⟨path, content⟩ := entry
    have hpath : Relative path := hentries path List.mem_cons_self
    unfold Files.patchFiles at hpatch
    split at hpatch
    · cases hpatch
    next target _ =>
      split at hpatch
      · cases hpatch
      next mid hmid =>
        have hone := writeFile_named h hpath hmid
        have hpaths : ∀ other, other ∈ (if files.pathExists root target then
            { given with modifiedFiles := given.modifiedFiles ++ [path] }
          else { given with createdFiles := given.createdFiles ++ [path] } :
            PatchApplicationResult).paths ↔ other ∈ given.paths ∨ other = path := by
          intro other
          have hne := hpath.1
          split <;>
            · simp only [PatchApplicationResult.paths, List.mem_filter, List.mem_append,
                List.mem_singleton, decide_eq_true_eq]
              constructor
              · tauto
              · rintro (hin | rfl) <;> tauto
        obtain ⟨hnamed, hsub⟩ := ih (h.writeFile hmid)
          (fun other hother => hentries other (List.mem_cons_of_mem _ hother))
          (fun other hother => by
            rcases (hpaths other).mp hother with hin | rfl
            · exact hgiven other hin
            · exact hpath) hpatch
        refine ⟨⟨hnamed.relative, ?_⟩, fun other hother => hsub ((hpaths other).mpr (.inl hother))⟩
        refine (hone.touches.mono ?_).trans hnamed.touches
        rintro l ⟨other, hother, rfl⟩
        rw [List.mem_singleton.mp hother]
        exact ⟨path, hsub ((hpaths path).mpr (.inr rfl)), rfl⟩

/-- What a tool for one file does when it returns. -/
structure OneFile (files : Files) (root : Loc) (path : String)
    (p : Files × PatchApplicationResult) : Prop where
  tree : StagedTree p.1 root
  named : Named files p.1 root p.2.paths

theorem oneFile_written (h : StagedTree files root) {path content : String} (hpath : Relative path)
    {named : PatchApplicationResult} (hnamed : named.paths = [path])
    {p : Files × PatchApplicationResult}
    (hp : ((files.writeFile denied root path content none).map fun files' => (files', named)) =
      .ok p) : OneFile files root path p := by
  cases hwrite : files.writeFile denied root path content none with
  | error e =>
    rw [hwrite] at hp
    cases hp
  | ok files' =>
    rw [hwrite] at hp
    cases hp
    refine ⟨h.writeFile hwrite, ?_⟩
    show Named files files' root named.paths
    rw [hnamed]
    exact writeFile_named h hpath hwrite

/-- The root itself is not a regular file, so the path of one is not empty. -/
theorem relative_of_regular (h : StagedTree files root) {path : String} {mustExist : Bool}
    {target : Loc} (hpath : files.resolveRegularFile root path mustExist = .ok target) :
    Relative path ∧ target = root ++ pathParts path := by
  obtain ⟨hbound, habsolute, hdots, -⟩ := resolveRegularFile_ok hpath
  have hres := (Files.boundaryResolve_ok hbound).1
  rw [Files.resolve_unlinked h.links habsolute hdots] at hres
  have htarget : target = root ++ pathParts path := (Except.ok.inj hres).symm
  refine ⟨⟨?_, habsolute, hdots⟩, htarget⟩
  rintro rfl
  have hroot : target = root := by
    rw [htarget]
    have hnil : pathParts "" = [] := by decide
    rw [hnil, List.append_nil]
  exact (Files.vacant_of_regular hpath h.fileAt_root).1 hroot

theorem replaceText_oneFile (h : StagedTree files root) {path oldText newText : String}
    {expected : Int} {p : Files × PatchApplicationResult}
    (hp : files.replaceText denied root path oldText newText expected = .ok p) :
    OneFile files root path p := by
  unfold Files.replaceText at hp
  split at hp
  · cases hp
  · split at hp
    · cases hp
    next target htarget =>
      have hpath := (relative_of_regular h htarget).1
      split at hp
      · cases hp
      · simp only at hp
        split at hp
        · cases hp
        · exact oneFile_written h hpath (by simp [PatchApplicationResult.paths, hpath.1]) hp

theorem createFile_oneFile (h : StagedTree files root) {path content : String}
    {p : Files × PatchApplicationResult}
    (hp : files.createFile denied root path content = .ok p) : OneFile files root path p := by
  unfold Files.createFile at hp
  split at hp
  · cases hp
  next target htarget =>
    have hpath := (relative_of_regular h htarget).1
    split at hp
    · cases hp
    · exact oneFile_written h hpath (by simp [PatchApplicationResult.paths, hpath.1]) hp

theorem deleteFile_oneFile (h : StagedTree files root) {path : String}
    {p : Files × PatchApplicationResult} (hp : files.deleteFile denied root path = .ok p) :
    OneFile files root path p := by
  unfold Files.deleteFile at hp
  split at hp
  · cases hp
  next target htarget =>
    obtain ⟨hpath, htargetEq⟩ := relative_of_regular h htarget
    have hbound := (resolveRegularFile_ok htarget).1
    cases hunlink : files.unlink denied root target with
    | error e =>
      rw [hunlink] at hp
      cases hp
    | ok files' =>
      rw [hunlink] at hp
      cases hp
      refine ⟨h.unlink hbound hunlink, ?_⟩
      have hpaths : ({ deletedFiles := [path] } : PatchApplicationResult).paths = [path] := by
        simp [PatchApplicationResult.paths, hpath.1]
      show Named files files' root ({ deletedFiles := [path] } : PatchApplicationResult).paths
      rw [hpaths]
      refine ⟨by simpa using hpath, (Files.unlink_ok hbound hunlink).1.mono ?_⟩
      rintro l rfl
      exact ⟨path, List.mem_singleton.mpr rfl, htargetEq⟩

end Tools

section Calls

variable {registry : WriteRegistry} {files : Files}

/-- A call of a tool for one file, after the check of its path. -/
theorem performed_staged (h : StagedTree files registry.root) {path : String}
    {result : Except PyError (Files × PatchApplicationResult)}
    (hone : ∀ p, result = .ok p → OneFile files registry.root path p) :
    StagedTree (performed files result).1 registry.root ∧
      ∀ files' named, performed files result = (files', .ok named) →
        Named files files' registry.root named.paths := by
  unfold performed
  cases result with
  | error e => exact ⟨h, fun _ _ hcall => by cases hcall⟩
  | ok p =>
    refine ⟨(hone p rfl).tree, fun files' named hcall => ?_⟩
    cases hcall
    exact (hone p rfl).named

/-- A call keeps the tree, and when it returns it names what it changed; a script
names nothing. -/
theorem perform_staged (h : StagedTree files registry.root) {call : WriteCall}
    (hcall : call.LeavesTree registry.root) :
    StagedTree (call.perform registry files).1 registry.root ∧
      ∀ files' result, call.perform registry files = (files', .ok result) →
        (∀ path ∈ result.paths, Relative path) ∧
          (result.paths = [] ∨ Named files files' registry.root result.paths) := by
  have hnamed : ∀ {files' : Files} {paths : List String}, Named files files' registry.root paths →
      (∀ path ∈ paths, Relative path) ∧ (paths = [] ∨ Named files files' registry.root paths) :=
    fun hnamed => ⟨hnamed.relative, .inr hnamed⟩
  cases call with
  | applyPatch entries =>
    simp only [WriteCall.perform]
    split
    · exact ⟨h, fun _ _ hresult => by cases hresult⟩
    next guarded hguarded =>
      have hkeys := guardPaths_relative entries hguarded (by simp)
      unfold Files.applyPatch
      split
      · exact ⟨h, fun _ _ hresult => by cases hresult⟩
      · refine ⟨patchFiles_staged h _ _, fun files' result hresult => hnamed ?_⟩
        exact (patchFiles_named h hkeys (by simp [PatchApplicationResult.paths]) hresult).1
  | replaceText path oldText newText expected =>
    simp only [WriteCall.perform]
    split
    · exact ⟨h, fun _ _ hresult => by cases hresult⟩
    · obtain ⟨htree, hreturned⟩ := performed_staged h fun p hp =>
        @replaceText_oneFile files registry.denied registry.root h
          path oldText newText expected p hp
      exact ⟨htree, fun _ _ hresult => hnamed (hreturned _ _ hresult)⟩
  | createFile path content =>
    simp only [WriteCall.perform]
    split
    · exact ⟨h, fun _ _ hresult => by cases hresult⟩
    · obtain ⟨htree, hreturned⟩ := performed_staged h fun p hp =>
        @createFile_oneFile files registry.denied registry.root h path content p hp
      exact ⟨htree, fun _ _ hresult => hnamed (hreturned _ _ hresult)⟩
  | deleteFile path =>
    simp only [WriteCall.perform]
    split
    · exact ⟨h, fun _ _ hresult => by cases hresult⟩
    · obtain ⟨htree, hreturned⟩ := performed_staged h fun p hp =>
        @deleteFile_oneFile files registry.denied registry.root h path p hp
      exact ⟨htree, fun _ _ hresult => hnamed (hreturned _ _ hresult)⟩
  | runSkillScript after error =>
    simp only [WriteCall.perform]
    split
    · refine ⟨hcall, fun files' result hresult => ?_⟩
      cases hresult
      exact ⟨by simp [PatchApplicationResult.paths], .inl rfl⟩
    · exact ⟨hcall, fun _ _ hresult => by cases hresult⟩

end Calls

/-! ## A run of calls -/

section Runs

variable {registry : WriteRegistry}

/-- The call records nothing: it raised, or it is a script. -/
def Silent (registry : WriteRegistry) (call : WriteCall) (st : Staging) : Prop :=
  (st.invoke registry call).changedPaths = st.changedPaths

/-- The call changes the file at the location. -/
def Changes (registry : WriteRegistry) (call : WriteCall) (st : Staging) (l : Loc) : Prop :=
  (st.invoke registry call).files.contentAt l ≠ st.files.contentAt l

/-- Some call of the run, in the state it is made in, is related to the location. -/
def InRun (registry : WriteRegistry) (related : WriteCall → Staging → Loc → Prop) (st : Staging)
    (calls : List WriteCall) (l : Loc) : Prop :=
  ∃ before call after, calls = before ++ call :: after ∧
    related call (Run.run (Staging.invoke registry) st before) l

structure Staging.Sound (registry : WriteRegistry) (st : Staging) : Prop where
  staged : StagedTree st.files registry.root
  relative : ∀ path ∈ st.changedPaths, Relative path

theorem Staging.Sound.invoke {st : Staging} (h : st.Sound registry) {call : WriteCall}
    (hcall : call.LeavesTree registry.root) : (st.invoke registry call).Sound registry := by
  obtain ⟨htree, hreturned⟩ := perform_staged h.staged hcall
  unfold Staging.invoke
  split
  next files e hresult =>
    rw [hresult] at htree
    exact ⟨htree, h.relative⟩
  next files result hresult =>
    rw [hresult] at htree
    refine ⟨htree, fun path hpath => ?_⟩
    rcases List.mem_append.mp hpath with hin | hin
    · exact h.relative path hin
    · exact (hreturned files result hresult).1 path hin

theorem Staging.Sound.run {st : Staging} (h : st.Sound registry) {calls : List WriteCall}
    (hcalls : ∀ call ∈ calls, call.LeavesTree registry.root) :
    (Run.run (Staging.invoke registry) st calls).Sound registry := by
  induction calls generalizing st with
  | nil => exact h
  | cons call calls ih =>
    exact ih (h.invoke (hcalls call List.mem_cons_self))
      fun other hother => hcalls other (List.mem_cons_of_mem _ hother)

/-- A call that changes a file records its path, or records nothing at all. -/
theorem changes_recorded {st : Staging} (h : st.Sound registry) {call : WriteCall}
    (hcall : call.LeavesTree registry.root) {l : Loc} (hchanges : Changes registry call st l) :
    Silent registry call st ∨
      ∃ path ∈ (st.invoke registry call).changedPaths, l = registry.root ++ pathParts path := by
  obtain ⟨-, hreturned⟩ := perform_staged h.staged hcall
  unfold Silent Changes at *
  unfold Staging.invoke at *
  split
  next files e hresult => exact .inl rfl
  next files result hresult =>
    rw [hresult] at hchanges
    rcases (hreturned files result hresult).2 with hnil | hnamed
    · left
      simp [hnil]
    · right
      have hat : ∃ path ∈ result.paths, l = registry.root ++ pathParts path := by
        by_contra hnot
        exact hchanges (hnamed.touches.contentAt_eq hnot)
      obtain ⟨path, hpath, hl⟩ := hat
      exact ⟨path, List.mem_append_right _ hpath, hl⟩

theorem invoke_changedPaths (call : WriteCall) (st : Staging) :
    st.changedPaths ⊆ (st.invoke registry call).changedPaths := by
  unfold Staging.invoke
  split
  · exact List.Subset.refl _
  · exact List.subset_append_left _ _

theorem run_changedPaths (calls : List WriteCall) (st : Staging) :
    st.changedPaths ⊆ (Run.run (Staging.invoke registry) st calls).changedPaths := by
  induction calls generalizing st with
  | nil => exact List.Subset.refl _
  | cons call calls ih => exact List.Subset.trans (invoke_changedPaths call st) (ih _)

/-- What differs after a run was changed by one of its calls. -/
theorem changed_of_run {st : Staging} {calls : List WriteCall} {l : Loc}
    (h : (Run.run (Staging.invoke registry) st calls).files.contentAt l ≠ st.files.contentAt l) :
    InRun registry (Changes registry) st calls l := by
  induction calls generalizing st with
  | nil => exact absurd rfl h
  | cons call calls ih =>
    by_cases hfirst : Changes registry call st l
    · exact ⟨[], call, calls, rfl, hfirst⟩
    · have hsame : (st.invoke registry call).files.contentAt l = st.files.contentAt l :=
        not_ne_iff.mp hfirst
      have hrest : (Run.run (Staging.invoke registry) (st.invoke registry call)
        calls).files.contentAt
          l ≠ (st.invoke registry call).files.contentAt l := by
        rw [hsame]
        exact h
      obtain ⟨before, other, after, hcalls, hother⟩ := ih hrest
      exact ⟨call :: before, other, after, by rw [hcalls]; rfl, hother⟩

/-- A file changed in a run is recorded at its end, or was changed by a call that
records nothing. -/
theorem changed_recorded {st : Staging} (h : st.Sound registry) {calls : List WriteCall}
    (hcalls : ∀ call ∈ calls, call.LeavesTree registry.root) {l : Loc}
    (hchanged : InRun registry (Changes registry) st calls l) :
    InRun registry (fun call st l => Silent registry call st ∧ Changes registry call st l) st calls
        l ∨
      ∃ path ∈ (Run.run (Staging.invoke registry) st calls).changedPaths,
        l = registry.root ++ pathParts path := by
  obtain ⟨before, call, after, rfl, hchanges⟩ := hchanged
  have hsound := h.run fun other hother => hcalls other (List.mem_append_left _ hother)
  rcases changes_recorded hsound (hcalls call (by simp)) hchanges with hsilent | ⟨path, hpath, hl⟩
  · exact .inl ⟨before, call, after, rfl, hsilent, hchanges⟩
  · right
    refine ⟨path, ?_, hl⟩
    rw [Run.run_append, Run.run_cons]
    exact run_changedPaths after _ hpath

end Runs

/-! ## From the calls to the source -/

namespace StagedPair

/-- The trees after the calls of a worker. -/
def worked (p : StagedPair) (registry : WriteRegistry) (calls : List WriteCall) : StagedPair :=
  { p with
    staging := (Run.run (Staging.invoke registry) { files := p.staging } calls).files
    stagingRoot := registry.root }

/-- The paths recorded as changed after the calls. -/
def recorded (p : StagedPair) (registry : WriteRegistry) (calls : List WriteCall) : List String :=
  (Run.run (Staging.invoke registry) { files := p.staging } calls).changedPaths

/-- A call changed the file of these components, or recorded their path. -/
def Touched (p : StagedPair) (registry : WriteRegistry) (calls : List WriteCall)
    (parts : List String) : Prop :=
  (∃ path ∈ p.recorded registry calls, pathParts path = parts) ∨
    InRun registry (Changes registry) { files := p.staging } calls (registry.root ++ parts)

/-- The file of these components is in the source as it is in the staging copy. -/
def Kept (p : StagedPair) (source : Files) (parts : List String) : Prop :=
  SameBytes (source.contentAt (p.sourceRoot ++ parts))
    (p.staging.contentAt (p.stagingRoot ++ parts))

/-- What the record and the text mode of the collection do not lose. -/
structure Traceable (p : StagedPair) (registry : WriteRegistry)
    (calls : List WriteCall) : Prop where
  /-- What a call changes without recording it is recorded by another one, or is in
  the end as the source has it. -/
  silent : ∀ parts, InRun registry
      (fun call st l => Silent registry call st ∧ Changes registry call st l)
      { files := p.staging } calls (registry.root ++ parts) →
    (∃ path ∈ p.recorded registry calls, pathParts path = parts) ∨
      (p.worked registry calls).Kept p.source parts
  clean : ∀ path ∈ p.recorded registry calls,
    (p.worked registry calls).Kept p.source (pathParts path) ∨
      Clean (p.before path) ((p.worked registry calls).after path)
  /-- No link of the source is on the way. -/
  direct : ∀ path ∈ p.recorded registry calls,
    p.source.resolve p.sourceRoot path = .ok (p.sourceAt path)
  /-- The regular files of the source above a recorded path were copied. -/
  copied : ∀ path ∈ p.recorded registry calls, ∀ parts, parts <+: pathParts path →
    parts ≠ pathParts path → p.source.fileAt (p.sourceRoot ++ parts) ≠ none →
      p.staging.fileAt (registry.root ++ parts) ≠ none

end StagedPair

section CarryOver

variable {p : StagedPair} {registry : WriteRegistry} {calls : List WriteCall}

/-- No regular file of the source blocks a path that is collected. -/
theorem unblocked_of_traceable (hstaged : StagedTree p.staging registry.root)
    (hcalls : ∀ call ∈ calls, call.LeavesTree registry.root)
    (hsource : ∀ l, l <+: p.sourceRoot → p.source.fileAt l = none)
    (h : p.Traceable registry calls)
    (hfound : ∀ path ∈ p.recorded registry calls,
      (p.worked registry calls).Found (p.sourceAt path) ((p.worked registry calls).stagingAt path))
    {path : String} (hpath : path ∈ p.recorded registry calls)
    (hafter : (p.worked registry calls).after path ≠ none) :
    p.source.parentBlocked (p.sourceAt path) = false := by
  have hstart : Staging.Sound registry { files := p.staging } := ⟨hstaged, by simp⟩
  have hworked : StagedTree (p.worked registry calls).staging registry.root :=
    (hstart.run hcalls).staged
  rw [Files.parentBlocked_eq_false]
  intro l hle hne
  by_contra hfile
  rcases List.prefix_or_prefix_of_prefix hle (List.prefix_append p.sourceRoot (pathParts path))
    with habove | ⟨parts, rfl⟩
  · exact hfile (hsource l habove)
  · -- the staging copy had the file and has a directory there now
    obtain ⟨rel, hrel⟩ : parts <+: pathParts path := (List.prefix_append_right_inj _).mp hle
    have hlt : parts ≠ pathParts path := by
      rintro rfl
      exact hne rfl
    have hcopied := h.copied path hpath parts ⟨rel, hrel⟩ hlt hfile
    have hrelNe : rel ≠ [] := by
      rintro rfl
      exact hlt (by rw [← hrel, List.append_nil])
    have hentry : (p.worked registry calls).staging ((registry.root ++ parts) ++ rel) ≠ none := by
      intro hnone
      apply hafter
      have hat : (p.worked registry calls).stagingAt path = (registry.root ++ parts) ++ rel := by
        show registry.root ++ pathParts path = _
        rw [List.append_assoc, hrel]
      unfold StagedPair.after
      rw [hat]
      exact Files.contentAt_of_none hnone
    obtain ⟨mode, hdir⟩ := hworked.tree.below (List.prefix_append _ _) rel hrelNe hentry
    have hnone : (p.worked registry calls).staging.contentAt (registry.root ++ parts) = none := by
      simp [Files.contentAt, Files.fileAt, hdir]
    have hchanged : InRun registry (Changes registry) { files := p.staging } calls
        (registry.root ++ parts) := by
      apply changed_of_run
      intro hsame
      have hgone : p.staging.contentAt (registry.root ++ parts) = none := hsame.symm.trans hnone
      unfold Files.contentAt at hgone
      exact hcopied (Option.map_eq_none_iff.mp hgone)
    have hrecorded : ∃ other ∈ p.recorded registry calls, pathParts other = parts := by
      rcases changed_recorded hstart hcalls hchanged with hsilent | ⟨other, hother, hl⟩
      · rcases h.silent parts hsilent with hin | hkept
        · exact hin
        · exfalso
          unfold StagedPair.Kept SameBytes at hkept
          have hstagingNone : (p.worked registry calls).staging.contentAt
              ((p.worked registry calls).stagingRoot ++ parts) = none := hnone
          rw [hstagingNone, Option.map_none, Option.map_eq_none_iff] at hkept
          unfold Files.contentAt at hkept
          exact hfile (Option.map_eq_none_iff.mp hkept)
      · exact ⟨other, hother, (List.append_cancel_left hl).symm⟩
    obtain ⟨other, hother, rfl⟩ := hrecorded
    have hvacant : (p.worked registry calls).staging (registry.root ++ pathParts other) = none :=
      (hfound other hother).staging.2 (by
        show (p.worked registry calls).staging.fileAt (registry.root ++ pathParts other) = none
        simp [Files.fileAt, hdir])
    rw [hdir] at hvacant
    cases hvacant

/-- When collecting the edits of a worker returns, applying them to the source makes
every file that a call touched what it is in the staging copy, and changes no other:
provided the record and text mode lose nothing. -/
theorem changes_carried_over (hstaged : StagedTree p.staging registry.root)
    (hcalls : ∀ call ∈ calls, call.LeavesTree registry.root)
    (hsource : ∀ l, l <+: p.sourceRoot → p.source.fileAt l = none)
    (hutf8 : ∀ path ∈ p.recorded registry calls, ∀ raw, p.before path ≠ some (.binary raw))
    {edits : List FileEdit}
    (hcollect : (p.worked registry calls).collectStagedEdits (p.recorded registry calls) =
      .ok edits)
    (h : p.Traceable registry calls) (hashStrict : Bool) :
    ∃ source', p.source.applyEdits p.sha256 (fun _ => false) p.sourceRoot hashStrict edits =
        .ok source' ∧
      (∀ parts, p.Touched registry calls parts → (p.worked registry calls).Kept source' parts) ∧
      ∀ l, source'.contentAt l ≠ p.source.contentAt l →
        ∃ path ∈ p.recorded registry calls, l = p.sourceAt path := by
  have hstart : Staging.Sound registry { files := p.staging } := ⟨hstaged, by simp⟩
  have hsound := hstart.run hcalls
  have hworked : StagedTree (p.worked registry calls).staging registry.root := hsound.staged
  have hrelative : ∀ path ∈ p.recorded registry calls, Relative path := hsound.relative
  have hdirect : (p.worked registry calls).Direct (p.recorded registry calls) := by
    refine ⟨hsource _ List.prefix_rfl, hworked.fileAt_root, h.direct, fun path hpath => ?_⟩
    obtain ⟨-, habsolute, hdots⟩ := hrelative path hpath
    exact Files.resolve_unlinked hworked.links habsolute hdots
  obtain ⟨source', happlied, hcarried, helsewhere⟩ := collectStagedEdits_applied hcollect
    (fun hempty => (hrelative "" hempty).1 rfl) hdirect hworked.tree hutf8
    (fun hfound path hpath => unblocked_of_traceable hstaged hcalls hsource h hfound hpath)
    hashStrict
  have hrecorded : ∀ path ∈ p.recorded registry calls,
      (p.worked registry calls).Kept source' (pathParts path) := by
    intro path hpath
    have hcontent : source'.contentAt (p.sourceRoot ++ pathParts path) =
        carried (p.before path) ((p.worked registry calls).after path) := hcarried path hpath
    unfold StagedPair.Kept
    show SameBytes (source'.contentAt (p.sourceRoot ++ pathParts path)) _
    rw [hcontent]
    exact carried_same (h.clean path hpath) (hutf8 path hpath)
  refine ⟨source', happlied, ?_, ?_⟩
  · intro parts htouched
    have hsplit : (∃ path ∈ p.recorded registry calls, pathParts path = parts) ∨
        (p.worked registry calls).Kept p.source parts := by
      rcases htouched with hin | hchanged
      · exact .inl hin
      · rcases changed_recorded hstart hcalls hchanged with hsilent | ⟨path, hpath, hl⟩
        · exact h.silent parts hsilent
        · exact .inl ⟨path, hpath, (List.append_cancel_left hl).symm⟩
    by_cases hin : ∃ path ∈ p.recorded registry calls, pathParts path = parts
    · obtain ⟨path, hpath, rfl⟩ := hin
      exact hrecorded path hpath
    · have hkept := hsplit.resolve_left hin
      have hsame : source'.contentAt (p.sourceRoot ++ parts) =
          p.source.contentAt (p.sourceRoot ++ parts) := by
        refine helsewhere _ fun path hpath heq => hin ⟨path, hpath, ?_⟩
        exact (List.append_cancel_left heq).symm
      unfold StagedPair.Kept at hkept ⊢
      show SameBytes (source'.contentAt (p.sourceRoot ++ parts)) _
      rw [hsame]
      exact hkept
  · intro l hl
    by_contra hnot
    exact hl (helsewhere l fun path hpath heq => hnot ⟨path, hpath, heq⟩)

end CarryOver

/-! ## A staging copy with one file -/

namespace Sample

def source : Files := fun l =>
  if l = ["w"] then some (.dir 0o755)
  else if l = ["w", "a"] then some (.file (.utf8 "old") 0o644)
  else none

def staged : Files := fun l =>
  if l = ["t"] then some (.dir 0o755)
  else if l = ["t", "a"] then some (.file (.utf8 "old") 0o644)
  else none

def pair : StagedPair := ⟨source, ["w"], staged, ["t"], fun _ => ""⟩

def registry : WriteRegistry := { root := ["t"], allowedWrites := ["a"] }

theorem staged_tree : StagedTree staged ["t"] := by
  refine ⟨⟨⟨_, rfl⟩, fun l name hl hentry => ?_⟩, fun l hl => ?_⟩
  · unfold staged at hentry
    split at hentry
    next heq =>
      have heq : l ++ [name] = [] ++ ["t"] := heq
      obtain ⟨rfl, -⟩ := List.append_inj' heq rfl
      exact absurd hl (by decide)
    · split at hentry
      next heq =>
        have heq : l ++ [name] = ["t"] ++ ["a"] := heq
        obtain ⟨rfl, -⟩ := List.append_inj' heq rfl
        exact ⟨_, rfl⟩
      · exact absurd rfl hentry
  · unfold Files.linkAt staged
    split
    next heq =>
      split at heq
      · cases heq
      · split at heq <;> cases heq
    · rfl

theorem replaced_traceable : pair.Traceable registry [.replaceText "a" "old" "new" 1] := by
  have hrecorded : pair.recorded registry [.replaceText "a" "old" "new" 1] = ["a"] := by
    decide +kernel
  refine ⟨?_, ?_, ?_, ?_⟩
  · rintro parts ⟨before, call, after, hcalls, hsilent, -⟩
    have hbefore : before = [] := by
      cases before with
      | nil => rfl
      | cons first rest =>
        have hlen := congrArg List.length hcalls
        simp at hlen
    subst hbefore
    cases hcalls
    exact absurd hsilent (by unfold Silent; decide +kernel)
  · intro path hpath
    rw [hrecorded, List.mem_singleton] at hpath
    subst hpath
    right
    intro content hcontent
    have hafter : (pair.worked registry [.replaceText "a" "old" "new" 1]).after "a" =
        some (.utf8 "new") := by
      decide +kernel
    rw [hafter] at hcontent
    cases hcontent
    exact ⟨"new", rfl, by decide +kernel, by decide +kernel⟩
  · intro path hpath
    rw [hrecorded, List.mem_singleton] at hpath
    subst hpath
    decide +kernel
  · intro path hpath parts hle hne hfile
    rw [hrecorded, List.mem_singleton] at hpath
    subst hpath
    have hparts : pathParts "a" = ["a"] := by decide +kernel
    rw [hparts] at hle hne
    have hnil : parts = [] := by
      rcases List.prefix_cons_iff.mp hle with hnil | ⟨rest, hrest, hle'⟩
      · exact hnil
      · rw [List.prefix_nil.mp hle'] at hrest
        exact absurd hrest hne
    rw [hnil] at hfile
    exact absurd (by decide +kernel) hfile

theorem replaced_carried_over :
    ∃ source', source.applyEdits (fun _ => "") (fun _ => false) ["w"] true
        [.replace "a" "new" (some "")] = .ok source' ∧
      (∀ parts, pair.Touched registry [.replaceText "a" "old" "new" 1] parts →
        (pair.worked registry [.replaceText "a" "old" "new" 1]).Kept source' parts) ∧
      ∀ l, source'.contentAt l ≠ source.contentAt l →
        ∃ path ∈ pair.recorded registry [.replaceText "a" "old" "new" 1],
          l = pair.sourceAt path := by
  refine changes_carried_over staged_tree ?_ ?_ ?_ (by decide +kernel) replaced_traceable true
  · intro call hcall
    rw [List.mem_singleton.mp hcall]
    trivial
  · intro l hl
    rcases List.prefix_cons_iff.mp hl with rfl | ⟨rest, rfl, hrest⟩
    · decide
    · rw [List.prefix_nil.mp hrest]
      decide
  · intro path hpath raw
    have hrecorded : pair.recorded registry [.replaceText "a" "old" "new" 1] = ["a"] := by
      decide +kernel
    rw [hrecorded, List.mem_singleton] at hpath
    subst hpath
    have hbefore : pair.before "a" = some (.utf8 "old") := by decide +kernel
    rw [hbefore]
    simp

theorem ok_of_map {α β : Type} {result : Except PyError α} {f : α → β} {b : β}
    (h : (result.map f).toOption = some b) : ∃ a, result = .ok a ∧ f a = b := by
  cases result with
  | error e => cases h
  | ok a => exact ⟨a, rfl, Option.some.inj h⟩

/-- A registry for the paths that the failing runs write. -/
def failing : WriteRegistry := { root := ["t"], allowedWrites := ["b", "a/c"] }

/-- The second file of this patch is below the regular file `a`. -/
def patchPartWay : List WriteCall := [.applyPatch [("b", "text"), ("a/c", "text")]]

def createWithReturns : List WriteCall := [.createFile "b" "x\r\n"]

/-- A created file with carriage returns loses them on the way to the source, and what
`apply_patch` wrote before it failed is not carried over at all. -/
theorem changes_lost :
    ((pair.worked failing createWithReturns).collectStagedEdits
        (pair.recorded failing createWithReturns) = .ok [.replace "b" "x\n" none] ∧
      pair.Touched failing createWithReturns ["b"] ∧
      ∃ source', source.applyEdits (fun _ => "") (fun _ => false) ["w"] true
          [.replace "b" "x\n" none] = .ok source' ∧
        ¬ (pair.worked failing createWithReturns).Kept source' ["b"]) ∧
    (pair.worked failing patchPartWay).collectStagedEdits (pair.recorded failing patchPartWay) =
        .ok [] ∧
      pair.Touched failing patchPartWay ["b"] ∧
      ∃ source', source.applyEdits (fun _ => "") (fun _ => false) ["w"] true [] = .ok source' ∧
        ¬ (pair.worked failing patchPartWay).Kept source' ["b"] := by
  refine ⟨⟨by decide +kernel, .inl ⟨"b", by decide +kernel, by decide +kernel⟩, ?_⟩,
    by decide +kernel, .inr ⟨[], _, [], rfl, ?_⟩, source, rfl, ?_⟩
  · obtain ⟨source', happlied, hcontent⟩ := @ok_of_map _ _
      (source.applyEdits (fun _ => "") (fun _ => false) ["w"] true [.replace "b" "x\n" none])
      (fun files => files.contentAt ["w", "b"]) (some (.utf8 "x\n")) (by decide +kernel)
    refine ⟨source', happlied, fun hkept => ?_⟩
    have hkept : (source'.contentAt ["w", "b"]).map Content.bytes =
      ((pair.worked failing createWithReturns).staging.contentAt ["t", "b"]).map Content.bytes :=
        hkept
    rw [hcontent] at hkept
    revert hkept
    decide +kernel
  · unfold Changes
    decide +kernel
  · unfold StagedPair.Kept SameBytes
    decide +kernel

end Sample

end EvoCI
