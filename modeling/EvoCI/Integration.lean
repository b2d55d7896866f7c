import EvoCI.StagingRuns

/-! `integrate_edits`: every edit is checked against the tree before the first one is
applied. Two copies of one workspace take the same edits. -/

namespace EvoCI

open Library

/-- One round of `precheck_edits`, for a path that was not seen before. -/
def Files.precheckEdit (files : Files) (sha256 : Content → String) (root : Loc) (hashStrict : Bool)
    (edit : FileEdit) : Except PyError Unit :=
  match files.boundaryResolve root edit.path with
  | .error e => .error e
  | .ok target =>
    if files.pathExists root target ∧ files.fileAt target = none then
      .error (.patchPrecheckError s!"patch target is not a regular file: {edit.path}")
    else
      match files.readTextOrNone target with
      | .error e => .error e
      | .ok current =>
        if current = edit.intended then .ok ()
        else files.hashMatches sha256 hashStrict edit target

def Files.precheckEdits (files : Files) (sha256 : Content → String) (root : Loc)
    (hashStrict : Bool) : List String → List FileEdit → Except PyError Unit
  | _, [] => .ok ()
  | seen, edit :: edits =>
    if edit.path ∈ seen then
      .error (.patchPrecheckError s!"duplicate patch target: {edit.path}")
    else
      match files.precheckEdit sha256 root hashStrict edit with
      | .error e => .error e
      | .ok () => files.precheckEdits sha256 root hashStrict (seen ++ [edit.path]) edits

/-- `integrate_edits` without an expected baseline. -/
def Files.integrateEdits (files : Files) (sha256 : Content → String) (denied : Loc → Bool)
    (root : Loc) (edits : List FileEdit) : Except PyError Files :=
  if edits = [] then .ok files
  else
    match files.precheckEdits sha256 root true [] edits with
    | .error e => .error e
    | .ok () => files.applyEdits sha256 denied root true edits

/-! ## What applied edits leave -/

/-- Applying edits changes the files of their paths only, and each file of one path
reads as its edit says. -/
theorem applyEdits_touches {files files' : Files} {sha256 : Content → String} {denied : Loc → Bool}
    {root : Loc} {hashStrict : Bool} {edits : List FileEdit}
    (h : files.applyEdits sha256 denied root hashStrict edits = .ok files') :
    files.Touches files' (files.PathsAt root (edits.map FileEdit.path)) := by
  induction edits generalizing files with
  | nil =>
    cases h
    exact Files.Touches.refl _ _
  | cons edit edits ih =>
    unfold Files.applyEdits at h
    split at h
    · cases h
    next mid hmid =>
      obtain ⟨target, ht, htouch, -⟩ := Files.applyEdit_ok hmid
      refine (htouch.mono ?_).trans ((ih h).mono ?_)
      · rintro l rfl
        exact ⟨edit.path, List.mem_cons_self, ht⟩
      · rintro l ⟨path, hpath, hl⟩
        rw [htouch.boundaryResolve_eq] at hl
        exact ⟨path, List.mem_cons_of_mem _ hpath, hl⟩

theorem applyEdits_texts {files files' : Files} {sha256 : Content → String} {denied : Loc → Bool}
    {root : Loc} {hashStrict : Bool} {edits : List FileEdit}
    (h : files.applyEdits sha256 denied root hashStrict edits = .ok files')
    (hnodup : (edits.map FileEdit.path).Nodup)
    (hdistinct : files.DistinctFiles root (edits.map FileEdit.path)) :
    ∀ edit ∈ edits, files'.fileText root edit.path = .ok (readBack edit.content) := by
  induction edits generalizing files with
  | nil => simp
  | cons edit edits ih =>
    unfold Files.applyEdits at h
    split at h
    · cases h
    next mid hmid =>
      obtain ⟨target, ht, htouch, hwritten⟩ := Files.applyEdit_ok hmid
      obtain ⟨hnot, hnodup⟩ := List.nodup_cons.mp hnodup
      have hmidDistinct : mid.DistinctFiles root ((edit :: edits).map FileEdit.path) := by
        rw [Files.distinctFiles_congr htouch.links]
        exact hdistinct
      intro other hother
      rcases List.mem_cons.mp hother with rfl | hother
      · -- the later edits leave the file alone
        have hkept : files'.contentOf root other.path = mid.contentOf root other.path :=
          (applyEdits_touches h).contentOf_of_distinct _ hmidDistinct List.mem_cons_self
            (List.subset_cons_self _ _) hnot
        rw [Files.fileText_congr hkept]
        have hmidTarget : mid.boundaryResolve root other.path = .ok target := by
          rw [htouch.boundaryResolve_eq, ht]
        rcases hwritten with ⟨hread, rfl⟩ | hcontent
        · have htext : mid.fileText root other.path = .ok other.content := by
            rw [Files.fileText_of_boundary ht, hread]
          have hstable : readBack other.content = other.content :=
            Files.stableText_of_fileText htext
          rw [htext, hstable]
        · rw [Files.fileText_of_boundary hmidTarget]
          exact Files.readTextOrNone_written hcontent
      · refine ih h hnodup (fun p hp q hq => ?_) other hother
        exact hmidDistinct p (List.mem_cons_of_mem _ hp) q (List.mem_cons_of_mem _ hq)

theorem precheckEdits_nodup {files : Files} {sha256 : Content → String} {root : Loc}
    {hashStrict : Bool} {seen : List String} {edits : List FileEdit}
    (h : files.precheckEdits sha256 root hashStrict seen edits = .ok ()) :
    (edits.map FileEdit.path).Nodup ∧ ∀ edit ∈ edits, edit.path ∉ seen := by
  induction edits generalizing seen with
  | nil => simp
  | cons edit edits ih =>
    unfold Files.precheckEdits at h
    split at h
    · cases h
    next hseen =>
      split at h
      · cases h
      · obtain ⟨hnodup, hfresh⟩ := ih h
        refine ⟨List.nodup_cons.mpr ⟨fun hin => ?_, hnodup⟩, fun other hother => ?_⟩
        · obtain ⟨other, hother, hsame⟩ := List.mem_map.mp hin
          exact hfresh other hother (by simp [hsame])
        · rcases List.mem_cons.mp hother with rfl | hother
          · exact hseen
          · exact fun hin => hfresh other hother (List.mem_append_left _ hin)

/-! ## Two copies of one workspace -/

/-- Copies of one workspace hold no links, and differ in nothing but their Git metadata
and the permissions of the root. -/
structure Alike (root : Loc) (tree tree' : Files) : Prop where
  entries : ∀ l, l ≠ root → ¬ root ++ [".git"] <+: l → tree l = tree' l
  top : ∃ mode, tree root = some (.dir mode)
  top' : ∃ mode, tree' root = some (.dir mode)
  links : ∀ l, tree.linkAt l = none
  links' : ∀ l, tree'.linkAt l = none

/-- In a tree without links no edit's path leads into the Git metadata. -/
def LeavesGit (root : Loc) (edits : List FileEdit) : Prop :=
  ∀ edit ∈ edits, ∀ target, noFiles.boundaryResolve root edit.path = .ok target →
    ¬ root ++ [".git"] <+: target

theorem Files.boundaryResolve_unlinked {files : Files} (h : ∀ l, files.linkAt l = none) (root : Loc)
    (path : String) : files.boundaryResolve root path = noFiles.boundaryResolve root path := by
  apply Files.boundaryResolve_congr
  funext l
  rw [h l]
  rfl

namespace Alike

variable {root target : Loc} {tree tree' : Files}

theorem symm (h : Alike root tree tree') : Alike root tree' tree :=
  ⟨fun l hl hgit => (h.entries l hl hgit).symm, h.top', h.top, h.links', h.links⟩

theorem boundaryResolve_eq (h : Alike root tree tree') (path : String) :
    tree'.boundaryResolve root path = tree.boundaryResolve root path := by
  rw [Files.boundaryResolve_unlinked h.links, Files.boundaryResolve_unlinked h.links']

theorem fileAt_eq (h : Alike root tree tree') (hout : ¬ root ++ [".git"] <+: target) :
    tree'.fileAt target = tree.fileAt target := by
  by_cases htop : target = root
  · obtain ⟨mode, hdir⟩ := h.top
    obtain ⟨mode', hdir'⟩ := h.top'
    simp [Files.fileAt, htop, hdir, hdir']
  · simp [Files.fileAt, h.entries target htop hout]

theorem readTextOrNone_eq (h : Alike root tree tree') (hout : ¬ root ++ [".git"] <+: target) :
    tree'.readTextOrNone target = tree.readTextOrNone target := by
  unfold Files.readTextOrNone
  rw [h.fileAt_eq hout]

theorem pathExists_eq (h : Alike root tree tree') (hout : ¬ root ++ [".git"] <+: target) :
    tree'.pathExists root target = tree.pathExists root target := by
  unfold Files.pathExists
  by_cases htop : target = root
  · simp [htop]
  · rw [h.entries target htop hout]

theorem isDir_eq (h : Alike root tree tree') (hout : ¬ root ++ [".git"] <+: target) :
    tree'.isDir root target = tree.isDir root target := by
  by_cases htop : target = root
  · rw [htop, Files.isDir_root, Files.isDir_root]
  · unfold Files.isDir
    rw [h.entries target htop hout]

theorem hashMatches_eq (h : Alike root tree tree') (hout : ¬ root ++ [".git"] <+: target)
    (sha256 : Content → String) (hashStrict : Bool) (edit : FileEdit) :
    tree'.hashMatches sha256 hashStrict edit target =
      tree.hashMatches sha256 hashStrict edit target := by
  unfold Files.hashMatches
  by_cases htop : target = root
  · obtain ⟨mode, hdir⟩ := h.top
    obtain ⟨mode', hdir'⟩ := h.top'
    rw [htop, hdir, hdir']
  · rw [h.entries target htop hout]

theorem parentBlocked_eq (h : Alike root tree tree') (hout : ¬ root ++ [".git"] <+: target) :
    tree'.parentBlocked target = tree.parentBlocked target := by
  have habove : ∀ l, l <+: target → tree'.fileAt l = tree.fileAt l :=
    fun l hl => h.fileAt_eq fun hgit => hout (hgit.trans hl)
  rw [Bool.eq_iff_iff]
  simp only [Files.parentBlocked, List.any_eq_true, List.mem_inits]
  constructor
  · rintro ⟨l, hl, hfile⟩
    exact ⟨l, hl, by rw [← habove l hl]; exact hfile⟩
  · rintro ⟨l, hl, hfile⟩
    exact ⟨l, hl, by rw [habove l hl]; exact hfile⟩

/-- Both copies take a file at one place. -/
theorem put (h : Alike root tree tree') (htop : target ≠ root)
    (content : Content) (mode : Nat) :
    Alike root ((tree.mkdirParents target).put target (.file content mode))
      ((tree'.mkdirParents target).put target (.file content mode)) := by
  have hroot : ∀ {files : Files}, (∃ m, files root = some (.dir m)) →
      ∃ m, (files.mkdirParents target).put target (.file content mode) root = some (.dir m) := by
    rintro files ⟨m, hm⟩
    refine ⟨m, ?_⟩
    rw [Files.put_of_ne _ _ (Ne.symm htop)]
    simp [Files.mkdirParents, hm]
  have hlinks : ∀ {files : Files}, (∀ l, files.linkAt l = none) →
      ∀ l, ((files.mkdirParents target).put target (.file content mode)).linkAt l = none := by
    intro files hnone l
    rw [Files.linkAt_put _ _ _ (by rw [Files.linkAt_mkdirParents]; exact hnone target),
      Files.linkAt_mkdirParents]
    exact hnone l
  refine ⟨fun l hl hgit => ?_, hroot h.top, hroot h.top', hlinks h.links, hlinks h.links'⟩
  by_cases hat : l = target
  · simp [hat]
  · rw [Files.put_of_ne _ _ hat, Files.put_of_ne _ _ hat]
    simp only [Files.mkdirParents, h.entries l hl hgit]

theorem remove (h : Alike root tree tree') (htop : target ≠ root) :
    Alike root (tree.remove target) (tree'.remove target) := by
  have hroot : ∀ {files : Files}, (∃ m, files root = some (.dir m)) →
      ∃ m, files.remove target root = some (.dir m) := by
    rintro files ⟨m, hm⟩
    exact ⟨m, by rw [Files.remove_of_ne files (Ne.symm htop), hm]⟩
  have hlinks : ∀ {files : Files}, (∀ l, files.linkAt l = none) →
      ∀ l, (files.remove target).linkAt l = none := by
    intro files hnone l
    rw [Files.linkAt_remove files (hnone target)]
    exact hnone l
  refine ⟨fun l hl hgit => ?_, hroot h.top, hroot h.top', hlinks h.links, hlinks h.links'⟩
  by_cases hat : l = target
  · simp [Files.remove, hat]
  · rw [Files.remove_of_ne tree hat, Files.remove_of_ne tree' hat]
    exact h.entries l hl hgit

variable {sha256 : Content → String} {denied : Loc → Bool} {hashStrict : Bool} {edit : FileEdit}
  {edits : List FileEdit} {files : Files}

theorem precheckEdit_eq (h : Alike root tree tree')
    (hout : ∀ target, noFiles.boundaryResolve root edit.path = .ok target →
      ¬ root ++ [".git"] <+: target) :
    tree'.precheckEdit sha256 root hashStrict edit =
      tree.precheckEdit sha256 root hashStrict edit := by
  unfold Files.precheckEdit
  rw [h.boundaryResolve_eq]
  cases ht : tree.boundaryResolve root edit.path with
  | error e => rfl
  | ok target =>
    rw [Files.boundaryResolve_unlinked h.links] at ht
    have hat := hout target ht
    simp only [h.pathExists_eq hat, h.fileAt_eq hat, h.readTextOrNone_eq hat, h.hashMatches_eq hat]

theorem precheckEdits_eq (h : Alike root tree tree') (hout : LeavesGit root edits)
    (seen : List String) : tree'.precheckEdits sha256 root hashStrict seen edits =
      tree.precheckEdits sha256 root hashStrict seen edits := by
  induction edits generalizing seen with
  | nil => rfl
  | cons edit edits ih =>
    unfold Files.precheckEdits
    rw [h.precheckEdit_eq (hout edit List.mem_cons_self)]
    simp only [ih fun other hother => hout other (List.mem_cons_of_mem _ hother)]

theorem unlink (h : Alike root tree tree') (hout : ¬ root ++ [".git"] <+: target)
    (hunlink : tree.unlink denied root target = .ok files) :
    ∃ files', tree'.unlink denied root target = .ok files' ∧ Alike root files files' := by
  unfold Files.unlink at hunlink ⊢
  rw [h.isDir_eq hout]
  split at hunlink
  · cases hunlink
  next hdir =>
    split at hunlink
    · cases hunlink
    next hdenied =>
      cases hunlink
      refine ⟨_, by rw [if_neg hdir, if_neg hdenied], h.remove ?_⟩
      rintro rfl
      exact hdir (Files.isDir_root _ _)

theorem writeFile {path content : String} {mode : Option Nat} (h : Alike root tree tree')
    (hout : ∀ target, tree.boundaryResolve root path = .ok target → ¬ root ++ [".git"] <+: target)
    (hwrite : tree.writeFile denied root path content mode = .ok files) :
    ∃ files', tree'.writeFile denied root path content mode = .ok files' ∧
      Alike root files files' := by
  unfold Files.writeFile at hwrite ⊢
  rw [h.boundaryResolve_eq]
  split at hwrite
  · cases hwrite
  next target ht =>
    have hat := hout target ht
    simp only [h.parentBlocked_eq hat, h.isDir_eq hat, h.fileAt_eq hat]
    split at hwrite
    · cases hwrite
    next hopen =>
      split at hwrite
      · cases hwrite
      next hdir =>
        split at hwrite
        · cases hwrite
        next hdenied =>
          cases hwrite
          refine ⟨_, by rw [if_neg hopen, if_neg hdir, if_neg hdenied], h.put ?_ _ _⟩
          rintro rfl
          exact hdir (Files.isDir_root _ _)

/-- An edit that one copy takes is taken by the other. -/
theorem applyEdit (h : Alike root tree tree')
    (hout : ∀ target, noFiles.boundaryResolve root edit.path = .ok target →
      ¬ root ++ [".git"] <+: target)
    (happly : tree.applyEdit sha256 denied root hashStrict edit = .ok files) :
    ∃ files', tree'.applyEdit sha256 denied root hashStrict edit = .ok files' ∧
      Alike root files files' := by
  have hinside : ∀ target, tree.boundaryResolve root edit.path = .ok target →
      ¬ root ++ [".git"] <+: target := by
    rw [Files.boundaryResolve_unlinked h.links]
    exact hout
  unfold Files.applyEdit at happly ⊢
  rw [h.boundaryResolve_eq]
  split at happly
  · cases happly
  next target ht =>
    have hat := hinside target ht
    simp only [h.pathExists_eq hat, h.isDir_eq hat, h.readTextOrNone_eq hat, h.hashMatches_eq hat]
    cases hcontent : edit.content with
    | none =>
      rw [hcontent] at happly
      simp only at happly ⊢
      split at happly
      next hexists =>
        rw [if_pos hexists]
        split at happly
        · cases happly
        · exact h.unlink hat happly
      next hmissing =>
        cases happly
        exact ⟨tree', by rw [if_neg hmissing], h⟩
    | some content =>
      rw [hcontent] at happly
      simp only at happly ⊢
      split at happly
      · cases happly
      next hdir =>
        rw [if_neg hdir]
        split at happly
        · cases happly
        · split at happly
          next hsame =>
            cases happly
            exact ⟨tree', by rw [if_pos hsame], h⟩
          next hne =>
            rw [if_neg hne]
            split at happly
            · cases happly
            · exact h.writeFile hinside happly

theorem applyEdits (h : Alike root tree tree') (hout : LeavesGit root edits)
    (happly : tree.applyEdits sha256 denied root hashStrict edits = .ok files) :
    ∃ files', tree'.applyEdits sha256 denied root hashStrict edits = .ok files' := by
  induction edits generalizing tree tree' with
  | nil => exact ⟨tree', rfl⟩
  | cons edit edits ih =>
    unfold Files.applyEdits at happly ⊢
    split at happly
    · cases happly
    next mid hmid =>
      obtain ⟨mid', hmid', halike⟩ := h.applyEdit (hout edit List.mem_cons_self) hmid
      rw [hmid']
      exact ih halike (fun other hother => hout other (List.mem_cons_of_mem _ hother)) happly

/-- Edits that can be integrated into one copy can be integrated into the other. -/
theorem integrateEdits (h : Alike root tree tree') (hout : LeavesGit root edits)
    (hok : tree.integrateEdits sha256 denied root edits = .ok files) :
    ∃ files', tree'.integrateEdits sha256 denied root edits = .ok files' := by
  unfold Files.integrateEdits at hok ⊢
  rw [h.precheckEdits_eq hout]
  split at hok
  next hnil => exact ⟨tree', by rw [if_pos hnil]⟩
  next hne =>
    rw [if_neg hne]
    split at hok
    · cases hok
    next hcheck => exact h.applyEdits hout hok

end Alike

/-! ## What a worker collects -/

/-- An edit names its path, and the bytes that the source has there. -/
theorem editFor_of_source {sha256 : Content → String} {path : String}
    {before after : Option Content} {edit : FileEdit}
    (h : edit ∈ (editFor sha256 path before after).toList) :
    edit.path = path ∧ edit.expectedSha256 = before.map sha256 := by
  unfold editFor at h
  split at h
  · cases before with
    | none => cases h
    | some content =>
      cases List.mem_singleton.mp h
      exact ⟨rfl, rfl⟩
  · split at h
    · cases h
    · split at h
      · cases h
      · cases List.mem_singleton.mp h
        exact ⟨rfl, rfl⟩

theorem precheckEdit_of_source {files : Files} {sha256 : Content → String} {root l : Loc}
    {hashStrict : Bool} {edit : FileEdit} (hl : files.boundaryResolve root edit.path = .ok l)
    (hvacant : files.Vacant root l) (hutf8 : ∀ raw, files.contentAt l ≠ some (.binary raw))
    (hsource : edit.expectedSha256 = (files.contentAt l).map sha256) :
    files.precheckEdit sha256 root hashStrict edit = .ok () := by
  have hregular : ¬ (files.pathExists root l = true ∧ files.fileAt l = none) := by
    rintro ⟨hexists, hnone⟩
    rw [hvacant.pathExists, Files.contentAt, hnone] at hexists
    cases hexists
  have hread : ∃ current, files.readTextOrNone l = .ok current := by
    rw [Files.readTextOrNone_eq]
    cases hcontent : files.contentAt l with
    | none => exact ⟨none, rfl⟩
    | some content =>
      cases content with
      | binary raw => exact absurd hcontent (hutf8 raw)
      | utf8 text => exact ⟨some _, rfl⟩
  obtain ⟨current, hcurrent⟩ := hread
  unfold Files.precheckEdit
  simp only [hl, if_neg hregular, hcurrent, hashMatches_source hsource, ite_self]

theorem precheckEdits_ok {files : Files} {sha256 : Content → String} {root : Loc}
    {hashStrict : Bool} {seen : List String} {edits : List FileEdit}
    (hnodup : (edits.map FileEdit.path).Nodup) (hfresh : ∀ edit ∈ edits, edit.path ∉ seen)
    (hall : ∀ edit ∈ edits, files.precheckEdit sha256 root hashStrict edit = .ok ()) :
    files.precheckEdits sha256 root hashStrict seen edits = .ok () := by
  induction edits generalizing seen with
  | nil => rfl
  | cons edit edits ih =>
    obtain ⟨hnot, hnodup⟩ := List.nodup_cons.mp hnodup
    unfold Files.precheckEdits
    rw [if_neg (hfresh edit List.mem_cons_self), hall edit List.mem_cons_self]
    refine ih hnodup (fun other hother hin => ?_)
      fun other hother => hall other (List.mem_cons_of_mem _ hother)
    rcases List.mem_append.mp hin with hseen | hlast
    · exact hfresh other (List.mem_cons_of_mem _ hother) hseen
    · exact hnot (List.mem_map.mpr ⟨other, hother, List.mem_singleton.mp hlast⟩)

theorem editsFor_nodup (p : StagedPair) {paths : List String} (h : paths.Nodup) :
    ((p.editsFor paths).map FileEdit.path).Nodup ∧
      ∀ edit ∈ p.editsFor paths, edit.path ∈ paths ∧
        edit.expectedSha256 = (p.before edit.path).map p.sha256 := by
  induction paths with
  | nil => simp [StagedPair.editsFor]
  | cons path paths ih =>
    obtain ⟨hnot, hnodup⟩ := List.nodup_cons.mp h
    obtain ⟨hrest, hmem⟩ := ih hnodup
    have hsplit : p.editsFor (path :: paths) =
        (editFor p.sha256 path (p.before path) (p.after path)).toList ++ p.editsFor paths :=
      List.flatMap_cons
    rw [hsplit]
    refine ⟨?_, fun edit hedit => ?_⟩
    · rw [List.map_append, List.nodup_append]
      refine ⟨?_, hrest, ?_⟩
      · cases editFor p.sha256 path (p.before path) (p.after path) with
        | none => exact List.nodup_nil
        | some edit => exact List.nodup_singleton _
      · rintro a ha b hb rfl
        obtain ⟨edit, hedit, rfl⟩ := List.mem_map.mp ha
        obtain ⟨other, hother, hsame⟩ := List.mem_map.mp hb
        rw [← (editFor_of_source hedit).1, ← hsame] at hnot
        exact hnot (hmem other hother).1
    · rcases List.mem_append.mp hedit with hin | hin
      · obtain ⟨hpath, hsha⟩ := editFor_of_source hin
        rw [hpath]
        exact ⟨List.mem_cons_self, hsha⟩
      · exact ⟨List.mem_cons_of_mem _ (hmem edit hin).1, (hmem edit hin).2⟩

/-- What is collected against a source without binary files among the recorded ones can be
integrated into that source, with all its hashes checked. -/
theorem collected_integrates {p : StagedPair} {paths : List String} {edits : List FileEdit}
    (h : p.collectStagedEdits paths = .ok edits) (hnames : "" ∉ paths) (hdirect : p.Direct paths)
    (htree : IsTree p.staging p.stagingRoot)
    (hutf8 : ∀ path ∈ paths, ∀ raw, p.before path ≠ some (.binary raw))
    (hunblocked : (∀ path ∈ paths, p.Found (p.sourceAt path) (p.stagingAt path)) →
      ∀ path ∈ paths, p.after path ≠ none → p.source.parentBlocked (p.sourceAt path) = false) :
    ∃ files, p.source.integrateEdits p.sha256 (fun _ => false) p.sourceRoot edits = .ok files := by
  obtain ⟨files, happlied, -⟩ :=
    collectStagedEdits_applied h hnames hdirect htree hutf8 hunblocked true
  have hall : ∀ path, path ∈ sortedPaths (paths.filter (· ≠ "")) → path ∈ paths := by
    intro path hin
    rw [mem_sortedPaths] at hin
    exact (List.mem_filter.mp hin).1
  have hsorted : p.Direct (sortedPaths (paths.filter (· ≠ ""))) :=
    ⟨hdirect.sourceRoot, hdirect.stagingRoot, fun path hin => hdirect.source path (hall path hin),
      fun path hin => hdirect.staging path (hall path hin)⟩
  unfold StagedPair.collectStagedEdits at h
  simp only at h
  split at h
  · cases h
  · obtain ⟨rfl, hfound⟩ := collectPaths_ok hsorted h
    have hnodup : (sortedPaths (paths.filter (· ≠ ""))).Nodup :=
      (List.perm_insertionSort _ _).nodup_iff.mpr (List.nodup_dedup _)
    obtain ⟨hpaths, hsource⟩ := editsFor_nodup p hnodup
    have hchecked : p.source.precheckEdits p.sha256 p.sourceRoot true []
        (p.editsFor (sortedPaths (paths.filter (· ≠ "")))) = .ok () := by
      refine precheckEdits_ok hpaths (by simp) fun edit hedit => ?_
      obtain ⟨hin, hsha⟩ := hsource edit hedit
      exact precheckEdit_of_source
        (Files.boundaryResolve_of_resolve (hsorted.source _ hin) (List.prefix_append _ _))
        (hfound _ hin).source (hutf8 _ (hall _ hin)) hsha
    unfold Files.integrateEdits
    split
    · exact ⟨p.source, rfl⟩
    · rw [hchecked]
      exact ⟨files, happlied⟩

end EvoCI
