import EvoCI.CarryOver

/-! When undoing an attempt raises: which of the files that are put back are refused, in
terms of the tree the undo starts from. -/

namespace EvoCI

open Library

/-! ## Refusals -/

/-- A baseline as `snapshot_edit_baseline` takes it. -/
structure FileBaseline.WellMade (entry : FileBaseline) : Prop where
  stable : StableText entry.content
  mode : entry.content ≠ none → entry.mode ≠ none

namespace Files

/-- Restoring one entry is not refused: the path resolves inside the workspace, what stands
there is text or no regular file, and the one change that is due can be made. -/
def EntryOpen (files : Files) (denied : Loc → Bool) (root : Loc) (path : String)
    (entry : FileBaseline) : Prop :=
  ∃ target, files.boundaryResolve root path = .ok target ∧
    match entry.content with
    | none =>
      files.pathExists root target = true →
        (files.fileAt target).isSome ∧ files.isDir root target = false ∧ denied target = false
    | some content =>
      ∃ current, files.readTextOrNone target = .ok current ∧
        (current = some content →
          ∀ mode currentMode, entry.mode = some mode →
            (files.fileAt target).map Prod.snd = some currentMode → currentMode ≠ mode →
              denied target = false) ∧
        (current ≠ some content →
          files.parentBlocked target = false ∧ files.isDir root target = false ∧
            denied target = false)

theorem unlink_granted {files : Files} {denied : Loc → Bool} {root target : Loc} :
    (∃ files', files.unlink denied root target = .ok files') ↔
      files.isDir root target = false ∧ denied target = false := by
  unfold unlink
  cases files.isDir root target <;> cases denied target <;> simp

theorem writeFile_granted {files : Files} {denied : Loc → Bool} {root target : Loc}
    {path content : String} {mode : Option Nat}
    (htarget : files.boundaryResolve root path = .ok target) :
    (∃ files', files.writeFile denied root path content mode = .ok files') ↔
      files.parentBlocked target = false ∧ files.isDir root target = false ∧
        denied target = false := by
  simp only [writeFile, htarget]
  cases files.parentBlocked target <;> cases files.isDir root target <;>
    cases denied target <;> simp

/-- An entry is restored exactly when it is not refused. -/
theorem restoreEntry_open {files : Files} {denied : Loc → Bool} {root : Loc} {path : String}
    {entry : FileBaseline} :
    (∃ files', files.restoreEntry denied root path entry = .ok files') ↔
      files.EntryOpen denied root path entry := by
  unfold restoreEntry EntryOpen
  cases htarget : files.boundaryResolve root path with
  | error e => simp
  | ok target =>
    cases hcontent : entry.content with
    | none =>
      cases hexists : files.pathExists root target with
      | false => simp [hexists]
      | true =>
        cases hfile : (files.fileAt target).isSome with
        | false => simp [hexists, hfile]
        | true => simp [hexists, hfile, unlink_granted]
    | some content =>
      cases hread : files.readTextOrNone target with
      | error e => simp [hread]
      | ok current =>
        by_cases hsame : current = some content
        · subst hsame
          cases hmode : entry.mode with
          | none => simp [hread]
          | some mode =>
            cases hfile : files.fileAt target with
            | none => simp [hread, hfile]
            | some item =>
              obtain ⟨bytes, currentMode⟩ := item
              by_cases hequal : currentMode = mode
              · simp [hread, hfile, hequal]
              · cases hdenied : denied target <;> simp [hread, hfile, hequal, hdenied]
        · simp [hread, hsame, writeFile_granted htarget]

/-! ## What stands where while files are put back -/

/-- The text at a location once the entries of `done` are put back, the last one first. -/
def textThere (changed : Files) (done : List (Loc × FileBaseline)) (l : Loc) :
    Except PyError (Option String) :=
  match done.find? fun item => item.1 = l with
  | some item => .ok item.2.content
  | none => changed.readTextOrNone l

def modeThere (changed : Files) (done : List (Loc × FileBaseline)) (l : Loc) : Option Nat :=
  match done.find? fun item => item.1 = l with
  | some item => item.2.mode
  | none => (changed.fileAt l).map Prod.snd

/-- A file was written below `m`, where another text stood or none. -/
def WrittenBelow (changed : Files) : List (Loc × FileBaseline) → Loc → Prop
  | [], _ => False
  | (l, entry) :: done, m =>
    (entry.content ≠ none ∧ textThere changed done l ≠ .ok entry.content ∧ m <+: l ∧ m ≠ l) ∨
      WrittenBelow changed done m

/-- A directory stands there, or was made for a file below. -/
def DirThere (changed : Files) (root : Loc) (done : List (Loc × FileBaseline)) (l : Loc) : Prop :=
  l = root ∨ (∃ mode, changed l = some (.dir mode)) ∨ WrittenBelow changed done l

/-- An entry can be put back: nothing but a regular file is removed, a file is written where
no directory stands and no file above, and the system permits the change. -/
def Granted (denied : Loc → Bool) (root : Loc) (changed : Files)
    (done : List (Loc × FileBaseline)) (l : Loc) (entry : FileBaseline) : Prop :=
  match entry.content with
  | none =>
    ¬ DirThere changed root done l ∧ (textThere changed done l ≠ .ok none → denied l = false)
  | some content =>
    (textThere changed done l = .ok (some content) → modeThere changed done l ≠ entry.mode →
      denied l = false) ∧
    (textThere changed done l ≠ .ok (some content) → ¬ DirThere changed root done l ∧
      (∀ m, m <+: l → m ≠ l → textThere changed done m = .ok none) ∧ denied l = false)

/-- Every entry can be put back when its turn comes. -/
def AllGranted (denied : Loc → Bool) (root : Loc) (changed : Files) :
    List (Loc × FileBaseline) → List (Loc × FileBaseline) → Prop
  | _, [] => True
  | done, (l, entry) :: due =>
    Granted denied root changed done l entry ∧
      AllGranted denied root changed ((l, entry) :: done) due

/-- The files to put back, with what each goes back to: those of the written paths that read
as they were written. -/
def dueBack (changed : Files) (root : Loc) (baseline : Baseline) (written : Written) :
    List (Loc × FileBaseline) :=
  written.filterMap fun item =>
    (changed.boundaryResolve root item.1).toOption.bind fun l =>
      if (changed.readTextOrNone l).toOption = some item.2 then
        some (l, baselineEntry baseline item.1)
      else none

@[simp] theorem textThere_self (changed : Files) (done : List (Loc × FileBaseline)) (l : Loc)
    (entry : FileBaseline) : textThere changed ((l, entry) :: done) l = .ok entry.content := by
  simp [textThere]

theorem textThere_of_ne (changed : Files) (done : List (Loc × FileBaseline)) {l m : Loc}
    (entry : FileBaseline) (h : m ≠ l) :
    textThere changed ((l, entry) :: done) m = textThere changed done m := by
  simp [textThere, h.symm]

@[simp] theorem modeThere_self (changed : Files) (done : List (Loc × FileBaseline)) (l : Loc)
    (entry : FileBaseline) : modeThere changed ((l, entry) :: done) l = entry.mode := by
  simp [modeThere]

theorem modeThere_of_ne (changed : Files) (done : List (Loc × FileBaseline)) {l m : Loc}
    (entry : FileBaseline) (h : m ≠ l) :
    modeThere changed ((l, entry) :: done) m = modeThere changed done m := by
  simp [modeThere, h.symm]

theorem dirThere_cons (changed : Files) (root : Loc) (done : List (Loc × FileBaseline)) (l : Loc)
    (entry : FileBaseline) (m : Loc) : DirThere changed root ((l, entry) :: done) m ↔
      (entry.content ≠ none ∧ textThere changed done l ≠ .ok entry.content ∧ m <+: l ∧ m ≠ l) ∨
        DirThere changed root done m := by
  unfold DirThere
  rw [WrittenBelow]
  constructor
  · rintro (htop | hdir | hnew | hbelow)
    · exact .inr (.inl htop)
    · exact .inr (.inr (.inl hdir))
    · exact .inl hnew
    · exact .inr (.inr (.inr hbelow))
  · rintro (hnew | htop | hdir | hbelow)
    · exact .inr (.inr (.inl hnew))
    · exact .inl htop
    · exact .inr (.inl hdir)
    · exact .inr (.inr (.inr hbelow))

/-- The tree in which the entries of `done` were put back. -/
structure StandsAs (root : Loc) (changed : Files) (done : List (Loc × FileBaseline))
    (files : Files) : Prop where
  links : files.linkAt = changed.linkAt
  text : ∀ l, files.readTextOrNone l = textThere changed done l
  mode : ∀ l, files.fileAt l ≠ none →
    (files.fileAt l).map Prod.snd = modeThere changed done l
  dir : ∀ l, root <+: l → Unlinked changed.linkAt root l →
    (files.isDir root l = true ↔ DirThere changed root done l)

theorem StandsAs.start (root : Loc) (changed : Files) : StandsAs root changed [] changed := by
  refine ⟨rfl, fun _ => rfl, fun _ _ => rfl, fun l _ _ => ?_⟩
  simp only [DirThere, WrittenBelow, or_false, isDir]
  split
  next mode hdir => simp [hdir]
  next hnot =>
    simp only [decide_eq_true_eq]
    exact ⟨.inl, fun h => h.elim id fun ⟨mode, hdir⟩ => absurd hdir (hnot mode)⟩

theorem fileAt_eq_none_iff {files : Files} {l : Loc} :
    files.fileAt l = none ↔ files.readTextOrNone l = .ok none := by
  rw [readTextOrNone_eq_none, contentAt, Option.map_eq_none_iff]

section Step

variable {denied : Loc → Bool} {root : Loc} {changed files files' : Files}
  {done : List (Loc × FileBaseline)} {path : String} {entry : FileBaseline} {l : Loc}

/-- At the end of a path that was resolved stands nothing, a directory or a regular file. -/
theorem pathExists_iff (hlink : l ≠ root → files.linkAt l = none) :
    files.pathExists root l = true ↔ files.isDir root l = true ∨ files.fileAt l ≠ none := by
  by_cases hroot : l = root
  · rw [hroot]
    simp [pathExists, isDir_root]
  · have hlink := hlink hroot
    cases hentry : files l with
    | none => simp [pathExists, isDir, fileAt, hentry, hroot]
    | some found =>
      cases found with
      | file content mode => simp [pathExists, fileAt, hentry]
      | dir mode => simp [pathExists, isDir, hentry]
      | link target => simp [linkAt, hentry] at hlink

/-- A mode that is to be put back differs from the one that is there. -/
theorem StandsAs.mode_iff (h : StandsAs root changed done files) (hfile : files.fileAt l ≠ none)
    {mode : Nat} (hmode : entry.mode = some mode) :
    (∀ mode currentMode, entry.mode = some mode →
      (files.fileAt l).map Prod.snd = some currentMode → currentMode ≠ mode → denied l = false) ↔
      (modeThere changed done l ≠ entry.mode → denied l = false) := by
  obtain ⟨item, hitem⟩ := Option.ne_none_iff_exists'.mp hfile
  rw [← h.mode l hfile, hitem, hmode, Option.map_some]
  constructor
  · exact fun hall hne => hall mode item.2 rfl rfl fun heq => hne (congrArg some heq)
  · rintro hdenied mode' current heq hcurrent hne
    cases heq
    cases hcurrent
    exact hdenied fun heq => hne (Option.some.inj heq)

/-- Whether an entry can be put back shows in what stands where. -/
theorem StandsAs.entryOpen_iff (h : StandsAs root changed done files)
    (hl : changed.boundaryResolve root path = .ok l) (hmade : entry.WellMade)
    (hread : ∃ text, textThere changed done l = .ok text) :
    files.EntryOpen denied root path entry ↔ Granted denied root changed done l entry := by
  have hat : files.boundaryResolve root path = .ok l := by rw [boundaryResolve_congr h.links, hl]
  obtain ⟨hresolve, hroot⟩ := boundaryResolve_ok hl
  have htext := h.text l
  have hdir := h.dir l hroot (unlinked_of_resolve hresolve)
  have hfile : files.fileAt l ≠ none ↔ textThere changed done l ≠ .ok none := by
    rw [ne_eq, fileAt_eq_none_iff, htext]
  have hnotDir : files.isDir root l = false ↔ ¬ DirThere changed root done l := by
    rw [← Bool.not_eq_true, hdir]
  have hopen : ∀ p : Loc → Prop,
      (∃ target, files.boundaryResolve root path = .ok target ∧ p target) ↔ p l := by
    simp [hat]
  unfold EntryOpen Granted
  rw [hopen]
  cases hcontent : entry.content with
  | none =>
    have hexists : files.pathExists root l = true ↔
        DirThere changed root done l ∨ textThere changed done l ≠ .ok none := by
      rw [pathExists_iff fun hne => h.links ▸ linkAt_of_resolve hresolve hroot hne, hdir, hfile]
    simp only [hexists, Option.isSome_iff_ne_none, hfile, hnotDir]
    constructor
    · exact fun hall => ⟨fun hthere => (hall (.inl hthere)).2.1 hthere,
        fun hthere => (hall (.inr hthere)).2.2⟩
    · rintro ⟨hnot, hdenied⟩ hthere
      have hstands := hthere.resolve_left hnot
      exact ⟨hstands, hnot, hdenied hstands⟩
  | some content =>
    obtain ⟨current, hcurrent⟩ := hread
    have hblocked : files.parentBlocked l = false ↔
        ∀ m, m <+: l → m ≠ l → textThere changed done m = .ok none := by
      rw [parentBlocked_eq_false]
      simp only [← h.text, fileAt_eq_none_iff]
    obtain ⟨mode, hmode⟩ := Option.ne_none_iff_exists'.mp (hmade.mode (by simp [hcontent]))
    simp only [htext, hcurrent, ne_eq, Except.ok.injEq, exists_eq_left', hblocked, hnotDir]
    refine and_congr ⟨fun hsame heq => ?_, fun hsame heq => ?_⟩
      (imp_congr_right fun _ => and_left_comm)
    all_goals
      have hthere : files.fileAt l ≠ none := hfile.mpr (by rw [hcurrent, heq]; simp)
    · exact (h.mode_iff hthere hmode).mp (hsame heq)
    · exact (h.mode_iff hthere hmode).mpr (hsame heq)

/-- An entry is put back by removing its file, by giving it its mode or by writing it, unless
nothing is due. -/
theorem restoreEntry_cases (hl : files.boundaryResolve root path = .ok l)
    (h : files.restoreEntry denied root path entry = .ok files') :
    (entry.content = none ∨ files.readTextOrNone l = .ok entry.content) ∧
        (files' = files ∨ files' = files.remove l ∨
          ∃ content mode, files' = files.put l (.file content mode)) ∨
      entry.content ≠ none ∧ files.readTextOrNone l ≠ .ok entry.content ∧
        files.parentBlocked l = false ∧
          ∃ content mode, files' = (files.mkdirParents l).put l (.file content mode) := by
  unfold restoreEntry at h
  rw [hl] at h
  simp only at h
  cases hcontent : entry.content with
  | none =>
    left
    rw [hcontent] at h
    simp only at h
    split at h
    · split at h
      · unfold unlink at h
        split at h
        · cases h
        · split at h
          · cases h
          · exact ⟨.inl rfl, .inr (.inl (Except.ok.inj h).symm)⟩
      · cases h
    · exact ⟨.inl rfl, .inl (Except.ok.inj h).symm⟩
  | some content =>
    rw [hcontent] at h
    simp only at h
    split at h
    · cases h
    next current hcurrent =>
      split at h
      next hsame =>
        left
        refine ⟨.inr (by rw [hcurrent, hsame]), ?_⟩
        split at h
        · split at h
          · exact .inl (Except.ok.inj h).symm
          · split at h
            · cases h
            · exact .inr (.inr ⟨_, _, (Except.ok.inj h).symm⟩)
        · exact .inl (Except.ok.inj h).symm
      next hne =>
        right
        refine ⟨by simp, fun hsame => hne (Except.ok.inj (hcurrent.symm.trans hsame)), ?_⟩
        unfold writeFile at h
        rw [hl] at h
        simp only at h
        split at h
        · cases h
        next hopen =>
          split at h
          · cases h
          · split at h
            · cases h
            · exact ⟨by simpa using hopen, _, _, (Except.ok.inj h).symm⟩

/-- What putting an entry back does to the other locations. -/
theorem restoreEntry_made (hl : files.boundaryResolve root path = .ok l)
    (h : files.restoreEntry denied root path entry = .ok files') :
    (entry.content = none ∨ files.readTextOrNone l = .ok entry.content) ∧
        (∀ m, m ≠ l → files' m = files m) ∨
      entry.content ≠ none ∧ files.readTextOrNone l ≠ .ok entry.content ∧
        files.parentBlocked l = false ∧ ∀ m, m ≠ l → files' m = files.mkdirParents l m := by
  rcases restoreEntry_cases hl h with ⟨hdue, hmade⟩ | ⟨hcontent, hne, hopen, content, mode, rfl⟩
  · refine .inl ⟨hdue, fun m hm => ?_⟩
    rcases hmade with rfl | rfl | ⟨content, mode, rfl⟩
    · rfl
    · exact remove_of_ne files hm
    · exact put_of_ne files _ hm
  · exact .inr ⟨hcontent, hne, hopen, fun m hm => put_of_ne _ _ hm⟩

/-- No directory stands where an entry was put back, before or after. -/
theorem restoreEntry_noDir (hl : files.boundaryResolve root path = .ok l) (hne : l ≠ root)
    (h : files.restoreEntry denied root path entry = .ok files') :
    files.isDir root l = false ∧ files'.isDir root l = false := by
  obtain ⟨target, htarget, hopen⟩ := restoreEntry_open.1 ⟨files', h⟩
  rw [hl] at htarget
  cases htarget
  have hbefore : files.isDir root l = false := by
    cases hcontent : entry.content with
    | none =>
      rw [hcontent] at hopen
      cases hexists : files.pathExists root l with
      | true => exact (hopen hexists).2.1
      | false =>
        simp only [pathExists, Bool.or_eq_false_iff, Option.isSome_eq_false_iff,
          Option.isNone_iff_eq_none] at hexists
        simp [isDir, hexists.1, hne]
    | some content =>
      rw [hcontent] at hopen
      obtain ⟨current, hcurrent, -, hwrite⟩ := hopen
      by_cases hsame : current = some content
      · have hfile : files.fileAt l ≠ none := by
          rw [ne_eq, fileAt_eq_none_iff, hcurrent, hsame]
          simp
        unfold fileAt at hfile
        split at hfile
        next hentry => simp [isDir, hentry, hne]
        · exact absurd rfl hfile
      · exact (hwrite hsame).2.1
  refine ⟨hbefore, ?_⟩
  rcases restoreEntry_cases hl h with ⟨-, rfl | rfl | ⟨content, mode, rfl⟩⟩ |
    ⟨-, -, -, content, mode, rfl⟩
  · exact hbefore
  · simp [isDir, remove, hne]
  · simp [isDir, put, hne]
  · simp [isDir, put, hne]

/-- Putting one more entry back. -/
theorem StandsAs.step (h : StandsAs root changed done files)
    (hl : changed.boundaryResolve root path = .ok l) (hmade : entry.WellMade)
    (hrestore : files.restoreEntry denied root path entry = .ok files') :
    StandsAs root changed ((l, entry) :: done) files' := by
  have hat : files.boundaryResolve root path = .ok l := by rw [boundaryResolve_congr h.links, hl]
  obtain ⟨target, htarget, htouch, hback⟩ := restoreEntry_ok hrestore
  rw [hat] at htarget
  cases htarget
  refine ⟨htouch.links.trans h.links, fun m => ?_, fun m hfile => ?_, fun m hroot hunlinked => ?_⟩
  · by_cases hm : m = l
    · subst hm
      rw [textThere_self]
      exact hback.reads hmade.stable
    · rw [textThere_of_ne _ _ _ hm, htouch.readTextOrNone_eq hm, h.text]
  · by_cases hm : m = l
    · subst hm
      have hcontent : entry.content ≠ none := by
        intro hnone
        have hreads := hback.reads hmade.stable
        rw [hnone, ← fileAt_eq_none_iff] at hreads
        exact hfile hreads
      obtain ⟨mode, hmode⟩ := Option.ne_none_iff_exists'.mp (hmade.mode hcontent)
      rw [modeThere_self, hmode]
      exact hback.mode mode hmode hcontent
    · rw [modeThere_of_ne _ _ _ hm, htouch.fileAt_eq hm, h.mode m]
      rwa [← htouch.fileAt_eq hm]
  · have hdir := h.dir m hroot hunlinked
    rw [dirThere_cons]
    by_cases htop : m = root
    · rw [htop, isDir_root]
      exact ⟨fun _ => .inr (.inl rfl), fun _ => rfl⟩
    by_cases hm : m = l
    · subst hm
      obtain ⟨hbefore, hafter⟩ := restoreEntry_noDir hat htop hrestore
      rw [← hdir]
      simp [hbefore, hafter]
    · rcases restoreEntry_made hat hrestore with ⟨hkept, hsame⟩ | ⟨hsome, hne, hopen, hmkdir⟩
      · have hnot : ¬ (entry.content ≠ none ∧ textThere changed done l ≠ .ok entry.content ∧
            m <+: l ∧ m ≠ l) := by
          rintro ⟨hsome, hne, -⟩
          rw [← h.text] at hne
          exact hkept.elim hsome hne
        simp only [hnot, false_or, ← hdir, isDir, hsame m hm]
      · rw [h.text] at hne
        by_cases hbelow : m <+: l
        · -- every directory above a written file is made
          have hfile : files.fileAt m = none := parentBlocked_eq_false.mp hopen m hbelow hm
          have hlink : files.linkAt m = none := by
            rw [h.links]
            exact hunlinked m hroot htop List.prefix_rfl
          have hnow : files'.isDir root m = true := by
            unfold isDir
            rw [hmkdir m hm]
            cases hentry : files m with
            | none => simp [mkdirParents, hbelow, hm, hentry]
            | some found =>
              cases found with
              | file content mode => simp [fileAt, hentry] at hfile
              | dir mode => simp [mkdirParents, hentry]
              | link target => simp [linkAt, hentry] at hlink
          simp [hnow, hsome, hne, hbelow, hm]
        · have hkept : files.mkdirParents l m = files m := by simp [mkdirParents, hbelow]
          simp only [hbelow, false_and, and_false, false_or, ← hdir, isDir, hmkdir m hm, hkept]

end Step

/-- The entries of a baseline with the locations of their paths. -/
def located (changed : Files) (root : Loc) (items : Baseline) : List (Loc × FileBaseline) :=
  items.filterMap fun item =>
    (changed.boundaryResolve root item.1).toOption.map fun l => (l, item.2)

/-- Putting the entries back does not raise exactly when each is granted in its turn. -/
theorem StandsAs.restoreEditBaseline_iff {denied : Loc → Bool} {root : Loc}
    {changed files : Files} {done : List (Loc × FileBaseline)} {items : Baseline}
    (h : StandsAs root changed done files)
    (hitems : ∀ item ∈ items, item.2.WellMade ∧ ∃ l, changed.boundaryResolve root item.1 = .ok l ∧
      ∃ text, changed.readTextOrNone l = .ok text) :
    (files.restoreEditBaseline denied root items).2 = none ↔
      AllGranted denied root changed done (located changed root items) := by
  induction items generalizing done files with
  | nil => simp [restoreEditBaseline, located, AllGranted]
  | cons item items ih =>
    obtain ⟨path, entry⟩ := item
    obtain ⟨hmade, l, hl, text, hread⟩ := hitems (path, entry) List.mem_cons_self
    have hrest := fun item hitem => hitems item (List.mem_cons_of_mem _ hitem)
    have hlocated : located changed root ((path, entry) :: items) =
        (l, entry) :: located changed root items := by
      have hsome : (changed.boundaryResolve root path).toOption = some l := by rw [hl]; rfl
      simp [located, hsome]
    have hthere : ∃ text, textThere changed done l = .ok text := by
      unfold textThere
      split
      · exact ⟨_, rfl⟩
      · exact ⟨text, hread⟩
    rw [hlocated]
    unfold restoreEditBaseline AllGranted
    rw [← h.entryOpen_iff hl hmade hthere, ← restoreEntry_open]
    cases hentry : files.restoreEntry denied root path entry with
    | error e => simp
    | ok files' => simpa using ih (h.step hl hmade hentry) hrest

/-- Every written path resolves inside the workspace, and what stands there is text or no
regular file. -/
def WritesReadable (files : Files) (root : Loc) (paths : List String) : Prop :=
  ∀ path ∈ paths, ∃ target, files.boundaryResolve root path = .ok target ∧
    ∀ raw, files.contentAt target ≠ some (.binary raw)

theorem readTextOrNone_isOk {files : Files} {target : Loc} :
    (∃ current, files.readTextOrNone target = .ok current) ↔
      ∀ raw, files.contentAt target ≠ some (.binary raw) := by
  rw [readTextOrNone_eq]
  cases files.contentAt target with
  | none => simp
  | some content =>
    cases content with
    | utf8 text => simp [Content.readText, Except.map]
    | binary raw => simp [Content.readText, Except.map]

theorem eligibleWrites_isOk {files : Files} {root : Loc} {baseline : Baseline}
    {written : Written} :
    (∃ eligible, files.eligibleWrites root baseline written = .ok eligible) ↔
      files.WritesReadable root (Dict.keys written) := by
  induction written with
  | nil => simp [eligibleWrites, WritesReadable, Dict.keys]
  | cons item written ih =>
    obtain ⟨path, applied⟩ := item
    have hkeys : Dict.keys ((path, applied) :: written) = path :: Dict.keys written := rfl
    have hsplit : files.WritesReadable root (path :: Dict.keys written) ↔
        (∃ target, files.boundaryResolve root path = .ok target ∧
          ∃ current, files.readTextOrNone target = .ok current) ∧
        files.WritesReadable root (Dict.keys written) := by
      simp [WritesReadable, readTextOrNone_isOk]
    rw [hkeys, hsplit]
    unfold eligibleWrites
    rw [← ih]
    cases htarget : files.boundaryResolve root path with
    | error e => simp
    | ok target =>
      cases hread : files.readTextOrNone target with
      | error e => simp [hread]
      | ok current =>
        cases hrest : files.eligibleWrites root baseline written with
        | error e => simp [hread]
        | ok eligible =>
          by_cases hsame : current = applied <;> simp [hread, hsame]

theorem eligibleWrites_located {files : Files} {root : Loc} {baseline eligible : Baseline}
    {written : Written} (h : files.eligibleWrites root baseline written = .ok eligible) :
    located files root eligible = dueBack files root baseline written := by
  induction written generalizing eligible with
  | nil =>
    cases h
    rfl
  | cons item written ih =>
    obtain ⟨path, applied⟩ := item
    unfold eligibleWrites at h
    split at h
    · cases h
    next target htarget =>
      split at h
      · cases h
      next current hcurrent =>
        split at h
        · cases h
        next rest hrest =>
          have hat : (files.boundaryResolve root path).toOption = some target := by
            rw [htarget]
            rfl
          have hreads : (files.readTextOrNone target).toOption = some current := by
            rw [hcurrent]
            rfl
          have hih := ih hrest
          unfold located dueBack at hih
          unfold located dueBack
          split at h
          next heq =>
            cases h
            simp [hat, hreads, heq, hih]
          next hne =>
            cases h
            simp [hat, hreads, hne, hih]

/-- The undo does not raise exactly when every written path can be read, and everything that
is due can be put back. -/
theorem restoreAttemptWrites_open {files : Files} {denied : Loc → Bool} {root : Loc}
    {baseline : Baseline} {written : Written}
    (hmade : ∀ path, (baselineEntry baseline path).WellMade) :
    (files.restoreAttemptWrites denied root baseline written).2 = none ↔
      files.WritesReadable root (Dict.keys written) ∧
        AllGranted denied root files [] (dueBack files root baseline written) := by
  rw [← @eligibleWrites_isOk files root baseline]
  unfold restoreAttemptWrites
  cases heligible : files.eligibleWrites root baseline written with
  | error e => simp
  | ok eligible =>
    have hitems : ∀ item ∈ eligible, item.2.WellMade ∧ ∃ l,
        files.boundaryResolve root item.1 = .ok l ∧ ∃ text, files.readTextOrNone l = .ok text := by
      rintro ⟨path, entry⟩ hitem
      obtain ⟨applied, l, -, hl, hread, rfl⟩ :=
        ((eligibleWrites_ok heligible).1 path entry).mp hitem
      exact ⟨hmade path, l, hl, applied, hread⟩
    simp only [(StandsAs.start root files).restoreEditBaseline_iff hitems,
      eligibleWrites_located heligible, Except.ok.injEq, exists_eq', true_and]

/-! ## Directories -/

/-- Restoring keeps directories. -/
theorem restoreEntry_dir {files files' : Files} {denied : Loc → Bool} {root : Loc}
    {path : String} {entry : FileBaseline} {l : Loc} {mode : Nat}
    (h : files.restoreEntry denied root path entry = .ok files')
    (hdir : files l = some (.dir mode)) : files' l = some (.dir mode) := by
  obtain ⟨target, htarget, htouch, -⟩ := restoreEntry_ok h
  by_cases hl : l = target
  · -- a directory where a file is restored refuses it
    subst hl
    have hfile : files.fileAt l = none := by simp [fileAt, hdir]
    have hisDir : files.isDir root l = true := by simp [isDir, hdir]
    have hexists : files.pathExists root l = true := by simp [pathExists, hdir]
    obtain ⟨there, hthere, hopen⟩ := restoreEntry_open.1 ⟨files', h⟩
    rw [htarget] at hthere
    cases hthere
    cases hcontent : entry.content with
    | none =>
      rw [hcontent] at hopen
      have hsome := (hopen hexists).1
      rw [hfile] at hsome
      cases hsome
    | some content =>
      rw [hcontent] at hopen
      obtain ⟨current, hread, -, hwrite⟩ := hopen
      rw [readTextOrNone_of_none hfile] at hread
      cases hread
      have hnot := (hwrite (by simp)).2.1
      rw [hisDir] at hnot
      cases hnot
  · rcases htouch.frame l hl with hsame | ⟨hnone, -⟩
    · rw [hsame, hdir]
    · rw [hdir] at hnone
      cases hnone

theorem restoreEditBaseline_dir {denied : Loc → Bool} {root : Loc} {items : Baseline}
    {files : Files} {l : Loc} {mode : Nat} (hdir : files l = some (.dir mode)) :
    (files.restoreEditBaseline denied root items).1 l = some (.dir mode) := by
  induction items generalizing files with
  | nil => exact hdir
  | cons item items ih =>
    obtain ⟨path, entry⟩ := item
    unfold restoreEditBaseline
    split
    · exact hdir
    next files' hfiles => exact ih (restoreEntry_dir hfiles hdir)

end Files

end EvoCI
