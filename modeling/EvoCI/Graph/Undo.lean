import EvoCI.Restoring
import EvoCI.Graph.Rollback

/-! Undoing an attempt in a tree that others have changed since: which files come back to
what they were, which are left alone, and which refuse the whole undo. -/

namespace EvoCI

open Library

/-! ## What the undo is for -/

/-- The tree after the undo. -/
def undone (denied : Loc → Bool) (root : Loc) (baseline : Baseline) (written : Written)
    (changed : Files) : Files :=
  (changed.restoreAttemptWrites denied root baseline written).1

/-- A file that the attempt wrote and nobody else has changed since. -/
def OwnFile (left changed : Files) (root : Loc) (written : Written) (l : Loc) : Prop :=
  left.PathsAt root (Dict.keys written) l ∧ changed l = left l

/-- Every file of the attempt's own is what it was in `tree`, everything else is as others left
it (directories may appear), nothing stops the undo, and a second one changes nothing. -/
structure UndoesAttempt (denied : Loc → Bool) (root : Loc) (baseline : Baseline)
    (written : Written) (tree left changed : Files) : Prop where
  completes : (changed.restoreAttemptWrites denied root baseline written).2 = none
  restored : ∀ l, OwnFile left changed root written l →
    (undone denied root baseline written changed).fileAt l = tree.fileAt l
  untouched : ∀ l, ¬ OwnFile left changed root written l →
    undone denied root baseline written changed l = changed l ∨
      changed l = none ∧ ∃ mode, undone denied root baseline written changed l = some (.dir mode)
  again : ∀ denied', undone denied' root baseline written
    (undone denied root baseline written changed) = undone denied root baseline written changed

/-- The file at `l` has the text and the mode that the file of the path had in `tree`. -/
def AsOriginal (root : Loc) (tree : Files) (path : String) (files : Files) (l : Loc) : Prop :=
  files.readTextOrNone l = tree.fileText root path ∧
    (files.fileAt l).map Prod.snd = (tree.fileOf root path).map Prod.snd

/-- A file of the attempt's own is brought back: no written path leads to it any more and its
file never changed, or one does that still reads as written, its original is the file's own,
and the bytes are still those of `tree`, or read differently from what was there, which holds
no carriage return. -/
def Recoverable (root : Loc) (written : Written) (tree changed : Files) (l : Loc) : Prop :=
  ((¬ ∃ path, changed.StillWritten root written path l) ∧ changed.fileAt l = tree.fileAt l) ∨
    ∃ path, changed.StillWritten root written path l ∧ AsOriginal root tree path tree l ∧
      (changed.contentAt l = tree.contentAt l ∨
        changed.readTextOrNone l ≠ tree.readTextOrNone l ∧
          ∀ text, tree.contentAt l = some (.utf8 text) → Stable text)

/-- Any other file is not taken for the attempt's own, or is already what the undo would make
of it. -/
def NotMistaken (root : Loc) (written : Written) (tree changed : Files) (l : Loc) : Prop :=
  (¬ ∃ path, changed.StillWritten root written path l) ∨
    ∃ path, changed.StillWritten root written path l ∧ AsOriginal root tree path changed l

/-- What an exact undo takes. -/
structure Undoable (denied : Loc → Bool) (root : Loc) (baseline : Baseline) (written : Written)
    (tree left changed : Files) : Prop where
  readable : changed.WritesReadable root (Dict.keys written)
  granted : Files.AllGranted denied root changed [] (changed.dueBack root baseline written)
  own : ∀ l, OwnFile left changed root written l → Recoverable root written tree changed l
  others : ∀ l, ¬ OwnFile left changed root written l → NotMistaken root written tree changed l

/-- No two written paths with different originals lead to one file that still reads as
written. -/
def OneOriginal (root : Loc) (written : Written) (tree changed : Files) : Prop :=
  ∀ path l, changed.StillWritten root written path l → ∀ other ∈ Dict.keys written,
    changed.boundaryResolve root other = .ok l →
      tree.fileText root other = tree.fileText root path ∧
        (tree.fileOf root other).map Prod.snd = (tree.fileOf root path).map Prod.snd

section

variable {denied : Loc → Bool} {root : Loc} {baseline : Baseline} {written : Written}
  {tree left changed : Files} {edits : List FileEdit}

/-- Only links that others made or turned can bring two originals together. -/
theorem oneOriginal_of_links (h : changed.linkAt = tree.linkAt) :
    OneOriginal root written tree changed := by
  rintro path l ⟨_, -, hl, -⟩ other - hother
  rw [Files.boundaryResolve_congr h] at hl hother
  simp only [Files.fileText_of_boundary hl, Files.fileText_of_boundary hother,
    Files.fileOf_of_boundary hl, Files.fileOf_of_boundary hother, and_self]

/-- The baseline of a written path is text and mode of its file in `tree`. -/
theorem baseline_of (hbase : tree.snapshotEditBaseline root [] edits = .ok baseline)
    (hkeys : Dict.keys written ⊆ edits.map FileEdit.path) {path : String}
    (hpath : path ∈ Dict.keys written) :
    tree.fileText root path = .ok (baselineEntry baseline path).content ∧
      (tree.fileOf root path).map Prod.snd = (baselineEntry baseline path).mode := by
  rcases Files.baselineEntry_fresh hbase path with hmade | ⟨hnot, -⟩
  · exact Files.fileBaseline_ok hmade
  · exact absurd (hkeys hpath) hnot

theorem baseline_wellMade (hbase : tree.snapshotEditBaseline root [] edits = .ok baseline)
    (path : String) : (baselineEntry baseline path).WellMade := by
  refine ⟨baseline_stable hbase path, fun hcontent hmode => ?_⟩
  rcases Files.baselineEntry_fresh hbase path with hmade | ⟨-, hnone⟩
  · obtain ⟨htext, hfile⟩ := Files.fileBaseline_ok hmade
    rw [hmode, Option.map_eq_none_iff] at hfile
    have hnone : tree.contentOf root path = none := by
      rw [Files.contentOf_eq_fileOf, hfile]
      rfl
    rw [Files.fileText_eq, hnone] at htext
    exact hcontent (Except.ok.inj htext).symm
  · rw [hnone] at hcontent
    exact hcontent rfl

theorem coherent_of_oneOriginal (hbase : tree.snapshotEditBaseline root [] edits = .ok baseline)
    (hkeys : Dict.keys written ⊆ edits.map FileEdit.path)
    (hone : OneOriginal root written tree changed) : changed.CoherentDue root baseline written := by
  intro path l hstill other hother hl
  obtain ⟨hsameText, hsameMode⟩ := hone path l hstill other hother hl
  obtain ⟨_, hwritten, -, -⟩ := hstill
  obtain ⟨htext, hmode⟩ := baseline_of hbase hkeys (Dict.fst_mem_keys hwritten)
  obtain ⟨htext', hmode'⟩ := baseline_of hbase hkeys hother
  rw [hsameText, htext] at htext'
  rw [hsameMode, hmode] at hmode'
  cases hfirst : baselineEntry baseline path
  cases hsecond : baselineEntry baseline other
  rw [hfirst, hsecond] at htext' hmode'
  cases htext'
  cases hmode'
  rfl

/-- The undo changes regular files only, and may create directories. -/
theorem undone_same {l : Loc}
    (hfile : (undone denied root baseline written changed).fileAt l = changed.fileAt l) :
    undone denied root baseline written changed l = changed l ∨
      changed l = none ∧ ∃ mode, undone denied root baseline written changed l =
        some (.dir mode) := by
  have hlink : (undone denied root baseline written changed).linkAt l = changed.linkAt l := by
    have htouch := Files.restoreAttemptWrites_frame changed denied root baseline written
    exact congrFun htouch.links l
  cases hentry : changed l with
  | none =>
    cases hnow : undone denied root baseline written changed l with
    | none => exact .inl rfl
    | some entry =>
      cases entry with
      | file content mode => simp [Files.fileAt, hentry, hnow] at hfile
      | dir mode => exact .inr ⟨rfl, mode, rfl⟩
      | link target => simp [Files.linkAt, hentry, hnow] at hlink
  | some entry =>
    refine .inl ?_
    cases entry with
    | file content mode =>
      cases hnow : undone denied root baseline written changed l with
      | none => simp [Files.fileAt, hentry, hnow] at hfile
      | some now => cases now <;> simp_all [Files.fileAt]
    | dir mode =>
      unfold undone Files.restoreAttemptWrites
      split
      · exact hentry
      · exact Files.restoreEditBaseline_dir hentry
    | link target =>
      cases hnow : undone denied root baseline written changed l with
      | none => simp [Files.linkAt, hentry, hnow] at hlink
      | some now => cases now <;> simp_all [Files.linkAt]

/-- Bytes and mode make a file. -/
theorem fileAt_ext {files files' : Files} {l : Loc}
    (hcontent : files.contentAt l = files'.contentAt l)
    (hmode : files'.contentAt l ≠ none →
      (files.fileAt l).map Prod.snd = (files'.fileAt l).map Prod.snd) :
    files.fileAt l = files'.fileAt l := by
  unfold Files.contentAt at hcontent hmode
  cases hone : files.fileAt l with
  | none =>
    rw [hone] at hcontent
    cases htwo : files'.fileAt l with
    | none => rfl
    | some item => simp [htwo] at hcontent
  | some item =>
    rw [hone] at hcontent hmode
    cases htwo : files'.fileAt l with
    | none => simp [htwo] at hcontent
    | some item' =>
      rw [htwo] at hcontent hmode
      have hbytes := Option.some.inj hcontent
      have hmodes := Option.some.inj (hmode (by simp))
      exact congrArg some (Prod.ext hbytes hmodes)

theorem readTextOrNone_congr {files files' : Files} {l : Loc}
    (hcontent : files.contentAt l = files'.contentAt l) :
    files.readTextOrNone l = files'.readTextOrNone l := by
  rw [Files.readTextOrNone_eq, Files.readTextOrNone_eq, hcontent]

/-- What stands there when the text is the baseline's and has no carriage return. -/
theorem contentAt_of_stable {files : Files} {l : Loc} {text : Option String}
    (hread : files.readTextOrNone l = .ok text)
    (hstable : ∀ t, files.contentAt l = some (.utf8 t) → Stable t) :
    files.contentAt l = text.map .utf8 := by
  rw [Files.readTextOrNone_eq] at hread
  cases hcontent : files.contentAt l with
  | none =>
    rw [hcontent] at hread
    cases hread
    rfl
  | some content =>
    rw [hcontent] at hread
    cases content with
    | binary raw => simp [Content.readText, Except.map] at hread
    | utf8 t =>
      simp only [readText_stable (hstable t hcontent), Except.map] at hread
      cases hread
      rfl

/-- A restored file, with what the baseline of its path says of `tree`. -/
structure RestoredFrom (root : Loc) (tree changed files : Files) (path : String) (l : Loc) :
    Prop where
  kept : changed.readTextOrNone l = tree.fileText root path →
    files.contentAt l = changed.contentAt l
  replaced : changed.readTextOrNone l ≠ tree.fileText root path →
    ∃ text, StableText text ∧ tree.fileText root path = .ok text ∧
      files.contentAt l = text.map .utf8
  mode : tree.fileOf root path ≠ none →
    (files.fileAt l).map Prod.snd = (tree.fileOf root path).map Prod.snd

/-- A path without a file in `tree` has no text there. -/
theorem fileText_of_noFile {path : String} (hbase : ∃ text, tree.fileText root path = .ok text) :
    tree.fileOf root path = none ↔ tree.fileText root path = .ok none := by
  obtain ⟨text, htext⟩ := hbase
  rw [Files.fileText_eq] at htext ⊢
  rw [Files.contentOf_eq_fileOf] at htext ⊢
  cases hfile : tree.fileOf root path with
  | none => simp
  | some item =>
    obtain ⟨content, mode⟩ := item
    cases content with
    | utf8 text => simp [Content.readText, Except.map]
    | binary raw => simp [Content.readText, Except.map]

theorem restoredFrom (hbase : tree.snapshotEditBaseline root [] edits = .ok baseline)
    (hkeys : Dict.keys written ⊆ edits.map FileEdit.path)
    (hone : OneOriginal root written tree changed)
    (hcompletes : (changed.restoreAttemptWrites denied root baseline written).2 = none) {l : Loc}
    {path : String} (hpath : changed.StillWritten root written path l) :
    RestoredFrom root tree changed (undone denied root baseline written changed) path l := by
  have hrun : changed.restoreAttemptWrites denied root baseline written =
      (undone denied root baseline written changed, none) := Prod.ext rfl hcompletes
  have hback := (Files.restoreAttemptWrites_due hrun
    (coherent_of_oneOriginal hbase hkeys hone)).2 path l hpath
  obtain ⟨applied, hwritten, hl, -⟩ := hpath
  obtain ⟨htext, hmode⟩ := baseline_of hbase hkeys (Dict.fst_mem_keys hwritten)
  refine ⟨fun hread => hback.kept (hread.trans htext), fun hread => ?_, fun hfile => ?_⟩
  · exact ⟨_, baseline_stable hbase path, htext,
      hback.replaced fun hsame => hread (hsame.trans htext.symm)⟩
  · -- a file of `tree` has a mode, which its baseline holds
    have hcontent : (baselineEntry baseline path).content ≠ none := by
      intro hnone
      rw [hnone] at htext
      exact hfile ((fileText_of_noFile ⟨none, htext⟩).mpr htext)
    obtain ⟨item, hitem⟩ := Option.ne_none_iff_exists'.1 hfile
    rw [hitem] at hmode ⊢
    exact hback.mode item.2 hmode.symm hcontent

/-- What an undo takes is enough for it to be exact. -/
theorem undoes_of_undoable (hbase : tree.snapshotEditBaseline root [] edits = .ok baseline)
    (hkeys : Dict.keys written ⊆ edits.map FileEdit.path)
    (hone : OneOriginal root written tree changed)
    (h : Undoable denied root baseline written tree left changed) :
    UndoesAttempt denied root baseline written tree left changed := by
  have hcompletes : (changed.restoreAttemptWrites denied root baseline written).2 = none :=
    (Files.restoreAttemptWrites_open (baseline_wellMade hbase)).2 ⟨h.readable, h.granted⟩
  have hrun : changed.restoreAttemptWrites denied root baseline written =
      (undone denied root baseline written changed, none) := Prod.ext rfl hcompletes
  have hcoherent := coherent_of_oneOriginal hbase hkeys hone
  obtain ⟨htouch, -⟩ := Files.restoreAttemptWrites_due hrun hcoherent
  refine ⟨hcompletes, fun l hown => ?_, fun l hnot => ?_, fun denied' => ?_⟩
  · rcases h.own l hown with ⟨hnone, hfile⟩ | ⟨path, hpath, ⟨horiginal, hmode⟩, hbytes⟩
    · exact (htouch.fileAt_eq hnone).trans hfile
    · have hback := restoredFrom hbase hkeys hone hcompletes hpath
      have hmodes : tree.contentAt l ≠ none →
          ((undone denied root baseline written changed).fileAt l).map Prod.snd =
            (tree.fileAt l).map Prod.snd := by
        intro hfile
        rw [hmode]
        refine hback.mode fun hnone => hfile ?_
        rw [hnone, Option.map_none, Option.map_eq_none_iff] at hmode
        simp [Files.contentAt, hmode]
      refine fileAt_ext ?_ hmodes
      rcases hbytes with hequal | ⟨hread, hstable⟩
      · exact (hback.kept ((readTextOrNone_congr hequal).trans horiginal)).trans hequal
      · rw [horiginal] at hread
        obtain ⟨text, -, htext, hcontent⟩ := hback.replaced hread
        exact hcontent.trans (contentAt_of_stable (horiginal.trans htext) hstable).symm
  · rcases h.others l hnot with hnone | ⟨path, hpath, horiginal, hmode⟩
    · exact undone_same (htouch.fileAt_eq hnone)
    · have hback := restoredFrom hbase hkeys hone hcompletes hpath
      refine undone_same (fileAt_ext (hback.kept horiginal) fun hne => ?_)
      rw [hmode]
      refine hback.mode fun hnone => hne ?_
      rw [hnone, Option.map_none, Option.map_eq_none_iff] at hmode
      simp [Files.contentAt, hmode]
  · exact Files.restoreAttemptWrites_again hrun hcoherent (baseline_stable hbase)

/-- And an exact undo takes it. -/
theorem undoable_of_undoes (hbase : tree.snapshotEditBaseline root [] edits = .ok baseline)
    (hkeys : Dict.keys written ⊆ edits.map FileEdit.path)
    (hone : OneOriginal root written tree changed)
    (h : UndoesAttempt denied root baseline written tree left changed) :
    Undoable denied root baseline written tree left changed := by
  have hrun : changed.restoreAttemptWrites denied root baseline written =
      (undone denied root baseline written changed, none) := Prod.ext rfl h.completes
  obtain ⟨htouch, -⟩ := Files.restoreAttemptWrites_due hrun
    (coherent_of_oneOriginal hbase hkeys hone)
  obtain ⟨hreadable, hgranted⟩ :=
    (Files.restoreAttemptWrites_open (baseline_wellMade hbase)).1 h.completes
  -- the mode of a file that a path's baseline was put back to
  have hmodes : ∀ {files : Files} {path : String} {l : Loc},
      changed.StillWritten root written path l →
      (undone denied root baseline written changed).fileAt l = files.fileAt l →
      files.readTextOrNone l = tree.fileText root path →
      (files.fileAt l).map Prod.snd = (tree.fileOf root path).map Prod.snd := by
    intro files path l hpath hfile hread
    by_cases hnone : tree.fileOf root path = none
    · obtain ⟨_, hwritten, -, -⟩ := id hpath
      have htext := (fileText_of_noFile
        ⟨_, (baseline_of hbase hkeys (Dict.fst_mem_keys hwritten)).1⟩).mp hnone
      rw [htext, ← Files.fileAt_eq_none_iff] at hread
      rw [hread, hnone, Option.map_none]
    · rw [← hfile]
      exact (restoredFrom hbase hkeys hone h.completes hpath).mode hnone
  refine ⟨hreadable, hgranted, fun l hown => ?_, fun l hnot => ?_⟩
  · have hfile := h.restored l hown
    have hcontent : (undone denied root baseline written changed).contentAt l =
        tree.contentAt l := by simp [Files.contentAt, hfile]
    by_cases hstill : ∃ path, changed.StillWritten root written path l
    · obtain ⟨path, hpath⟩ := hstill
      have hback := restoredFrom hbase hkeys hone h.completes hpath
      refine .inr ⟨path, hpath, ?_⟩
      by_cases hread : changed.readTextOrNone l = tree.fileText root path
      · have hbytes := (hback.kept hread).symm.trans hcontent
        have horiginal := (readTextOrNone_congr hbytes).symm.trans hread
        exact ⟨⟨horiginal, hmodes hpath hfile horiginal⟩, .inl hbytes⟩
      · obtain ⟨text, hstable, htext, hnew⟩ := hback.replaced hread
        have horiginal : tree.readTextOrNone l = tree.fileText root path := by
          rw [Files.readTextOrNone_written (hcontent.symm.trans hnew), hstable, htext]
        refine ⟨⟨horiginal, hmodes hpath hfile horiginal⟩, .inr ⟨horiginal ▸ hread, ?_⟩⟩
        intro t ht
        rw [hcontent, ht] at hnew
        cases text with
        | none => cases hnew
        | some t' =>
          cases hnew
          exact stableText_some.1 hstable
    · exact .inl ⟨hstill, (htouch.fileAt_eq hstill).symm.trans hfile⟩
  · by_cases hstill : ∃ path, changed.StillWritten root written path l
    · obtain ⟨path, hpath⟩ := hstill
      have hback := restoredFrom hbase hkeys hone h.completes hpath
      have hfile : (undone denied root baseline written changed).fileAt l = changed.fileAt l := by
        rcases h.untouched l hnot with hkept | ⟨hnone, mode, hdir⟩
        · simp [Files.fileAt, hkept]
        · simp [Files.fileAt, hnone, hdir]
      have hcontent : (undone denied root baseline written changed).contentAt l =
          changed.contentAt l := by simp [Files.contentAt, hfile]
      have hread : changed.readTextOrNone l = tree.fileText root path := by
        by_contra hne
        obtain ⟨text, hstable, htext, hnew⟩ := hback.replaced hne
        have hagain := Files.readTextOrNone_written (hcontent.symm.trans hnew)
        rw [hstable] at hagain
        exact hne (hagain.trans htext.symm)
      exact .inr ⟨path, hpath, hread, hmodes hpath hfile hread⟩
    · exact .inl hstill

end

theorem keys_writtenAfter_subset (written : Written) (edits : List FileEdit) :
    Dict.keys (writtenAfter written edits) ⊆ Dict.keys written ++ edits.map FileEdit.path := by
  induction edits generalizing written with
  | nil => simp [writtenAfter]
  | cons edit edits ih =>
    intro path hpath
    have hmem := ih (written.set edit.path edit.content) hpath
    simp only [List.mem_append, Dict.mem_keys_set, List.map_cons, List.mem_cons] at hmem ⊢
    tauto

namespace Sample

/-- A workspace with two files. -/
def pairTree (first second : Content) : Files := fun l =>
  if l = ["w"] then some (.dir 0o755)
  else if l = ["w", "a"] then some (.file first 0o644)
  else if l = ["w", "b"] then some (.file second 0o644)
  else none

def pairEdits : List FileEdit := [.replace "a" "new" none, .replace "b" "new" none]

def pairBaseline : Baseline :=
  [("a", ⟨some "old", some 0o644⟩), ("b", ⟨some "old", some 0o644⟩)]

/-- Others put a link to a file of their own in the place of the second file. -/
def linkedTree : Files := fun l =>
  if l = ["w", "b"] then some (.link "c")
  else if l = ["w", "c"] then some (.file (.utf8 "other") 0o644)
  else pairTree (.utf8 "new") (.utf8 "new") l

theorem linkedTree_still {path : String} {l : Loc}
    (h : linkedTree.StillWritten ["w"] (writtenAfter [] pairEdits) path l) :
    path = "a" ∧ l = ["w", "a"] := by
  obtain ⟨applied, hwritten, hl, hread⟩ := h
  have hall : writtenAfter [] pairEdits = [("a", some "new"), ("b", some "new")] := by
    decide +kernel
  rw [hall] at hwritten
  simp only [List.mem_cons, Prod.mk.injEq, List.not_mem_nil, or_false] at hwritten
  rcases hwritten with ⟨rfl, -⟩ | ⟨rfl, rfl⟩
  · have hat : linkedTree.boundaryResolve ["w"] "a" = .ok ["w", "a"] := by decide +kernel
    rw [hat] at hl
    cases hl
    exact ⟨rfl, rfl⟩
  · have hat : linkedTree.boundaryResolve ["w"] "b" = .ok ["w", "c"] := by decide +kernel
    have hother : linkedTree.readTextOrNone ["w", "c"] = .ok (some "other") := by decide +kernel
    rw [hat] at hl
    cases hl
    rw [hother] at hread
    revert hread
    decide +kernel

theorem linkedTree_first :
    linkedTree.StillWritten ["w"] (writtenAfter [] pairEdits) "a" ["w", "a"] :=
  ⟨some "new", by decide +kernel, by decide +kernel, by decide +kernel⟩

theorem linkedTree_oneOriginal : OneOriginal ["w"] (writtenAfter [] pairEdits)
    (pairTree (.utf8 "old") (.utf8 "old")) linkedTree := by
  intro path l hstill other hother hl
  obtain ⟨rfl, rfl⟩ := linkedTree_still hstill
  have hkeys : Dict.keys (writtenAfter [] pairEdits) = ["a", "b"] := by decide +kernel
  rw [hkeys] at hother
  simp only [List.mem_cons, List.not_mem_nil, or_false] at hother
  rcases hother with rfl | rfl
  · exact ⟨rfl, rfl⟩
  · have hat : linkedTree.boundaryResolve ["w"] "b" = .ok ["w", "c"] := by decide +kernel
    rw [hat] at hl
    exact absurd (Except.ok.inj hl) (by decide)

/-- The file of the first edit is the attempt's own, that of the second is not any more. -/
theorem linkedTree_own (l : Loc) : OwnFile (pairTree (.utf8 "new") (.utf8 "new")) linkedTree ["w"]
    (writtenAfter [] pairEdits) l ↔ l = ["w", "a"] := by
  have hkeys : Dict.keys (writtenAfter [] pairEdits) = ["a", "b"] := by decide +kernel
  have hfirst : (pairTree (.utf8 "new") (.utf8 "new")).boundaryResolve ["w"] "a" =
      .ok ["w", "a"] := by decide +kernel
  have hsecond : (pairTree (.utf8 "new") (.utf8 "new")).boundaryResolve ["w"] "b" =
      .ok ["w", "b"] := by decide +kernel
  constructor
  · rintro ⟨⟨path, hpath, hl⟩, hsame⟩
    rw [hkeys] at hpath
    simp only [List.mem_cons, List.not_mem_nil, or_false] at hpath
    rcases hpath with rfl | rfl
    · rw [hfirst] at hl
      cases hl
      rfl
    · rw [hsecond] at hl
      cases hl
      revert hsame
      decide +kernel
  · rintro rfl
    exact ⟨⟨"a", by rw [hkeys]; exact List.mem_cons_self, hfirst⟩, by decide +kernel⟩

end Sample

end EvoCI
