import EvoCI.Library.Dict
import EvoCI.Workspace

/-! File edits, the baseline of an attempt, and restoring the files an attempt
wrote. -/

namespace EvoCI

open Library

/-- A complete replacement or a deletion of one file. -/
structure FileEdit where
  path : String
  content : Option String := none
  delete : Bool := false
  expectedSha256 : Option String := none
  /-- Exactly one of `delete` and `content` is provided. -/
  contentMatchesOperation : delete = content.isNone
  deriving DecidableEq

/-- `_intended_content(edit)`. -/
def FileEdit.intended (edit : FileEdit) : Option String :=
  if edit.delete then none else edit.content

/-- An edit that replaces the content of `path`. -/
def FileEdit.replace (path content : String) (sha : Option String) : FileEdit :=
  ⟨path, some content, false, sha, rfl⟩

/-- An edit that deletes `path`. -/
def FileEdit.remove (path : String) (sha : Option String) : FileEdit :=
  ⟨path, none, true, sha, rfl⟩

theorem FileEdit.intended_eq (edit : FileEdit) : edit.intended = edit.content := by
  obtain ⟨path, content, delete, sha, h⟩ := edit
  cases content with
  | none => simp [FileEdit.intended]
  | some text =>
    have hd : delete = false := by simpa using h
    simp [FileEdit.intended, hd]

structure FileBaseline where
  content : Option String
  mode : Option Nat
  deriving DecidableEq, Repr

abbrev Baseline := Dict String FileBaseline

/-- What an attempt wrote: path to intended content, `none` for a deletion. -/
abbrev Written := Dict String (Option String)

/-- The baseline an attempt's path goes back to. -/
def baselineEntry (baseline : Baseline) (path : String) : FileBaseline :=
  (baseline.get? path).getD ⟨none, none⟩

namespace Files

def pathExists (files : Files) (root target : Loc) : Bool :=
  (files target).isSome || target = root

/-! ## Baselines -/

/-- One entry of `snapshot_edit_baseline`. -/
def fileBaseline (files : Files) (root : Loc) (path : String) : Except PyError FileBaseline :=
  match files.boundaryResolve root path with
  | .error e => .error e
  | .ok target =>
    match files.fileAt target with
    | some (content, mode) =>
      match content.readText with
      | .ok text => .ok ⟨some text, some mode⟩
      | .error e => .error e
    | none =>
      if files.pathExists root target then
        .error (.patchPrecheckError s!"patch target is not a regular file: {path}")
      else .ok ⟨none, none⟩

def snapshotEditBaseline (files : Files) (root : Loc) (baseline : Baseline) :
    List FileEdit → Except PyError Baseline
  | [] => .ok baseline
  | edit :: edits =>
    match files.fileBaseline root edit.path with
    | .error e => .error e
    | .ok entry => files.snapshotEditBaseline root (baseline.set edit.path entry) edits

/-! ## Restoring -/

/-- One iteration of `restore_edit_baseline`. -/
def restoreEntry (files : Files) (denied : Loc → Bool) (root : Loc) (path : String)
    (entry : FileBaseline) : Except PyError Files :=
  match files.boundaryResolve root path with
  | .error e => .error e
  | .ok target =>
    match entry.content with
    | none =>
      if files.pathExists root target then
        if (files.fileAt target).isSome then files.unlink denied root target
        else .error (.patchError s!"rollback target is not a regular file: {path}")
      else .ok files
    | some content =>
      match files.readTextOrNone target with
      | .error e => .error e
      | .ok current =>
        if current = some content then
          match entry.mode, files.fileAt target with
          | some mode, some (bytes, currentMode) =>
            if currentMode = mode then .ok files
            else if denied target then .error (.osError "Operation not permitted")
            else .ok (files.put target (.file bytes mode))
          | _, _ => .ok files
        else files.writeFile denied root path content entry.mode

/-- `restore_edit_baseline`: the files as they are when it returns or raises. -/
def restoreEditBaseline (files : Files) (denied : Loc → Bool) (root : Loc) :
    Baseline → Files × Option PyError
  | [] => (files, none)
  | (path, entry) :: baseline =>
    match files.restoreEntry denied root path entry with
    | .error e => (files, some e)
    | .ok files' => files'.restoreEditBaseline denied root baseline

/-- The written paths that still hold what the attempt wrote, with the baseline
each goes back to. -/
def eligibleWrites (files : Files) (root : Loc) (baseline : Baseline) :
    Written → Except PyError Baseline
  | [] => .ok []
  | (path, applied) :: written =>
    match files.boundaryResolve root path with
    | .error e => .error e
    | .ok target =>
      match files.readTextOrNone target with
      | .error e => .error e
      | .ok current =>
        match files.eligibleWrites root baseline written with
        | .error e => .error e
        | .ok eligible =>
          if current = applied then .ok ((path, baselineEntry baseline path) :: eligible)
          else .ok eligible

/-- `restore_attempt_writes`. -/
def restoreAttemptWrites (files : Files) (denied : Loc → Bool) (root : Loc) (baseline : Baseline)
    (written : Written) : Files × Option PyError :=
  match files.eligibleWrites root baseline written with
  | .error e => (files, some e)
  | .ok eligible => files.restoreEditBaseline denied root eligible

/-! ## Applying -/

/-- The hash check of `apply_edit`; an empty digest is no digest. -/
def hashMatches (files : Files) (sha256 : Content → String) (hashStrict : Bool) (edit : FileEdit)
    (target : Loc) : Except PyError Unit :=
  match edit.expectedSha256 with
  | none => .ok ()
  | some expected =>
    if expected = "" ∨ hashStrict = false then .ok ()
    else
      match files target with
      | some (.file content _) =>
        if sha256 content = expected then .ok ()
        else .error (.patchConflict s!"file changed since proposal: {edit.path}")
      | some _ => .error (.osError s!"Is a directory: {edit.path}")
      | none => .error (.patchConflict s!"file changed since proposal: {edit.path}")

/-- `apply_edit`. -/
def applyEdit (files : Files) (sha256 : Content → String) (denied : Loc → Bool) (root : Loc)
    (hashStrict : Bool) (edit : FileEdit) : Except PyError Files :=
  match files.boundaryResolve root edit.path with
  | .error e => .error e
  | .ok target =>
    match edit.content with
    | none =>
      if files.pathExists root target then
        match files.hashMatches sha256 hashStrict edit target with
        | .error e => .error e
        | .ok () => files.unlink denied root target
      else .ok files
    | some content =>
      if files.isDir root target then .error (.osError s!"Is a directory: {edit.path}")
      else
        match files.readTextOrNone target with
        | .error e => .error e
        | .ok current =>
          if current = some content then .ok files
          else
            match files.hashMatches sha256 hashStrict edit target with
            | .error e => .error e
            | .ok () => files.writeFile denied root edit.path content none

/-! ## Specifications -/

theorem fileText_of_boundary {files : Files} {root target : Loc} {path : String}
    (h : files.boundaryResolve root path = .ok target) :
    files.fileText root path = files.readTextOrNone target := by
  simp [fileText, (boundaryResolve_ok h).1]

theorem readTextOrNone_of_none {files : Files} {target : Loc} (h : files.fileAt target = none) :
    files.readTextOrNone target = .ok none := by
  simp [readTextOrNone, h]

theorem readTextOrNone_of_fileAt {files : Files} {target : Loc} {content : Content} {mode : Nat}
    (h : files.fileAt target = some (content, mode)) :
    files.readTextOrNone target = content.readText.map some := by
  simp [readTextOrNone, h]

/-- The raw content of the regular file at a location. -/
def contentAt (files : Files) (loc : Loc) : Option Content :=
  (files.fileAt loc).map Prod.fst

theorem Touches.contentAt_eq {files files' : Files} {targets : Loc → Prop}
    (h : Touches files files' targets) {l : Loc} (hl : ¬ targets l) :
    files'.contentAt l = files.contentAt l := by
  simp [contentAt, h.fileAt_eq hl]

/-- The text a read returns depends on the raw content alone. -/
theorem readTextOrNone_eq (files : Files) (loc : Loc) :
    files.readTextOrNone loc =
      match files.contentAt loc with
      | some content => content.readText.map some
      | none => .ok none := by
  unfold readTextOrNone contentAt
  cases files.fileAt loc with
  | none => rfl
  | some entry => rfl

theorem readTextOrNone_written {files : Files} {loc : Loc} {text : Option String}
    (h : files.contentAt loc = text.map .utf8) :
    files.readTextOrNone loc = .ok (readBack text) := by
  rw [readTextOrNone_eq, h]
  cases text with
  | none => rfl
  | some t => rfl

theorem stableText_of_read {files : Files} {loc : Loc} {text : Option String}
    (h : files.readTextOrNone loc = .ok text) : StableText text := by
  cases text with
  | none => rfl
  | some t =>
    rw [readTextOrNone_eq] at h
    cases hc : files.contentAt loc with
    | none => simp [hc] at h
    | some content =>
      rw [hc] at h
      cases hr : content.readText with
      | error e => simp [hr, Except.map] at h
      | ok u =>
        have hu : u = t := by simpa [hr, Except.map] using h
        subst hu
        exact stableText_some.mpr (stable_of_readText hr)

/-- After a successful edit its file has the edit's content; the edit does
nothing when a read already returns that content. -/
theorem applyEdit_ok {files files' : Files} {sha256 : Content → String} {denied : Loc → Bool}
    {root : Loc} {hashStrict : Bool} {edit : FileEdit}
    (h : files.applyEdit sha256 denied root hashStrict edit = .ok files') :
    ∃ target, files.boundaryResolve root edit.path = .ok target ∧
      Touches files files' (· = target) ∧
      (files.readTextOrNone target = .ok edit.content ∧ files' = files ∨
        files'.contentAt target = edit.content.map .utf8) := by
  unfold applyEdit at h
  split at h
  · cases h
  next target ht =>
    refine ⟨target, ht, ?_⟩
    cases hc : edit.content with
    | none =>
      simp only [hc] at h
      split at h
      · split at h
        · cases h
        · obtain ⟨htouch, hnone⟩ := unlink_ok ht h
          refine ⟨htouch, .inr ?_⟩
          simp [contentAt, fileAt, hnone]
      next hex =>
        cases h
        refine ⟨Touches.refl _ _, .inl ⟨readTextOrNone_of_none ?_, rfl⟩⟩
        have hnone : files target = none := by
          simp only [pathExists, Bool.or_eq_true, Option.isSome_iff_ne_none, ne_eq, not_or,
            not_not] at hex
          exact hex.1
        simp [fileAt, hnone]
    | some content =>
      simp only [hc] at h
      split at h
      · cases h
      · split at h
        · cases h
        next current hcur =>
          split at h
          next heq =>
            cases h
            exact ⟨Touches.refl _ _, .inl ⟨by rw [hcur, heq], rfl⟩⟩
          · split at h
            · cases h
            · obtain ⟨target', ht', htouch, hfile⟩ := writeFile_ok h
              have htt : target' = target := by
                rw [ht] at ht'
                cases ht'
                rfl
              subst htt
              exact ⟨htouch, .inr (by simp [contentAt, hfile])⟩

theorem readTextOrNone_eq_none {files : Files} {loc : Loc} :
    files.readTextOrNone loc = .ok none ↔ files.contentAt loc = none := by
  rw [readTextOrNone_eq]
  cases files.contentAt loc with
  | none => simp
  | some content =>
    cases hread : content.readText with
    | error e => simp [hread, Except.map]
    | ok text => simp [hread, Except.map]

/-- What restoring one entry does to its file: the bytes stay when they already
read as the baseline's content, and are replaced by it otherwise. -/
structure Restored (files files' : Files) (target : Loc) (entry : FileBaseline) : Prop where
  kept : files.readTextOrNone target = .ok entry.content →
    files'.contentAt target = files.contentAt target
  replaced : files.readTextOrNone target ≠ .ok entry.content →
    files'.contentAt target = entry.content.map .utf8
  mode : ∀ mode, entry.mode = some mode → entry.content ≠ none →
    (files'.fileAt target).map Prod.snd = some mode

theorem Restored.of_none {files files' : Files} {target : Loc} {entry : FileBaseline}
    (hc : entry.content = none) (h : files'.contentAt target = none) :
    Restored files files' target entry where
  kept hread := by
    rw [hc, readTextOrNone_eq_none] at hread
    rw [h, hread]
  replaced _ := by rw [h, hc]; rfl
  mode _ _ hne := absurd hc hne

theorem Restored.trans {files files' files'' : Files} {target : Loc} {entry : FileBaseline}
    (h : Restored files files' target entry) (h' : Restored files' files'' target entry) :
    Restored files files'' target entry where
  kept hread := by
    have hsame := h.kept hread
    rw [h'.kept (by rw [readTextOrNone_eq, hsame, ← readTextOrNone_eq, hread]), hsame]
  replaced hread := by
    have hnew := h.replaced hread
    by_cases hback : files'.readTextOrNone target = .ok entry.content
    · rw [h'.kept hback, hnew]
    · exact h'.replaced hback
  mode := h'.mode

theorem Restored.of_frame {files files' files'' : Files} {target : Loc} {entry : FileBaseline}
    (h : Restored files files' target entry)
    (hfile : files''.fileAt target = files'.fileAt target) :
    Restored files files'' target entry := by
  have hcontent : files''.contentAt target = files'.contentAt target := by
    simp [contentAt, hfile]
  exact ⟨fun hr => hcontent.trans (h.kept hr), fun hr => hcontent.trans (h.replaced hr),
    fun m hm hne => by rw [hfile]; exact h.mode m hm hne⟩

theorem Restored.of_start {files files' files'' : Files} {target : Loc} {entry : FileBaseline}
    (h : Restored files' files'' target entry)
    (hfile : files'.fileAt target = files.fileAt target) :
    Restored files files'' target entry := by
  have hcontent : files'.contentAt target = files.contentAt target := by
    simp [contentAt, hfile]
  have hread : files'.readTextOrNone target = files.readTextOrNone target := by
    rw [readTextOrNone_eq, hcontent, ← readTextOrNone_eq]
  exact ⟨fun hr => (h.kept (hread.trans hr)).trans hcontent,
    fun hr => h.replaced (hread ▸ hr), h.mode⟩

/-- A stable baseline is what a read returns afterwards. -/
theorem Restored.reads {files files' : Files} {target : Loc} {entry : FileBaseline}
    (h : Restored files files' target entry) (hstable : StableText entry.content) :
    files'.readTextOrNone target = .ok entry.content := by
  by_cases hread : files.readTextOrNone target = .ok entry.content
  · rw [readTextOrNone_eq, h.kept hread, ← readTextOrNone_eq, hread]
  · rw [readTextOrNone_written (h.replaced hread), hstable]

theorem restoreEntry_ok {files files' : Files} {denied : Loc → Bool} {root : Loc} {path : String}
    {entry : FileBaseline} (h : files.restoreEntry denied root path entry = .ok files') :
    ∃ target, files.boundaryResolve root path = .ok target ∧ Touches files files' (· = target) ∧
      Restored files files' target entry := by
  unfold restoreEntry at h
  split at h
  · cases h
  next target ht =>
    refine ⟨target, ht, ?_⟩
    cases hc : entry.content with
    | none =>
      simp only [hc] at h
      split at h
      · split at h
        · obtain ⟨htouch, hnone⟩ := unlink_ok ht h
          exact ⟨htouch, .of_none hc (by simp [contentAt, fileAt, hnone])⟩
        · cases h
      next hex =>
        cases h
        simp only [pathExists, Bool.or_eq_true, Option.isSome_iff_ne_none, ne_eq, not_or,
          not_not] at hex
        exact ⟨Touches.refl _ _, .of_none hc (by simp [contentAt, fileAt, hex.1])⟩
    | some content =>
      simp only [hc] at h
      split at h
      · cases h
      next current hcur =>
        split at h
        next heq =>
          have hread : files.readTextOrNone target = .ok entry.content := by rw [hcur, heq, hc]
          split at h
          next mode bytes currentMode hmode hfile =>
            split at h
            next hsame =>
              cases h
              refine ⟨Touches.refl _ _, fun _ => rfl, fun hr => absurd hread hr, ?_⟩
              rintro m hm -
              rw [hm] at hmode
              cases hmode
              simp [hfile, hsame]
            · split at h
              · cases h
              · cases h
                have hlink : files.linkAt target = none := by
                  unfold fileAt at hfile
                  unfold linkAt
                  split at hfile <;> simp_all
                refine ⟨⟨linkAt_put _ _ _ hlink, fun l hl => .inl (put_of_ne _ _ hl)⟩,
                  fun _ => ?_, fun hr => absurd hread hr, ?_⟩
                · simp [contentAt, fileAt_put, hfile]
                · rintro m hm -
                  rw [hm] at hmode
                  cases hmode
                  simp [fileAt_put]
          next hnone =>
            cases h
            refine ⟨Touches.refl _ _, fun _ => rfl, fun hr => absurd hread hr, ?_⟩
            rintro m hm -
            cases hf : files.fileAt target with
            | none =>
              rw [readTextOrNone_of_none hf, hc] at hread
              cases hread
            | some found => exact absurd hf (hnone m found.1 found.2 hm)
        next hne =>
          obtain ⟨target', ht', htouch, hfile⟩ := writeFile_ok h
          have htt : target' = target := by
            rw [ht] at ht'
            cases ht'
            rfl
          subst htt
          refine ⟨htouch, fun hr => ?_, fun _ => by simp [contentAt, hfile, hc], ?_⟩
          · rw [hcur, hc] at hr
            cases hr
            exact absurd rfl hne
          · rintro m hm -
            simp [hfile, hm]

/-- Different paths of the list name different files. -/
def DistinctFiles (files : Files) (root : Loc) (paths : List String) : Prop :=
  ∀ p ∈ paths, ∀ q ∈ paths, ∀ l,
    files.resolve root p = .ok l → files.resolve root q = .ok l → p = q

/-- Where the path of a dictionary item is, when it is inside the workspace. -/
def ItemAt {ν : Type} (files : Files) (root : Loc) (items : Dict String ν) (l : Loc) : Prop :=
  ∃ item ∈ items, files.boundaryResolve root item.1 = .ok l

theorem distinctFiles_congr {files files' : Files} (h : files'.linkAt = files.linkAt) (root : Loc)
    (paths : List String) : files'.DistinctFiles root paths ↔ files.DistinctFiles root paths := by
  simp only [DistinctFiles, resolve_congr h]

/-- Restoring changes the files of its items only, also when it stops early. -/
theorem restoreEditBaseline_frame (files : Files) (denied : Loc → Bool) (root : Loc)
    (items : Baseline) :
    Touches files (files.restoreEditBaseline denied root items).1 (files.ItemAt root items) := by
  induction items generalizing files with
  | nil => exact Touches.refl _ _
  | cons item items ih =>
    obtain ⟨path, entry⟩ := item
    unfold restoreEditBaseline
    split
    · exact Touches.refl _ _
    next mid hmid =>
      obtain ⟨target, ht, htouch, -⟩ := restoreEntry_ok hmid
      refine Touches.trans (htouch.mono fun l hl => ?_) ((ih mid).mono fun l hl => ?_)
      · exact ⟨(path, entry), by simp, by rw [hl, ht]⟩
      · obtain ⟨item, hmem, hitem⟩ := hl
        exact ⟨item, by simp [hmem], by rw [← htouch.boundaryResolve_eq, hitem]⟩

theorem restoreEditBaseline_touches {denied : Loc → Bool} {root : Loc} {items : Baseline}
    {files files' : Files} (h : files.restoreEditBaseline denied root items = (files', none)) :
    Touches files files' (files.ItemAt root items) := by
  have hframe := restoreEditBaseline_frame files denied root items
  rwa [h] at hframe

/-- Items of one file agree on the entry it goes back to. -/
def Coherent (files : Files) (root : Loc) (items : Baseline) : Prop :=
  ∀ p ∈ items, ∀ q ∈ items, ∀ l, files.boundaryResolve root p.1 = .ok l →
    files.boundaryResolve root q.1 = .ok l → p.2 = q.2

/-- When items of one file agree, every item ends up restored. -/
theorem restoreEditBaseline_restores {denied : Loc → Bool} {root : Loc} {items : Baseline}
    {files files' : Files} (h : files.restoreEditBaseline denied root items = (files', none))
    (hcoherent : files.Coherent root items) :
    ∀ item ∈ items, ∃ target, files.boundaryResolve root item.1 = .ok target ∧
      Restored files files' target item.2 := by
  induction items generalizing files with
  | nil => simp
  | cons first items ih =>
    obtain ⟨path, entry⟩ := first
    unfold restoreEditBaseline at h
    split at h
    · cases h
    next mid hmid =>
      obtain ⟨target, ht, htouch, hrestored⟩ := restoreEntry_ok hmid
      have hrest : ∀ item ∈ items, ∃ there, files.boundaryResolve root item.1 = .ok there ∧
          Restored mid files' there item.2 := by
        have hmidCoherent : mid.Coherent root items := by
          intro p hp q hq l hpl hql
          rw [htouch.boundaryResolve_eq] at hpl hql
          exact hcoherent p (by simp [hp]) q (by simp [hq]) l hpl hql
        intro item hitem
        obtain ⟨there, hthere, hback⟩ := ih h hmidCoherent item hitem
        rw [htouch.boundaryResolve_eq] at hthere
        exact ⟨there, hthere, hback⟩
      intro item hitem
      rcases List.mem_cons.mp hitem with rfl | hitem
      · refine ⟨target, ht, ?_⟩
        by_cases hagain : ∃ other ∈ items, files.boundaryResolve root other.1 = .ok target
        · obtain ⟨other, hother, hres⟩ := hagain
          obtain ⟨there, hthere, hback⟩ := hrest other hother
          rw [hres] at hthere
          cases hthere
          have hsame : other.2 = entry := hcoherent other (by simp [hother]) (path, entry)
            (by simp) target hres ht
          rw [hsame] at hback
          exact hrestored.trans hback
        · refine hrestored.of_frame ((restoreEditBaseline_touches h).fileAt_eq ?_)
          rintro ⟨other, hother, hres⟩
          rw [htouch.boundaryResolve_eq] at hres
          exact hagain ⟨other, hother, hres⟩
      · obtain ⟨there, hthere, hback⟩ := hrest item hitem
        refine ⟨there, hthere, ?_⟩
        by_cases heq : there = target
        · subst heq
          have hsame : entry = item.2 := hcoherent (path, entry) (by simp) item (by simp [hitem])
            there ht hthere
          rw [hsame] at hrestored
          exact hrestored.trans hback
        · exact hback.of_start (htouch.fileAt_eq heq)

theorem eligibleWrites_ok {files : Files} {root : Loc} {baseline : Baseline} {written : Written}
    {eligible : Baseline} (h : files.eligibleWrites root baseline written = .ok eligible) :
    (∀ path entry, (path, entry) ∈ eligible ↔
      ∃ applied target, (path, applied) ∈ written ∧ files.boundaryResolve root path = .ok target ∧
        files.readTextOrNone target = .ok applied ∧ entry = baselineEntry baseline path) ∧
    (Dict.keys eligible).Sublist (Dict.keys written) ∧
    ∀ item ∈ written, ∃ target current, files.boundaryResolve root item.1 = .ok target ∧
      files.readTextOrNone target = .ok current := by
  induction written generalizing eligible with
  | nil =>
    cases h
    simp
  | cons item written ih =>
    obtain ⟨path, applied⟩ := item
    unfold eligibleWrites at h
    split at h
    · cases h
    next target ht =>
      split at h
      · cases h
      next current hcur =>
        split at h
        · cases h
        next rest hrest =>
          obtain ⟨hmem, hsub, hread⟩ := ih hrest
          refine ⟨fun p entry => ?_, ?_, ?_⟩
          · split at h
            next heq =>
              cases h
              simp only [List.mem_cons, Prod.mk.injEq, hmem]
              constructor
              · rintro (⟨rfl, rfl⟩ | ⟨a, l, hin, hl, htext, rfl⟩)
                · exact ⟨applied, target, .inl ⟨rfl, rfl⟩, ht, by rw [hcur, heq], rfl⟩
                · exact ⟨a, l, .inr hin, hl, htext, rfl⟩
              · rintro ⟨a, l, ⟨rfl, rfl⟩ | hin, hl, htext, rfl⟩
                · exact .inl ⟨rfl, rfl⟩
                · exact .inr ⟨a, l, hin, hl, htext, rfl⟩
            next hne =>
              cases h
              simp only [List.mem_cons, Prod.mk.injEq, hmem]
              constructor
              · rintro ⟨a, l, hin, hl, htext, rfl⟩
                exact ⟨a, l, .inr hin, hl, htext, rfl⟩
              · rintro ⟨a, l, ⟨rfl, rfl⟩ | hin, hl, htext, rfl⟩
                · rw [ht] at hl
                  cases hl
                  rw [hcur] at htext
                  cases htext
                  exact absurd rfl hne
                · exact ⟨a, l, hin, hl, htext, rfl⟩
          · split at h
            · cases h
              exact hsub.cons_cons path
            · cases h
              exact hsub.cons path
          · intro item hitem
            rcases List.mem_cons.mp hitem with rfl | hitem
            · exact ⟨target, current, ht, hcur⟩
            · exact hread item hitem

/-- The paths of `written` that name one file go back to one baseline. -/
def CoherentWrites (files : Files) (root : Loc) (baseline : Baseline) (paths : List String) :
    Prop :=
  ∀ p ∈ paths, ∀ q ∈ paths, ∀ l, files.boundaryResolve root p = .ok l →
    files.boundaryResolve root q = .ok l → baselineEntry baseline p = baselineEntry baseline q

theorem DistinctFiles.coherent {files : Files} {root : Loc} {paths : List String}
    (h : files.DistinctFiles root paths) (baseline : Baseline) :
    files.CoherentWrites root baseline paths :=
  fun p hp q hq l hpl hql => by
    rw [h p hp q hq l (boundaryResolve_ok hpl).1 (boundaryResolve_ok hql).1]

/-- A written path that still holds the attempt's write at `l`. -/
def StillWritten (files : Files) (root : Loc) (written : Written) (path : String) (l : Loc) :
    Prop :=
  ∃ applied, (path, applied) ∈ written ∧ files.boundaryResolve root path = .ok l ∧
    files.readTextOrNone l = .ok applied

/-- A path that still holds its write goes back to one baseline with every written path
that leads to its file. -/
def CoherentDue (files : Files) (root : Loc) (baseline : Baseline) (written : Written) : Prop :=
  ∀ p l, files.StillWritten root written p l → ∀ q ∈ Dict.keys written,
    files.boundaryResolve root q = .ok l → baselineEntry baseline p = baselineEntry baseline q

theorem CoherentWrites.due {files : Files} {root : Loc} {baseline : Baseline} {written : Written}
    (h : files.CoherentWrites root baseline (Dict.keys written)) :
    files.CoherentDue root baseline written :=
  fun p l ⟨_, hw, hl, _⟩ q hq hql => h p (Dict.fst_mem_keys hw) q hq l hl hql

/-- Restoring an attempt puts back the baseline of every written path that still
holds the attempt's write, and touches no other file. -/
theorem restoreAttemptWrites_due {files files' : Files} {denied : Loc → Bool} {root : Loc}
    {baseline : Baseline} {written : Written}
    (h : files.restoreAttemptWrites denied root baseline written = (files', none))
    (hcoherent : files.CoherentDue root baseline written) :
    Touches files files' (fun l => ∃ path, files.StillWritten root written path l) ∧
    ∀ path l, files.StillWritten root written path l →
      Restored files files' l (baselineEntry baseline path) := by
  unfold restoreAttemptWrites at h
  split at h
  · cases h
  next eligible helig =>
    obtain ⟨hmem, hsub, -⟩ := eligibleWrites_ok helig
    constructor
    · refine (restoreEditBaseline_touches h).mono fun l hl => ?_
      obtain ⟨⟨path, entry⟩, hin, hres⟩ := hl
      obtain ⟨applied, target, hw, ht, htext, -⟩ := (hmem path entry).mp hin
      rw [ht] at hres
      cases hres
      exact ⟨path, applied, hw, ht, htext⟩
    · rintro path l ⟨applied, hw, hl, htext⟩
      have hin : (path, baselineEntry baseline path) ∈ eligible :=
        (hmem path _).mpr ⟨applied, l, hw, hl, htext, rfl⟩
      have hitems : files.Coherent root eligible := by
        intro p hp q hq l' hpl hql
        obtain ⟨appliedP, there, hpw, hpt, hptext, hpe⟩ := (hmem p.1 p.2).mp hp
        obtain ⟨_, _, -, -, -, hqe⟩ := (hmem q.1 q.2).mp hq
        rw [hpl] at hpt
        cases hpt
        rw [hpe, hqe]
        exact hcoherent p.1 l' ⟨appliedP, hpw, hpl, hptext⟩ q.1
          (hsub.subset (Dict.fst_mem_keys hq)) hql
      obtain ⟨target, ht, hrestored⟩ := restoreEditBaseline_restores h hitems _ hin
      rw [hl] at ht
      cases ht
      exact hrestored

theorem restoreAttemptWrites_ok {files files' : Files} {denied : Loc → Bool} {root : Loc}
    {baseline : Baseline} {written : Written}
    (h : files.restoreAttemptWrites denied root baseline written = (files', none))
    (hcoherent : files.CoherentWrites root baseline (Dict.keys written)) :
    Touches files files' (fun l => ∃ path, files.StillWritten root written path l) ∧
    ∀ path l, files.StillWritten root written path l →
      Restored files files' l (baselineEntry baseline path) :=
  restoreAttemptWrites_due h hcoherent.due

/-- An entry that already stands there is left alone, whatever happens. -/
theorem restoreEntry_same {files files' : Files} {denied : Loc → Bool} {root : Loc} {path : String}
    {entry : FileBaseline} (h : files.restoreEntry denied root path entry = .ok files')
    (hback : ∀ l, files.boundaryResolve root path = .ok l →
      files.readTextOrNone l = .ok entry.content ∧
        ∀ mode, entry.mode = some mode → entry.content ≠ none →
          (files.fileAt l).map Prod.snd = some mode) : files' = files := by
  unfold restoreEntry at h
  split at h
  · cases h
  next target ht =>
    obtain ⟨hread, hmode⟩ := hback target ht
    cases hc : entry.content with
    | none =>
      rw [hc, readTextOrNone_eq_none, contentAt, Option.map_eq_none_iff] at hread
      simp only [hc, hread, Option.isSome_none, Bool.false_eq_true, if_false] at h
      split at h
      · cases h
      · cases h
        rfl
    | some content =>
      rw [hc] at hread
      simp only [hc, hread, if_true] at h
      split at h
      next mode bytes currentMode hm hfile =>
        have hsame : currentMode = mode := by
          simpa [hfile] using hmode mode hm (by simp [hc])
        simp only [hsame, if_true] at h
        cases h
        rfl
      next =>
        cases h
        rfl

theorem restoreEditBaseline_same {denied : Loc → Bool} {root : Loc} {items : Baseline}
    {files : Files}
    (hback : ∀ item ∈ items, ∀ l, files.boundaryResolve root item.1 = .ok l →
      files.readTextOrNone l = .ok item.2.content ∧
        ∀ mode, item.2.mode = some mode → item.2.content ≠ none →
          (files.fileAt l).map Prod.snd = some mode) :
    (files.restoreEditBaseline denied root items).1 = files := by
  induction items with
  | nil => rfl
  | cons item items ih =>
    obtain ⟨path, entry⟩ := item
    unfold restoreEditBaseline
    split
    · rfl
    next files' hfiles =>
      have hsame := restoreEntry_same hfiles (hback (path, entry) (by simp))
      rw [hsame]
      exact ih fun item hitem => hback item (List.mem_cons_of_mem _ hitem)

/-- Restoring an attempt a second time changes nothing. -/
theorem restoreAttemptWrites_again {files files' : Files} {denied denied' : Loc → Bool}
    {root : Loc} {baseline : Baseline} {written : Written}
    (h : files.restoreAttemptWrites denied root baseline written = (files', none))
    (hcoherent : files.CoherentDue root baseline written)
    (hstable : ∀ path, StableText (baselineEntry baseline path).content) :
    (files'.restoreAttemptWrites denied' root baseline written).1 = files' := by
  obtain ⟨htouch, hrestored⟩ := restoreAttemptWrites_due h hcoherent
  unfold restoreAttemptWrites
  split
  · rfl
  next eligible helig =>
    apply restoreEditBaseline_same
    intro item hitem l hl
    obtain ⟨hmem, -⟩ := eligibleWrites_ok helig
    obtain ⟨applied, target, hw, ht, htext, hentry⟩ := (hmem item.1 item.2).mp hitem
    rw [ht] at hl
    cases hl
    rw [htouch.boundaryResolve_eq] at ht
    by_cases hstill : ∃ path, files.StillWritten root written path l
    · obtain ⟨path, hpath⟩ := hstill
      have hback := hrestored path l hpath
      have hsame : baselineEntry baseline path = item.2 := by
        rw [hentry]
        exact hcoherent path l hpath item.1 (Dict.fst_mem_keys hw) ht
      rw [hsame] at hback
      exact ⟨hback.reads (hsame ▸ hstable path), hback.mode⟩
    · rw [htouch.readTextOrNone_eq hstill] at htext
      exact absurd ⟨item.1, applied, hw, ht, htext⟩ hstill

/-! ## Contents by path -/

/-- The raw content of the file a path names. -/
def contentOf (files : Files) (root : Loc) (path : String) : Option Content :=
  match files.resolve root path with
  | .ok l => files.contentAt l
  | .error _ => none

theorem fileText_eq (files : Files) (root : Loc) (path : String) :
    files.fileText root path =
      match files.contentOf root path with
      | some content => content.readText.map some
      | none => .ok none := by
  unfold fileText contentOf
  cases files.resolve root path with
  | error e => rfl
  | ok l => exact readTextOrNone_eq files l

theorem fileText_congr {files files' : Files} {root : Loc} {path : String}
    (h : files'.contentOf root path = files.contentOf root path) :
    files'.fileText root path = files.fileText root path := by
  rw [fileText_eq, fileText_eq, h]

theorem contentOf_of_boundary {files : Files} {root target : Loc} {path : String}
    (h : files.boundaryResolve root path = .ok target) :
    files.contentOf root path = files.contentAt target := by
  simp [contentOf, (boundaryResolve_ok h).1]

theorem fileText_written {files : Files} {root : Loc} {path : String} {text : Option String}
    (h : files.contentOf root path = text.map .utf8) :
    files.fileText root path = .ok (readBack text) := by
  rw [fileText_eq, h]
  cases text with
  | none => rfl
  | some t => rfl

theorem stableText_of_fileText {files : Files} {root : Loc} {path : String} {text : Option String}
    (h : files.fileText root path = .ok text) : StableText text := by
  unfold fileText at h
  split at h
  · exact stableText_of_read h
  · cases h
    rfl

/-- The locations that the paths of a list name. -/
def PathsAt (files : Files) (root : Loc) (paths : List String) (l : Loc) : Prop :=
  ∃ p ∈ paths, files.boundaryResolve root p = .ok l

theorem Touches.contentOf_eq {files files' : Files} {targets : Loc → Prop}
    (h : Touches files files' targets) {root : Loc} {path : String}
    (hfree : ∀ l, files.resolve root path = .ok l → ¬ targets l) :
    files'.contentOf root path = files.contentOf root path := by
  unfold contentOf
  rw [h.resolve_eq]
  cases hr : files.resolve root path with
  | error e => rfl
  | ok l => exact h.contentAt_eq (hfree l hr)

/-- Changing the files of some paths leaves the file of another path alone. -/
theorem Touches.contentOf_of_distinct {files files' : Files} {root : Loc} {paths : List String}
    (h : Touches files files' (files.PathsAt root paths)) {path : String} (all : List String)
    (hdistinct : files.DistinctFiles root all) (hpath : path ∈ all) (hsub : paths ⊆ all)
    (hnot : path ∉ paths) : files'.contentOf root path = files.contentOf root path := by
  apply h.contentOf_eq
  rintro l hl ⟨p, hp, hres⟩
  have hsame : p = path := hdistinct p (hsub hp) path hpath l (boundaryResolve_ok hres).1 hl
  exact hnot (hsame ▸ hp)

theorem pathsAt_congr {files files' : Files} (h : files'.linkAt = files.linkAt) (root : Loc)
    (paths : List String) : files'.PathsAt root paths = files.PathsAt root paths := by
  funext l
  simp only [PathsAt, boundaryResolve_congr h]

/-- The regular file a path names. -/
def fileOf (files : Files) (root : Loc) (path : String) : Option (Content × Nat) :=
  match files.resolve root path with
  | .ok l => files.fileAt l
  | .error _ => none

theorem fileOf_of_boundary {files : Files} {root target : Loc} {path : String}
    (h : files.boundaryResolve root path = .ok target) :
    files.fileOf root path = files.fileAt target := by
  simp [fileOf, (boundaryResolve_ok h).1]

theorem contentOf_eq_fileOf (files : Files) (root : Loc) (path : String) :
    files.contentOf root path = (files.fileOf root path).map Prod.fst := by
  unfold contentOf fileOf
  cases files.resolve root path <;> rfl

/-- Undoing an attempt changes the files of the paths it wrote only. -/
theorem restoreAttemptWrites_frame (files : Files) (denied : Loc → Bool) (root : Loc)
    (baseline : Baseline) (written : Written) :
    Touches files (files.restoreAttemptWrites denied root baseline written).1
      (files.PathsAt root (Dict.keys written)) := by
  unfold restoreAttemptWrites
  split
  · exact Touches.refl _ _
  next eligible heligible =>
    refine (restoreEditBaseline_frame files denied root eligible).mono ?_
    rintro l ⟨item, hitem, hl⟩
    exact ⟨item.1, (eligibleWrites_ok heligible).2.1.subset (Dict.fst_mem_keys hitem), hl⟩

/-! ## Baselines of a tree -/

/-- The recorded baseline of a path is the text and the mode of its file. -/
theorem fileBaseline_ok {files : Files} {root : Loc} {path : String} {entry : FileBaseline}
    (h : files.fileBaseline root path = .ok entry) :
    files.fileText root path = .ok entry.content ∧
      (files.fileOf root path).map Prod.snd = entry.mode := by
  unfold fileBaseline at h
  split at h
  · cases h
  next target ht =>
    rw [fileText_of_boundary ht, fileOf_of_boundary ht]
    split at h
    next content mode hfile =>
      split at h
      next text htext =>
        cases h
        exact ⟨by rw [readTextOrNone_of_fileAt hfile, htext]; rfl, by rw [hfile]; rfl⟩
      · cases h
    next hfile =>
      split at h
      · cases h
      · cases h
        exact ⟨readTextOrNone_of_none hfile, by rw [hfile]; rfl⟩

theorem snapshotEditBaseline_ok {files : Files} {root : Loc} {edits : List FileEdit}
    {old baseline : Baseline} (h : files.snapshotEditBaseline root old edits = .ok baseline)
    (path : String) :
    files.fileBaseline root path = .ok (baselineEntry baseline path) ∨
      path ∉ edits.map FileEdit.path ∧ baseline.get? path = old.get? path := by
  induction edits generalizing old with
  | nil =>
    cases h
    exact .inr ⟨by simp, rfl⟩
  | cons edit edits ih =>
    unfold snapshotEditBaseline at h
    split at h
    · cases h
    next entry hentry =>
      rcases ih h with hmade | ⟨hnot, hsame⟩
      · exact .inl hmade
      · by_cases hpath : path = edit.path
        · subst hpath
          left
          rw [hentry, baselineEntry, hsame, Dict.get?_set_self]
          rfl
        · refine .inr ⟨by simp [hpath, hnot], ?_⟩
          rw [hsame, Dict.get?_set_of_ne _ _ hpath]

/-- A fresh baseline has the texts and modes of the tree for the edits' paths,
and nothing for other paths. -/
theorem baselineEntry_fresh {files : Files} {root : Loc} {edits : List FileEdit}
    {baseline : Baseline} (h : files.snapshotEditBaseline root [] edits = .ok baseline)
    (path : String) :
    files.fileBaseline root path = .ok (baselineEntry baseline path) ∨
      path ∉ edits.map FileEdit.path ∧ baselineEntry baseline path = ⟨none, none⟩ := by
  rcases snapshotEditBaseline_ok h path with hmade | ⟨hnot, hsame⟩
  · exact .inl hmade
  · right
    exact ⟨hnot, by rw [baselineEntry, hsame]; rfl⟩

/-! ## Messages -/

theorem hashMatches_message {files : Files} {sha256 : Content → String} {strict : Bool}
    {edit : FileEdit} {target : Loc} {e : PyError}
    (h : files.hashMatches sha256 strict edit target = .error e) : e.message ≠ "" := by
  unfold hashMatches at h
  repeat' split at h
  all_goals cases h
  all_goals simp [PyError.message, toString]

theorem applyEdit_message {files : Files} {sha256 : Content → String} {denied : Loc → Bool}
    {root : Loc} {strict : Bool} {edit : FileEdit} {e : PyError}
    (h : files.applyEdit sha256 denied root strict edit = .error e) : e.message ≠ "" := by
  unfold applyEdit at h
  split at h
  next hresolve =>
    cases h
    exact boundaryResolve_message hresolve
  · split at h
    · split at h
      · split at h
        next hhash =>
          cases h
          exact hashMatches_message hhash
        · exact unlink_message h
      · cases h
    · split at h
      · cases h
        simp [PyError.message, toString]
      · split at h
        next hread =>
          cases h
          exact readTextOrNone_message hread
        · split at h
          · cases h
          · split at h
            next hhash =>
              cases h
              exact hashMatches_message hhash
            · exact writeFile_message h

end Files

end EvoCI
