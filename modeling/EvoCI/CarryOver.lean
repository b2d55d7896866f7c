import EvoCI.Collect
import EvoCI.Snapshot
import Mathlib.Data.List.Infix

/-! Applying the collected edits to the source: what the file of a recorded path
holds afterwards, as a function of what it and its staged file held. -/

namespace EvoCI

open Library

/-- `apply_edits`. -/
def Files.applyEdits (files : Files) (sha256 : Content → String) (denied : Loc → Bool) (root : Loc)
    (hashStrict : Bool) : List FileEdit → Except PyError Files
  | [] => .ok files
  | edit :: edits =>
    match files.applyEdit sha256 denied root hashStrict edit with
    | .error e => .error e
    | .ok files' => files'.applyEdits sha256 denied root hashStrict edits

/-! ## Contents -/

def SameBytes (before after : Option Content) : Prop :=
  before.map Content.bytes = after.map Content.bytes

/-- The edit of a path whose source and staged file hold these contents. -/
def editFor (sha256 : Content → String) (path : String) (before after : Option Content) :
    Option FileEdit :=
  match after with
  | none => before.map fun content => .remove path (some (sha256 content))
  | some content =>
    match content.readText with
    | .error _ => none
    | .ok text =>
      if before.map Content.bytes = some (encode text) then none
      else some (.replace path text (before.map sha256))

/-- What the source's file holds once that edit is applied: an edit whose text the
source already reads as is skipped, and the text of the others is written. -/
def carried (before after : Option Content) : Option Content :=
  match after with
  | none => none
  | some content =>
    match content.readText with
    | .error _ => before
    | .ok text =>
      if before.map Content.readText = some (.ok text) then before else some (.utf8 text)

/-- Text mode loses nothing on the way: the staged text has no carriage returns, and
the source does not differ from it in line endings alone. -/
def Clean (before after : Option Content) : Prop :=
  ∀ content, after = some content → ∃ text, content = .utf8 text ∧ Stable text ∧
    before.map Content.readText ≠ some (.ok text)

/-- A text with the bytes of a read is the read itself. -/
theorem readText_of_bytes {before : Option Content} {content : Content} {text : String}
    (hread : content.readText = .ok text) (hbefore : ∀ raw, before ≠ some (.binary raw))
    (h : before.map Content.bytes = some (encode text)) :
    before.map Content.readText = some (.ok text) := by
  cases before with
  | none => cases h
  | some found =>
    cases found with
    | binary raw => exact absurd rfl (hbefore raw)
    | utf8 old =>
      have hold : old = text := encode_injective (Option.some.inj h)
      rw [hold, Option.map_some, readText_stable (stable_of_readText hread)]

theorem carried_of_read {before : Option Content} {content : Content} {text : String}
    (hread : content.readText = .ok text) : carried before (some content) =
      if before.map Content.readText = some (.ok text) then before else some (.utf8 text) := by
  simp [carried, hread]

theorem carried_of_error {before : Option Content} {content : Content} {e : PyError}
    (hread : content.readText = .error e) : carried before (some content) = before := by
  simp [carried, hread]

/-- Clean contents are carried over byte for byte. -/
theorem carried_same {before after : Option Content}
    (h : SameBytes before after ∨ Clean before after)
    (hbefore : ∀ raw, before ≠ some (.binary raw)) : SameBytes (carried before after) after := by
  cases after with
  | none => rfl
  | some content =>
    rcases h with hsame | hclean
    · cases hread : content.readText with
      | error e =>
        rw [carried_of_error hread]
        exact hsame
      | ok text =>
        have hbytes : before.map Content.bytes = some content.bytes := hsame
        have hskip : before.map Content.readText = some (.ok text) := by
          cases before with
          | none => cases hbytes
          | some found =>
            cases found with
            | binary raw => exact absurd rfl (hbefore raw)
            | utf8 old =>
              cases content with
              | binary raw => cases hread
              | utf8 new =>
                have hold : old = new := encode_injective (Option.some.inj hbytes)
                rw [hold, Option.map_some, hread]
        rw [carried_of_read hread, if_pos hskip]
        exact hsame
    · obtain ⟨text, rfl, hstable, hne⟩ := hclean content rfl
      rw [carried_of_read (readText_stable hstable), if_neg hne]
      rfl

/-! ## One path -/

theorem resolveRegularFile_ok {files : Files} {root target : Loc} {path : String} {mustExist : Bool}
    (h : files.resolveRegularFile root path mustExist = .ok target) :
    files.boundaryResolve root path = .ok target ∧ isAbsolute path = false ∧
      ".." ∉ pathParts path ∧ files.linkAt target = none ∧
      (files.pathExists root target = true → files.fileAt target ≠ none) ∧
      (mustExist = true → files.pathExists root target = true) := by
  unfold Files.resolveRegularFile at h
  split at h
  · cases h
  next hrelative =>
    split at h
    · cases h
    · split at h
      · cases h
      next found hfound =>
        split at h
        · cases h
        next hexists =>
          split at h
          · cases h
          next hlink =>
            split at h
            · cases h
            next hregular =>
              cases h
              refine ⟨hfound, ?_, fun hdots => hrelative (.inr hdots), ?_, ?_, ?_⟩
              · exact Bool.not_eq_true _ ▸ fun habsolute => hrelative (.inl habsolute)
              · exact Option.not_isSome_iff_eq_none.mp hlink
              · exact fun hin hnone => hregular ⟨hin, hnone⟩
              · intro hmust
                by_contra hnot
                exact hexists ⟨hmust, Bool.not_eq_true _ ▸ hnot⟩

namespace Files

theorem contentAt_of_none {files : Files} {l : Loc} (h : files l = none) :
    files.contentAt l = none := by
  simp [contentAt, fileAt, h]

/-- A regular file or nothing at all, and not the root. -/
def Vacant (files : Files) (root l : Loc) : Prop :=
  l ≠ root ∧ (files.fileAt l = none → files l = none)

theorem Vacant.isDir {files : Files} {root l : Loc} (h : files.Vacant root l) :
    files.isDir root l = false := by
  unfold Files.isDir
  split
  next hdir =>
    have hnone := h.2 (by simp [fileAt, hdir])
    rw [hdir] at hnone
    cases hnone
  · simp [h.1]

theorem Vacant.pathExists {files : Files} {root l : Loc} (h : files.Vacant root l) :
    files.pathExists root l = (files.contentAt l).isSome := by
  unfold Files.pathExists contentAt
  cases hfile : files.fileAt l with
  | none => simp [h.2 hfile, h.1]
  | some entry =>
    have hsome : files l ≠ none := by
      intro hnone
      simp [fileAt, hnone] at hfile
    cases hl : files l with
    | none => exact absurd hl hsome
    | some e => simp

theorem vacant_of_regular {files : Files} {root target : Loc} {path : String} {mustExist : Bool}
    (h : files.resolveRegularFile root path mustExist = .ok target)
    (hroot : files.fileAt root = none) : files.Vacant root target := by
  obtain ⟨-, -, -, -, hregular, -⟩ := resolveRegularFile_ok h
  refine ⟨?_, ?_⟩
  · rintro rfl
    exact hregular (by simp [Files.pathExists]) hroot
  · intro hfile
    by_contra hne
    exact hregular (by simp [Files.pathExists, Option.isSome_iff_ne_none.mpr hne]) hfile

end Files

/-- Both trees hold a regular file or nothing at a path that is collected. -/
structure StagedPair.Found (p : StagedPair) (l t : Loc) : Prop where
  source : p.source.Vacant p.sourceRoot l
  staging : p.staging.Vacant p.stagingRoot t
  text : ∀ content, p.staging.contentAt t = some content → ∃ text, content.readText = .ok text

theorem collectPath_ok {p : StagedPair} {path : String} {bytes total : Nat} {edit : Option FileEdit}
    (h : p.collectPath path bytes = .ok (edit, total)) {l t : Loc}
    (hl : p.source.resolve p.sourceRoot path = .ok l)
    (ht : p.staging.resolve p.stagingRoot path = .ok t)
    (hsource : p.source.fileAt p.sourceRoot = none)
    (hstaging : p.staging.fileAt p.stagingRoot = none) :
    edit = editFor p.sha256 path (p.source.contentAt l) (p.staging.contentAt t) ∧ p.Found l t := by
  unfold StagedPair.collectPath at h
  split at h
  · cases h
  next l' hl' =>
    have hsame : l' = l := by
      have hres := (Files.boundaryResolve_ok (resolveRegularFile_ok hl').1).1
      rw [hl] at hres
      exact (Except.ok.inj hres).symm
    subst hsame
    split at h
    · cases h
    next t' ht' =>
      have hsame : t' = t := by
        have hres := (Files.boundaryResolve_ok (resolveRegularFile_ok ht').1).1
        rw [ht] at hres
        exact (Except.ok.inj hres).symm
      subst hsame
      have hfound := Files.vacant_of_regular hl' hsource
      have hstaged := Files.vacant_of_regular ht' hstaging
      simp only at h
      split at h
      next before hbefore hafter =>
        cases h
        refine ⟨by simp [editFor, hbefore, hafter], hfound, hstaged, ?_⟩
        rw [hafter]
        simp
      next hbefore hafter =>
        cases h
        refine ⟨by simp [editFor, hbefore, hafter], hfound, hstaged, ?_⟩
        rw [hafter]
        simp
      next before after hafter =>
        split at h
        · cases h
        next text htext =>
          have hread : ∀ content, p.staging.contentAt t' = some content →
              ∃ text, content.readText = .ok text := by
            intro content hcontent
            rw [hafter] at hcontent
            cases hcontent
            exact ⟨text, htext⟩
          split at h
          next hbytes =>
            cases h
            exact ⟨by simp [editFor, hafter, htext, hbytes], hfound, hstaged, hread⟩
          next hbytes =>
            split at h
            · cases h
            · cases h
              exact ⟨by simp [editFor, hafter, htext, hbytes], hfound, hstaged, hread⟩

/-- Where a file may be written: no regular file stands above it. -/
theorem Files.writeFile_open {files : Files} {denied : Loc → Bool} {root l : Loc}
    {path content : String} (hl : files.boundaryResolve root path = .ok l)
    (hopen : files.parentBlocked l = false) (hvacant : files.Vacant root l)
    (hdenied : denied l = false) : files.writeFile denied root path content none =
      .ok ((files.mkdirParents l).put l
        (.file (.utf8 content) ((files.fileAt l).elim newFileMode Prod.snd))) := by
  simp [Files.writeFile, hl, hopen, hvacant.isDir, hdenied]

/-- What the edit of one path makes of the files. -/
structure Edited (files files' : Files) (l : Loc) (before after : Option Content) : Prop where
  links : files'.linkAt = files.linkAt
  elsewhere : ∀ l', l' ≠ l → files' l' = files l' ∨
    files l' = none ∧ files' l' = some (.dir Files.newDirMode) ∧ l' <+: l ∧ after ≠ none
  vacant : files'.fileAt l = none → files' l = none
  content : files'.contentAt l = carried before after

theorem Edited.same {files : Files} {l : Loc} {before after : Option Content}
    (hvacant : files.fileAt l = none → files l = none)
    (h : files.contentAt l = carried before after) : Edited files files l before after :=
  ⟨rfl, fun _ _ => .inl rfl, hvacant, h⟩

/-- A write of the text that is carried over. -/
theorem Edited.written {files : Files} {root l : Loc} {before : Option Content} {content : Content}
    {text : String} {mode : Nat} (hl : ∃ path, files.boundaryResolve root path = .ok l)
    (hvacant : files.Vacant root l) (hread : content.readText = .ok text)
    (hne : before.map Content.readText ≠ some (.ok text)) :
    Edited files ((files.mkdirParents l).put l (.file (.utf8 text) mode)) l before
      (some content) := by
  obtain ⟨path, hl⟩ := hl
  obtain ⟨hres, hroot⟩ := Files.boundaryResolve_ok hl
  have hlink := Files.linkAt_of_resolve hres hroot hvacant.1
  refine ⟨?_, fun l' hne' => ?_, fun hnone => ?_, ?_⟩
  · rw [Files.linkAt_put _ _ _ (by rw [Files.linkAt_mkdirParents]; exact hlink),
      Files.linkAt_mkdirParents]
  · rw [Files.put_of_ne _ _ hne']
    rcases Files.mkdirParents_cases files l l' with hs | ⟨hn, hd, hle, -⟩
    · exact .inl hs
    · exact .inr ⟨hn, hd, hle, by simp⟩
  · rw [Files.fileAt_put, if_pos rfl] at hnone
    cases hnone
  · rw [carried_of_read hread, if_neg hne]
    simp [Files.contentAt, Files.fileAt_put]

theorem hashMatches_source {files : Files} {sha256 : Content → String} {hashStrict : Bool}
    {edit : FileEdit} {l : Loc} (h : edit.expectedSha256 = (files.contentAt l).map sha256) :
    files.hashMatches sha256 hashStrict edit l = .ok () := by
  unfold Files.hashMatches
  rw [h]
  unfold Files.contentAt Files.fileAt
  split
  · rfl
  next expected hexpected =>
    split
    · rfl
    · split at hexpected
      next content mode hfile =>
        simp only [Option.map_some, Option.some.injEq] at hexpected
        rw [hfile]
        simp [hexpected]
      · simp at hexpected

section Edit

variable {files : Files} {sha256 : Content → String} {root l : Loc} {path : String}
  {hashStrict : Bool}

theorem applyEdits_one (edit : FileEdit) :
    files.applyEdits sha256 (fun _ => false) root hashStrict [edit] =
      files.applyEdit sha256 (fun _ => false) root hashStrict edit := by
  unfold Files.applyEdits
  split
  next h => exact h.symm
  next h => exact h.symm

theorem applyEdit_remove_gone (hl : files.boundaryResolve root path = .ok l)
    (hvacant : files.Vacant root l) (hgone : files.contentAt l = none) (sha : Option String) :
    files.applyEdit sha256 (fun _ => false) root hashStrict (.remove path sha) = .ok files := by
  have hmissing : files.pathExists root l = false := by
    rw [hvacant.pathExists, hgone]
    rfl
  simp [Files.applyEdit, FileEdit.remove, hl, hmissing]

theorem applyEdit_remove_present (hl : files.boundaryResolve root path = .ok l)
    (hvacant : files.Vacant root l) {content : Content}
    (hpresent : files.contentAt l = some content) :
    files.applyEdit sha256 (fun _ => false) root hashStrict
      (.remove path (some (sha256 content))) = .ok (files.remove l) := by
  have hexists : files.pathExists root l = true := by
    rw [hvacant.pathExists, hpresent]
    rfl
  have hhash : files.hashMatches sha256 hashStrict (.remove path (some (sha256 content))) l =
      .ok () := hashMatches_source (by rw [hpresent]; rfl)
  have hunlink : files.unlink (fun _ => false) root l = .ok (files.remove l) := by
    simp [Files.unlink, hvacant.isDir]
  have hpath : (FileEdit.remove path (some (sha256 content))).path = path := rfl
  have hnone : (FileEdit.remove path (some (sha256 content))).content = none := rfl
  unfold Files.applyEdit
  rw [hpath, hl]
  simp only [hnone, if_pos hexists, hhash, hunlink]

theorem applyEdit_replace_same (hl : files.boundaryResolve root path = .ok l)
    (hvacant : files.Vacant root l) {text : String}
    (hread : files.readTextOrNone l = .ok (some text)) (sha : Option String) :
    files.applyEdit sha256 (fun _ => false) root hashStrict (.replace path text sha) =
      .ok files := by
  simp [Files.applyEdit, FileEdit.replace, hl, hvacant.isDir, hread]

theorem applyEdit_replace_written (hl : files.boundaryResolve root path = .ok l)
    (hvacant : files.Vacant root l) (hopen : files.parentBlocked l = false) {text : String}
    {current : Option String} (hread : files.readTextOrNone l = .ok current)
    (hne : current ≠ some text) :
    ∃ mode, files.applyEdit sha256 (fun _ => false) root hashStrict
        (.replace path text ((files.contentAt l).map sha256)) =
      .ok ((files.mkdirParents l).put l (.file (.utf8 text) mode)) := by
  refine ⟨(files.fileAt l).elim Files.newFileMode Prod.snd, ?_⟩
  have hhash : files.hashMatches sha256 hashStrict
      (.replace path text ((files.contentAt l).map sha256)) l = .ok () := hashMatches_source rfl
  have hwrite := @Files.writeFile_open files (fun _ => false) root l path text hl hopen hvacant rfl
  have hpath : (FileEdit.replace path text ((files.contentAt l).map sha256)).path = path := rfl
  have hsome : (FileEdit.replace path text ((files.contentAt l).map sha256)).content =
      some text := rfl
  unfold Files.applyEdit
  rw [hpath, hl]
  simp [hsome, hvacant.isDir, hread, hne, hhash, hwrite]

/-- Applying the edit of a path, if it has one, carries its file over; the files may
already be as the edit leaves them. -/
theorem applyEdit_editFor {before after : Option Content}
    (hl : files.boundaryResolve root path = .ok l) (hvacant : files.Vacant root l)
    (hcontent : files.contentAt l = before ∨ files.contentAt l = carried before after)
    (hopen : after ≠ none → files.parentBlocked l = false)
    (hbefore : ∀ raw, before ≠ some (.binary raw))
    (htext : ∀ content, after = some content → ∃ text, content.readText = .ok text) :
    ∃ files', files.applyEdits sha256 (fun _ => false) root hashStrict
        (editFor sha256 path before after).toList = .ok files' ∧
      Edited files files' l before after := by
  cases after with
  | none =>
    cases before with
    | none =>
      refine ⟨files, rfl, Edited.same hvacant.2 ?_⟩
      rcases hcontent with h | h <;> exact h
    | some old =>
      have hedit : (editFor sha256 path (some old) none).toList =
          [.remove path (some (sha256 old))] := rfl
      rw [hedit, applyEdits_one]
      by_cases hpresent : files.contentAt l = some old
      · refine ⟨files.remove l, applyEdit_remove_present hl hvacant hpresent, ?_⟩
        have hgone : files.remove l l = none := by simp [Files.remove]
        have hlink : files.linkAt l = none := by
          obtain ⟨hres, hroot⟩ := Files.boundaryResolve_ok hl
          exact Files.linkAt_of_resolve hres hroot hvacant.1
        refine ⟨Files.linkAt_remove files hlink,
          fun l' hne => .inl (Files.remove_of_ne files hne), fun _ => hgone, ?_⟩
        simp [Files.contentAt, Files.fileAt, hgone, carried]
      · have hgone : files.contentAt l = none := hcontent.resolve_left hpresent
        exact ⟨files, applyEdit_remove_gone hl hvacant hgone _,
          Edited.same hvacant.2 (by rw [hgone]; rfl)⟩
  | some content =>
    obtain ⟨text, hread⟩ := htext content rfl
    have hcarried := @carried_of_read before content text hread
    by_cases hbytes : before.map Content.bytes = some (encode text)
    · have hedit : editFor sha256 path before (some content) = none := by
        simp [editFor, hread, hbytes]
      rw [if_pos (readText_of_bytes hread hbefore hbytes)] at hcarried
      rw [hedit]
      refine ⟨files, rfl, Edited.same hvacant.2 ?_⟩
      rw [hcarried] at hcontent ⊢
      exact hcontent.elim id id
    · have hedit : (editFor sha256 path before (some content)).toList =
          [.replace path text (before.map sha256)] := by
        simp [editFor, hread, hbytes]
      rw [hedit, applyEdits_one]
      by_cases hskip : before.map Content.readText = some (.ok text)
      · -- the source reads as the text already
        rw [if_pos hskip] at hcarried
        rw [hcarried] at hcontent
        have hsame : files.contentAt l = before := hcontent.elim id id
        refine ⟨files, applyEdit_replace_same hl hvacant ?_ _,
          Edited.same hvacant.2 (hsame.trans hcarried.symm)⟩
        rw [Files.readTextOrNone_eq, hsame]
        cases before with
        | none => cases hskip
        | some old =>
          have hold : old.readText = .ok text := Option.some.inj hskip
          simp [hold, Except.map]
      · rw [if_neg hskip] at hcarried
        by_cases hwritten : files.contentAt l = some (.utf8 text)
        · -- another spelling of the path has had its edit applied
          refine ⟨files, applyEdit_replace_same hl hvacant ?_ _,
            Edited.same hvacant.2 (hwritten.trans hcarried.symm)⟩
          rw [Files.readTextOrNone_eq, hwritten]
          simp [readText_stable (stable_of_readText hread), Except.map]
        · have hsame : files.contentAt l = before := by
            rcases hcontent with h | h
            · exact h
            · exact absurd (h.trans hcarried) hwritten
          have hcurrent : ∃ current, files.readTextOrNone l = .ok current ∧
              current ≠ some text := by
            rw [Files.readTextOrNone_eq, hsame]
            cases before with
            | none => exact ⟨none, rfl, by simp⟩
            | some old =>
              cases old with
              | binary raw => exact absurd rfl (hbefore raw)
              | utf8 old =>
                refine ⟨some _, rfl, fun heq => hskip ?_⟩
                rw [Option.map_some, Content.readText, Option.some.inj heq]
          obtain ⟨current, hcurrent, hne⟩ := hcurrent
          obtain ⟨mode, happly⟩ := @applyEdit_replace_written files sha256 root l path hashStrict hl
            hvacant (hopen (by simp)) text current hcurrent hne
          rw [hsame] at happly
          exact ⟨_, happly, Edited.written ⟨path, hl⟩ hvacant hread hskip⟩

end Edit

/-! ## All paths -/

namespace StagedPair

def sourceAt (p : StagedPair) (path : String) : Loc := p.sourceRoot ++ pathParts path

def stagingAt (p : StagedPair) (path : String) : Loc := p.stagingRoot ++ pathParts path

/-- The contents that the edit of a path is made from. -/
def before (p : StagedPair) (path : String) : Option Content := p.source.contentAt (p.sourceAt path)

def after (p : StagedPair) (path : String) : Option Content :=
  p.staging.contentAt (p.stagingAt path)

/-- Paths whose edits can be applied one after another. -/
structure Appliable (p : StagedPair) (paths : List String) : Prop where
  tree : IsTree p.staging p.stagingRoot
  resolved : ∀ path ∈ paths, p.source.boundaryResolve p.sourceRoot path = .ok (p.sourceAt path)
  found : ∀ path ∈ paths, p.Found (p.sourceAt path) (p.stagingAt path)
  utf8 : ∀ path ∈ paths, ∀ raw, p.before path ≠ some (.binary raw)
  unblocked : ∀ path ∈ paths, p.after path ≠ none → p.source.parentBlocked (p.sourceAt path) = false

end StagedPair

theorem Files.parentBlocked_eq_false {files : Files} {target : Loc} :
    files.parentBlocked target = false ↔
      ∀ l, l <+: target → l ≠ target → files.fileAt l = none := by
  simp [Files.parentBlocked, List.mem_inits]

/-- Files on the way from the source to what the recorded paths carry over, once the
paths of `done` have had their edits applied. -/
structure Carrying (p : StagedPair) (paths done : List String) (files : Files) : Prop where
  links : files.linkAt = p.source.linkAt
  elsewhere : ∀ l, (∀ path ∈ done, l ≠ p.sourceAt path) →
    files l = p.source l ∨ p.source l = none ∧ files l = some (.dir Files.newDirMode)
  vacant : ∀ path ∈ paths, files.fileAt (p.sourceAt path) = none → files (p.sourceAt path) = none
  either : ∀ path ∈ paths, files.contentAt (p.sourceAt path) = p.before path ∨
    files.contentAt (p.sourceAt path) = carried (p.before path) (p.after path)
  done : ∀ path ∈ done,
    files.contentAt (p.sourceAt path) = carried (p.before path) (p.after path)

theorem Carrying.start {p : StagedPair} {paths : List String} (h : p.Appliable paths) :
    Carrying p paths [] p.source :=
  ⟨rfl, fun _ _ => .inl rfl, fun path hpath => (h.found path hpath).source.2,
    fun _ _ => .inl rfl, by simp⟩

/-- No recorded path lies above one whose file is staged. -/
theorem StagedPair.Appliable.above {p : StagedPair} {paths : List String} (h : p.Appliable paths)
    {path other : String} (hother : other ∈ paths) (hafter : p.after path ≠ none)
    (hle : p.sourceAt other <+: p.sourceAt path) : p.sourceAt other = p.sourceAt path := by
  obtain ⟨rel, hrel⟩ := hle
  have hparts : pathParts other ++ rel = pathParts path := by
    unfold StagedPair.sourceAt at hrel
    rw [List.append_assoc] at hrel
    exact List.append_cancel_left hrel
  by_cases hnil : rel = []
  · rw [← hrel, hnil, List.append_nil]
  · exfalso
    have hbelow : p.stagingAt other ++ rel = p.stagingAt path := by
      unfold StagedPair.stagingAt
      rw [List.append_assoc, hparts]
    have hentry : p.staging (p.stagingAt other ++ rel) ≠ none := by
      intro hnone
      rw [hbelow] at hnone
      exact hafter (Files.contentAt_of_none hnone)
    obtain ⟨mode, hdir⟩ : ∃ mode, p.staging (p.stagingAt other) = some (.dir mode) :=
      h.tree.below (List.prefix_append _ _) rel hnil hentry
    have hnone := (h.found other hother).staging.2 (by simp [Files.fileAt, hdir])
    rw [hdir] at hnone
    cases hnone

/-- Applying the edit of one path. -/
theorem Carrying.step {p : StagedPair} {paths done : List String} {files : Files}
    (happliable : p.Appliable paths) (h : Carrying p paths done files) (hdone : done ⊆ paths)
    {path : String} (hpath : path ∈ paths) (hashStrict : Bool) :
    ∃ files', files.applyEdits p.sha256 (fun _ => false) p.sourceRoot hashStrict
        (editFor p.sha256 path (p.before path) (p.after path)).toList = .ok files' ∧
      Carrying p paths (path :: done) files' := by
  have hresolved : files.boundaryResolve p.sourceRoot path = .ok (p.sourceAt path) := by
    rw [Files.boundaryResolve_congr h.links]
    exact happliable.resolved path hpath
  have hvacant : files.Vacant p.sourceRoot (p.sourceAt path) :=
    ⟨(happliable.found path hpath).source.1, h.vacant path hpath⟩
  have hopen : p.after path ≠ none → files.parentBlocked (p.sourceAt path) = false := by
    intro hafter
    rw [Files.parentBlocked_eq_false]
    intro l hle hne
    have hother : ∀ other ∈ done, l ≠ p.sourceAt other := by
      rintro other hother rfl
      exact hne (happliable.above (hdone hother) hafter hle)
    have hfree := Files.parentBlocked_eq_false.mp (happliable.unblocked path hpath hafter) l hle hne
    rcases h.elsewhere l hother with hs | ⟨-, hd⟩
    · simpa [Files.fileAt, hs] using hfree
    · simp [Files.fileAt, hd]
  obtain ⟨files', happly, hedited⟩ := @applyEdit_editFor files p.sha256 _ _ path hashStrict _ _
    hresolved hvacant (h.either path hpath) hopen (happliable.utf8 path hpath)
    (happliable.found path hpath).text
  have hsame : ∀ other ∈ paths, p.sourceAt other ≠ p.sourceAt path →
      files' (p.sourceAt other) = files (p.sourceAt other) := by
    intro other hother hne
    rcases hedited.elsewhere _ hne with hs | ⟨-, -, hle, hafter⟩
    · exact hs
    · exact absurd (happliable.above hother hafter hle) hne
  have hspelled : ∀ other, p.sourceAt other = p.sourceAt path →
      files'.contentAt (p.sourceAt other) = carried (p.before other) (p.after other) := by
    intro other heq
    have hparts : pathParts other = pathParts path := List.append_cancel_left heq
    have hstaged : p.stagingAt other = p.stagingAt path := by
      unfold StagedPair.stagingAt
      rw [hparts]
    unfold StagedPair.before StagedPair.after
    rw [heq, hstaged]
    exact hedited.content
  refine ⟨files', happly, hedited.links.trans h.links, ?_, ?_, ?_, ?_⟩
  · intro l hl
    have hne : l ≠ p.sourceAt path := hl path List.mem_cons_self
    have hbefore := h.elsewhere l fun other hother => hl other (List.mem_cons_of_mem _ hother)
    rcases hedited.elsewhere l hne with hs | ⟨hn, hd, -⟩
    · rw [hs]
      exact hbefore
    · rcases hbefore with hs | ⟨-, hd'⟩
      · exact .inr ⟨hs.symm.trans hn, hd⟩
      · rw [hn] at hd'
        cases hd'
  · intro other hother
    by_cases heq : p.sourceAt other = p.sourceAt path
    · rw [heq]
      exact hedited.vacant
    · have hs := hsame other hother heq
      unfold Files.fileAt
      rw [hs]
      exact h.vacant other hother
  · intro other hother
    by_cases heq : p.sourceAt other = p.sourceAt path
    · exact .inr (hspelled other heq)
    · unfold Files.contentAt Files.fileAt
      rw [hsame other hother heq]
      exact h.either other hother
  · intro other hother
    by_cases heq : p.sourceAt other = p.sourceAt path
    · exact hspelled other heq
    · have hin : other ∈ done := by
        rcases List.mem_cons.mp hother with rfl | hin
        · exact absurd rfl heq
        · exact hin
      unfold Files.contentAt Files.fileAt
      rw [hsame other (hdone hin) heq]
      exact h.done other hin

theorem applyEdits_append {files files' : Files} {sha256 : Content → String} {denied : Loc → Bool}
    {root : Loc} {hashStrict : Bool} {first : List FileEdit} (rest : List FileEdit)
    (h : files.applyEdits sha256 denied root hashStrict first = .ok files') :
    files.applyEdits sha256 denied root hashStrict (first ++ rest) =
      files'.applyEdits sha256 denied root hashStrict rest := by
  induction first generalizing files with
  | nil =>
    cases h
    rfl
  | cons edit first ih =>
    unfold Files.applyEdits at h
    split at h
    · cases h
    next mid hmid =>
      rw [List.cons_append, Files.applyEdits, hmid]
      exact ih h

/-- The edits that are collected for the paths, in order. -/
def StagedPair.editsFor (p : StagedPair) (paths : List String) : List FileEdit :=
  paths.flatMap fun path => (editFor p.sha256 path (p.before path) (p.after path)).toList

/-- Applying the edits of the paths one after another. -/
theorem Carrying.run {p : StagedPair} {paths done rest : List String} {files : Files}
    (happliable : p.Appliable paths) (h : Carrying p paths done files) (hdone : done ⊆ paths)
    (hrest : rest ⊆ paths) (hashStrict : Bool) :
    ∃ files', files.applyEdits p.sha256 (fun _ => false) p.sourceRoot hashStrict
        (p.editsFor rest) = .ok files' ∧ Carrying p paths (rest.reverse ++ done) files' := by
  induction rest generalizing done files with
  | nil => exact ⟨files, rfl, h⟩
  | cons path rest ih =>
    obtain ⟨hpath, hrest⟩ := List.cons_subset.mp hrest
    obtain ⟨mid, hmid, hstep⟩ := h.step happliable hdone hpath hashStrict
    obtain ⟨files', hfiles', hfinal⟩ := ih hstep (List.cons_subset.mpr ⟨hpath, hdone⟩) hrest
    refine ⟨files', ?_, ?_⟩
    · unfold StagedPair.editsFor
      rw [List.flatMap_cons, applyEdits_append _ hmid]
      exact hfiles'
    · rw [List.reverse_cons, List.append_assoc]
      exact hfinal

/-- Paths that name the same place in both trees, below directories. -/
structure StagedPair.Direct (p : StagedPair) (paths : List String) : Prop where
  sourceRoot : p.source.fileAt p.sourceRoot = none
  stagingRoot : p.staging.fileAt p.stagingRoot = none
  source : ∀ path ∈ paths, p.source.resolve p.sourceRoot path = .ok (p.sourceAt path)
  staging : ∀ path ∈ paths, p.staging.resolve p.stagingRoot path = .ok (p.stagingAt path)

theorem collectPaths_ok {p : StagedPair} {paths : List String} (hdirect : p.Direct paths)
    {bytes : Nat} {edits : List FileEdit} (h : p.collectPaths paths bytes = .ok edits) :
    edits = p.editsFor paths ∧ ∀ path ∈ paths, p.Found (p.sourceAt path) (p.stagingAt path) := by
  induction paths generalizing bytes edits with
  | nil =>
    cases h
    exact ⟨rfl, by simp⟩
  | cons path paths ih =>
    have hrest : p.Direct paths :=
      ⟨hdirect.sourceRoot, hdirect.stagingRoot,
        fun other hother => hdirect.source other (List.mem_cons_of_mem _ hother),
        fun other hother => hdirect.staging other (List.mem_cons_of_mem _ hother)⟩
    unfold StagedPair.collectPaths at h
    split at h
    · cases h
    next edit total hpath =>
      split at h
      · cases h
      next rest hcollected =>
        cases h
        obtain ⟨hedit, hfound⟩ := collectPath_ok hpath (hdirect.source path List.mem_cons_self)
          (hdirect.staging path List.mem_cons_self) hdirect.sourceRoot hdirect.stagingRoot
        obtain ⟨hedits, hall⟩ := ih hrest hcollected
        refine ⟨?_, ?_⟩
        · rw [hedit, hedits]
          rfl
        · intro other hother
          rcases List.mem_cons.mp hother with rfl | hother
          · exact hfound
          · exact hall other hother

/-- Collected edits carry every recorded path over when they are applied to the source. -/
theorem collectStagedEdits_applied {p : StagedPair} {paths : List String} {edits : List FileEdit}
    (h : p.collectStagedEdits paths = .ok edits) (hnames : "" ∉ paths) (hdirect : p.Direct paths)
    (htree : IsTree p.staging p.stagingRoot)
    (hutf8 : ∀ path ∈ paths, ∀ raw, p.before path ≠ some (.binary raw))
    (hunblocked : (∀ path ∈ paths, p.Found (p.sourceAt path) (p.stagingAt path)) →
      ∀ path ∈ paths, p.after path ≠ none → p.source.parentBlocked (p.sourceAt path) = false)
    (hashStrict : Bool) :
    ∃ files', p.source.applyEdits p.sha256 (fun _ => false) p.sourceRoot hashStrict edits =
        .ok files' ∧
      (∀ path ∈ paths,
        files'.contentAt (p.sourceAt path) = carried (p.before path) (p.after path)) ∧
      ∀ l, (∀ path ∈ paths, l ≠ p.sourceAt path) → files'.contentAt l = p.source.contentAt l := by
  unfold StagedPair.collectStagedEdits at h
  simp only at h
  split at h
  · cases h
  · have hall : ∀ path, path ∈ sortedPaths (paths.filter (· ≠ "")) ↔ path ∈ paths := by
      intro path
      rw [mem_sortedPaths, List.mem_filter]
      refine ⟨fun hin => hin.1, fun hin => ⟨hin, ?_⟩⟩
      simp only [ne_eq, decide_not, Bool.not_eq_true', decide_eq_false_iff_not]
      rintro rfl
      exact hnames hin
    have hsorted : p.Direct (sortedPaths (paths.filter (· ≠ ""))) :=
      ⟨hdirect.sourceRoot, hdirect.stagingRoot, fun path hin => hdirect.source path
        ((hall path).mp hin),
        fun path hin => hdirect.staging path ((hall path).mp hin)⟩
    obtain ⟨hedits, hfound⟩ := collectPaths_ok hsorted h
    have hfoundAll : ∀ path ∈ paths, p.Found (p.sourceAt path) (p.stagingAt path) :=
      fun path hin => hfound path ((hall path).mpr hin)
    have happliable : p.Appliable (sortedPaths (paths.filter (· ≠ ""))) := by
      refine ⟨htree, fun path hin => ?_, hfound, fun path hin => hutf8 path ((hall path).mp hin),
        fun path hin => hunblocked hfoundAll path ((hall path).mp hin)⟩
      exact Files.boundaryResolve_of_resolve (hsorted.source path hin) (List.prefix_append _ _)
    obtain ⟨files', happlied, hfinal⟩ := (Carrying.start happliable).run happliable
      (List.nil_subset _) (List.Subset.refl _) hashStrict
    rw [← hedits] at happlied
    refine ⟨files', happlied, fun path hin => hfinal.done path ?_, fun l hl => ?_⟩
    · rw [List.append_nil, List.mem_reverse]
      exact (hall path).mpr hin
    · have hother : ∀ path ∈ (sortedPaths (paths.filter (· ≠ ""))).reverse ++ [],
          l ≠ p.sourceAt path := by
        intro path hin
        rw [List.append_nil, List.mem_reverse] at hin
        exact hl path ((hall path).mp hin)
      rcases hfinal.elsewhere l hother with hs | ⟨hn, hd⟩
      · simp [Files.contentAt, Files.fileAt, hs]
      · simp [Files.contentAt, Files.fileAt, hn, hd]

end EvoCI
