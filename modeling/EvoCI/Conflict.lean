import EvoCI.Apply

/-! An attempt that ends in a conflict: which files its restore puts back, and
which it leaves alone. -/

namespace EvoCI

open Library

/-- The baseline texts are as text-mode reads return them. -/
def StableBaseline (baseline : Baseline) : Prop :=
  ∀ path, StableText (baselineEntry baseline path).content

theorem baselineEntry_content (baseline : Baseline) (path : String) :
    (baselineEntry baseline path).content = baselineContent baseline path := by
  unfold baselineEntry baselineContent
  cases baseline.get? path with
  | none => rfl
  | some entry => rfl

/-! ## The `written` map -/

theorem keys_writtenAfter_nodup (written : Written) (edits : List FileEdit)
    (h : (Dict.keys written).Nodup) : (Dict.keys (writtenAfter written edits)).Nodup := by
  induction edits generalizing written with
  | nil => exact h
  | cons edit edits ih => exact ih _ (Dict.keys_set_nodup written edit.path edit.content h)

/-- Every item of the map comes from an edit the loop got past. -/
theorem get?_writtenAfter_some {written : Written} {edits : List FileEdit} {path : String}
    {text : Option String} (h : Dict.get? (writtenAfter written edits) path = some text) :
    Dict.get? written path = some text ∨
      ∃ edit ∈ edits, edit.path = path ∧ edit.content = text := by
  induction edits generalizing written with
  | nil => exact .inl h
  | cons edit edits ih =>
    have hlater : Dict.get? (writtenAfter (written.set edit.path edit.content) edits) path =
        some text := h
    rcases ih hlater with hw | ⟨other, hin, hp, ht⟩
    · rw [Dict.get?_set] at hw
      split at hw
      next heq =>
        cases hw
        exact .inr ⟨edit, by simp, heq.symm, rfl⟩
      · exact .inl hw
    · exact .inr ⟨other, by simp [hin], hp, ht⟩

theorem mem_keys_writtenAfter {written : Written} {edits : List FileEdit} {edit : FileEdit}
    (h : edit ∈ edits ∨ edit.path ∈ Dict.keys written) :
    edit.path ∈ Dict.keys (writtenAfter written edits) := by
  induction edits generalizing written with
  | nil =>
    rcases h with h | h
    · cases h
    · exact h
  | cons first edits ih =>
    refine ih ?_
    rcases h with hin | hin
    · rcases List.mem_cons.mp hin with rfl | hin
      · exact .inr ((Dict.mem_keys_set _ _ _ _).mpr (.inl rfl))
      · exact .inl hin
    · exact .inr ((Dict.mem_keys_set _ _ _ _).mpr (.inr hin))

/-! ## A conflict in the loop -/

/-- How a loop that raised got there: it finished `before`, and stopped at an
edit that is not on disk, though it may be marked as written. -/
structure Stopped (ctx : ApplyContext) (edits : List FileEdit) (a a' : Attempt)
    (before : List FileEdit) (edit : FileEdit) (after : List FileEdit) (mid : Attempt) : Prop where
  split : edits = before ++ edit :: after
  finished : applyLoop ctx none before a = .finished mid
  notPast : ∀ past, applyIteration ctx none edit mid ≠ .finished past
  files : a'.files = mid.files
  writes : a'.writes = mid.writes
  written : a'.written = mid.written ∨
    a'.written = mid.written.set edit.path edit.content ∧
      mid.files.fileText ctx.root edit.path = .ok (baselineContent ctx.baseline edit.path) ∧
      edit.content ≠ baselineContent ctx.baseline edit.path

theorem stopped_of_raised {ctx : ApplyContext} {edits : List FileEdit} {a a' : Attempt}
    {e : PyError} (h : applyLoop ctx none edits a = .raised e a') :
    ∃ before edit after mid, Stopped ctx edits a a' before edit after mid := by
  obtain ⟨before, edit, after, mid, hsplit, hloop, hstop⟩ := applyLoop_raised h
  obtain ⟨hfiles, hwrites, hwritten⟩ := applyIteration_raised hstop
  exact ⟨before, edit, after, mid, hsplit, hloop, fun past hp => by simp [hp] at hstop, hfiles,
    hwrites, hwritten⟩

/-- No edit up to and including this one stops the loop. -/
def Passes (ctx : ApplyContext) (edits : List FileEdit) (a : Attempt) (edit : FileEdit) : Prop :=
  ∃ before after mid, edits = before ++ edit :: after ∧
    applyLoop ctx none (before ++ [edit]) a = .finished mid

section Stopped

variable {ctx : ApplyContext} {edits before after : List FileEdit} {a a' mid : Attempt}
  {edit : FileEdit}

theorem Stopped.passes_iff (h : Stopped ctx edits a a' before edit after mid) (other : FileEdit) :
    Passes ctx edits a other ↔ other ∈ before := by
  constructor
  · rintro ⟨pre, post, past, hsplit, hloop⟩
    have hpre : pre ++ [other] <+: edits := ⟨post, by rw [hsplit]; simp⟩
    have hbefore : before ++ [edit] <+: edits := ⟨after, by rw [h.split]; simp⟩
    by_cases hlen : (pre ++ [other]).length ≤ before.length
    · have hin : pre ++ [other] <+: before := List.prefix_of_prefix_length_le hpre
        ((List.prefix_append before [edit]).trans hbefore) hlen
      exact hin.subset (by simp)
    · exfalso
      have hle : (before ++ [edit]).length ≤ (pre ++ [other]).length := by
        simp only [List.length_append, List.length_singleton] at hlen ⊢
        omega
      obtain ⟨rest, hrest⟩ := List.prefix_of_prefix_length_le hbefore hpre hle
      rw [← hrest] at hloop
      obtain ⟨last, hlast, -⟩ := applyLoop_append_finished hloop
      obtain ⟨mid', hmid', hlast⟩ := applyLoop_append_finished hlast
      rw [h.finished] at hmid'
      cases hmid'
      obtain ⟨past', hpast, -⟩ := applyLoop_cons_finished hlast
      exact h.notPast past' hpast
  · intro hin
    obtain ⟨pre, post, rfl⟩ := List.append_of_mem hin
    have hloop := h.finished
    rw [show pre ++ other :: post = (pre ++ [other]) ++ post by simp] at hloop
    obtain ⟨last, hlast, -⟩ := applyLoop_append_finished hloop
    exact ⟨pre, post ++ edit :: after, last, by rw [h.split]; simp, hlast⟩

theorem Stopped.before_sublist (h : Stopped ctx edits a a' before edit after mid) :
    (before.map FileEdit.path).Sublist (edits.map FileEdit.path) := by
  rw [h.split, List.map_append]
  exact List.sublist_append_left _ _

theorem Stopped.edit_mem (h : Stopped ctx edits a a' before edit after mid) : edit ∈ edits := by
  rw [h.split]
  simp

/-- The items of the `written` map are edits of the list. -/
theorem Stopped.written_mem (h : Stopped ctx edits a a' before edit after mid)
    (hstart : a.written = []) {path : String} {text : Option String}
    (hw : (path, text) ∈ a'.written) :
    ∃ other ∈ edits, other.path = path ∧ other.content = text := by
  obtain ⟨-, -, -, -, -, -, -, hmid⟩ := applyLoop_finished h.finished
  have hnodup : (Dict.keys mid.written).Nodup := by
    rw [hmid, hstart]
    exact keys_writtenAfter_nodup [] before List.nodup_nil
  have hold : Dict.get? mid.written path = some text →
      ∃ other ∈ edits, other.path = path ∧ other.content = text := by
    intro hget
    rw [hmid, hstart] at hget
    rcases get?_writtenAfter_some hget with hnil | ⟨other, hin, hp, ht⟩
    · cases hnil
    · exact ⟨other, by rw [h.split]; simp [hin], hp, ht⟩
  rcases h.written with hsame | ⟨hset, -⟩
  · rw [hsame] at hw
    exact hold ((Dict.mem_iff_get? _ hnodup path text).mp hw)
  · rw [hset] at hw
    have hget := (Dict.mem_iff_get? _ (Dict.keys_set_nodup _ _ _ hnodup) path text).mp hw
    rw [Dict.get?_set] at hget
    split at hget
    next heq =>
      cases hget
      exact ⟨edit, h.edit_mem, heq.symm, rfl⟩
    · exact hold hget

theorem Stopped.keys_subset (h : Stopped ctx edits a a' before edit after mid)
    (hstart : a.written = []) : Dict.keys a'.written ⊆ edits.map FileEdit.path := by
  intro path hpath
  obtain ⟨⟨p, text⟩, hin, rfl⟩ := List.mem_map.mp hpath
  obtain ⟨other, hother, hp, -⟩ := h.written_mem hstart hin
  exact List.mem_map.mpr ⟨other, hother, hp⟩

end Stopped

/-! ## Distinct files -/

section Distinct

variable {ctx : ApplyContext} {edits before after : List FileEdit} {a a' mid : Attempt}
  {edit : FileEdit} {files : Files}

end Distinct

/-! ## Paths that may share files -/

section Shared

variable {ctx : ApplyContext} {edits before after : List FileEdit} {start a a' mid : Attempt}
  {edit : FileEdit} {files : Files}

/-- The file at `l` reads as the `written` map has it for one of its paths, which
is not what that path's baseline reads as. -/
def Tracked (ctx : ApplyContext) (start a : Attempt) (l : Loc) : Prop :=
  ∃ path text, Dict.get? a.written path = some text ∧
    start.files.boundaryResolve ctx.root path = .ok l ∧
    a.files.readTextOrNone l = .ok text ∧ text ≠ baselineContent ctx.baseline path

theorem CoherentWrites.content {paths : List String} {files : Files} {root : Loc}
    {baseline : Baseline} (h : files.CoherentWrites root baseline paths) {p q : String}
    (hp : p ∈ paths) (hq : q ∈ paths) {l : Loc} (hpl : files.boundaryResolve root p = .ok l)
    (hql : files.boundaryResolve root q = .ok l) :
    baselineContent baseline p = baselineContent baseline q := by
  rw [← baselineEntry_content, ← baselineEntry_content, h p hp q hq l hpl hql]

/-- A tracked file stays tracked: the loop does not write it again. -/
theorem applyIteration_tracked {all : List String}
    (hcoherent : start.files.CoherentWrites ctx.root ctx.baseline all)
    (hlinks : a.files.linkAt = start.files.linkAt) (hkeys : Dict.keys a.written ⊆ all)
    (hnodup : (Dict.keys a.written).Nodup) (hedit : edit.path ∈ all)
    (h : applyIteration ctx none edit a = .finished a') {l : Loc} (ht : Tracked ctx start a l) :
    Tracked ctx start a' l := by
  obtain ⟨path, text, hget, hpath, hread, hne⟩ := ht
  have hin : path ∈ all :=
    hkeys (Dict.fst_mem_keys ((Dict.mem_iff_get? _ hnodup path text).mpr hget))
  obtain ⟨-, current, htext, ⟨heq, rfl⟩ | ⟨hdiff, hbase, ledger, disk, -, hdisk, rfl⟩⟩ :=
    applyIteration_finished h
  · by_cases hsame : path = edit.path
    · subst hsame
      have hloc : a.files.boundaryResolve ctx.root edit.path = .ok l := by
        rw [Files.boundaryResolve_congr hlinks, hpath]
      have hcontent : edit.content = text := by
        rw [Files.fileText_of_boundary hloc, hread] at htext
        rw [← heq, ← Except.ok.inj htext]
      exact ⟨edit.path, text, by rw [hcontent]; exact Dict.get?_set_self _ _ _, hpath, hread, hne⟩
    · exact ⟨path, text, by rw [Dict.get?_set_of_ne _ _ hsame]; exact hget, hpath, hread, hne⟩
  · obtain ⟨target, htarget, htouch, -⟩ := Files.applyEdit_ok hdisk
    have hstart : start.files.boundaryResolve ctx.root edit.path = .ok target := by
      rw [← Files.boundaryResolve_congr hlinks, htarget]
    have hl : l ≠ target := by
      rintro rfl
      rw [Files.fileText_of_boundary htarget, hread] at htext
      apply hne
      rw [Except.ok.inj htext, hbase, CoherentWrites.content hcoherent hedit hin hstart hpath]
    have hsame : path ≠ edit.path := by
      rintro rfl
      rw [hpath] at hstart
      exact hl (Except.ok.inj hstart)
    exact ⟨path, text, by rw [Dict.get?_set_of_ne _ _ hsame]; exact hget, hpath,
      by rw [htouch.readTextOrNone_eq hl]; exact hread, hne⟩

/-- An edit that is found done, and not at its baseline, stays so until the loop
gets to it. -/
def FoundDone (ctx : ApplyContext) (start a : Attempt) (edits : List FileEdit) (l : Loc) : Prop :=
  ∃ edit ∈ edits, start.files.boundaryResolve ctx.root edit.path = .ok l ∧
    a.files.readTextOrNone l = .ok edit.content ∧
    edit.content ≠ baselineContent ctx.baseline edit.path

theorem applyIteration_foundDone {all : List String} {first : FileEdit}
    (hcoherent : start.files.CoherentWrites ctx.root ctx.baseline all)
    (hlinks : a.files.linkAt = start.files.linkAt) (hall : edits.map FileEdit.path ⊆ all)
    (hfirst : first.path ∈ all) (h : applyIteration ctx none first a = .finished a') {l : Loc}
    (hdone : FoundDone ctx start a (first :: edits) l) :
    Tracked ctx start a' l ∨ FoundDone ctx start a' edits l := by
  obtain ⟨edit, hedit, hloc, hread, hne⟩ := hdone
  have hedit' : edit.path ∈ all := by
    rcases List.mem_cons.mp hedit with rfl | hin
    · exact hfirst
    · exact hall (List.mem_map_of_mem hin)
  -- the file is not written again: the loop replaces baselines only
  have hkept : a'.files.readTextOrNone l = .ok edit.content := by
    rcases applyIteration_disk h with ⟨hfiles, -⟩ | ⟨target, htarget, htouch, -, -, htext, -⟩
    · rw [hfiles, hread]
    · rw [← hread]
      apply htouch.readTextOrNone_eq
      rintro rfl
      have htargetStart : start.files.boundaryResolve ctx.root first.path = .ok l := by
        rw [← Files.boundaryResolve_congr hlinks, htarget]
      rw [Files.fileText_of_boundary htarget, hread] at htext
      apply hne
      rw [Except.ok.inj htext, CoherentWrites.content hcoherent hfirst hedit' htargetStart hloc]
  rcases List.mem_cons.mp hedit with rfl | hin
  · left
    refine ⟨edit.path, edit.content, ?_, hloc, hkept, hne⟩
    obtain ⟨-, current, -, ⟨-, rfl⟩ | ⟨-, -, ledger, disk, -, -, rfl⟩⟩ :=
      applyIteration_finished h <;>
    exact Dict.get?_set_self _ _ _
  · exact .inr ⟨edit, hin, hloc, hkept, hne⟩

/-- Every file the loop wrote, or found as it wants it, is tracked. -/
theorem applyLoop_tracked {all : List String}
    (hcoherent : start.files.CoherentWrites ctx.root ctx.baseline all)
    (hlinks : a.files.linkAt = start.files.linkAt) (hkeys : Dict.keys a.written ⊆ all)
    (hnodup : (Dict.keys a.written).Nodup) (hall : edits.map FileEdit.path ⊆ all)
    (hstable : ∀ edit ∈ edits, StableText edit.content)
    (h : applyLoop ctx none edits a = .finished a') {new : List String}
    (hnew : a'.writes = a.writes ++ new) {l : Loc}
    (hl : Tracked ctx start a l ∨ FoundDone ctx start a edits l ∨
      start.files.PathsAt ctx.root new l) : Tracked ctx start a' l := by
  induction edits generalizing a new with
  | nil =>
    cases h
    have hnil : new = [] := by simpa using hnew
    rw [hnil] at hl
    rcases hl with ht | ⟨edit, hedit, -⟩ | ⟨p, hp, -⟩
    · exact ht
    · cases hedit
    · cases hp
  | cons first edits ih =>
    obtain ⟨next, hnext, hrest⟩ := applyLoop_cons_finished h
    have hfirst : first.path ∈ all := hall (by simp)
    have hlater : edits.map FileEdit.path ⊆ all := fun p hp => hall (List.mem_cons_of_mem _ hp)
    have hwritten : next.written = a.written.set first.path first.content := by
      obtain ⟨-, current, -, ⟨-, rfl⟩ | ⟨-, -, ledger, disk, -, -, rfl⟩⟩ :=
        applyIteration_finished hnext <;> rfl
    have hkeys' : Dict.keys next.written ⊆ all := by
      intro path hpath
      rw [hwritten] at hpath
      rcases (Dict.mem_keys_set _ _ _ _).mp hpath with rfl | hin
      · exact hfirst
      · exact hkeys hin
    have hnodup' : (Dict.keys next.written).Nodup := by
      rw [hwritten]
      exact Dict.keys_set_nodup _ _ _ hnodup
    have hlinks' : next.files.linkAt = start.files.linkAt := by
      rcases applyIteration_disk hnext with ⟨hf, -⟩ | ⟨target, -, ht, -⟩
      · rw [hf, hlinks]
      · rw [ht.links, hlinks]
    obtain ⟨later, hlaterWrites, -⟩ := applyLoop_finished hrest
    refine ih hlinks' hkeys' hnodup' hlater
      (fun e he => hstable e (List.mem_cons_of_mem _ he)) hrest hlaterWrites ?_
    rcases hl with ht | hdone | hpaths
    · exact .inl (applyIteration_tracked hcoherent hlinks hkeys hnodup hfirst hnext ht)
    · rcases applyIteration_foundDone hcoherent hlinks hlater hfirst hnext hdone with ht | hdone
      · exact .inl ht
      · exact .inr (.inl hdone)
    · rcases applyIteration_disk hnext with ⟨-, hw, -⟩ |
        ⟨target, htarget, htouch, hcontent, hw, -, hne⟩
      · rw [hlaterWrites, hw] at hnew
        rw [← List.append_cancel_left hnew] at hpaths
        exact .inr (.inr hpaths)
      · rw [hlaterWrites, hw, List.append_assoc] at hnew
        rw [← List.append_cancel_left hnew] at hpaths
        obtain ⟨p, hp, hres⟩ := hpaths
        rcases List.mem_append.mp hp with hone | hin
        · left
          rw [List.mem_singleton.mp hone] at hres
          rw [Files.boundaryResolve_congr hlinks, hres] at htarget
          cases htarget
          refine ⟨first.path, first.content, by rw [hwritten]; exact Dict.get?_set_self _ _ _,
            hres, ?_, hne⟩
          rw [Files.readTextOrNone_written hcontent, hstable first (by simp)]
        · exact .inr (.inr ⟨p, hin, hres⟩)

/-- What restoring a stopped attempt comes to, when every edit found done was
written by an earlier execution or is at its baseline anyway: files that no
execution wrote are as the attempt found them, and the files that the loop wrote,
or found written, are back at their baseline. -/
theorem Stopped.restored (h : Stopped ctx edits a a' before edit after mid)
    (hrestore : a'.files.restoreAttemptWrites ctx.denied ctx.root ctx.baseline a'.written =
      (files, none)) (hstart : a.written = [])
    (hcoherent : a.files.CoherentWrites ctx.root ctx.baseline (edits.map FileEdit.path))
    (hstable : ∀ edit ∈ edits, StableText edit.content) {prior : List String}
    (hown : ∀ edit ∈ edits, a.files.fileText ctx.root edit.path = .ok edit.content →
      edit.content = baselineContent ctx.baseline edit.path ∨
        ∀ l, a.files.boundaryResolve ctx.root edit.path = .ok l →
          a.files.PathsAt ctx.root prior l) {new : List String}
    (hnew : a'.writes = a.writes ++ new) :
    (∀ l, ¬ a.files.PathsAt ctx.root (prior ++ new) l →
        files.contentAt l = a.files.contentAt l) ∧
      ∀ other ∈ edits, other.path ∈ new ∨ other ∈ before ∧
          a.files.fileText ctx.root other.path = .ok other.content ∧
          other.content ≠ baselineContent ctx.baseline other.path →
        ∀ l, a.files.boundaryResolve ctx.root other.path = .ok l →
          files.contentAt l = (baselineContent ctx.baseline other.path).map .utf8 ∧
            ∀ mode, (baselineEntry ctx.baseline other.path).mode = some mode →
              baselineContent ctx.baseline other.path ≠ none →
                (files.fileAt l).map Prod.snd = some mode := by
  rw [h.writes] at hnew
  obtain ⟨new', hnew', -, hsub, htouch, -, -, hmidw⟩ := applyLoop_finished h.finished
  rw [hnew'] at hnew
  have hsame : new' = new := List.append_cancel_left hnew
  subst hsame
  have hlinks : a'.files.linkAt = a.files.linkAt := by rw [h.files, htouch.links]
  have hkeysAll := h.keys_subset hstart
  have hcoherent' : a'.files.CoherentWrites ctx.root ctx.baseline (Dict.keys a'.written) := by
    intro p hp q hq l hpl hql
    rw [Files.boundaryResolve_congr hlinks] at hpl hql
    exact hcoherent p (hkeysAll hp) q (hkeysAll hq) l hpl hql
  obtain ⟨htouch', hrestored⟩ := Files.restoreAttemptWrites_ok hrestore hcoherent'
  have hnodup : (Dict.keys mid.written).Nodup := by
    rw [hmidw, hstart]
    exact keys_writtenAfter_nodup [] before List.nodup_nil
  constructor
  · intro l hl
    have hnot : ¬ a.files.PathsAt ctx.root new' l := fun ⟨p, hp, hres⟩ =>
      hl ⟨p, List.mem_append_right _ hp, hres⟩
    have hmid : a'.files.contentAt l = a.files.contentAt l := by
      rw [h.files]
      exact htouch.contentAt_eq hnot
    rw [← hmid]
    by_cases hstill : ∃ path, a'.files.StillWritten ctx.root a'.written path l
    · obtain ⟨path, hpath⟩ := hstill
      refine (hrestored path l hpath).kept ?_
      obtain ⟨applied, hw, hres, htext⟩ := hpath
      obtain ⟨other, hother, hp, ht⟩ := h.written_mem hstart hw
      have hloc : a.files.boundaryResolve ctx.root other.path = .ok l := by
        rw [hp, ← Files.boundaryResolve_congr hlinks, hres]
      have hfound : a.files.fileText ctx.root other.path = .ok other.content := by
        rw [Files.fileText_of_boundary hloc, Files.readTextOrNone_eq, ← hmid,
          ← Files.readTextOrNone_eq, htext, ht]
      rcases hown other hother hfound with hbase | hprior
      · rw [htext, ← ht, hbase, baselineEntry_content, hp]
      · -- an earlier execution wrote here
        obtain ⟨p, hp, hres⟩ := hprior l hloc
        exact absurd ⟨p, List.mem_append_left _ hp, hres⟩ hl
    · exact htouch'.contentAt_eq hstill
  · intro other hother hwrote l hl
    have hpin : other.path ∈ edits.map FileEdit.path := List.mem_map_of_mem hother
    have htracked : FoundDone ctx a a before l ∨ a.files.PathsAt ctx.root new' l := by
      rcases hwrote with hin | ⟨hin, htext, hne⟩
      · exact .inr ⟨other.path, hin, hl⟩
      · rw [Files.fileText_of_boundary hl] at htext
        exact .inl ⟨other, hin, hl, htext, hne⟩
    obtain ⟨path, text, hget, hpath, hread, hne⟩ := applyLoop_tracked hcoherent rfl
      (by rw [hstart]; exact List.nil_subset _) (by rw [hstart]; exact List.nodup_nil)
      h.before_sublist.subset (fun e he => hstable e (by rw [h.split]; simp [he])) h.finished hnew'
      (.inr htracked)
    have hin : (path, text) ∈ a'.written := by
      rcases h.written with hw | ⟨hset, htext, -⟩
      · rw [hw]
        exact (Dict.mem_iff_get? _ hnodup _ _).mpr hget
      · rw [hset]
        refine (Dict.mem_iff_get? _ (Dict.keys_set_nodup _ _ _ hnodup) _ _).mpr ?_
        rw [Dict.get?_set_of_ne _ _ ?_]
        · exact hget
        · rintro rfl
          rw [Files.fileText_of_boundary (by rw [htouch.boundaryResolve_eq, hpath]), hread] at htext
          exact hne (Except.ok.inj htext)
    have hstill : a'.files.StillWritten ctx.root a'.written path l :=
      ⟨text, hin, by rw [Files.boundaryResolve_congr hlinks, hpath], by rw [h.files]; exact hread⟩
    have hr := hrestored path l hstill
    have hentry : baselineEntry ctx.baseline path = baselineEntry ctx.baseline other.path :=
      hcoherent path (hkeysAll (Dict.fst_mem_keys hin)) other.path hpin l hpath hl
    rw [hentry] at hr
    constructor
    · rw [← baselineEntry_content]
      apply hr.replaced
      rw [h.files, hread, baselineEntry_content,
        ← CoherentWrites.content hcoherent (hkeysAll (Dict.fst_mem_keys hin)) hpin hpath hl]
      exact fun heq => hne (Except.ok.inj heq)
    · rw [← baselineEntry_content]
      exact hr.mode

theorem Stopped.links (h : Stopped ctx edits a a' before edit after mid)
    (hrestore : a'.files.restoreAttemptWrites ctx.denied ctx.root ctx.baseline a'.written =
      (files, none)) (hstart : a.written = [])
    (hcoherent : a.files.CoherentWrites ctx.root ctx.baseline (edits.map FileEdit.path)) :
    files.linkAt = a.files.linkAt := by
  obtain ⟨new, -, -, -, htouch, -⟩ := applyLoop_finished h.finished
  have hlinks : a'.files.linkAt = a.files.linkAt := by rw [h.files, htouch.links]
  have hkeysAll := h.keys_subset hstart
  obtain ⟨htouch', -⟩ := Files.restoreAttemptWrites_ok hrestore (by
    intro p hp q hq l hpl hql
    rw [Files.boundaryResolve_congr hlinks] at hpl hql
    exact hcoherent p (hkeysAll hp) q (hkeysAll hq) l hpl hql)
  rw [htouch'.links, hlinks]

/-- A file that no execution wrote, and that stands at the baseline of every edit
that names it, is left as it is. -/
theorem Stopped.fileAt_kept (h : Stopped ctx edits a a' before edit after mid)
    (hrestore : a'.files.restoreAttemptWrites ctx.denied ctx.root ctx.baseline a'.written =
      (files, none)) (hstart : a.written = [])
    (hcoherent : a.files.CoherentWrites ctx.root ctx.baseline (edits.map FileEdit.path))
    {new : List String} (hnew : a'.writes = a.writes ++ new) {l : Loc}
    (hfree : ¬ a.files.PathsAt ctx.root new l)
    (hbase : ∀ other ∈ edits, a.files.boundaryResolve ctx.root other.path = .ok l →
      a.files.readTextOrNone l = .ok (baselineContent ctx.baseline other.path) ∧
        (a.files.fileAt l).map Prod.snd = (baselineEntry ctx.baseline other.path).mode) :
    files.fileAt l = a.files.fileAt l := by
  rw [h.writes] at hnew
  obtain ⟨new', hnew', -, -, htouch, -⟩ := applyLoop_finished h.finished
  rw [hnew'] at hnew
  have hsame : new' = new := List.append_cancel_left hnew
  subst hsame
  have hlinks : a'.files.linkAt = a.files.linkAt := by rw [h.files, htouch.links]
  have hkeysAll := h.keys_subset hstart
  have hcoherent' : a'.files.CoherentWrites ctx.root ctx.baseline (Dict.keys a'.written) := by
    intro p hp q hq l hpl hql
    rw [Files.boundaryResolve_congr hlinks] at hpl hql
    exact hcoherent p (hkeysAll hp) q (hkeysAll hq) l hpl hql
  obtain ⟨htouch', hrestored⟩ := Files.restoreAttemptWrites_ok hrestore hcoherent'
  have hmid : a'.files.fileAt l = a.files.fileAt l := by
    rw [h.files]
    exact htouch.fileAt_eq hfree
  by_cases hstill : ∃ path, a'.files.StillWritten ctx.root a'.written path l
  · obtain ⟨path, hpath⟩ := hstill
    have hr := hrestored path l hpath
    obtain ⟨applied, hw, hres, -⟩ := hpath
    obtain ⟨other, hother, rfl, -⟩ := h.written_mem hstart hw
    rw [Files.boundaryResolve_congr hlinks] at hres
    obtain ⟨htext, hmode⟩ := hbase other hother hres
    have hread : a'.files.readTextOrNone l =
        .ok (baselineEntry ctx.baseline other.path).content := by
      rw [baselineEntry_content, ← htext, Files.readTextOrNone_eq, Files.readTextOrNone_eq,
        Files.contentAt, hmid, ← Files.contentAt]
    have hcontent : files.contentAt l = a.files.contentAt l := by
      rw [hr.kept hread, Files.contentAt, hmid, ← Files.contentAt]
    cases hfile : a.files.fileAt l with
    | none =>
      have hnone : files.contentAt l = none := by rw [hcontent, Files.contentAt, hfile]; rfl
      simpa [Files.contentAt] using hnone
    | some found =>
      obtain ⟨content, mode⟩ := found
      rw [hfile] at hmode
      have hne : (baselineEntry ctx.baseline other.path).content ≠ none := by
        intro hnone
        rw [baselineEntry_content] at hnone
        rw [hnone, Files.readTextOrNone_eq_none, Files.contentAt, hfile] at htext
        cases htext
      have hmode' := hr.mode mode hmode.symm hne
      have hcontent' : (files.fileAt l).map Prod.fst = some content := by
        have hc := hcontent
        rw [Files.contentAt, Files.contentAt, hfile] at hc
        exact hc
      cases hafter : files.fileAt l with
      | none =>
        rw [hafter] at hcontent'
        cases hcontent'
      | some found =>
        rw [hafter] at hcontent' hmode'
        exact congrArg some (Prod.ext (Option.some.inj hcontent') (Option.some.inj hmode'))
  · rw [htouch'.fileAt_eq hstill, hmid]

/-- Every edit the loop got past names a file inside the workspace. -/
theorem Stopped.inside (h : Stopped ctx edits a a' before edit after mid)
    (hrestore : a'.files.restoreAttemptWrites ctx.denied ctx.root ctx.baseline a'.written =
      (files, none)) {other : FileEdit} (hother : other ∈ before) :
    ∃ l, a.files.boundaryResolve ctx.root other.path = .ok l := by
  obtain ⟨new, -, -, -, htouch, -, -, hmidw⟩ := applyLoop_finished h.finished
  have hkey : other.path ∈ Dict.keys a'.written := by
    have hmid : other.path ∈ Dict.keys mid.written := by
      rw [hmidw]
      exact mem_keys_writtenAfter (.inl hother)
    rcases h.written with hsame | ⟨hset, -⟩
    · rw [hsame]
      exact hmid
    · rw [hset]
      exact (Dict.mem_keys_set _ _ _ _).mpr (.inr hmid)
  obtain ⟨item, hitem, hpath⟩ := List.mem_map.mp hkey
  unfold Files.restoreAttemptWrites at hrestore
  split at hrestore
  · cases hrestore
  next eligible helig =>
    obtain ⟨l, -, hl, -⟩ := (Files.eligibleWrites_ok helig).2.2 item hitem
    refine ⟨l, ?_⟩
    rw [← Files.boundaryResolve_congr (show a'.files.linkAt = a.files.linkAt by
      rw [h.files, htouch.links]), ← hpath]
    exact hl

end Shared

end EvoCI
