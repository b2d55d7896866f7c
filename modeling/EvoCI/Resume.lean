import EvoCI.Apply

/-! Executions of the write loop that are killed and started over by a new
process, against one execution that is not interrupted. -/

namespace EvoCI

open Library

/-- What a new process finds of an attempt: the disk, the event log and the
ghost logs, but neither the budget in memory nor the `written` map. -/
def Attempt.restart (a : Attempt) : Attempt :=
  { a with ledger := a.ledger.restart, written := [] }

/-- `apply_candidate` killed at each crash point in turn and resumed after each. -/
def applyResumed (ctx : ApplyContext) (edits : List FileEdit) :
    List CrashPoint → Attempt → ApplyResult
  | [], a => applyEdits ctx none edits a
  | c :: crashes, a =>
    match applyEdits ctx (some c) edits a with
    | .killed a' => applyResumed ctx edits crashes a'.restart
    | other => other

/-- The edit's file does not read as the edit's content. -/
def NeedsWrite (ctx : ApplyContext) (files : Files) (edit : FileEdit) : Prop :=
  files.fileText ctx.root edit.path ≠ .ok edit.content

/-- No crash falls between charging an edit and writing it, and no edit written
before a crash reads back differently. The number is the index the earlier
executions got to. -/
def SafeCrashes (ctx : ApplyContext) (files : Files) (edits : List FileEdit) :
    Nat → List CrashPoint → Prop
  | _, [] => True
  | reached, c :: crashes =>
    (c.stage = .idle ∨ c.index < reached ∨
        ∀ edit, edits[c.index]? = some edit → ¬ NeedsWrite ctx files edit) ∧
      (∀ edit ∈ edits.take c.index, NeedsWrite ctx files edit → StableText edit.content) ∧
      SafeCrashes ctx files edits (max reached c.index) crashes

theorem applyEdits_applied {ctx : ApplyContext} {crash : Option CrashPoint}
    {edits : List FileEdit} {a a' : Attempt} (h : applyEdits ctx crash edits a = .applied a') :
    applyLoop ctx crash edits a = .finished a' := by
  unfold applyEdits at h
  split at h
  next hloop =>
    cases h
    exact hloop
  · cases h
  · split at h
    · cases h
    · split at h <;> cases h

theorem applyEdits_killed {ctx : ApplyContext} {crash : Option CrashPoint}
    {edits : List FileEdit} {a a' : Attempt} :
    applyEdits ctx crash edits a = .killed a' ↔ applyLoop ctx crash edits a = .killed a' := by
  unfold applyEdits
  split
  next hloop => simp [hloop]
  next hloop => simp [hloop]
  next hloop =>
    simp only [hloop, reduceCtorEq, iff_false]
    split
    · simp
    · split <;> simp

/-- A loop given a crash point never finishes. -/
theorem applyLoop_crash_not_finished {ctx : ApplyContext} {edits : List FileEdit} {c : CrashPoint}
    {a a' : Attempt} : applyLoop ctx (some c) edits a ≠ .finished a' := by
  induction edits generalizing c a with
  | nil => simp [applyLoop]
  | cons edit edits ih =>
    intro h
    obtain ⟨index, stage⟩ := c
    simp only [applyLoop] at h
    split at h
    next mid hmid =>
      cases index with
      | zero => simpa [crashHere] using (applyIteration_finished hmid).1
      | succ index => exact ih h
    next other hother => exact hother a' h

/-! ## The same disk with at least as much room -/

/-- `a` stands where `b` does and may make at least the tool calls `b` may. -/
structure Abreast (a b : Attempt) : Prop where
  files : a.files = b.files
  charges : a.charges = b.charges
  writes : a.writes = b.writes
  room : b.ledger.room ≤ a.ledger.room
  covered : a.ledger.Covered

theorem applyLoop_abreast {ctx : ApplyContext} {edits : List FileEdit} {a b b' : Attempt}
    (hab : Abreast a b) (h : applyLoop ctx none edits b = .finished b') :
    ∃ a', applyLoop ctx none edits a = .finished a' ∧ Abreast a' b' := by
  induction edits generalizing a b with
  | nil =>
    cases h
    exact ⟨a, rfl, hab⟩
  | cons edit edits ih =>
    obtain ⟨mid, hmid, hrest⟩ := applyLoop_cons_finished h
    suffices hstep : ∃ a', applyIteration ctx none edit a = .finished a' ∧ Abreast a' mid by
      obtain ⟨a', ha', hab'⟩ := hstep
      obtain ⟨a'', ha'', hab''⟩ := ih hab' hrest
      refine ⟨a'', ?_, hab''⟩
      simp only [applyLoop, crashHere, crashLater, ha']
      exact ha''
    obtain ⟨-, current, htext, ⟨heq, rfl⟩ | ⟨hne, hbase, ledger, files, hledger, hfiles, rfl⟩⟩ :=
      applyIteration_finished hmid
    · refine ⟨{ a with written := a.written.set edit.path edit.content }, ?_,
        hab.files, hab.charges, hab.writes, hab.room, hab.covered⟩
      simp [applyIteration, hab.files, htext, FileEdit.intended_eq, heq]
    · obtain ⟨hpos, hroom, -⟩ := Ledger.consumeToolCall_ok hledger
      obtain ⟨ledger', hledger'⟩ : ∃ l, a.ledger.consumeToolCall = .ok l :=
        Ledger.consumeToolCall_of_room (Nat.lt_of_lt_of_le hpos hab.room)
      obtain ⟨-, hroom', -⟩ := Ledger.consumeToolCall_ok hledger'
      refine ⟨⟨files, ledger'.emit (ctx.toolCall edit.path),
        a.written.set edit.path edit.content, a.charges ++ [edit.path], a.writes ++ [edit.path]⟩,
        ?_, rfl, by rw [hab.charges], by rw [hab.writes], ?_,
        Ledger.covered_emit hab.covered hledger' _⟩
      · have hne' : baselineContent ctx.baseline edit.path ≠ edit.content := by
          rw [← hbase]
          exact hne
        simp [applyIteration, hab.files, htext, FileEdit.intended_eq, hbase, hne', hledger',
          hfiles]
      · have hle := hab.room
        simp only [Ledger.room_emit]
        omega

/-- Edits whose files already read as intended are passed over. -/
theorem applyLoop_done {ctx : ApplyContext} {edits : List FileEdit} {a : Attempt}
    (h : ∀ edit ∈ edits, a.files.fileText ctx.root edit.path = .ok edit.content) :
    applyLoop ctx none edits a = .finished { a with written := writtenAfter a.written edits } := by
  induction edits generalizing a with
  | nil => rfl
  | cons edit edits ih =>
    have hone : applyIteration ctx none edit a =
        .finished { a with written := a.written.set edit.path edit.content } := by
      simp [applyIteration, h edit (by simp), FileEdit.intended_eq]
    simp only [applyLoop, crashHere, crashLater, hone]
    exact ih fun other hother => h other (List.mem_cons_of_mem _ hother)

theorem applyLoop_crash_split (ctx : ApplyContext) (c : CrashPoint) (edits : List FileEdit)
    (a : Attempt) :
    applyLoop ctx (some c) edits a =
      match applyLoop ctx none (edits.take c.index) a with
      | .finished mid => applyLoop ctx (some ⟨0, c.stage⟩) (edits.drop c.index) mid
      | other => other := by
  by_cases h : c.index ≤ edits.length
  · have hlen : (edits.take c.index).length = c.index := by simp [h]
    have happ := applyLoop_append ctx (some ⟨0, c.stage⟩) (edits.take c.index)
      (edits.drop c.index) a
    rw [List.take_append_drop, crashIn, Option.map_some, hlen, Nat.zero_add] at happ
    exact happ
  · have hle : edits.length ≤ c.index := by omega
    have happ := applyLoop_append ctx (some ⟨c.index - edits.length, c.stage⟩) edits [] a
    rw [List.append_nil, crashIn, Option.map_some, Nat.sub_add_cancel hle] at happ
    rw [happ, List.take_of_length_le hle, List.drop_of_length_le hle]
    rfl

/-! ## Crashes against one uninterrupted loop -/

section Uninterrupted

variable {ctx : ApplyContext} {edits : List FileEdit} {start full : Attempt}

theorem applyLoop_take (hfull : applyLoop ctx none edits start = .finished full) (k : Nat) :
    ∃ u, applyLoop ctx none (edits.take k) start = .finished u ∧
      applyLoop ctx none (edits.drop k) u = .finished full := by
  apply applyLoop_append_finished
  rw [List.take_append_drop]
  exact hfull

/-- From index `r` of the uninterrupted loop to index `k`. -/
theorem applyLoop_between {r k : Nat} (hrk : r ≤ k) {u v : Attempt}
    (hu : applyLoop ctx none (edits.take r) start = .finished u)
    (hv : applyLoop ctx none (edits.take k) start = .finished v) :
    applyLoop ctx none ((edits.take k).drop r) u = .finished v := by
  have hsplit : edits.take r ++ (edits.take k).drop r = edits.take k := by
    have htake : (edits.take k).take r = edits.take r := by
      rw [List.take_take, Nat.min_eq_left hrk]
    rw [← htake, List.take_append_drop]
  rw [← hsplit, applyLoop_append_none, hu] at hv
  exact hv

theorem take_paths_nodup (hnodup : (edits.map FileEdit.path).Nodup) (k : Nat) :
    ((edits.take k).map FileEdit.path).Nodup :=
  hnodup.sublist ((List.take_sublist k edits).map _)

theorem take_paths_distinct {files : Files} {root : Loc}
    (hdistinct : files.DistinctFiles root (edits.map FileEdit.path)) (k : Nat) :
    files.DistinctFiles root ((edits.take k).map FileEdit.path) :=
  have hsub := ((List.take_sublist k edits).map FileEdit.path).subset
  fun p hp q hq => hdistinct p (hsub hp) q (hsub hq)

/-- The uninterrupted loop leaves every edit before `k` reading as intended, when
what it writes there is stable. -/
theorem reads_of_stable (hnodup : (edits.map FileEdit.path).Nodup)
    (hdistinct : start.files.DistinctFiles ctx.root (edits.map FileEdit.path)) {k : Nat}
    {u : Attempt} (hu : applyLoop ctx none (edits.take k) start = .finished u)
    (hstable : ∀ edit ∈ edits.take k, NeedsWrite ctx start.files edit → StableText edit.content) :
    ∀ edit ∈ edits.take k, u.files.fileText ctx.root edit.path = .ok edit.content := by
  intro edit hedit
  obtain ⟨new, hnew, -⟩ := applyLoop_finished hu
  rcases applyLoop_settled hu (take_paths_nodup hnodup k) (take_paths_distinct hdistinct k) hnew
    edit hedit with ⟨htext, hsame, -⟩ | ⟨htext, hne, hcontent, -⟩
  · rw [Files.fileText_congr hsame, htext]
  · have hneeds : NeedsWrite ctx start.files edit := by
      unfold NeedsWrite
      rw [htext]
      exact fun h => hne (Except.ok.inj h).symm
    rw [Files.fileText_written hcontent, hstable edit hedit hneeds]

/-- `a` stands where the uninterrupted loop does after `k` edits, and all of
these read as intended. -/
def StandsAt (ctx : ApplyContext) (edits : List FileEdit) (start a : Attempt) (k : Nat) : Prop :=
  ∃ u, applyLoop ctx none (edits.take k) start = .finished u ∧ Abreast a u ∧
    ∀ edit ∈ edits.take k, u.files.fileText ctx.root edit.path = .ok edit.content

/-- From where it stands a resumed loop gets to index `k`, or no further than it
already was. -/
theorem StandsAt.loop (hfull : applyLoop ctx none edits start = .finished full)
    {a : Attempt} {r : Nat} (h : StandsAt ctx edits start a r) (k : Nat) :
    ∃ a' u, applyLoop ctx none (edits.take k) a = .finished a' ∧
      applyLoop ctx none (edits.take (max r k)) start = .finished u ∧ Abreast a' u := by
  obtain ⟨u, hu, hab, hreads⟩ := h
  have hpast : ∀ j, j ≤ r → ∃ a', applyLoop ctx none (edits.take j) a = .finished a' ∧
      Abreast a' u := by
    intro j hj
    have hsub : ∀ edit ∈ edits.take j, edit ∈ edits.take r := fun edit hin =>
      List.take_subset_take_left edits hj hin
    refine ⟨{ a with written := writtenAfter a.written (edits.take j) }, applyLoop_done ?_,
      hab.files, hab.charges, hab.writes, hab.room, hab.covered⟩
    intro edit hin
    rw [hab.files]
    exact hreads edit (hsub edit hin)
  by_cases hk : k ≤ r
  · obtain ⟨a', ha', hab'⟩ := hpast k hk
    rw [Nat.max_eq_left hk]
    exact ⟨a', u, ha', hu, hab'⟩
  · have hrk : r ≤ k := by omega
    obtain ⟨a', ha', hab'⟩ := hpast r (Nat.le_refl r)
    obtain ⟨v, hv, -⟩ := applyLoop_take hfull k
    obtain ⟨a'', ha'', hab''⟩ := applyLoop_abreast hab' (applyLoop_between hrk hu hv)
    rw [Nat.max_eq_right hrk]
    refine ⟨a'', v, ?_, hv, hab''⟩
    have hsplit : edits.take r ++ (edits.take k).drop r = edits.take k := by
      have htake : (edits.take k).take r = edits.take r := by
        rw [List.take_take, Nat.min_eq_left hrk]
      rw [← htake, List.take_append_drop]
    rw [← hsplit, applyLoop_append_none, ha']
    exact ha''

/-- The edit at index `k` finds its file as it was at the start. -/
theorem contentOf_at (hnodup : (edits.map FileEdit.path).Nodup)
    (hdistinct : start.files.DistinctFiles ctx.root (edits.map FileEdit.path)) {k : Nat}
    {u : Attempt} (hu : applyLoop ctx none (edits.take k) start = .finished u) {edit : FileEdit}
    (hedit : edits[k]? = some edit) :
    u.files.contentOf ctx.root edit.path = start.files.contentOf ctx.root edit.path := by
  obtain ⟨new, -, -, hsub, htouch, -⟩ := applyLoop_finished hu
  have hpaths := ((List.take_sublist k edits).map FileEdit.path).subset
  have hmem : edit ∈ edits := List.mem_of_getElem? hedit
  refine htouch.contentOf_of_distinct _ hdistinct (List.mem_map_of_mem hmem)
    (fun p hp => hpaths (hsub.subset hp)) fun hin => ?_
  have hdrop : edit ∈ edits.drop k := by
    refine List.mem_of_getElem? (i := 0) ?_
    rw [List.getElem?_drop, Nat.add_zero, hedit]
  have happ : (edits.take k ++ edits.drop k).map FileEdit.path = edits.map FileEdit.path := by
    rw [List.take_append_drop]
  rw [← happ, List.map_append, List.nodup_append] at hnodup
  exact hnodup.2.2 _ (hsub.subset hin) _ (List.mem_map_of_mem hdrop) rfl

/-- An edit that has to be written is found at its baseline, and room is left to
write it. -/
theorem pending_at (hfull : applyLoop ctx none edits start = .finished full)
    (hnodup : (edits.map FileEdit.path).Nodup)
    (hdistinct : start.files.DistinctFiles ctx.root (edits.map FileEdit.path)) {k : Nat}
    {u : Attempt} (hu : applyLoop ctx none (edits.take k) start = .finished u) {edit : FileEdit}
    (hedit : edits[k]? = some edit) (hneeds : NeedsWrite ctx start.files edit) :
    u.files.fileText ctx.root edit.path = .ok (baselineContent ctx.baseline edit.path) ∧
      edit.content ≠ baselineContent ctx.baseline edit.path ∧ 0 < u.ledger.room := by
  obtain ⟨v, hv, hrest⟩ := applyLoop_take hfull k
  rw [hu] at hv
  cases hv
  have hdrop : edits.drop k = edit :: edits.drop (k + 1) := by
    obtain ⟨hlt, rfl⟩ := List.getElem?_eq_some_iff.mp hedit
    exact List.drop_eq_getElem_cons hlt
  rw [hdrop] at hrest
  obtain ⟨mid, hmid, -⟩ := applyLoop_cons_finished hrest
  have htext := Files.fileText_congr (contentOf_at hnodup hdistinct hu hedit)
  obtain ⟨-, current, hcur, ⟨heq, -⟩ | ⟨hne, hbase, ledger, files, hledger, -⟩⟩ :=
    applyIteration_finished hmid
  · exact absurd (by rw [← htext, hcur, heq]) hneeds
  · exact ⟨by rw [hcur, hbase], by rw [← hbase]; exact hne.symm,
      (Ledger.consumeToolCall_ok hledger).1⟩

/-- A harmless crash leaves the next process where the uninterrupted loop is at
the furthest index reached. -/
theorem StandsAt.crash (hfull : applyLoop ctx none edits start = .finished full)
    (hnodup : (edits.map FileEdit.path).Nodup)
    (hdistinct : start.files.DistinctFiles ctx.root (edits.map FileEdit.path)) {a : Attempt}
    {r : Nat} (h : StandsAt ctx edits start a r) {c : CrashPoint}
    (hcharged : c.stage = .idle ∨ c.index < r ∨
      ∀ edit, edits[c.index]? = some edit → ¬ NeedsWrite ctx start.files edit)
    (hstable : ∀ edit ∈ edits.take c.index,
      NeedsWrite ctx start.files edit → StableText edit.content) :
    ∃ a', applyLoop ctx (some c) edits a = .killed a' ∧
      StandsAt ctx edits start a'.restart (max r c.index) := by
  obtain ⟨mid, u, hmid, hu, hab⟩ := h.loop hfull c.index
  have hreads : ∀ edit ∈ edits.take (max r c.index),
      u.files.fileText ctx.root edit.path = .ok edit.content := by
    obtain ⟨v, hv, -, hvreads⟩ := h
    by_cases hle : c.index ≤ r
    · rw [Nat.max_eq_left hle] at hu ⊢
      rw [hv] at hu
      cases hu
      exact hvreads
    · rw [Nat.max_eq_right (by omega)] at hu ⊢
      exact reads_of_stable hnodup hdistinct hu hstable
  have hstands : ∀ written, StandsAt ctx edits start
      ({ mid with written } : Attempt).restart (max r c.index) := fun written =>
    ⟨u, hu, ⟨hab.files, hab.charges, hab.writes,
      Nat.le_trans hab.room (Ledger.room_le_restart hab.covered), Ledger.covered_restart _⟩, hreads⟩
  rw [applyLoop_crash_split, hmid]
  cases hdrop : edits.drop c.index with
  | nil => exact ⟨mid, rfl, hstands mid.written⟩
  | cons edit rest =>
    have hedit : edits[c.index]? = some edit := by
      have hget : (edits.drop c.index)[0]? = some edit := by rw [hdrop]; rfl
      rwa [List.getElem?_drop, Nat.add_zero] at hget
    simp only [applyLoop, crashHere]
    by_cases hidle : c.stage = .idle
    · exact ⟨mid, by simp [applyIteration, hidle], hstands mid.written⟩
    · have htext : mid.files.fileText ctx.root edit.path = .ok edit.content := by
        rw [hab.files]
        by_cases hlt : c.index < r
        · apply hreads
          rw [Nat.max_eq_left (Nat.le_of_lt hlt)]
          refine List.mem_of_getElem? (i := c.index) ?_
          rw [List.getElem?_take_of_lt hlt, hedit]
        · rw [Nat.max_eq_right (by omega)] at hu
          rw [Files.fileText_congr (contentOf_at hnodup hdistinct hu hedit)]
          exact Decidable.not_not.mp fun hne => ((hcharged.resolve_left hidle).resolve_left hlt)
            edit hedit hne
      refine ⟨{ mid with written := mid.written.set edit.path edit.content }, ?_, hstands _⟩
      simp [applyIteration, hidle, htext, FileEdit.intended_eq]

end Uninterrupted

/-! ## What a harmful crash leaves behind -/

/-- An edit that cannot read back as intended is written by every loop that
finishes. -/
theorem unstable_written {ctx : ApplyContext} {edits : List FileEdit} {a a' : Attempt}
    (h : applyLoop ctx none edits a = .finished a') {edit : FileEdit} (hedit : edit ∈ edits)
    (hunstable : ¬ StableText edit.content) :
    ∃ new, a'.writes = a.writes ++ new ∧ edit.path ∈ new := by
  induction edits generalizing a with
  | nil => cases hedit
  | cons first edits ih =>
    obtain ⟨mid, hmid, hrest⟩ := applyLoop_cons_finished h
    obtain ⟨later, hlater, -⟩ := applyLoop_finished hrest
    rcases List.mem_cons.mp hedit with rfl | hin
    · rcases applyIteration_disk hmid with ⟨-, -, htext⟩ | ⟨target, -, -, -, hw, -⟩
      · exact absurd (Files.stableText_of_fileText htext) hunstable
      · exact ⟨edit.path :: later, by rw [hlater, hw]; simp, by simp⟩
    · obtain ⟨new, hnew, hmem⟩ := ih hrest hin
      rcases applyIteration_disk hmid with ⟨-, hw, -⟩ | ⟨target, -, -, -, hw, -⟩
      · exact ⟨new, by rw [hnew, hw], hmem⟩
      · exact ⟨first.path :: new, by rw [hnew, hw]; simp, by simp [hmem]⟩

/-- Later executions only add to the logs, and charge what they write. -/
theorem applyResumed_logs {ctx : ApplyContext} {edits : List FileEdit} {crashes : List CrashPoint}
    {a final : Attempt} (h : applyResumed ctx edits crashes a = .applied final) :
    (∃ new, final.writes = a.writes ++ new) ∧
      final.writes.length + a.charges.length ≤ final.charges.length + a.writes.length := by
  induction crashes generalizing a with
  | nil =>
    obtain ⟨new, hw, hc, -⟩ := applyLoop_finished (applyEdits_applied h)
    refine ⟨⟨new, hw⟩, ?_⟩
    rw [hw, hc, List.length_append, List.length_append]
    omega
  | cons c crashes ih =>
    simp only [applyResumed] at h
    split at h
    next a' ha' =>
      obtain ⟨⟨new, hw⟩, hlen⟩ := ih h
      obtain ⟨mid, hmid, -, hkw, hkc⟩ := applyLoop_killed (applyEdits_killed.mp ha')
      obtain ⟨new', hw', hc', -⟩ := applyLoop_finished hmid
      have hrw : a'.restart.writes = a.writes ++ new' := by rw [← hw', ← hkw]; rfl
      refine ⟨⟨new' ++ new, by rw [hw, hrw, List.append_assoc]⟩, ?_⟩
      have hrc : mid.charges.length ≤ a'.restart.charges.length := by
        rcases hkc with ⟨-, hc⟩ | ⟨edit, -, -, -, hc⟩
        · exact Nat.le_of_eq (by rw [← hc]; rfl)
        · have hlen : a'.restart.charges.length = mid.charges.length + 1 := by
            show a'.charges.length = _
            rw [hc]
            simp
          omega
      rw [hrw, List.length_append] at hlen
      rw [hc', List.length_append] at hrc
      omega
    next other hother => exact absurd (applyEdits_applied h) applyLoop_crash_not_finished

theorem unstable_rewritten {ctx : ApplyContext} {edits : List FileEdit}
    {crashes : List CrashPoint} {a final : Attempt} {old earlier new : List String}
    (h : applyResumed ctx edits crashes a = .applied final) {edit : FileEdit}
    (hedit : edit ∈ edits) (hunstable : ¬ StableText edit.content)
    (hearlier : a.writes = old ++ earlier) (hin : edit.path ∈ earlier)
    (hnew : final.writes = old ++ new) : ¬ new.Nodup := by
  induction crashes generalizing a earlier with
  | nil =>
    obtain ⟨later, hw, hlater⟩ := unstable_written (applyEdits_applied h) hedit hunstable
    rw [hw, hearlier, List.append_assoc] at hnew
    rw [← List.append_cancel_left hnew, List.nodup_append]
    exact fun hd => hd.2.2 _ hin _ hlater rfl
  | cons c crashes ih =>
    simp only [applyResumed] at h
    split at h
    next a' ha' =>
      obtain ⟨mid, hmid, -, hkw, -⟩ := applyLoop_killed (applyEdits_killed.mp ha')
      obtain ⟨later, hw, -⟩ := applyLoop_finished hmid
      have hboth : a'.restart.writes = old ++ (earlier ++ later) := by
        show a'.writes = _
        rw [hkw, hw, hearlier, List.append_assoc]
      exact ih h hboth (List.mem_append_left _ hin)
    next other hother => exact absurd (applyEdits_applied h) applyLoop_crash_not_finished

/-- Past the charge of a pending edit the process dies owing a write. -/
theorem applyIteration_charged {ctx : ApplyContext} {stage : CrashStage} {edit : FileEdit}
    {a : Attempt} (hstage : stage ≠ .idle)
    (htext : a.files.fileText ctx.root edit.path = .ok (baselineContent ctx.baseline edit.path))
    (hne : edit.content ≠ baselineContent ctx.baseline edit.path) (hroom : 0 < a.ledger.room) :
    ∃ a', applyIteration ctx (some stage) edit a = .killed a' ∧
      a'.charges = a.charges ++ [edit.path] ∧ a'.writes = a.writes := by
  obtain ⟨ledger, hledger⟩ := Ledger.consumeToolCall_of_room hroom
  cases stage with
  | idle => exact absurd rfl hstage
  | charged => simp [applyIteration, htext, FileEdit.intended_eq, hne.symm, hledger]
  | emitted => simp [applyIteration, htext, FileEdit.intended_eq, hne.symm, hledger]

/-- Resuming after crashes comes to what one uninterrupted loop does exactly when
every crash is safe. -/
theorem applyResumed_iff_safe {ctx : ApplyContext} {edits : List FileEdit} {start full : Attempt}
    (hfull : applyLoop ctx none edits start = .finished full)
    (hnodup : (edits.map FileEdit.path).Nodup)
    (hdistinct : start.files.DistinctFiles ctx.root (edits.map FileEdit.path))
    (crashes : List CrashPoint) {a : Attempt} {r : Nat} (h : StandsAt ctx edits start a r) :
    (∃ final new, applyResumed ctx edits crashes a = .applied final ∧ final.files = full.files ∧
        final.charges = start.charges ++ new ∧ final.writes = start.writes ++ new ∧ new.Nodup) ↔
      SafeCrashes ctx start.files edits r crashes := by
  induction crashes generalizing a r with
  | nil =>
    refine ⟨fun _ => trivial, fun _ => ?_⟩
    obtain ⟨final, u, hfinal, hu, hab⟩ := h.loop hfull edits.length
    rw [List.take_length] at hfinal
    rw [List.take_of_length_le (Nat.le_max_right _ _), hfull] at hu
    cases hu
    obtain ⟨new, hw, hc, hsub, -⟩ := applyLoop_finished hfull
    exact ⟨final, new, by simp [applyResumed, applyEdits, hfinal], hab.files, hab.charges.trans hc,
      hab.writes.trans hw, hsub.nodup hnodup⟩
  | cons c crashes ih =>
    obtain ⟨mid, u, hmid, hu, hab⟩ := h.loop hfull c.index
    constructor
    · rintro ⟨final, new, hfinal, hrest⟩
      have hresumed := hfinal
      simp only [applyResumed] at hfinal
      split at hfinal
      next a' ha' =>
        have hkilled := applyEdits_killed.mp ha'
        have hwrites : a'.writes = mid.writes := by
          obtain ⟨mid', hmid', -, hkw, -⟩ := applyLoop_killed hkilled
          rw [hmid] at hmid'
          cases hmid'
          exact hkw
        have hstable : ∀ edit ∈ edits.take c.index,
            NeedsWrite ctx start.files edit → StableText edit.content := by
          intro edit hedit hneeds
          by_contra hunstable
          have hle : r ≤ c.index := by
            by_contra hlt
            obtain ⟨v, -, -, hreads⟩ := h
            exact hunstable (Files.stableText_of_fileText
              (hreads edit (List.take_subset_take_left edits (by omega) hedit)))
          rw [Nat.max_eq_right hle] at hu
          obtain ⟨earlier, hw, -⟩ := applyLoop_finished hu
          rcases applyLoop_settled hu (take_paths_nodup hnodup _) (take_paths_distinct hdistinct _)
            hw edit hedit with ⟨htext, -⟩ | ⟨-, -, -, hin⟩
          · exact hneeds htext
          · refine unstable_rewritten hfinal (List.mem_of_mem_take hedit) hunstable ?_ hin
              hrest.2.2.1 hrest.2.2.2
            show a'.writes = _
            rw [hwrites, hab.writes, hw]
        have hcharged : c.stage = .idle ∨ c.index < r ∨
            ∀ edit, edits[c.index]? = some edit → ¬ NeedsWrite ctx start.files edit := by
          by_contra hnot
          simp only [not_or, not_forall, not_not, Nat.not_lt] at hnot
          obtain ⟨hstage, hle, edit, hedit, hneeds⟩ := hnot
          rw [Nat.max_eq_right hle] at hu
          obtain ⟨htext, hne, hroom⟩ := pending_at hfull hnodup hdistinct hu hedit hneeds
          obtain ⟨dead, hdead, hdc, hdw⟩ := applyIteration_charged hstage
            (by rw [hab.files]; exact htext) hne (Nat.lt_of_lt_of_le hroom hab.room)
          have hsame : a' = dead := by
            rw [applyLoop_crash_split, hmid] at hkilled
            have hdrop : edits.drop c.index = edit :: edits.drop (c.index + 1) := by
              obtain ⟨hlt, rfl⟩ := List.getElem?_eq_some_iff.mp hedit
              exact List.drop_eq_getElem_cons hlt
            simp only [hdrop, applyLoop, crashHere, hdead] at hkilled
            cases hkilled
            rfl
          obtain ⟨-, hlen⟩ := applyResumed_logs hfinal
          have hc : a'.restart.charges.length = mid.charges.length + 1 := by
            show a'.charges.length = _
            rw [hsame, hdc]
            simp
          have hw : a'.restart.writes.length = mid.writes.length := by
            show a'.writes.length = _
            rw [hwrites]
          obtain ⟨done, huw, huc, -⟩ := applyLoop_finished hu
          rw [hrest.2.1, hrest.2.2.1, hc, hw, hab.charges, hab.writes, huw, huc] at hlen
          simp only [List.length_append] at hlen
          omega
        obtain ⟨dead, hdead, hstands⟩ := h.crash hfull hnodup hdistinct hcharged hstable
        rw [hkilled] at hdead
        cases hdead
        exact ⟨hcharged, hstable, (ih hstands).mp ⟨final, new, hfinal, hrest⟩⟩
      next other hother =>
        exact absurd (applyEdits_applied hfinal) applyLoop_crash_not_finished
    · rintro ⟨hcharged, hstable, hsafe⟩
      obtain ⟨a', ha', hstands⟩ := h.crash hfull hnodup hdistinct hcharged hstable
      obtain ⟨final, new, hfinal, hrest⟩ := (ih hstands).mpr hsafe
      exact ⟨final, new, by simp [applyResumed, applyEdits_killed.mpr ha', hfinal], hrest⟩

end EvoCI
