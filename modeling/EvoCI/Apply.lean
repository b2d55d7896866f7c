import EvoCI.Budget
import EvoCI.Patch

/-! The write loop of `apply_candidate`: each edit is found done, pending or in
conflict from the disk and the baseline of the apply plan. A crash can stop the
loop before an edit, or between charging an edit and writing it. -/

namespace EvoCI

open Library

/-- `_baseline_content(baseline, path)`. -/
def baselineContent (baseline : Baseline) (path : String) : Option String :=
  (baseline.get? path).bind FileBaseline.content

/-- What the loop reads and never changes. -/
structure ApplyContext where
  root : Loc
  sha256 : Content → String
  hashStrict : Bool
  denied : Loc → Bool
  baseline : Baseline
  /-- The `TOOL_CALL` event of applying the edit of a path. -/
  toolCall : String → RunEvent

/-- The state of the loop. `charges` and `writes` are ghost logs: the paths a
tool call was consumed for and the paths written, in order. -/
structure Attempt where
  files : Files
  ledger : Ledger
  written : Written := []
  charges : List String := []
  writes : List String := []

/-- Where inside one iteration the process dies. -/
inductive CrashStage where
  | idle
  | charged
  | emitted
  deriving DecidableEq, Repr

/-- The process dies at the edit of this index, before it or as far into its
write as `stage` says; past the last edit it dies after the loop. -/
structure CrashPoint where
  index : Nat
  stage : CrashStage
  deriving DecidableEq, Repr

inductive LoopResult where
  | finished (a : Attempt)
  | raised (e : PyError) (a : Attempt)
  | killed (a : Attempt)

/-- One iteration over the edits. -/
def applyIteration (ctx : ApplyContext) (crash : Option CrashStage) (edit : FileEdit)
    (a : Attempt) : LoopResult :=
  if crash = some .idle then .killed a
  else
    match a.files.fileText ctx.root edit.path with
    | .error e => .raised e a
    | .ok currentText =>
      if currentText = edit.intended then
        let done := { a with written := a.written.set edit.path edit.intended }
        if crash.isSome then .killed done else .finished done
      else if currentText ≠ baselineContent ctx.baseline edit.path then
        .raised (.patchConflict s!"file changed since proposal: {edit.path}") a
      else
        match a.ledger.consumeToolCall with
        | .error e => .raised e a
        | .ok ledger =>
          let charged := { a with ledger, charges := a.charges ++ [edit.path] }
          if crash = some .charged then .killed charged
          else
            let emitted := { charged with ledger := ledger.emit (ctx.toolCall edit.path) }
            if crash = some .emitted then .killed emitted
            else
              let marked := { emitted with written := a.written.set edit.path edit.intended }
              match a.files.applyEdit ctx.sha256 ctx.denied ctx.root ctx.hashStrict edit with
              | .error e => .raised e marked
              | .ok files => .finished { marked with files, writes := a.writes ++ [edit.path] }

/-- The crash, if it is due at the edit now at hand. -/
def crashHere : Option CrashPoint → Option CrashStage
  | some ⟨0, stage⟩ => some stage
  | _ => none

/-- The crash as the edits after the one at hand see it. -/
def crashLater : Option CrashPoint → Option CrashPoint
  | some ⟨index + 1, stage⟩ => some ⟨index, stage⟩
  | _ => none

def applyLoop (ctx : ApplyContext) : Option CrashPoint → List FileEdit → Attempt → LoopResult
  | crash, [], a => if crash.isSome then .killed a else .finished a
  | crash, edit :: edits, a =>
    match applyIteration ctx (crashHere crash) edit a with
    | .finished a' => applyLoop ctx (crashLater crash) edits a'
    | other => other

/-- The exceptions that `apply_candidate` turns into a conflict. -/
def PyError.isApplyConflict : PyError → Bool
  | .patchConflict _ | .patchError _ | .patchPrecheckError _ | .integrationError _
  | .repairBudgetExhausted _ | .policyViolation _ | .osError _ => true
  | _ => false

inductive ApplyResult where
  | applied (a : Attempt)
  | conflict (e : PyError) (a : Attempt)
  | raised (e : PyError) (a : Attempt)
  | killed (a : Attempt)

/-- The loop with its exception handlers, which restore what was written. -/
def applyEdits (ctx : ApplyContext) (crash : Option CrashPoint) (edits : List FileEdit)
    (a : Attempt) : ApplyResult :=
  match applyLoop ctx crash edits a with
  | .finished a' => .applied a'
  | .killed a' => .killed a'
  | .raised e a' =>
    match a'.files.restoreAttemptWrites ctx.denied ctx.root ctx.baseline a'.written with
    | (files, some e') => .raised e' { a' with files }
    | (files, none) =>
      if e.isApplyConflict then .conflict e { a' with files } else .raised e { a' with files }

/-! ## One iteration -/

theorem applyIteration_finished {ctx : ApplyContext} {crash : Option CrashStage} {edit : FileEdit}
    {a a' : Attempt} (h : applyIteration ctx crash edit a = .finished a') :
    crash = none ∧ ∃ current, a.files.fileText ctx.root edit.path = .ok current ∧
      (current = edit.content ∧ a' = { a with written := a.written.set edit.path edit.content } ∨
        current ≠ edit.content ∧ current = baselineContent ctx.baseline edit.path ∧
          ∃ ledger files, a.ledger.consumeToolCall = .ok ledger ∧
            a.files.applyEdit ctx.sha256 ctx.denied ctx.root ctx.hashStrict edit = .ok files ∧
            a' = { files, ledger := ledger.emit (ctx.toolCall edit.path),
                   written := a.written.set edit.path edit.content,
                   charges := a.charges ++ [edit.path], writes := a.writes ++ [edit.path] }) := by
  unfold applyIteration at h
  simp only [FileEdit.intended_eq] at h
  split at h
  · cases h
  next hidle =>
    split at h
    · cases h
    next current htext =>
      split at h
      next heq =>
        split at h
        · cases h
        next hnone =>
          cases h
          exact ⟨by simpa using hnone, current, htext, .inl ⟨heq, rfl⟩⟩
      next hne =>
        split at h
        · cases h
        next hbase =>
          split at h
          · cases h
          next ledger hledger =>
            split at h
            · cases h
            next hcharged =>
              split at h
              · cases h
              next hemitted =>
                split at h
                · cases h
                next files hfiles =>
                  cases h
                  refine ⟨?_, current, htext, .inr ⟨hne, by simpa using hbase, ledger, files,
                    hledger, hfiles, rfl⟩⟩
                  cases crash with
                  | none => rfl
                  | some stage => cases stage <;> simp_all

/-- An iteration that raises leaves the disk as it was; it has marked the path
as written only when it was about to replace the baseline's text. -/
theorem applyIteration_raised {ctx : ApplyContext} {crash : Option CrashStage} {edit : FileEdit}
    {a a' : Attempt} {e : PyError} (h : applyIteration ctx crash edit a = .raised e a') :
    a'.files = a.files ∧ a'.writes = a.writes ∧
      (a'.written = a.written ∨
        a'.written = a.written.set edit.path edit.content ∧
          a.files.fileText ctx.root edit.path = .ok (baselineContent ctx.baseline edit.path) ∧
          edit.content ≠ baselineContent ctx.baseline edit.path) := by
  unfold applyIteration at h
  simp only [FileEdit.intended_eq] at h
  split at h
  · cases h
  · split at h
    · cases h
      exact ⟨rfl, rfl, .inl rfl⟩
    next current htext =>
      split at h
      · split at h <;> cases h
      next hne =>
        split at h
        · cases h
          exact ⟨rfl, rfl, .inl rfl⟩
        next hbase =>
          split at h
          · cases h
            exact ⟨rfl, rfl, .inl rfl⟩
          · split at h
            · cases h
            · split at h
              · cases h
              · split at h
                · cases h
                  have heq := Decidable.not_not.mp hbase
                  refine ⟨rfl, rfl, .inr ⟨rfl, by rw [htext, heq], ?_⟩⟩
                  rw [← heq]
                  exact fun hc => hne hc.symm
                · cases h

/-- A process that dies has written nothing in its last iteration; it has charged
the edit when it got that far. -/
theorem applyIteration_killed {ctx : ApplyContext} {crash : Option CrashStage} {edit : FileEdit}
    {a a' : Attempt} (h : applyIteration ctx crash edit a = .killed a') :
    crash.isSome ∧ a'.files = a.files ∧ a'.writes = a.writes ∧
      ((a'.ledger = a.ledger ∧ a'.charges = a.charges) ∨
        crash ≠ some .idle ∧ a'.charges = a.charges ++ [edit.path] ∧
          ∃ ledger, a.ledger.consumeToolCall = .ok ledger ∧
            (a'.ledger = ledger ∨ a'.ledger = ledger.emit (ctx.toolCall edit.path))) := by
  unfold applyIteration at h
  split at h
  next hidle =>
    cases h
    exact ⟨by simp [hidle], rfl, rfl, .inl ⟨rfl, rfl⟩⟩
  next hidle =>
    split at h
    · cases h
    · split at h
      · split at h
        next hsome =>
          cases h
          exact ⟨hsome, rfl, rfl, .inl ⟨rfl, rfl⟩⟩
        · cases h
      · split at h
        · cases h
        · split at h
          · cases h
          next ledger hledger =>
            split at h
            next hcharged =>
              cases h
              exact ⟨by simp [hcharged], rfl, rfl, .inr ⟨hidle, rfl, ledger, hledger, .inl rfl⟩⟩
            · split at h
              next hemitted =>
                cases h
                exact ⟨by simp [hemitted], rfl, rfl,
                  .inr ⟨hidle, rfl, ledger, hledger, .inr rfl⟩⟩
              · split at h <;> cases h

/-- Writing an edit leaves every other file alone, and the edit's file with the
edit's content. -/
theorem applyIteration_disk {ctx : ApplyContext} {crash : Option CrashStage} {edit : FileEdit}
    {a a' : Attempt} (h : applyIteration ctx crash edit a = .finished a') :
    a'.files = a.files ∧ a'.writes = a.writes ∧
        a.files.fileText ctx.root edit.path = .ok edit.content ∨
      ∃ target, a.files.boundaryResolve ctx.root edit.path = .ok target ∧
        a.files.Touches a'.files (· = target) ∧
        a'.files.contentAt target = edit.content.map .utf8 ∧
        a'.writes = a.writes ++ [edit.path] ∧
        a.files.fileText ctx.root edit.path = .ok (baselineContent ctx.baseline edit.path) ∧
        edit.content ≠ baselineContent ctx.baseline edit.path := by
  obtain ⟨-, current, htext, ⟨heq, rfl⟩ | ⟨hne, hbase, ledger, files, -, hfiles, rfl⟩⟩ :=
    applyIteration_finished h
  · exact .inl ⟨rfl, rfl, by rw [htext, heq]⟩
  · right
    obtain ⟨target, ht, htouch, ⟨hread, -⟩ | hcontent⟩ := Files.applyEdit_ok hfiles
    · rw [Files.fileText_of_boundary ht, hread] at htext
      cases htext
      exact absurd rfl hne
    · exact ⟨target, ht, htouch, hcontent, rfl, by rw [htext, hbase],
        by rw [← hbase]; exact hne.symm⟩

/-- Every error of the loop has a message. -/
theorem applyIteration_message {ctx : ApplyContext} {crash : Option CrashStage} {edit : FileEdit}
    {a a' : Attempt} {e : PyError} (h : applyIteration ctx crash edit a = .raised e a') :
    e.message ≠ "" := by
  unfold applyIteration at h
  split at h
  · cases h
  · split at h
    next htext =>
      cases h
      unfold Files.fileText at htext
      split at htext
      · exact Files.readTextOrNone_message htext
      · cases htext
    · split at h
      · split at h <;> cases h
      · split at h
        · cases h
          simp [PyError.message, toString]
        · split at h
          next hledger =>
            cases h
            rw [Ledger.consumeToolCall_error hledger]
            decide
          · simp only at h
            split at h
            · cases h
            · split at h
              · cases h
              · split at h
                next hedit =>
                  cases h
                  exact Files.applyEdit_message hedit
                · cases h

/-! ## The loop -/

/-- The crash as the edits before it see it, `n` edits earlier. -/
def crashIn (n : Nat) (crash : Option CrashPoint) : Option CrashPoint :=
  crash.map fun c => ⟨c.index + n, c.stage⟩

theorem applyLoop_append (ctx : ApplyContext) (crash : Option CrashPoint)
    (before after : List FileEdit) (a : Attempt) :
    applyLoop ctx (crashIn before.length crash) (before ++ after) a =
      match applyLoop ctx none before a with
      | .finished mid => applyLoop ctx crash after mid
      | other => other := by
  induction before generalizing a with
  | nil => cases crash <;> rfl
  | cons edit before ih =>
    have hhere : crashHere (crashIn (edit :: before).length crash) = none := by
      cases crash <;> rfl
    have hlater : crashLater (crashIn (edit :: before).length crash) =
        crashIn before.length crash := by
      cases crash <;> rfl
    simp only [List.cons_append, applyLoop, hhere, hlater]
    have hnone : crashHere none = none := rfl
    have hnone' : crashLater none = none := rfl
    simp only [hnone, hnone']
    cases applyIteration ctx none edit a with
    | finished mid => exact ih mid
    | raised e mid => rfl
    | killed mid => rfl

theorem applyLoop_append_none (ctx : ApplyContext) (before after : List FileEdit) (a : Attempt) :
    applyLoop ctx none (before ++ after) a =
      match applyLoop ctx none before a with
      | .finished mid => applyLoop ctx none after mid
      | other => other :=
  applyLoop_append ctx none before after a

/-- A loop that raises has finished the edits before the one it stops at. -/
theorem applyLoop_raised {ctx : ApplyContext} {edits : List FileEdit} {a a' : Attempt}
    {e : PyError} (h : applyLoop ctx none edits a = .raised e a') :
    ∃ before edit after mid, edits = before ++ edit :: after ∧
      applyLoop ctx none before a = .finished mid ∧
      applyIteration ctx none edit mid = .raised e a' := by
  induction edits generalizing a with
  | nil => simp [applyLoop] at h
  | cons edit edits ih =>
    simp only [applyLoop] at h
    split at h
    next mid hmid =>
      obtain ⟨before, stop, after, last, rfl, hloop, hstop⟩ := ih h
      refine ⟨edit :: before, stop, after, last, rfl, ?_, hstop⟩
      have hone : applyIteration ctx none edit a = .finished mid := hmid
      simp only [applyLoop, crashHere, crashLater, hone]
      exact hloop
    next other hother =>
      exact ⟨[], edit, edits, a, rfl, rfl, h⟩

/-- An error is met before the crash, so also without it. -/
theorem applyIteration_raised_anyway {ctx : ApplyContext} {crash : Option CrashStage}
    {edit : FileEdit} {a a' : Attempt} {e : PyError}
    (h : applyIteration ctx crash edit a = .raised e a') :
    applyIteration ctx none edit a = .raised e a' := by
  unfold applyIteration at h ⊢
  split at h
  · cases h
  · simp only [reduceCtorEq, if_false]
    split at h
    · exact h
    next current _ =>
      split at h
      · split at h <;> cases h
      next hne =>
        rw [if_neg hne]
        split at h
        next hbase =>
          rw [if_pos hbase]
          exact h
        next hbase =>
          rw [if_neg hbase]
          split at h
          · exact h
          next ledger _ =>
            simp only at h ⊢
            split at h
            · cases h
            · split at h
              · cases h
              · exact h

theorem applyLoop_raised_anyway {ctx : ApplyContext} {crash : Option CrashPoint}
    {edits : List FileEdit} {a a' : Attempt} {e : PyError}
    (h : applyLoop ctx crash edits a = .raised e a') :
    applyLoop ctx none edits a = .raised e a' := by
  induction edits generalizing crash a with
  | nil =>
    unfold applyLoop at h
    split at h <;> cases h
  | cons edit edits ih =>
    unfold applyLoop at h ⊢
    split at h
    next mid hmid =>
      obtain ⟨hnone, -⟩ := applyIteration_finished hmid
      rw [hnone] at hmid
      simp only [crashHere, hmid]
      exact ih h
    · have hone := applyIteration_raised_anyway h
      simp only [crashHere, hone]

/-- A conflict comes from an error of the loop, after restoring what was written. -/
theorem applyEdits_conflict {ctx : ApplyContext} {crash : Option CrashPoint}
    {edits : List FileEdit} {a a' : Attempt} {e : PyError}
    (h : applyEdits ctx crash edits a = .conflict e a') :
    ∃ stopped, applyLoop ctx none edits a = .raised e stopped ∧
      stopped.files.restoreAttemptWrites ctx.denied ctx.root ctx.baseline stopped.written =
        (a'.files, none) ∧ a' = { stopped with files := a'.files } := by
  unfold applyEdits at h
  split at h
  · cases h
  · cases h
  next e' stopped hloop =>
    split at h
    · cases h
    next files hrestore =>
      split at h
      · cases h
        exact ⟨stopped, applyLoop_raised_anyway hloop, hrestore, rfl⟩
      · cases h

/-- Without a crash the loop is never killed. -/
theorem applyLoop_not_killed {ctx : ApplyContext} {edits : List FileEdit} {a a' : Attempt} :
    applyLoop ctx none edits a ≠ .killed a' := by
  induction edits generalizing a with
  | nil => simp [applyLoop]
  | cons edit edits ih =>
    intro h
    simp only [applyLoop] at h
    split at h
    · exact ih h
    · have hk : applyIteration ctx none edit a = .killed a' := h
      simpa using (applyIteration_killed hk).1

/-- A killed process has finished the edits before the crash and has written
nothing after them. -/
theorem applyLoop_killed {ctx : ApplyContext} {edits : List FileEdit} {c : CrashPoint}
    {a a' : Attempt} (h : applyLoop ctx (some c) edits a = .killed a') :
    ∃ mid, applyLoop ctx none (edits.take c.index) a = .finished mid ∧
      a'.files = mid.files ∧ a'.writes = mid.writes ∧
      ((a'.ledger = mid.ledger ∧ a'.charges = mid.charges) ∨
        ∃ edit, edits[c.index]? = some edit ∧
          applyIteration ctx (some c.stage) edit mid = .killed a'
          ∧ c.stage ≠ .idle ∧ a'.charges = mid.charges ++ [edit.path]) := by
  induction edits generalizing a c with
  | nil =>
    simp only [applyLoop, Option.isSome_some, if_true, LoopResult.killed.injEq] at h
    subst h
    exact ⟨a, by simp [applyLoop], rfl, rfl, .inl ⟨rfl, rfl⟩⟩
  | cons edit edits ih =>
    obtain ⟨index, stage⟩ := c
    cases index with
    | zero =>
      have hk : applyIteration ctx (some stage) edit a = .killed a' := by
        simp only [applyLoop, crashHere] at h
        split at h
        next mid hmid => simpa using (applyIteration_finished hmid).1
        · exact h
      obtain ⟨-, hfiles, hwrites, ⟨hl, hc⟩ | ⟨hstage, hc, -⟩⟩ := applyIteration_killed hk
      · exact ⟨a, rfl, hfiles, hwrites, .inl ⟨hl, hc⟩⟩
      · exact ⟨a, rfl, hfiles, hwrites, .inr ⟨edit, rfl, hk, by simpa using hstage, hc⟩⟩
    | succ index =>
      simp only [applyLoop, crashHere, crashLater] at h
      split at h
      next mid hmid =>
        obtain ⟨last, hloop, hrest⟩ := ih h
        refine ⟨last, ?_, hrest⟩
        simp only [List.take_succ_cons, applyLoop, crashHere, crashLater, hmid]
        exact hloop
      next other hother =>
        simpa using (applyIteration_killed h).1

theorem applyLoop_message {ctx : ApplyContext} {crash : Option CrashPoint}
    {edits : List FileEdit} {a a' : Attempt} {e : PyError}
    (h : applyLoop ctx crash edits a = .raised e a') : e.message ≠ "" := by
  induction edits generalizing crash a with
  | nil =>
    unfold applyLoop at h
    split at h <;> cases h
  | cons edit edits ih =>
    unfold applyLoop at h
    split at h
    · exact ih h
    · exact applyIteration_message h

/-- A conflict has a reason. -/
theorem applyEdits_message {ctx : ApplyContext} {crash : Option CrashPoint}
    {edits : List FileEdit} {a a' : Attempt} {e : PyError}
    (h : applyEdits ctx crash edits a = .conflict e a') : e.message ≠ "" := by
  unfold applyEdits at h
  split at h
  · cases h
  · cases h
  next hloop =>
    split at h
    · cases h
    · split at h
      · cases h
        exact applyLoop_message hloop
      · cases h

/-- The `written` map after the loop got past `edits`. -/
def writtenAfter (written : Written) (edits : List FileEdit) : Written :=
  edits.foldl (fun w edit => w.set edit.path edit.content) written

theorem applyLoop_cons_finished {ctx : ApplyContext} {edit : FileEdit} {edits : List FileEdit}
    {a a' : Attempt} (h : applyLoop ctx none (edit :: edits) a = .finished a') :
    ∃ mid, applyIteration ctx none edit a = .finished mid ∧
      applyLoop ctx none edits mid = .finished a' := by
  simp only [applyLoop, crashHere, crashLater] at h
  split at h
  next mid hmid => exact ⟨mid, hmid, h⟩
  next other hother => exact absurd h (hother a')

theorem applyLoop_append_finished {ctx : ApplyContext} {before after : List FileEdit}
    {a a' : Attempt} (h : applyLoop ctx none (before ++ after) a = .finished a') :
    ∃ mid, applyLoop ctx none before a = .finished mid ∧
      applyLoop ctx none after mid = .finished a' := by
  rw [applyLoop_append_none] at h
  split at h
  next mid hmid => exact ⟨mid, hmid, h⟩
  next other hother => exact absurd h (hother a')

/-- A finished loop consumes one tool call for each file it writes, and touches
nothing but those files. -/
theorem applyLoop_finished {ctx : ApplyContext} {edits : List FileEdit} {a a' : Attempt}
    (h : applyLoop ctx none edits a = .finished a') :
    ∃ new, a'.writes = a.writes ++ new ∧ a'.charges = a.charges ++ new ∧
      new.Sublist (edits.map FileEdit.path) ∧
      a.files.Touches a'.files (a.files.PathsAt ctx.root new) ∧
      a'.ledger.room + new.length = a.ledger.room ∧
      (a.ledger.Covered → a'.ledger.Covered) ∧ a'.written = writtenAfter a.written edits := by
  induction edits generalizing a with
  | nil =>
    cases h
    exact ⟨[], by simp, by simp, by simp, Files.Touches.refl _ _, rfl, id, rfl⟩
  | cons edit edits ih =>
    obtain ⟨mid, hmid, hrest⟩ := applyLoop_cons_finished h
    obtain ⟨new, hwrites, hcharges, hsub, htouch, hroom, hcov, hwritten⟩ := ih hrest
    obtain ⟨-, current, htext, ⟨heq, rfl⟩ | ⟨hne, hbase, ledger, files, hledger, hfiles, rfl⟩⟩ :=
      applyIteration_finished hmid
    · exact ⟨new, hwrites, hcharges, hsub.cons _, htouch, hroom, hcov, hwritten⟩
    · obtain ⟨target, ht, htouch', -⟩ := Files.applyEdit_ok hfiles
      obtain ⟨-, hroom', -⟩ := Ledger.consumeToolCall_ok hledger
      refine ⟨edit.path :: new, by simpa using hwrites, by simpa using hcharges,
        hsub.cons_cons _, ?_, ?_, fun hc => hcov (Ledger.covered_emit hc hledger _), hwritten⟩
      · rw [Files.pathsAt_congr htouch'.links] at htouch
        refine (htouch'.mono ?_).trans (htouch.mono ?_)
        · rintro l rfl
          exact ⟨edit.path, by simp, ht⟩
        · rintro l ⟨p, hp, hres⟩
          exact ⟨p, by simp [hp], hres⟩
      · simp only [Ledger.room_emit, List.length_cons] at hroom ⊢
        omega

def LoopResult.attempt : LoopResult → Attempt
  | .finished a | .raised _ a | .killed a => a

/-- However the loop ends, it wrote paths of its edits, in their order. -/
theorem applyLoop_writes (ctx : ApplyContext) (crash : Option CrashPoint) (edits : List FileEdit)
    (a : Attempt) :
    ∃ new, (applyLoop ctx crash edits a).attempt.writes = a.writes ++ new ∧
      new.Sublist (edits.map FileEdit.path) := by
  induction edits generalizing crash a with
  | nil =>
    refine ⟨[], ?_, List.Sublist.refl _⟩
    unfold applyLoop
    split <;> simp [LoopResult.attempt]
  | cons edit edits ih =>
    unfold applyLoop
    split
    next mid hmid =>
      obtain ⟨new, hnew, hsub⟩ := ih (crashLater crash) mid
      rcases applyIteration_disk hmid with ⟨-, hw, -⟩ | ⟨_, -, -, -, hw, -⟩
      · exact ⟨new, by rw [hnew, hw], hsub.cons _⟩
      · exact ⟨edit.path :: new, by rw [hnew, hw, List.append_assoc]; rfl, hsub.cons_cons _⟩
    next other hother =>
      refine ⟨[], ?_, List.nil_sublist _⟩
      cases hone : applyIteration ctx (crashHere crash) edit a with
      | finished mid => exact absurd hone (hother mid)
      | raised e mid => simp [LoopResult.attempt, (applyIteration_raised hone).2.1]
      | killed mid => simp [LoopResult.attempt, (applyIteration_killed hone).2.2.1]

def ApplyResult.attempt : ApplyResult → Attempt
  | .applied a | .conflict _ a | .raised _ a | .killed a => a

/-- The handlers of the loop write no further edit. -/
theorem applyEdits_writes (ctx : ApplyContext) (crash : Option CrashPoint)
    (edits : List FileEdit) (a : Attempt) :
    ∃ new, (applyEdits ctx crash edits a).attempt.writes = a.writes ++ new ∧
      new.Sublist (edits.map FileEdit.path) := by
  obtain ⟨new, hnew, hsub⟩ := applyLoop_writes ctx crash edits a
  refine ⟨new, ?_, hsub⟩
  rw [← hnew]
  unfold applyEdits
  split
  next hloop => rw [hloop]; rfl
  next hloop => rw [hloop]; rfl
  next hloop =>
    rw [hloop]
    split
    · rfl
    · split <;> rfl

/-! ## What the loop leaves alone -/

/-- An attempt has changed files of the paths only, and remembers what it wrote. -/
structure Attempt.Within (root : Loc) (a a' : Attempt) (paths : List String) : Prop where
  files : a.files.Touches a'.files (a.files.PathsAt root paths)
  written : ∀ path ∈ Dict.keys a'.written, path ∈ Dict.keys a.written ∨ path ∈ paths

theorem Attempt.Within.refl (root : Loc) (a : Attempt) (paths : List String) :
    a.Within root a paths :=
  ⟨Files.Touches.refl _ _, fun _ h => .inl h⟩

theorem Attempt.Within.mono {root : Loc} {a a' : Attempt} {paths more : List String}
    (h : a.Within root a' paths) (hsub : paths ⊆ more) : a.Within root a' more :=
  ⟨h.files.mono fun _ ⟨path, hpath, hl⟩ => ⟨path, hsub hpath, hl⟩,
    fun path hpath => (h.written path hpath).imp_right fun hin => hsub hin⟩

theorem Attempt.Within.trans {root : Loc} {a a' a'' : Attempt} {paths : List String}
    (h : a.Within root a' paths) (h' : a'.Within root a'' paths) : a.Within root a'' paths where
  files := by
    refine h.files.trans ?_
    rw [← Files.pathsAt_congr h.files.links]
    exact h'.files
  written path hpath := by
    rcases h'.written path hpath with hin | hin
    · exact h.written path hin
    · exact .inr hin

/-- An iteration stays within the path of its edit, however it ends. -/
theorem applyIteration_within (ctx : ApplyContext) (crash : Option CrashStage) (edit : FileEdit)
    (a : Attempt) :
    a.Within ctx.root (applyIteration ctx crash edit a).attempt [edit.path] := by
  have hset : ∀ value : Option String, ∀ path ∈ Dict.keys (a.written.set edit.path value),
      path ∈ Dict.keys a.written ∨ path ∈ [edit.path] := by
    intro value path hpath
    exact ((Dict.mem_keys_set _ _ _ _).mp hpath).symm.imp_right List.mem_singleton.mpr
  have hrefl := Files.Touches.refl a.files (a.files.PathsAt ctx.root [edit.path])
  unfold applyIteration
  split
  · exact Attempt.Within.refl _ _ _
  · split
    · exact Attempt.Within.refl _ _ _
    · split
      · split
        · exact ⟨hrefl, hset _⟩
        · exact ⟨hrefl, hset _⟩
      · split
        · exact Attempt.Within.refl _ _ _
        · split
          · exact Attempt.Within.refl _ _ _
          · split
            · exact ⟨hrefl, fun _ hin => .inl hin⟩
            · split
              · exact ⟨hrefl, fun _ hin => .inl hin⟩
              · split
                · exact ⟨hrefl, hset _⟩
                next files hfiles =>
                  obtain ⟨target, ht, htouch, -⟩ := Files.applyEdit_ok hfiles
                  refine ⟨htouch.mono ?_, hset _⟩
                  rintro l rfl
                  exact ⟨edit.path, List.mem_singleton.mpr rfl, ht⟩

theorem applyLoop_within (ctx : ApplyContext) (crash : Option CrashPoint) (edits : List FileEdit)
    (a : Attempt) :
    a.Within ctx.root (applyLoop ctx crash edits a).attempt (edits.map FileEdit.path) := by
  induction edits generalizing crash a with
  | nil =>
    unfold applyLoop
    split <;> exact Attempt.Within.refl _ _ _
  | cons edit edits ih =>
    have hfirst : [edit.path] ⊆ (edit :: edits).map FileEdit.path := by simp
    have hone := (applyIteration_within ctx (crashHere crash) edit a).mono hfirst
    unfold applyLoop
    split
    next mid hmid =>
      rw [hmid] at hone
      exact hone.trans ((ih (crashLater crash) mid).mono (List.subset_cons_self _ _))
    next other hother => exact hone

/-- The loop with its handlers stays within the paths of the edits. -/
theorem applyEdits_within (ctx : ApplyContext) (crash : Option CrashPoint) (edits : List FileEdit)
    {a : Attempt} (hfresh : a.written = []) :
    a.files.Touches (applyEdits ctx crash edits a).attempt.files
      (a.files.PathsAt ctx.root (edits.map FileEdit.path)) := by
  have hloop := applyLoop_within ctx crash edits a
  unfold applyEdits
  split
  next a' ha' =>
    rw [ha'] at hloop
    exact hloop.files
  next a' ha' =>
    rw [ha'] at hloop
    exact hloop.files
  next e a' ha' =>
    rw [ha'] at hloop
    have hloop : a.Within ctx.root a' (edits.map FileEdit.path) := hloop
    have hrestored : a'.files.Touches (a'.files.restoreAttemptWrites ctx.denied ctx.root
        ctx.baseline a'.written).1 (a.files.PathsAt ctx.root (edits.map FileEdit.path)) := by
      -- the handlers restore paths that the loop wrote
      refine (Files.restoreAttemptWrites_frame _ _ _ _ _).mono ?_
      rintro l ⟨path, hpath, hl⟩
      rw [hloop.files.boundaryResolve_eq] at hl
      rcases hloop.written path hpath with hin | hin
      · rw [hfresh] at hin
        cases hin
      · exact ⟨path, hin, hl⟩
    have htouch := hloop.files.trans hrestored
    split
    next files e' hback =>
      rw [hback] at htouch
      exact htouch
    next files hback =>
      rw [hback] at htouch
      split <;> exact htouch

theorem applyIteration_covered {ctx : ApplyContext} {crash : Option CrashStage} {edit : FileEdit}
    {a : Attempt} (h : a.ledger.Covered) :
    (applyIteration ctx crash edit a).attempt.ledger.Covered := by
  unfold applyIteration
  split
  · exact h
  · split
    · exact h
    · split
      · split <;> exact h
      · split
        · exact h
        · split
          · exact h
          next ledger hledger =>
            simp only
            split
            · exact Ledger.covered_consume h hledger
            · split
              · exact Ledger.covered_emit h hledger _
              · split <;> exact Ledger.covered_emit h hledger _

/-- However the loop ends, no tool call is recorded that was not charged. -/
theorem applyLoop_covered {ctx : ApplyContext} {crash : Option CrashPoint} {edits : List FileEdit}
    {a : Attempt} (h : a.ledger.Covered) :
    (applyLoop ctx crash edits a).attempt.ledger.Covered := by
  induction edits generalizing crash a with
  | nil =>
    unfold applyLoop
    split <;> exact h
  | cons edit edits ih =>
    have hone := @applyIteration_covered ctx (crashHere crash) edit a h
    unfold applyLoop
    split
    next mid hmid =>
      rw [hmid] at hone
      exact ih hone
    · exact hone

theorem applyEdits_covered {ctx : ApplyContext} {crash : Option CrashPoint} {edits : List FileEdit}
    {a : Attempt} (h : a.ledger.Covered) :
    (applyEdits ctx crash edits a).attempt.ledger.Covered := by
  have hloop := @applyLoop_covered ctx crash edits a h
  unfold applyEdits
  split
  next hres =>
    rw [hres] at hloop
    exact hloop
  next hres =>
    rw [hres] at hloop
    exact hloop
  next hres =>
    rw [hres] at hloop
    split
    · exact hloop
    · split <;> exact hloop

/-- What a finished loop that wrote `new` did about one edit: nothing, its file
already reading as the edit's content, or it replaced the baseline's text. -/
def Settled (ctx : ApplyContext) (a a' : Attempt) (new : List String) (edit : FileEdit) : Prop :=
  a.files.fileText ctx.root edit.path = .ok edit.content ∧
      a'.files.contentOf ctx.root edit.path = a.files.contentOf ctx.root edit.path ∧
      edit.path ∉ new ∨
    a.files.fileText ctx.root edit.path = .ok (baselineContent ctx.baseline edit.path) ∧
      edit.content ≠ baselineContent ctx.baseline edit.path ∧
      a'.files.contentOf ctx.root edit.path = edit.content.map .utf8 ∧ edit.path ∈ new

theorem applyLoop_settled {ctx : ApplyContext} {edits : List FileEdit} {a a' : Attempt}
    (h : applyLoop ctx none edits a = .finished a') (hnodup : (edits.map FileEdit.path).Nodup)
    (hdistinct : a.files.DistinctFiles ctx.root (edits.map FileEdit.path)) {new : List String}
    (hnew : a'.writes = a.writes ++ new) : ∀ edit ∈ edits, Settled ctx a a' new edit := by
  induction edits generalizing a new with
  | nil => simp
  | cons edit edits ih =>
    obtain ⟨mid, hmid, hrest⟩ := applyLoop_cons_finished h
    obtain ⟨later, hwrites, -, hsub, htouch, -⟩ := applyLoop_finished hrest
    obtain ⟨hnot, hnodup'⟩ := List.nodup_cons.mp hnodup
    have hlinks : mid.files.linkAt = a.files.linkAt := by
      rcases applyIteration_disk hmid with ⟨hf, -⟩ | ⟨target, -, ht, -⟩
      · rw [hf]
      · exact ht.links
    have hmidDistinct : mid.files.DistinctFiles ctx.root (edits.map FileEdit.path) := by
      rw [Files.distinctFiles_congr hlinks]
      exact fun p hp q hq => hdistinct p (List.mem_cons_of_mem _ hp) q (List.mem_cons_of_mem _ hq)
    have hsplit : new = later ∨ new = edit.path :: later := by
      rcases applyIteration_disk hmid with ⟨-, hw, -⟩ | ⟨target, -, -, -, hw, -⟩
      · left
        rw [hwrites, hw] at hnew
        exact (List.append_cancel_left hnew).symm
      · right
        rw [hwrites, hw, List.append_assoc] at hnew
        exact (List.append_cancel_left hnew).symm
    intro other hother
    rcases List.mem_cons.mp hother with rfl | hother
    · -- the edits after this one leave its file alone
      have hlater : other.path ∉ later := fun hin => hnot (hsub.subset hin)
      have hkeep : a'.files.contentOf ctx.root other.path =
          mid.files.contentOf ctx.root other.path := by
        refine htouch.contentOf_of_distinct (other.path :: edits.map FileEdit.path) ?_
          (by simp) (fun p hp => List.mem_cons_of_mem _ (hsub.subset hp)) hlater
        rw [Files.distinctFiles_congr hlinks]
        exact hdistinct
      rcases applyIteration_disk hmid with ⟨hf, hw, htext⟩ |
        ⟨target, ht, htouch', hcontent, hw, htext, hne⟩
      · refine .inl ⟨htext, by rw [hkeep, hf], ?_⟩
        rw [hwrites, hw] at hnew
        rw [← List.append_cancel_left hnew]
        exact hlater
      · refine .inr ⟨htext, hne, ?_, ?_⟩
        · rw [hkeep, ← hcontent]
          exact Files.contentOf_of_boundary (by rw [htouch'.boundaryResolve_eq, ht])
        · rw [hwrites, hw, List.append_assoc] at hnew
          rw [← List.append_cancel_left hnew]
          simp
    · -- its own file was left alone by the first edit
      have hne : other.path ≠ edit.path := by
        intro heq
        exact hnot (heq ▸ List.mem_map_of_mem hother)
      have hsame : mid.files.contentOf ctx.root other.path =
          a.files.contentOf ctx.root other.path := by
        rcases applyIteration_disk hmid with ⟨hf, -⟩ | ⟨target, ht, htouch', -⟩
        · rw [hf]
        · apply htouch'.contentOf_eq
          rintro l hl rfl
          exact hne (hdistinct other.path
            (List.mem_cons_of_mem _ (List.mem_map_of_mem hother)) edit.path (by simp) l hl
            (Files.boundaryResolve_ok ht).1)
      have hmem : other.path ∈ new ↔ other.path ∈ later := by
        rcases hsplit with rfl | rfl
        · rfl
        · simp [hne]
      rcases ih hrest hnodup' hmidDistinct hwrites other hother with
        ⟨htext, hcontent, hin⟩ | ⟨htext, hbase, hcontent, hin⟩
      · exact .inl ⟨by rw [← htext]; exact (Files.fileText_congr hsame).symm,
          hcontent.trans hsame, fun h => hin (hmem.mp h)⟩
      · exact .inr ⟨by rw [← htext]; exact (Files.fileText_congr hsame).symm, hbase, hcontent,
          hmem.mpr hin⟩

end EvoCI
