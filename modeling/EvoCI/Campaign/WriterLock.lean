import EvoCI.Library.Run

/-! The writer lock of a campaign: `writer_lock` one file-system call at a time, by any
number of processes on one campaign directory. A process may die between any two
calls, and its pid may then be given to another one. -/

namespace EvoCI

open Library

namespace WriterLock

/-! ## Processes and the lock file -/

/-- What the lock file reads as. -/
inductive LockText where
  /-- No JSON: nothing has been written yet. -/
  | malformed
  | owner (pid : Nat)
  /-- JSON without an integer `pid`. -/
  | anonymous
  deriving DecidableEq, Repr

/-- A lock file, with the number of the `os.open` that made it. -/
structure LockFile where
  made : Nat
  text : LockText
  deriving DecidableEq, Repr

/-- Where a process stands in `writer_lock`. -/
inductive Phase where
  /-- No process has the pid. -/
  | absent
  | outside
  /-- The lock file exists; `path.is_file()` comes next. -/
  | contending
  /-- `path.read_text()` comes next. -/
  | opening
  /-- `os.kill(pid, 0)` comes next, with the pid read from this file. -/
  | testing (made pid : Nat)
  /-- `lock.unlink()` comes next; the file that was read, if there was one. -/
  | takingOver (read : Option Nat)
  /-- The second `os.open` comes next. -/
  | retrying
  /-- The file was created; writing the pid comes next. -/
  | created (made : Nat)
  | inside (made : Nat)
  /-- The `finally` block with its `lock.unlink()` comes next. -/
  | leaving (made : Nat)
  deriving DecidableEq, Repr

/-- The lock file that the process made and has not released. -/
def Phase.held : Phase → Option Nat
  | .created made | .inside made | .leaving made => some made
  | _ => none

/-- `released` is a ghost log: for each release that removed a lock file, the file of
the process and the file it removed. -/
structure State where
  lock : Option LockFile
  next : Nat
  phase : Nat → Phase := fun _ => .absent
  released : List (Nat × Nat) := []

/-- A campaign directory with the lock that earlier processes left. -/
def start (lock : Option LockFile) : State where
  lock
  next := lock.elim 0 fun file => file.made + 1

def State.goto (s : State) (p : Nat) (phase : Phase) : State :=
  { s with phase := fun q => if q = p then phase else s.phase q }

/-! ## Steps -/

inductive KillResult where
  | delivered
  /-- `ProcessLookupError`. -/
  | noProcess
  /-- `PermissionError`. -/
  | denied
  deriving DecidableEq, Repr

inductive Action where
  | spawn (p : Nat)
  | die (p : Nat)
  | call (p : Nat)
  | isFile (p : Nat)
  | read (p : Nat)
  | kill (p : Nat) (result : KillResult)
  | unlink (p : Nat)
  | retry (p : Nat)
  | write (p : Nat)
  | leave (p : Nat)
  | release (p : Nat)
  /-- The call that comes next fails. -/
  | raises (p : Nat)
  deriving DecidableEq, Repr

/-- `os.open(lock, O_CREAT | O_EXCL | O_WRONLY)`; `taken` is where it fails to. -/
def State.create (s : State) (p : Nat) (taken : Phase) : State :=
  match s.lock with
  | none => { s.goto p (.created s.next) with
      lock := some ⟨s.next, .malformed⟩, next := s.next + 1 }
  | some _ => s.goto p taken

/-- What a signal to a pid can come to: a live process of the campaign is found,
any other process may have the pid of a dead one. -/
def State.answers (s : State) (pid : Nat) (result : KillResult) : Bool :=
  result ≠ .noProcess || s.phase pid = .absent

def State.raising (s : State) (p : Nat) : State :=
  match s.phase p with
  | .absent => s
  | .created made | .inside made => s.goto p (.leaving made)
  | _ => s.goto p .outside

def step : Action → State → State
  | .spawn p, s => if s.phase p = .absent then s.goto p .outside else s
  | .die p, s => s.goto p .absent
  | .call p, s => if s.phase p = .outside then s.create p .contending else s
  | .isFile p, s =>
    if s.phase p = .contending then
      s.goto p (if s.lock.isSome then .opening else .takingOver none)
    else s
  | .read p, s =>
    if s.phase p = .opening then
      match s.lock with
      | none | some ⟨_, .malformed⟩ => s.goto p .outside
      | some ⟨made, .owner pid⟩ => s.goto p (.testing made pid)
      | some ⟨made, .anonymous⟩ => s.goto p (.takingOver (some made))
    else s
  | .kill p result, s =>
    match s.phase p with
    | .testing made pid =>
      if s.answers pid result then
        s.goto p (if result = .delivered then .outside else .takingOver (some made))
      else s
    | _ => s
  | .unlink p, s =>
    match s.phase p with
    | .takingOver _ => { s.goto p .retrying with lock := none }
    | _ => s
  | .retry p, s => if s.phase p = .retrying then s.create p .outside else s
  | .write p, s =>
    match s.phase p with
    | .created made =>
      { s.goto p (.inside made) with
        lock := s.lock.map fun file => if file.made = made then ⟨made, .owner p⟩ else file }
    | _ => s
  | .leave p, s =>
    match s.phase p with
    | .inside made => s.goto p (.leaving made)
    | _ => s
  | .release p, s =>
    match s.phase p with
    | .leaving made =>
      { s.goto p .outside with
        lock := none
        released := s.released ++ s.lock.toList.map fun file => (made, file.made) }
    | _ => s
  | .raises p, s => s.raising p

/-! ## One writer -/

/-- A takeover removes no other lock than the one that was read, and no live owner is
taken for dead because it belongs to another user. -/
def Careful : Action → State → Prop
  | .kill p result, s => result = .denied → ∀ made pid, s.phase p = .testing made pid →
      s.phase pid = .absent
  | .unlink p, s => ∀ file, s.lock = some file → s.phase p = .takingOver (some file.made)
  | _, _ => True

/-- At most one process holds the lock, and the lock file is its own. -/
structure Exclusive (s : State) : Prop where
  older : ∀ file, s.lock = some file → file.made < s.next
  present : ∀ p made, (s.phase p).held = some made → ∃ file, s.lock = some file ∧ file.made = made
  unique : ∀ p q made, (s.phase p).held = some made → (s.phase q).held = some made → p = q
  owned : ∀ file pid, s.lock = some file → file.text = .owner pid →
    ∀ p, (s.phase p).held = some file.made → p = pid
  unowned : ∀ file, s.lock = some file → file.text = .anonymous →
    ∀ p, (s.phase p).held ≠ some file.made
  tested : ∀ p made pid, s.phase p = .testing made pid →
    made < s.next ∧ ∀ q, (s.phase q).held = some made → q = pid
  taken : ∀ p made, s.phase p = .takingOver (some made) →
    made < s.next ∧ ∀ q, (s.phase q).held ≠ some made
  own : ∀ released ∈ s.released, released.1 = released.2

theorem goto_phase (s : State) (p q : Nat) (phase : Phase) :
    (s.goto p phase).phase q = if q = p then phase else s.phase q := rfl

@[simp] theorem goto_phase_self (s : State) (p : Nat) (phase : Phase) :
    (s.goto p phase).phase p = phase := by simp [goto_phase]

theorem goto_phase_of_ne (s : State) {p q : Nat} (phase : Phase) (h : q ≠ p) :
    (s.goto p phase).phase q = s.phase q := by simp [goto_phase, h]

/-- Going on without the lock file, to a phase that holds no more than before. -/
theorem Exclusive.goto {s : State} (h : Exclusive s) (p : Nat) (phase : Phase)
    (hheld : ∀ made, phase.held = some made → (s.phase p).held = some made)
    (htested : ∀ made pid, phase = .testing made pid →
      made < s.next ∧ ∀ q, (s.phase q).held = some made → q = pid)
    (htaken : ∀ made, phase = .takingOver (some made) →
      made < s.next ∧ ∀ q, (s.phase q).held ≠ some made) : Exclusive (s.goto p phase) := by
  have hbefore : ∀ q made, ((s.goto p phase).phase q).held = some made →
      (s.phase q).held = some made := by
    intro q made hq
    by_cases heq : q = p
    · subst heq
      rw [goto_phase_self] at hq
      exact hheld made hq
    · rwa [goto_phase_of_ne s phase heq] at hq
  refine ⟨h.older, ?_, ?_, ?_, ?_, ?_, ?_, h.own⟩
  · intro q made hq
    exact h.present q made (hbefore q made hq)
  · intro q r made hq hr
    exact h.unique q r made (hbefore q made hq) (hbefore r made hr)
  · intro file pid hfile htext q hq
    exact h.owned file pid hfile htext q (hbefore q _ hq)
  · intro file hfile htext q hq
    exact h.unowned file hfile htext q (hbefore q _ hq)
  · intro q made pid hq
    have hfound : made < s.next ∧ ∀ r, (s.phase r).held = some made → r = pid := by
      by_cases heq : q = p
      · subst heq
        rw [goto_phase_self] at hq
        exact htested made pid hq
      · rw [goto_phase_of_ne s phase heq] at hq
        exact h.tested q made pid hq
    exact ⟨hfound.1, fun r hr => hfound.2 r (hbefore r made hr)⟩
  · intro q made hq
    have hfound : made < s.next ∧ ∀ r, (s.phase r).held ≠ some made := by
      by_cases heq : q = p
      · subst heq
        rw [goto_phase_self] at hq
        exact htaken made hq
      · rw [goto_phase_of_ne s phase heq] at hq
        exact h.taken q made hq
    exact ⟨hfound.1, fun r hr => hfound.2 r (hbefore r made hr)⟩

/-- Where nobody holds the lock, the lock file may go. -/
theorem Exclusive.withoutLock {s : State} (h : Exclusive s)
    (hfree : ∀ p made, (s.phase p).held ≠ some made) : Exclusive { s with lock := none } := by
  refine ⟨?_, fun p made hp => absurd hp (hfree p made), h.unique, ?_, ?_, h.tested, h.taken,
    h.own⟩
  · intro file hfile
    cases hfile
  · intro file pid hfile
    cases hfile
  · intro file hfile
    cases hfile

theorem Exclusive.create {s : State} (h : Exclusive s) (p : Nat) {taken : Phase}
    (hheld : taken.held = none) (htested : ∀ made pid, taken ≠ .testing made pid)
    (htaken : ∀ read, taken ≠ .takingOver read) : Exclusive (s.create p taken) := by
  unfold State.create
  cases hlock : s.lock with
  | some file =>
    exact h.goto p taken (fun made hmade => by rw [hheld] at hmade; cases hmade)
      (fun made pid heq => absurd heq (htested made pid))
      (fun made heq => absurd heq (htaken (some made)))
  | none =>
    simp only
    -- nobody holds the lock, for its file would be there
    have hfree : ∀ q made, (s.phase q).held ≠ some made := by
      intro q made hq
      obtain ⟨file, hfile, -⟩ := h.present q made hq
      rw [hlock] at hfile
      cases hfile
    have hnew : ∀ q made, ((s.goto p (.created s.next)).phase q).held = some made →
        q = p ∧ made = s.next := by
      intro q made hq
      by_cases heq : q = p
      · subst heq
        rw [goto_phase_self] at hq
        exact ⟨rfl, (Option.some.inj hq).symm⟩
      · rw [goto_phase_of_ne s _ heq] at hq
        exact absurd hq (hfree q made)
    refine ⟨?_, ?_, ?_, ?_, ?_, ?_, ?_, h.own⟩
    · intro file hfile
      cases hfile
      exact Nat.lt_succ_self _
    · intro q made hq
      exact ⟨_, rfl, (hnew q made hq).2.symm⟩
    · intro q r made hq hr
      rw [(hnew q made hq).1, (hnew r made hr).1]
    · intro file pid hfile htext
      cases hfile
      cases htext
    · intro file hfile htext
      cases hfile
      cases htext
    · intro q made pid hq
      have heq : q ≠ p := by
        rintro rfl
        have hq : (s.goto q (.created s.next)).phase q = .testing made pid := hq
        rw [goto_phase_self] at hq
        cases hq
      have hq : (s.goto p (.created s.next)).phase q = .testing made pid := hq
      rw [goto_phase_of_ne s _ heq] at hq
      obtain ⟨hlt, -⟩ := h.tested q made pid hq
      refine ⟨Nat.lt_succ_of_lt hlt, fun r hr => ?_⟩
      have hmade := (hnew r made hr).2
      omega
    · intro q made hq
      have heq : q ≠ p := by
        rintro rfl
        have hq : (s.goto q (.created s.next)).phase q = .takingOver (some made) := hq
        rw [goto_phase_self] at hq
        cases hq
      have hq : (s.goto p (.created s.next)).phase q = .takingOver (some made) := hq
      rw [goto_phase_of_ne s _ heq] at hq
      obtain ⟨hlt, -⟩ := h.taken q made hq
      refine ⟨Nat.lt_succ_of_lt hlt, fun r hr => ?_⟩
      have hmade := (hnew r made hr).2
      omega

theorem exclusive_kept (s : State) (a : Action) (hok : Careful a s) (h : Exclusive s) :
    Exclusive (step a s) := by
  cases a with
  | spawn p =>
    simp only [step]
    split
    · exact h.goto p .outside (fun _ hmade => by cases hmade) (fun _ _ heq => by cases heq)
        (fun _ heq => by cases heq)
    · exact h
  | die p =>
    exact h.goto p .absent (fun _ hmade => by cases hmade) (fun _ _ heq => by cases heq)
      (fun _ heq => by cases heq)
  | call p =>
    simp only [step]
    split
    · exact h.create p rfl (fun _ _ => by simp) (fun _ => by simp)
    · exact h
  | isFile p =>
    simp only [step]
    split
    · split
      · exact h.goto p .opening (fun _ hmade => by cases hmade) (fun _ _ heq => by cases heq)
          (fun _ heq => by cases heq)
      · exact h.goto p (.takingOver none) (fun _ hmade => by cases hmade)
          (fun _ _ heq => by cases heq) (fun _ heq => by cases heq)
    · exact h
  | read p =>
    simp only [step]
    split
    · split
      · exact h.goto p .outside (fun _ hmade => by cases hmade) (fun _ _ heq => by cases heq)
          (fun _ heq => by cases heq)
      · exact h.goto p .outside (fun _ hmade => by cases hmade) (fun _ _ heq => by cases heq)
          (fun _ heq => by cases heq)
      next made pid hlock =>
        refine h.goto p (.testing made pid) (fun _ hmade => by cases hmade) ?_
          (fun _ heq => by cases heq)
        rintro _ _ ⟨⟩
        exact ⟨h.older _ hlock, h.owned _ pid hlock rfl⟩
      next made hlock =>
        refine h.goto p (.takingOver (some made)) (fun _ hmade => by cases hmade)
          (fun _ _ heq => by cases heq) ?_
        rintro _ ⟨⟩
        exact ⟨h.older _ hlock, h.unowned _ hlock rfl⟩
    · exact h
  | kill p result =>
    simp only [step]
    split
    next made pid hphase =>
      split
      next hanswers =>
        split
        · exact h.goto p .outside (fun _ hmade => by cases hmade) (fun _ _ heq => by cases heq)
            (fun _ heq => by cases heq)
        next hresult =>
          refine h.goto p (.takingOver (some made)) (fun _ hmade => by cases hmade)
            (fun _ _ heq => by cases heq) ?_
          rintro _ ⟨⟩
          obtain ⟨hlt, howner⟩ := h.tested p made pid hphase
          have habsent : s.phase pid = .absent := by
            cases result with
            | delivered => exact absurd rfl hresult
            | noProcess => simpa [State.answers] using hanswers
            | denied => exact hok rfl made pid hphase
          refine ⟨hlt, fun q hq => ?_⟩
          rw [howner q hq, habsent] at hq
          cases hq
      · exact h
    · exact h
  | unlink p =>
    simp only [step]
    split
    next read hphase =>
      have hfree : ∀ q made, (s.phase q).held ≠ some made := by
        intro q made hq
        obtain ⟨file, hfile, hmade⟩ := h.present q made hq
        have htaking := hok file hfile
        exact (h.taken p _ htaking).2 q (by rw [hq, hmade])
      have hgone := h.goto p .retrying (fun _ hmade => by cases hmade)
        (fun _ _ heq => by cases heq) (fun _ heq => by cases heq)
      refine hgone.withoutLock fun q made hq => ?_
      by_cases heq : q = p
      · subst heq
        rw [goto_phase_self] at hq
        cases hq
      · rw [goto_phase_of_ne s _ heq] at hq
        exact hfree q made hq
    · exact h
  | retry p =>
    simp only [step]
    split
    · exact h.create p rfl (fun _ _ => by simp) (fun _ => by simp)
    · exact h
  | write p =>
    simp only [step]
    split
    next made hphase =>
      have hheld : (s.phase p).held = some made := by rw [hphase]; rfl
      obtain ⟨file, hfile, rfl⟩ := h.present p made hheld
      have hin := h.goto p (.inside file.made) (fun _ hmade => by rw [hheld]; exact hmade)
        (fun _ _ heq => by cases heq) (fun _ heq => by cases heq)
      rw [hfile]
      simp only [Option.map_some, if_true]
      refine ⟨?_, ?_, hin.unique, ?_, ?_, hin.tested, hin.taken, h.own⟩
      · rintro _ ⟨⟩
        exact h.older file hfile
      · intro q made hq
        obtain ⟨other, hother, hmade⟩ := hin.present q made hq
        have hother : s.lock = some other := hother
        rw [hfile] at hother
        cases hother
        exact ⟨_, rfl, hmade⟩
      · rintro _ pid ⟨⟩ ⟨⟩ q hq
        exact hin.unique q p file.made hq (by rw [goto_phase_self]; rfl)
      · rintro _ ⟨⟩ htext
        cases htext
    · exact h
  | leave p =>
    simp only [step]
    split
    next made hphase =>
      exact h.goto p (.leaving made) (fun _ hmade => by rw [hphase]; exact hmade)
        (fun _ _ heq => by cases heq) (fun _ heq => by cases heq)
    · exact h
  | release p =>
    simp only [step]
    split
    next made hphase =>
      have hheld : (s.phase p).held = some made := by rw [hphase]; rfl
      obtain ⟨file, hfile, rfl⟩ := h.present p made hheld
      have hout := h.goto p .outside (fun _ hmade => by cases hmade)
        (fun _ _ heq => by cases heq) (fun _ heq => by cases heq)
      have hfree : ∀ q made, ((s.goto p .outside).phase q).held ≠ some made := by
        intro q made hq
        by_cases heq : q = p
        · subst heq
          rw [goto_phase_self] at hq
          cases hq
        · rw [goto_phase_of_ne s _ heq] at hq
          obtain ⟨other, hother, rfl⟩ := h.present q made hq
          rw [hfile] at hother
          cases hother
          exact heq (h.unique q p _ hq hheld)
      have hgone := hout.withoutLock hfree
      refine ⟨hgone.older, hgone.present, hgone.unique, hgone.owned, hgone.unowned, hgone.tested,
        hgone.taken, fun released hin => ?_⟩
      rw [hfile] at hin
      rcases List.mem_append.mp hin with hin | hin
      · exact h.own released hin
      · rw [List.mem_singleton.mp hin]
    · exact h
  | raises p =>
    simp only [step, State.raising]
    split
    · exact h
    next made hphase =>
      exact h.goto p (.leaving made) (fun _ hmade => by rw [hphase]; exact hmade)
        (fun _ _ heq => by cases heq) (fun _ heq => by cases heq)
    next made hphase =>
      exact h.goto p (.leaving made) (fun _ hmade => by rw [hphase]; exact hmade)
        (fun _ _ heq => by cases heq) (fun _ heq => by cases heq)
    · exact h.goto p .outside (fun _ hmade => by cases hmade) (fun _ _ heq => by cases heq)
        (fun _ heq => by cases heq)

theorem exclusive_start (lock : Option LockFile) : Exclusive (start lock) := by
  refine ⟨?_, ?_, ?_, ?_, ?_, ?_, ?_, ?_⟩
  · rintro file rfl
    exact Nat.lt_succ_self _
  all_goals simp [start, Phase.held]

/-- While takeovers remove only dead processes' locks, one process at a time is in the
locked region, and each removes its own lock when it leaves. -/
theorem one_writer (lock : Option LockFile) {actions : List Action}
    (h : Run.Every step Careful (start lock) actions) :
    (∀ p q made made', ((Run.run step (start lock) actions).phase p).held = some made →
        ((Run.run step (start lock) actions).phase q).held = some made' → p = q) ∧
      ∀ released ∈ (Run.run step (start lock) actions).released, released.1 = released.2 := by
  have hexclusive := Run.invariant_of_every exclusive_kept (exclusive_start lock) h
  refine ⟨fun p q made made' hp hq => ?_, hexclusive.own⟩
  obtain ⟨file, hfile, hmade⟩ := hexclusive.present p made hp
  obtain ⟨other, hother, hmade'⟩ := hexclusive.present q made' hq
  rw [hfile] at hother
  cases hother
  exact hexclusive.unique p q file.made (by rw [hp, hmade]) (by rw [hq, hmade'])

/-! ## Runs -/

instance decidableCareful : ∀ a s, Decidable (Careful a s)
  | .kill p result, s =>
    match hphase : s.phase p with
    | .testing made pid =>
      decidable_of_iff (result = .denied → s.phase pid = .absent)
        ⟨fun h hresult made' pid' heq => by
          have heq := hphase.symm.trans heq
          cases heq
          exact h hresult,
        fun h hresult => h hresult made pid hphase⟩
    | .absent | .outside | .contending | .opening | .takingOver _ | .retrying | .created _
    | .inside _ | .leaving _ => .isTrue fun _ made pid heq => by rw [hphase] at heq; cases heq
  | .unlink p, s =>
    match hlock : s.lock with
    | none => .isTrue fun _ hfile => by rw [hlock] at hfile; cases hfile
    | some file =>
      decidable_of_iff (s.phase p = .takingOver (some file.made))
        ⟨fun h file' hfile => by
          rw [hlock] at hfile
          cases hfile
          exact h,
        fun h => h file hlock⟩
  | .spawn _, _ | .die _, _ | .call _, _ | .isFile _, _ | .read _, _ | .retry _, _ | .write _, _
  | .leave _, _ | .release _, _ | .raises _, _ => .isTrue trivial

/-- The lock of process 1, which is dead. -/
def stale : State := start (some ⟨0, .owner 1⟩)

/-- Process 2 takes over the lock, and process 3 finds the new owner alive. -/
def sequential : List Action :=
  [.spawn 2, .spawn 3, .call 2, .isFile 2, .read 2, .kill 2 .noProcess, .unlink 2, .retry 2,
    .write 2, .call 3, .isFile 3, .read 3, .kill 3 .delivered, .leave 2, .release 2]

theorem sequential_one_writer :
    (∀ p q made made', ((Run.run step stale sequential).phase p).held = some made →
        ((Run.run step stale sequential).phase q).held = some made' → p = q) ∧
      ∀ released ∈ (Run.run step stale sequential).released, released.1 = released.2 :=
  one_writer _ (by decide)

/-- Both processes have found the owner dead. -/
def bothTakingOver : List Action :=
  [.spawn 2, .spawn 3, .call 2, .call 3, .isFile 2, .isFile 3, .read 2, .read 3,
    .kill 2 .noProcess, .kill 3 .noProcess]

/-- Process 3 removes the lock that process 2 has just made. -/
def overtaking : List Action :=
  bothTakingOver ++ [.unlink 2, .retry 2, .write 2, .unlink 3, .retry 3, .write 3]

/-- Two processes take over a dead one's lock: both are in the locked region, and the
first to leave removes the lock of the other. -/
theorem two_writers :
    (Run.run step stale overtaking).phase 2 = .inside 1 ∧
      (Run.run step stale overtaking).phase 3 = .inside 2 ∧
      (Run.run step stale (overtaking ++ [.leave 2, .release 2])).lock =
        none ∧
      (Run.run step stale (overtaking ++ [.leave 2, .release 2])).released =
        [(1, 2)] := by
  decide

end WriterLock

end EvoCI
