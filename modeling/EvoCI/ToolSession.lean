import EvoCI.WriteTools

/-! The tools of one worker over its workspace: the commands and scripts of a worker that may not
write run in a disposable copy, and a call that writes drops the copy. -/

namespace EvoCI

open Library

/-! ## The session -/

/-- A program: what it makes of the workspace where it runs there, what it makes of the workspace
and of the copy where it runs in the copy, and what its call raises. Nothing confines a program to
the tree it runs in. -/
structure Program where
  inWorkspace : Files → Files
  inCopy : Files → Files → Files × Files
  error : Option PyError := none

/-- In the copy, the program leaves the workspace alone. -/
def Program.Stays (program : Program) : Prop :=
  ∀ workspace tree, (program.inCopy workspace tree).1 = workspace

/-- A disposable copy: the workspace that it was made of, and what its tree is now. -/
structure WorkspaceCopy where
  source : Files
  tree : Files

/-- What a session does not change. `copy` is what the copying with a number makes of the
workspace, `madeDirs` are the parents that a write which raises has made by then. -/
structure SessionHost where
  /-- `capabilities.write_files`. -/
  writable : Bool
  registry : WriteRegistry
  copy : Nat → Files → Except PyError Files
  madeDirs : WriteCall → Files → List Loc

/-- Directories where there was nothing. -/
def Files.makeDirs (files : Files) (dirs : List Loc) : Files :=
  fun l => if l ∈ dirs ∧ (files l).isNone then some (.dir newDirMode) else files l

/-- What a write that raises leaves. `write_file` makes the parents behind the checks of the
policy and before everything that the operating system can refuse. -/
def SessionHost.left (host : SessionHost) (call : WriteCall) (files : Files) : PyError → Files
  | .policyViolation _ => files
  | _ => files.makeDirs (host.madeDirs call files)

/-- The state behind the tools of `create_worker_registry`: the copies that are there, by their
numbers, and where commands run, in a copy or in the workspace. -/
structure ToolSession where
  workspace : Files
  copies : Nat → Option WorkspaceCopy
  made : Nat
  disposable : Option Nat
  revision : Nat
  runner : Option Nat

/-- A call of a tool. -/
inductive ToolUse where
  /-- A call that is refused before it does anything. -/
  | refused (e : PyError)
  | write (call : WriteCall)
  /-- `run_command` and `run_test`. -/
  | command (program : Program)
  /-- A skill script without the permission to write. -/
  | script (program : Program)

/-- Why a worker without the permission to write may not make the call. -/
def WriteCall.forbidden : WriteCall → PyError
  | .applyPatch _ => .policyViolation "tool apply_patch requires write_files"
  | .replaceText _ _ _ _ => .policyViolation "tool replace_text requires write_files"
  | .createFile _ _ => .policyViolation "tool create_file requires write_files"
  | .deleteFile _ => .policyViolation "tool delete_file requires write_files"
  | .runSkillScript _ _ => .policyViolation
      "skill requests workspace writes that this worker role does not permit"

/-- The script of a skill drops the copy in a `finally`. -/
def WriteCall.dropsAlways : WriteCall → Bool
  | .runSkillScript _ _ => true
  | _ => false

/-- The call runs its program in the copy. -/
def ToolUse.isScript : ToolUse → Bool
  | .script _ => true
  | _ => false

/-- The call leaves the copy standing when it raises this, or nothing. -/
def ToolUse.spares : ToolUse → Option PyError → Bool
  | .refused _, _ | .script _, _ => true
  | .write call, raised => raised.isSome && !call.dropsAlways
  | .command _, raised => raised.isSome

/-- The program that a call runs, if it runs one. -/
def ToolUse.program? : ToolUse → Option Program
  | .command program | .script program => some program
  | _ => none

namespace ToolSession

def fresh (workspace : Files) : ToolSession := ⟨workspace, fun _ => none, 0, none, 0, none⟩

def invalidateSnapshots (s : ToolSession) : ToolSession :=
  { s with copies := fun _ => none, disposable := none, revision := s.revision + 1 }

/-- `disposable_workspace`: the path is set before the copy is made. -/
def disposableWorkspace (host : SessionHost) (s : ToolSession) :
    ToolSession × Except PyError Nat :=
  match s.disposable with
  | some n => (s, .ok n)
  | none =>
    let opened := { s with made := s.made + 1, disposable := some s.made }
    match host.copy s.made s.workspace with
    | .error e => (opened, .error e)
    | .ok tree =>
      ({ opened with
        copies := Function.update s.copies s.made (some ⟨s.workspace, tree⟩) }, .ok s.made)

/-- A program runs in the copy with this number, or else in the workspace. -/
def runIn (s : ToolSession) (program : Program) : Option Nat → ToolSession × Option PyError
  | none => ({ s with workspace := program.inWorkspace s.workspace }, program.error)
  | some n =>
    match s.copies n with
    | none => (s, some (.osError "No such file or directory"))
    | some c =>
      ({ s with
        workspace := (program.inCopy s.workspace c.tree).1
        copies := Function.update s.copies n
          (some { c with tree := (program.inCopy s.workspace c.tree).2 }) }, program.error)

/-- One call of a tool, and what it raises. -/
def use (host : SessionHost) (s : ToolSession) : ToolUse → ToolSession × Option PyError
  | .refused e => (s, some e)
  | .write call =>
    if host.writable = false then (s, some call.forbidden)
    else
      match call.perform host.registry s.workspace with
      | (files, .error e) =>
        let left := host.left call files e
        if call.dropsAlways then ({ s with workspace := left }.invalidateSnapshots, some e)
        else ({ s with workspace := left }, some e)
      | (files, .ok _) => ({ s with workspace := files }.invalidateSnapshots, none)
  | .command program =>
    match s.runIn program s.runner with
    | (t, some e) => (t, some e)
    | (t, none) => (if host.writable then t.invalidateSnapshots else t, none)
  | .script program =>
    match s.disposableWorkspace host with
    | (t, .error e) => (t, some e)
    | (t, .ok n) => t.runIn program (some n)

/-- `create_worker_registry`. -/
def start (host : SessionHost) (workspace : Files) : Except PyError ToolSession :=
  if host.writable then .ok (fresh workspace)
  else
    match (fresh workspace).disposableWorkspace host with
    | (_, .error e) => .error e
    | (s, .ok n) => .ok { s with runner := some n }

def step (s : ToolSession) (host : SessionHost) (call : ToolUse) : ToolSession :=
  (s.use host call).1

/-- The session after some calls. -/
def after (host : SessionHost) (s : ToolSession) (calls : List ToolUse) : ToolSession :=
  Run.run (fun call s => s.step host call) s calls

/-! ## What a call does -/

variable {host : SessionHost} {s t : ToolSession}

/-- There is one copy at most, the one that scripts run in. -/
def Single (s : ToolSession) : Prop := ∀ n, s.copies n ≠ none → s.disposable = some n

theorem single_fresh (workspace : Files) : (fresh workspace).Single := fun _ h => absurd rfl h

theorem single_invalidate (s : ToolSession) : s.invalidateSnapshots.Single :=
  fun _ h => absurd rfl h

/-- A copy stays that of its workspace, or is a new one of the present workspace. -/
structure Shares (s t : ToolSession) : Prop where
  revision : t.revision = s.revision
  runner : t.runner = s.runner
  disposable : ∀ n, s.disposable = some n → t.disposable = some n
  kept : ∀ n c, s.copies n = some c → ∃ c', t.copies n = some c' ∧ c'.source = c.source
  new : ∀ n c, t.copies n = some c →
    (∃ c', s.copies n = some c' ∧ c'.source = c.source) ∨
      s.disposable = none ∧ c.source = s.workspace

theorem Shares.refl (s : ToolSession) : s.Shares s :=
  ⟨rfl, rfl, fun _ h => h, fun _ c h => ⟨c, h, rfl⟩, fun _ c h => .inl ⟨c, h, rfl⟩⟩

theorem Shares.trans {u : ToolSession} (h : s.Shares t) (hworkspace : t.workspace = s.workspace)
    (h' : t.Shares u) : s.Shares u where
  revision := h'.revision.trans h.revision
  runner := h'.runner.trans h.runner
  disposable n hn := h'.disposable n (h.disposable n hn)
  kept n c hc := by
    obtain ⟨c', hc', hsource⟩ := h.kept n c hc
    obtain ⟨c'', hc'', hsource'⟩ := h'.kept n c' hc'
    exact ⟨c'', hc'', hsource'.trans hsource⟩
  new n c hc := by
    rcases h'.new n c hc with ⟨c', hc', hsource⟩ | ⟨hnone, hsource⟩
    · rcases h.new n c' hc' with ⟨c'', hc'', hsource'⟩ | ⟨hnone, hsource'⟩
      · exact .inl ⟨c'', hc'', hsource'.trans hsource⟩
      · exact .inr ⟨hnone, hsource ▸ hsource'⟩
    · refine .inr ⟨?_, hsource.trans hworkspace⟩
      cases hdisposable : s.disposable with
      | none => rfl
      | some m =>
        rw [h.disposable m hdisposable] at hnone
        cases hnone

theorem disposableWorkspace_workspace (host : SessionHost) (s : ToolSession) :
    (s.disposableWorkspace host).1.workspace = s.workspace := by
  unfold disposableWorkspace
  split
  · rfl
  · simp only
    split <;> rfl

theorem shares_disposableWorkspace (host : SessionHost) (hs : s.Single) :
    s.Shares (s.disposableWorkspace host).1 ∧ (s.disposableWorkspace host).1.Single := by
  rw [disposableWorkspace]
  cases hdisposable : s.disposable with
  | some n => exact ⟨.refl s, hs⟩
  | none =>
    have hempty : ∀ n, s.copies n = none := fun n => by
      by_contra hcopy
      rw [hs n hcopy] at hdisposable
      cases hdisposable
    cases host.copy s.made s.workspace with
    | error e =>
      refine ⟨⟨rfl, rfl, fun n h => ?_, fun n c h => ⟨c, h, rfl⟩,
        fun n c h => .inl ⟨c, h, rfl⟩⟩, fun n h => absurd (hempty n) h⟩
      rw [hdisposable] at h
      cases h
    | ok tree =>
      refine ⟨⟨rfl, rfl, fun n h => ?_, fun n c h => ?_, fun n c h => ?_⟩, fun n h => ?_⟩
      · rw [hdisposable] at h
        cases h
      · rw [hempty n] at h
        cases h
      · refine .inr ⟨hdisposable, ?_⟩
        simp only [Function.update_apply, hempty] at h
        split at h <;> cases h
        rfl
      · simp only [Function.update_apply, hempty, ne_eq, ite_eq_right_iff, reduceCtorEq, imp_false,
          Decidable.not_not] at h
        exact congrArg some h.symm

theorem shares_runIn (hs : s.Single) (program : Program) (n : Nat) :
    s.Shares (s.runIn program (some n)).1 ∧ (s.runIn program (some n)).1.Single := by
  rw [runIn]
  cases hcopy : s.copies n with
  | none => exact ⟨.refl s, hs⟩
  | some c =>
    refine ⟨⟨rfl, rfl, fun _ h => h, fun m d h => ?_, fun m d h => ?_⟩, fun m h => ?_⟩
    · by_cases hm : m = n
      · subst hm
        rw [hcopy] at h
        cases h
        exact ⟨_, Function.update_self m _ _, rfl⟩
      · exact ⟨d, (Function.update_of_ne hm _ _).trans h, rfl⟩
    · left
      by_cases hm : m = n
      · subst hm
        simp only [Function.update_self, Option.some.injEq] at h
        exact ⟨c, hcopy, h ▸ rfl⟩
      · simp only [Function.update_of_ne hm] at h
        exact ⟨d, h, rfl⟩
    · refine hs m fun hnone => h ?_
      have hm : m ≠ n := by
        rintro rfl
        rw [hcopy] at hnone
        cases hnone
      simpa only [Function.update_of_ne hm] using hnone

theorem shares_script (host : SessionHost) (hs : s.Single) (program : Program) :
    s.Shares (s.step host (.script program)) ∧ (s.step host (.script program)).Single := by
  obtain ⟨hshares, hsingle⟩ := shares_disposableWorkspace host hs
  simp only [step, use]
  split
  next t e hopened =>
    rw [hopened] at hshares hsingle
    exact ⟨hshares, hsingle⟩
  next t n hopened =>
    rw [hopened] at hshares hsingle
    obtain ⟨hran, hsingle⟩ := shares_runIn hsingle program n
    have hworkspace := disposableWorkspace_workspace host s
    rw [hopened] at hworkspace
    exact ⟨hshares.trans hworkspace hran, hsingle⟩

/-- A script that changes the workspace has run in a copy. -/
theorem script_ran (host : SessionHost) (hs : s.Single) (program : Program)
    (hchanged : (s.step host (.script program)).workspace ≠ s.workspace) :
    ∃ n, (s.step host (.script program)).copies n ≠ none := by
  have hworkspace := disposableWorkspace_workspace host s
  obtain ⟨-, hsingle⟩ := shares_disposableWorkspace host hs
  simp only [step, use] at hchanged ⊢
  split at hchanged
  next t e hopened =>
    rw [hopened] at hworkspace
    exact absurd hworkspace hchanged
  next t n hopened =>
    rw [hopened] at hworkspace hsingle
    cases hcopy : t.copies n with
    | none =>
      simp only [runIn, hcopy] at hchanged
      exact absurd hworkspace hchanged
    | some c =>
      obtain ⟨hran, -⟩ := shares_runIn hsingle program n
      obtain ⟨c', hc', -⟩ := hran.kept n c hcopy
      exact ⟨n, hc' ▸ Option.some_ne_none c'⟩

/-! ## A worker that may write -/

/-- A call of a worker that may write drops the copy, or leaves it standing, or is a script. -/
theorem step_cases (hwritable : host.writable = true) (hrunner : s.runner = none)
    (call : ToolUse) :
    (∃ files, s.step host call = { s with workspace := files }.invalidateSnapshots ∧
      call.spares (s.use host call).2 = false) ∨
    (∃ files raised, s.use host call = ({ s with workspace := files }, raised) ∧
      call.spares raised = true ∧ call.isScript = false) ∨
    ∃ program, call = .script program := by
  cases call with
  | refused e => exact .inr (.inl ⟨s.workspace, some e, rfl, rfl, rfl⟩)
  | write call =>
    simp only [step, use, hwritable, Bool.true_eq_false, if_false]
    cases hperform : call.perform host.registry s.workspace with
    | mk files result =>
      cases result with
      | ok result => exact .inl ⟨files, rfl, rfl⟩
      | error e =>
        by_cases hdrops : call.dropsAlways = true
        · simp only [if_pos hdrops]
          exact .inl ⟨_, rfl, by simp [ToolUse.spares, hdrops]⟩
        · simp only [if_neg hdrops]
          exact .inr (.inl ⟨_, _, rfl, by simp [ToolUse.spares, hdrops], rfl⟩)
  | command program =>
    simp only [step, use, hrunner, runIn, hwritable, if_true]
    cases program.error with
    | none => exact .inl ⟨program.inWorkspace s.workspace, rfl, rfl⟩
    | some e => exact .inr (.inl ⟨program.inWorkspace s.workspace, some e, rfl, rfl, rfl⟩)
  | script program => exact .inr (.inr ⟨program, rfl⟩)

/-- The copy, if there is one, is of the workspace as it is. -/
def Current (s : ToolSession) : Prop := ∀ n c, s.copies n = some c → c.source = s.workspace

/-- A script in the copy changes the workspace, or a call that leaves the copy standing does while
there is one. -/
def Interrupted (host : SessionHost) (call : ToolUse) (s : ToolSession) : Prop :=
  call.spares (s.use host call).2 = true ∧ (call.isScript = true ∨ ∃ n, s.copies n ≠ none) ∧
    (s.step host call).workspace ≠ s.workspace

theorem current_script (hs : s.Single) (hcurrent : s.Current) (program : Program) :
    (s.step host (.script program)).Current ↔
      (s.step host (.script program)).workspace = s.workspace := by
  obtain ⟨hshares, -⟩ := shares_script host hs program
  have hsource : ∀ n c, (s.step host (.script program)).copies n = some c →
      c.source = s.workspace := fun n c hc => by
    rcases hshares.new n c hc with ⟨c', hc', hsource⟩ | ⟨-, hsource⟩
    · exact hsource ▸ hcurrent n c' hc'
    · exact hsource
  constructor
  · intro hnext
    by_contra hchanged
    obtain ⟨n, hcopy⟩ := script_ran host hs program hchanged
    obtain ⟨c, hc⟩ := Option.ne_none_iff_exists'.mp hcopy
    exact hchanged ((hnext n c hc).symm.trans (hsource n c hc))
  · intro hsame n c hc
    exact (hsource n c hc).trans hsame.symm

theorem current_step (hwritable : host.writable = true) (hrunner : s.runner = none)
    (hs : s.Single) (hcurrent : s.Current) (call : ToolUse) :
    (s.step host call).Current ↔ ¬ Interrupted host call s := by
  rcases step_cases hwritable hrunner call with ⟨files, hstep, hdropped⟩ |
    ⟨files, raised, huse, hspares, hscript⟩ | ⟨program, rfl⟩
  · rw [hstep]
    refine iff_of_true (fun n c h => by cases h) fun hinterrupted => ?_
    exact absurd hinterrupted.1 (Bool.eq_false_iff.mp hdropped)
  · have hstep : s.step host call = { s with workspace := files } := congrArg Prod.fst huse
    rw [Interrupted, hstep, huse]
    constructor
    · rintro hnext ⟨-, hthere, hchanged⟩
      obtain ⟨n, hcopy⟩ := hthere.resolve_left (Bool.eq_false_iff.mp hscript)
      obtain ⟨c, hc⟩ := Option.ne_none_iff_exists'.mp hcopy
      exact hchanged ((hnext n c hc).symm.trans (hcurrent n c hc))
    · intro hnot n c hc
      refine (hcurrent n c hc).trans (by_contra fun hchanged => hnot ⟨hspares, .inr ⟨n, ?_⟩, ?_⟩)
      · exact Option.ne_none_iff_exists'.mpr ⟨c, hc⟩
      · exact fun heq => hchanged heq.symm
  · rw [current_script hs hcurrent, ← not_iff_not, not_not]
    exact ⟨fun hchanged => ⟨rfl, .inl rfl, hchanged⟩, fun hinterrupted => hinterrupted.2.2⟩

/-- What the tools keep, of a worker that may write. -/
structure Sound (s : ToolSession) : Prop where
  runner : s.runner = none
  single : s.Single

theorem Sound.step (hwritable : host.writable = true) (h : s.Sound) (call : ToolUse) :
    (s.step host call).Sound := by
  rcases step_cases hwritable h.runner call with ⟨files, hstep, -⟩ |
    ⟨files, raised, huse, -⟩ | ⟨program, rfl⟩
  · rw [hstep]
    exact ⟨h.runner, single_invalidate _⟩
  · rw [ToolSession.step, huse]
    exact ⟨h.runner, h.single⟩
  · obtain ⟨hshares, hsingle⟩ := shares_script host h.single program
    exact ⟨hshares.runner.trans h.runner, hsingle⟩

/-- Where a script runs: in a copy of these files. -/
def scriptSource (host : SessionHost) (s : ToolSession) : Option Files :=
  match s.disposableWorkspace host with
  | (t, .ok n) => (t.copies n).map WorkspaceCopy.source
  | (_, .error _) => none

theorem disposable_of_ok {n : Nat} (h : s.disposableWorkspace host = (t, .ok n)) :
    t.disposable = some n := by
  rw [disposableWorkspace] at h
  cases hdisposable : s.disposable with
  | some m =>
    rw [hdisposable] at h
    cases h
    exact hdisposable
  | none =>
    rw [hdisposable] at h
    cases hcopy : host.copy s.made s.workspace with
    | error e =>
      rw [hcopy] at h
      cases h
    | ok tree =>
      rw [hcopy] at h
      cases h
      rfl

theorem scriptSource_of_disposable {n : Nat} (h : s.disposable = some n) :
    s.scriptSource host = (s.copies n).map WorkspaceCopy.source := by
  rw [scriptSource, disposableWorkspace, h]

/-- The copy that a script runs in is there behind it. -/
theorem scriptSource_step (hs : s.Single) (program : Program) {files : Files}
    (h : s.scriptSource host = some files) :
    ∃ n c, (s.step host (.script program)).disposable = some n ∧
      (s.step host (.script program)).copies n = some c ∧ c.source = files := by
  obtain ⟨-, hsingle⟩ := shares_disposableWorkspace host hs
  rw [scriptSource] at h
  simp only [step, use]
  cases hopened : s.disposableWorkspace host with
  | mk t result =>
    rw [hopened] at h hsingle
    cases result with
    | error e => cases h
    | ok n =>
      obtain ⟨c, hc, rfl⟩ := Option.map_eq_some_iff.mp h
      obtain ⟨hran, -⟩ := shares_runIn hsingle program n
      obtain ⟨c', hc', hsource⟩ := hran.kept n c hc
      exact ⟨n, c', hran.disposable n (disposable_of_ok hopened), hc', hsource⟩

/-- As long as the revision is the same, so is the copy. -/
structure Persists (s t : ToolSession) : Prop where
  revision : s.revision ≤ t.revision
  disposable : t.revision = s.revision → ∀ n, s.disposable = some n → t.disposable = some n
  kept : t.revision = s.revision → ∀ n c, s.copies n = some c →
    ∃ c', t.copies n = some c' ∧ c'.source = c.source

theorem Persists.refl (s : ToolSession) : s.Persists s :=
  ⟨Nat.le_refl _, fun _ _ h => h, fun _ _ c h => ⟨c, h, rfl⟩⟩

theorem Persists.trans {u : ToolSession} (h : s.Persists t) (h' : t.Persists u) :
    s.Persists u := by
  have hle := h.revision
  have hle' := h'.revision
  refine ⟨by omega, fun heq n hn => ?_, fun heq n c hc => ?_⟩
  · exact h'.disposable (by omega) n (h.disposable (by omega) n hn)
  · obtain ⟨c', hc', hsource⟩ := h.kept (by omega) n c hc
    obtain ⟨c'', hc'', hsource'⟩ := h'.kept (by omega) n c' hc'
    exact ⟨c'', hc'', hsource'.trans hsource⟩

theorem Sound.persists (hwritable : host.writable = true) (h : s.Sound) (call : ToolUse) :
    s.Persists (s.step host call) := by
  rcases step_cases hwritable h.runner call with ⟨files, hstep, -⟩ |
    ⟨files, raised, huse, -⟩ | ⟨program, rfl⟩
  · have hnext : (s.step host call).revision = s.revision + 1 := by rw [hstep]; rfl
    exact ⟨by omega, fun heq => by omega, fun heq => by omega⟩
  · rw [ToolSession.step, huse]
    exact ⟨Nat.le_refl _, fun _ _ h => h, fun _ _ c h => ⟨c, h, rfl⟩⟩
  · obtain ⟨hshares, -⟩ := shares_script host h.single program
    exact ⟨hshares.revision.ge, fun _ => hshares.disposable, fun _ => hshares.kept⟩

theorem Sound.after (hwritable : host.writable = true) (h : s.Sound) (calls : List ToolUse) :
    (s.after host calls).Sound := by
  induction calls generalizing s with
  | nil => exact h
  | cons call calls ih => exact ih (h.step hwritable call)

theorem Sound.persists_after (hwritable : host.writable = true) (h : s.Sound)
    (calls : List ToolUse) : s.Persists (s.after host calls) := by
  induction calls generalizing s with
  | nil => exact .refl s
  | cons call calls ih => exact (h.persists hwritable call).trans (ih (h.step hwritable call))

/-- What every call leaves of the session of a worker that may not write: the workspace now, and
the tree of the one copy, made of `source`. -/
structure Reads (source : Files) (trees : Files × Files) (s : ToolSession) : Prop where
  workspace : s.workspace = trees.1
  revision : s.revision = 0
  runner : s.runner = some 0
  disposable : s.disposable = some 0
  copy : s.copies 0 = some ⟨source, trees.2⟩

theorem Reads.runIn {source : Files} {trees : Files × Files} (h : s.Reads source trees)
    (program : Program) :
    (s.runIn program (some 0)).1.Reads source (program.inCopy trees.1 trees.2) := by
  rw [ToolSession.runIn, h.copy, h.workspace]
  exact ⟨rfl, h.revision, h.runner, h.disposable, rfl⟩

theorem Reads.step (hreadonly : host.writable = false) {source : Files} {trees : Files × Files}
    (h : s.Reads source trees) (call : ToolUse) :
    (s.step host call).Reads source
      ((call.program?).elim trees fun program => program.inCopy trees.1 trees.2) := by
  cases call with
  | refused e => exact h
  | write call =>
    rw [ToolSession.step, use, if_pos hreadonly]
    exact h
  | command program =>
    have hran := h.runIn program
    simp only [ToolSession.step, use, h.runner, hreadonly]
    split
    next t e hrun =>
      rw [hrun] at hran
      exact hran
    next t hrun =>
      rw [hrun] at hran
      exact hran
  | script program =>
    simp only [ToolSession.step, use, disposableWorkspace, h.disposable]
    exact h.runIn program

theorem reads_start (hreadonly : host.writable = false) {workspace : Files} {s : ToolSession}
    (hstart : start host workspace = .ok s) :
    ∃ tree, host.copy 0 workspace = .ok tree ∧ s.Reads workspace (workspace, tree) := by
  simp only [start, hreadonly, disposableWorkspace, fresh] at hstart
  cases hcopy : host.copy 0 workspace with
  | error e =>
    rw [hcopy] at hstart
    cases hstart
  | ok tree =>
    rw [hcopy] at hstart
    cases hstart
    exact ⟨tree, rfl, rfl, rfl, rfl, rfl, rfl⟩

/-- What programs make of the workspace and the copy, one behind the other. -/
def runPrograms (trees : Files × Files) (programs : List Program) : Files × Files :=
  programs.foldl (fun trees program => program.inCopy trees.1 trees.2) trees

theorem runPrograms_stay {programs : List Program} (h : ∀ program ∈ programs, program.Stays)
    (trees : Files × Files) : (runPrograms trees programs).1 = trees.1 := by
  induction programs generalizing trees with
  | nil => rfl
  | cons program programs ih =>
    have hone := h program List.mem_cons_self trees.1 trees.2
    exact (ih (fun other hmem => h other (List.mem_cons_of_mem _ hmem)) _).trans hone

theorem Reads.after (hreadonly : host.writable = false) {source : Files} {trees : Files × Files}
    (h : s.Reads source trees) (calls : List ToolUse) :
    (s.after host calls).Reads source
      (runPrograms trees (calls.filterMap ToolUse.program?)) := by
  induction calls generalizing s trees with
  | nil => exact h
  | cons call calls ih =>
    have hnext := ih (h.step hreadonly call)
    cases hprogram : call.program? with
    | none =>
      rw [hprogram] at hnext
      rw [List.filterMap_cons_none hprogram]
      exact hnext
    | some program =>
      rw [hprogram] at hnext
      rw [List.filterMap_cons_some hprogram]
      exact hnext

end ToolSession

namespace Sample

def bare : Files := fun _ => none

/-- A session whose copies hold what the workspace holds. The system refuses the file "new/x" when
its parent has been made. -/
def toolHost (writable : Bool) : SessionHost where
  writable := writable
  registry := { root := [], allowedWrites := ["new/x"], denied := (· = ["new", "x"]) }
  copy _ files := .ok files
  madeDirs _ _ := [["new"]]

def scribble : Program where
  inWorkspace files := files.put ["out"] (.file (.utf8 "x") 0o644)
  inCopy workspace tree := (workspace, tree.put ["out"] (.file (.utf8 "x") 0o644))

end Sample

end EvoCI
