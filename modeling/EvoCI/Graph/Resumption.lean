import EvoCI.Resume
import EvoCI.Graph.Steps

/-! `apply_candidate` killed between its writes and resumed by new processes,
against one execution that is not interrupted. -/

namespace EvoCI

open Library

/-! ## The event log and the budget -/

theorem verifyCommands_covered {cfg : Config} {env : NodeEnv} {s : EvoCIState}
    {planned : List PlannedCommand} {ledger : Ledger} (h : ledger.Covered) :
    (verifyCommands cfg env s planned ledger).2.Covered := by
  unfold verifyCommands
  split
  · unfold verifyOfficial
    split
    · exact h
    next charged hcharged =>
      have hstarted := Ledger.covered_emit h hcharged
      simp only
      split <;> exact hstarted _
  · unfold verifyLocal
    split
    · exact runVerification_covered h
    · exact executePlan_covered h
    · exact executePlan_covered h

theorem applyCandidate_covered {cfg : Config} {env : NodeEnv} {s : EvoCIState} {w : World}
    (h : w.ledger.Covered) : (applyCandidate cfg env s w).world.ledger.Covered := by
  unfold applyCandidate
  split
  · exact h
  · split
    · exact h
    · exact h
    · split
      next plan planned hplan =>
        have hcovered : planned.attempt.ledger.Covered := by
          show planned.ledger.Covered
          rw [(obtainPlan_ready hplan).2.2.1]
          exact h
        have hloop := @applyEdits_covered (applyContext cfg env s plan.baseline) env.crash s.edits
          planned.attempt hcovered
        unfold applyPlanned
        split
        all_goals
          next hres =>
            rw [hres] at hloop
            exact hloop
      · exact h
      · exact h

/-- No node records a tool call that it has not charged. -/
theorem nodeOutcome_covered {cfg : Config} {env : NodeEnv} {interrupt : Interrupt} {node : Node}
    {s : EvoCIState} {w : World} (h : w.ledger.Covered) :
    (nodeOutcome cfg env interrupt node s w).world.ledger.Covered := by
  have hcalls := Ledger.covered_calls h env.calls
  cases node with
  | bootstrap =>
    simp only [nodeOutcome, bootstrap]
    split <;> exact h
  | retrieveContext => exact h
  | supervise =>
    simp only [nodeOutcome, supervise, superviseRetry]
    repeat' split
    all_goals first
      | exact h
      | exact hcalls
  | prepareTask =>
    simp only [nodeOutcome, prepareTask, prepareSnapshot]
    repeat' split
    all_goals exact h
  | worker =>
    simp only [nodeOutcome, worker]
    repeat' split
    all_goals first
      | exact h
      | exact hcalls
  | approval =>
    simp only [nodeOutcome, approval]
    repeat' split
    all_goals exact h
  | applyCandidate => exact applyCandidate_covered h
  | verify =>
    simp only [nodeOutcome, verify]
    split
    · exact h
    next planned hplanned =>
      have hrun := @verifyCommands_covered cfg env s planned w.ledger h
      cases hresult : verifyCommands cfg env s planned w.ledger with
      | mk verifying ledger =>
        rw [hresult] at hrun
        cases verifying with
        | returned verification =>
          simp only [verifyVerdict]
          repeat' split
          all_goals exact hrun
        | raised e =>
          simp only [verifyHandler]
          split <;> exact hrun
        | killed => exact hrun
  | rollback =>
    have hcleanup := @Ledger.covered_emit_uncounted w.ledger h
      (toolCallEvent cfg "harness" s!"rollback:{s.supervisorBatch}" .cleanup)
      (by simp [toolCallEvent])
    simp only [nodeOutcome, rollback]
    repeat' split
    all_goals exact hcleanup
  | finalize =>
    simp only [nodeOutcome, finalize, persistRunOutcome]
    repeat' split
    all_goals exact h
  | failed =>
    simp only [nodeOutcome, failed, persistRunOutcome]
    repeat' split
    all_goals exact h

/-- In every run, a new process finds no more recorded tool calls than the
process before it had charged. -/
theorem covered_of_reached {cfg : Config} {r : GraphRun} (h : Reached cfg r) :
    r.world.ledger.Covered := by
  refine @holds_of_reached cfg (fun r => r.world.ledger.Covered) (fun _ _ _ _ => Nat.le_refl _)
    ?_ r h
  intro r a hr
  refine @kept_of_worlds cfg (fun _ _ => True) (fun r => r.world.ledger.Covered)
    ?_ ?_ ?_ ?_ ?_ r a trivial hr
  · exact fun r _ hr => hr
  · exact fun r _ => Ledger.covered_restart r.world.ledger
  · exact fun r _ _ hr => hr
  · intro r env node s w _ hr _ hrun
    have hcovered := @nodeOutcome_covered cfg env r.interrupt node r.state r.world hr
    rw [runNode_done hrun] at hcovered
    exact hcovered
  · intro r env node outcome _ hr _ hrun _
    rw [← hrun]
    show (runNode cfg env r.interrupt node r.state r.world).world.ledger.Covered
    rw [runNode, afterLoss_world]
    exact nodeOutcome_covered hr

/-! ## Resuming the node -/

/-- `apply_candidate` killed at each crash point in turn and resumed by a new
process after each. -/
def applyCandidateResumed (cfg : Config) (env : NodeEnv) (s : EvoCIState) :
    List CrashPoint → World → Outcome
  | [], w => applyCandidate cfg { env with crash := none } s w
  | c :: crashes, w =>
    match applyCandidate cfg { env with crash := some c } s w with
    | .killed w' => applyCandidateResumed cfg env s crashes w'.restart
    | other => other

/-- How the node ends when its loop ends in this way. -/
def ApplyResult.outcome (cfg : Config) (s : EvoCIState) (baseline : Baseline) (w : World) :
    ApplyResult → Outcome
  | .applied a => .done (applyDone cfg s baseline a) (w.after a)
  | .conflict e a => .done (applyConflict s e baseline a.written) (w.after a)
  | .raised e a => .raised e (w.after a)
  | .killed a => .killed (w.after a)

theorem ApplyResult.outcome_applied {cfg : Config} {s : EvoCIState} {baseline : Baseline}
    {w : World} {result : ApplyResult} {a : Attempt} :
    result.outcome cfg s baseline w = .done (applyDone cfg s baseline a) (w.after a) ↔
      result = .applied a := by
  constructor
  · intro h
    cases result with
    | applied other =>
      obtain ⟨hstate, hworld⟩ := Outcome.done.inj h
      have hwritten : other.written = a.written :=
        Option.some.inj (congrArg EvoCIState.attemptWritten hstate)
      have hfiles : other.files = a.files := congrArg World.files hworld
      have hledger : other.ledger = a.ledger := congrArg World.ledger hworld
      have hcharges : other.charges = a.charges := congrArg World.charges hworld
      have hwrites : other.writes = a.writes := congrArg World.writes hworld
      obtain ⟨files, ledger, written, charges, writes⟩ := other
      subst hwritten hfiles hledger hcharges hwrites
      rfl
    | conflict e other =>
      -- a conflict is counted among the failures
      have hclasses := congrArg EvoCIState.failureClasses (Outcome.done.inj h).1
      simp [applyConflict, applyDone] at hclasses
    | raised e other => cases h
    | killed other => cases h
  · rintro rfl
    rfl

/-- No two of the edits name one file. -/
def DistinctPaths (files : Files) (root : Loc) (edits : List FileEdit) : Prop :=
  (edits.map FileEdit.path).Nodup ∧ files.DistinctFiles root (edits.map FileEdit.path)

section Resumed

variable {cfg : Config} {env : NodeEnv} {s : EvoCIState} {w planned : World} {plan : ApplyPlan}

theorem applyCandidate_planned (hedits : s.edits ≠ []) (hscope : scopeCheck s = .ok ())
    (hplan : obtainPlan cfg s w = .ready plan planned) (crash : Option CrashPoint) :
    applyCandidate cfg { env with crash } s w =
      (applyEdits (applyContext cfg env s plan.baseline) crash s.edits planned.attempt).outcome
        cfg s plan.baseline planned := by
  simp only [applyCandidate, hedits, if_false, hscope, hplan, applyPlanned]
  show (match applyEdits (applyContext cfg env s plan.baseline) crash s.edits planned.attempt with
    | .applied a => _ | .conflict e a => _ | .raised e a => _ | .killed a => _) = _
  cases applyEdits (applyContext cfg env s plan.baseline) crash s.edits planned.attempt <;> rfl

/-- The plan a process saved is the one the next process finds. -/
theorem obtainPlan_after (hplan : obtainPlan cfg s w = .ready plan planned) (a : Attempt) :
    obtainPlan cfg s (planned.after a).restart = .ready plan (planned.after a).restart := by
  have hsaved : (planned.after a).restart.plans (operationId s) = some plan :=
    (obtainPlan_ready hplan).2.2.2.2.2.2.2
  simp [obtainPlan, hsaved]

/-- Resumed executions of the node are resumed executions of its loop. -/
theorem applyCandidateResumed_eq (hedits : s.edits ≠ []) (hscope : scopeCheck s = .ok ())
    (hplan : obtainPlan cfg s w = .ready plan planned) (crashes : List CrashPoint) :
    applyCandidateResumed cfg env s crashes w =
      (applyResumed (applyContext cfg env s plan.baseline) s.edits crashes planned.attempt).outcome
        cfg s plan.baseline planned := by
  induction crashes generalizing w planned with
  | nil => exact applyCandidate_planned hedits hscope hplan none
  | cons c crashes ih =>
    simp only [applyCandidateResumed, applyResumed, applyCandidate_planned hedits hscope hplan]
    cases applyEdits (applyContext cfg env s plan.baseline) (some c) s.edits planned.attempt with
    | killed a =>
      simp only [ApplyResult.outcome]
      rw [ih (obtainPlan_after hplan a)]
      rfl
    | applied a => rfl
    | conflict e a => rfl
    | raised e a => rfl

end Resumed

/-- In every run, an apply that would succeed is killed and resumed with the
result of the uninterrupted one, one tool call for each file written and no file
written twice, exactly when no crash falls between the charge of an edit and its
write, and no edit written before a crash reads back differently. -/
theorem resumed_as_uninterrupted {cfg : Config} {r : GraphRun} {env : NodeEnv} {plan : ApplyPlan}
    {planned : World} {full : Attempt} (hr : Reached cfg r)
    (h : Applying cfg { env with crash := none } r.state r.world plan planned (.applied full))
    (hdistinct : DistinctPaths r.world.files cfg.root r.state.edits) (crashes : List CrashPoint) :
    (∃ final new, applyCandidateResumed cfg env r.state crashes r.world =
        .done (applyDone cfg r.state plan.baseline final) (planned.after final) ∧
      final.files = full.files ∧ final.charges = r.world.charges ++ new ∧
      final.writes = r.world.writes ++ new ∧ new.Nodup) ↔
      SafeCrashes (applyContext cfg env r.state plan.baseline) r.world.files r.state.edits 0
        crashes := by
  obtain ⟨hfiles, -, hledger, hcharges, hwrites, -⟩ := obtainPlan_ready h.obtained
  have hstart : StandsAt (applyContext cfg env r.state plan.baseline) r.state.edits
      planned.attempt planned.attempt 0 := by
    refine ⟨planned.attempt, rfl, ⟨rfl, rfl, rfl, Nat.le_refl _, ?_⟩, by simp⟩
    show planned.ledger.Covered
    rw [hledger]
    exact covered_of_reached hr
  have hlooped : applyEdits (applyContext cfg env r.state plan.baseline) none r.state.edits
      planned.attempt = .applied full := h.looped
  have hresumed := applyResumed_iff_safe (applyEdits_applied hlooped) hdistinct.1
    (by show planned.files.DistinctFiles _ _; rw [hfiles]; exact hdistinct.2) crashes hstart
  rw [show planned.attempt.charges = r.world.charges from hcharges,
    show planned.attempt.writes = r.world.writes from hwrites,
    show planned.attempt.files = r.world.files from hfiles] at hresumed
  rw [← hresumed, applyCandidateResumed_eq h.edits h.scope h.obtained]
  refine exists_congr fun final => exists_congr fun new => and_congr ?_ Iff.rfl
  exact ApplyResult.outcome_applied

namespace Sample

/-- A run of one batch that is about to apply `edits`. -/
def applying (edits : List FileEdit) : GraphRun :=
  start 1 ((batch "t" t_valid edits).take 4)

/-- The node ends without a conflict. -/
def applies : Outcome → Bool
  | .done s _ => s.batchConflict.isNone
  | _ => false

theorem applying_of_applies {cfg : Config} {env : NodeEnv} {s : EvoCIState} {w : World}
    (hedits : s.edits ≠ []) (h : applies (applyCandidate cfg env s w) = true) :
    ∃ plan planned a, Applying cfg env s w plan planned (.applied a) := by
  cases hout : applyCandidate cfg env s w with
  | done s' w' =>
    rw [hout] at h
    rcases applyCandidate_done hout with
      ⟨hnil, -⟩ | ⟨-, m, reason, -, rfl⟩ | ⟨plan, planned, ⟨a, ha, -⟩ | ⟨e, a, -, -, -, rfl⟩⟩
    · exact absurd hnil hedits
    · cases h
    · exact ⟨plan, planned, a, ha⟩
    · cases h
  | interrupted w' => simp [hout, applies] at h
  | raised e w' => simp [hout, applies] at h
  | killed w' => simp [hout, applies] at h

/-- The process dies right after writing the only edit. -/
theorem resumed_after_write : ∃ s w, applyCandidateResumed (config 1) {} (applying [edit]).state
    [⟨1, .idle⟩] (applying [edit]).world = .done s w ∧ ∃ new, w.charges = new ∧ w.writes = new := by
  obtain ⟨plan, planned, full, h⟩ := @applying_of_applies (config 1) {} (applying [edit]).state
    (applying [edit]).world (by decide +kernel) (by decide +kernel)
  have hdistinct : DistinctPaths (applying [edit]).world.files (config 1).root
      (applying [edit]).state.edits := by
    have hedits : (applying [edit]).state.edits = [edit] := by decide +kernel
    rw [hedits]
    refine ⟨List.nodup_singleton _, ?_⟩
    intro p hp q hq l _ _
    rw [List.map_singleton, List.mem_singleton] at hp hq
    rw [hp, hq]
  have hsafe : ∀ other ∈ (applying [edit]).state.edits, StableText other.content := by
    decide +kernel
  obtain ⟨final, new, hout, -, hcharges, hwrites, -⟩ :=
    (@resumed_as_uninterrupted (config 1) (applying [edit]) {} plan planned full
      (start_reached _ _) h hdistinct [⟨1, .idle⟩]).mpr
      ⟨.inl rfl, fun other hother _ => hsafe other (List.mem_of_mem_take hother), trivial⟩
  have hlogs : (applying [edit]).world.charges = [] ∧ (applying [edit]).world.writes = [] := by
    decide +kernel
  rw [hlogs.1] at hcharges
  rw [hlogs.2] at hwrites
  exact ⟨_, _, hout, new, hcharges, hwrites⟩

/-- A carriage return does not read back: the resumed process finds a conflict
where the uninterrupted one finds none. A process that dies between the charge
and the write charges the edit twice. -/
theorem resumed_with_conflict_or_second_charge :
    Reached (config 1) (applying [.replace "a" "new\r" none]) ∧
      applies (applyCandidate (config 1) {} (applying [.replace "a" "new\r" none]).state
        (applying [.replace "a" "new\r" none]).world) = true ∧
      applies (applyCandidateResumed (config 1) {} (applying [.replace "a" "new\r" none]).state
        [⟨1, .idle⟩] (applying [.replace "a" "new\r" none]).world) = false ∧
      applies (applyCandidate (config 1) {} (applying [edit]).state
        (applying [edit]).world) = true ∧
      (applyCandidateResumed (config 1) {} (applying [edit]).state [⟨0, .emitted⟩]
        (applying [edit]).world).world.charges = ["a", "a"] ∧
      (applyCandidateResumed (config 1) {} (applying [edit]).state [⟨0, .emitted⟩]
        (applying [edit]).world).world.writes = ["a"] :=
  ⟨start_reached _ _, by decide +kernel, by decide +kernel, by decide +kernel,
    by decide +kernel, by decide +kernel⟩

end Sample

end EvoCI
