import EvoCI.Graph.Run

/-! What a node that finishes has done, node by node: every branch of the node,
with the state it stores and the world it leaves. -/

namespace EvoCI

open Library

/-! ## Steps of a run -/

/-- The interrupt after an execution that was not checkpointed. -/
def Outcome.interruptAfter (interrupt : Interrupt) : Outcome → Interrupt
  | .interrupted _ => .waiting
  | _ => interrupt

/-- What an action that satisfies `ok` has to keep of an invariant. -/
theorem kept_of_worlds {cfg : Config} {ok : Action → GraphRun → Prop} {Inv : GraphRun → Prop}
    (answered : ∀ (r : GraphRun) interrupt, Inv r → Inv { r with interrupt })
    (restarted : ∀ r : GraphRun, Inv r → Inv { r with world := r.world.restart })
    (modified : ∀ (r : GraphRun) files, ok (.modify files) r → Inv r →
      Inv { r with world := { r.world with files } })
    (finished : ∀ (r : GraphRun) env node s w, ok (.execute env) r → Inv r → r.node = some node →
      runNode cfg env r.interrupt node r.state r.world = .done s w →
      Inv ⟨route cfg node s w.files, s, w, .idle,
        r.history ++ [⟨node, env, r.interrupt, r.state, r.world, .done s w⟩]⟩)
    (stopped : ∀ (r : GraphRun) env node outcome, ok (.execute env) r → Inv r →
      r.node = some node → runNode cfg env r.interrupt node r.state r.world = outcome →
      outcome.isDone = false →
      Inv { r with
        world := outcome.world
        history := r.history ++ [⟨node, env, r.interrupt, r.state, r.world, outcome⟩] })
    (r : GraphRun) (a : Action) (hok : ok a r) (hr : Inv r) : Inv (act cfg a r) := by
  cases a with
  | answer decision =>
    simp only [act]
    split
    · exact answered r _ hr
    · exact hr
  | restart => exact restarted r hr
  | modify files => exact modified r files hok hr
  | execute env =>
    simp only [act, GraphRun.execute]
    cases hnode : r.node with
    | none => exact hr
    | some node =>
      simp only
      cases hout : runNode cfg env r.interrupt node r.state r.world with
      | done s w => exact finished r env node s w hok hr hnode hout
      | interrupted w => exact answered _ _ (stopped r env node _ hok hr hnode hout rfl)
      | raised e w => exact stopped r env node _ hok hr hnode hout rfl
      | killed w => exact restarted _ (stopped r env node _ hok hr hnode hout rfl)

/-- What an action that satisfies `ok` has to keep of an invariant that does not
read the world: an execution either is checkpointed or leaves node and state
where they were, and an interrupt that waits may be answered. -/
theorem kept_of_interrupts {cfg : Config} {ok : Action → GraphRun → Prop} {Inv : GraphRun → Prop}
    (aside : ∀ r r' : GraphRun, Inv r → r'.node = r.node → r'.state = r.state →
      r'.interrupt = r.interrupt → r'.history = r.history → Inv r')
    (answered : ∀ (r : GraphRun) decision, Inv r → r.interrupt = .waiting →
      Inv { r with interrupt := .answered decision })
    (finished : ∀ (r : GraphRun) env node s w, ok (.execute env) r → Inv r → r.node = some node →
      runNode cfg env r.interrupt node r.state r.world = .done s w →
      Inv ⟨route cfg node s w.files, s, w, .idle,
        r.history ++ [⟨node, env, r.interrupt, r.state, r.world, .done s w⟩]⟩)
    (stopped : ∀ (r : GraphRun) env node outcome, ok (.execute env) r → Inv r →
      r.node = some node → runNode cfg env r.interrupt node r.state r.world = outcome →
      outcome.isDone = false →
      Inv { r with
        interrupt := outcome.interruptAfter r.interrupt
        history := r.history ++ [⟨node, env, r.interrupt, r.state, r.world, outcome⟩] })
    (r : GraphRun) (a : Action) (hok : ok a r) (hr : Inv r) : Inv (act cfg a r) := by
  cases a with
  | answer decision =>
    simp only [act]
    split
    next hwaiting => exact answered r decision hr hwaiting
    · exact hr
  | restart => exact aside r _ hr rfl rfl rfl rfl
  | modify files => exact aside r _ hr rfl rfl rfl rfl
  | execute env =>
    simp only [act, GraphRun.execute]
    cases hnode : r.node with
    | none => exact hr
    | some node =>
      simp only
      cases hout : runNode cfg env r.interrupt node r.state r.world with
      | done s w => exact finished r env node s w hok hr hnode hout
      | interrupted w =>
        exact aside _ _ (stopped r env node _ hok hr hnode hout rfl) rfl rfl rfl rfl
      | raised e w =>
        exact aside _ _ (stopped r env node _ hok hr hnode hout rfl) rfl rfl rfl rfl
      | killed w =>
        exact aside _ _ (stopped r env node _ hok hr hnode hout rfl) rfl rfl rfl rfl

/-- `kept_of_interrupts` for an invariant that does not read the interrupt either. -/
theorem kept_of_step {cfg : Config} {ok : Action → GraphRun → Prop} {Inv : GraphRun → Prop}
    (aside : ∀ r r' : GraphRun, Inv r → r'.node = r.node → r'.state = r.state →
      r'.history = r.history → Inv r')
    (finished : ∀ (r : GraphRun) env node s w, ok (.execute env) r → Inv r → r.node = some node →
      runNode cfg env r.interrupt node r.state r.world = .done s w →
      Inv ⟨route cfg node s w.files, s, w, .idle,
        r.history ++ [⟨node, env, r.interrupt, r.state, r.world, .done s w⟩]⟩)
    (stopped : ∀ (r : GraphRun) env node outcome, ok (.execute env) r → Inv r →
      r.node = some node → runNode cfg env r.interrupt node r.state r.world = outcome →
      outcome.isDone = false →
      Inv { r with history :=
        r.history ++ [⟨node, env, r.interrupt, r.state, r.world, outcome⟩] })
    (r : GraphRun) (a : Action) (hok : ok a r) (hr : Inv r) : Inv (act cfg a r) := by
  refine kept_of_interrupts ?_ ?_ finished ?_ r a hok hr
  · intro r r' hr hnode hstate _ hhistory
    exact aside r r' hr hnode hstate hhistory
  · intro r decision hr _
    exact aside r _ hr rfl rfl rfl
  · intro r env node outcome hok hr hnode hout hstopped
    exact aside _ _ (stopped r env node outcome hok hr hnode hout hstopped) rfl rfl rfl

/-- An invariant that every step keeps holds in every run that is reached. -/
theorem holds_of_reached {cfg : Config} {Inv : GraphRun → Prop}
    (start : ∀ failedCommands files maxModelCalls maxToolCalls,
      Inv (GraphRun.start failedCommands files maxModelCalls maxToolCalls))
    (kept : ∀ r a, Inv r → Inv (act cfg a r)) {r : GraphRun} (h : Reached cfg r) : Inv r := by
  obtain ⟨failedCommands, files, maxModelCalls, maxToolCalls, actions, rfl⟩ := h
  exact Run.invariant kept (start failedCommands files maxModelCalls maxToolCalls) actions

theorem Reached.run {cfg : Config} {r : GraphRun} (h : Reached cfg r) (actions : List Action) :
    Reached cfg (Run.run (act cfg) r actions) := by
  obtain ⟨failedCommands, files, maxModelCalls, maxToolCalls, before, rfl⟩ := h
  exact ⟨failedCommands, files, maxModelCalls, maxToolCalls, before ++ actions, by simp⟩

/-- Every remembered execution is the node's. -/
def Recorded (cfg : Config) (r : GraphRun) : Prop :=
  ∀ e ∈ r.history, e.outcome = runNode cfg e.env e.interrupt e.node e.before e.world

theorem recorded_kept {cfg : Config} (r : GraphRun) (a : Action) (h : Recorded cfg r) :
    Recorded cfg (act cfg a r) := by
  refine @kept_of_step cfg (fun _ _ => True) (Recorded cfg) ?_ ?_ ?_ r a trivial h
  · intro r r' hr _ _ hhistory e he
    rw [hhistory] at he
    exact hr e he
  · intro r env node s w _ hr _ hout e he
    rcases List.mem_append.mp he with he | he
    · exact hr e he
    · rw [List.mem_singleton] at he
      subst he
      exact hout.symm
  · intro r env node outcome _ hr _ hout _ e he
    rcases List.mem_append.mp he with he | he
    · exact hr e he
    · rw [List.mem_singleton] at he
      subst he
      exact hout.symm

theorem recorded_of_reached {cfg : Config} {r : GraphRun} (h : Reached cfg r) : Recorded cfg r :=
  holds_of_reached (fun _ _ _ _ => by simp [Recorded, GraphRun.start]) recorded_kept h

/-! ## What the nodes do -/

@[simp] theorem afterLoss_world (lost : Bool) (outcome : Outcome) :
    (outcome.afterLoss lost).world = outcome.world := by
  cases outcome with
  | done s w => cases lost <;> rfl
  | interrupted w => rfl
  | raised e w => rfl
  | killed w => rfl

theorem runNode_interrupted {cfg : Config} {env : NodeEnv} {interrupt : Interrupt} {node : Node}
    {s : EvoCIState} {w w' : World} (h : runNode cfg env interrupt node s w = .interrupted w') :
    nodeOutcome cfg env interrupt node s w = .interrupted w' := by
  unfold runNode at h
  cases hout : nodeOutcome cfg env interrupt node s w with
  | done s'' w'' =>
    rw [hout, Outcome.afterLoss] at h
    split at h <;> cases h
  | interrupted w'' => simpa [hout, Outcome.afterLoss] using h
  | raised e w'' => simp [hout, Outcome.afterLoss] at h
  | killed w'' => simp [hout, Outcome.afterLoss] at h

theorem runNode_done {cfg : Config} {env : NodeEnv} {interrupt : Interrupt} {node : Node}
    {s s' : EvoCIState} {w w' : World} (h : runNode cfg env interrupt node s w = .done s' w') :
    nodeOutcome cfg env interrupt node s w = .done s' w' := by
  unfold runNode at h
  cases hout : nodeOutcome cfg env interrupt node s w with
  | done s'' w'' =>
    rw [hout, Outcome.afterLoss] at h
    split at h
    · cases h
    · cases h
      rfl
  | interrupted w'' => simp [hout, Outcome.afterLoss] at h
  | raised e w'' => simp [hout, Outcome.afterLoss] at h
  | killed w'' => simp [hout, Outcome.afterLoss] at h

theorem bootstrap_done {s s' : EvoCIState} {w w' : World} (h : bootstrap s w = .done s' w') :
    s' = { s with
      schemaVersion := some orchestrationSchemaVersion
      phase := some .bootstrap
      status := some .running } ∧ w' = w := by
  unfold bootstrap at h
  split at h
  · cases h
    exact ⟨rfl, rfl⟩
  · cases h

/-- The supervisor decided, or the run has failed; at most two calls are made,
and none once the batches are used up. -/
theorem supervise_done {cfg : Config} {env : NodeEnv} {s s' : EvoCIState} {w w' : World}
    (h : supervise cfg env s w = .done s' w') :
    (w' = w ∧ (s.status = some .failed ∧ s' = { s with phase := some .supervise } ∨
        cfg.maxSupervisorBatches ≤ s.supervisorBatch ∧ s' = superviseUsedUp s)) ∨
      s.supervisorBatch < cfg.maxSupervisorBatches ∧ ∃ count ≤ 2,
        w' = w.decided count env.calls ∧
        ((∃ decision, s' = superviseDecided s decision) ∨
          ∃ failureClass message, s' = superviseFailure s failureClass message) := by
  unfold supervise at h
  split at h
  next hfailed =>
    cases h
    exact .inl ⟨rfl, .inl ⟨hfailed, rfl⟩⟩
  next hrunning =>
    split at h
    next hused =>
      cases h
      exact .inl ⟨rfl, .inr ⟨by omega, rfl⟩⟩
    next hleft =>
      refine .inr ⟨by omega, ?_⟩
      split at h
      next decision _ =>
        cases h
        exact ⟨1, by omega, rfl, .inl ⟨decision, rfl⟩⟩
      next message _ =>
        cases h
        exact ⟨1, by omega, rfl, .inr ⟨_, message, rfl⟩⟩
      next message _ =>
        cases h
        exact ⟨1, by omega, rfl, .inr ⟨_, message, rfl⟩⟩
      · unfold superviseRetry at h
        split at h
        next decision _ =>
          cases h
          exact ⟨2, by omega, rfl, .inl ⟨decision, rfl⟩⟩
        next message _ =>
          cases h
          exact ⟨2, by omega, rfl, .inr ⟨_, message, rfl⟩⟩
        next message _ _ =>
          cases h
          exact ⟨2, by omega, rfl, .inr ⟨_, message, rfl⟩⟩
        · cases h
      · cases h

/-- The task was prepared, refused, or the run has failed. -/
theorem prepareTask_done {cfg : Config} {env : NodeEnv} {s s' : EvoCIState} {w w' : World}
    (h : prepareTask cfg env s w = .done s' w') :
    ((∃ failureClass stage message, s' = prepareFailure s failureClass stage message) ∨
        s' = prepareExhausted s ∨ (∃ message, s' = prepareRejected cfg s message) ∨
        ∃ task snapshotId, s' = preparePrepared s task snapshotId) ∧
      (w' = w ∨ ∃ snapshot, w' = w.withSnapshot s.supervisorBatch snapshot) := by
  unfold prepareTask at h
  split at h
  · cases h
    exact ⟨.inl ⟨_, _, _, rfl⟩, .inl rfl⟩
  next decision _ =>
    split at h
    · cases h
      exact ⟨.inl ⟨_, _, _, rfl⟩, .inl rfl⟩
    · split at h
      · cases h
        exact ⟨.inr (.inl rfl), .inl rfl⟩
      · split at h
        next message _ =>
          cases h
          exact ⟨.inr (.inr (.inl ⟨message, rfl⟩)), .inl rfl⟩
        · cases h
        next task _ =>
          unfold prepareSnapshot at h
          split at h
          · cases h
            exact ⟨.inr (.inr (.inr ⟨task, _, rfl⟩)), .inl rfl⟩
          · split at h
            next snapshot _ =>
              cases h
              exact ⟨.inr (.inr (.inr ⟨task, _, rfl⟩)), .inr ⟨some snapshot, rfl⟩⟩
            next leftover message _ =>
              cases h
              exact ⟨.inl ⟨_, _, _, rfl⟩, .inr ⟨leftover, rfl⟩⟩
            · cases h

theorem worker_done {cfg : Config} {env : NodeEnv} {s s' : EvoCIState} {w w' : World}
    (h : worker cfg env s w = .done s' w') :
    ∃ task, s.workerTask = some task ∧ w' = w.executed env.calls ∧
      ((∃ message, s' = workerExhausted s task message) ∨
        (∃ message, s' = workerUnreachable s task message) ∨
        ∃ run, env.execute = .returned run ∧ s' = workerReturned cfg s task run) := by
  unfold worker at h
  split at h
  · cases h
  next task htask =>
    refine ⟨task, htask, ?_⟩
    split at h
    next message _ =>
      cases h
      exact ⟨rfl, .inl ⟨message, rfl⟩⟩
    next message _ _ =>
      cases h
      exact ⟨rfl, .inr (.inl ⟨message, rfl⟩)⟩
    · cases h
    next run hrun =>
      split at h
      · cases h
      · cases h
        exact ⟨rfl, .inr (.inr ⟨run, hrun, rfl⟩)⟩

/-- An approval either was not needed or carries the decision it was resumed with. -/
theorem approval_done {resume : Option Bool} {s s' : EvoCIState} {w w' : World}
    (h : approval resume s w = .done s' w') :
    w' = w ∧
      ((s.edits = [] ∨ ∃ output, s.fixerOutput = some output ∧ requiresApproval output = false) ∧
          s' = { s with phase := some .approval, approved := some true } ∨
        ∃ decision, resume = some decision ∧ s' = approvalResolved s decision) := by
  unfold approval at h
  split at h
  next hnone =>
    cases h
    exact ⟨rfl, .inl ⟨.inl (by simp [EvoCIState.edits, hnone]), rfl⟩⟩
  next output hsome =>
    split at h
    next hfree =>
      cases h
      refine ⟨rfl, .inl ⟨?_, rfl⟩⟩
      rcases hfree with hnil | hrequires
      · exact .inl (by simpa [EvoCIState.edits, hsome] using hnil)
      · exact .inr ⟨output, hsome, hrequires⟩
    · split at h
      · cases h
      next decision =>
        cases h
        exact ⟨rfl, .inr ⟨decision, rfl, rfl⟩⟩

/-- Obtaining a plan changes nothing but the saved plans. -/
theorem obtainPlan_ready {cfg : Config} {s : EvoCIState} {w w' : World} {plan : ApplyPlan}
    (h : obtainPlan cfg s w = .ready plan w') :
    w'.files = w.files ∧ w'.snapshots = w.snapshots ∧ w'.ledger = w.ledger ∧
      w'.charges = w.charges ∧ w'.writes = w.writes ∧ w'.decideCalls = w.decideCalls ∧
      w'.executeCalls = w.executeCalls ∧ w'.plans (operationId s) = some plan := by
  have hmake : ∀ tree parentId, makePlan cfg s w tree parentId = .ready plan w' →
      w'.files = w.files ∧ w'.snapshots = w.snapshots ∧ w'.ledger = w.ledger ∧
        w'.charges = w.charges ∧ w'.writes = w.writes ∧ w'.decideCalls = w.decideCalls ∧
        w'.executeCalls = w.executeCalls ∧ w'.plans (operationId s) = some plan := by
    intro tree parentId hmake
    unfold makePlan at hmake
    split at hmake
    · cases hmake
    · split at hmake
      · cases hmake
        exact ⟨rfl, rfl, rfl, rfl, rfl, rfl, rfl, by simp⟩
      · cases hmake
  unfold obtainPlan at h
  split at h
  next hplan =>
    cases h
    exact ⟨rfl, rfl, rfl, rfl, rfl, rfl, rfl, hplan⟩
  · split at h
    · exact hmake _ _ h
    · simp only at h
      split at h
      · cases h
      · exact hmake _ _ h

theorem obtainPlan_changed {cfg : Config} {s : EvoCIState} {w : World} {message : String}
    (h : obtainPlan cfg s w = .changed message) : message ≠ "" := by
  have hmake : ∀ tree parentId, makePlan cfg s w tree parentId ≠ .changed message := by
    intro tree parentId hmake
    unfold makePlan at hmake
    split at hmake
    · cases hmake
    · split at hmake <;> cases hmake
  unfold obtainPlan at h
  split at h
  · cases h
  · split at h
    · exact absurd h (hmake _ _)
    · simp only at h
      split at h
      · cases h
        simp [toString]
      · exact absurd h (hmake _ _)

theorem scopeCheck_message {s : EvoCIState} {message : String}
    (h : scopeCheck s = .error (.policyViolation message)) : message ≠ "" := by
  unfold scopeCheck at h
  split at h
  · cases h
  · obtain ⟨m, hm, hne⟩ := validateEditsAgainstScope_message h
    cases hm
    exact hne

/-- The write loop, entered with a plan for a candidate within its scope. -/
structure Applying (cfg : Config) (env : NodeEnv) (s : EvoCIState) (w : World)
    (plan : ApplyPlan) (planned : World) (result : ApplyResult) : Prop where
  edits : s.edits ≠ []
  scope : scopeCheck s = .ok ()
  obtained : obtainPlan cfg s w = .ready plan planned
  looped : applyEdits (applyContext cfg env s plan.baseline) env.crash s.edits planned.attempt =
    result

theorem applyCandidate_done {cfg : Config} {env : NodeEnv} {s s' : EvoCIState} {w w' : World}
    (h : applyCandidate cfg env s w = .done s' w') :
    (s.edits = [] ∧ w' = w ∧ s' = { s with
        phase := some .applyCandidate
        integratedSnapshotId := some (workspaceSnapshotId cfg w.files) }) ∨
      (w' = w ∧ ∃ message reason, message ≠ "" ∧ s' = applyRefused s message reason) ∨
      ∃ plan planned,
        (∃ a, Applying cfg env s w plan planned (.applied a) ∧ w' = planned.after a ∧
            s' = applyDone cfg s plan.baseline a) ∨
          ∃ e a, Applying cfg env s w plan planned (.conflict e a) ∧ w' = planned.after a ∧
            e.message ≠ "" ∧ s' = applyConflict s e plan.baseline a.written := by
  unfold applyCandidate at h
  split at h
  next hnil =>
    cases h
    exact .inl ⟨hnil, rfl, rfl⟩
  next hedits =>
    right
    split at h
    next message hscope =>
      cases h
      exact .inl ⟨rfl, message, message, scopeCheck_message hscope, rfl⟩
    · cases h
    next hscope =>
      split at h
      next plan planned hplan =>
        right
        refine ⟨plan, planned, ?_⟩
        unfold applyPlanned at h
        split at h
        next a ha =>
          cases h
          exact .inl ⟨a, ⟨hedits, hscope, hplan, ha⟩, rfl, rfl⟩
        next e a ha =>
          cases h
          exact .inr ⟨e, a, ⟨hedits, hscope, hplan, ha⟩, rfl, applyEdits_message ha, rfl⟩
        · cases h
        · cases h
      next message hplan =>
        cases h
        exact .inl ⟨rfl, message, _, obtainPlan_changed hplan, rfl⟩
      · cases h

/-- A verdict was reached, and accepted or rejected by the final review. -/
theorem verify_done {cfg : Config} {env : NodeEnv} {s s' : EvoCIState} {w w' : World}
    (h : verify cfg env s w = .done s' w') :
    ∃ planned verification ledger, localPlan cfg s = .ok planned ∧
      verifyCommands cfg env s planned w.ledger = (.returned verification, ledger) ∧
      w' = { w with ledger } ∧
      (verification.passed = true ∧ reviewBlockers cfg w.files ≠ [] ∧
          s' = verifyRejected s verification (workspaceSnapshotId cfg w.files)
            (reviewBlockers cfg w.files) ∨
        (verification.passed = true → reviewBlockers cfg w.files = []) ∧
          s' = verifyCompleted s verification (workspaceSnapshotId cfg w.files)) := by
  unfold verify at h
  split at h
  · cases h
  next planned hplanned =>
    cases hrun : verifyCommands cfg env s planned w.ledger with
    | mk verifying ledger =>
      rw [hrun] at h
      cases verifying with
      | returned verification =>
        refine ⟨planned, verification, ledger, hplanned, hrun, ?_⟩
        simp only [verifyVerdict] at h
        split at h
        next hpassed =>
          split at h
          · cases h
          · split at h
            next hblockers =>
              cases h
              exact ⟨rfl, .inl ⟨hpassed, hblockers, rfl⟩⟩
            next hclean =>
              cases h
              exact ⟨rfl, .inr ⟨fun _ => Decidable.not_not.mp hclean, rfl⟩⟩
        next hnot =>
          cases h
          exact ⟨rfl, .inr ⟨fun hpassed => absurd hpassed hnot, rfl⟩⟩
      | raised e =>
        exfalso
        simp only [verifyHandler] at h
        split at h <;> cases h
      | killed => cases h

theorem rollback_done {cfg : Config} {env : NodeEnv} {s s' : EvoCIState} {w w' : World}
    (h : rollback cfg env s w = .done s' w') :
    w' = { w with
        files := (rollbackFiles cfg env s w).1
        ledger := w.ledger.emit
          (toolCallEvent cfg "harness" s!"rollback:{s.supervisorBatch}" .cleanup) } ∧
      ((rollbackFiles cfg env s w).2 = none ∧ s' = rollbackDone cfg s w'.files ∨
        ∃ e, (rollbackFiles cfg env s w).2 = some e ∧ s' = rollbackFailed s e.message) := by
  unfold rollback at h
  cases hfiles : rollbackFiles cfg env s w with
  | mk files error =>
    rw [hfiles] at h
    cases error with
    | none =>
      cases h
      exact ⟨rfl, .inl ⟨rfl, rfl⟩⟩
    | some e =>
      simp only at h
      split at h
      · cases h
      · cases h
        exact ⟨rfl, .inr ⟨e, rfl, rfl⟩⟩

theorem persistRunOutcome_done {env : NodeEnv} {s s' : EvoCIState} {w w' : World}
    (h : persistRunOutcome env s w = .done s' w') : s' = s ∧ w' = w := by
  unfold persistRunOutcome at h
  split at h
  · cases h
  · cases h
    exact ⟨rfl, rfl⟩

/-- A run is finalized as a success unless the supervisor stopped it without one. -/
theorem finalize_done {cfg : Config} {env : NodeEnv} {s s' : EvoCIState} {w w' : World}
    (h : finalize cfg env s w = .done s' w') :
    w' = w ∧ ((∃ reason, s' = outcomeFailed s reason .repair) ∨ s' = deferredSuccess s ∨
      s' = outcomeSuccess s) := by
  unfold finalize at h
  split at h
  · obtain ⟨rfl, rfl⟩ := persistRunOutcome_done h
    exact ⟨rfl, .inl ⟨_, rfl⟩⟩
  · split at h
    · cases h
      exact ⟨rfl, .inr (.inl rfl)⟩
    · obtain ⟨rfl, rfl⟩ := persistRunOutcome_done h
      exact ⟨rfl, .inr (.inr rfl)⟩

theorem failed_done {cfg : Config} {env : NodeEnv} {s s' : EvoCIState} {w w' : World}
    (h : failed cfg env s w = .done s' w') :
    w' = w ∧ s' = outcomeFailed s (failedReason s) (resolveFailureClass s) := by
  unfold failed at h
  simp only at h
  split at h
  · cases h
    exact ⟨rfl, rfl⟩
  · obtain ⟨rfl, rfl⟩ := persistRunOutcome_done h
    exact ⟨rfl, rfl⟩

/-! ## What a node stores -/

/-- The states a node that finishes may store. -/
inductive Update (cfg : Config) (s : EvoCIState) : Node → EvoCIState → Prop where
  | bootstrapped : Update cfg s .bootstrap { s with
      schemaVersion := some orchestrationSchemaVersion
      phase := some .bootstrap
      status := some .running }
  | retrieved : Update cfg s .retrieveContext { s with phase := some .retrieveContext }
  | stillFailed (h : s.status = some .failed) :
      Update cfg s .supervise { s with phase := some .supervise }
  | usedUp (h : cfg.maxSupervisorBatches ≤ s.supervisorBatch) :
      Update cfg s .supervise (superviseUsedUp s)
  | decided (h : s.supervisorBatch < cfg.maxSupervisorBatches) (decision : SupervisorDecision) :
      Update cfg s .supervise (superviseDecided s decision)
  | undecided (h : s.supervisorBatch < cfg.maxSupervisorBatches) (failureClass : FailureClass)
      (message : String) : Update cfg s .supervise (superviseFailure s failureClass message)
  | unprepared (failureClass : FailureClass) (stage : Node) (message : String) :
      Update cfg s .prepareTask (prepareFailure s failureClass stage message)
  | exhausted : Update cfg s .prepareTask (prepareExhausted s)
  | rejected (h : s.supervisorBatch < cfg.maxSupervisorBatches) (message : String) :
      Update cfg s .prepareTask { s with
        phase := some .prepareTask
        decisionHistory := s.decisionHistory ++ ["harness rejected dispatch: " ++ message]
        batchConflict := some message
        workerTask := none }
  | prepared (task : WorkerTask) (snapshotId : String) :
      Update cfg s .prepareTask (preparePrepared s task snapshotId)
  | outOfBudget (task : WorkerTask) (message : String) :
      Update cfg s .worker (workerExhausted s task message)
  | unreachable (task : WorkerTask) (message : String) :
      Update cfg s .worker (workerUnreachable s task message)
  | returned (task : WorkerTask) (run : WorkerRun) :
      Update cfg s .worker (workerReturned cfg s task run)
  | unasked : Update cfg s .approval { s with phase := some .approval, approved := some true }
  | answered (decision : Bool) : Update cfg s .approval (approvalResolved s decision)
  | nothing (id : String) : Update cfg s .applyCandidate { s with
      phase := some .applyCandidate
      integratedSnapshotId := some id }
  | refused (message reason : String) (h : message ≠ "") :
      Update cfg s .applyCandidate (applyRefused s message reason)
  | applied (baseline : Baseline) (a : Attempt) :
      Update cfg s .applyCandidate (applyDone cfg s baseline a)
  | conflict (e : PyError) (baseline : Baseline) (written : Written) (h : e.message ≠ "") :
      Update cfg s .applyCandidate (applyConflict s e baseline written)
  | reviewed (verification : VerificationResult) (id : String) (blockers : List String)
      (h : joinSemicolon blockers ≠ "") :
      Update cfg s .verify (verifyRejected s verification id blockers)
  | verified (verification : VerificationResult) (id : String) :
      Update cfg s .verify (verifyCompleted s verification id)
  | rolledBack (files : Files) : Update cfg s .rollback (rollbackDone cfg s files)
  | stuck (message : String) : Update cfg s .rollback (rollbackFailed s message)
  | stopped (reason : String) : Update cfg s .finalize (outcomeFailed s reason .repair)
  | deferred : Update cfg s .finalize (deferredSuccess s)
  | succeeded : Update cfg s .finalize (outcomeSuccess s)
  | ended (reason : String) : Update cfg s .failed (outcomeFailed s reason (resolveFailureClass s))

theorem runNode_update {cfg : Config} {env : NodeEnv} {interrupt : Interrupt} {node : Node}
    {s s' : EvoCIState} {w w' : World} (h : runNode cfg env interrupt node s w = .done s' w') :
    Update cfg s node s' := by
  have hdone := runNode_done h
  cases node with
  | bootstrap =>
    obtain ⟨rfl, -⟩ := bootstrap_done hdone
    exact .bootstrapped
  | retrieveContext =>
    cases hdone
    exact .retrieved
  | supervise =>
    rcases supervise_done hdone with
      ⟨-, ⟨hfailed, rfl⟩ | ⟨hused, rfl⟩⟩ | ⟨hleft, _, -, -, ⟨decision, rfl⟩ | ⟨c, m, rfl⟩⟩
    · exact .stillFailed hfailed
    · exact .usedUp hused
    · exact .decided hleft decision
    · exact .undecided hleft c m
  | prepareTask =>
    rcases (prepareTask_done hdone).1 with ⟨c, stage, m, rfl⟩ | rfl | ⟨m, rfl⟩ | ⟨task, id, rfl⟩
    · exact .unprepared c stage m
    · exact .exhausted
    · unfold prepareRejected
      split
      next hleft => exact .rejected hleft m
      · exact .unprepared _ _ m
    · exact .prepared task id
  | worker =>
    obtain ⟨task, -, -, ⟨m, rfl⟩ | ⟨m, rfl⟩ | ⟨run, -, rfl⟩⟩ := worker_done hdone
    · exact .outOfBudget task m
    · exact .unreachable task m
    · exact .returned task run
  | approval =>
    obtain ⟨-, ⟨-, rfl⟩ | ⟨decision, -, rfl⟩⟩ := approval_done hdone
    · exact .unasked
    · exact .answered decision
  | applyCandidate =>
    rcases applyCandidate_done hdone with
      ⟨-, -, rfl⟩ | ⟨-, m, reason, hm, rfl⟩ | ⟨plan, _, ⟨a, -, -, rfl⟩ | ⟨e, a, -, -, hm, rfl⟩⟩
    · exact .nothing _
    · exact .refused m reason hm
    · exact .applied plan.baseline a
    · exact .conflict e plan.baseline a.written hm
  | verify =>
    obtain ⟨_, verification, _, -, -, -, ⟨-, hblockers, rfl⟩ | ⟨-, rfl⟩⟩ := verify_done hdone
    · exact .reviewed verification _ _ (joinSemicolon_ne_empty hblockers blocker_ne_empty)
    · exact .verified verification _
  | rollback =>
    obtain ⟨-, ⟨-, rfl⟩ | ⟨e, -, rfl⟩⟩ := rollback_done hdone
    · exact .rolledBack _
    · exact .stuck e.message
  | finalize =>
    obtain ⟨-, ⟨reason, rfl⟩ | rfl | rfl⟩ := finalize_done hdone
    · exact .stopped reason
    · exact .deferred
    · exact .succeeded
  | failed =>
    obtain ⟨-, rfl⟩ := failed_done hdone
    exact .ended _

/-! ## What a route was taken for -/

/-- A worker is only sent off with a task. -/
theorem afterPrepare_worker {cfg : Config} {s : EvoCIState} (h : afterPrepare cfg s = .worker) :
    s.status ≠ some .failed ∧ ∃ task, s.workerTask = some task := by
  unfold afterPrepare at h
  split at h
  · cases h
  next hrunning =>
    refine ⟨hrunning, ?_⟩
    split at h
    · split at h <;> cases h
    · split at h
      · cases h
      next hsome => exact Option.ne_none_iff_exists'.mp (by simpa using hsome)

theorem afterWorker_approval {s : EvoCIState} (h : afterWorker s = .approval) :
    s.status ≠ some .failed ∧ s.budgetFailures = [] ∧
      ∃ result task, s.latestResult = some result ∧ result.status = .completed ∧
        s.workerTask = some task ∧ task.kind = .repair := by
  unfold afterWorker at h
  split at h
  · cases h
  next hrunning =>
    split at h
    · cases h
    · split at h
      · cases h
      next result hresult =>
        split at h
        · cases h
        next hbudget =>
          simp only [ne_eq, not_or, Decidable.not_not] at hbudget
          split at h
          · cases h
          next hblocked =>
            split at h
            next task htask =>
              split at h
              · cases h
              next hkind =>
                refine ⟨hrunning, hbudget.2, result, task, hresult, ?_, htask, hkind⟩
                cases hstatus : result.status with
                | completed => rfl
                | blocked => exact absurd hstatus hblocked
                | budgetExhausted => exact absurd hstatus hbudget.1
            · cases h

/-- A candidate is verified only when applying it met no conflict. -/
theorem applyCandidate_verify {cfg : Config} {env : NodeEnv} {s s' : EvoCIState} {w w' : World}
    (h : applyCandidate cfg env s w = .done s' w') (hnext : afterApply s' = .verify) :
    s'.integratedSnapshotId = some (workspaceSnapshotId cfg w'.files) := by
  have htruthy : ∀ message : String, message ≠ "" → truthy (some message) = true := by
    intro message hne
    simp [truthy, hne]
  unfold afterApply at hnext
  split at hnext
  · cases hnext
  · split at hnext
    · cases hnext
    next hconflict =>
      rcases applyCandidate_done h with
        ⟨-, rfl, rfl⟩ | ⟨-, m, reason, hm, rfl⟩ | ⟨_, _, ⟨_, -, rfl, rfl⟩ | ⟨_, _, -, -, hm, rfl⟩⟩
      · rfl
      · exact absurd (htruthy m hm) hconflict
      · rfl
      · exact absurd (htruthy _ hm) hconflict

/-! ## Recording a verdict -/

/-- However it is classified, a recorded verdict changes neither the candidate
nor the batch. -/
theorem verifyCompleted_kept (s : EvoCIState) (verification : VerificationResult) (id : String) :
    (verifyCompleted s verification id).verification = some verification ∧
      (verifyCompleted s verification id).verificationSnapshotId = some id ∧
      (verifyCompleted s verification id).supervisorBatch = s.supervisorBatch ∧
      (verifyCompleted s verification id).fixerOutput = s.fixerOutput ∧
      (verifyCompleted s verification id).batchConflict = s.batchConflict ∧
      (verifyCompleted s verification id).decision = s.decision ∧
      (verifyCompleted s verification id).integratedSnapshotId = s.integratedSnapshotId := by
  unfold verifyCompleted
  split <;> exact ⟨rfl, rfl, rfl, rfl, rfl, rfl, rfl⟩

end EvoCI
