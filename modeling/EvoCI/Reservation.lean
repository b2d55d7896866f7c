import EvoCI.Spending

/-! The model call that the tool loop keeps for its final request: run and task are charged
in step, a request for a charge, and the turns stop while both still have one left. -/

namespace EvoCI

/-! ## Turns -/

/-- The turns of an invocation that gets past its checks, and how they end. -/
def actionTurns (inv : Invocation) (env : LoopEnv) (budgets : LoopBudgets) :
    Option (LoopState × TurnEnd) :=
  if strip inv.invocationId = "" then none
  else
    match callLimits inv budgets with
    | .error _ => none
    | .ok (actions, maxTools) => some (runTurns inv env maxTools actions 1 { budgets })

/-- The requests for a next action. -/
def actionCount (inv : Invocation) (env : LoopEnv) (budgets : LoopBudgets) : Nat :=
  (actionTurns inv env budgets).elim 0 fun ended => sentRequests ended.1.effects

/-- How many turns the three limits on model calls leave beside the final request. -/
def turnLimit (inv : Invocation) (run task : RunRepairBudget) : Nat :=
  min inv.maxIterations (min (task.maxModelCalls - finalizationModelCalls)
    (run.maxModelCalls - run.modelCalls - finalizationModelCalls))

/-- The ends of an invocation that are not of the model budget's making: an exception of the
gateway or of a tool, and a tool budget that is spent. -/
inductive OtherEnd (env : LoopEnv) : PyError → Prop where
  | action (iteration : Nat) (e : PyError) (raised : env.nextAction iteration = .raised e) :
      OtherEnd env e
  | actionCancelled (iteration : Nat) (cancelled : env.nextAction iteration = .cancelled) :
      OtherEnd env .cancelled
  | tool (count : Nat) (name : String) (e : PyError)
      (raised : (env.invoke count).result name = .error e) : OtherEnd env e
  | runTools : OtherEnd env (.repairBudgetExhausted toolMessage)
  | taskTools : OtherEnd env (.repairBudgetExhausted taskToolMessage)
  | final (e : PyError) (raised : env.finalize = .raised e) : OtherEnd env e
  | finalCancelled (cancelled : env.finalize = .cancelled) : OtherEnd env .cancelled

section

variable {inv : Invocation} {env : LoopEnv} {start task : RunRepairBudget}

/-! ## Charging in step -/

/-- Run and task have been charged for each request, and the task's tool calls keep to
their limit. -/
structure InStep (start task : RunRepairBudget) (st : LoopState) (run extra : RunRepairBudget) :
    Prop where
  budgets : st.budgets = ⟨some run, some extra⟩
  runLimit : run.maxModelCalls = start.maxModelCalls
  taskLimit : extra.maxModelCalls = task.maxModelCalls
  runCalls : run.modelCalls = start.modelCalls + sentRequests st.effects
  taskCalls : extra.modelCalls = sentRequests st.effects
  toolLimit : extra.maxToolCalls = task.maxToolCalls
  toolCalls : extra.toolCalls ≤ task.maxToolCalls

/-- The calls of a state are in step. -/
def LoopState.InStep (start task : RunRepairBudget) (st : LoopState) : Prop :=
  ∃ run extra, EvoCI.InStep start task st run extra

/-- Both budgets can pay for so many requests. -/
def Room (start task : RunRepairBudget) (st : LoopState) (requests : Nat) : Prop :=
  start.modelCalls + sentRequests st.effects + requests ≤ start.maxModelCalls ∧
    sentRequests st.effects + requests ≤ task.maxModelCalls

theorem LoopState.InStep.perform {st : LoopState} (h : st.InStep start task)
    {effect : LoopEffect} (heffect : effect ≠ .sends) :
    (st.perform effect).InStep start task := by
  obtain ⟨run, extra, h⟩ := h
  have hsent : sentRequests (st.effects ++ [effect]) = sentRequests st.effects := by
    simp [sentRequests, heffect]
  exact ⟨run, extra, { h with
    runCalls := by rw [effects_perform, hsent]; exact h.runCalls
    taskCalls := by rw [effects_perform, hsent]; exact h.taskCalls }⟩

theorem sent_perform {st : LoopState} {effect : LoopEffect} (heffect : effect ≠ .sends) :
    sentRequests (st.perform effect).effects = sentRequests st.effects := by
  simp [sentRequests, heffect]

theorem sent_emit {st : LoopState} (payload : TrajectoryPayload) (key : String) :
    sentRequests (st.emit inv env payload key).effects = sentRequests st.effects :=
  sent_perform (by simp)

/-- Only budgets and effects matter. -/
theorem LoopState.InStep.of_same {st st' : LoopState} (h : st.InStep start task)
    (hbudgets : st'.budgets = st.budgets) (heffects : st'.effects = st.effects) :
    st'.InStep start task := by
  obtain ⟨run, extra, h⟩ := h
  exact ⟨run, extra, { h with
    budgets := hbudgets.trans h.budgets
    runCalls := by rw [heffects]; exact h.runCalls
    taskCalls := by rw [heffects]; exact h.taskCalls }⟩

theorem LoopState.InStep.emit {st : LoopState} (h : st.InStep start task)
    (payload : TrajectoryPayload) (key : String) :
    (st.emit inv env payload key).InStep start task :=
  h.perform (by simp)

/-- A request that both budgets can pay for is sent. -/
theorem consumeModelCall_room {st : LoopState} (h : st.InStep start task)
    (hroom : Room start task st 1) :
    ∃ budgets, st.budgets.consumeModelCall = (budgets, none) ∧
      (LoopState.perform { st with budgets } .sends).InStep start task ∧
      sentRequests (LoopState.perform { st with budgets } .sends).effects =
        sentRequests st.effects + 1 := by
  obtain ⟨run, extra, h⟩ := h
  obtain ⟨hrun, htask⟩ := hroom
  have hcalls := h.runCalls
  have htaskCalls := h.taskCalls
  have hlimit := h.runLimit
  have htaskLimit := h.taskLimit
  have hfree : ¬ run.maxModelCalls ≤ run.modelCalls := by omega
  have htaskFree : ¬ extra.maxModelCalls ≤ extra.modelCalls := by omega
  have hsent : sentRequests (st.effects ++ [.sends]) = sentRequests st.effects + 1 := by
    rw [sentRequests_append]
    rfl
  refine ⟨⟨some { run with modelCalls := run.modelCalls + 1 },
    some { extra with modelCalls := extra.modelCalls + 1 }⟩, ?_,
    ⟨{ run with modelCalls := run.modelCalls + 1 },
      { extra with modelCalls := extra.modelCalls + 1 }, ?_⟩, hsent⟩
  · rw [h.budgets]
    simp [LoopBudgets.consumeModelCall, LoopBudgets.consume, Option.mapM_some,
      RunRepairBudget.consumeModelCall, hfree, htaskFree]
  · exact {
      budgets := rfl
      runLimit := hlimit
      taskLimit := htaskLimit
      runCalls := by
        show run.modelCalls + 1 = _
        rw [effects_perform, hsent]
        omega
      taskCalls := by
        show extra.modelCalls + 1 = _
        rw [effects_perform, hsent]
        omega
      toolLimit := h.toolLimit
      toolCalls := h.toolCalls }

/-- A tool call is charged to both budgets, or refused by one of them. -/
theorem consumeToolCall_inStep {st : LoopState} (h : st.InStep start task) (count : Nat)
    {budgets : LoopBudgets} {error : Option PyError}
    (hspend : st.budgets.consumeToolCall = (budgets, error)) :
    LoopState.InStep start task { st with toolCount := count, budgets } ∧
      ∀ e, error = some e → OtherEnd env e := by
  obtain ⟨run, extra, h⟩ := h
  rw [h.budgets] at hspend
  unfold LoopBudgets.consumeToolCall LoopBudgets.consume at hspend
  simp only [Option.mapM_some, RunRepairBudget.consumeToolCall] at hspend
  by_cases hfull : run.maxToolCalls ≤ run.toolCalls
  · simp only [if_pos hfull] at hspend
    cases hspend
    refine ⟨⟨run, extra, { h with budgets := rfl }⟩, fun e he => ?_⟩
    cases he
    exact .runTools
  · by_cases htaskFull : extra.maxToolCalls ≤ extra.toolCalls
    · simp only [if_neg hfull, if_pos htaskFull] at hspend
      cases hspend
      refine ⟨⟨{ run with toolCalls := run.toolCalls + 1 }, extra, { h with budgets := rfl }⟩,
        fun e he => ?_⟩
      cases he
      exact .taskTools
    · simp only [if_neg hfull, if_neg htaskFull] at hspend
      cases hspend
      refine ⟨⟨{ run with toolCalls := run.toolCalls + 1 },
        { extra with toolCalls := extra.toolCalls + 1 }, { h with
          budgets := rfl
          toolCalls := ?_ }⟩, fun e he => by cases he⟩
      have hlimit := h.toolLimit
      show extra.toolCalls + 1 ≤ _
      omega

/-! ## The loop -/

theorem finishCall_inStep {st : LoopState} (h : st.InStep start task) (iteration : Nat)
    (call : ToolCallRequest) (result : CallResult) :
    (finishCall inv env iteration call result st).InStep start task ∧
      sentRequests (finishCall inv env iteration call result st).effects =
        sentRequests st.effects := by
  have hanswered : (st.emit inv env (toolResultPayload call result iteration)
      call.callId).InStep start task := h.emit _ _
  unfold finishCall
  simp only
  split
  · exact ⟨hanswered, sent_emit _ _⟩
  next payload key hskill =>
    have hnoted : ((st.emit inv env (toolResultPayload call result iteration) call.callId).emit
        inv env payload key).InStep start task := hanswered.emit _ _
    have hsent : sentRequests ((st.emit inv env (toolResultPayload call result iteration)
        call.callId).emit inv env payload key).effects = sentRequests st.effects := by
      rw [sent_emit, sent_emit]
    split <;> exact ⟨hnoted.of_same rfl rfl, hsent⟩

/-- Tool calls send no request. -/
theorem runCalls_inStep (maxTools iteration : Nat) (calls : List ToolCallRequest) (st : LoopState)
    (h : st.InStep start task) :
    let ended := runCalls inv env maxTools iteration calls st
    ended.1.InStep start task ∧ sentRequests ended.1.effects = sentRequests st.effects ∧
      ∀ e, ended.2 = .raised e → OtherEnd env e := by
  induction calls generalizing st with
  | nil => exact ⟨h, rfl, fun e he => by cases he⟩
  | cons call rest ih =>
    simp only [runCalls]
    split
    · have hcounted : LoopState.InStep start task { st with toolCount := st.toolCount + 1 } :=
        h.of_same rfl rfl
      exact ⟨hcounted.emit _ _, sent_emit _ _, fun e he => by cases he⟩
    · split
      next budgets e hspend =>
        obtain ⟨hkept, hend⟩ := @consumeToolCall_inStep env _ _ _ h (st.toolCount + 1) _ _ hspend
        refine ⟨hkept, rfl, fun e' he => ?_⟩
        cases he
        exact hend e rfl
      next budgets hspend =>
        obtain ⟨hkept, -⟩ := @consumeToolCall_inStep env _ _ _ h (st.toolCount + 1) _ _ hspend
        have hcalled := @LoopState.InStep.emit inv env _ _ _ hkept (toolCallPayload call)
          call.callId
        have hexecutes : LoopEffect.executes call (env.invoke (st.toolCount + 1)) ≠ .sends := by
          simp
        have hexecuted := hcalled.perform hexecutes
        split
        next e hraised =>
          refine ⟨hexecuted, ?_, fun e' he => ?_⟩
          · rw [sent_perform (by simp), sent_emit]
          · cases he
            exact .tool _ _ e hraised
        next result hresult =>
          obtain ⟨hfinished, hsame⟩ := @finishCall_inStep inv env _ _ _ hexecuted iteration call
            result
          obtain ⟨hended, hsent, hend⟩ := ih _ hfinished
          refine ⟨hended, ?_, hend⟩
          rw [hsent, hsame, sent_perform (by simp), sent_emit]

/-- Turns that both budgets can pay for, and one request more, leave that one. -/
theorem runTurns_inStep (maxTools remaining iteration : Nat) (st : LoopState)
    (h : st.InStep start task) (hroom : Room start task st (remaining + 1)) :
    let ended := runTurns inv env maxTools remaining iteration st
    ended.1.InStep start task ∧
      sentRequests ended.1.effects ≤ sentRequests st.effects + remaining ∧
      Room start task ended.1 1 ∧ ∀ e, ended.2 = .raised e → OtherEnd env e := by
  induction remaining generalizing iteration st with
  | zero => exact ⟨h, Nat.le_refl _, hroom, fun e he => by cases he⟩
  | succ remaining ih =>
    have hone : Room start task st 1 := by
      unfold Room at hroom ⊢
      omega
    obtain ⟨budgets, hspend, hsent, hcount⟩ := consumeModelCall_room h hone
    have hafter : ∀ st' : LoopState, sentRequests st'.effects = sentRequests st.effects + 1 →
        Room start task st' (remaining + 1) ∧ Room start task st' 1 := by
      intro st' hst'
      unfold Room at hroom ⊢
      rw [hst']
      omega
    simp only [runTurns, hspend]
    split
    next hcancelled =>
      refine ⟨hsent, ?_, (hafter _ hcount).2, fun e he => ?_⟩
      · rw [hcount]
        omega
      · cases he
        exact .actionCancelled iteration hcancelled
    next e hraised =>
      refine ⟨hsent.emit _ _, ?_, (hafter _ ?_).2, fun e' he => ?_⟩
      · rw [sent_emit]
        omega
      · rw [sent_emit, hcount]
      · cases he
        exact .action iteration e hraised
    next toolCalls hresponse =>
      have hanswered := @LoopState.InStep.emit inv env _ _ _ hsent .modelCall (turnKey iteration)
      have hanswerCount : sentRequests ((LoopState.perform { st with budgets } .sends).emit inv env
          .modelCall (turnKey iteration)).effects = sentRequests st.effects + 1 := by
        rw [sent_emit, hcount]
      split
      · refine ⟨hanswered, ?_, (hafter _ hanswerCount).2, fun e he => by cases he⟩
        rw [hanswerCount]
        omega
      · obtain ⟨hended, hcalls, hend⟩ := @runCalls_inStep inv env start task maxTools iteration
          toolCalls _ hanswered
        rw [hanswerCount] at hcalls
        split
        next st' hnext =>
          rw [hnext] at hended hcalls
          obtain ⟨hlast, hle, hleft, hlastEnd⟩ := ih (iteration + 1) st' hended (hafter _ hcalls).1
          refine ⟨hlast, ?_, hleft, hlastEnd⟩
          rw [hcalls] at hle
          omega
        next ended hnot =>
          exact ⟨hended, by omega, (hafter _ hcalls).2, hend⟩

theorem recordProcedures_inStep (skillIds : List String) (st : LoopState)
    (h : st.InStep start task) :
    (recordProcedures inv env skillIds st).InStep start task ∧
      sentRequests (recordProcedures inv env skillIds st).effects = sentRequests st.effects := by
  induction skillIds generalizing st with
  | nil => exact ⟨h, rfl⟩
  | cons skillId rest ih =>
    obtain ⟨hkept, hsent⟩ := ih _ (@LoopState.InStep.emit inv env _ _ _ h
      (.skillUsed ([skillId].filter (· ≠ "")) (some .procedure) none none)
      ("method-use:" ++ skillId))
    exact ⟨hkept, by rw [recordProcedures, hsent, sent_emit]⟩

/-- The final request is sent when one is left for it. -/
theorem finalizeLoop_inStep (st : LoopState) (h : st.InStep start task)
    (hroom : Room start task st 1) :
    (finalizeLoop inv env st).1.InStep start task ∧
      ∀ e, (finalizeLoop inv env st).2 = .error e → OtherEnd env e := by
  obtain ⟨budgets, hspend, hsent, -⟩ := consumeModelCall_room h hroom
  unfold finalizeLoop
  simp only [hspend]
  split
  next hcancelled =>
    refine ⟨hsent, fun e he => ?_⟩
    cases he
    exact .finalCancelled hcancelled
  next e hraised =>
    refine ⟨hsent.emit _ _, fun e' he => ?_⟩
    cases he
    exact .final e hraised
  next claimed hreport =>
    split
    · exact ⟨hsent.emit _ _, fun e he => by cases he⟩
    · exact ⟨(recordProcedures_inStep _ _ (hsent.emit _ _)).1, fun e he => by cases he⟩

/-! ## The invocation -/

theorem callLimits_room {actions maxTools : Nat}
    (h : callLimits inv ⟨some start, some task⟩ = .ok (actions, maxTools)) :
    actions ≤ turnLimit inv start task ∧ start.modelCalls + actions + 1 ≤ start.maxModelCalls ∧
      actions + 1 ≤ task.maxModelCalls := by
  unfold callLimits finalizationModelCalls at h
  simp only at h
  split at h
  · cases h
  · split at h
    · cases h
    · cases h
      unfold turnLimit finalizationModelCalls
      omega

theorem inStep_start (hfresh : task.modelCalls = 0 ∧ task.toolCalls = 0) :
    LoopState.InStep start task { budgets := ⟨some start, some task⟩ } :=
  ⟨start, task, {
    budgets := rfl
    runLimit := rfl
    taskLimit := rfl
    runCalls := rfl
    taskCalls := hfresh.1
    toolLimit := rfl
    toolCalls := by omega }⟩

theorem actionTurns_inStep (hfresh : task.modelCalls = 0 ∧ task.toolCalls = 0) {st : LoopState}
    {ended : TurnEnd} (h : actionTurns inv env ⟨some start, some task⟩ = some (st, ended)) :
    st.InStep start task ∧ sentRequests st.effects ≤ turnLimit inv start task ∧
      Room start task st 1 ∧ ∀ e, ended = .raised e → OtherEnd env e := by
  unfold actionTurns at h
  split at h
  · cases h
  · split at h
    · cases h
    next actions maxTools hlimits =>
      obtain ⟨hactions, hrun, htask⟩ := callLimits_room hlimits
      have hroom : Room start task { budgets := ⟨some start, some task⟩ } (actions + 1) :=
        ⟨by simpa [sentRequests, Nat.add_assoc] using hrun, by simpa [sentRequests] using htask⟩
      obtain ⟨hkept, hcount, hleft, hend⟩ := @runTurns_inStep inv env start task maxTools actions 1
        _ (inStep_start hfresh) hroom
      have hturned := Option.some.inj h
      rw [hturned] at hkept hcount hleft hend
      refine ⟨hkept, ?_, hleft, hend⟩
      have hzero : sentRequests ({ budgets := ⟨some start, some task⟩ } : LoopState).effects = 0 :=
        rfl
      rw [hzero] at hcount
      show sentRequests st.effects ≤ _
      have hsent : sentRequests st.effects ≤ 0 + actions := hcount
      omega

/-- `run` is its turns and, unless one raises, the final request. -/
theorem runLoop_eq (budgets : LoopBudgets) :
    (actionTurns inv env budgets = none ∧ (runLoop inv env budgets).1.effects = [] ∧
        (runLoop inv env budgets).1.budgets = budgets) ∨
      (∃ st e, actionTurns inv env budgets = some (st, .raised e) ∧
        runLoop inv env budgets = (st, .error e)) ∨
      ∃ st ended, actionTurns inv env budgets = some (st, ended) ∧ (∀ e, ended ≠ .raised e) ∧
        runLoop inv env budgets = finalizeLoop inv env st := by
  by_cases hid : strip inv.invocationId = ""
  · simp [actionTurns, runLoop, hid]
  · simp only [actionTurns, runLoop, if_neg hid]
    cases hlimits : callLimits inv budgets with
    | error e => exact .inl ⟨rfl, rfl, rfl⟩
    | ok limits =>
      obtain ⟨actions, maxTools⟩ := limits
      simp only
      cases hturns : runTurns inv env maxTools actions 1 { budgets } with
      | mk st ended =>
        cases ended with
        | raised e => exact .inr (.inl ⟨st, e, rfl, rfl⟩)
        | next => exact .inr (.inr ⟨st, .next, rfl, by simp, rfl⟩)
        | finalize => exact .inr (.inr ⟨st, .finalize, rfl, by simp, rfl⟩)

end

/-- With a fresh task budget, run and task are charged once for each request, the task's tool
calls keep to their limit, the turns keep to theirs, and every invocation that makes its
turns has a model call left to finish with. -/
theorem final_call_reserved (inv : Invocation) (env : LoopEnv) (start task : RunRepairBudget)
    (hfresh : task.modelCalls = 0 ∧ task.toolCalls = 0) :
    let ended := runLoop inv env ⟨some start, some task⟩
    (∃ run extra, ended.1.budgets = ⟨some run, some extra⟩ ∧
      run.modelCalls = start.modelCalls + sentRequests ended.1.effects ∧
      extra.modelCalls = sentRequests ended.1.effects ∧
      extra.maxToolCalls = task.maxToolCalls ∧ extra.toolCalls ≤ task.maxToolCalls) ∧
    actionCount inv env ⟨some start, some task⟩ ≤ turnLimit inv start task ∧
    (∀ st turnEnd, actionTurns inv env ⟨some start, some task⟩ = some (st, turnEnd) →
      ∃ budgets, st.budgets.consumeModelCall = (budgets, none)) ∧
    ∀ st turnEnd e, actionTurns inv env ⟨some start, some task⟩ = some (st, turnEnd) →
      ended.2 = .error e → OtherEnd env e := by
  intro ended
  have hkept : ended.1.InStep start task := by
    rcases @runLoop_eq inv env ⟨some start, some task⟩ with
      ⟨-, heffects, hbudgets⟩ | ⟨st, e, hturns, hrun⟩ | ⟨st, turnEnd, hturns, -, hrun⟩
    · obtain ⟨run, extra, h⟩ := @inStep_start start task hfresh
      refine ⟨run, extra, { h with budgets := ?_, runCalls := ?_, taskCalls := ?_ }⟩
      · exact hbudgets.trans h.budgets
      · rw [show ended.1.effects = [] from heffects]
        exact h.runCalls
      · rw [show ended.1.effects = [] from heffects]
        exact h.taskCalls
    · show (runLoop inv env ⟨some start, some task⟩).1.InStep start task
      rw [hrun]
      exact (actionTurns_inStep hfresh hturns).1
    · show (runLoop inv env ⟨some start, some task⟩).1.InStep start task
      rw [hrun]
      obtain ⟨hst, -, hroom, -⟩ := actionTurns_inStep hfresh hturns
      exact (finalizeLoop_inStep st hst hroom).1
  refine ⟨?_, ?_, fun st turnEnd hturns => ?_, fun st turnEnd e hturns hend => ?_⟩
  · obtain ⟨run, extra, h⟩ := hkept
    exact ⟨run, extra, h.budgets, h.runCalls, h.taskCalls, h.toolLimit, h.toolCalls⟩
  · unfold actionCount
    cases hturns : actionTurns inv env ⟨some start, some task⟩ with
    | none => exact Nat.zero_le _
    | some turned => exact (actionTurns_inStep hfresh hturns).2.1
  · obtain ⟨hst, -, hroom, -⟩ := actionTurns_inStep hfresh hturns
    obtain ⟨budgets, hspend, -⟩ := consumeModelCall_room hst hroom
    exact ⟨budgets, hspend⟩
  · obtain ⟨hst, -, hroom, hraised⟩ := actionTurns_inStep hfresh hturns
    rcases @runLoop_eq inv env ⟨some start, some task⟩ with
      ⟨hnone, -⟩ | ⟨st', e', hturns', hrun⟩ | ⟨st', turnEnd', hturns', hnormal, hrun⟩
    · rw [hnone] at hturns
      cases hturns
    · rw [hturns'] at hturns
      cases hturns
      have hsame : e' = e := by
        have hend : (runLoop inv env ⟨some start, some task⟩).2 = .error e := hend
        rw [hrun] at hend
        exact Except.error.inj hend
      subst hsame
      exact hraised e' rfl
    · rw [hturns'] at hturns
      cases hturns
      have hend : (runLoop inv env ⟨some start, some task⟩).2 = .error e := hend
      rw [hrun] at hend
      exact (finalizeLoop_inStep st hst hroom).2 e hend

/-- A turn with a tool call, one without, and the final report. -/
theorem final_call_reserved_once :
    let inv : Invocation := ⟨"run-1", "worker", "task-1:1", 4, 10⟩
    let env : LoopEnv :=
      { nextAction := fun turn => .response (if turn = 1 then [⟨"call-1", "run_test", {}⟩] else []),
        invoke := fun _ => .returned { exitCode := some 0 }, finalize := .report none }
    let start : RunRepairBudget := { maxModelCalls := 5, maxToolCalls := 8, modelCalls := 2 }
    let task : RunRepairBudget := { maxModelCalls := 3, maxToolCalls := 6 }
    (∃ run extra, (runLoop inv env ⟨some start, some task⟩).1.budgets = ⟨some run, some extra⟩ ∧
      run.modelCalls = 5 ∧ extra.modelCalls = 3 ∧ extra.toolCalls = 1) ∧
    actionCount inv env ⟨some start, some task⟩ ≤ 2 ∧
      ∀ st turnEnd, actionTurns inv env ⟨some start, some task⟩ = some (st, turnEnd) →
        ∃ budgets, st.budgets.consumeModelCall = (budgets, none) := by
  obtain ⟨⟨run, extra, hbudgets, hrun, hextra, -, -⟩, hturns, hfinal, -⟩ := final_call_reserved
    ⟨"run-1", "worker", "task-1:1", 4, 10⟩
    { nextAction := fun turn => .response (if turn = 1 then [⟨"call-1", "run_test", {}⟩] else []),
      invoke := fun _ => .returned { exitCode := some 0 }, finalize := .report none }
    { maxModelCalls := 5, maxToolCalls := 8, modelCalls := 2 }
    { maxModelCalls := 3, maxToolCalls := 6 } ⟨rfl, rfl⟩
  refine ⟨⟨run, extra, hbudgets, hrun.trans ?_, hextra.trans ?_, ?_⟩, hturns, hfinal⟩
  · decide +kernel
  · decide +kernel
  · have htools := congrArg (fun budgets => budgets.task.map RunRepairBudget.toolCalls) hbudgets
    exact (Option.some.inj htools).symm

end EvoCI
