import EvoCI.ToolLoop
import EvoCI.LoopTrace

/-! How an invocation of the tool loop spends the run's budget: each request and
each tool call is charged before it is made. -/

namespace EvoCI

section Spending

variable {inv : Invocation} {env : LoopEnv}

/-- How the run's budget stands after some effects of an invocation: each call was
charged before it was made. -/
structure Charged (start : RunRepairBudget) (budgets : LoopBudgets) (effects : List LoopEffect)
    (now : RunRepairBudget) : Prop where
  run : budgets.run = some now
  maxModelCalls : now.maxModelCalls = start.maxModelCalls
  maxToolCalls : now.maxToolCalls = start.maxToolCalls
  modelCalls : start.modelCalls + sentRequests effects ≤ now.modelCalls
  toolCalls : start.toolCalls + (executedCalls effects).length ≤ now.toolCalls
  modelRoom : now.modelCalls ≤ max start.modelCalls start.maxModelCalls
  toolRoom : now.toolCalls ≤ max start.toolCalls start.maxToolCalls

theorem consumeModelCall_eq {b b' : RunRepairBudget} (h : b.consumeModelCall = .ok b') :
    b.modelCalls < b.maxModelCalls ∧ b' = { b with modelCalls := b.modelCalls + 1 } := by
  unfold RunRepairBudget.consumeModelCall at h
  split at h
  · cases h
  · cases h
    exact ⟨by omega, rfl⟩

theorem consumeToolCall_eq {b b' : RunRepairBudget} (h : b.consumeToolCall = .ok b') :
    b.toolCalls < b.maxToolCalls ∧ b' = { b with toolCalls := b.toolCalls + 1 } := by
  unfold RunRepairBudget.consumeToolCall at h
  split at h
  · cases h
  · cases h
    exact ⟨by omega, rfl⟩

/-- Consuming together leaves the run's budget, or has spent on it. -/
theorem consume_run {b b' : LoopBudgets} {message : String} {error : Option PyError}
    {spend : RunRepairBudget → Except PyError RunRepairBudget} {now : RunRepairBudget}
    (hrun : b.run = some now) (h : b.consume message spend = (b', error)) :
    (error ≠ none ∧ b'.run = some now) ∨ ∃ spent, spend now = .ok spent ∧ b'.run = some spent := by
  unfold LoopBudgets.consume at h
  rw [hrun] at h
  cases hspend : spend now with
  | error e =>
    have hfail : (some now).mapM spend = .error e := by
      rw [Option.mapM_some, hspend]
      rfl
    rw [hfail] at h
    cases h
    exact .inl ⟨by simp, hrun⟩
  | ok spent =>
    have hok : (some now).mapM spend = .ok (some spent) := by
      rw [Option.mapM_some, hspend]
      rfl
    rw [hok] at h
    refine .inr ⟨spent, rfl, ?_⟩
    cases htask : b.task.mapM spend with
    | error e =>
      simp only [htask] at h
      cases h
      rfl
    | ok task =>
      simp only [htask] at h
      cases h
      rfl

variable {start now : RunRepairBudget} {b b' : LoopBudgets} {effects : List LoopEffect}

theorem Charged.emit (h : Charged start b effects now) (event : TrajectoryEvent) :
    Charged start b (effects ++ [.emits event]) now := by
  refine { h with modelCalls := ?_, toolCalls := ?_ }
  · simpa [sentRequests] using h.modelCalls
  · simpa [executedCalls] using h.toolCalls

/-- A request that was charged may be sent. -/
theorem Charged.send (h : Charged start b effects now)
    (hspend : b.consumeModelCall = (b', none)) :
    ∃ spent, Charged start b' (effects ++ [.sends]) spent := by
  rcases consume_run h.run hspend with ⟨hne, -⟩ | ⟨spent, hspent, hrun⟩
  · exact absurd rfl hne
  · obtain ⟨hroom, rfl⟩ := consumeModelCall_eq hspent
    have hcalls := h.modelCalls
    have hmax := h.maxModelCalls
    refine ⟨_, hrun, h.maxModelCalls, h.maxToolCalls, ?_, ?_, ?_, h.toolRoom⟩
    · rw [sentRequests_append, show sentRequests [.sends] = 1 from rfl]
      show _ ≤ now.modelCalls + 1
      omega
    · simpa [executedCalls] using h.toolCalls
    · show now.modelCalls + 1 ≤ _
      omega

/-- A tool call that was charged may be recorded and executed. -/
theorem Charged.execute (h : Charged start b effects now)
    (hspend : b.consumeToolCall = (b', none)) (event : TrajectoryEvent) (call : ToolCallRequest)
    (answer : ToolAnswer) :
    ∃ spent, Charged start b' (effects ++ [.emits event] ++ [.executes call answer]) spent := by
  rcases consume_run h.run hspend with ⟨hne, -⟩ | ⟨spent, hspent, hrun⟩
  · exact absurd rfl hne
  · obtain ⟨hroom, rfl⟩ := consumeToolCall_eq hspent
    have hcalls := h.toolCalls
    have hmax := h.maxToolCalls
    refine ⟨_, hrun, h.maxModelCalls, h.maxToolCalls, ?_, ?_, h.modelRoom, ?_⟩
    · simpa [sentRequests] using h.modelCalls
    · rw [executedCalls_append, executedCalls_append, List.length_append, List.length_append,
        show executedCalls [.emits event] = [] from rfl,
        show (executedCalls [.executes call answer]).length = 1 from rfl]
      show _ ≤ now.toolCalls + 1
      simp only [List.length_nil]
      omega
    · show now.toolCalls + 1 ≤ _
      omega

/-- A refused call may still have been charged to the run. -/
theorem Charged.refused (h : Charged start b effects now)
    {error : PyError} (hspend : b.consumeModelCall = (b', some error) ∨
      b.consumeToolCall = (b', some error)) : ∃ spent, Charged start b' effects spent := by
  rcases hspend with hspend | hspend
  · rcases consume_run h.run hspend with ⟨-, hrun⟩ | ⟨spent, hspent, hrun⟩
    · exact ⟨now, { h with run := hrun }⟩
    · obtain ⟨hroom, rfl⟩ := consumeModelCall_eq hspent
      have hcalls := h.modelCalls
      have hmax := h.maxModelCalls
      refine ⟨_, { h with run := hrun, modelCalls := ?_, modelRoom := ?_ }⟩
      · show _ ≤ now.modelCalls + 1
        omega
      · show now.modelCalls + 1 ≤ _
        omega
  · rcases consume_run h.run hspend with ⟨-, hrun⟩ | ⟨spent, hspent, hrun⟩
    · exact ⟨now, { h with run := hrun }⟩
    · obtain ⟨hroom, rfl⟩ := consumeToolCall_eq hspent
      have hcalls := h.toolCalls
      have hmax := h.maxToolCalls
      refine ⟨_, { h with run := hrun, toolCalls := ?_, toolRoom := ?_ }⟩
      · show _ ≤ now.toolCalls + 1
        omega
      · show now.toolCalls + 1 ≤ _
        omega

/-- The state of the loop stands within its charges. -/
def LoopState.Charged (start : RunRepairBudget) (st : LoopState) : Prop :=
  ∃ now, EvoCI.Charged start st.budgets st.effects now

theorem LoopState.Charged.emit {st : LoopState} (h : st.Charged start)
    (payload : TrajectoryPayload) (key : String) : (st.emit inv env payload key).Charged start :=
  h.imp fun _ h => h.emit _

theorem finishCall_charged {st : LoopState} (h : st.Charged start) (iteration : Nat)
    (call : ToolCallRequest) (result : CallResult) :
    (finishCall inv env iteration call result st).Charged start := by
  have hanswered : (st.emit inv env (toolResultPayload call result iteration)
      call.callId).Charged start := h.emit _ _
  unfold finishCall
  simp only
  split
  · exact hanswered
  next payload key hskill =>
    have hnoted : ((st.emit inv env (toolResultPayload call result iteration) call.callId).emit
        inv env payload key).Charged start := hanswered.emit _ _
    split <;> exact hnoted

theorem runCalls_charged (maxTools iteration : Nat) (calls : List ToolCallRequest) (st : LoopState)
    (h : st.Charged start) : (runCalls inv env maxTools iteration calls st).1.Charged start := by
  induction calls generalizing st with
  | nil => exact h
  | cons call rest ih =>
    obtain ⟨now, hnow⟩ := h
    simp only [runCalls]
    split
    · exact ⟨now, hnow.emit _⟩
    · split
      next budgets e hspend => exact hnow.refused (.inr hspend)
      next budgets hspend =>
        have hexecuted := hnow.execute hspend
          (inv.event (toolCallPayload call) call.callId (env.clock st.effects.length)) call
          (env.invoke (st.toolCount + 1))
        split
        · exact hexecuted
        · apply ih
          apply finishCall_charged
          exact hexecuted

theorem runTurns_charged (maxTools remaining iteration : Nat) (st : LoopState)
    (h : st.Charged start) :
    (runTurns inv env maxTools remaining iteration st).1.Charged start := by
  induction remaining generalizing iteration st with
  | zero => exact h
  | succ remaining ih =>
    obtain ⟨now, hnow⟩ := h
    simp only [runTurns]
    split
    next budgets e hspend => exact hnow.refused (.inl hspend)
    next budgets hspend =>
      have hsent : LoopState.Charged start (LoopState.perform { st with budgets } .sends) :=
        hnow.send hspend
      split
      · exact hsent
      · exact hsent.emit _ _
      next toolCalls hanswer =>
        split
        · exact hsent.emit _ _
        · have hcalls := @runCalls_charged inv env start maxTools iteration toolCalls _
            (@LoopState.Charged.emit inv env start _ hsent .modelCall (turnKey iteration))
          split
          next st' hnext =>
            rw [hnext] at hcalls
            exact ih _ _ hcalls
          next ended hended => exact hcalls

theorem recordProcedures_charged (skillIds : List String) (st : LoopState)
    (h : st.Charged start) : (recordProcedures inv env skillIds st).Charged start := by
  induction skillIds generalizing st with
  | nil => exact h
  | cons skillId rest ih => exact ih _ (h.emit _ _)

theorem finalizeLoop_charged (st : LoopState) (h : st.Charged start) :
    (finalizeLoop inv env st).1.Charged start := by
  obtain ⟨now, hnow⟩ := h
  unfold finalizeLoop
  split
  next budgets e hspend =>
    obtain ⟨spent, hspent⟩ := hnow.refused (.inl hspend)
    exact ⟨spent, hspent.emit _⟩
  next budgets hspend =>
    have hsent : LoopState.Charged start (LoopState.perform { st with budgets } .sends) :=
      hnow.send hspend
    simp only
    split
    · exact hsent
    · exact hsent.emit _ _
    · split
      · exact hsent.emit _ _
      · exact recordProcedures_charged _ _ (hsent.emit _ _)

/-- An invocation makes no call that it has not charged to the run. -/
theorem runLoop_charged (inv : Invocation) (env : LoopEnv) (start : RunRepairBudget)
    (task : Option RunRepairBudget) :
    (runLoop inv env ⟨some start, task⟩).1.Charged start := by
  have hstart : LoopState.Charged start { budgets := ⟨some start, task⟩ } :=
    ⟨start, rfl, rfl, rfl, Nat.le_refl _, Nat.le_refl _, Nat.le_max_left _ _, Nat.le_max_left _ _⟩
  unfold runLoop
  split
  · exact hstart
  · split
    · exact hstart
    next actions maxTools hlimits =>
      have hturns := @runTurns_charged inv env start maxTools actions 1 _ hstart
      split
      next st e hended =>
        rw [hended] at hturns
        exact hturns
      next st hended =>
        rw [hended] at hturns
        exact finalizeLoop_charged st hturns
      next st hended =>
        rw [hended] at hturns
        exact finalizeLoop_charged st hturns

end Spending

end EvoCI
