import EvoCI.Library.Run
import EvoCI.CallRecords
import EvoCI.Spending
import Mathlib.Data.List.Chain

/-! The calls a run makes on its budget over crashes and resumes: the budget of a
process, the recorded events it is recounted from, and the calls really made. -/

namespace EvoCI

open Library

/-! ## Runs -/

/-- A run between two invocations. `sent` and `executed` are ghost counts of the
requests that reached the gateway and of the tool calls that were executed. -/
structure Consumption where
  log : List TrajectoryEvent := []
  budget : RunRepairBudget
  sent : Nat := 0
  executed : Nat := 0

/-- What a step of the graph does on the budget. -/
inductive ConsumptionStep where
  /-- An invocation of the tool loop by supervisor or worker. The process dies
  after that many effects, if at all. -/
  | invoke (inv : Invocation) (env : LoopEnv) (task : Option RunRepairBudget)
      (killed : Option Nat)
  /-- A call of the harness: an edit that is applied, or a verification command. -/
  | harnessCall (runId agentId key : String) (time : Nat) (killed : Option Nat)
  /-- A new process takes the run over. -/
  | restart

/-- The effects that happen before the process dies. -/
def beforeDeath (killed : Option Nat) (effects : List LoopEffect) : List LoopEffect :=
  killed.elim effects effects.take

/-- The event of a harness call. -/
def harnessEvent (runId agentId key : String) (time : Nat) : TrajectoryEvent where
  eventId := emittedId runId agentId none "ToolCall" key
  agentId := agentId
  invocationId := none
  timestamp := time
  payload := .toolCall key "" {}

/-- The effects of a harness call: recorded first, then executed. -/
def harnessEffects (runId agentId key : String) (time : Nat) : List LoopEffect :=
  [.emits (harnessEvent runId agentId key time), .executes ⟨key, "", {}⟩ (.returned {})]

/-- The run after these effects; the budget is that of the process that goes on. -/
def Consumption.after (c : Consumption) (effects : List LoopEffect) (killed : Option Nat)
    (budget : RunRepairBudget) : Consumption :=
  let performed := beforeDeath killed effects
  let log := (emittedEvents performed).foldl recordEvent c.log
  { log
    budget := if killed.isSome then forRun c.budget.maxModelCalls c.budget.maxToolCalls log
      else budget
    sent := c.sent + sentRequests performed
    executed := c.executed + (executedCalls performed).length }

/-- The effects of a step, and the budget they leave. -/
def stepEffects (c : Consumption) : ConsumptionStep → List LoopEffect × RunRepairBudget
  | .invoke inv env task _ =>
    let ended := (runLoop inv env ⟨some c.budget, task⟩).1
    (ended.effects, ended.budgets.run.getD c.budget)
  | .harnessCall runId agentId key time _ =>
    match c.budget.consumeToolCall with
    | .ok budget => (harnessEffects runId agentId key time, budget)
    | .error _ => ([], c.budget)
  | .restart => ([], c.budget)

/-- The point at which the process dies, if it does; a restart is a death between
two steps. -/
def ConsumptionStep.killed : ConsumptionStep → Option Nat
  | .invoke _ _ _ killed => killed
  | .harnessCall _ _ _ _ killed => killed
  | .restart => some 0

def consume (step : ConsumptionStep) (c : Consumption) : Consumption :=
  c.after (stepEffects c step).1 step.killed (stepEffects c step).2

def Consumption.start (maxModelCalls maxToolCalls : Nat) : Consumption where
  budget := { maxModelCalls, maxToolCalls }

/-- No more calls than the run may make, and no more than a new process counts. -/
structure Consumption.WithinBudget (c : Consumption) (maxModelCalls maxToolCalls : Nat) :
    Prop where
  modelCalls : c.sent ≤ maxModelCalls
  toolCalls : c.executed ≤ maxToolCalls
  recountedModelCalls : c.sent ≤ (forRun maxModelCalls maxToolCalls c.log).modelCalls
  recountedToolCalls : c.executed ≤ (forRun maxModelCalls maxToolCalls c.log).toolCalls

/-! ## What is recorded of the calls -/

/-- A request is followed by its event, a tool call comes behind its own. -/
def LoopEffect.Precedes (first second : LoopEffect) : Prop :=
  (first = .sends → ∃ event, second = .emits event ∧ event.countsModelCall = true) ∧
    ∀ call answer, second = .executes call answer →
      ∃ event, first = .emits event ∧ event.countsToolCall = true

structure Linked (effects : List LoopEffect) : Prop where
  chain : effects.IsChain LoopEffect.Precedes
  starts : ∀ call answer, effects.head? ≠ some (.executes call answer)

theorem precedes_emits {event : TrajectoryEvent} {first : LoopEffect} (h : first ≠ .sends) :
    first.Precedes (.emits event) :=
  ⟨fun hsends => absurd hsends h, fun _ _ hexecutes => by cases hexecutes⟩

theorem Linked.append {first second : List LoopEffect} (h : Linked first) (h' : Linked second)
    (hlast : first.getLast? ≠ some .sends) : Linked (first ++ second) := by
  refine ⟨List.isChain_append.mpr ⟨h.chain, h'.chain, ?_⟩, ?_⟩
  · intro x hx y hy
    refine ⟨fun hsends => ?_, fun call answer hexecutes => ?_⟩
    · rw [hsends] at hx
      exact absurd hx hlast
    · rw [hexecutes] at hy
      exact absurd hy (h'.starts call answer)
  · intro call answer
    rw [List.head?_append]
    cases hfirst : first.head? with
    | none => exact h'.starts call answer
    | some effect =>
      intro hsome
      exact h.starts call answer (hfirst.trans hsome)

section Linked

variable {inv : Invocation} {effects : List LoopEffect}

theorem linked_notes (events : List TrajectoryEvent) :
    Linked (events.map LoopEffect.emits) ∧
      (events.map LoopEffect.emits).getLast? ≠ some .sends := by
  refine ⟨⟨?_, ?_⟩, ?_⟩
  · induction events with
    | nil => exact List.isChain_nil
    | cons event events ih =>
      rw [List.map_cons]
      refine ih.cons fun next hnext => ?_
      obtain ⟨other, -, rfl⟩ := List.mem_map.mp (List.mem_of_mem_head? hnext)
      exact precedes_emits (by simp)
  · cases events <;> simp
  · intro hlast
    obtain ⟨event, -, hevent⟩ := List.mem_map.mp (List.mem_of_getLast? hlast)
    cases hevent

theorem linked_unfinished (call : ToolCallRequest) (answer : ToolAnswer) (time : Nat) :
    Linked [.emits (inv.event (toolCallPayload call) call.callId time), .executes call answer] := by
  refine ⟨List.isChain_pair.mpr ⟨fun h => (by cases h), fun _ _ _ => ⟨_, rfl, rfl⟩⟩, ?_⟩
  intro _ _ h
  cases h

theorem Chunk.linked {chunk : List LoopEffect} (h : Chunk inv chunk) :
    Linked chunk ∧ chunk.getLast? ≠ some .sends := by
  cases h with
  | request key time =>
    refine ⟨⟨List.isChain_pair.mpr ⟨fun _ => ⟨_, rfl, rfl⟩, fun _ _ h => (by cases h)⟩, ?_⟩, ?_⟩
    · intro _ _ h
      cases h
    · simp
  | refused time => exact linked_notes [_]
  | overBudget iteration time => exact linked_notes [_]
  | call selectedSkills call answer result iteration times handled =>
    have hnotes := linked_notes (inv.event (toolResultPayload call result iteration) call.callId
      times.2.1 :: (skillPayload? selectedSkills call result).toList.map fun noted =>
        inv.event noted.1 noted.2 times.2.2)
    have hsplit : handledCall inv selectedSkills call answer result iteration times =
        [.emits (inv.event (toolCallPayload call) call.callId times.1), .executes call answer] ++
        (inv.event (toolResultPayload call result iteration) call.callId times.2.1 ::
          (skillPayload? selectedSkills call result).toList.map fun noted =>
            inv.event noted.1 noted.2 times.2.2).map LoopEffect.emits := by
      cases hskill : skillPayload? selectedSkills call result <;> simp [handledCall, hskill]
    rw [hsplit]
    refine ⟨(linked_unfinished call answer times.1).append hnotes.1 (by simp), ?_⟩
    rw [List.getLast?_append_of_ne_nil _ (by simp)]
    exact hnotes.2

theorem Traced.linked (h : Traced inv effects) : Linked effects := by
  obtain ⟨before, remnant, hbefore, hremnant, rfl⟩ := h
  have hchunks : Linked before ∧ before.getLast? ≠ some .sends := by
    induction hbefore with
    | nil => exact ⟨⟨List.isChain_nil, by simp⟩, by simp⟩
    | @append effects chunk before last ih =>
      obtain ⟨hlast, hends⟩ := last.linked
      refine ⟨ih.1.append hlast ih.2, ?_⟩
      rw [List.getLast?_append]
      cases hchunk : chunk.getLast? with
      | none => simpa using ih.2
      | some effect =>
        rw [hchunk] at hends
        simpa using hends
  refine hchunks.1.append ?_ hchunks.2
  cases hremnant with
  | nothing => exact ⟨List.isChain_nil, by simp⟩
  | unrecorded => exact ⟨List.isChain_singleton _, by simp⟩
  | unfinished call answer e time raised => exact linked_unfinished call answer time
  | procedures noted =>
    have hnotes := (linked_notes (noted.map fun skill => procedureEvent inv skill.1 skill.2)).1
    rwa [List.map_map] at hnotes

theorem Linked.take (h : Linked effects) (count : Nat) : Linked (effects.take count) := by
  refine ⟨h.chain.take count, fun call answer hhead => h.starts call answer ?_⟩
  cases effects with
  | nil => simp at hhead
  | cons effect effects =>
    cases count with
    | zero => cases hhead
    | succ count => exact hhead

/-- Every request but a last one has its event. -/
theorem sentRequests_le (h : effects.IsChain LoopEffect.Precedes)
    (hlast : effects.getLast? ≠ some .sends) :
    sentRequests effects ≤ (emittedEvents effects).countP TrajectoryEvent.countsModelCall ∧
      ((∃ event, effects.head? = some (.emits event) ∧ event.countsModelCall = true) →
        sentRequests effects + 1 ≤
          (emittedEvents effects).countP TrajectoryEvent.countsModelCall) := by
  induction effects with
  | nil =>
    refine ⟨Nat.le_refl _, fun hfirst => ?_⟩
    obtain ⟨_, hhead, _⟩ := hfirst
    cases hhead
  | cons effect rest ih =>
    obtain ⟨hhead, hchain⟩ := List.isChain_cons.mp h
    have hrest : rest.getLast? ≠ some .sends := by
      cases rest with
      | nil => simp
      | cons next rest => rwa [List.getLast?_cons_cons] at hlast
    obtain ⟨hcount, hstrict⟩ := ih hchain hrest
    cases effect with
    | sends =>
      have hnext : ∃ event, rest.head? = some (.emits event) ∧ event.countsModelCall = true := by
        cases rest with
        | nil => exact absurd rfl hlast
        | cons next rest =>
          obtain ⟨event, rfl, hcounts⟩ := (hhead next rfl).1 rfl
          exact ⟨event, rfl, hcounts⟩
      have hstrict := hstrict hnext
      constructor
      · simpa [sentRequests, emittedEvents, List.countP_cons] using hstrict
      · rintro ⟨_, hemits, _⟩
        cases hemits
    | executes call answer =>
      constructor
      · simpa [sentRequests, emittedEvents, List.countP_cons] using hcount
      · rintro ⟨_, hemits, _⟩
        cases hemits
    | emits event =>
      have hevents : emittedEvents (.emits event :: rest) = event :: emittedEvents rest := rfl
      have hsends : sentRequests (.emits event :: rest) = sentRequests rest := by
        simp [sentRequests]
      rw [hevents, hsends, List.countP_cons]
      refine ⟨by omega, fun hfirst => ?_⟩
      obtain ⟨other, hemits, hcounts⟩ := hfirst
      cases hemits
      rw [if_pos hcounts]
      omega

/-- Every executed tool call but a first effect has its event. -/
theorem executedCalls_le (h : effects.IsChain LoopEffect.Precedes) :
    (executedCalls effects).length ≤
        (emittedEvents effects).countP TrajectoryEvent.countsToolCall + 1 ∧
      ((∀ call answer, effects.head? ≠ some (.executes call answer)) →
        (executedCalls effects).length ≤
          (emittedEvents effects).countP TrajectoryEvent.countsToolCall) := by
  induction effects with
  | nil => exact ⟨Nat.zero_le _, fun _ => Nat.le_refl _⟩
  | cons effect rest ih =>
    obtain ⟨hhead, hchain⟩ := List.isChain_cons.mp h
    obtain ⟨hcount, hstrict⟩ := ih hchain
    have hfirst : ∀ call answer, rest.head? = some (.executes call answer) →
        ∃ event, effect = .emits event ∧ event.countsToolCall = true :=
      fun call answer hnext => (hhead _ hnext).2 call answer rfl
    cases effect with
    | sends =>
      have hstrict := hstrict fun call answer hnext => by
        obtain ⟨_, hemits, _⟩ := hfirst call answer hnext
        cases hemits
      have hcalls : executedCalls (.sends :: rest) = executedCalls rest := rfl
      have hevents : emittedEvents (.sends :: rest) = emittedEvents rest := rfl
      rw [hcalls, hevents]
      exact ⟨hcount, fun _ => hstrict⟩
    | executes call answer =>
      have hstrict := hstrict fun call answer hnext => by
        obtain ⟨_, hemits, _⟩ := hfirst call answer hnext
        cases hemits
      have hcalls : executedCalls (.executes call answer :: rest) =
          (call, answer) :: executedCalls rest := rfl
      have hevents : emittedEvents (.executes call answer :: rest) = emittedEvents rest := rfl
      rw [hcalls, hevents, List.length_cons]
      exact ⟨by omega, fun hnot => absurd rfl (hnot call answer)⟩
    | emits event =>
      have hcalls : executedCalls (.emits event :: rest) = executedCalls rest := rfl
      have hevents : emittedEvents (.emits event :: rest) = event :: emittedEvents rest := rfl
      rw [hcalls, hevents, List.countP_cons]
      refine ⟨by omega, fun _ => ?_⟩
      by_cases hcounts : event.countsToolCall = true
      · rw [if_pos hcounts]
        omega
      · have hstrict := hstrict fun call answer hnext => by
          obtain ⟨_, hemits, hother⟩ := hfirst call answer hnext
          cases hemits
          exact hcounts hother
        omega

end Linked

/-! ## Distinct events of requests -/

section Requests

variable {inv : Invocation} {env : LoopEnv}

/-- The events of requests among the emitted ones are those of these keys. -/
def RequestKeys (inv : Invocation) (effects : List LoopEffect) (keys : List String) : Prop :=
  List.Forall₂ (fun event key => ∃ time, event = inv.event .modelCall key time)
    ((emittedEvents effects).filter (·.payload = .modelCall)) keys

theorem RequestKeys.append {effects more : List LoopEffect} {keys : List String}
    (h : RequestKeys inv effects keys) (key : String) (time : Nat)
    (hmore : (emittedEvents more).filter (·.payload = .modelCall) =
      [inv.event .modelCall key time]) : RequestKeys inv (effects ++ more) (keys ++ [key]) := by
  unfold RequestKeys
  rw [emittedEvents_append, List.filter_append, hmore]
  exact List.rel_append h (.cons ⟨time, rfl⟩ .nil)

theorem RequestKeys.append_other {effects more : List LoopEffect} {keys : List String}
    (h : RequestKeys inv effects keys)
    (hmore : (emittedEvents more).filter (·.payload = .modelCall) = []) :
    RequestKeys inv (effects ++ more) keys := by
  unfold RequestKeys
  rwa [emittedEvents_append, List.filter_append, hmore, List.append_nil]

theorem turnKey_injective {i j : Nat} (h : turnKey i = turnKey j) : i = j := by
  have htext := congrArg String.toList h
  simp only [turnKey, toString, String.toList_append] at htext
  have hdigits : Nat.toDigits 10 i = Nat.toDigits 10 j := by simpa using htext
  calc
    i = Nat.ofDigitChars 10 (Nat.toDigits 10 i) 0 := Nat.ofDigitChars_ten_toDigits.symm
    _ = Nat.ofDigitChars 10 (Nat.toDigits 10 j) 0 := by rw [hdigits]
    _ = j := Nat.ofDigitChars_ten_toDigits

theorem turnKey_ne_final (i : Nat) : turnKey i ≠ finalKey := by
  intro h
  have hhead := congrArg (fun text => text.toList.head?) h
  simp [turnKey, finalKey, toString] at hhead

theorem finishCall_requests {st : LoopState} {keys : List String} (iteration : Nat)
    (call : ToolCallRequest) (result : CallResult) (h : RequestKeys inv st.effects keys) :
    RequestKeys inv (finishCall inv env iteration call result st).effects keys := by
  have hanswered : RequestKeys inv (st.emit inv env (toolResultPayload call result iteration)
      call.callId).effects keys := h.append_other rfl
  unfold finishCall
  simp only
  split
  · exact hanswered
  next payload key hskill =>
    have hpayload : payload ≠ .modelCall := by
      rintro rfl
      unfold skillPayload? at hskill
      repeat' split at hskill
      all_goals simp at hskill
    have hnoted : RequestKeys inv ((st.emit inv env (toolResultPayload call result iteration)
        call.callId).emit inv env payload key).effects keys := by
      refine hanswered.append_other ?_
      simp [emittedEvents, Invocation.event, hpayload]
    split <;> exact hnoted

theorem runCalls_requests (maxTools iteration : Nat) (calls : List ToolCallRequest)
    (st : LoopState) {keys : List String} (h : RequestKeys inv st.effects keys) :
    RequestKeys inv (runCalls inv env maxTools iteration calls st).1.effects keys := by
  induction calls generalizing st with
  | nil => exact h
  | cons call rest ih =>
    simp only [runCalls]
    split
    · exact h.append_other rfl
    · split
      · exact h
      next budgets hspend =>
        have hexecuted : RequestKeys inv (st.effects ++ [.emits (inv.event (toolCallPayload call)
            call.callId (env.clock st.effects.length))] ++
            [.executes call (env.invoke (st.toolCount + 1))]) keys :=
          (h.append_other rfl).append_other rfl
        split
        · exact hexecuted
        · apply ih
          apply finishCall_requests
          exact hexecuted

/-- The turns so far used the keys of their iterations. -/
theorem runTurns_requests (maxTools remaining turns : Nat) (st : LoopState)
    (h : RequestKeys inv st.effects ((List.range' 1 turns).map turnKey)) :
    ∃ turns', RequestKeys inv (runTurns inv env maxTools remaining (turns + 1) st).1.effects
      ((List.range' 1 turns').map turnKey) := by
  induction remaining generalizing turns st with
  | zero => exact ⟨turns, h⟩
  | succ remaining ih =>
    simp only [runTurns]
    split
    · exact ⟨turns, h⟩
    next budgets hspend =>
      have hsent : RequestKeys inv (st.effects ++ [.sends]) ((List.range' 1 turns).map turnKey) :=
        h.append_other rfl
      have hanswered : ∀ time, RequestKeys inv (st.effects ++ [.sends] ++
          [.emits (inv.event .modelCall (turnKey (turns + 1)) time)])
          ((List.range' 1 (turns + 1)).map turnKey) := by
        intro time
        rw [List.range'_1_concat, List.map_append, Nat.add_comm 1 turns]
        exact hsent.append _ time rfl
      split
      · exact ⟨turns, hsent⟩
      · exact ⟨turns + 1, hanswered _⟩
      next toolCalls hanswer =>
        split
        · exact ⟨turns + 1, hanswered _⟩
        · have hcalls := @runCalls_requests inv env maxTools (turns + 1) toolCalls
            ((LoopState.perform { st with budgets } .sends).emit inv env .modelCall
              (turnKey (turns + 1))) _ (hanswered _)
          split
          next st' hnext =>
            rw [hnext] at hcalls
            exact ih (turns + 1) st' hcalls
          next ended hended => exact ⟨turns + 1, hcalls⟩

theorem recordProcedures_requests (skillIds : List String) (st : LoopState) {keys : List String}
    (h : RequestKeys inv st.effects keys) :
    RequestKeys inv (recordProcedures inv env skillIds st).effects keys := by
  induction skillIds generalizing st with
  | nil => exact h
  | cons skillId rest ih => exact ih _ (h.append_other rfl)

theorem turnKeys_nodup (turns : Nat) : ((List.range' 1 turns).map turnKey).Nodup :=
  (List.nodup_map_iff fun _ _ => turnKey_injective).mpr List.nodup_range'

theorem finalizeLoop_requests (st : LoopState) {turns : Nat}
    (h : RequestKeys inv st.effects ((List.range' 1 turns).map turnKey)) :
    ∃ keys, keys.Nodup ∧ RequestKeys inv (finalizeLoop inv env st).1.effects keys := by
  have hnodup : ((List.range' 1 turns).map turnKey ++ [finalKey]).Nodup := by
    rw [List.nodup_append]
    refine ⟨turnKeys_nodup turns, List.nodup_singleton _, ?_⟩
    intro key hkey other hother
    obtain ⟨i, -, rfl⟩ := List.mem_map.mp hkey
    rw [List.mem_singleton.mp hother]
    exact turnKey_ne_final i
  unfold finalizeLoop
  split
  · exact ⟨_, hnodup, h.append _ _ rfl⟩
  · have hsent : RequestKeys inv (st.effects ++ [.sends]) ((List.range' 1 turns).map turnKey) :=
      h.append_other rfl
    have hanswered : ∀ time, RequestKeys inv (st.effects ++ [.sends] ++
        [.emits (inv.event .modelCall finalKey time)])
        ((List.range' 1 turns).map turnKey ++ [finalKey]) := fun time => hsent.append _ time rfl
    simp only
    split
    · exact ⟨_, turnKeys_nodup turns, hsent⟩
    · exact ⟨_, hnodup, hanswered _⟩
    · split
      · exact ⟨_, hnodup, hanswered _⟩
      · exact ⟨_, hnodup, recordProcedures_requests _ _ (hanswered _)⟩

/-- Each request of an invocation has a key of its own. -/
theorem runLoop_requests (inv : Invocation) (env : LoopEnv) (budgets : LoopBudgets) :
    ∃ keys, keys.Nodup ∧ RequestKeys inv (runLoop inv env budgets).1.effects keys := by
  unfold runLoop
  split
  · exact ⟨[], List.nodup_nil, .nil⟩
  · split
    · exact ⟨[], List.nodup_nil, .nil⟩
    next actions maxTools hlimits =>
      obtain ⟨turns, hturns⟩ := @runTurns_requests inv env maxTools actions 0 { budgets } .nil
      split
      next st e hended =>
        rw [hended] at hturns
        exact ⟨_, turnKeys_nodup turns, hturns⟩
      next st hended =>
        rw [hended] at hturns
        exact finalizeLoop_requests st hturns
      next st hended =>
        rw [hended] at hturns
        exact finalizeLoop_requests st hturns

end Requests

/-! ## Recorded counts -/

section Recorded

variable {inv : Invocation} {effects : List LoopEffect}

/-- The call ids of the tool calls that are recorded. -/
def recordedCallIds (effects : List LoopEffect) : List String :=
  (emittedEvents effects).filterMap fun event =>
    match event.payload with
    | .toolCall callId _ _ => some callId
    | _ => none

/-- What the recount of an invocation relies on: no request of it is recorded
already, none is cut off from its event, and its tool calls come with ids of
their own. -/
structure Accountable (log : List TrajectoryEvent) (inv : Invocation)
    (performed : List LoopEffect) : Prop where
  requests : ∀ old ∈ log, ∀ key, key ≠ "" →
    old.eventId ≠ emittedId inv.runId inv.agentId inv.invocationId "ModelCall" key
  recorded : performed.getLast? ≠ some .sends
  calls : ∀ callId ∈ recordedCallIds performed, callId ≠ "" → ∀ old ∈ log,
    old.eventId ≠ emittedId inv.runId inv.agentId inv.invocationId "ToolCall" callId
  distinct : (recordedCallIds performed).Pairwise fun a b => b ≠ "" → a ≠ b

theorem countP_recorded {p : TrajectoryEvent → Bool} {log events : List TrajectoryEvent}
    (h : (Journal.added TrajectoryEvent.eventId log events).filter p = events.filter p) :
    (events.foldl recordEvent log).countP p = log.countP p + events.countP p := by
  have hall : events.foldl recordEvent log =
      log ++ Journal.added TrajectoryEvent.eventId log events := Journal.recordAll_eq log events
  rw [hall, List.countP_append, List.countP_eq_length_filter (l := Journal.added _ _ _), h,
    List.countP_eq_length_filter (l := events)]

/-- Recording takes no event away. -/
theorem countP_le_recorded (p : TrajectoryEvent → Bool) (log events : List TrajectoryEvent) :
    log.countP p ≤ (events.foldl recordEvent log).countP p := by
  have hall : events.foldl recordEvent log =
      log ++ Journal.added TrajectoryEvent.eventId log events := Journal.recordAll_eq log events
  rw [hall, List.countP_append]
  exact Nat.le_add_right _ _

theorem emittedEvents_take (count : Nat) :
    (emittedEvents (effects.take count)).Sublist (emittedEvents effects) :=
  (List.take_sublist count effects).filterMap _

theorem RequestKeys.take {keys : List String} (h : RequestKeys inv effects keys) (count : Nat) :
    ∃ first, first.Sublist keys ∧ RequestKeys inv (effects.take count) first := by
  have hinitial : (emittedEvents (effects.take count)).filter (·.payload = .modelCall) <+:
      (emittedEvents effects).filter (·.payload = .modelCall) :=
    ((List.take_prefix count effects).filterMap _).filter _
  rw [List.prefix_iff_eq_take] at hinitial
  generalize ((emittedEvents (effects.take count)).filter (·.payload = .modelCall)).length =
    taken at hinitial
  refine ⟨keys.take taken, List.take_sublist _ _, ?_⟩
  unfold RequestKeys
  rw [hinitial]
  exact List.forall₂_take taken h

theorem OwnEvent.countsModelCall {event : TrajectoryEvent} (h : OwnEvent inv event) :
    event.countsModelCall = decide (event.payload = .modelCall) := by
  obtain ⟨payload, key, time, rfl, -⟩ := h
  simp [TrajectoryEvent.countsModelCall, Invocation.event]

theorem OwnEvent.countsToolCall {event : TrajectoryEvent} (h : OwnEvent inv event) :
    event.countsToolCall = event.payload.isToolCall := by
  obtain ⟨payload, key, time, rfl, -⟩ := h
  simp [TrajectoryEvent.countsToolCall, Invocation.event]

theorem OwnEvent.modelCall {event : TrajectoryEvent} (h : OwnEvent inv event)
    (htype : event.payload.type = "ModelCall") : decide (event.payload = .modelCall) = true := by
  obtain ⟨payload, key, time, rfl, hloop⟩ := h
  have htype : payload.type = "ModelCall" := htype
  show decide (payload = .modelCall) = true
  cases payload with
  | modelCall => rfl
  | other type => cases hloop
  | _ => simp [TrajectoryPayload.type] at htype

/-- The recorded tool calls carry the ids of their calls. -/
theorem forall₂_recordedCallIds (h : ∀ event ∈ emittedEvents effects,
    event.payload.isToolCall = true →
      ∃ call time, event = inv.event (toolCallPayload call) call.callId time) :
    List.Forall₂ (Keyed inv id fun _ found => found.isToolCall = true)
      ((emittedEvents effects).filter (·.payload.isToolCall)) (recordedCallIds effects) := by
  unfold recordedCallIds
  generalize emittedEvents effects = events at h ⊢
  induction events with
  | nil => exact .nil
  | cons event events ih =>
    have ih := ih fun other hother => h other (List.mem_cons_of_mem _ hother)
    by_cases hcall : event.payload.isToolCall = true
    · obtain ⟨call, time, rfl⟩ := h event List.mem_cons_self hcall
      exact .cons ⟨_, time, rfl, rfl⟩ ih
    · rw [List.filter_cons_of_neg (p := fun event : TrajectoryEvent => event.payload.isToolCall)
        hcall]
      cases hpayload : event.payload with
      | toolCall => rw [hpayload] at hcall; exact absurd rfl hcall
      | _ => simpa [hpayload] using ih

theorem Traced.keyed_toolCall (h : Traced inv effects) :
    ∀ event ∈ emittedEvents effects, event.payload.isToolCall = true →
      ∃ call time, event = inv.event (toolCallPayload call) call.callId time := by
  intro event hevent hcall
  obtain ⟨c, -, found, time, hkeyed, hfound⟩ :=
    exists_mem_of_forall₂ h.toolCalls (List.mem_filter.mpr ⟨hevent, hcall⟩)
  rw [show found = toolCallPayload c.1 from hfound] at hkeyed
  exact ⟨c.1, time, hkeyed⟩

/-- An accountable invocation, up to where its process dies, leaves an event for
each call it made. -/
theorem Accountable.counts {log : List TrajectoryEvent} {keys : List String} {count : Nat}
    (htraced : Traced inv effects) (hnodup : keys.Nodup) (hkeys : RequestKeys inv effects keys)
    (h : Accountable log inv (effects.take count)) :
    log.countP TrajectoryEvent.countsModelCall + sentRequests (effects.take count) ≤
        ((emittedEvents (effects.take count)).foldl recordEvent log).countP
          TrajectoryEvent.countsModelCall ∧
      log.countP TrajectoryEvent.countsToolCall + (executedCalls (effects.take count)).length ≤
        ((emittedEvents (effects.take count)).foldl recordEvent log).countP
          TrajectoryEvent.countsToolCall := by
  have hown : ∀ event ∈ emittedEvents (effects.take count), OwnEvent inv event :=
    fun event hevent => htraced.own event ((emittedEvents_take count).subset hevent)
  have hlinked := htraced.linked.take count
  constructor
  · obtain ⟨first, hfirst, hrequests⟩ := hkeys.take count
    have hkeyed : List.Forall₂ (Keyed inv id fun _ found => found = .modelCall)
        ((emittedEvents (effects.take count)).filter (·.payload = .modelCall)) first :=
      List.Forall₂.imp (fun event key ⟨time, hevent⟩ => ⟨.modelCall, time, hevent, rfl⟩) hrequests
    have hadded := (filter_added_iff_of_keyed "ModelCall" hkeyed hown
      (fun key found hfound => by rw [hfound]; exact ⟨rfl, rfl⟩)
      (fun event hevent => (hown event hevent).modelCall) log).mpr
      ⟨fun key _ hkey old hold => h.requests old hold key hkey,
        (hnodup.sublist hfirst).imp fun {_ _} hne => by
          intro _
          exact hne⟩
    have hsame : ∀ events : List TrajectoryEvent,
        (∀ event ∈ events, event ∈ emittedEvents (effects.take count)) →
        events.filter TrajectoryEvent.countsModelCall =
          events.filter (·.payload = .modelCall) := fun events hevents =>
      List.filter_congr fun event hevent => (hown event (hevents event hevent)).countsModelCall
    rw [countP_recorded (by
      rw [hsame _ (fun event hevent => (Journal.added_sublist _ _).subset hevent),
        hsame _ (fun event hevent => hevent)]
      exact hadded)]
    exact Nat.add_le_add_left (sentRequests_le hlinked.chain h.recorded).1 _
  · have hkeyed := @forall₂_recordedCallIds inv (effects.take count) fun event hevent =>
      htraced.keyed_toolCall event ((emittedEvents_take count).subset hevent)
    have hadded := (filter_added_iff_of_keyed "ToolCall" hkeyed hown
      (fun key found hfound => by
        cases found with
        | toolCall => exact ⟨rfl, rfl⟩
        | _ => cases hfound)
      (fun event hevent => (hown event hevent).isToolCall) log).mpr ⟨h.calls, h.distinct⟩
    have hsame : ∀ events : List TrajectoryEvent,
        (∀ event ∈ events, event ∈ emittedEvents (effects.take count)) →
        events.filter TrajectoryEvent.countsToolCall =
          events.filter (·.payload.isToolCall) := fun events hevents =>
      List.filter_congr fun event hevent => (hown event (hevents event hevent)).countsToolCall
    rw [countP_recorded (by
      rw [hsame _ (fun event hevent => (Journal.added_sublist _ _).subset hevent),
        hsame _ (fun event hevent => hevent)]
      exact hadded)]
    exact Nat.add_le_add_left ((executedCalls_le hlinked.chain).2 hlinked.starts) _

end Recorded

/-! ## Runs within the budget -/

/-- The condition on a step under which the recount does not fall behind. -/
def Accounts : ConsumptionStep → Consumption → Prop
  | .invoke inv env task killed, c =>
    Accountable c.log inv
      (beforeDeath killed (runLoop inv env ⟨some c.budget, task⟩).1.effects)
  | .harnessCall runId agentId key _ _, c =>
    key ≠ "" → ∀ old ∈ c.log, old.eventId ≠ emittedId runId agentId none "ToolCall" key
  | .restart, _ => True

/-- The calls made are charged to the running process and recorded in the log. -/
structure Consumption.Accounted (maxModelCalls maxToolCalls : Nat) (c : Consumption) : Prop where
  modelLimit : c.budget.maxModelCalls = maxModelCalls
  toolLimit : c.budget.maxToolCalls = maxToolCalls
  modelCalls : c.sent ≤ maxModelCalls
  toolCalls : c.executed ≤ maxToolCalls
  chargedModelCalls : c.sent ≤ c.budget.modelCalls
  chargedToolCalls : c.executed ≤ c.budget.toolCalls
  recordedModelCalls : c.sent ≤ c.log.countP TrajectoryEvent.countsModelCall
  recordedToolCalls : c.executed ≤ c.log.countP TrajectoryEvent.countsToolCall

section Runs

variable {maxModelCalls maxToolCalls : Nat} {c : Consumption}

/-- The effects before a death are an initial part of all effects. -/
theorem beforeDeath_eq (killed : Option Nat) (effects : List LoopEffect) :
    ∃ count, beforeDeath killed effects = effects.take count := by
  cases killed with
  | none => exact ⟨effects.length, (List.take_length).symm⟩
  | some count => exact ⟨count, rfl⟩

theorem sentRequests_take (effects : List LoopEffect) (count : Nat) :
    sentRequests (effects.take count) ≤ sentRequests effects :=
  (List.take_sublist count effects).countP_le

theorem executedCalls_take (effects : List LoopEffect) (count : Nat) :
    (executedCalls (effects.take count)).length ≤ (executedCalls effects).length :=
  ((List.take_sublist count effects).filterMap _).length_le

/-- A step that charges its calls and records them keeps the run accounted for. -/
theorem Consumption.Accounted.after (h : c.Accounted maxModelCalls maxToolCalls)
    {effects : List LoopEffect} {killed : Option Nat} {budgets : LoopBudgets}
    {now : RunRepairBudget} (hcharged : Charged c.budget budgets effects now)
    (hmodel : c.log.countP TrajectoryEvent.countsModelCall +
        sentRequests (beforeDeath killed effects) ≤
      ((emittedEvents (beforeDeath killed effects)).foldl recordEvent c.log).countP
        TrajectoryEvent.countsModelCall)
    (htool : c.log.countP TrajectoryEvent.countsToolCall +
        (executedCalls (beforeDeath killed effects)).length ≤
      ((emittedEvents (beforeDeath killed effects)).foldl recordEvent c.log).countP
        TrajectoryEvent.countsToolCall) :
    (c.after effects killed now).Accounted maxModelCalls maxToolCalls := by
  obtain ⟨hmaxModel, hmaxTool, hsent, hexecuted, hchargedModel, hchargedTool, hrecordedModel,
    hrecordedTool⟩ := h
  obtain ⟨count, hcount⟩ := beforeDeath_eq killed effects
  have hsends := sentRequests_take effects count
  have hcalls := executedCalls_take effects count
  rw [← hcount] at hsends hcalls
  obtain ⟨-, hnowModel, hnowTool, hchargedSent, hchargedExecuted, hmodelRoom, htoolRoom⟩ := hcharged
  have hsentMax : c.sent + sentRequests (beforeDeath killed effects) ≤ maxModelCalls := by
    omega
  have hexecutedMax : c.executed + (executedCalls (beforeDeath killed effects)).length ≤
      maxToolCalls := by
    omega
  constructor
  · unfold Consumption.after
    simp only
    split
    · exact hmaxModel
    · exact hnowModel.trans hmaxModel
  · unfold Consumption.after
    simp only
    split
    · exact hmaxTool
    · exact hnowTool.trans hmaxTool
  · exact hsentMax
  · exact hexecutedMax
  · unfold Consumption.after
    simp only
    split
    · rw [(forRun_counts _ _ _).1]
      omega
    · omega
  · unfold Consumption.after
    simp only
    split
    · rw [(forRun_counts _ _ _).2]
      omega
    · omega
  · exact (Nat.add_le_add_right hrecordedModel _).trans hmodel
  · exact (Nat.add_le_add_right hrecordedTool _).trans htool

/-- A step under the condition keeps the run accounted for. -/
theorem accounted_kept (c : Consumption) (step : ConsumptionStep) (hok : Accounts step c)
    (h : c.Accounted maxModelCalls maxToolCalls) :
    (consume step c).Accounted maxModelCalls maxToolCalls := by
  have hidle : Charged c.budget ⟨some c.budget, none⟩ [] c.budget :=
    ⟨rfl, rfl, rfl, Nat.le_refl _, Nat.le_refl _, Nat.le_max_left _ _, Nat.le_max_left _ _⟩
  cases step with
  | invoke inv env task killed =>
    obtain ⟨now, hcharged⟩ := runLoop_charged inv env c.budget task
    obtain ⟨keys, hnodup, hkeys⟩ := runLoop_requests inv env ⟨some c.budget, task⟩
    obtain ⟨count, hcount⟩ :=
      beforeDeath_eq killed (runLoop inv env ⟨some c.budget, task⟩).1.effects
    have hok : Accountable c.log inv
        ((runLoop inv env ⟨some c.budget, task⟩).1.effects.take count) := by
      rw [← hcount]
      exact hok
    have hcounts := hok.counts (runLoop_traced inv env _) hnodup hkeys
    rw [← hcount] at hcounts
    have hafter := h.after hcharged hcounts.1 hcounts.2
    unfold consume stepEffects
    simp only [hcharged.run, Option.getD_some]
    exact hafter
  | harnessCall runId agentId key time killed =>
    unfold consume stepEffects
    simp only
    cases hspend : c.budget.consumeToolCall with
    | error e =>
      refine h.after hidle ?_ ?_
      · obtain ⟨count, hcount⟩ := beforeDeath_eq killed []
        rw [ConsumptionStep.killed, hcount]
        simp [sentRequests, emittedEvents]
      · obtain ⟨count, hcount⟩ := beforeDeath_eq killed []
        rw [ConsumptionStep.killed, hcount]
        simp [executedCalls, emittedEvents]
    | ok budget =>
      obtain ⟨hroom, rfl⟩ := consumeToolCall_eq hspend
      have hcharged : Charged c.budget ⟨some { c.budget with toolCalls := c.budget.toolCalls + 1 },
          none⟩ (harnessEffects runId agentId key time)
          { c.budget with toolCalls := c.budget.toolCalls + 1 } :=
        ⟨rfl, rfl, rfl, Nat.le_refl _, Nat.le_refl _, Nat.le_max_left _ _, by
          show c.budget.toolCalls + 1 ≤ _
          omega⟩
      have hnew : recordEvent c.log (harnessEvent runId agentId key time) =
          c.log ++ [harnessEvent runId agentId key time] := by
        refine if_neg ?_
        rintro ⟨hsome, old, hold, heq⟩
        have hkey : key ≠ "" := by
          rintro rfl
          simp [harnessEvent, emittedId] at hsome
        exact hok hkey old hold heq
      obtain ⟨count, hcount⟩ := beforeDeath_eq killed (harnessEffects runId agentId key time)
      refine h.after hcharged ?_ ?_
      · refine Nat.le_trans (Nat.le_of_eq ?_) (countP_le_recorded _ _ _)
        rw [ConsumptionStep.killed, hcount]
        have hnone : sentRequests (harnessEffects runId agentId key time) = 0 := by
          simp [sentRequests, harnessEffects]
        have hle := sentRequests_take (harnessEffects runId agentId key time) count
        omega
      · rw [ConsumptionStep.killed, hcount]
        rcases count with _ | count
        · exact Nat.le_refl _
        · have hle := executedCalls_take (harnessEffects runId agentId key time) (count + 1)
          have hevents : emittedEvents ((harnessEffects runId agentId key time).take (count + 1)) =
              [harnessEvent runId agentId key time] := by
            rcases count with _ | _ | count <;> rfl
          rw [hevents, List.foldl_cons, List.foldl_nil, hnew, List.countP_append]
          exact Nat.add_le_add_left hle _
  | restart =>
    refine h.after hidle ?_ ?_
    · simp [beforeDeath, ConsumptionStep.killed, stepEffects, sentRequests, emittedEvents]
    · simp [beforeDeath, ConsumptionStep.killed, stepEffects, executedCalls, emittedEvents]

/-- In a run whose steps all meet the condition, over any number of deaths and
restarts, no more calls are made than the run may make, and none is missing from
what a new process counts. -/
theorem calls_within_budget {steps : List ConsumptionStep}
    (h : Run.Every consume Accounts (Consumption.start maxModelCalls maxToolCalls) steps) :
    (Run.run consume (Consumption.start maxModelCalls maxToolCalls) steps).WithinBudget
      maxModelCalls maxToolCalls := by
  have hstart : (Consumption.start maxModelCalls maxToolCalls).Accounted
      maxModelCalls maxToolCalls :=
    ⟨rfl, rfl, Nat.zero_le _, Nat.zero_le _, Nat.le_refl _, Nat.le_refl _, Nat.le_refl _,
      Nat.le_refl _⟩
  have hend := Run.invariant_of_every accounted_kept hstart h
  refine ⟨hend.modelCalls, hend.toolCalls, ?_, ?_⟩
  · rw [(forRun_counts _ _ _).1]
    exact hend.recordedModelCalls
  · rw [(forRun_counts _ _ _).2]
    exact hend.recordedToolCalls

end Runs

namespace Sample

/-- A worker runs two tests, the process dies behind the second, and a new one
takes over. -/
theorem dying_worker_within_budget :
    (Run.run consume (Consumption.start 9 9)
      [.invoke invocation (testing ["c", "d"] thenFailing) none (some 8),
        .restart]).WithinBudget 9 9 := by
  refine calls_within_budget ⟨⟨?_, ?_, ?_, ?_⟩, trivial, trivial⟩
  · intro old hold
    cases hold
  · decide +kernel
  · intro callId _ _ old hold
    cases hold
  · decide +kernel

/-- A supervisor that decides in its first turn. -/
def deciding : LoopEnv where
  nextAction _ := .response []
  invoke _ := .failed ""
  finalize := .report none

def supervising (batch : Nat) : Invocation :=
  ⟨"run", "supervisor", s!"supervise:{batch}", 8, 16⟩

/-- With two model calls allowed, a process that dies before the event of its
first one lets the run make three. With four allowed, an invocation that is
executed again under its id lets the run make five. -/
theorem dying_supervisor_exceeds_budget :
    (Run.run consume (Consumption.start 2 9)
      [.invoke (supervising 1) deciding none (some 1),
        .invoke (supervising 1) deciding none none]).sent = 3 ∧
    ¬ (Run.run consume (Consumption.start 2 9)
      [.invoke (supervising 1) deciding none (some 1),
        .invoke (supervising 1) deciding none none]).WithinBudget 2 9 ∧
    (Run.run consume (Consumption.start 4 9)
      [.invoke (supervising 1) deciding none (some 2), .invoke (supervising 1) deciding none none,
        .restart, .invoke (supervising 2) deciding none none]).sent = 5 := by
  refine ⟨by decide +kernel, fun h => ?_, by decide +kernel⟩
  have hsent := h.modelCalls
  revert hsent
  decide +kernel

end Sample

end EvoCI
