import EvoCI.ToolLoop

/-! The shape of what one invocation of the tool loop leaves behind: whole turns,
tool calls and notes, and at most one request or call that was not recorded to
its end. -/

namespace EvoCI

open Library

/-! ## Reading effects -/

/-- The events an invocation passes to the recorder. -/
def emittedEvents (effects : List LoopEffect) : List TrajectoryEvent :=
  effects.filterMap fun
    | .emits event => some event
    | _ => none

/-- The tool calls an invocation executes, with their answers. -/
def executedCalls (effects : List LoopEffect) : List (ToolCallRequest × ToolAnswer) :=
  effects.filterMap fun
    | .executes call answer => some (call, answer)
    | _ => none

/-- The requests an invocation sends to the gateway. -/
def sentRequests (effects : List LoopEffect) : Nat := effects.countP (· = .sends)

@[simp] theorem emittedEvents_append (first second : List LoopEffect) :
    emittedEvents (first ++ second) = emittedEvents first ++ emittedEvents second := by
  simp [emittedEvents]

@[simp] theorem executedCalls_append (first second : List LoopEffect) :
    executedCalls (first ++ second) = executedCalls first ++ executedCalls second := by
  simp [executedCalls]

@[simp] theorem sentRequests_append (first second : List LoopEffect) :
    sentRequests (first ++ second) = sentRequests first + sentRequests second := by
  simp [sentRequests]

/-! ## Chunks -/

/-- The effects of one tool call whose answer the loop handles. -/
def handledCall (inv : Invocation) (selectedSkills : List String) (call : ToolCallRequest)
    (answer : ToolAnswer) (result : CallResult) (iteration : Nat) (times : Nat × Nat × Nat) :
    List LoopEffect :=
  [.emits (inv.event (toolCallPayload call) call.callId times.1), .executes call answer,
    .emits (inv.event (toolResultPayload call result iteration) call.callId times.2.1)] ++
  (skillPayload? selectedSkills call result).toList.map fun noted =>
    .emits (inv.event noted.1 noted.2 times.2.2)

inductive Chunk (inv : Invocation) : List LoopEffect → Prop where
  /-- A request with its event. -/
  | request (key : String) (time : Nat) :
      Chunk inv [.sends, .emits (inv.event .modelCall key time)]
  /-- The event of a final request that the budget refused. -/
  | refused (time : Nat) : Chunk inv [.emits (inv.event .modelCall finalKey time)]
  | call (selectedSkills : List String) (call : ToolCallRequest) (answer : ToolAnswer)
      (result : CallResult) (iteration : Nat) (times : Nat × Nat × Nat)
      (handled : answer.result call.name = .ok result) :
      Chunk inv (handledCall inv selectedSkills call answer result iteration times)
  | overBudget (iteration time : Nat) :
      Chunk inv [.emits (inv.event (.attemptFailed toolBudgetReason iteration)
        s!"tool-budget:{iteration}" time)]

/-- The event of a skill that the report claims. -/
def procedureEvent (inv : Invocation) (skillId : String) (time : Nat) : TrajectoryEvent :=
  inv.event (.skillUsed ([skillId].filter (· ≠ "")) (some .procedure) none none)
    ("method-use:" ++ skillId) time

/-- How the effects end: what an exception leaves in the middle of a chunk, or
the notes on the report. -/
inductive Remnant (inv : Invocation) : List LoopEffect → Prop where
  | nothing : Remnant inv []
  /-- A request that is cancelled before its event. -/
  | unrecorded : Remnant inv [.sends]
  /-- A call whose exception leaves the loop before its result is recorded. -/
  | unfinished (call : ToolCallRequest) (answer : ToolAnswer) (e : PyError) (time : Nat)
      (raised : answer.result call.name = .error e) :
      Remnant inv [.emits (inv.event (toolCallPayload call) call.callId time),
        .executes call answer]
  | procedures (noted : List (String × Nat)) :
      Remnant inv (noted.map fun skill => .emits (procedureEvent inv skill.1 skill.2))

/-- Whole chunks. -/
inductive Chunks (inv : Invocation) : List LoopEffect → Prop where
  | nil : Chunks inv []
  | append {effects chunk : List LoopEffect} (before : Chunks inv effects)
      (last : Chunk inv chunk) : Chunks inv (effects ++ chunk)

/-- The effects of an invocation: whole chunks and a remnant. -/
def Traced (inv : Invocation) (effects : List LoopEffect) : Prop :=
  ∃ before remnant, Chunks inv before ∧ Remnant inv remnant ∧ effects = before ++ remnant

theorem Chunks.traced {inv : Invocation} {effects : List LoopEffect} (h : Chunks inv effects) :
    Traced inv effects :=
  ⟨effects, [], h, .nothing, (List.append_nil effects).symm⟩

section

variable {inv : Invocation} {env : LoopEnv}

@[simp] theorem effects_emit (st : LoopState) (payload : TrajectoryPayload) (key : String) :
    (st.emit inv env payload key).effects =
      st.effects ++ [.emits (inv.event payload key (env.clock st.effects.length))] := rfl

@[simp] theorem effects_perform (st : LoopState) (effect : LoopEffect) :
    (st.perform effect).effects = st.effects ++ [effect] := rfl

/-- The effects of `finishCall` after the execution of a call complete its chunk. -/
theorem finishCall_effects (st : LoopState) (iteration : Nat) (call : ToolCallRequest)
    (answer : ToolAnswer) (result : CallResult) (time : Nat) {before : List LoopEffect}
    (h : st.effects = before ++
      [.emits (inv.event (toolCallPayload call) call.callId time), .executes call answer]) :
    ∃ times, (finishCall inv env iteration call result st).effects =
      before ++ handledCall inv st.selectedSkills call answer result iteration times := by
  unfold finishCall
  cases hskill : skillPayload? st.selectedSkills call result with
  | none =>
    refine ⟨⟨time, env.clock st.effects.length, 0⟩, ?_⟩
    simp [handledCall, hskill, h]
  | some noted =>
    obtain ⟨payload, key⟩ := noted
    refine ⟨⟨time, env.clock st.effects.length, env.clock (st.effects.length + 1)⟩, ?_⟩
    have heffects : ((st.emit inv env (toolResultPayload call result iteration) call.callId).emit
        inv env payload key).effects = before ++ handledCall inv st.selectedSkills call answer
          result iteration
          ⟨time, env.clock st.effects.length, env.clock (st.effects.length + 1)⟩ := by
      simp only [effects_emit, List.length_append, List.length_singleton, handledCall, hskill,
        Option.toList_some, List.map_cons, List.map_nil]
      nth_rewrite 1 [h]
      simp [List.append_assoc]
    simp only
    split <;> exact heffects

theorem runCalls_traced (maxTools iteration : Nat) (calls : List ToolCallRequest) (st : LoopState)
    (h : Chunks inv st.effects) :
    let ended := runCalls inv env maxTools iteration calls st
    Traced inv ended.1.effects ∧
      ((∀ e, ended.2 ≠ .raised e) → Chunks inv ended.1.effects) := by
  induction calls generalizing st with
  | nil => exact ⟨h.traced, fun _ => h⟩
  | cons call rest ih =>
    simp only [runCalls]
    split
    · exact ⟨(h.append (.overBudget iteration _)).traced, fun _ => h.append (.overBudget _ _)⟩
    · split
      next budgets e hspend => exact ⟨h.traced, fun hnot => absurd rfl (hnot e)⟩
      next budgets hspend =>
        split
        next e hraised =>
          refine ⟨⟨st.effects, _, h,
            .unfinished call _ e (env.clock st.effects.length) hraised, ?_⟩,
            fun hnot => absurd rfl (hnot e)⟩
          simp
        next result hresult =>
          refine ih _ ?_
          obtain ⟨times, htimes⟩ := @finishCall_effects inv env
            (LoopState.perform (LoopState.emit inv env
              { st with toolCount := st.toolCount + 1, budgets } (toolCallPayload call)
              call.callId) (.executes call (env.invoke (st.toolCount + 1)))) iteration call
            (env.invoke (st.toolCount + 1)) result (env.clock st.effects.length) st.effects
            (by simp)
          rw [htimes]
          exact h.append (.call _ call _ result iteration times hresult)

theorem runTurns_traced (maxTools remaining iteration : Nat) (st : LoopState)
    (h : Chunks inv st.effects) :
    let ended := runTurns inv env maxTools remaining iteration st
    Traced inv ended.1.effects ∧
      ((∀ e, ended.2 ≠ .raised e) → Chunks inv ended.1.effects) := by
  induction remaining generalizing iteration st with
  | zero => exact ⟨h.traced, fun _ => h⟩
  | succ remaining ih =>
    simp only [runTurns]
    split
    next budgets e hspend => exact ⟨h.traced, fun hnot => absurd rfl (hnot e)⟩
    next budgets hspend =>
      have hrequest : ∀ time, Chunks inv (st.effects ++
          [.sends, .emits (inv.event .modelCall (turnKey iteration) time)]) :=
        fun time => h.append (.request _ time)
      split
      · exact ⟨⟨st.effects, _, h, .unrecorded, rfl⟩, fun hnot => absurd rfl (hnot _)⟩
      next e hanswer =>
        refine ⟨Chunks.traced ?_, fun hnot => absurd rfl (hnot e)⟩
        simpa using hrequest (env.clock (st.effects.length + 1))
      next toolCalls hanswer =>
        have hanswered : Chunks inv
            (((LoopState.perform { st with budgets } .sends).emit inv env .modelCall
              (turnKey iteration)).effects) := by
          simpa using hrequest (env.clock (st.effects.length + 1))
        split
        · exact ⟨hanswered.traced, fun _ => hanswered⟩
        · have hcalls := @runCalls_traced inv env maxTools iteration toolCalls _ hanswered
          split
          next st' hnext =>
            rw [hnext] at hcalls
            exact ih (iteration + 1) st' (hcalls.2 (by simp))
          next ended hended => exact hcalls

theorem recordProcedures_effects (skillIds : List String) (st : LoopState) :
    ∃ noted : List (String × Nat), (recordProcedures inv env skillIds st).effects =
      st.effects ++ noted.map fun skill => .emits (procedureEvent inv skill.1 skill.2) := by
  induction skillIds generalizing st with
  | nil => exact ⟨[], (List.append_nil _).symm⟩
  | cons skillId rest ih =>
    obtain ⟨noted, hnoted⟩ := ih (st.emit inv env
      (.skillUsed ([skillId].filter (· ≠ "")) (some .procedure) none none)
      ("method-use:" ++ skillId))
    refine ⟨(skillId, env.clock st.effects.length) :: noted, ?_⟩
    rw [recordProcedures, hnoted, effects_emit, List.append_assoc]
    rfl

theorem finalizeLoop_traced (st : LoopState) (h : Chunks inv st.effects) :
    Traced inv (finalizeLoop inv env st).1.effects := by
  unfold finalizeLoop
  split
  · exact (h.append (.refused _)).traced
  · have hrequest : ∀ time, Chunks inv (st.effects ++
        [.sends, .emits (inv.event .modelCall finalKey time)]) :=
      fun time => h.append (.request _ time)
    split
    · exact ⟨st.effects, _, h, .unrecorded, rfl⟩
    · refine Chunks.traced ?_
      simpa using hrequest (env.clock (st.effects.length + 1))
    · split
      · refine Chunks.traced ?_
        simpa using hrequest (env.clock (st.effects.length + 1))
      · obtain ⟨noted, hnoted⟩ := @recordProcedures_effects inv env _ _
        refine ⟨_, _, ?_, .procedures noted, hnoted⟩
        simpa using hrequest (env.clock (st.effects.length + 1))

/-- An invocation leaves whole chunks and a remnant. -/
theorem runLoop_traced (inv : Invocation) (env : LoopEnv) (budgets : LoopBudgets) :
    Traced inv (runLoop inv env budgets).1.effects := by
  unfold runLoop
  split
  · exact Chunks.nil.traced
  · split
    · exact Chunks.nil.traced
    next actions maxTools hlimits =>
      have hturns := @runTurns_traced inv env maxTools actions 1 { budgets } Chunks.nil
      split
      next st e hended =>
        rw [hended] at hturns
        exact hturns.1
      next st hended =>
        rw [hended] at hturns
        exact finalizeLoop_traced st (hturns.2 (by simp))
      next st hended =>
        rw [hended] at hturns
        exact finalizeLoop_traced st (hturns.2 (by simp))

end

/-! ## Event ids -/

section Ids

variable {inv : Invocation} {env : LoopEnv}

/-- The payload is of a type that the loop emits. -/
def TrajectoryPayload.fromLoop : TrajectoryPayload → Bool
  | .patchCreated _ | .other _ => false
  | _ => true

def OwnEvent (inv : Invocation) (event : TrajectoryEvent) : Prop :=
  ∃ payload key time, event = inv.event payload key time ∧ payload.fromLoop = true

/-- The value of an event type of the loop holds no separator. -/
theorem type_plain {payload : TrajectoryPayload} (h : payload.fromLoop = true) :
    ':' ∉ payload.type.toList := by
  cases payload with
  | other type => cases h
  | _ => simp [TrajectoryPayload.type]

theorem skillPayload?_own {selectedSkills : List String} {call : ToolCallRequest}
    {result : CallResult} {noted : TrajectoryPayload × String}
    (h : skillPayload? selectedSkills call result = some noted) : noted.1.fromLoop = true := by
  unfold skillPayload? at h
  split at h
  · split at h
    · cases h
      rfl
    · split at h
      · split at h
        · cases h
          rfl
        · cases h
      · cases h
  · split at h
    · split at h
      · cases h
        rfl
      · obtain ⟨skillId, -, rfl⟩ := Option.map_eq_some_iff.mp h
        rfl
    · cases h

theorem Chunk.own {chunk : List LoopEffect} (h : Chunk inv chunk) :
    ∀ event ∈ emittedEvents chunk, OwnEvent inv event := by
  intro event hevent
  cases h with
  | call selectedSkills call answer result iteration times handled =>
    simp only [handledCall, emittedEvents_append, List.mem_append] at hevent
    rcases hevent with hevent | hevent
    · simp only [emittedEvents, List.filterMap_cons, List.filterMap_nil, List.mem_cons,
        List.not_mem_nil, or_false] at hevent
      rcases hevent with rfl | rfl
      · exact ⟨_, _, _, rfl, rfl⟩
      · exact ⟨_, _, _, rfl, rfl⟩
    · cases hskill : skillPayload? selectedSkills call result with
      | none => simp [hskill, emittedEvents] at hevent
      | some noted =>
        simp only [hskill, emittedEvents, Option.toList_some, List.map_cons, List.map_nil,
          List.filterMap_cons, List.filterMap_nil, List.mem_singleton] at hevent
        exact ⟨_, _, _, hevent, skillPayload?_own hskill⟩
  | _ =>
    simp only [emittedEvents, List.filterMap_cons, List.filterMap_nil, List.mem_singleton] at hevent
    exact ⟨_, _, _, hevent, rfl⟩

theorem Chunks.own {effects : List LoopEffect} (h : Chunks inv effects) :
    ∀ event ∈ emittedEvents effects, OwnEvent inv event := by
  induction h with
  | nil => simp [emittedEvents]
  | append before last ih =>
    intro event hevent
    rw [emittedEvents_append, List.mem_append] at hevent
    exact hevent.elim (ih event) (last.own event)

theorem Traced.own {effects : List LoopEffect} (h : Traced inv effects) :
    ∀ event ∈ emittedEvents effects, OwnEvent inv event := by
  obtain ⟨before, remnant, hbefore, hremnant, rfl⟩ := h
  intro event hevent
  rw [emittedEvents_append, List.mem_append] at hevent
  refine hevent.elim (hbefore.own event) fun hevent => ?_
  cases hremnant with
  | nothing | unrecorded => simp [emittedEvents] at hevent
  | unfinished call answer e time raised =>
    simp only [emittedEvents, List.filterMap_cons, List.filterMap_nil, List.mem_singleton] at hevent
    exact ⟨_, _, _, hevent, rfl⟩
  | procedures noted =>
    simp only [emittedEvents, List.filterMap_map, List.mem_filterMap, Function.comp] at hevent
    obtain ⟨skill, -, hskill⟩ := hevent
    exact ⟨_, _, _, (Option.some.inj hskill).symm, rfl⟩

/-- Two events of an invocation share an id only if they share type and key. -/
theorem holds_event {payload payload' : TrajectoryPayload} {key key' : String} {time time' : Nat}
    (hplain : ':' ∉ payload.type.toList) (hplain' : ':' ∉ payload'.type.toList) :
    Journal.Holds TrajectoryEvent.eventId [inv.event payload key time]
        (inv.event payload' key' time') ↔
      key' ≠ "" ∧ payload.type = payload'.type ∧ key = key' := by
  rw [Journal.holds_singleton]
  constructor
  · rintro ⟨hsome, hsame⟩
    have hkey : key' ≠ "" := by
      rintro rfl
      simp [Invocation.event, emittedId] at hsome
    obtain ⟨htype, rfl⟩ := emittedId_injective hkey hplain' hplain hsame.symm
    exact ⟨hkey, htype.symm, rfl⟩
  · rintro ⟨hkey, htype, rfl⟩
    refine ⟨by simp [Invocation.event, emittedId, hkey], ?_⟩
    simp [Invocation.event, htype]

end Ids

/-! ## Keyed events -/

theorem forall_mem_iff_of_forall₂ {α β : Type} {R : α → β → Prop} {P : α → Prop} {Q : β → Prop}
    (hpq : ∀ a b, R a b → (P a ↔ Q b)) {as : List α} {bs : List β} (h : List.Forall₂ R as bs) :
    (∀ a ∈ as, P a) ↔ ∀ b ∈ bs, Q b := by
  induction h with
  | nil => simp
  | cons hab _ ih => rw [List.forall_mem_cons, List.forall_mem_cons, ih, hpq _ _ hab]

theorem exists_mem_of_forall₂ {α β : Type} {R : α → β → Prop} {as : List α} {bs : List β}
    (h : List.Forall₂ R as bs) {a : α} (ha : a ∈ as) : ∃ b ∈ bs, R a b := by
  induction h with
  | nil => cases ha
  | cons hab _ ih =>
    rcases List.mem_cons.mp ha with rfl | ha
    · exact ⟨_, List.mem_cons_self, hab⟩
    · obtain ⟨b, hb, hrel⟩ := ih ha
      exact ⟨b, List.mem_cons_of_mem _ hb, hrel⟩

theorem pairwise_iff_of_forall₂ {α β : Type} {R : α → β → Prop} {S : α → α → Prop}
    {T : β → β → Prop} (hst : ∀ a b a' b', R a b → R a' b' → (S a a' ↔ T b b')) {as : List α}
    {bs : List β} (h : List.Forall₂ R as bs) : as.Pairwise S ↔ bs.Pairwise T := by
  induction h with
  | nil => simp
  | cons hab htail ih =>
    rw [List.pairwise_cons, List.pairwise_cons, ih]
    exact and_congr_left' (forall_mem_iff_of_forall₂ (fun a b hab' => hst _ _ _ _ hab hab') htail)

section Keyed

variable {inv : Invocation} {p : TrajectoryEvent → Bool} {ξ : Type} {key : ξ → String}
  {payload : ξ → TrajectoryPayload → Prop} {events : List TrajectoryEvent} {xs : List ξ}

/-- The event is the invocation's, under the key of `x`, with a payload of `x`. -/
def Keyed (inv : Invocation) (key : ξ → String) (payload : ξ → TrajectoryPayload → Prop)
    (event : TrajectoryEvent) (x : ξ) : Prop :=
  ∃ found time, event = inv.event found (key x) time ∧ payload x found

theorem not_holds_event {log : List TrajectoryEvent} {found : TrajectoryPayload} {eventKey : String}
    {time : Nat} :
    ¬ Journal.Holds TrajectoryEvent.eventId log (inv.event found eventKey time) ↔
      (eventKey ≠ "" → ∀ old ∈ log,
        old.eventId ≠ emittedId inv.runId inv.agentId inv.invocationId found.type eventKey) := by
  have hsome : (inv.event found eventKey time).eventId.isSome ↔ eventKey ≠ "" := by
    by_cases hkey : eventKey = "" <;> simp [Invocation.event, emittedId, hkey]
  unfold Journal.Holds
  rw [hsome, not_and]
  refine imp_congr_right fun _ => ?_
  simp only [not_exists, not_and]
  exact Iff.rfl

/-- The events of one type are all recorded exactly when their keys are not in the
log under that type and differ. -/
theorem filter_added_iff_of_keyed (type : String)
    (h : List.Forall₂ (Keyed inv key payload) (events.filter p) xs)
    (hown : ∀ event ∈ events, OwnEvent inv event)
    (htype : ∀ x found, payload x found → found.type = type ∧ found.fromLoop = true)
    (htold : ∀ event ∈ events, event.payload.type = type → p event = true)
    (log : List TrajectoryEvent) :
    (Journal.added TrajectoryEvent.eventId log events).filter p = events.filter p ↔
      (∀ x ∈ xs, key x ≠ "" → ∀ old ∈ log,
        old.eventId ≠ emittedId inv.runId inv.agentId inv.invocationId type (key x)) ∧
        xs.Pairwise fun a b => key b ≠ "" → key a ≠ key b := by
  rw [Journal.filter_added_iff]
  refine and_congr ?_ ?_
  · have hpairs : ∀ event x, Keyed inv key payload event x →
        (¬ Journal.Holds TrajectoryEvent.eventId log event ↔
          (key x ≠ "" → ∀ old ∈ log,
            old.eventId ≠ emittedId inv.runId inv.agentId inv.invocationId type (key x))) := by
      rintro event x ⟨found, time, rfl, hfound⟩
      rw [not_holds_event, (htype x found hfound).1]
    rw [← forall_mem_iff_of_forall₂ hpairs h]
    simp [List.mem_filter]
  · have hpairs : events.Pairwise (fun a b =>
        p b → ¬ Journal.Holds TrajectoryEvent.eventId [a] b) ↔
          (events.filter p).Pairwise fun a b =>
            ¬ Journal.Holds TrajectoryEvent.eventId [a] b := by
      rw [List.pairwise_filter]
      constructor
      · exact List.Pairwise.imp fun hab _ hpb => hab hpb
      · intro hpairs
        refine hpairs.imp_of_mem fun {a b} ha hb hab hpb hholds => ?_
        -- an event of the same id is one of the same kind
        refine hab (htold a ha ?_) hpb hholds
        obtain ⟨payload₁, key₁, time₁, rfl, hloop₁⟩ := hown a ha
        obtain ⟨x, -, found, time, rfl, hfound⟩ :=
          exists_mem_of_forall₂ h (List.mem_filter.mpr ⟨hb, hpb⟩)
        obtain ⟨htypes, hloop⟩ := htype x found hfound
        obtain ⟨-, hsame, -⟩ :=
          (holds_event (type_plain hloop₁) (type_plain hloop)).mp hholds
        exact hsame.trans htypes
    rw [hpairs]
    refine pairwise_iff_of_forall₂ (fun a x a' x' hax hax' => ?_) h
    obtain ⟨found, time, rfl, hfound⟩ := hax
    obtain ⟨found', time', rfl, hfound'⟩ := hax'
    obtain ⟨htypes, hloop⟩ := htype x found hfound
    obtain ⟨htypes', hloop'⟩ := htype x' found' hfound'
    rw [holds_event (type_plain hloop) (type_plain hloop')]
    simp [htypes, htypes']

end Keyed

end EvoCI
