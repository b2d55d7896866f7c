import EvoCI.LoopTrace

/-! Which of the tool calls that an invocation executes are in the recorded
trajectory: all of them exactly when the provider's call ids are distinct and new. -/

namespace EvoCI

open Library

/-! ## Calls and their events -/

/-- What the loop makes of the answer to an executed call. -/
def callResult? (c : ToolCallRequest × ToolAnswer) : Option CallResult :=
  (c.2.result c.1.name).toOption

/-- The call failed, and the loop handled it. -/
def callFailed (c : ToolCallRequest × ToolAnswer) : Bool :=
  (callResult? c).any fun result => !result.success

/-- The payload with which a call notes the use of a skill's script. -/
def scriptUse? (c : ToolCallRequest × ToolAnswer) : Option TrajectoryPayload :=
  match callResult? c with
  | some result =>
    if c.1.name = "run_skill_script" ∧ result.rejected = false ∧ result.returned then
      c.1.arguments.scriptSkill.map fun skillId =>
        .skillUsed ([skillId].filter (· ≠ "")) (some .script) c.1.arguments.scriptName
          (some result.success)
    else none
  | none => none

def TrajectoryPayload.usesScript : TrajectoryPayload → Bool
  | .skillUsed _ (some .script) _ _ => true
  | _ => false

/-- The trace of a script use in the view. -/
def scriptTraces (inv : Invocation) (c : ToolCallRequest × ToolAnswer) : List SkillUseTrace :=
  (scriptUse? c).elim [] fun payload => (inv.event payload c.1.callId 0).skillUseTraces

/-- The event is the invocation's, under the call's id, with that payload. -/
def RecordsCall (inv : Invocation)
    (payload : ToolCallRequest × ToolAnswer → TrajectoryPayload → Prop)
    (event : TrajectoryEvent) (c : ToolCallRequest × ToolAnswer) : Prop :=
  ∃ found time, event = inv.event found c.1.callId time ∧ payload c found

def IsCallPayload (c : ToolCallRequest × ToolAnswer) (payload : TrajectoryPayload) : Prop :=
  payload = toolCallPayload c.1

def IsResultPayload (c : ToolCallRequest × ToolAnswer) (payload : TrajectoryPayload) : Prop :=
  ∃ result iteration, callResult? c = some result ∧
    payload = toolResultPayload c.1 result iteration

def IsScriptPayload (c : ToolCallRequest × ToolAnswer) (payload : TrajectoryPayload) : Prop :=
  scriptUse? c = some payload

section Paired

/-- The events of one kind answer one by one to the calls of one kind. -/
def Paired (inv : Invocation) (p : TrajectoryEvent → Bool)
    (q : ToolCallRequest × ToolAnswer → Bool)
    (payload : ToolCallRequest × ToolAnswer → TrajectoryPayload → Prop)
    (effects : List LoopEffect) : Prop :=
  List.Forall₂ (RecordsCall inv payload) ((emittedEvents effects).filter p)
    ((executedCalls effects).filter q)

variable {inv : Invocation} {p : TrajectoryEvent → Bool} {q : ToolCallRequest × ToolAnswer → Bool}
  {payload : ToolCallRequest × ToolAnswer → TrajectoryPayload → Prop} {effects : List LoopEffect}

theorem Paired.append {first second : List LoopEffect} (h : Paired inv p q payload first)
    (h' : Paired inv p q payload second) : Paired inv p q payload (first ++ second) := by
  unfold Paired
  rw [emittedEvents_append, executedCalls_append, List.filter_append, List.filter_append]
  exact List.rel_append h h'

theorem Chunks.paired (hchunk : ∀ chunk, Chunk inv chunk → Paired inv p q payload chunk)
    (h : Chunks inv effects) : Paired inv p q payload effects := by
  induction h with
  | nil => exact List.Forall₂.nil
  | append before last ih => exact ih.append (hchunk _ last)

@[simp] theorem emittedEvents_procedures (noted : List (String × Nat)) :
    emittedEvents (noted.map fun skill => .emits (procedureEvent inv skill.1 skill.2)) =
      noted.map fun skill => procedureEvent inv skill.1 skill.2 := by
  induction noted with
  | nil => rfl
  | cons skill noted ih => simp [emittedEvents]

@[simp] theorem executedCalls_procedures (noted : List (String × Nat)) :
    executedCalls (noted.map fun skill => .emits (procedureEvent inv skill.1 skill.2)) = [] := by
  simp [executedCalls, List.filterMap_map]

/-- Kinds of events that notes do not have. -/
theorem Remnant.paired (h : Remnant inv effects)
    (hcall : ∀ call answer e time, answer.result call.name = .error e →
      Paired inv p q payload [.emits (inv.event (toolCallPayload call) call.callId time),
        .executes call answer])
    (hnote : ∀ skillId time, p (procedureEvent inv skillId time) = false) :
    Paired inv p q payload effects := by
  cases h with
  | nothing | unrecorded => exact List.Forall₂.nil
  | unfinished call answer e time raised => exact hcall call answer e time raised
  | procedures noted =>
    unfold Paired
    rw [emittedEvents_procedures, executedCalls_procedures, List.filter_nil]
    rw [List.filter_eq_nil_iff.mpr]
    · exact List.Forall₂.nil
    · intro event hevent
      obtain ⟨skill, -, rfl⟩ := List.mem_map.mp hevent
      simp [hnote]

theorem Traced.paired (hchunk : ∀ chunk, Chunk inv chunk → Paired inv p q payload chunk)
    (hcall : ∀ call answer e time, answer.result call.name = .error e →
      Paired inv p q payload [.emits (inv.event (toolCallPayload call) call.callId time),
        .executes call answer])
    (hnote : ∀ skillId time, p (procedureEvent inv skillId time) = false)
    (h : Traced inv effects) : Paired inv p q payload effects := by
  obtain ⟨before, remnant, hbefore, hremnant, rfl⟩ := h
  exact (hbefore.paired hchunk).append (hremnant.paired hcall hnote)

end Paired

/-! ## The three kinds -/

section Kinds

variable {inv : Invocation} {effects : List LoopEffect}

/-- The note behind a call reports a script use if the call is one. -/
theorem skillPayload?_script {selectedSkills : List String} {call : ToolCallRequest}
    {answer : ToolAnswer} {result : CallResult} (h : answer.result call.name = .ok result) :
    (skillPayload? selectedSkills call result).filter (fun noted => noted.1.usesScript) =
      (scriptUse? (call, answer)).map fun payload => (payload, call.callId) := by
  have hresult : callResult? (call, answer) = some result := by
    simp [callResult?, h, Except.toOption]
  by_cases hload : call.name = "load_skill"
  · have hnone : scriptUse? (call, answer) = none := by simp [scriptUse?, hresult, hload]
    rw [hnone]
    unfold skillPayload?
    rw [if_pos hload]
    split
    · rfl
    · split
      · split <;> rfl
      · rfl
  · by_cases hscript : call.name = "run_skill_script"
    · unfold skillPayload? scriptUse?
      rw [if_neg hload, if_pos hscript, hresult]
      cases hrejected : result.rejected <;> cases hreturned : result.returned <;>
        cases call.arguments.scriptSkill <;>
        simp [TrajectoryPayload.usesScript, hscript, hrejected, hreturned]
    · simp [skillPayload?, scriptUse?, hload, hscript, hresult]

theorem skillPayload?_note {selectedSkills : List String} {call : ToolCallRequest}
    {result : CallResult} {noted : TrajectoryPayload × String}
    (h : skillPayload? selectedSkills call result = some noted) :
    noted.1.isToolCall = false ∧ noted.1.isToolResult = false := by
  unfold skillPayload? at h
  split at h
  · split at h
    · cases h
      exact ⟨rfl, rfl⟩
    · split at h
      · split at h
        · cases h
          exact ⟨rfl, rfl⟩
        · cases h
      · cases h
  · split at h
    · split at h
      · cases h
        exact ⟨rfl, rfl⟩
      · obtain ⟨skillId, -, rfl⟩ := Option.map_eq_some_iff.mp h
        exact ⟨rfl, rfl⟩
    · cases h

/-- The events of a handled call. -/
theorem emittedEvents_handledCall (selectedSkills : List String) (call : ToolCallRequest)
    (answer : ToolAnswer) (result : CallResult) (iteration : Nat) (times : Nat × Nat × Nat) :
    emittedEvents (handledCall inv selectedSkills call answer result iteration times) =
      [inv.event (toolCallPayload call) call.callId times.1,
        inv.event (toolResultPayload call result iteration) call.callId times.2.1] ++
      (skillPayload? selectedSkills call result).toList.map fun noted =>
        inv.event noted.1 noted.2 times.2.2 := by
  unfold handledCall
  rw [emittedEvents_append]
  cases skillPayload? selectedSkills call result <;> rfl

theorem executedCalls_handledCall (selectedSkills : List String) (call : ToolCallRequest)
    (answer : ToolAnswer) (result : CallResult) (iteration : Nat) (times : Nat × Nat × Nat) :
    executedCalls (handledCall inv selectedSkills call answer result iteration times) =
      [(call, answer)] := by
  unfold handledCall
  rw [executedCalls_append]
  cases skillPayload? selectedSkills call result <;> rfl

theorem filter_noted {p : TrajectoryPayload → Bool} (noted : Option (TrajectoryPayload × String))
    (time : Nat) :
    (noted.toList.map fun noted => inv.event noted.1 noted.2 time).filter (fun e => p e.payload) =
      (noted.filter fun noted => p noted.1).toList.map fun noted =>
        inv.event noted.1 noted.2 time := by
  cases noted with
  | none => rfl
  | some noted => by_cases h : p noted.1 = true <;> simp [Invocation.event, Option.filter, h]

theorem Traced.toolCalls (h : Traced inv effects) :
    Paired inv (·.payload.isToolCall) (fun _ => true) IsCallPayload effects := by
  refine h.paired ?_ ?_ (fun _ _ => rfl)
  · intro chunk hchunk
    cases hchunk with
    | call selectedSkills call answer result iteration times handled =>
      have hnote : (skillPayload? selectedSkills call result).filter
          (fun noted => noted.1.isToolCall) = none := by
        cases hskill : skillPayload? selectedSkills call result with
        | none => rfl
        | some noted => simp [Option.filter, (skillPayload?_note hskill).1]
      unfold Paired
      rw [emittedEvents_handledCall, executedCalls_handledCall, List.filter_append,
        filter_noted (p := TrajectoryPayload.isToolCall), hnote]
      exact .cons ⟨_, _, rfl, rfl⟩ .nil
    | _ => exact List.Forall₂.nil
  · intro call answer e time _
    exact .cons ⟨_, _, rfl, rfl⟩ .nil

theorem Traced.toolResults (h : Traced inv effects) :
    Paired inv (·.payload.isToolResult) (fun c => (callResult? c).isSome) IsResultPayload
      effects := by
  refine h.paired ?_ ?_ (fun _ _ => rfl)
  · intro chunk hchunk
    cases hchunk with
    | call selectedSkills call answer result iteration times handled =>
      have hresult : callResult? (call, answer) = some result := by
        simp [callResult?, handled, Except.toOption]
      have hnote : (skillPayload? selectedSkills call result).filter
          (fun noted => noted.1.isToolResult) = none := by
        cases hskill : skillPayload? selectedSkills call result with
        | none => rfl
        | some noted => simp [Option.filter, (skillPayload?_note hskill).2]
      have hhandled : [(call, answer)].filter (fun c => (callResult? c).isSome) =
          [(call, answer)] := by simp [hresult]
      unfold Paired
      rw [emittedEvents_handledCall, executedCalls_handledCall, List.filter_append,
        filter_noted (p := TrajectoryPayload.isToolResult), hnote, hhandled]
      exact .cons ⟨_, _, rfl, result, iteration, hresult, rfl⟩ .nil
    | _ => exact List.Forall₂.nil
  · intro call answer e time raised
    unfold Paired
    have hnone : callResult? (call, answer) = none := by simp [callResult?, raised, Except.toOption]
    simp only [executedCalls, List.filterMap_cons, List.filterMap_nil, List.filter_cons, hnone]
    exact .nil

theorem Traced.scripts (h : Traced inv effects) :
    Paired inv (·.payload.usesScript) (fun c => (scriptUse? c).isSome) IsScriptPayload
      effects := by
  refine h.paired ?_ ?_ (fun _ _ => rfl)
  · intro chunk hchunk
    cases hchunk with
    | call selectedSkills call answer result iteration times handled =>
      unfold Paired
      rw [emittedEvents_handledCall, executedCalls_handledCall, List.filter_append,
        filter_noted (p := TrajectoryPayload.usesScript), skillPayload?_script handled]
      cases huse : scriptUse? (call, answer) with
      | none =>
        rw [show [(call, answer)].filter (fun c => (scriptUse? c).isSome) = [] by simp [huse]]
        exact .nil
      | some payload =>
        rw [show [(call, answer)].filter (fun c => (scriptUse? c).isSome) = [(call, answer)] by
          simp [huse]]
        exact .cons ⟨_, _, rfl, huse⟩ .nil
    | _ => exact List.Forall₂.nil
  · intro call answer e time raised
    unfold Paired
    have hnone : scriptUse? (call, answer) = none := by
      simp [scriptUse?, callResult?, raised, Except.toOption]
    simp only [executedCalls, List.filterMap_cons, List.filterMap_nil, List.filter_cons, hnone]
    exact .nil

end Kinds

/-! ## Fresh ids -/

section Fresh

variable {inv : Invocation} {p : TrajectoryEvent → Bool} {q : ToolCallRequest × ToolAnswer → Bool}
  {payload : ToolCallRequest × ToolAnswer → TrajectoryPayload → Prop} {effects : List LoopEffect}

/-- No event of the log has the id of the call's event of that type. -/
def Unrecorded (inv : Invocation) (log : List TrajectoryEvent) (type : String)
    (c : ToolCallRequest × ToolAnswer) : Prop :=
  c.1.callId ≠ "" →
    ∀ old ∈ log, old.eventId ≠ emittedId inv.runId inv.agentId inv.invocationId type c.1.callId

/-- The events of one kind are all recorded exactly when the ids of their calls
are not in the log and differ. -/
theorem Paired.filter_added_iff (type : String) (h : Paired inv p q payload effects)
    (hown : ∀ event ∈ emittedEvents effects, OwnEvent inv event)
    (htype : ∀ c found, payload c found → found.type = type ∧ found.fromLoop = true)
    (htold : ∀ event ∈ emittedEvents effects, event.payload.type = type → p event = true)
    (log : List TrajectoryEvent) :
    (Journal.added TrajectoryEvent.eventId log (emittedEvents effects)).filter p =
        (emittedEvents effects).filter p ↔
      (∀ c ∈ (executedCalls effects).filter q, Unrecorded inv log type c) ∧
        ((executedCalls effects).filter q).Pairwise fun a b =>
          b.1.callId ≠ "" → a.1.callId ≠ b.1.callId :=
  filter_added_iff_of_keyed type h hown htype htold log

end Fresh

/-! ## Accounting for every call -/

def SkillUseTrace.isScript (trace : SkillUseTrace) : Bool := trace.usageKind = some .script

/-- The key under which the view keeps a call of the invocation. -/
def callKey (inv : Invocation) (c : ToolCallRequest × ToolAnswer) : String :=
  traceKey (textOr inv.agentId "harness") inv.invocationId c.1.callId

/-- The events that recording the effects adds to the log. -/
def addedEvents (log : List TrajectoryEvent) (effects : List LoopEffect) : List TrajectoryEvent :=
  Journal.added TrajectoryEvent.eventId log (emittedEvents effects)

/-- The log behind the effects. -/
def recordEffects (log : List TrajectoryEvent) (effects : List LoopEffect) :
    List TrajectoryEvent :=
  (emittedEvents effects).foldl recordEvent log

theorem recordEffects_eq (log : List TrajectoryEvent) (effects : List LoopEffect) :
    recordEffects log effects = log ++ addedEvents log effects :=
  Journal.recordAll_eq log (emittedEvents effects)

/-- Each executed call has one call event and one result event in the run, each
script use one use event, and the projected view counts them all. -/
structure AccountsForCalls (inv : Invocation) (log : List TrajectoryEvent)
    (effects : List LoopEffect) : Prop where
  calls : List.Forall₂ (RecordsCall inv IsCallPayload)
    ((addedEvents log effects).filter (·.payload.isToolCall)) (executedCalls effects)
  results : List.Forall₂ (RecordsCall inv IsResultPayload)
    ((addedEvents log effects).filter (·.payload.isToolResult)) (executedCalls effects)
  scripts : List.Forall₂ (RecordsCall inv IsScriptPayload)
    ((addedEvents log effects).filter (·.payload.usesScript))
    ((executedCalls effects).filter fun c => (scriptUse? c).isSome)
  toolCallCount : (buildView (recordEffects log effects)).toolCallCount =
    (buildView log).toolCallCount + (executedCalls effects).length
  failedToolCalls :
    ((buildView (recordEffects log effects)).agent (textOr inv.agentId "harness")).failedToolCalls =
      ((buildView log).agent (textOr inv.agentId "harness")).failedToolCalls +
        (executedCalls effects).countP callFailed
  createdFiles : ∀ path, path ∈ (buildView (recordEffects log effects)).createdFiles ↔
    path ∈ (buildView log).createdFiles ∨ ∃ c ∈ executedCalls effects,
      ∃ result, callResult? c = some result ∧ path ∈ result.createdFiles
  modifiedFiles : ∀ path, path ∈ (buildView (recordEffects log effects)).modifiedFiles ↔
    path ∈ (buildView log).modifiedFiles ∨ ∃ c ∈ executedCalls effects,
      ∃ result, callResult? c = some result ∧ path ∈ result.modifiedFiles
  scriptTraces : ((buildView (recordEffects log effects)).skillUseTraces.filter
      SkillUseTrace.isScript).Perm
    ((buildView log).skillUseTraces.filter SkillUseTrace.isScript ++
      (executedCalls effects).flatMap (scriptTraces inv))

/-- The executed calls have different ids that the log does not know, and no
exception of a tool leaves the loop. -/
structure DistinctCalls (inv : Invocation) (log : List TrajectoryEvent)
    (effects : List LoopEffect) : Prop where
  handled : ∀ c ∈ executedCalls effects, (callResult? c).isSome
  distinct : ((executedCalls effects).map fun c => c.1.callId).Nodup
  unrecorded : ∀ c ∈ executedCalls effects, Unrecorded inv log "ToolCall" c ∧
    Unrecorded inv log "ToolResult" c ∧
      ((scriptUse? c).isSome → Unrecorded inv log "SkillUsed" c)
  unseen : ∀ c ∈ executedCalls effects, ∀ event ∈ log, event.traceKey? ≠ some (callKey inv c)

section Accounts

variable {inv : Invocation} {effects : List LoopEffect}

theorem scriptUse?_type {c : ToolCallRequest × ToolAnswer} {payload : TrajectoryPayload}
    (h : scriptUse? c = some payload) :
    payload.type = "SkillUsed" ∧ payload.fromLoop = true := by
  unfold scriptUse? at h
  split at h
  · split at h
    · obtain ⟨skillId, -, rfl⟩ := Option.map_eq_some_iff.mp h
      exact ⟨rfl, rfl⟩
    · cases h
  · cases h

theorem OwnEvent.isToolCall {event : TrajectoryEvent} (h : OwnEvent inv event)
    (htype : event.payload.type = "ToolCall") : event.payload.isToolCall = true := by
  obtain ⟨payload, key, time, rfl, hother⟩ := h
  have htype : payload.type = "ToolCall" := htype
  show payload.isToolCall = true
  cases payload with
  | toolCall => rfl
  | other type => cases hother
  | _ => simp [TrajectoryPayload.type] at htype

theorem OwnEvent.isToolResult {event : TrajectoryEvent} (h : OwnEvent inv event)
    (htype : event.payload.type = "ToolResult") : event.payload.isToolResult = true := by
  obtain ⟨payload, key, time, rfl, hother⟩ := h
  have htype : payload.type = "ToolResult" := htype
  show payload.isToolResult = true
  cases payload with
  | toolResult => rfl
  | other type => cases hother
  | _ => simp [TrajectoryPayload.type] at htype

theorem Traced.calls_added_iff (h : Traced inv effects) (log : List TrajectoryEvent) :
    (addedEvents log effects).filter (·.payload.isToolCall) =
        (emittedEvents effects).filter (·.payload.isToolCall) ↔
      (∀ c ∈ executedCalls effects, Unrecorded inv log "ToolCall" c) ∧
        (executedCalls effects).Pairwise fun a b => b.1.callId ≠ "" → a.1.callId ≠ b.1.callId := by
  have hiff := h.toolCalls.filter_added_iff "ToolCall" h.own
    (fun c found hfound => by rw [hfound]; exact ⟨rfl, rfl⟩)
    (fun event hevent => (h.own event hevent).isToolCall) log
  rwa [List.filter_true] at hiff

theorem Traced.results_added_iff (h : Traced inv effects) (log : List TrajectoryEvent) :
    (addedEvents log effects).filter (·.payload.isToolResult) =
        (emittedEvents effects).filter (·.payload.isToolResult) ↔
      (∀ c ∈ (executedCalls effects).filter (fun c => (callResult? c).isSome),
        Unrecorded inv log "ToolResult" c) ∧
        ((executedCalls effects).filter fun c => (callResult? c).isSome).Pairwise
          fun a b => b.1.callId ≠ "" → a.1.callId ≠ b.1.callId :=
  h.toolResults.filter_added_iff "ToolResult" h.own
    (fun c found ⟨result, iteration, _, hfound⟩ => by
      rw [hfound]
      exact ⟨rfl, rfl⟩)
    (fun event hevent => (h.own event hevent).isToolResult) log

theorem Chunks.usesScript (h : Chunks inv effects) :
    ∀ event ∈ emittedEvents effects, event.payload.type = "SkillUsed" →
      event.payload.usesScript = true := by
  induction h with
  | nil => simp [emittedEvents]
  | append before last ih =>
    intro event hevent htype
    rw [emittedEvents_append, List.mem_append] at hevent
    rcases hevent with hevent | hevent
    · exact ih event hevent htype
    · cases last with
      | call selectedSkills call answer result iteration times handled =>
        rw [emittedEvents_handledCall, List.mem_append] at hevent
        rcases hevent with hevent | hevent
        · simp only [List.mem_cons, List.not_mem_nil, or_false] at hevent
          rcases hevent with rfl | rfl <;>
            simp [Invocation.event, toolCallPayload, toolResultPayload,
              TrajectoryPayload.type] at htype
        · cases hskill : skillPayload? selectedSkills call result with
          | none => simp [hskill] at hevent
          | some noted =>
            rw [hskill, Option.toList_some, List.map_singleton, List.mem_singleton] at hevent
            subst hevent
            have htype : noted.1.type = "SkillUsed" := htype
            show noted.1.usesScript = true
            unfold skillPayload? at hskill
            repeat' split at hskill
            all_goals first
              | cases hskill
              | skip
            all_goals first
              | (obtain ⟨skillId, -, rfl⟩ := Option.map_eq_some_iff.mp hskill
                 rfl)
              | simp [TrajectoryPayload.type] at htype
      | _ =>
        simp only [emittedEvents, List.filterMap_cons, List.filterMap_nil,
          List.mem_singleton] at hevent
        subst hevent
        simp [Invocation.event, TrajectoryPayload.type] at htype

/-- The notes on the report are no script uses. -/
theorem Remnant.usesNoScript (h : Remnant inv effects) :
    (emittedEvents effects).filter (·.payload.usesScript) = [] ∧
      (executedCalls effects).filter (fun c => (scriptUse? c).isSome) = [] := by
  cases h with
  | nothing | unrecorded => exact ⟨rfl, rfl⟩
  | unfinished call answer e time raised =>
    have hnone : scriptUse? (call, answer) = none := by
      simp [scriptUse?, callResult?, raised, Except.toOption]
    refine ⟨rfl, ?_⟩
    simp [executedCalls, hnone]
  | procedures noted =>
    rw [emittedEvents_procedures, executedCalls_procedures]
    refine ⟨List.filter_eq_nil_iff.mpr fun event hevent => ?_, rfl⟩
    obtain ⟨skill, -, rfl⟩ := List.mem_map.mp hevent
    simp [procedureEvent, Invocation.event, TrajectoryPayload.usesScript]

theorem Traced.scripts_added_iff (h : Traced inv effects) (log : List TrajectoryEvent) :
    (addedEvents log effects).filter (·.payload.usesScript) =
        (emittedEvents effects).filter (·.payload.usesScript) ↔
      (∀ c ∈ (executedCalls effects).filter (fun c => (scriptUse? c).isSome),
        Unrecorded inv log "SkillUsed" c) ∧
        ((executedCalls effects).filter fun c => (scriptUse? c).isSome).Pairwise
          fun a b => b.1.callId ≠ "" → a.1.callId ≠ b.1.callId := by
  obtain ⟨before, remnant, hbefore, hremnant, rfl⟩ := h
  obtain ⟨hevents, hcalls⟩ := hremnant.usesNoScript
  have hrest : ∀ log', (Journal.added TrajectoryEvent.eventId log'
      (emittedEvents remnant)).filter (·.payload.usesScript) = [] := by
    intro log'
    rw [← List.sublist_nil, ← hevents]
    exact (Journal.added_sublist _ _).filter _
  unfold addedEvents
  rw [emittedEvents_append, executedCalls_append, Journal.added_append, List.filter_append,
    List.filter_append, List.filter_append, hrest, hevents, hcalls, List.append_nil,
    List.append_nil, List.append_nil]
  exact (Chunks.traced hbefore).scripts.filter_added_iff "SkillUsed" hbefore.own
    (fun c found hfound => scriptUse?_type hfound) hbefore.usesScript log

/-! ## What the view makes of it -/

theorem card_union_toFinset_eq_iff {α : Type} [DecidableEq α] (old : Finset α) (new : List α) :
    (old ∪ new.toFinset).card = old.card + new.length ↔ new.Nodup ∧ ∀ x ∈ new, x ∉ old := by
  have hinter := Finset.card_union_add_card_inter old new.toFinset
  have hle := List.toFinset_card_le new
  constructor
  · intro h
    have hcard : new.toFinset.card = new.length := by omega
    have hempty : (old ∩ new.toFinset).card = 0 := by omega
    refine ⟨Multiset.coe_nodup.mp (Multiset.toFinset_card_eq_card_iff_nodup.mp hcard), ?_⟩
    intro x hx hold
    have hin : x ∈ old ∩ new.toFinset :=
      Finset.mem_inter.mpr ⟨hold, List.mem_toFinset.mpr hx⟩
    rw [Finset.card_eq_zero.mp hempty] at hin
    exact absurd hin (Finset.notMem_empty x)
  · rintro ⟨hnodup, hnew⟩
    have hempty : old ∩ new.toFinset = ∅ := by
      rw [Finset.eq_empty_iff_forall_notMem]
      intro x hx
      obtain ⟨hold, hin⟩ := Finset.mem_inter.mp hx
      exact hnew x (List.mem_toFinset.mp hin) hold
    rw [hempty, Finset.card_empty, List.toFinset_card_of_nodup hnodup] at hinter
    omega

theorem filterMap_traceKey? {log : List TrajectoryEvent}
    {calls : List (ToolCallRequest × ToolAnswer)}
    (h : List.Forall₂ (RecordsCall inv IsCallPayload) (log.filter (·.payload.isToolCall)) calls) :
    log.filterMap TrajectoryEvent.traceKey? = calls.map (callKey inv) := by
  have hfilter : log.filterMap TrajectoryEvent.traceKey? =
      (log.filter (·.payload.isToolCall)).filterMap TrajectoryEvent.traceKey? := by
    rw [List.filterMap_filter]
    congr 1
    funext event
    cases hpayload : event.payload <;>
      simp [TrajectoryEvent.traceKey?, hpayload, TrajectoryPayload.isToolCall]
  rw [hfilter]
  clear hfilter
  generalize log.filter (·.payload.isToolCall) = events at h ⊢
  induction h with
  | nil => rfl
  | cons hpair _ ih =>
    obtain ⟨found, time, rfl, rfl⟩ := hpair
    rw [List.map_cons, ← ih]
    rfl

/-- The count of tool calls in the view grows with each call exactly when their
trace keys are new and different. -/
theorem toolCallCount_iff {log : List TrajectoryEvent}
    (h : List.Forall₂ (RecordsCall inv IsCallPayload)
      ((addedEvents log effects).filter (·.payload.isToolCall)) (executedCalls effects)) :
    (buildView (recordEffects log effects)).toolCallCount =
        (buildView log).toolCallCount + (executedCalls effects).length ↔
      ((executedCalls effects).map fun c => c.1.callId).Nodup ∧
        ∀ c ∈ executedCalls effects, ∀ event ∈ log,
          event.traceKey? ≠ some (callKey inv c) := by
  rw [buildView_toolCallCount, buildView_toolCallCount, recordEffects_eq, List.filterMap_append,
    filterMap_traceKey? h, List.toFinset_append, ← List.length_map (callKey inv),
    card_union_toFinset_eq_iff]
  refine and_congr ?_ ?_
  · have hmap : (executedCalls effects).map (callKey inv) =
        ((executedCalls effects).map fun c => c.1.callId).map
          (traceKey (textOr inv.agentId "harness") inv.invocationId) := by
      rw [List.map_map]
      rfl
    rw [hmap]
    refine List.nodup_map_iff fun a b hab => ?_
    have htext := congrArg String.toList hab
    simp only [traceKey, String.toList_append, List.append_assoc] at htext
    repeat replace htext := List.append_cancel_left htext
    exact String.ext htext
  · simp only [List.forall_mem_map, List.mem_toFinset, List.mem_filterMap, not_exists, not_and]

theorem countP_failsFor {log : List TrajectoryEvent} {calls : List (ToolCallRequest × ToolAnswer)}
    (h : List.Forall₂ (RecordsCall inv IsResultPayload) (log.filter (·.payload.isToolResult))
      calls) :
    log.countP (·.failsFor (textOr inv.agentId "harness")) = calls.countP callFailed := by
  have hfilter : log.countP (·.failsFor (textOr inv.agentId "harness")) =
      (log.filter (·.payload.isToolResult)).countP
        (·.failsFor (textOr inv.agentId "harness")) := by
    rw [List.countP_filter]
    congr 1
    funext event
    cases hpayload : event.payload <;>
      simp [TrajectoryEvent.failsFor, hpayload, TrajectoryPayload.isToolResult]
  rw [hfilter]
  clear hfilter
  generalize log.filter (·.payload.isToolResult) = events at h ⊢
  induction h with
  | nil => rfl
  | cons hpair _ ih =>
    obtain ⟨found, time, rfl, result, iteration, hresult, rfl⟩ := hpair
    rw [List.countP_cons, List.countP_cons, ih]
    simp [callFailed, hresult, TrajectoryEvent.failsFor, Invocation.event, toolResultPayload]

/-- What a field of the result events lists is what the calls' results list. -/
theorem exists_mem_results {log : List TrajectoryEvent}
    {calls : List (ToolCallRequest × ToolAnswer)} {read : TrajectoryEvent → List String}
    {field : CallResult → List String}
    (hread : ∀ (c : ToolCallRequest × ToolAnswer) result iteration time,
      read (inv.event (toolResultPayload c.1 result iteration) c.1.callId time) = field result)
    (hother : ∀ event ∈ log, event.payload.isToolResult = false → read event = [])
    (h : List.Forall₂ (RecordsCall inv IsResultPayload) (log.filter (·.payload.isToolResult))
      calls) (path : String) :
    (∃ event ∈ log, path ∈ read event) ↔
      ∃ c ∈ calls, ∃ result, callResult? c = some result ∧ path ∈ field result := by
  have hfilter : (∃ event ∈ log, path ∈ read event) ↔
      ∃ event ∈ log.filter (·.payload.isToolResult), path ∈ read event := by
    constructor
    · rintro ⟨event, hevent, hpath⟩
      refine ⟨event, List.mem_filter.mpr ⟨hevent, ?_⟩, hpath⟩
      by_contra hresult
      rw [hother event hevent (by simpa using hresult)] at hpath
      cases hpath
    · rintro ⟨event, hevent, hpath⟩
      exact ⟨event, (List.mem_filter.mp hevent).1, hpath⟩
  rw [hfilter]
  clear hfilter hother
  generalize log.filter (·.payload.isToolResult) = events at h ⊢
  induction h with
  | nil => simp
  | cons hpair _ ih =>
    simp only [List.mem_cons, exists_eq_or_imp]
    refine or_congr ?_ ih
    obtain ⟨found, time, rfl, result, iteration, hresult, rfl⟩ := hpair
    rw [hread, hresult]
    simp

theorem flatMap_filter_eq {α β : Type} {l : List α} {f : α → List β} (p : α → Bool)
    (h : ∀ a ∈ l, p a = false → f a = []) : (l.filter p).flatMap f = l.flatMap f := by
  induction l with
  | nil => rfl
  | cons a l ih =>
    have ih := ih fun b hb => h b (List.mem_cons_of_mem _ hb)
    by_cases ha : p a = true
    · rw [List.filter_cons_of_pos ha, List.flatMap_cons, List.flatMap_cons, ih]
    · rw [List.filter_cons_of_neg ha, List.flatMap_cons, ih,
        h a List.mem_cons_self (by simpa using ha), List.nil_append]

theorem scriptTraces_eq {log : List TrajectoryEvent}
    {calls : List (ToolCallRequest × ToolAnswer)}
    (h : List.Forall₂ (RecordsCall inv IsScriptPayload) (log.filter (·.payload.usesScript))
      (calls.filter fun c => (scriptUse? c).isSome)) :
    (log.flatMap TrajectoryEvent.skillUseTraces).filter SkillUseTrace.isScript =
      calls.flatMap (scriptTraces inv) := by
  have hevents : (log.flatMap TrajectoryEvent.skillUseTraces).filter SkillUseTrace.isScript =
      (log.filter (·.payload.usesScript)).flatMap TrajectoryEvent.skillUseTraces := by
    rw [List.filter_flatMap, ← flatMap_filter_eq (fun event => event.payload.usesScript)]
    · refine List.flatMap_congr fun event hevent => ?_
      have huses := (List.mem_filter.mp hevent).2
      cases hpayload : event.payload with
      | skillUsed skillIds usageKind resource success =>
        rcases usageKind with _ | _ | _ <;>
          simp_all [TrajectoryEvent.skillUseTraces, TrajectoryPayload.usesScript,
            SkillUseTrace.isScript]
      | _ => simp [TrajectoryEvent.skillUseTraces, hpayload]
    · intro event _ huses
      cases hpayload : event.payload with
      | skillUsed skillIds usageKind resource success =>
        rcases usageKind with _ | _ | _ <;>
          simp_all [TrajectoryEvent.skillUseTraces, TrajectoryPayload.usesScript,
            SkillUseTrace.isScript]
      | _ => simp [TrajectoryEvent.skillUseTraces, hpayload]
  have hcalls : calls.flatMap (scriptTraces inv) =
      (calls.filter fun c => (scriptUse? c).isSome).flatMap (scriptTraces inv) := by
    refine (flatMap_filter_eq _ fun c _ hnone => ?_).symm
    have hnone : scriptUse? c = none := by simpa using hnone
    rw [scriptTraces, hnone]
    rfl
  rw [hevents, hcalls]
  generalize log.filter (·.payload.usesScript) = events at h ⊢
  generalize calls.filter (fun c => (scriptUse? c).isSome) = used at h ⊢
  induction h with
  | nil => rfl
  | cons hpair _ ih =>
    obtain ⟨found, time, rfl, hfound⟩ := hpair
    have huse : scriptUse? _ = some found := hfound
    rw [List.flatMap_cons, List.flatMap_cons, ih, scriptTraces, huse]
    rfl

/-! ## The equivalence -/

theorem pairwise_of_distinct
    (h : ((executedCalls effects).map fun c => c.1.callId).Nodup) :
    (executedCalls effects).Pairwise fun a b => b.1.callId ≠ "" → a.1.callId ≠ b.1.callId := by
  refine (List.pairwise_map.mp h).imp ?_
  intro a b hne _
  exact hne

/-- Recorded events that answer to all calls are all events of their kind. -/
theorem added_eq_of_forall₂ {p : TrajectoryEvent → Bool} {q : ToolCallRequest × ToolAnswer → Bool}
    {payload : ToolCallRequest × ToolAnswer → TrajectoryPayload → Prop}
    {log : List TrajectoryEvent} {calls : List (ToolCallRequest × ToolAnswer)}
    (hpaired : Paired inv p q payload effects)
    (h : List.Forall₂ (RecordsCall inv payload) ((addedEvents log effects).filter p) calls)
    (hcalls : ((executedCalls effects).filter q).length ≤ calls.length) :
    (addedEvents log effects).filter p = (emittedEvents effects).filter p := by
  have hsub : ((addedEvents log effects).filter p).Sublist ((emittedEvents effects).filter p) :=
    (Journal.added_sublist _ _).filter p
  refine hsub.eq_of_length_le ?_
  rw [h.length_eq, hpaired.length_eq]
  exact hcalls

theorem DistinctCalls.accounts {log : List TrajectoryEvent} (h : Traced inv effects)
    (hdistinct : DistinctCalls inv log effects) : AccountsForCalls inv log effects := by
  have hpairs := pairwise_of_distinct hdistinct.distinct
  have hhandled : (executedCalls effects).filter (fun c => (callResult? c).isSome) =
      executedCalls effects := List.filter_eq_self.mpr hdistinct.handled
  have hcalls : List.Forall₂ (RecordsCall inv IsCallPayload)
      ((addedEvents log effects).filter (·.payload.isToolCall)) (executedCalls effects) := by
    rw [(h.calls_added_iff log).mpr ⟨fun c hc => (hdistinct.unrecorded c hc).1, hpairs⟩]
    have hall := h.toolCalls
    unfold Paired at hall
    rwa [List.filter_true] at hall
  have hresults : List.Forall₂ (RecordsCall inv IsResultPayload)
      ((addedEvents log effects).filter (·.payload.isToolResult)) (executedCalls effects) := by
    rw [(h.results_added_iff log).mpr ⟨fun c hc =>
      (hdistinct.unrecorded c (List.mem_of_mem_filter hc)).2.1, hpairs.filter _⟩]
    have hall := h.toolResults
    unfold Paired at hall
    rwa [hhandled] at hall
  have hscripts : List.Forall₂ (RecordsCall inv IsScriptPayload)
      ((addedEvents log effects).filter (·.payload.usesScript))
      ((executedCalls effects).filter fun c => (scriptUse? c).isSome) := by
    rw [(h.scripts_added_iff log).mpr ⟨fun c hc => ?_, hpairs.filter _⟩]
    · exact h.scripts
    · obtain ⟨hc, huse⟩ := List.mem_filter.mp hc
      exact (hdistinct.unrecorded c hc).2.2 huse
  refine ⟨hcalls, hresults, hscripts, ?_, ?_, ?_, ?_, ?_⟩
  · exact (toolCallCount_iff hcalls).mpr ⟨hdistinct.distinct, hdistinct.unseen⟩
  · rw [buildView_failedToolCalls, buildView_failedToolCalls, recordEffects_eq,
      List.countP_append, countP_failsFor hresults]
  · intro path
    have hnew := @exists_mem_results inv _ _ TrajectoryEvent.createdFiles CallResult.createdFiles
      (fun c result iteration time => rfl) (fun event _ hother => by
        cases hpayload : event.payload <;>
          simp_all [TrajectoryEvent.createdFiles, TrajectoryPayload.isToolResult]) hresults path
    rw [mem_buildView_createdFiles, mem_buildView_createdFiles, recordEffects_eq, ← hnew]
    simp [or_and_right, exists_or]
  · intro path
    have hnew := @exists_mem_results inv _ _ TrajectoryEvent.modifiedFiles CallResult.modifiedFiles
      (fun c result iteration time => rfl) (fun event hevent hother => by
        obtain ⟨payload, key, time, rfl, hloop⟩ :=
          h.own event ((Journal.added_sublist _ _).subset hevent)
        cases payload <;>
          simp_all [TrajectoryEvent.modifiedFiles, TrajectoryPayload.isToolResult,
            TrajectoryPayload.fromLoop, Invocation.event]) hresults path
    rw [mem_buildView_modifiedFiles, mem_buildView_modifiedFiles, recordEffects_eq, ← hnew]
    simp [or_and_right, exists_or]
  · rw [recordEffects_eq]
    have hold := (buildView_skillUseTraces log).filter SkillUseTrace.isScript
    have hnew := (buildView_skillUseTraces (log ++ addedEvents log effects)).filter
      SkillUseTrace.isScript
    rw [List.flatMap_append, List.filter_append, scriptTraces_eq hscripts] at hnew
    exact hnew.trans (hold.symm.append_right _)

theorem AccountsForCalls.distinct {log : List TrajectoryEvent} (h : Traced inv effects)
    (haccounts : AccountsForCalls inv log effects) : DistinctCalls inv log effects := by
  have hcalls := (h.calls_added_iff log).mp
    (added_eq_of_forall₂ h.toolCalls haccounts.calls (List.length_filter_le _ _))
  have hresults := (h.results_added_iff log).mp
    (added_eq_of_forall₂ h.toolResults haccounts.results (List.length_filter_le _ _))
  have hscripts := (h.scripts_added_iff log).mp
    (added_eq_of_forall₂ h.scripts haccounts.scripts (Nat.le_refl _))
  obtain ⟨hnodup, hunseen⟩ := (toolCallCount_iff haccounts.calls).mp haccounts.toolCallCount
  have hhandled : ∀ c ∈ executedCalls effects, (callResult? c).isSome := by
    intro c hc
    have hflip : List.Forall₂ (fun c event => RecordsCall inv IsResultPayload event c) _ _ :=
      List.Forall₂.flip haccounts.results
    obtain ⟨event, -, found, time, -, result, iteration, hresult, -⟩ :=
      exists_mem_of_forall₂ hflip hc
    rw [hresult]
    rfl
  refine ⟨hhandled, hnodup, fun c hc => ⟨hcalls.1 c hc, ?_, ?_⟩, hunseen⟩
  · exact hresults.1 c (List.mem_filter.mpr ⟨hc, hhandled c hc⟩)
  · exact fun huse => hscripts.1 c (List.mem_filter.mpr ⟨hc, huse⟩)

end Accounts

/-- For any answers of model and tools, the run accounts for every executed call of
an invocation exactly when the executed calls have different ids, not used in
the log under this invocation, and no tool's exception leaves the loop. -/
theorem calls_accounted_iff (inv : Invocation) (env : LoopEnv) (budgets : LoopBudgets)
    (log : List TrajectoryEvent) :
    AccountsForCalls inv log (runLoop inv env budgets).1.effects ↔
      DistinctCalls inv log (runLoop inv env budgets).1.effects :=
  ⟨AccountsForCalls.distinct (runLoop_traced inv env budgets),
    DistinctCalls.accounts (runLoop_traced inv env budgets)⟩

namespace Sample

def invocation : Invocation := ⟨"run", "worker:t", "worker:1:t", 8, 16⟩

def testCall (callId : String) : ToolCallRequest :=
  ⟨callId, "run_test", { argv := some ["test"] }⟩

/-- A model that runs the test once in each turn, under these ids, then reports. -/
def testing (callIds : List String) (invoke : Nat → ToolAnswer) : LoopEnv where
  nextAction iteration := .response ((callIds.drop (iteration - 1)).take 1 |>.map testCall)
  invoke := invoke
  finalize := .report (some [])

/-- The first test passes, later ones fail. -/
def thenFailing : Nat → ToolAnswer
  | 1 => .returned { exitCode := some 0 }
  | _ => .returned { exitCode := some 1 }

example : AccountsForCalls invocation []
    (runLoop invocation (testing ["c", "d"] thenFailing) {}).1.effects := by
  refine DistinctCalls.accounts (runLoop_traced _ _ _)
    ⟨by decide +kernel, by decide +kernel, fun c _ => ?_, fun c _ event hevent => by cases hevent⟩
  have hnothing : ∀ type, Unrecorded invocation [] type c := by
    intro type _ old hold
    cases hold
  exact ⟨hnothing _, hnothing _, fun _ => hnothing _⟩

/-- The provider repeats an id: the second call and its failure are not in the run. -/
theorem repeated_id_not_accounted :
    ¬ AccountsForCalls invocation []
        (runLoop invocation (testing ["c", "c"] thenFailing) {}).1.effects ∧
      (executedCalls (runLoop invocation (testing ["c", "c"] thenFailing) {}).1.effects).length =
        2 ∧
      (buildView (recordEffects []
        (runLoop invocation (testing ["c", "c"] thenFailing) {}).1.effects)).toolCallCount = 1 ∧
      ((buildView (recordEffects []
        (runLoop invocation (testing ["c", "c"] thenFailing) {}).1.effects)).agent
          "worker:t").failedToolCalls = 0 := by
  refine ⟨fun h => ?_, by decide +kernel, by decide +kernel, by decide +kernel⟩
  have hnodup := (h.distinct (runLoop_traced _ _ _)).distinct
  revert hnodup
  decide +kernel

end Sample

end EvoCI
