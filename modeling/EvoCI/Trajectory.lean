import EvoCI.Budget
import EvoCI.Library.Dict
import EvoCI.Library.Journal
import Mathlib.Data.Finset.Card
import Mathlib.Data.List.Sort

/-! The recorded events of a run, the store that keeps each event id once, and
what is projected from the events: the view of a trajectory, and the budget that
a new process starts from. -/

namespace EvoCI

open Library

/-! ## Events -/

/-- The arguments of a tool call, as their readers see them: the items of a list
`argv`, each as `str` shows it, and the skill that the arguments name when they
are valid ones of `run_skill_script` or of `load_skill`. -/
structure CallArguments where
  argv : Option (List String) := none
  cwd : String := "."
  network : Bool := false
  scriptSkill : Option String := none
  scriptName : Option String := none
  loadedSkill : Option String := none
  deriving DecidableEq, Repr

inductive SkillUsageKind where
  | procedure
  | script
  deriving DecidableEq, Repr

/-- The type of an event with the part of its payload that is read again. -/
inductive TrajectoryPayload where
  | modelCall
  | toolCall (callId toolName : String) (arguments : CallArguments)
  | toolResult (callId toolName : String) (success : Bool) (exitCode : Option Int)
      (error : Option String) (iteration : Nat) (createdFiles modifiedFiles : List String)
  | attemptFailed (reason : String) (iteration : Nat)
  | patchCreated (changedFiles : List String)
  | skillSelected (skillIds : List String)
  | skillInvocationRejected (skillId : Option String) (reason : Option String)
  | skillUsed (skillIds : List String) (usageKind : Option SkillUsageKind)
      (resource : Option String) (success : Option Bool)
  /-- Any other type. -/
  | other (type : String)
  deriving DecidableEq, Repr

/-- `event_type.value`. -/
def TrajectoryPayload.type : TrajectoryPayload → String
  | .modelCall => "ModelCall"
  | .toolCall .. => "ToolCall"
  | .toolResult .. => "ToolResult"
  | .attemptFailed .. => "AttemptFailed"
  | .patchCreated .. => "PatchCreated"
  | .skillSelected .. => "SkillSelected"
  | .skillInvocationRejected .. => "SkillInvocationRejected"
  | .skillUsed .. => "SkillUsed"
  | .other type => type

/-- A recorded event. The id is `none` for one that `uuid4` draws, which no other
event has. -/
structure TrajectoryEvent where
  eventId : Option String
  agentId : Option String
  invocationId : Option String
  timestamp : Nat
  budgetScope : BudgetScope := .repair
  payload : TrajectoryPayload
  deriving DecidableEq, Repr

/-- `value or default` on optional strings. -/
def textOr (value : Option String) (default : String) : String :=
  match value with
  | none => default
  | some text => if text = "" then default else text

/-- The id that `emit` gives an event. -/
def emittedId (runId : String) (agentId invocationId : Option String) (type eventKey : String) :
    Option String :=
  if eventKey = "" then none
  else some (runId ++ ":" ++ textOr agentId "harness" ++ ":" ++ textOr invocationId "default" ++
    ":" ++ type ++ ":" ++ eventKey)

theorem append_colon_injective {first second rest rest' : List Char} (hfirst : ':' ∉ first)
    (hsecond : ':' ∉ second) (h : first ++ ':' :: rest = second ++ ':' :: rest') :
    first = second ∧ rest = rest' := by
  induction first generalizing second with
  | nil =>
    cases second with
    | nil => exact ⟨rfl, List.cons.inj h |>.2⟩
    | cons c second =>
      rw [List.nil_append, List.cons_append] at h
      exact absurd (List.mem_cons_self) ((List.cons.inj h).1 ▸ hsecond)
  | cons c first ih =>
    cases second with
    | nil =>
      rw [List.nil_append, List.cons_append] at h
      exact absurd (List.mem_cons_self) ((List.cons.inj h).1 ▸ hfirst)
    | cons d second =>
      rw [List.cons_append, List.cons_append] at h
      obtain ⟨rfl, htail⟩ := List.cons.inj h
      obtain ⟨rfl, hrest⟩ := ih (fun hin => hfirst (List.mem_cons_of_mem _ hin))
        (fun hin => hsecond (List.mem_cons_of_mem _ hin)) htail
      exact ⟨rfl, hrest⟩

/-- Ids of one invocation tell type and key. -/
theorem emittedId_injective {runId : String} {agentId invocationId : Option String}
    {type type' key key' : String} (hkey : key ≠ "") (htype : ':' ∉ type.toList)
    (htype' : ':' ∉ type'.toList)
    (h : emittedId runId agentId invocationId type key =
      emittedId runId agentId invocationId type' key') : type = type' ∧ key = key' := by
  unfold emittedId at h
  rw [if_neg hkey] at h
  split at h
  · cases h
  · have htext := congrArg String.toList (Option.some.inj h)
    simp only [String.toList_append, List.append_assoc] at htext
    repeat replace htext := List.append_cancel_left htext
    obtain ⟨htypes, hkeys⟩ := append_colon_injective htype htype' htext
    exact ⟨String.ext htypes, String.ext hkeys⟩

/-! ## The store -/

/-- `TrajectoryRecorder.emit`, with `INSERT OR IGNORE` behind it. -/
def recordEvent (log : List TrajectoryEvent) (event : TrajectoryEvent) : List TrajectoryEvent :=
  Journal.record TrajectoryEvent.eventId log event

/-- `ORDER BY timestamp, event_id`. -/
def TrajectoryEvent.listedBefore (a b : TrajectoryEvent) : Prop :=
  a.timestamp < b.timestamp ∨
    a.timestamp = b.timestamp ∧ a.eventId.getD "" ≤ b.eventId.getD ""

instance (a b : TrajectoryEvent) : Decidable (a.listedBefore b) :=
  inferInstanceAs (Decidable (_ ∨ _))

/-- `recorder.events(run_id)`. -/
def listEvents (log : List TrajectoryEvent) : List TrajectoryEvent :=
  log.insertionSort TrajectoryEvent.listedBefore

theorem mem_listEvents {log : List TrajectoryEvent} {event : TrajectoryEvent} :
    event ∈ listEvents log ↔ event ∈ log :=
  (List.perm_insertionSort _ log).mem_iff

/-! ## Budgets -/

/-- What the budget of a run is recounted from. -/
def TrajectoryEvent.budgetEvent? (event : TrajectoryEvent) : Option RunEvent :=
  match event.payload with
  | .modelCall => some ⟨event.eventId.getD "", .modelCall, event.budgetScope⟩
  | .toolCall .. => some ⟨event.eventId.getD "", .toolCall, event.budgetScope⟩
  | _ => none

def budgetEvents (log : List TrajectoryEvent) : List RunEvent :=
  log.filterMap TrajectoryEvent.budgetEvent?

/-- `RunBudgetManager.for_run` in a process that has not seen the run. -/
def forRun (maxModelCalls maxToolCalls : Nat) (log : List TrajectoryEvent) : RunRepairBudget where
  maxModelCalls
  maxToolCalls
  modelCalls := countedModelCalls (budgetEvents (listEvents log))
  toolCalls := countedToolCalls (budgetEvents (listEvents log))

def TrajectoryEvent.countsModelCall (event : TrajectoryEvent) : Bool :=
  event.payload = .modelCall && event.budgetScope ≠ .postRun

def TrajectoryPayload.isToolCall : TrajectoryPayload → Bool
  | .toolCall .. => true
  | _ => false

def TrajectoryPayload.isToolResult : TrajectoryPayload → Bool
  | .toolResult .. => true
  | _ => false

def TrajectoryEvent.countsToolCall (event : TrajectoryEvent) : Bool :=
  event.payload.isToolCall && event.budgetScope = .repair

theorem countedModelCalls_budgetEvents (log : List TrajectoryEvent) :
    countedModelCalls (budgetEvents log) = log.countP TrajectoryEvent.countsModelCall := by
  unfold countedModelCalls budgetEvents
  rw [List.countP_filterMap]
  congr 1
  funext event
  obtain ⟨id, agent, invocation, time, scope, payload⟩ := event
  cases payload <;> simp [TrajectoryEvent.budgetEvent?, TrajectoryEvent.countsModelCall]

theorem countedToolCalls_budgetEvents (log : List TrajectoryEvent) :
    countedToolCalls (budgetEvents log) = log.countP TrajectoryEvent.countsToolCall := by
  unfold countedToolCalls budgetEvents
  rw [List.countP_filterMap]
  congr 1
  funext event
  obtain ⟨id, agent, invocation, time, scope, payload⟩ := event
  cases payload <;>
    simp [TrajectoryEvent.budgetEvent?, TrajectoryEvent.countsToolCall,
      TrajectoryPayload.isToolCall]

/-- A new process counts the model and tool calls in the log, in whatever order. -/
theorem forRun_counts (maxModelCalls maxToolCalls : Nat) (log : List TrajectoryEvent) :
    (forRun maxModelCalls maxToolCalls log).modelCalls =
        log.countP TrajectoryEvent.countsModelCall ∧
      (forRun maxModelCalls maxToolCalls log).toolCalls =
        log.countP TrajectoryEvent.countsToolCall :=
  ⟨(countedModelCalls_budgetEvents _).trans ((List.perm_insertionSort _ log).countP_eq _),
    (countedToolCalls_budgetEvents _).trans ((List.perm_insertionSort _ log).countP_eq _)⟩

/-! ## The view of a trajectory -/

structure AgentTrace where
  modelCalls : Nat := 0
  toolCalls : Nat := 0
  failedToolCalls : Nat := 0
  deriving DecidableEq, Repr

structure ToolTrace where
  callId : String
  agentId : String
  invocationId : Option String
  toolName : String
  success : Option Bool := none
  exitCode : Option Int := none
  error : Option String := none
  deriving DecidableEq, Repr

/-- A failed attempt of the kind `tool_failure`. -/
structure AttemptSummary where
  agentId : Option String
  reason : String
  iteration : Nat
  deriving DecidableEq, Repr

structure SkillUseTrace where
  skillId : String
  agentId : String
  invocationId : Option String
  resource : Option String
  executionSuccess : Option Bool
  usageKind : Option SkillUsageKind
  deriving DecidableEq, Repr

structure TrajectoryView where
  agents : Dict String AgentTrace := []
  toolCalls : Dict String ToolTrace := []
  failedAttempts : List AttemptSummary := []
  createdFiles : List String := []
  modifiedFiles : List String := []
  skillUseTraces : List SkillUseTrace := []
  deriving DecidableEq, Repr

/-- `tool_call_count`. -/
def TrajectoryView.toolCallCount (view : TrajectoryView) : Nat := view.toolCalls.length

def TrajectoryView.agent (view : TrajectoryView) (agentId : String) : AgentTrace :=
  (view.agents.get? agentId).getD {}

def TrajectoryView.setAgent (view : TrajectoryView) (agentId : String) (trace : AgentTrace) :
    TrajectoryView :=
  { view with agents := view.agents.set agentId trace }

def traceKey (agentId : String) (invocationId : Option String) (callId : String) : String :=
  agentId ++ ":" ++ textOr invocationId "default" ++ ":" ++ callId

/-- One round of the loop of `build_view`. Event ids are primary keys, so no
event comes twice. -/
def TrajectoryView.project (view : TrajectoryView) (event : TrajectoryEvent) : TrajectoryView :=
  let agentId := textOr event.agentId "harness"
  let agent := view.agent agentId
  match event.payload with
  | .modelCall => view.setAgent agentId { agent with modelCalls := agent.modelCalls + 1 }
  | .toolCall callId toolName _ =>
    let counted := view.setAgent agentId { agent with toolCalls := agent.toolCalls + 1 }
    { counted with
      toolCalls := view.toolCalls.set (traceKey agentId event.invocationId callId)
        { callId, agentId, invocationId := event.invocationId, toolName } }
  | .toolResult callId _ success exitCode error iteration createdFiles modifiedFiles =>
    let key := traceKey agentId event.invocationId callId
    let resolved :=
      match view.toolCalls.get? key with
      | some current =>
        { view with
          toolCalls := view.toolCalls.set key
            { current with success := some success, exitCode, error } }
      | none => view
    let counted :=
      if success then resolved
      else
        { resolved.setAgent agentId { agent with failedToolCalls := agent.failedToolCalls + 1 } with
          failedAttempts := view.failedAttempts ++
            [⟨some agentId, textOr error "tool returned failure", iteration⟩] }
    { counted with
      createdFiles := view.createdFiles ++ createdFiles
      modifiedFiles := view.modifiedFiles ++ modifiedFiles }
  | .attemptFailed reason iteration =>
    { view with failedAttempts := view.failedAttempts ++ [⟨event.agentId, reason, iteration⟩] }
  | .patchCreated changedFiles => { view with modifiedFiles := view.modifiedFiles ++ changedFiles }
  | .skillUsed skillIds usageKind resource success =>
    { view with
      skillUseTraces := view.skillUseTraces ++ skillIds.dedup.map fun skillId =>
        ⟨skillId, agentId, event.invocationId, resource, success, usageKind⟩ }
  | .skillSelected _ | .skillInvocationRejected .. | .other _ => view

/-- `build_view`. -/
def buildView (log : List TrajectoryEvent) : TrajectoryView :=
  (listEvents log).foldl TrajectoryView.project {}

/-! ## What the view adds up -/

/-- The key under which the view keeps a tool call. -/
def TrajectoryEvent.traceKey? (event : TrajectoryEvent) : Option String :=
  match event.payload with
  | .toolCall callId _ _ =>
    some (traceKey (textOr event.agentId "harness") event.invocationId callId)
  | _ => none

/-- A failed tool result of the agent. -/
def TrajectoryEvent.failsFor (agentId : String) (event : TrajectoryEvent) : Bool :=
  match event.payload with
  | .toolResult _ _ success _ _ _ _ _ => !success && textOr event.agentId "harness" = agentId
  | _ => false

def TrajectoryEvent.createdFiles (event : TrajectoryEvent) : List String :=
  match event.payload with
  | .toolResult _ _ _ _ _ _ createdFiles _ => createdFiles
  | _ => []

def TrajectoryEvent.modifiedFiles (event : TrajectoryEvent) : List String :=
  match event.payload with
  | .toolResult _ _ _ _ _ _ _ modifiedFiles => modifiedFiles
  | .patchCreated changedFiles => changedFiles
  | _ => []

def TrajectoryEvent.skillUseTraces (event : TrajectoryEvent) : List SkillUseTrace :=
  match event.payload with
  | .skillUsed skillIds usageKind resource success =>
    skillIds.dedup.map fun skillId =>
      ⟨skillId, textOr event.agentId "harness", event.invocationId, resource, success, usageKind⟩
  | _ => []

namespace TrajectoryView

@[simp] theorem agent_setAgent (view : TrajectoryView) (agentId other : String)
    (trace : AgentTrace) :
    (view.setAgent agentId trace).agent other =
      if other = agentId then trace else view.agent other := by
  unfold agent setAgent
  rw [Dict.get?_set]
  split <;> rfl

variable (view : TrajectoryView) (event : TrajectoryEvent)

/-- What the view shows of a result, whether or not it knows the call. -/
theorem project_toolResult {callId toolName : String} {success : Bool} {exitCode : Option Int}
    {error : Option String} {iteration : Nat} {createdFiles modifiedFiles : List String}
    (h : event.payload = .toolResult callId toolName success exitCode error iteration
      createdFiles modifiedFiles) :
    (∀ agentId, ((view.project event).agent agentId).failedToolCalls =
        (view.agent agentId).failedToolCalls + if event.failsFor agentId then 1 else 0) ∧
      (view.project event).createdFiles = view.createdFiles ++ createdFiles ∧
      (view.project event).modifiedFiles = view.modifiedFiles ++ modifiedFiles ∧
      (view.project event).skillUseTraces = view.skillUseTraces ∧
      ∀ key, key ∈ (view.project event).toolCalls.keys ↔ key ∈ view.toolCalls.keys := by
  obtain ⟨id, agentId, invocationId, time, scope, payload⟩ := event
  subst h
  simp only [project, TrajectoryEvent.failsFor]
  cases hknown : view.toolCalls.get? (traceKey (textOr agentId "harness") invocationId callId) with
  | none =>
    cases success with
    | true => simp [agent]
    | false =>
      refine ⟨fun other => ?_, trivial, trivial, rfl, fun key => Iff.rfl⟩
      show ((view.setAgent _ _).agent other).failedToolCalls = _
      rw [agent_setAgent]
      by_cases hsame : other = textOr agentId "harness"
      · simp [hsame]
      · simp [hsame, Ne.symm hsame]
  | some current =>
    have hkeys : ∀ key trace, key ∈ (view.toolCalls.set (traceKey (textOr agentId "harness")
        invocationId callId) trace).keys ↔ key ∈ view.toolCalls.keys := by
      intro key trace
      rw [Dict.mem_keys_set]
      constructor
      · rintro (rfl | hin)
        · exact Dict.mem_keys_of_get? hknown
        · exact hin
      · exact .inr
    cases success with
    | true =>
      refine ⟨fun other => ?_, trivial, trivial, rfl, fun key => hkeys key _⟩
      simp [agent]
    | false =>
      refine ⟨fun other => ?_, trivial, trivial, rfl, fun key => hkeys key _⟩
      show (TrajectoryView.agent (TrajectoryView.setAgent _ _ _) other).failedToolCalls = _
      rw [agent_setAgent]
      by_cases hsame : other = textOr agentId "harness"
      · simp [hsame]
      · simp [hsame, Ne.symm hsame, agent]

theorem project_failedToolCalls (agentId : String) :
    ((view.project event).agent agentId).failedToolCalls =
      (view.agent agentId).failedToolCalls + if event.failsFor agentId then 1 else 0 := by
  cases hpayload : event.payload with
  | toolResult => exact (project_toolResult view event hpayload).1 agentId
  | modelCall =>
    simp only [project, hpayload, TrajectoryEvent.failsFor, agent_setAgent]
    split
    next hsame => simp [hsame]
    · rfl
  | toolCall callId toolName arguments =>
    simp only [project, hpayload, TrajectoryEvent.failsFor]
    show ((view.setAgent _ _).agent agentId).failedToolCalls = _
    rw [agent_setAgent]
    split
    next hsame => simp [hsame]
    · rfl
  | _ => simp [project, hpayload, TrajectoryEvent.failsFor, agent]

theorem project_createdFiles :
    (view.project event).createdFiles = view.createdFiles ++ event.createdFiles := by
  cases hpayload : event.payload with
  | toolResult =>
    rw [(project_toolResult view event hpayload).2.1]
    simp [TrajectoryEvent.createdFiles, hpayload]
  | _ => simp [project, hpayload, TrajectoryEvent.createdFiles, setAgent]

theorem project_modifiedFiles :
    (view.project event).modifiedFiles = view.modifiedFiles ++ event.modifiedFiles := by
  cases hpayload : event.payload with
  | toolResult =>
    rw [(project_toolResult view event hpayload).2.2.1]
    simp [TrajectoryEvent.modifiedFiles, hpayload]
  | _ => simp [project, hpayload, TrajectoryEvent.modifiedFiles, setAgent]

theorem project_skillUseTraces :
    (view.project event).skillUseTraces = view.skillUseTraces ++ event.skillUseTraces := by
  cases hpayload : event.payload with
  | toolResult =>
    rw [(project_toolResult view event hpayload).2.2.2.1]
    simp [TrajectoryEvent.skillUseTraces, hpayload]
  | _ => simp [project, hpayload, TrajectoryEvent.skillUseTraces, setAgent]

theorem mem_keys_project (key : String) :
    key ∈ (view.project event).toolCalls.keys ↔
      key ∈ view.toolCalls.keys ∨ event.traceKey? = some key := by
  cases hpayload : event.payload with
  | toolResult =>
    rw [(project_toolResult view event hpayload).2.2.2.2 key]
    simp [TrajectoryEvent.traceKey?, hpayload]
  | toolCall callId toolName arguments =>
    simp only [project, hpayload, TrajectoryEvent.traceKey?, Dict.mem_keys_set, Option.some.injEq]
    constructor
    · rintro (rfl | hin)
      · exact .inr rfl
      · exact .inl hin
    · rintro (hin | rfl)
      · exact .inr hin
      · exact .inl rfl
  | _ => simp [project, hpayload, TrajectoryEvent.traceKey?, setAgent]

theorem keys_project_nodup (h : view.toolCalls.keys.Nodup) :
    (view.project event).toolCalls.keys.Nodup := by
  unfold project
  simp only
  split
  · exact h
  · exact Dict.keys_set_nodup _ _ _ h
  · split <;> split <;> first
      | exact h
      | exact Dict.keys_set_nodup _ _ _ h
  all_goals exact h

end TrajectoryView

section Projected

variable (log : List TrajectoryEvent)

theorem foldl_project_failedToolCalls (agentId : String) (view : TrajectoryView) :
    ((log.foldl TrajectoryView.project view).agent agentId).failedToolCalls =
      (view.agent agentId).failedToolCalls + log.countP (·.failsFor agentId) := by
  induction log generalizing view with
  | nil => rfl
  | cons event log ih =>
    rw [List.foldl_cons, ih, TrajectoryView.project_failedToolCalls, List.countP_cons]
    omega

/-- A list that every event adds to is what all events add. -/
theorem foldl_project_adds {α : Type} {read : TrajectoryView → List α}
    {adds : TrajectoryEvent → List α}
    (h : ∀ view event, read (view.project event) = read view ++ adds event)
    (view : TrajectoryView) :
    read (log.foldl TrajectoryView.project view) = read view ++ log.flatMap adds := by
  induction log generalizing view with
  | nil => simp
  | cons event log ih => rw [List.foldl_cons, ih, h, List.flatMap_cons, List.append_assoc]

theorem foldl_project_keys (view : TrajectoryView) (h : view.toolCalls.keys.Nodup) :
    (log.foldl TrajectoryView.project view).toolCalls.keys.Nodup ∧
      ∀ key, key ∈ (log.foldl TrajectoryView.project view).toolCalls.keys ↔
        key ∈ view.toolCalls.keys ∨ key ∈ log.filterMap TrajectoryEvent.traceKey? := by
  induction log generalizing view with
  | nil => exact ⟨h, fun key => by simp⟩
  | cons event log ih =>
    obtain ⟨hnodup, hmem⟩ := ih (view.project event)
      (TrajectoryView.keys_project_nodup view event h)
    refine ⟨hnodup, fun key => ?_⟩
    rw [List.foldl_cons, hmem, TrajectoryView.mem_keys_project, List.mem_filterMap,
      List.mem_filterMap]
    simp [or_assoc]

theorem listEvents_perm : (listEvents log).Perm log := List.perm_insertionSort _ log

theorem buildView_failedToolCalls (agentId : String) :
    ((buildView log).agent agentId).failedToolCalls = log.countP (·.failsFor agentId) := by
  unfold buildView
  rw [foldl_project_failedToolCalls, (listEvents_perm log).countP_eq]
  exact Nat.zero_add _

theorem mem_buildView_createdFiles (path : String) :
    path ∈ (buildView log).createdFiles ↔ ∃ event ∈ log, path ∈ event.createdFiles := by
  unfold buildView
  rw [foldl_project_adds (listEvents log) TrajectoryView.project_createdFiles, List.mem_append,
    List.mem_flatMap]
  simp only [List.not_mem_nil, false_or, mem_listEvents]

theorem mem_buildView_modifiedFiles (path : String) :
    path ∈ (buildView log).modifiedFiles ↔ ∃ event ∈ log, path ∈ event.modifiedFiles := by
  unfold buildView
  rw [foldl_project_adds (listEvents log) TrajectoryView.project_modifiedFiles, List.mem_append,
    List.mem_flatMap]
  simp only [List.not_mem_nil, false_or, mem_listEvents]

theorem buildView_skillUseTraces :
    (buildView log).skillUseTraces.Perm (log.flatMap TrajectoryEvent.skillUseTraces) := by
  unfold buildView
  rw [foldl_project_adds (listEvents log) TrajectoryView.project_skillUseTraces]
  exact (listEvents_perm log).flatMap_right _

/-- The view counts the different trace keys of tool calls. -/
theorem buildView_toolCallCount :
    (buildView log).toolCallCount = (log.filterMap TrajectoryEvent.traceKey?).toFinset.card := by
  obtain ⟨hnodup, hmem⟩ := foldl_project_keys (listEvents log) {} List.nodup_nil
  have hlength : (buildView log).toolCallCount = (buildView log).toolCalls.keys.length :=
    (List.length_map Prod.fst).symm
  rw [hlength]
  unfold buildView
  rw [← List.toFinset_card_of_nodup hnodup]
  congr 1
  ext key
  rw [List.mem_toFinset, List.mem_toFinset, hmem,
    ((listEvents_perm log).filterMap TrajectoryEvent.traceKey?).mem_iff]
  simp

end Projected

end EvoCI
