import EvoCI.CallRecords
import EvoCI.Routing

/-! One execution of the model worker: its budget, its tool loop, and the facts of
its tool calls that the harness reads back from the recorded events. -/

namespace EvoCI

open Library

/-! ## Facts read from events -/

/-- `VerificationCommandSpec(argv=argv, cwd=cwd)`. -/
def verificationCommandSpec (argv : List String) (cwd : String) :
    Except PyError VerificationCommandSpec :=
  if hlen : argv ≠ [] ∧ argv.length ≤ 32 then
    if hitems : ∀ item ∈ argv, strip item ≠ "" then
      match hcwd : normalizeRepoCwd cwd with
      | .ok normal => .ok ⟨argv, normal, hlen, hitems, cwd, hcwd⟩
      | .error e => .error e
    else .error (.valueError "verification argv items must be non-empty")
  else .error (.valueError "verification argv holds no item or more than 32")

/-- Characters that `shlex.quote` leaves unquoted. -/
def shellSafe (c : Char) : Bool :=
  c.isAlphanum || c ∈ ['@', '%', '+', '=', ':', ',', '.', '/', '-', '_']

/-- `shlex.quote`. -/
def shlexQuote (text : String) : String :=
  if text = "" then "''"
  else if text.toList.all shellSafe then text
  else "'" ++ String.ofList (text.toList.flatMap fun c =>
    if c = '\'' then ['\'', '"', '\'', '"', '\''] else [c]) ++ "'"

/-- `shlex.join`. -/
def shlexJoin (argv : List String) : String := " ".intercalate (argv.map shlexQuote)

/-- What `pending` keeps of a recorded test or command. -/
structure PendingCommand where
  callId : String
  spec : VerificationCommandSpec
  network : Bool

structure WorkerFacts where
  commands : List String := []
  evidence : List EvidenceItem := []
  skills : List String := []
  verificationPlan : List VerificationCommandSpec := []
  pending : List PendingCommand := []

/-- `pending.get(call_id)`: the last one set. -/
def WorkerFacts.pendingOf (facts : WorkerFacts) (callId : String) : Option PendingCommand :=
  facts.pending.reverse.find? (·.callId = callId)

def runsCommand (toolName : String) : Bool := toolName = "run_test" ∨ toolName = "run_command"

def renderedCommand (spec : VerificationCommandSpec) : String :=
  if spec.cwd = "." then shlexJoin spec.argv
  else shlexJoin spec.argv ++ " (cwd=" ++ spec.cwd ++ ")"

def renderedExitCode (exitCode : Option Int) : String :=
  exitCode.elim "None" toString

def testEvidence (agentId toolName : String) (success : Bool) (exitCode : Option Int)
    (pending : Option PendingCommand) : EvidenceItem where
  sourceAgent := agentId
  kind := .testResult
  claim := toolName ++ (if success then " passed" else " failed") ++ " with exit code " ++
    renderedExitCode exitCode
  command := some (pending.elim toolName fun info => shlexJoin info.spec.argv)
  confidence := if success then 100 else 40

/-- One round of the loop of `_trace_from_events`, for an event of the invocation. -/
def WorkerFacts.note (agentId : String) (facts : WorkerFacts) (event : TrajectoryEvent) :
    WorkerFacts :=
  match event.payload with
  | .toolCall callId toolName arguments =>
    match arguments.argv with
    | none => facts
    | some argv =>
      if runsCommand toolName then
        match verificationCommandSpec argv arguments.cwd with
        | .error _ => facts
        | .ok spec =>
          { facts with
            commands := facts.commands ++ [renderedCommand spec]
            pending := facts.pending ++ [⟨callId, spec, arguments.network⟩] }
      else facts
  | .toolResult callId toolName success exitCode _ _ _ _ =>
    if runsCommand toolName then
      let info := facts.pendingOf callId
      let noted :=
        { facts with
          evidence := facts.evidence ++ [testEvidence agentId toolName success exitCode info] }
      match info with
      | none => noted
      | some info =>
        if success ∧ toolName = "run_test" ∧ info.network = false ∧
            ∀ spec ∈ facts.verificationPlan, (spec.argv, spec.cwd) ≠ (info.spec.argv, info.spec.cwd)
        then { noted with verificationPlan := facts.verificationPlan ++ [info.spec] }
        else noted
    else facts
  | .skillUsed skillIds _ _ _ =>
    match skillIds.head? with
    | none => facts
    | some skillId =>
      if skillId ≠ "" ∧ skillId ∉ facts.skills then
        { facts with skills := facts.skills ++ [skillId] }
      else facts
  | _ => facts

def WorkerFacts.ofEvents (agentId : String) (events : List TrajectoryEvent) : WorkerFacts :=
  events.foldl (WorkerFacts.note agentId) {}

def TrajectoryEvent.isOf (agentId invocationId : String) (event : TrajectoryEvent) : Bool :=
  event.agentId = some agentId ∧ event.invocationId = some invocationId

/-- `_trace_from_events`. -/
def traceFromEvents (log : List TrajectoryEvent) (agentId invocationId : String) : WorkerFacts :=
  WorkerFacts.ofEvents agentId ((listEvents log).filter (·.isOf agentId invocationId))

/-- `_harness_facts`. -/
def harnessFacts (log : List TrajectoryEvent) (agentId invocationId : String)
    (availableSkills : List String) : WorkerFacts :=
  let facts := traceFromEvents log agentId invocationId
  { facts with skills := facts.skills.filter (· ∈ availableSkills) }

/-! ## The execution -/

structure WorkerSettings where
  maxIterations : Nat
  maxToolCalls : Nat

structure WorkerContext where
  runId : String
  invocationId : String
  task : WorkerTask
  recommendedSkills : List String := []
  baselineSnapshotId : String := ""
  resumeArtifactRef : Option String := none

/-- The report that the structured final request returns. -/
structure WorkerReport where
  status : WorkerTaskStatus := .completed
  summary : String := ""
  evidence : List EvidenceItem := []
  risk : String := "low"

/-- What setting the staging copy and its tools up comes to. -/
inductive StagingSetup where
  | ready
  | blocked (summary : String)
  | raised (e : PyError)

/-- The world's part in one execution: the answers of model and tools, the report,
the staging copy, and what `_collect_repair_edits` makes of it. -/
structure WorkerEnv where
  loop : LoopEnv
  report : WorkerReport := {}
  staging : StagingSetup := .ready
  collected : Except PyError (List FileEdit) := .ok []
  /-- `workspace_snapshot_id(source)`. -/
  sourceSnapshotId : String := ""

inductive WorkerOutcome where
  | returned (run : WorkerRun)
  | raised (e : PyError)

/-- How many turns fit beside the final request. -/
def actionCallCapacity (maxActions remainingModelCalls : Nat) (taskModelCalls : Option Nat) : Nat :=
  if remainingModelCalls < 1 + finalizationModelCalls then 0
  else
    let capacity := min maxActions (remainingModelCalls - finalizationModelCalls)
    taskModelCalls.elim capacity fun total => min capacity (total - finalizationModelCalls)

/-- `_task_budget`. -/
def taskBudget (settings : WorkerSettings) (task : WorkerTask) (run : Option RunRepairBudget) :
    RunRepairBudget :=
  let remainingModel := run.elim (settings.maxIterations + finalizationModelCalls)
    fun budget => budget.maxModelCalls - budget.modelCalls
  let remainingTool := run.elim settings.maxToolCalls
    fun budget => min settings.maxToolCalls (budget.maxToolCalls - budget.toolCalls)
  let actions := actionCallCapacity settings.maxIterations remainingModel
    (task.budget.map TaskBudget.maxModelCalls)
  { maxModelCalls := if actions = 0 then 0 else actions + finalizationModelCalls
    maxToolCalls := task.budget.elim remainingTool
      fun budget => min remainingTool budget.maxToolCalls }

def WorkerContext.agentId (ctx : WorkerContext) : String := "worker:" ++ ctx.task.taskId

/-- `_blocked` and `_exhausted`. -/
def unfinishedRun (ctx : WorkerContext) (status : WorkerTaskStatus) (summary : String) :
    WorkerRun where
  result :=
    { taskId := ctx.task.taskId, status, summary
      baseRevision := some ctx.baselineSnapshotId
      snapshotId := some ctx.baselineSnapshotId }

/-- Exceptions that `execute` turns into a blocked result. -/
def blocksWorker : PyError → Bool
  | .patchConflict _ | .patchError _ | .patchPrecheckError _ | .policyViolation _
  | .valueError _ | .taskScheduleError _ | .unicodeDecodeError | .integrationError _ => true
  | _ => false

def finishedRun (ctx : WorkerContext) (env : WorkerEnv) (status : WorkerTaskStatus)
    (summary risk : String) (semantic : List EvidenceItem) (facts : WorkerFacts)
    (edits : List FileEdit) : WorkerRun where
  result :=
    { taskId := ctx.task.taskId, status, summary
      evidence := semantic ++ facts.evidence
      baseRevision := some (textOr (some ctx.baselineSnapshotId) env.sourceSnapshotId)
      snapshotId := some (textOr (some ctx.baselineSnapshotId) env.sourceSnapshotId)
      changedFiles := edits.map FileEdit.path
      usedSkillRefs := facts.skills }
  edits
  commandsRun := facts.commands
  verificationPlan := facts.verificationPlan
  risk

/-- `_recover_repair`: the edits of a repair that could not report. -/
def recoverRepair (ctx : WorkerContext) (env : WorkerEnv) (facts : WorkerFacts)
    (exhausted : Bool) : Except PyError (Option WorkerRun) :=
  match env.collected with
  | .error e =>
    if blocksWorker e then .ok (some (unfinishedRun ctx .blocked e.message)) else .error e
  | .ok edits =>
    if edits = [] then .ok none
    else
      .ok (some (finishedRun ctx env .completed
        (if exhausted then
          "Worker modified files but structured finalization exhausted its budget."
        else "Worker modified files but structured finalization failed.")
        (if edits.length ≤ 4 then "low" else "medium") [] facts edits))

/-- An exception inside `execute`, behind the set-up of the tools. -/
def workerRaised (ctx : WorkerContext) (env : WorkerEnv) (facts : WorkerFacts) (e : PyError) :
    WorkerOutcome :=
  match e with
  | .repairBudgetExhausted message =>
    match ctx.task.kind with
    | .investigate => .returned (unfinishedRun ctx .budgetExhausted message)
    | .repair =>
      match recoverRepair ctx env facts true with
      | .error e => .raised e
      | .ok recovered => .returned (recovered.getD (unfinishedRun ctx .budgetExhausted message))
  | .modelGatewayError message =>
    match ctx.task.kind with
    | .investigate => .raised e
    | .repair =>
      -- the summary names the budget if the gateway's message does
      match recoverRepair ctx env facts (containsText "exhausted" (lower message) ||
          containsText "budget" (lower message)) with
      | .error e => .raised e
      | .ok none => .raised e
      | .ok (some recovered) => .returned recovered
  | e => if blocksWorker e then .returned (unfinishedRun ctx .blocked e.message) else .raised e

def workerInvocation (settings : WorkerSettings) (ctx : WorkerContext) : Invocation where
  runId := ctx.runId
  agentId := ctx.agentId
  invocationId := ctx.invocationId
  maxIterations := settings.maxIterations
  maxToolCalls := settings.maxToolCalls

/-- `ModelWorker.execute`, with what it does to the world. -/
def executeWorker (settings : WorkerSettings) (ctx : WorkerContext) (env : WorkerEnv)
    (budget : Option RunRepairBudget) (log : List TrajectoryEvent) :
    WorkerOutcome × List LoopEffect :=
  let extra := taskBudget settings ctx.task budget
  if extra.maxModelCalls < 1 + finalizationModelCalls then
    (.returned (unfinishedRun ctx .budgetExhausted modelMessage), [])
  else
    match env.staging with
    | .blocked summary => (.returned (unfinishedRun ctx .blocked summary), [])
    | .raised e => (.raised e, [])
    | .ready =>
      let ended := runLoop (workerInvocation settings ctx) env.loop ⟨budget, some extra⟩
      let facts := harnessFacts (recordEffects log ended.1.effects) ctx.agentId ctx.invocationId
        ctx.recommendedSkills
      match ended.2 with
      | .error e => (workerRaised ctx env facts e, ended.1.effects)
      | .ok _ =>
        match ctx.task.kind, env.collected with
        | .repair, .error e => (workerRaised ctx env facts e, ended.1.effects)
        | .repair, .ok edits =>
          (.returned (finishedRun ctx env env.report.status env.report.summary env.report.risk
            (env.report.evidence.filter (·.kind ≠ .testResult)) facts edits), ended.1.effects)
        | .investigate, _ =>
          (.returned (finishedRun ctx env env.report.status env.report.summary env.report.risk
            (env.report.evidence.filter (·.kind ≠ .testResult)) facts []), ended.1.effects)

/-! ## Which events bear facts -/

/-- The event adds to what the harness reports of a worker. -/
def TrajectoryEvent.bearsFact (event : TrajectoryEvent) : Bool :=
  match event.payload with
  | .toolCall _ toolName arguments =>
    runsCommand toolName && arguments.argv.any fun argv =>
      (verificationCommandSpec argv arguments.cwd).toOption.isSome
  | .toolResult _ toolName .. => runsCommand toolName
  | .skillUsed skillIds .. => skillIds.head?.any (· ≠ "")
  | _ => false

/-- No fact was noted. -/
structure WorkerFacts.Bare (facts : WorkerFacts) : Prop where
  commands : facts.commands = []
  evidence : facts.evidence = []
  skills : facts.skills = []

section Facts

variable {agentId : String} {facts : WorkerFacts} {event : TrajectoryEvent}

theorem WorkerFacts.note_of_not_bears (h : event.bearsFact = false) :
    facts.note agentId event = facts := by
  unfold TrajectoryEvent.bearsFact at h
  unfold WorkerFacts.note
  cases hpayload : event.payload with
  | toolCall callId toolName arguments =>
    simp only [hpayload] at h ⊢
    cases hargv : arguments.argv with
    | none => rfl
    | some argv =>
      simp only [hargv, Option.any_some, Bool.and_eq_false_iff] at h
      simp only
      split
      next hruns =>
        split
        · rfl
        next spec hspec =>
          rw [hspec, hruns] at h
          simp [Except.toOption] at h
      · rfl
  | toolResult callId toolName success exitCode error iteration created modified =>
    simp only [hpayload] at h ⊢
    simp [h]
  | skillUsed skillIds usageKind resource success =>
    simp only [hpayload] at h ⊢
    cases hhead : skillIds.head? with
    | none => rfl
    | some skillId =>
      simp only [hhead, Option.any_some, decide_eq_false_iff_not, not_not] at h
      simp [h]
  | _ => rfl

/-- Facts are never taken back, and an event that bears one leaves one. -/
theorem WorkerFacts.Bare.before (h : (facts.note agentId event).Bare) :
    facts.Bare ∧ event.bearsFact = false := by
  by_cases hbears : event.bearsFact = true
  · -- an event that bears a fact appends to one of the lists
    exfalso
    obtain ⟨hcommands, hevidence, hskills⟩ := h
    unfold TrajectoryEvent.bearsFact at hbears
    unfold WorkerFacts.note at hcommands hevidence hskills
    cases hpayload : event.payload with
    | toolCall callId toolName arguments =>
      simp only [hpayload, Bool.and_eq_true] at hbears hcommands
      obtain ⟨hruns, hvalid⟩ := hbears
      cases hargv : arguments.argv with
      | none => simp [hargv] at hvalid
      | some argv =>
        simp only [hargv, Option.any_some] at hvalid
        cases hspec : verificationCommandSpec argv arguments.cwd with
        | error e => simp [hspec, Except.toOption] at hvalid
        | ok spec => simp [hargv, hruns, hspec] at hcommands
    | toolResult callId toolName success exitCode error iteration created modified =>
      simp only [hpayload] at hbears hevidence
      rw [if_pos hbears] at hevidence
      split at hevidence
      · simp at hevidence
      · split at hevidence <;> simp at hevidence
    | skillUsed skillIds usageKind resource success =>
      simp only [hpayload] at hbears hskills
      cases hhead : skillIds.head? with
      | none => simp [hhead] at hbears
      | some skillId =>
        simp only [hhead, Option.any_some, decide_eq_true_eq] at hbears
        simp only [hhead] at hskills
        split at hskills
        · simp at hskills
        next hknown =>
          have hin : skillId ∈ facts.skills := by
            by_contra hout
            exact hknown ⟨hbears, hout⟩
          rw [hskills] at hin
          cases hin
    | _ => simp [hpayload] at hbears
  · rw [Bool.not_eq_true] at hbears
    rw [note_of_not_bears hbears] at h
    exact ⟨h, hbears⟩

theorem foldl_note_filter (events : List TrajectoryEvent) (facts : WorkerFacts) :
    (events.filter TrajectoryEvent.bearsFact).foldl (WorkerFacts.note agentId) facts =
      events.foldl (WorkerFacts.note agentId) facts := by
  induction events generalizing facts with
  | nil => rfl
  | cons event events ih =>
    by_cases h : event.bearsFact = true
    · rw [List.filter_cons_of_pos h, List.foldl_cons, List.foldl_cons, ih]
    · rw [List.filter_cons_of_neg h, List.foldl_cons, ih,
        WorkerFacts.note_of_not_bears (Bool.not_eq_true _ ▸ h)]

theorem ofEvents_silent {events : List TrajectoryEvent}
    (h : ∀ event ∈ events, event.bearsFact = false) : WorkerFacts.ofEvents agentId events = {} := by
  unfold WorkerFacts.ofEvents
  rw [← foldl_note_filter, List.filter_eq_nil_iff.mpr fun event hevent => by simp [h event hevent]]
  rfl

theorem foldl_note_bare (events : List TrajectoryEvent) (facts : WorkerFacts)
    (h : (events.foldl (WorkerFacts.note agentId) facts).Bare) :
    facts.Bare ∧ ∀ event ∈ events, event.bearsFact = false := by
  induction events generalizing facts with
  | nil => exact ⟨h, by simp⟩
  | cons event events ih =>
    obtain ⟨hnoted, hevents⟩ := ih (facts.note agentId event) h
    obtain ⟨hfacts, hevent⟩ := hnoted.before
    exact ⟨hfacts, List.forall_mem_cons.mpr ⟨hevent, hevents⟩⟩

theorem WorkerFacts.note_evidence (facts : WorkerFacts) (event : TrajectoryEvent) :
    ∃ noted, (facts.note agentId event).evidence = facts.evidence ++ noted ∧
      ∀ item ∈ noted, item.kind = .testResult := by
  have hnothing : ∃ noted, facts.evidence = facts.evidence ++ noted ∧
      ∀ item ∈ noted, item.kind = EvidenceKind.testResult :=
    ⟨[], (List.append_nil _).symm, by simp⟩
  unfold WorkerFacts.note
  split
  · split
    · exact hnothing
    · split
      · split <;> exact hnothing
      · exact hnothing
  · split
    next callId toolName success exitCode error iteration created modified hpayload hruns =>
      refine ⟨[testEvidence agentId toolName success exitCode (facts.pendingOf callId)], ?_,
        fun item hitem => by rw [List.mem_singleton.mp hitem]; rfl⟩
      simp only
      split
      · rfl
      · split <;> rfl
    · exact hnothing
  · split
    · exact hnothing
    · split <;> exact hnothing
  · exact hnothing

/-- Every item of evidence read from events is a test result. -/
theorem ofEvents_evidence (events : List TrajectoryEvent) :
    ∀ item ∈ (WorkerFacts.ofEvents agentId events).evidence, item.kind = .testResult := by
  have hfold : ∀ facts : WorkerFacts, (∀ item ∈ facts.evidence, item.kind = .testResult) →
      ∀ item ∈ (events.foldl (WorkerFacts.note agentId) facts).evidence,
        item.kind = .testResult := by
    induction events with
    | nil => exact fun facts h => h
    | cons event events ih =>
      intro facts h
      refine ih _ fun item hitem => ?_
      obtain ⟨noted, hnoted, hkinds⟩ := facts.note_evidence event
      rw [hnoted, List.mem_append] at hitem
      exact hitem.elim (h item) (hkinds item)
  exact hfold {} (by simp)

end Facts

/-! ## Facts of one execution -/

/-- The events are those that this execution recorded, and a tool call or a
result among them is of a call it executed, on its own staging copy. -/
structure OfExecution (inv : Invocation) (effects : List LoopEffect)
    (events : List TrajectoryEvent) : Prop where
  emitted : ∀ event ∈ events, event ∈ emittedEvents effects
  calls : ∀ event ∈ events, event.payload.isToolCall = true →
    ∃ c ∈ executedCalls effects, RecordsCall inv IsCallPayload event c
  results : ∀ event ∈ events, event.payload.isToolResult = true →
    ∃ c ∈ executedCalls effects, RecordsCall inv IsResultPayload event c

/-- The commands, the test evidence, the skills and the verification plan of the
run are read from events of the execution alone. -/
def FromThisExecution (inv : Invocation) (available : List String) (effects : List LoopEffect)
    (r : WorkerRun) : Prop :=
  ∃ events, OfExecution inv effects events ∧
    r.commandsRun = (WorkerFacts.ofEvents inv.agentId events).commands ∧
    r.result.evidence.filter (·.kind = .testResult) =
      (WorkerFacts.ofEvents inv.agentId events).evidence ∧
    r.result.usedSkillRefs =
      (WorkerFacts.ofEvents inv.agentId events).skills.filter (· ∈ available) ∧
    r.verificationPlan = (WorkerFacts.ofEvents inv.agentId events).verificationPlan

/-- No event in the log of that agent and invocation bears a fact. -/
def SilentFor (log : List TrajectoryEvent) (agentId invocationId : String) : Prop :=
  ∀ event ∈ log, event.isOf agentId invocationId → event.bearsFact = false

section Execution

variable {inv : Invocation} {effects : List LoopEffect}

theorem Traced.ofExecution (h : Traced inv effects) {events : List TrajectoryEvent}
    (hemitted : ∀ event ∈ events, event ∈ emittedEvents effects) :
    OfExecution inv effects events where
  emitted := hemitted
  calls event hevent hcall := by
    have hpaired := h.toolCalls
    unfold Paired at hpaired
    rw [List.filter_true] at hpaired
    exact exists_mem_of_forall₂ hpaired (List.mem_filter.mpr ⟨hemitted event hevent, hcall⟩)
  results event hevent hresult := by
    obtain ⟨c, hc, hrecords⟩ := exists_mem_of_forall₂ h.toolResults
      (List.mem_filter.mpr ⟨hemitted event hevent, hresult⟩)
    exact ⟨c, List.mem_of_mem_filter hc, hrecords⟩

/-- Behind a silent log the facts are read from what the execution emitted. -/
theorem traceFromEvents_silent (h : Traced inv effects) {log : List TrajectoryEvent}
    (hsilent : SilentFor log inv.agentId inv.invocationId) :
    ∃ events, OfExecution inv effects events ∧
      traceFromEvents (recordEffects log effects) inv.agentId inv.invocationId =
        WorkerFacts.ofEvents inv.agentId events := by
  refine ⟨_, h.ofExecution ?_, (foldl_note_filter _ _).symm⟩
  intro event hevent
  obtain ⟨hevent, hbears⟩ := List.mem_filter.mp hevent
  obtain ⟨hlisted, hown⟩ := List.mem_filter.mp hevent
  rw [mem_listEvents, recordEffects_eq, List.mem_append] at hlisted
  rcases hlisted with hold | hadded
  · rw [hsilent event hold hown] at hbears
    cases hbears
  · exact (Journal.added_sublist _ _).subset hadded

theorem fromThis_unfinished (ctx : WorkerContext) (status : WorkerTaskStatus) (summary : String)
    (available : List String) :
    FromThisExecution inv available effects (unfinishedRun ctx status summary) :=
  ⟨[], ⟨by simp, by simp, by simp⟩, rfl, rfl, rfl, rfl⟩

theorem fromThis_finished (ctx : WorkerContext) (env : WorkerEnv) (status : WorkerTaskStatus)
    (summary risk : String) {semantic : List EvidenceItem} {available : List String}
    {log : List TrajectoryEvent} (edits : List FileEdit)
    (hsemantic : ∀ item ∈ semantic, item.kind ≠ .testResult) (h : Traced inv effects)
    (hsilent : SilentFor log inv.agentId inv.invocationId) :
    FromThisExecution inv available effects (finishedRun ctx env status summary risk semantic
      (harnessFacts (recordEffects log effects) inv.agentId inv.invocationId available) edits) := by
  obtain ⟨events, hevents, hfacts⟩ := traceFromEvents_silent h hsilent
  refine ⟨events, hevents, ?_, ?_, ?_, ?_⟩
  · simp only [finishedRun, harnessFacts, hfacts]
  · have hnone : semantic.filter (·.kind = .testResult) = [] := by
      simpa [List.filter_eq_nil_iff] using hsemantic
    have hall : (WorkerFacts.ofEvents inv.agentId events).evidence.filter
        (·.kind = .testResult) = (WorkerFacts.ofEvents inv.agentId events).evidence := by
      rw [List.filter_eq_self]
      intro item hitem
      exact decide_eq_true (ofEvents_evidence events item hitem)
    simp only [finishedRun, harnessFacts, hfacts, List.filter_append, hnone, hall,
      List.nil_append]
  · simp only [finishedRun, harnessFacts, hfacts]
  · simp only [finishedRun, harnessFacts, hfacts]

/-- What a repair recovers from its staging copy carries the harness facts. -/
theorem fromThis_recovered {ctx : WorkerContext} {env : WorkerEnv} {available : List String}
    {log : List TrajectoryEvent} {exhausted : Bool} {recovered : WorkerRun}
    (h : Traced inv effects) (hsilent : SilentFor log inv.agentId inv.invocationId)
    (hrecovered : recoverRepair ctx env
      (harnessFacts (recordEffects log effects) inv.agentId inv.invocationId available) exhausted =
        .ok (some recovered)) :
    FromThisExecution inv available effects recovered := by
  unfold recoverRepair at hrecovered
  split at hrecovered
  · split at hrecovered
    · cases hrecovered
      exact fromThis_unfinished _ _ _ _
    · cases hrecovered
  · split at hrecovered
    · cases hrecovered
    · cases hrecovered
      exact fromThis_finished _ _ _ _ _ _ (by simp) h hsilent

theorem fromThis_raised {ctx : WorkerContext} {env : WorkerEnv} {available : List String}
    {log : List TrajectoryEvent} {e : PyError} {r : WorkerRun} (h : Traced inv effects)
    (hsilent : SilentFor log inv.agentId inv.invocationId)
    (hreturned : workerRaised ctx env
      (harnessFacts (recordEffects log effects) inv.agentId inv.invocationId available) e =
        .returned r) :
    FromThisExecution inv available effects r := by
  unfold workerRaised at hreturned
  split at hreturned
  next message =>
    split at hreturned
    · cases hreturned
      exact fromThis_unfinished _ _ _ _
    · split at hreturned
      · cases hreturned
      next recovered hrecovered =>
        cases recovered with
        | none =>
          cases hreturned
          exact fromThis_unfinished _ _ _ _
        | some recovered =>
          cases hreturned
          exact fromThis_recovered h hsilent hrecovered
  next message =>
    split at hreturned
    · cases hreturned
    · split at hreturned
      · cases hreturned
      · cases hreturned
      next recovered hrecovered =>
        cases hreturned
        exact fromThis_recovered h hsilent hrecovered
  · split at hreturned
    · cases hreturned
      exact fromThis_unfinished _ _ _ _
    · cases hreturned

end Execution

/-- Behind a silent log every run reports facts of its own execution. -/
theorem executeWorker_fromThis {settings : WorkerSettings} {ctx : WorkerContext} {env : WorkerEnv}
    {budget : Option RunRepairBudget} {log : List TrajectoryEvent} {r : WorkerRun}
    {effects : List LoopEffect} (hsilent : SilentFor log ctx.agentId ctx.invocationId)
    (h : executeWorker settings ctx env budget log = (.returned r, effects)) :
    FromThisExecution (workerInvocation settings ctx) ctx.recommendedSkills effects r := by
  unfold executeWorker at h
  simp only at h
  split at h
  · cases h
    exact fromThis_unfinished _ _ _ _
  · split at h
    · cases h
      exact fromThis_unfinished _ _ _ _
    · cases h
    · have htraced := runLoop_traced (workerInvocation settings ctx) env.loop
        ⟨budget, some (taskBudget settings ctx.task budget)⟩
      have hsilent : SilentFor log (workerInvocation settings ctx).agentId
        (workerInvocation settings ctx).invocationId := hsilent
      have hsemantic : ∀ item ∈ env.report.evidence.filter (·.kind ≠ .testResult),
          item.kind ≠ .testResult := fun item hitem => by
        simpa using (List.mem_filter.mp hitem).2
      split at h
      · obtain ⟨hreturned, rfl⟩ := Prod.mk.injEq .. ▸ h
        exact fromThis_raised htraced hsilent hreturned
      · split at h
        · obtain ⟨hreturned, rfl⟩ := Prod.mk.injEq .. ▸ h
          exact fromThis_raised htraced hsilent hreturned
        · cases h
          exact fromThis_finished _ _ _ _ _ _ hsemantic htraced hsilent
        · cases h
          exact fromThis_finished _ _ _ _ _ _ hsemantic htraced hsilent

/-- Without an invocation id the loop does nothing and no fact is read. -/
theorem fromThis_blank {settings : WorkerSettings} {ctx : WorkerContext} {env : WorkerEnv}
    {budget : Option RunRepairBudget} {log : List TrajectoryEvent} {r : WorkerRun}
    {effects : List LoopEffect} (hid : strip ctx.invocationId = "")
    (h : executeWorker settings ctx env budget log = (.returned r, effects)) :
    FromThisExecution (workerInvocation settings ctx) ctx.recommendedSkills effects r := by
  have hid : strip (workerInvocation settings ctx).invocationId = "" := hid
  unfold executeWorker runLoop at h
  simp only [if_pos hid] at h
  split at h
  · cases h
    exact fromThis_unfinished _ _ _ _
  · split at h
    · cases h
      exact fromThis_unfinished _ _ _ _
    · cases h
    · obtain ⟨hreturned, rfl⟩ := Prod.mk.injEq .. ▸ h
      cases hreturned
      exact fromThis_unfinished _ _ _ _

/-! ## An execution without tool calls -/

/-- A model that reports at once. -/
def quietLoop : LoopEnv where
  nextAction _ := .response []
  invoke _ := .rejected ""
  finalize := .report none

def quietEffects (inv : Invocation) : List LoopEffect :=
  [.sends, .emits (inv.event .modelCall (turnKey 1) 1), .sends,
    .emits (inv.event .modelCall finalKey 3)]

theorem runLoop_quiet (inv : Invocation) (hid : strip inv.invocationId ≠ "")
    (hiterations : inv.maxIterations = 8) (htools : inv.maxToolCalls = 16) :
    (runLoop inv quietLoop ⟨none, some ⟨9, 16, 0, 0⟩⟩).1.effects = quietEffects inv ∧
      (runLoop inv quietLoop ⟨none, some ⟨9, 16, 0, 0⟩⟩).2 = .ok none := by
  unfold runLoop
  rw [if_neg hid]
  have hlimits : callLimits inv ⟨none, some ⟨9, 16, 0, 0⟩⟩ = .ok (8, 16) := by
    simp [callLimits, hiterations, htools, finalizationModelCalls]
  rw [hlimits]
  exact ⟨rfl, rfl⟩

def quietSettings : WorkerSettings := ⟨8, 16⟩

def quietContext (runId taskId invocationId : String) (recommendedSkills : List String) :
    WorkerContext where
  runId
  invocationId
  task := { taskId, kind := .repair, writeScope := ["a.py"] }
  recommendedSkills

/-- The quiet execution returns the facts of the log behind it. -/
theorem executeWorker_quiet (runId taskId invocationId : String) (available : List String)
    (log : List TrajectoryEvent) (hid : strip invocationId ≠ "") :
    let ctx := quietContext runId taskId invocationId available
    let effects := quietEffects (workerInvocation quietSettings ctx)
    executeWorker quietSettings ctx { loop := quietLoop } none log =
      (.returned (finishedRun ctx { loop := quietLoop } .completed "" "low" []
        (harnessFacts (recordEffects log effects) ctx.agentId invocationId available) []),
        effects) := by
  intro ctx effects
  obtain ⟨heffects, hended⟩ := runLoop_quiet (workerInvocation quietSettings ctx) hid rfl rfl
  have hbudget : taskBudget quietSettings ctx.task none = ⟨9, 16, 0, 0⟩ := rfl
  unfold executeWorker
  simp only [hbudget]
  rw [if_neg (by decide)]
  simp only [heffects, hended]
  rfl

/-- A quiet execution reports no fact if it reports those of its own tool calls. -/
theorem bare_of_quiet {inv : Invocation} {ctx : WorkerContext} {env : WorkerEnv}
    {available : List String} {facts : WorkerFacts}
    (hkinds : ∀ item ∈ facts.evidence, item.kind = .testResult)
    (h : FromThisExecution inv available (quietEffects inv)
      (finishedRun ctx env .completed "" "low" [] facts [])) : facts.Bare := by
  obtain ⟨events, hevents, hcommands, hevidence, hskills, -⟩ := h
  have hnone : ∀ event ∈ events, event.bearsFact = false := by
    intro event hevent
    have hemitted := hevents.emitted event hevent
    simp only [quietEffects, emittedEvents, List.filterMap_cons, List.filterMap_nil,
      List.mem_cons, List.not_mem_nil, or_false] at hemitted
    rcases hemitted with rfl | rfl <;> rfl
  rw [ofEvents_silent hnone] at hcommands hevidence hskills
  refine ⟨hcommands, ?_, hskills⟩
  have hall : facts.evidence.filter (·.kind = .testResult) = facts.evidence :=
    List.filter_eq_self.mpr fun item hitem => decide_eq_true (hkinds item hitem)
  rw [← hall]
  exact hevidence

/-- Every repair execution of a task and an invocation reports facts of its own tool
calls only, whatever model, tools and budgets do, exactly when the log it starts
from holds no event of that agent and invocation that bears a fact. -/
theorem facts_of_execution_iff (runId taskId invocationId : String) (log : List TrajectoryEvent) :
    (∀ settings ctx env budget r effects, ctx.runId = runId → ctx.task.taskId = taskId →
      ctx.invocationId = invocationId → ctx.task.kind = .repair →
      executeWorker settings ctx env budget log = (.returned r, effects) →
        FromThisExecution (workerInvocation settings ctx) ctx.recommendedSkills effects r) ↔
      (strip invocationId ≠ "" → SilentFor log ("worker:" ++ taskId) invocationId) := by
  constructor
  · intro hall hid
    -- a quiet execution whose context recommends every skill of the log
    let inv := workerInvocation quietSettings (quietContext runId taskId invocationId [])
    let facts := traceFromEvents (recordEffects log (quietEffects inv)) inv.agentId invocationId
    have hquiet := executeWorker_quiet runId taskId invocationId facts.skills log hid
    have hreported : (harnessFacts (recordEffects log (quietEffects inv)) inv.agentId invocationId
        facts.skills).Bare :=
      bare_of_quiet (ofEvents_evidence _) (hall _ _ _ _ _ _ rfl rfl rfl rfl hquiet)
    have hskills : facts.skills = [] := by
      have hkept : facts.skills.filter (· ∈ facts.skills) = facts.skills :=
        List.filter_eq_self.mpr fun skillId hin => decide_eq_true hin
      rw [← hkept]
      exact hreported.skills
    have hbare : facts.Bare := ⟨hreported.commands, hreported.evidence, hskills⟩
    intro event hevent hown
    refine (foldl_note_bare _ {} hbare).2 event (List.mem_filter.mpr ⟨?_, hown⟩)
    rw [mem_listEvents, recordEffects_eq]
    exact List.mem_append_left _ hevent
  · intro hsilent settings ctx env budget r effects _ htask hinvocation _ hreturned
    subst htask hinvocation
    by_cases hid : strip ctx.invocationId = ""
    · exact fromThis_blank hid hreturned
    · exact executeWorker_fromThis (hsilent hid) hreturned

namespace Sample

/-- An edit of the second execution. -/
def workerEdit : FileEdit := .replace "a.py" "fixed" none

/-- The first execution: its test passes on its staging copy, and the process dies
before the report. -/
def interrupted : List LoopEffect :=
  ((runLoop invocation (testing ["c"] thenFailing) {}).1.effects).take 5

/-- The node runs again under the same ids, and the model reports without a test. -/
def reexecuted : WorkerOutcome × List LoopEffect :=
  executeWorker quietSettings (quietContext "run" "t" "worker:1:t" [])
    { loop := quietLoop, collected := .ok [workerEdit] } none (recordEffects [] interrupted)

def reported (outcome : WorkerOutcome × List LoopEffect) : Option WorkerRun :=
  match outcome.1 with
  | .returned run => some run
  | .raised _ => none

/-- The run reports the test of the discarded staging copy for its own edits. -/
theorem stale_test_reported :
    (∃ r, reexecuted.1 = .returned r ∧ r.edits = [workerEdit] ∧
      r.commandsRun = ["test"] ∧
      r.result.evidence.map EvidenceItem.claim = ["run_test passed with exit code 0"] ∧
      r.verificationPlan.map VerificationCommandSpec.argv = [["test"]] ∧
      ¬ FromThisExecution (workerInvocation quietSettings (quietContext "run" "t" "worker:1:t" []))
        [] reexecuted.2 r) ∧
    executedCalls reexecuted.2 = [] := by
  have hreport : ((reported reexecuted).any fun r => r.edits = [workerEdit] ∧
      r.commandsRun = ["test"] ∧
      r.result.evidence.map EvidenceItem.claim = ["run_test passed with exit code 0"] ∧
      r.verificationPlan.map VerificationCommandSpec.argv = [["test"]]) = true := by
    decide +kernel
  have hsilent : ∀ event ∈ emittedEvents reexecuted.2, event.bearsFact = false := by
    decide +kernel
  obtain ⟨r, hr, hfacts⟩ := (Option.any_eq_true _ _).mp hreport
  obtain ⟨hedits, hcommands, hevidence, hplan⟩ := of_decide_eq_true hfacts
  refine ⟨⟨r, ?_, hedits, hcommands, hevidence, hplan, ?_⟩, by decide +kernel⟩
  · unfold reported at hr
    split at hr
    next run hrun =>
      cases hr
      exact hrun
    next => cases hr
  · rintro ⟨events, hevents, hread, -⟩
    rw [ofEvents_silent fun event hevent => hsilent event (hevents.emitted event hevent),
      hcommands] at hread
    cases hread

end Sample

end EvoCI
