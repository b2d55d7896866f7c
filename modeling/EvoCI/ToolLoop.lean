import EvoCI.Trajectory

/-! The bounded tool loop that supervisor and worker share: what one invocation
sends, executes and records, in order, for any answers of the model and its
tools. -/

namespace EvoCI

open Library

/-! ## What model and tools answer -/

structure ToolCallRequest where
  callId : String
  name : String
  arguments : CallArguments := {}
  deriving DecidableEq, Repr

/-- What the loop reads of a tool's serialised result; one that is no dictionary
reads like an empty dictionary. -/
structure ToolReturn where
  exitCode : Option Int := none
  timedOut : Bool := false
  stderr : String := ""
  createdFiles : List String := []
  modifiedFiles : List String := []
  deriving DecidableEq, Repr

/-- What `ainvoke` of a tool comes to: a result, a `PolicyViolation` or
`ValidationError`, another exception that the loop handles, or one that leaves it. -/
inductive ToolAnswer where
  | returned (result : ToolReturn)
  | rejected (error : String)
  | failed (error : String)
  | raised (e : PyError)
  deriving DecidableEq, Repr

/-- What `next_action` comes to. A cancellation is no `Exception`. -/
inductive TurnAnswer where
  | response (toolCalls : List ToolCallRequest)
  | raised (e : PyError)
  | cancelled

/-- What `finalize` comes to; the report of a worker claims the skills it used. -/
inductive FinalAnswer where
  | report (claimed : Option (List String))
  | raised (e : PyError)
  | cancelled

/-- The world's part in one invocation: the answer at each iteration, to each
tool call, and to the final request, the skills the registry has activated, and
the clock behind the events' timestamps. -/
structure LoopEnv where
  nextAction : Nat → TurnAnswer
  invoke : Nat → ToolAnswer
  finalize : FinalAnswer
  activatedSkills : List String := []
  clock : Nat → Nat := id

/-! ## Budgets -/

/-- `CombinedBudget`: the run's budget and the task's. -/
structure LoopBudgets where
  run : Option RunRepairBudget := none
  task : Option RunRepairBudget := none
  deriving DecidableEq, Repr

def taskModelMessage : String := "task-level model-call budget exhausted"

def taskToolMessage : String := "task-level tool-call budget exhausted"

/-- Consumes from the run's budget, then from the task's. -/
def LoopBudgets.consume (b : LoopBudgets) (message : String)
    (spend : RunRepairBudget → Except PyError RunRepairBudget) : LoopBudgets × Option PyError :=
  match b.run.mapM spend with
  | .error e => (b, some e)
  | .ok run =>
    match b.task.mapM spend with
    | .error _ => ({ b with run }, some (.repairBudgetExhausted message))
    | .ok task => (⟨run, task⟩, none)

def LoopBudgets.consumeModelCall (b : LoopBudgets) : LoopBudgets × Option PyError :=
  b.consume taskModelMessage RunRepairBudget.consumeModelCall

def LoopBudgets.consumeToolCall (b : LoopBudgets) : LoopBudgets × Option PyError :=
  b.consume taskToolMessage RunRepairBudget.consumeToolCall

def finalizationModelCalls : Nat := 1

/-! ## One invocation -/

/-- The settings of the agent and the arguments of `run`. -/
structure Invocation where
  runId : String
  agentId : String
  invocationId : String
  maxIterations : Nat
  maxToolCalls : Nat
  deriving DecidableEq, Repr

/-- An event that `emit` records for the invocation. -/
def Invocation.event (inv : Invocation) (payload : TrajectoryPayload) (eventKey : String)
    (time : Nat) : TrajectoryEvent where
  eventId := emittedId inv.runId inv.agentId inv.invocationId payload.type eventKey
  agentId := inv.agentId
  invocationId := inv.invocationId
  timestamp := time
  payload

/-- What an invocation does to the world, in order. -/
inductive LoopEffect where
  /-- A request reaches the gateway. -/
  | sends
  | executes (call : ToolCallRequest) (answer : ToolAnswer)
  | emits (event : TrajectoryEvent)
  deriving DecidableEq, Repr

structure LoopState where
  budgets : LoopBudgets
  toolCount : Nat := 0
  usedSkills : List String := []
  selectedSkills : List String := []
  effects : List LoopEffect := []

def LoopState.perform (st : LoopState) (effect : LoopEffect) : LoopState :=
  { st with effects := st.effects ++ [effect] }

def LoopState.emit (inv : Invocation) (env : LoopEnv) (st : LoopState)
    (payload : TrajectoryPayload) (eventKey : String) : LoopState :=
  st.perform (.emits (inv.event payload eventKey (env.clock st.effects.length)))

/-- The locals that the loop fills from a tool's answer. -/
structure CallResult where
  success : Bool := false
  exitCode : Option Int := none
  error : Option String := none
  rejected : Bool := false
  returned : Bool := false
  createdFiles : List String := []
  modifiedFiles : List String := []
  deriving DecidableEq, Repr

/-- `_result_success`. -/
def resultSuccess (result : ToolReturn) : Bool × Option Int × Option String :=
  let success := (result.exitCode = none ∨ result.exitCode = some 0) && !result.timedOut
  (success, result.exitCode,
    if success then none
    else some (textOr (some result.stderr) "tool returned a non-zero exit status"))

/-- The two handlers around a tool call; an exception they do not name leaves
the loop. -/
def ToolAnswer.result (toolName : String) : ToolAnswer → Except PyError CallResult
  | .returned result =>
    let (success, exitCode, error) := resultSuccess result
    .ok { success, exitCode, error, returned := true, createdFiles := result.createdFiles,
          modifiedFiles := result.modifiedFiles }
  | .rejected error => .ok { error := some error, rejected := true }
  | .failed error =>
    .ok { error := some error
          rejected := toolName ∈ ["run_skill_script", "read_skill_resource", "load_skill"] }
  | .raised e => .error e

def toolCallPayload (call : ToolCallRequest) : TrajectoryPayload :=
  .toolCall call.callId call.name call.arguments

def toolResultPayload (call : ToolCallRequest) (result : CallResult) (iteration : Nat) :
    TrajectoryPayload :=
  .toolResult call.callId call.name result.success result.exitCode result.error iteration
    result.createdFiles result.modifiedFiles

/-- The payload and the key of the skill event behind a tool call. -/
def skillPayload? (selectedSkills : List String) (call : ToolCallRequest) (result : CallResult) :
    Option (TrajectoryPayload × String) :=
  if call.name = "load_skill" then
    if result.rejected ∨ result.success = false then
      some (.skillInvocationRejected call.arguments.loadedSkill result.error, call.callId)
    else
      match call.arguments.loadedSkill with
      | some skillId =>
        if skillId ≠ "" ∧ skillId ∉ selectedSkills then
          some (.skillSelected [skillId], "select:" ++ skillId)
        else none
      | none => none
  else if call.name = "run_skill_script" then
    if result.rejected ∨ result.returned = false then
      some (.skillInvocationRejected call.arguments.scriptSkill result.error, call.callId)
    else
      call.arguments.scriptSkill.map fun skillId =>
        (.skillUsed ([skillId].filter (· ≠ "")) (some .script) call.arguments.scriptName
          (some result.success), call.callId)
  else none

/-- Everything after the answer to a tool call. -/
def finishCall (inv : Invocation) (env : LoopEnv) (iteration : Nat) (call : ToolCallRequest)
    (result : CallResult) (st : LoopState) : LoopState :=
  let answered := st.emit inv env (toolResultPayload call result iteration) call.callId
  match skillPayload? st.selectedSkills call result with
  | none => answered
  | some (payload, key) =>
    let noted := answered.emit inv env payload key
    match payload with
    | .skillSelected skillIds => { noted with selectedSkills := st.selectedSkills ++ skillIds }
    | .skillUsed .. =>
      { noted with usedSkills := st.usedSkills ++ call.arguments.scriptSkill.toList }
    | _ => noted

/-- How the calls of a turn, or all turns, end. -/
inductive TurnEnd where
  | next
  | finalize
  | raised (e : PyError)

def toolBudgetReason : String := "leaf tool-call budget exhausted"

def runCalls (inv : Invocation) (env : LoopEnv) (maxTools iteration : Nat) :
    List ToolCallRequest → LoopState → LoopState × TurnEnd
  | [], st => (st, .next)
  | call :: rest, st =>
    let counted := { st with toolCount := st.toolCount + 1 }
    if maxTools < counted.toolCount then
      (counted.emit inv env (.attemptFailed toolBudgetReason iteration) s!"tool-budget:{iteration}",
        .finalize)
    else
      match counted.budgets.consumeToolCall with
      | (budgets, some e) => ({ counted with budgets }, .raised e)
      | (budgets, none) =>
        let called := { counted with budgets }.emit inv env (toolCallPayload call) call.callId
        let answer := env.invoke counted.toolCount
        let executed := called.perform (.executes call answer)
        match answer.result call.name with
        | .error e => (executed, .raised e)
        | .ok result =>
          runCalls inv env maxTools iteration rest
            (finishCall inv env iteration call result executed)

def turnKey (iteration : Nat) : String := s!"tool-turn:{iteration}"

/-- The iterations from `iteration` on; the first argument is how many remain. -/
def runTurns (inv : Invocation) (env : LoopEnv) (maxTools : Nat) :
    Nat → Nat → LoopState → LoopState × TurnEnd
  | 0, _, st => (st, .next)
  | remaining + 1, iteration, st =>
    match st.budgets.consumeModelCall with
    | (budgets, some e) => ({ st with budgets }, .raised e)
    | (budgets, none) =>
      let sent := { st with budgets }.perform .sends
      match env.nextAction iteration with
      | .cancelled => (sent, .raised .cancelled)
      | .raised e => (sent.emit inv env .modelCall (turnKey iteration), .raised e)
      | .response toolCalls =>
        let answered := sent.emit inv env .modelCall (turnKey iteration)
        if toolCalls = [] then (answered, .finalize)
        else
          match runCalls inv env maxTools iteration toolCalls answered with
          | (st', .next) => runTurns inv env maxTools remaining (iteration + 1) st'
          | ended => ended

def finalKey : String := "structured-final"

/-- The skills that the report claims and the invocation activated. -/
def validClaimed (env : LoopEnv) (st : LoopState) (claimed : List String) : List String :=
  (claimed.dedup.filter fun skillId =>
    skillId ∈ env.activatedSkills ++ st.selectedSkills).insertionSort (· ≤ ·)

/-- Records the use of claimed skills as procedures. -/
def recordProcedures (inv : Invocation) (env : LoopEnv) : List String → LoopState → LoopState
  | [], st => st
  | skillId :: rest, st =>
    recordProcedures inv env rest
      (st.emit inv env
        (.skillUsed ([skillId].filter (· ≠ "")) (some .procedure) none none)
        ("method-use:" ++ skillId))

/-- The structured final request. The handler around it also records a request
that the budget refuses. -/
def finalizeLoop (inv : Invocation) (env : LoopEnv) (st : LoopState) :
    LoopState × Except PyError (Option (List String)) :=
  match st.budgets.consumeModelCall with
  | (budgets, some e) => ({ st with budgets }.emit inv env .modelCall finalKey, .error e)
  | (budgets, none) =>
    let sent := { st with budgets }.perform .sends
    match env.finalize with
    | .cancelled => (sent, .error .cancelled)
    | .raised e => (sent.emit inv env .modelCall finalKey, .error e)
    | .report claimed =>
      let answered := sent.emit inv env .modelCall finalKey
      match claimed with
      | none => (answered, .ok none)
      | some claimed =>
        let valid := validClaimed env answered claimed
        (recordProcedures inv env (valid.filter fun skillId => skillId ∉ st.usedSkills) answered,
          .ok (some ((valid ++ st.usedSkills).dedup.insertionSort (· ≤ ·))))

/-- The number of turns and of tool calls an invocation may take. -/
def callLimits (inv : Invocation) (budgets : LoopBudgets) : Except PyError (Nat × Nat) :=
  let (actions, maxTools) :=
    match budgets.task with
    | none => (inv.maxIterations, inv.maxToolCalls)
    | some task =>
      (min inv.maxIterations (task.maxModelCalls - finalizationModelCalls),
        min inv.maxToolCalls task.maxToolCalls)
  let checked (actions : Nat) : Except PyError (Nat × Nat) :=
    if actions < 1 ∨ maxTools < 1 then .error (.repairBudgetExhausted taskModelMessage)
    else .ok (actions, maxTools)
  match budgets.run with
  | none => checked actions
  | some run =>
    let remaining := run.maxModelCalls - run.modelCalls
    if remaining < 1 + finalizationModelCalls then
      .error (.repairBudgetExhausted modelMessage)
    else checked (min actions (remaining - finalizationModelCalls))

/-- `BoundedToolAgent.run`. The value is the list of used skills that goes into
the report, if its schema has one. -/
def runLoop (inv : Invocation) (env : LoopEnv) (budgets : LoopBudgets) :
    LoopState × Except PyError (Option (List String)) :=
  if strip inv.invocationId = "" then
    ({ budgets }, .error (.valueError "invocation_id must be a stable non-empty identifier"))
  else
    match callLimits inv budgets with
    | .error e => ({ budgets }, .error e)
    | .ok (actions, maxTools) =>
      match runTurns inv env maxTools actions 1 { budgets } with
      | (st, .raised e) => (st, .error e)
      | (st, .next) | (st, .finalize) => finalizeLoop inv env st

end EvoCI
