import EvoCI.Capability.Usage
import EvoCI.Graph.Nodes
import EvoCI.Memory.Store
import EvoCI.Trajectory

/-! What a finished run teaches: `persist_run_outcome` stores an episode, records the use of
skills, commits a fact about the repository, lets the miner change a skill and writes the
skills' usage memory. Each stage reports what goes wrong in it and leaves the next ones to
run, except that a lost episode is critical. -/

namespace EvoCI

open Library

/-! ## The runtime -/

/-- The settings, and which parts of the runtime are there. -/
structure OutcomeConfig where
  registry : RegistryConfig
  memory : MemoryConfig
  memoryStore : Bool := true
  memoryConsolidator : Bool := true
  capabilityRegistry : Bool := true
  skillMiner : Bool := true

/-- The arguments of `persist_run_outcome`, with what it reads of the repository and of the
CI failure. -/
structure RunOutcome where
  runId : String
  repo : String
  taskFamily : String
  summary : String
  state : EvoCIState
  success : Bool
  failureReason : Option String := none
  failureClass : Option FailureClass := none
  externalFailureDetails : List String := []

/-- The calls to the registry. -/
inductive OutcomeCall where
  | use (skillId : String)
  | decision
  | skill
  | lesson (skillId : String)
  deriving DecidableEq

/-- The world's part in one execution: the clock behind the events, what the models answer
and how the stores' calls go. -/
structure OutcomeEnv where
  clock : Nat → Nat
  memory : MemoryAnswers
  host : OutcomeCall → HostAnswers
  proposal : Except Raised LongTermFactCandidate
  /-- The miner's answer. -/
  decision : Except Raised SkillLearningDecision
  /-- Its answer to the content repair. -/
  repaired : Except Raised SkillLearningDecision
  createdAt : String

structure LearningStores where
  log : List TrajectoryEvent
  memory : MemoryStore
  registry : Registry

inductive OutcomeStep where
  | event
  | memory (step : MemoryStep)
  | registry (step : RegistryStep)
  deriving DecidableEq

abbrev OutcomeM := Durable OutcomeStep LearningStores Raised

def LearningStores.withMemory (memory : MemoryStore) (s : LearningStores) : LearningStores :=
  { s with memory }

def LearningStores.withRegistry (registry : Registry) (s : LearningStores) : LearningStores :=
  { s with registry }

/-- `type(exc).__name__` and `str(exc)`. -/
def RegistryError.shown : RegistryError → Raised
  | .capability message => ⟨"CapabilityRegistryError", message⟩
  | .policyViolation message => ⟨"PolicyViolation", message⟩
  | .keyError message => ⟨"KeyError", "'" ++ message ++ "'"⟩
  | .raised kind message => ⟨kind, message⟩

def onMemory {α : Type} (m : MemoryM α) : OutcomeM α :=
  Durable.within OutcomeStep.memory LearningStores.memory LearningStores.withMemory id m

def onRegistry {α : Type} (m : RegistryM α) : OutcomeM α :=
  Durable.within OutcomeStep.registry LearningStores.registry LearningStores.withRegistry
    RegistryError.shown m

/-! ## What the run did -/

def truthyList (items : List String) : Bool := items ≠ []

/-- `resolved_class`. -/
def RunOutcome.resolvedClass (o : RunOutcome) : Option FailureClass :=
  o.failureClass.or (if o.success then none else some (resolveFailureClass o.state))

/-- The classes of outcomes that teach nothing about skills. -/
def RunOutcome.ungraded (o : RunOutcome) : Bool :=
  o.resolvedClass ∈ [some .infrastructure, some .model, some .budget]

def hasPatch (s : EvoCIState) : Bool :=
  s.fixerOutput.isSome || s.workerResults.any fun result => truthyList result.changedFiles

def hasVerification (s : EvoCIState) : Bool :=
  s.verification.isSome || !s.verificationHistory.isEmpty

def hasDomainAttempt (s : EvoCIState) : Bool :=
  s.fixerOutput.isSome || s.verification.isSome || !s.verificationHistory.isEmpty ||
    !s.workerResults.isEmpty || !s.evidence.isEmpty || s.decision.isSome

def shouldPersistEpisode (success : Bool) (failureClass : Option FailureClass) (s : EvoCIState) :
    Bool :=
  if success then true
  else
    match failureClass with
    | some .model => hasPatch s && hasVerification s
    | some .infrastructure => false
    | some .budget => hasDomainAttempt s
    | some .policy => hasPatch s
    | _ => true

/-- `clip_text`. -/
def clipText (value : String) (limit : Nat) : String :=
  let text := strip value
  if text.length ≤ limit then text
  else String.ofList (text.toList.take (limit - 15)) ++ "\n[truncated]"

def fieldLimit : Nat := 2000

/-- `clip_list`. -/
def clipList (values : List String) : List String :=
  ((values.take 20).map fun item => clipText item 400).filter (· ≠ "")

/-- The ids of `skills_used`, sorted. -/
def TrajectoryView.skillsUsed (view : TrajectoryView) : List String :=
  (view.skillUseTraces.map SkillUseTrace.skillId).dedup.insertionSort (· ≤ ·)

def sortedFiles (paths : List String) : List String := paths.dedup.insertionSort (· ≤ ·)

/-- Some execution of a script of the skill failed. -/
def TrajectoryView.explicitFailure (view : TrajectoryView) (skillId : String) : Bool :=
  view.skillUseTraces.any fun trace =>
    trace.skillId = skillId && trace.executionSuccess = some false

def helperMarkers : List String := ["helper", "diagnostic", "inspect", "analy", "script", "tool"]

/-- `reusable_script_created`. -/
def TrajectoryView.reusableScriptCreated (lower : String → String) (view : TrajectoryView) : Bool :=
  view.createdFiles.any fun path =>
    (['.', 'p', 'y'] <:+ path.toList ∨ ['.', 's', 'h'] <:+ path.toList) &&
      helperMarkers.any fun marker => containsText marker (lower path)

/-- `sum(agent.tool_calls for agent in trajectory.agents)`. -/
def TrajectoryView.agentToolCalls (view : TrajectoryView) : Nat :=
  (view.agents.map fun item => item.2.toolCalls).sum

/-- The text of a node that ran last. -/
def Node.phaseText : Node → String
  | .bootstrap => "bootstrap"
  | .retrieveContext => "retrieve_context"
  | .supervise => "supervise"
  | .prepareTask => "prepare_task"
  | .worker => "worker"
  | .approval => "approval"
  | .applyCandidate => "apply_candidate"
  | .verify => "verify"
  | .rollback => "rollback"
  | .finalize => "finalize"
  | .failed => "failed"

def RunOutcome.failureStage (o : RunOutcome) : Option String :=
  if o.success then none else (o.state.failureStage.or o.state.phase).map Node.phaseText

def RunOutcome.verificationFailures (o : RunOutcome) : List String :=
  clipList (o.state.verificationHistory.flatMap fun history =>
    (history.commands.filter fun command => command.exitCode ≠ 0 ∨ command.timedOut).map
      fun command => textOr (some command.stderr) s!"exit code {command.exitCode}")

def RunOutcome.changeSummaries (o : RunOutcome) : List String :=
  clipList ((o.state.workerResults.filter fun result => truthyList result.changedFiles).map
    fun result => s!"{result.taskId}: " ++ ", ".intercalate result.changedFiles)

def RunOutcome.episodeId (o : RunOutcome) : String := s!"episode:{o.runId}"

def RunOutcome.episode (o : RunOutcome) (view : TrajectoryView) : Episode where
  id := o.episodeId
  runId := o.runId
  repo := o.repo
  taskFamily := o.taskFamily
  failureSummary := clipText o.summary fieldLimit
  rootCause := o.state.decision.map fun decision => clipText decision.reasoningSummary fieldLimit
  attempts := o.state.supervisorBatch
  successfulFixSummary :=
    if o.success then
      o.state.fixerOutput.map fun output => clipText output.proposal.summary fieldLimit
    else none
  toolsUsed := clipList (view.toolCalls.map fun item => item.2.toolName)
  hypothesesAttempted := clipList (o.state.decision.toList.map fun decision =>
    s!"{decision.action.text}: {decision.reasoningSummary}")
  verificationFailures := o.verificationFailures
  failureReason := o.failureReason.map fun reason => clipText reason fieldLimit
  success := o.success
  failureClass := o.resolvedClass.getD .repair
  failureStage := o.failureStage
  attemptedFixSummaries := o.changeSummaries
  attemptedFiles := clipList (sortedFiles view.createdFiles ++ sortedFiles view.modifiedFiles)
  externalFailureDetails := clipList o.externalFailureDetails

/-! ## Events -/

structure LearningError where
  stage : String
  errorType : String
  message : String
  deriving DecidableEq

/-- An event of this run, under its discriminator. -/
def OutcomeEnv.emit (env : OutcomeEnv) (o : RunOutcome) (payload : TrajectoryPayload)
    (discriminator : String) (agentId : Option String := none)
    (budgetScope : BudgetScope := .repair) : OutcomeM Unit :=
  Durable.effect .event fun s => .ok ((), { s with
    log := recordEvent s.log
      { eventId := emittedId o.runId agentId none payload.type discriminator
        agentId, invocationId := none, timestamp := env.clock s.log.length
        budgetScope, payload } })

inductive SkillAction where
  | created
  | updated
  deriving DecidableEq

/-- What the stages have come to so far. -/
structure Learned where
  episodeId : Option String := none
  candidateSkillId : Option String := none
  learningDecision : Option SkillLearningDecision := none
  learningErrors : List LearningError := []
  skillAction : Option SkillAction := none
  longTermFactsAdded : Nat := 0
  /-- The outcome of the last entry that was appended. -/
  skillMemoryAppended : Option String := none

/-- `learning_error`. -/
def learningError (env : OutcomeEnv) (o : RunOutcome) (l : Learned) (stage : String)
    (e : Raised) : OutcomeM Learned := do
  let errors := l.learningErrors ++
    [⟨stage, e.kind, if e.message = "" then e.kind else e.message⟩]
  env.emit o (.other "LearningError") s!"{stage}:{errors.length}"
  return { l with learningErrors := errors }

/-! ## The episode -/

def storeEpisode (cfg : OutcomeConfig) (env : OutcomeEnv) (o : RunOutcome)
    (view : TrajectoryView) (l : Learned) : OutcomeM Learned := do
  if cfg.memoryStore && shouldPersistEpisode o.success o.resolvedClass o.state then
    match ← Durable.attempt (onMemory (addEpisode cfg.memory env.memory (o.episode view))) with
    | .ok _ =>
      env.emit o (.other "MemoryCreated") "episode"
      return { l with episodeId := some o.episodeId }
    | .error e =>
      let _ ← learningError env o l "episode" e
      Durable.raise ⟨"RuntimeError", s!"Critical: failed to persist episode: {e.message}"⟩
  else return l

/-! ## Uses -/

/-- `_operation_key`. -/
def operationKey (keyType : String) (runId : String) : String := s!"{keyType}:{runId}"

def useKey (runId skillId : String) : String := s!"skill-use:{runId}:{skillId}"

/-- The outcome attributed to a used skill. -/
def RunOutcome.attributed (o : RunOutcome) (view : TrajectoryView) (skillId : String) : Bool :=
  o.success && !view.explicitFailure skillId

def TrajectoryView.patched (view : TrajectoryView) : Bool :=
  truthyList view.createdFiles || truthyList view.modifiedFiles

/-- The loop over the used skills; a registry that cannot be read ends it. -/
def recordUses (env : OutcomeEnv) (o : RunOutcome) (view : TrajectoryView) :
    List String → Learned → OutcomeM Learned
  | [], l => pure l
  | skillId :: rest, l => do
    let host := env.host (.use skillId)
    match ← Durable.attempt (onRegistry (getSkill host skillId)) with
    | .error e => learningError env o l "skill_outcomes" e
    | .ok none => recordUses env o view rest l
    | .ok (some _) =>
      match ← Durable.attempt (onRegistry (recordUse host skillId (o.attributed view skillId)
        view.patched (some (useKey o.runId skillId)))) with
      | .ok _ => recordUses env o view rest l
      | .error e =>
        let l ← learningError env o l s!"skill_use_{skillId}" e
        recordUses env o view rest l

def recordOutcomes (cfg : OutcomeConfig) (env : OutcomeEnv) (o : RunOutcome)
    (view : TrajectoryView) (l : Learned) : OutcomeM Learned :=
  if cfg.capabilityRegistry && !o.ungraded then recordUses env o view view.skillsUsed l
  else pure l

/-! ## A fact about the repository -/

/-- The candidate that an earlier execution recorded, or a new one, recorded before use. -/
def proposeFact (env : OutcomeEnv) (o : RunOutcome) : OutcomeM LongTermFactCandidate := do
  let key := operationKey "memory-decision" o.runId
  match ← onMemory (operationResult env.memory key) with
  | some (.proposed candidate) => return candidate
  | some (.committed ..) => Durable.raise ⟨"ValidationError", "type: field required"⟩
  | none =>
    env.emit o .modelCall "final" (some "memory-consolidator") .postRun
    onMemory (Durable.look fun _ => env.memory.check .readFacts)
    let candidate ← Durable.look fun _ => env.proposal
    let _ ← onMemory (recordMemoryOperation env.memory key (.proposed candidate))
    return candidate

def consolidate (cfg : OutcomeConfig) (env : OutcomeEnv) (o : RunOutcome) (l : Learned) :
    OutcomeM Learned := do
  if o.success && cfg.memoryStore && cfg.memoryConsolidator && o.state.verification.isSome then
    match ← Durable.attempt (do
      let candidate ← proposeFact env o
      onMemory (commitCandidate cfg.memory env.memory candidate o.runId o.repo
        (operationKey "memory-commit" o.runId))) with
    | .ok none => return l
    | .ok (some _) =>
      env.emit o (.other "MemoryCreated") "long-term"
      return { l with longTermFactsAdded := 1 }
    | .error e => learningError env o l "memory_consolidation" e
  else return l

/-! ## Mining -/

/-- `action_payload_is_complete`. -/
def SkillLearningDecision.Valid (d : SkillLearningDecision) : Prop :=
  match d.action with
  | .none => d.candidateSkill = none
  | .newSkill => d.candidateSkill.isSome ∧ d.targetSkillId = none
  | .updateSkill => d.candidateSkill.isSome ∧ truthy d.targetSkillId = true

instance (d : SkillLearningDecision) : Decidable d.Valid := by
  unfold SkillLearningDecision.Valid
  split <;> infer_instance

/-- `model_validate`. -/
def SkillLearningDecision.validated (d : SkillLearningDecision) :
    Except Raised SkillLearningDecision :=
  if d.Valid then .ok d else .error ⟨"ValidationError", "incomplete action payload"⟩

/-- `should_mine`. -/
def shouldMine (success : Bool) (failureClass : Option FailureClass) (skillsUsed : List String) :
    Bool :=
  if failureClass ∈ [some .infrastructure, some .model] then false
  else if success then true
  else failureClass ∈ [none, some .repair] && truthyList skillsUsed

/-- The decision with another action than it asks for: none. -/
def SkillLearningDecision.dropped (d : SkillLearningDecision) : SkillLearningDecision :=
  { d with action := .none, candidateSkill := none, targetSkillId := none }

/-- `_constrain`. -/
def SkillLearningDecision.constrain (d : SkillLearningDecision) (success : Bool)
    (used : List String) : SkillLearningDecision :=
  let d := { d with usageLessons := d.usageLessons.filter fun lesson => lesson.skillId ∈ used }
  if success = false then d.dropped
  else if used ≠ [] then
    if d.action = .updateSkill ∧ ∃ target ∈ d.targetSkillId, target ∈ used then d else d.dropped
  else if d.action = .updateSkill ∨ d.action = .none then d.dropped
  else d

/-- `decide`: the first error stands when the repair fails too. -/
def decideSkill (env : OutcomeEnv) (success : Bool) (view : TrajectoryView)
    (lower : String → String) (used : List String) : Except Raised SkillLearningDecision :=
  if success && view.agentToolCalls = 0 && !view.reusableScriptCreated lower then
    .ok { action := .none
          rationale := "trajectory has no tool usage or reusable scripts to learn from" }
  else
    match env.decision.bind SkillLearningDecision.validated with
    | .ok d => .ok (d.constrain success used)
    | .error e =>
      match env.repaired.bind SkillLearningDecision.validated with
      | .ok d => .ok (d.constrain success used)
      | .error _ => .error e

/-- The decision that an earlier execution recorded, or a new one, recorded before use. -/
def mineDecision (cfg : OutcomeConfig) (env : OutcomeEnv) (o : RunOutcome)
    (view : TrajectoryView) (used : List String) : OutcomeM SkillLearningDecision := do
  let key := operationKey "learning-decision" o.runId
  let host := env.host .decision
  let previous ← onRegistry (Durable.look fun r =>
    (host.check .readOperation).map fun _ => r.db.operations key)
  match previous with
  | some (.decision d) => Durable.look fun _ => d.validated
  | some _ => Durable.raise ⟨"ValidationError", "action: field required"⟩
  | none =>
    env.emit o .modelCall "final" (some "skill-miner") .postRun
    onRegistry (Durable.look fun _ => host.check .readSkill)
    let d ← Durable.look fun _ => decideSkill env o.success view cfg.registry.lower used
    let _ ← onRegistry (recordOperation host key (.decision d))
    return d

/-- The registry's part of a decision. -/
def installDecision (cfg : OutcomeConfig) (env : OutcomeEnv) (o : RunOutcome)
    (d : SkillLearningDecision) (candidate : SkillCandidate) : OutcomeM RegisteredSkill :=
  let key := some (operationKey "learning-skill" o.runId)
  match d.action, d.targetSkillId with
  | .updateSkill, some target =>
    onRegistry (updateSkill cfg.registry (env.host .skill) target candidate key)
  | _, _ => onRegistry (createSkill cfg.registry (env.host .skill) candidate none key)

def SkillAction.event : SkillAction → String
  | .created => "SkillCandidateCreated"
  | .updated => "SkillUpdated"

/-- A complete decision has a candidate, and a target exactly if it updates. -/
def applyDecision (cfg : OutcomeConfig) (env : OutcomeEnv) (o : RunOutcome)
    (d : SkillLearningDecision) (l : Learned) : OutcomeM Learned := do
  if o.success = false ∨ d.action = .none then return l
  else
    match d.candidateSkill with
    | none => learningError env o l "skill_mining" ⟨"AssertionError", ""⟩
    | some candidate =>
      if d.action = .updateSkill ∧ d.targetSkillId = none then
        learningError env o l "skill_candidate_creation" ⟨"AssertionError", ""⟩
      else
        match ← Durable.attempt (installDecision cfg env o d candidate) with
        | .ok created =>
          let action := if d.action = .updateSkill then SkillAction.updated else .created
          env.emit o (.other action.event) created.manifest.skillId
          return { l with skillAction := some action
                          candidateSkillId := some created.manifest.skillId }
        | .error e => learningError env o l "skill_candidate_creation" e

/-- The lessons for used skills; a later one for the same skill replaces the first. -/
def SkillLearningDecision.lessonFor (d : SkillLearningDecision) (skillId : String) :
    Option String :=
  (d.usageLessons.reverse.find? fun lesson => lesson.skillId = skillId).map SkillUsageLesson.lesson

def mineSkill (cfg : OutcomeConfig) (env : OutcomeEnv) (o : RunOutcome) (view : TrajectoryView)
    (l : Learned) : OutcomeM Learned := do
  if cfg.skillMiner && cfg.capabilityRegistry && !o.ungraded &&
      shouldMine o.success o.resolvedClass view.skillsUsed then
    match ← Durable.attempt (mineDecision cfg env o view view.skillsUsed) with
    | .error e => learningError env o l "skill_mining" e
    | .ok d => applyDecision cfg env o d { l with learningDecision := some d }
  else return l

/-! ## Usage memory -/

def successFallback : String := "This skill was used during a successful repair."

def failureFallback : String :=
  "This skill was used but the repair failed; treat this as " ++
    "counterevidence, not a verified procedure."

def scriptFailureLesson : String :=
  "The skill script failed during this run even though the overall repair succeeded."

/-- The outcome of a skill and the lesson that goes with it. -/
def lessonEntry (env : OutcomeEnv) (o : RunOutcome) (view : TrajectoryView) (l : Learned)
    (skillId : String) : SkillMemoryEntry :=
  let told := l.learningDecision.bind fun d => d.lessonFor skillId
  let (outcome, lesson) :=
    if view.explicitFailure skillId then
      ("failure", if o.success then scriptFailureLesson else failureFallback)
    else if o.success then ("success", told.getD successFallback)
    else ("failure", told.getD failureFallback)
  { runId := o.runId, repository := o.repo, taskSummary := o.summary, outcome, lesson
    createdAt := env.createdAt }

def writesLessons (cfg : OutcomeConfig) (o : RunOutcome) (used : List String) : Bool :=
  cfg.capabilityRegistry && truthyList used &&
    o.resolvedClass ∉ [some .infrastructure, some .model] &&
    (o.success || o.resolvedClass ∈ [none, some .repair])

def writeLessons (env : OutcomeEnv) (o : RunOutcome) (view : TrajectoryView) :
    List String → Learned → OutcomeM Learned
  | [], l => pure l
  | skillId :: rest, l => do
    let entry := lessonEntry env o view l skillId
    match ← Durable.attempt (onRegistry (appendSkillMemory (env.host (.lesson skillId)) skillId
      entry)) with
    | .ok appended =>
      writeLessons env o view rest
        (if appended then { l with skillMemoryAppended := some entry.outcome } else l)
    | .error e =>
      let l ← learningError env o l s!"skill_memory_{skillId}" e
      writeLessons env o view rest l

def recordLessons (cfg : OutcomeConfig) (env : OutcomeEnv) (o : RunOutcome)
    (view : TrajectoryView) (l : Learned) : OutcomeM Learned :=
  if writesLessons cfg o view.skillsUsed then writeLessons env o view view.skillsUsed l
  else pure l

/-! ## The whole -/

/-- What goes back into the graph state. -/
structure OutcomeUpdate where
  status : Status
  failureReason : Option String
  failureClass : Option FailureClass
  failureStage : Option String
  learned : Learned
  skillSummary : String

def skillSummary (used : List String) (l : Learned) : String :=
  match l.skillAction, l.candidateSkillId, used with
  | some .created, some skillId, _ => s!"{skillId} created"
  | some .updated, some skillId, _ => s!"{skillId} updated"
  | _, _, skillId :: _ => s!"{skillId} used"
  | _, _, [] => "none"

/-- `persist_run_outcome`. -/
def RunOutcome.persist (o : RunOutcome) (cfg : OutcomeConfig) (env : OutcomeEnv) :
    OutcomeM OutcomeUpdate := do
  env.emit o (.other (if o.success then "RunCompleted" else "RunFailed")) "terminal"
  let view ← Durable.look fun s => .ok (buildView s.log)
  let l ← storeEpisode cfg env o view {}
  let l ← recordOutcomes cfg env o view l
  let l ← consolidate cfg env o l
  let l ← mineSkill cfg env o view l
  let l ← recordLessons cfg env o view l
  return { status := if o.success then .success else .failed
           failureReason := o.failureReason
           failureClass := o.resolvedClass
           failureStage := o.failureStage
           learned := l
           skillSummary := skillSummary view.skillsUsed l }

end EvoCI
