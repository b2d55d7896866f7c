import EvoCI.Graph.State

/-! The eleven nodes of the recovery graph, each a function of the checkpointed
state, the world and what the world answers. -/

namespace EvoCI

open Library

/-! ## Entering a run -/

def legacyMessage : String :=
  "Old graph checkpoint detected. Start a new run or campaign; " ++
    "supervisor-worker orchestration does not migrate previous checkpoints."

def bootstrap (s : EvoCIState) (w : World) : Outcome :=
  if s.schemaVersion = none ∨ s.schemaVersion = some orchestrationSchemaVersion then
    .done { s with
      schemaVersion := some orchestrationSchemaVersion
      phase := some .bootstrap
      status := some .running } w
  else .raised (.runtimeError legacyMessage) w

def retrieveContext (s : EvoCIState) (w : World) : Outcome :=
  .done { s with phase := some .retrieveContext } w

/-! ## Supervising -/

/-- `classified_failure(exc, phase="supervise", supervisor_batch=batch)`. -/
def superviseFailure (s : EvoCIState) (failureClass : FailureClass) (message : String) :
    EvoCIState :=
  { s with
    phase := some .supervise
    status := some .failed
    failureClass := some failureClass
    failureReason := some message
    supervisorBatch := s.supervisorBatch + 1
    failureStage := some .supervise }

def superviseDecided (s : EvoCIState) (decision : SupervisorDecision) : EvoCIState :=
  { s with
    phase := some .supervise
    supervisorBatch := s.supervisorBatch + 1
    decision := some decision
    decisionHistory := s.decisionHistory ++
      [decision.action.text ++ ": " ++ decision.reasoningSummary]
    batchConflict := none }

def superviseUsedUp (s : EvoCIState) : EvoCIState :=
  { s with
    phase := some .supervise
    status := some .failed
    failureClass := some .budget
    failureStage := some .supervise
    failureReason := some "supervisor batch budget exhausted" }

/-- The world after `count` calls of `supervisor.decide`. -/
def World.decided (w : World) (count : Nat) (calls : List RunEvent) : World :=
  { w with ledger := w.ledger.calls calls, decideCalls := w.decideCalls + count }

/-- The answer to a retried decision. -/
def superviseRetry (env : NodeEnv) (s : EvoCIState) (w : World) : Outcome :=
  match env.retry with
  | .returned decision => .done (superviseDecided s decision) (w.decided 2 env.calls)
  | .budgetExhausted message => .done (superviseFailure s .budget message) (w.decided 2 env.calls)
  | .gatewayError message _ => .done (superviseFailure s .model message) (w.decided 2 env.calls)
  | .raised e => .raised e (w.decided 2 env.calls)

def supervise (cfg : Config) (env : NodeEnv) (s : EvoCIState) (w : World) : Outcome :=
  if s.status = some .failed then .done { s with phase := some .supervise } w
  else if cfg.maxSupervisorBatches < s.supervisorBatch + 1 then
    .done (superviseUsedUp s) w
  else
    match env.decide with
    | .returned decision => .done (superviseDecided s decision) (w.decided 1 env.calls)
    | .budgetExhausted message =>
      .done (superviseFailure s .budget message) (w.decided 1 env.calls)
    | .gatewayError message false =>
      .done (superviseFailure s .model message) (w.decided 1 env.calls)
    | .gatewayError _ true => superviseRetry env s w
    | .raised e => .raised e (w.decided 1 env.calls)

/-! ## Preparing a task -/

def prepareFailure (s : EvoCIState) (failureClass : FailureClass) (stage : Node)
    (message : String) : EvoCIState :=
  { s with
    status := some .failed
    failureClass := some failureClass
    failureStage := some stage
    failureReason := some message }

def prepareExhausted (s : EvoCIState) : EvoCIState :=
  { prepareFailure s .budget .worker modelMessage with
    failureClasses := s.failureClasses ++ [.budget]
    budgetFailures := s.budgetFailures ++ [modelMessage] }

def prepareRejected (cfg : Config) (s : EvoCIState) (message : String) : EvoCIState :=
  if s.supervisorBatch < cfg.maxSupervisorBatches then
    { s with
      phase := some .prepareTask
      decisionHistory := s.decisionHistory ++ ["harness rejected dispatch: " ++ message]
      batchConflict := some message
      workerTask := none }
  else prepareFailure s .repair .prepareTask message

/-- The artifact of the failed candidate that the task resumes. -/
def resumedArtifact (s : EvoCIState) (task : WorkerTask) : Option String :=
  if truthy task.resumeCandidateId then
    (s.failedCandidates.find? fun candidate =>
      some candidate.candidateId = task.resumeCandidateId).map FailedCandidateRef.artifactRef
  else none

def preparePrepared (s : EvoCIState) (task : WorkerTask) (snapshotId : String) : EvoCIState :=
  { s with
    phase := some .prepareTask
    workerTask := some task
    workerBaselineId := some snapshotId
    batchSnapshotPath := some s.supervisorBatch
    batchSnapshotId := some snapshotId
    resumeArtifactRef := resumedArtifact s task
    batchConflict := none
    approved := none }

def World.withSnapshot (w : World) (batch : Nat) (snapshot : Option Snapshot) : World :=
  { w with snapshots := fun n => if n = batch then snapshot else w.snapshots n }

/-- `prepare_task` from the snapshot directory on. -/
def prepareSnapshot (cfg : Config) (env : NodeEnv) (task : WorkerTask) (s : EvoCIState)
    (w : World) : Outcome :=
  match w.snapshots s.supervisorBatch with
  | some snapshot =>
    let snapshotId := (orElse s.batchSnapshotId
      (some (workspaceSnapshotId cfg snapshot.tree))).getD ""
    .done (preparePrepared s task snapshotId) w
  | none =>
    match saveBatchSnapshot env.copying w.files cfg.root with
    | .saved snapshot =>
      .done (preparePrepared s task (workspaceSnapshotId cfg snapshot.tree))
        (w.withSnapshot s.supervisorBatch (some snapshot))
    | .failed leftover message =>
      .done (prepareFailure s .infrastructure .prepareTask
          ("parent snapshot failed: " ++ message))
        (w.withSnapshot s.supervisorBatch leftover)
    | .killed leftover => .killed (w.withSnapshot s.supervisorBatch leftover)

/-- `validate_single_task` as `prepare_task` calls it. -/
def scheduledTask (decision : SupervisorDecision) (s : EvoCIState) (w : World) :
    Except PyError WorkerTask :=
  validateSingleTask decision.tasks s.completedTaskIds
    (w.ledger.budget.maxModelCalls - w.ledger.budget.modelCalls) w.ledger.room

def prepareTask (cfg : Config) (env : NodeEnv) (s : EvoCIState) (w : World) : Outcome :=
  match s.decision with
  | none =>
    .done (prepareFailure s .repair .prepareTask "supervisor did not dispatch a task") w
  | some decision =>
    if decision.action ≠ .dispatch then
      .done (prepareFailure s .repair .prepareTask "supervisor did not dispatch a task") w
    else if w.ledger.budget.maxModelCalls - w.ledger.budget.modelCalls < 2 then
      .done (prepareExhausted s) w
    else
      match scheduledTask decision s w with
      | .error (.taskScheduleError message) => .done (prepareRejected cfg s message) w
      | .error e => .raised e w
      | .ok task => prepareSnapshot cfg env task s w

/-! ## The worker -/

def artifactRef (cfg : Config) (s : EvoCIState) (taskId : String) : String :=
  s!"artifacts/{cfg.runId}/batch-{s.supervisorBatch}/{taskId}/patch.json"

def workerResult (task : WorkerTask) (status : WorkerTaskStatus) (message : String) :
    WorkerExecutionResult :=
  { taskId := task.taskId, status, summary := message }

def workerExhausted (s : EvoCIState) (task : WorkerTask) (message : String) : EvoCIState :=
  { s with
    completedTaskIds := s.completedTaskIds ++ [task.taskId]
    workerResults := s.workerResults ++ [workerResult task .budgetExhausted message]
    budgetFailures := s.budgetFailures ++ [message]
    failureClasses := s.failureClasses ++ [.budget] }

def workerUnreachable (s : EvoCIState) (task : WorkerTask) (message : String) : EvoCIState :=
  { s with
    completedTaskIds := s.completedTaskIds ++ [task.taskId]
    workerResults := s.workerResults ++ [workerResult task .blocked message]
    budgetFailures := s.budgetFailures ++ [message]
    failureClasses := s.failureClasses ++ [.model]
    status := some .failed
    failureClass := some .model
    failureStage := some .worker
    failureReason := some message }

/-- The result as `worker` records it. -/
def recordedResult (cfg : Config) (s : EvoCIState) (task : WorkerTask) (run : WorkerRun) :
    WorkerExecutionResult :=
  let baseline := if truthy s.workerBaselineId then s.workerBaselineId else some ""
  { run.result with
    patchArtifactRef := if run.edits = [] then none else some (artifactRef cfg s task.taskId)
    changedFiles :=
      if run.edits = [] then run.result.changedFiles else run.edits.map FileEdit.path
    baseRevision := orElse run.result.baseRevision baseline
    snapshotId := orElse run.result.snapshotId baseline }

/-- The candidate of a run that returned edits. -/
def runOutput (run : WorkerRun) : FixerOutput :=
  fixerOutputFromEdits run.result.summary run.edits run.commandsRun run.verificationPlan run.risk

def workerReturned (cfg : Config) (s : EvoCIState) (task : WorkerTask) (run : WorkerRun) :
    EvoCIState :=
  let s' := { s with
    evidence := s.evidence ++ run.result.evidence
    completedTaskIds := s.completedTaskIds ++ [task.taskId]
    workerResults := s.workerResults ++ [recordedResult cfg s task run]
    -- a run without edits leaves the candidate of an earlier batch in place
    fixerOutput := if run.edits = [] then s.fixerOutput else some (runOutput run) }
  if run.result.status = .budgetExhausted ∧ run.edits = [] then
    { s' with
      status := some .failed
      failureClass := some .budget
      failureStage := some .worker
      failureReason := some run.result.summary
      failureClasses := s.failureClasses ++ [.budget]
      budgetFailures := s.budgetFailures ++ [run.result.summary] }
  else s'

def World.executed (w : World) (calls : List RunEvent) : World :=
  { w with ledger := w.ledger.calls calls, executeCalls := w.executeCalls + 1 }

def worker (cfg : Config) (env : NodeEnv) (s : EvoCIState) (w : World) : Outcome :=
  match s.workerTask with
  | none => .raised (.typeError "worker_task is required") w
  | some task =>
    match env.execute with
    | .budgetExhausted message => .done (workerExhausted s task message) (w.executed env.calls)
    | .gatewayError message _ => .done (workerUnreachable s task message) (w.executed env.calls)
    | .raised e => .raised e (w.executed env.calls)
    | .returned run =>
      if run.edits ≠ [] ∧ cfg.storable task.taskId = false then
        .raised (.osError "artifact directory") (w.executed env.calls)
      else .done (workerReturned cfg s task run) (w.executed env.calls)

/-! ## Approval -/

def approvalResolved (s : EvoCIState) (approved : Bool) : EvoCIState :=
  { s with
    phase := some .approval
    approved := some approved
    status := if approved then some .running else some .failed
    failureClass := if approved then none else some .policy
    failureStage := if approved then none else some .approval
    failureReason := if approved then none else some "patch rejected by human" }

/-- `approval`; `resume` is the decision the interrupt was resumed with. -/
def approval (resume : Option Bool) (s : EvoCIState) (w : World) : Outcome :=
  match s.fixerOutput with
  | none => .done { s with phase := some .approval, approved := some true } w
  | some output =>
    if output.edits = [] ∨ requiresApproval output = false then
      .done { s with phase := some .approval, approved := some true } w
    else
      match resume with
      | none => .interrupted w
      | some decision => .done (approvalResolved s decision) w

/-! ## Applying the candidate -/

def taskIdOf (s : EvoCIState) : String :=
  s.workerTask.elim "repair" WorkerTask.taskId

def operationId (s : EvoCIState) : String :=
  s!"{s.supervisorBatch}:{taskIdOf s}"

def toolCallEvent (cfg : Config) (agentId key : String) (scope : BudgetScope) : RunEvent :=
  ⟨s!"{cfg.runId}:{agentId}:default:ToolCall:{key}", .toolCall, scope⟩

def applyContext (cfg : Config) (env : NodeEnv) (s : EvoCIState) (baseline : Baseline) :
    ApplyContext where
  root := cfg.root
  sha256 := fun content => cfg.sha256 content.bytes
  hashStrict := cfg.patchHashStrict
  denied := env.denied
  baseline
  toolCall path :=
    toolCallEvent cfg s!"worker:{taskIdOf s}" s!"apply:{operationId s}:{path}" .repair

/-- The scope check at the start of `apply_candidate`. -/
def scopeCheck (s : EvoCIState) : Except PyError Unit :=
  match s.workerTask with
  | none => .ok ()
  | some task => validateEditsAgainstScope s.edits task.writeScope

inductive PlanStep where
  | ready (plan : ApplyPlan) (w : World)
  | changed (message : String)
  | raised (e : PyError)

/-- Builds the plan from the files of `tree` and saves it. -/
def makePlan (cfg : Config) (s : EvoCIState) (w : World) (tree : Files) (parentId : String) :
    PlanStep :=
  match tree.snapshotEditBaseline cfg.root [] s.edits with
  | .error e => .raised e
  | .ok baseline =>
    if cfg.storable (operationId s) then
      let plan : ApplyPlan :=
        ⟨parentId, s.latestResult.bind WorkerExecutionResult.patchArtifactRef, s.edits, baseline⟩
      .ready plan { w with plans := fun key =>
        if key = operationId s then some plan else w.plans key }
    else .raised (.osError "apply plan")

/-- The saved plan of the operation, or a new one. -/
def obtainPlan (cfg : Config) (s : EvoCIState) (w : World) : PlanStep :=
  match w.plans (operationId s) with
  | some plan => .ready plan w
  | none =>
    match s.batchSnapshotPath.bind w.snapshots with
    | some snapshot =>
      makePlan cfg s w snapshot.tree
        ((orElse s.batchSnapshotId (some (workspaceSnapshotId cfg snapshot.tree))).getD "")
    | none =>
      let current := workspaceSnapshotId cfg w.files
      let expected := s.workerBaselineId.getD ""
      if truthy s.workerBaselineId ∧ expected ≠ current then
        .changed s!"workspace snapshot {current} does not match baseline {expected}"
      else makePlan cfg s w w.files ((orElse s.workerBaselineId (some current)).getD "")

/-- A conflict found before any edit is looked at. -/
def applyRefused (s : EvoCIState) (message reason : String) : EvoCIState :=
  { s with
    phase := some .applyCandidate
    batchConflict := some message
    failureClasses := s.failureClasses ++ [.repair]
    failureReason := some reason
    failureStage := some .applyCandidate }

def applyConflict (s : EvoCIState) (e : PyError) (baseline : Baseline) (written : Written) :
    EvoCIState :=
  { s with
    phase := some .applyCandidate
    attemptBaseline := baseline
    attemptWritten := some written
    batchConflict := some e.message
    failureClasses := s.failureClasses ++
      [match e with | .repairBudgetExhausted _ => .budget | _ => .repair]
    failureReason := some e.message
    failureStage := some .applyCandidate }

def applyDone (cfg : Config) (s : EvoCIState) (baseline : Baseline) (a : Attempt) : EvoCIState :=
  { s with
    phase := some .applyCandidate
    attemptBaseline := baseline
    attemptWritten := some a.written
    integratedSnapshotId := some (workspaceSnapshotId cfg a.files) }

/-- The start of the write loop. -/
def World.attempt (w : World) : Attempt :=
  { files := w.files, ledger := w.ledger, charges := w.charges, writes := w.writes }

def World.after (w : World) (a : Attempt) : World :=
  { w with files := a.files, ledger := a.ledger, charges := a.charges, writes := a.writes }

/-- The write loop with a plan at hand. -/
def applyPlanned (cfg : Config) (env : NodeEnv) (s : EvoCIState) (baseline : Baseline)
    (w : World) : Outcome :=
  match applyEdits (applyContext cfg env s baseline) env.crash s.edits w.attempt with
  | .applied a => .done (applyDone cfg s baseline a) (w.after a)
  | .conflict e a => .done (applyConflict s e baseline a.written) (w.after a)
  | .raised e a => .raised e (w.after a)
  | .killed a => .killed (w.after a)

def applyCandidate (cfg : Config) (env : NodeEnv) (s : EvoCIState) (w : World) : Outcome :=
  if s.edits = [] then
    .done { s with
      phase := some .applyCandidate
      integratedSnapshotId := some (workspaceSnapshotId cfg w.files) } w
  else
    match scopeCheck s with
    | .error (.policyViolation message) => .done (applyRefused s message message) w
    | .error e => .raised e w
    | .ok () =>
      match obtainPlan cfg s w with
      | .ready plan w' => applyPlanned cfg env s plan.baseline w'
      | .changed message => .done (applyRefused s message "workspace changed before apply") w
      | .raised e => .raised e w

/-! ## Verification -/

def verifyToolCall (cfg : Config) (s : EvoCIState) (index : Nat) : RunEvent :=
  toolCallEvent cfg "harness" s!"verify:{s.supervisorBatch}:{index}" .repair

/-- What the guarded part of `verify` comes to. -/
inductive Verifying where
  | returned (verification : VerificationResult)
  | raised (e : PyError)
  | killed

theorem incomplete_contract : false = true ↔ VerificationStatus.incomplete = .passed := by simp

def budgetIncomplete (message : String) : VerificationResult :=
  ⟨false, .incomplete, [], 1, 0, some message, some .budget, incomplete_contract⟩

/-- The official verifier, behind one charged call. -/
def verifyOfficial (cfg : Config) (env : NodeEnv) (s : EvoCIState) (ledger : Ledger) :
    Verifying × Ledger :=
  match ledger.consumeToolCall with
  | .error e => (.returned (budgetIncomplete e.message), ledger)
  | .ok charged =>
    let started := charged.emit
      (toolCallEvent cfg "harness" s!"verify:{s.supervisorBatch}:official" .repair)
    match env.verifyFault with
    | none => (.returned env.official, started)
    | some (.raised _ e) => (.raised e, started)
    | some (.killed _) => (.killed, started)

/-- The calls charged before the fault at a command. -/
def chargedUpTo (cfg : Config) (env : NodeEnv) (s : EvoCIState) (planned : List PlannedCommand)
    (ledger : Ledger) (index : Nat) : Ledger :=
  (executePlan (verifyToolCall cfg s) env.commandOutcome 0 (planned.take index)
    (Execution.start ledger)).1.ledger

def verifyLocal (cfg : Config) (env : NodeEnv) (s : EvoCIState) (planned : List PlannedCommand)
    (ledger : Ledger) : Verifying × Ledger :=
  match env.verifyFault with
  | none =>
    let (verification, ledger') := runVerification (verifyToolCall cfg s) env.commandOutcome
      env.isolationError planned ledger
    (.returned verification, ledger')
  | some (.raised index e) => (.raised e, chargedUpTo cfg env s planned ledger index)
  | some (.killed index) => (.killed, chargedUpTo cfg env s planned ledger index)

/-- The plan of the local verifier; the official one has its own. -/
def localPlan (cfg : Config) (s : EvoCIState) : Except PyError (List PlannedCommand) :=
  if cfg.officialVerifier then .ok []
  else buildVerificationPlan s.failedCommands
    (s.fixerOutput.elim [] fun output => output.proposal.verificationPlan)

def verifyCommands (cfg : Config) (env : NodeEnv) (s : EvoCIState)
    (planned : List PlannedCommand) (ledger : Ledger) : Verifying × Ledger :=
  if cfg.officialVerifier then verifyOfficial cfg env s ledger
  else verifyLocal cfg env s planned ledger

/-- Files restored by a handler, and the exception that replaces the handled one. -/
def restoreAttempt (cfg : Config) (env : NodeEnv) (s : EvoCIState) (w : World) :
    Files × Option PyError :=
  match s.attemptWritten with
  | some written =>
    w.files.restoreAttemptWrites env.denied cfg.root s.attemptBaseline written
  | none => (w.files, none)

def restoreSnapshot (cfg : Config) (env : NodeEnv) (batch : Nat) (w : World) :
    Files × Option PyError :=
  restoreBatchSnapshot env.restoring w.files cfg.root (w.snapshots batch)

/-- What the exception handler of `verify` does to the workspace. -/
def verifyRestore (cfg : Config) (env : NodeEnv) (s : EvoCIState) (w : World) :
    Files × Option PyError :=
  match s.batchSnapshotPath with
  | some batch => restoreSnapshot cfg env batch w
  | none => restoreAttempt cfg env s w

/-- The exception handler of `verify`. -/
def verifyHandler (cfg : Config) (env : NodeEnv) (s : EvoCIState) (e : PyError) (w : World) :
    Outcome :=
  let (files, error) := verifyRestore cfg env s w
  if error.isSome ∧ env.restoreKilled then .killed { w with files }
  else .raised (error.getD e) { w with files }

/-- What failed, for the next attempt. -/
def attemptSummary (verification : VerificationResult) : String :=
  if truthy verification.incompleteReason then verification.incompleteReason.getD ""
  else
    match verification.commands.find? fun item => item.executed && isFailed item with
    | some item => if item.stderr ≠ "" then item.stderr else s!"exit code {item.exitCode}"
    | none => "verification did not produce a verified success"

def verifyRejected (s : EvoCIState) (verification : VerificationResult) (snapshotId : String)
    (blockers : List String) : EvoCIState :=
  { s with
    phase := some .verify
    verification := some verification
    verificationHistory := s.verificationHistory ++ [verification]
    verificationSnapshotId := some snapshotId
    review := some ⟨false, blockers⟩
    batchConflict := some (joinSemicolon blockers)
    previousAttemptSummary := some (joinSemicolon blockers)
    failureReason := some (joinSemicolon blockers)
    failureStage := some .verify }

/-- The result as it is recorded whatever its status. -/
def verifyRecorded (s : EvoCIState) (verification : VerificationResult) (snapshotId : String)
    (failureReason : Option String) : EvoCIState :=
  { s with
    phase := some .verify
    verification := some verification
    verificationHistory := s.verificationHistory ++ [verification]
    verificationSnapshotId := some snapshotId
    review := if verification.passed then some ⟨true, []⟩ else none
    previousAttemptSummary :=
      if verification.passed then s.previousAttemptSummary else some (attemptSummary verification)
    failureReason }

def verifyFailed (s : EvoCIState) (failureClass : FailureClass) : EvoCIState :=
  { s with
    status := some .failed
    failureClass := some failureClass
    failureStage := some .verify }

def verifyCompleted (s : EvoCIState) (verification : VerificationResult) (snapshotId : String) :
    EvoCIState :=
  match verification.status, verification.incompleteCause with
  | .incomplete, some .budget =>
    let reason := (orElse verification.incompleteReason (some toolMessage)).getD ""
    { verifyFailed (verifyRecorded s verification snapshotId (some reason)) .budget with
      failureClasses := s.failureClasses ++ [.budget]
      budgetFailures := s.budgetFailures ++ [reason] }
  | .incomplete, some .execution =>
    verifyFailed (verifyRecorded s verification snapshotId
      (orElse verification.incompleteReason (some "verification command could not start")))
      .infrastructure
  | .infraError, _ | .inconclusive, _ =>
    verifyFailed (verifyRecorded s verification snapshotId
      (orElse verification.incompleteReason (some verification.status.text))) .infrastructure
  | .unavailable, _ =>
    verifyFailed (verifyRecorded s verification snapshotId verification.incompleteReason) .repair
  | .passed, _ => verifyRecorded s verification snapshotId none
  | .failed, _ | .incomplete, none =>
    { verifyRecorded s verification snapshotId
        (orElse verification.incompleteReason (some "verification failed")) with
      failureStage := some .verify }

/-- `verify` from the verdict on. -/
def verifyVerdict (cfg : Config) (env : NodeEnv) (s : EvoCIState)
    (verification : VerificationResult) (w : World) : Outcome :=
  let snapshotId := workspaceSnapshotId cfg w.files
  if verification.passed then
    match env.reviewFault with
    | some e => .raised e w
    | none =>
      let blockers := reviewBlockers cfg w.files
      if blockers ≠ [] then .done (verifyRejected s verification snapshotId blockers) w
      else .done (verifyCompleted s verification snapshotId) w
  else .done (verifyCompleted s verification snapshotId) w

def verify (cfg : Config) (env : NodeEnv) (s : EvoCIState) (w : World) : Outcome :=
  match localPlan cfg s with
  | .error e => .raised e w
  | .ok planned =>
    let (verifying, ledger) := verifyCommands cfg env s planned w.ledger
    match verifying with
    | .returned verification => verifyVerdict cfg env s verification { w with ledger }
    | .raised e => verifyHandler cfg env s e { w with ledger }
    | .killed => .killed { w with ledger }

/-! ## Rollback -/

def candidateId (cfg : Config) (s : EvoCIState) (result : WorkerExecutionResult) : String :=
  s!"{cfg.runId}:{result.taskId}:{s.supervisorBatch}"

/-- The failed candidates with the one rolled back now. -/
def rolledBackCandidates (cfg : Config) (s : EvoCIState) : List FailedCandidateRef :=
  match s.latestResult with
  | none => s.failedCandidates
  | some result =>
    if truthy result.patchArtifactRef ∧
        ∀ item ∈ s.failedCandidates, item.candidateId ≠ candidateId cfg s result then
      s.failedCandidates ++ [⟨candidateId cfg s result, result.taskId, s.supervisorBatch,
        result.baseRevision.getD "", result.patchArtifactRef.getD "", result.changedFiles⟩]
    else s.failedCandidates

/-- The rollback undoes only what the attempt wrote. -/
def restoresAttempt (s : EvoCIState) : Bool :=
  s.phase = some .applyCandidate && s.verification.isNone && s.attemptWritten.isSome

def rollbackFiles (cfg : Config) (env : NodeEnv) (s : EvoCIState) (w : World) :
    Files × Option PyError :=
  if restoresAttempt s then restoreAttempt cfg env s w
  else
    match s.batchSnapshotPath with
    | some batch => restoreSnapshot cfg env batch w
    | none => restoreAttempt cfg env s w

def rollbackDone (cfg : Config) (s : EvoCIState) (files : Files) : EvoCIState :=
  { s with
    phase := some .rollback
    failedCandidates := rolledBackCandidates cfg s
    integratedSnapshotId := some (workspaceSnapshotId cfg files)
    verification := if truthy s.batchConflict then none else s.verification
    verificationSnapshotId := if truthy s.batchConflict then none else s.verificationSnapshotId
    review := if truthy s.batchConflict then none else s.review
    failureReason := orElse s.failureReason s.batchConflict
    failureStage := some ((s.failureStage.or s.phase).getD .verify)
    batchConflict := none }

def rollbackFailed (s : EvoCIState) (message : String) : EvoCIState :=
  { s with
    phase := some .rollback
    status := some .failed
    failureClass := some .infrastructure
    failureStage := some .rollback
    failureReason := some ("rollback failed: " ++ message) }

def rollback (cfg : Config) (env : NodeEnv) (s : EvoCIState) (w : World) : Outcome :=
  let (files, error) := rollbackFiles cfg env s w
  let w' := { w with
    files
    ledger := w.ledger.emit
      (toolCallEvent cfg "harness" s!"rollback:{s.supervisorBatch}" .cleanup) }
  match error with
  | none => .done (rollbackDone cfg s files) w'
  | some e => if env.restoreKilled then .killed w' else .done (rollbackFailed s e.message) w'

/-! ## Ending a run -/

/-- `resolve_failure_class(state, success=False)`. -/
def resolveFailureClass (s : EvoCIState) : FailureClass :=
  match s.failureClass with
  | some recorded => recorded
  | none =>
    let incomplete := s.verification.bind fun verification =>
      if verification.status = .incomplete then verification.incompleteCause else none
    match incomplete with
    | some .budget => .budget
    | some .execution => .infrastructure
    | none =>
      match s.failureClasses.getLast? with
      | some last => last
      | none =>
        if s.fixerOutput.isSome ∨ ∃ result ∈ s.workerResults, result.changedFiles ≠ [] then .repair
        else
          let reason := lower (s.failureReason.getD "")
          if containsText "exhausted" reason ∨ containsText "budget" reason then .budget
          else .repair

def outcomeFailed (s : EvoCIState) (reason : String) (failureClass : FailureClass) : EvoCIState :=
  { s with
    phase := some .failed
    status := some .failed
    failureReason := some reason
    failureClass := some failureClass
    failureStage := s.failureStage.or s.phase }

def outcomeSuccess (s : EvoCIState) : EvoCIState :=
  { s with
    phase := some .finalize
    status := some .success
    failureReason := none
    failureClass := none
    failureStage := none }

/-- A success whose learning is left to the caller. -/
def deferredSuccess (s : EvoCIState) : EvoCIState :=
  { s with
    phase := some .finalize
    status := some .success
    failureReason := none }

/-- `persist_run_outcome`, as far as the run's state goes. -/
def persistRunOutcome (env : NodeEnv) (s' : EvoCIState) (w : World) : Outcome :=
  match env.persistFault with
  | some e => .raised e w
  | none => .done s' w

def stoppedWithout (cfg : Config) (s : EvoCIState) (w : World) : Option SupervisorDecision :=
  s.decision.filter fun decision =>
    decision.action = .stop && !formalSuccess cfg s w.files

def finalize (cfg : Config) (env : NodeEnv) (s : EvoCIState) (w : World) : Outcome :=
  match stoppedWithout cfg s w with
  | some decision =>
    persistRunOutcome env (outcomeFailed s ((orElse decision.stopReason
      (some "supervisor stopped without verified success")).getD "") .repair) w
  | none =>
    if cfg.deferSuccessLearning then
      .done (deferredSuccess s) w
    else persistRunOutcome env (outcomeSuccess s) w

def failedReason (s : EvoCIState) : String :=
  let reason := orElse (orElse s.failureReason s.batchConflict)
    (some "orchestration budget exhausted")
  let stop := s.decision.bind fun decision =>
    if decision.action = .stop then decision.stopReason else none
  (orElse stop reason).getD ""

def failed (cfg : Config) (env : NodeEnv) (s : EvoCIState) (w : World) : Outcome :=
  let failureClass := resolveFailureClass s
  if cfg.deferSuccessLearning ∧ failureClass = .infrastructure then
    .done (outcomeFailed s (failedReason s) failureClass) w
  else persistRunOutcome env (outcomeFailed s (failedReason s) failureClass) w

end EvoCI
