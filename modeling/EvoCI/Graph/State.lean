import EvoCI.Apply
import EvoCI.Routing
import EvoCI.Scheduler
import EvoCI.Snapshot
import EvoCI.Verification

/-! The state that the recovery graph checkpoints between nodes, the world its
nodes act on, and what the world answers while one node runs. -/

namespace EvoCI

open Library

inductive Node where
  | bootstrap
  | retrieveContext
  | supervise
  | prepareTask
  | worker
  | approval
  | applyCandidate
  | verify
  | rollback
  | finalize
  | failed
  deriving DecidableEq, Repr

inductive Status where
  | running
  | waitingApproval
  | success
  | failed
  deriving DecidableEq, Repr

inductive FailureClass where
  | repair
  | model
  | budget
  | policy
  | infrastructure
  deriving DecidableEq, Repr

def orchestrationSchemaVersion : Nat := 3

/-- The fields of the graph state that nodes and routes read. A key that was
never written is the field's default. -/
structure EvoCIState where
  schemaVersion : Option Nat := none
  failedCommands : List (List String)
  phase : Option Node := none
  supervisorBatch : Nat := 0
  decision : Option SupervisorDecision := none
  decisionHistory : List String := []
  workerTask : Option WorkerTask := none
  completedTaskIds : List String := []
  workerResults : List WorkerExecutionResult := []
  evidence : List EvidenceItem := []
  budgetFailures : List String := []
  /-- The number of the batch whose directory is the snapshot. -/
  batchSnapshotPath : Option Nat := none
  batchSnapshotId : Option String := none
  integratedSnapshotId : Option String := none
  verificationSnapshotId : Option String := none
  workerBaselineId : Option String := none
  resumeArtifactRef : Option String := none
  previousAttemptSummary : Option String := none
  fixerOutput : Option FixerOutput := none
  verification : Option VerificationResult := none
  verificationHistory : List VerificationResult := []
  review : Option ReviewResult := none
  approved : Option Bool := none
  attemptBaseline : Baseline := []
  attemptWritten : Option Written := none
  failedCandidates : List FailedCandidateRef := []
  batchConflict : Option String := none
  status : Option Status := none
  failureReason : Option String := none
  failureClass : Option FailureClass := none
  failureClasses : List FailureClass := []
  failureStage : Option Node := none

/-- Truth value of an optional string. -/
def truthy : Option String → Bool
  | none => false
  | some text => text ≠ ""

/-- `first or second` on optional strings. -/
def orElse (first second : Option String) : Option String :=
  if truthy first then first else second

/-- The edits of the candidate in the state. -/
def EvoCIState.edits (s : EvoCIState) : List FileEdit :=
  s.fixerOutput.elim [] FixerOutput.edits

/-- `_latest_result(state)`. -/
def EvoCIState.latestResult (s : EvoCIState) : Option WorkerExecutionResult :=
  s.workerResults.getLast?

/-! ## The world -/

/-- Settings and the programs outside the repository: the output of a Git
command over a tree with its return code, the SHA-256 hex digest, and decoding
of bytes that are not UTF-8. `storable` tells the names the state directory's
file system accepts. -/
structure Config where
  root : Loc
  runId : String
  maxSupervisorBatches : Nat
  patchHashStrict : Bool := true
  deferSuccessLearning : Bool := false
  officialVerifier : Bool := false
  git : List String → Files → Int × String
  sha256 : List UInt8 → String
  decodeReplace : List UInt8 → String
  storable : String → Bool

/-- The file `save_apply_plan` writes. -/
structure ApplyPlan where
  parentSnapshotId : String
  artifactRef : Option String
  edits : List FileEdit
  baseline : Baseline

/-- Everything outside the graph state that a node reads or changes. `charges`,
`writes`, `decideCalls` and `executeCalls` are ghost logs of `apply_candidate`
and of the calls to the two agents. -/
structure World where
  files : Files
  snapshots : Nat → Option Snapshot := fun _ => none
  plans : String → Option ApplyPlan := fun _ => none
  ledger : Ledger
  charges : List String := []
  writes : List String := []
  decideCalls : Nat := 0
  executeCalls : Nat := 0

/-! ## Fingerprints -/

def splitNulFrom : List Char → List Char → List String
  | piece, [] => [String.ofList piece.reverse]
  | piece, c :: cs =>
    if c = '\x00' then String.ofList piece.reverse :: splitNulFrom [] cs
    else splitNulFrom (c :: piece) cs

/-- `text.split("\0")`. -/
def splitNul (text : String) : List String := splitNulFrom [] text.toList

/-- The bytes of an untracked file; Git reports no path through a link. -/
def untrackedBytes (files : Files) (root : Loc) (name : String) : List UInt8 :=
  match files (root ++ pathParts name) with
  | some (.file content _) => content.bytes
  | _ => []

/-- `workspace_snapshot_id`. -/
def workspaceSnapshotId (cfg : Config) (files : Files) : String :=
  let head := cfg.git ["rev-parse", "HEAD"] files
  let revision := if head.1 = 0 then strip head.2 else "no-head"
  let diff := (cfg.git ["diff", "HEAD"] files).2
  let untracked := (cfg.git ["ls-files", "--others", "--exclude-standard", "-z"] files).2
  let names := ((splitNul untracked).filter fun name => name ≠ "").insertionSort (· ≤ ·)
  let digest := cfg.sha256 (encode revision ++ encode "\n" ++ encode diff ++
    names.flatMap fun name => encode name ++ untrackedBytes files cfg.root name)
  revision ++ ":" ++ String.ofList (digest.toList.take 16)

/-- The output of a Git command that returns 0. -/
def gitOutput (cfg : Config) (arguments : List String) (files : Files) : Option String :=
  let (code, output) := cfg.git arguments files
  if code = 0 then some output else none

/-- `contains_workspace_review_bypass(workspace)`. -/
def reviewBlockers (cfg : Config) (files : Files) : List String :=
  containsWorkspaceReviewBypass (gitOutput cfg ["diff", "--unified=0", "HEAD", "--"] files)
    (gitOutput cfg ["status", "--porcelain=v1", "--untracked-files=all"] files)
    cfg.decodeReplace files cfg.root

/-- `_formal_success(state)`. -/
def formalSuccess (cfg : Config) (s : EvoCIState) (files : Files) : Bool :=
  match s.verification with
  | some verification =>
    verification.passed && verification.status = .passed &&
      s.verificationSnapshotId = some (workspaceSnapshotId cfg files)
  | none => false

/-! ## What happens while a node runs -/

/-- What awaiting a model-backed agent comes to. -/
inductive AgentAnswer (α : Type) where
  | returned (value : α)
  | budgetExhausted (message : String)
  /-- A `ModelGatewayError`, and whether a timeout caused it. -/
  | gatewayError (message : String) (timeout : Bool)
  | raised (e : PyError)

def AgentAnswer.value? {α : Type} : AgentAnswer α → Option α
  | .returned value => some value
  | _ => none

/-- How the guarded part of `verify` is left while the command of that index
is awaited. -/
inductive VerifyFault where
  | raised (index : Nat) (e : PyError)
  | killed (index : Nat)

theorem unavailable_contract : false = true ↔ VerificationStatus.unavailable = .passed := by simp

/-- The world's part in one execution of a node: what agents and verifiers
answer, where the operating system refuses, and where the process dies. -/
structure NodeEnv where
  decide : AgentAnswer SupervisorDecision := .budgetExhausted modelMessage
  retry : AgentAnswer SupervisorDecision := .budgetExhausted modelMessage
  execute : AgentAnswer WorkerRun := .budgetExhausted modelMessage
  /-- The calls the agents make on the run's budget. -/
  calls : List RunEvent := []
  copying : Copying := ⟨fun _ => [], 0, none, noFiles, 0o022⟩
  restoring : Restoring := ⟨fun _ => [], fun _ => [], 0, none, 0o022⟩
  /-- A restore that stops early stops because the process dies. -/
  restoreKilled : Bool := false
  denied : Loc → Bool := fun _ => false
  crash : Option CrashPoint := none
  commandOutcome : Nat → CommandOutcome := fun _ => .ran 0 "" "" false
  isolationError : Option String := none
  /-- The verdict of the official verifier. -/
  official : VerificationResult :=
    ⟨false, .unavailable, [], 0, 0, none, none, unavailable_contract⟩
  verifyFault : Option VerifyFault := none
  /-- An exception of the Git commands of the final review. -/
  reviewFault : Option PyError := none
  /-- A critical exception while the outcome is persisted. -/
  persistFault : Option PyError := none
  /-- The process dies before the checkpoint of this node is stored. -/
  lost : Bool := false

/-- How the execution of a node ends. Only `done` is checkpointed. -/
inductive Outcome where
  | done (s : EvoCIState) (w : World)
  | interrupted (w : World)
  | raised (e : PyError) (w : World)
  | killed (w : World)

def Outcome.world : Outcome → World
  | .done _ w | .interrupted w | .raised _ w | .killed w => w

/-- The execution reached its checkpoint. -/
def Outcome.isDone : Outcome → Bool
  | .done _ _ => true
  | _ => false

/-- The process dies after the node's effects and before its checkpoint. -/
def Outcome.afterLoss (lost : Bool) : Outcome → Outcome
  | .done s w => if lost then .killed w else .done s w
  | other => other

end EvoCI
