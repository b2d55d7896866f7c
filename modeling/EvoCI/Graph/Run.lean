import EvoCI.Library.Run
import EvoCI.Graph.Nodes

/-! Runs of the recovery graph: routing between nodes, the durable checkpoint,
resuming a node that did not finish, and everything that happens in between. -/

namespace EvoCI

open Library

/-! ## Routing -/

def afterSupervise (cfg : Config) (s : EvoCIState) (files : Files) : Node :=
  if s.status = some .failed then .failed
  else
    match s.decision with
    | none => .failed
    | some decision =>
      match decision.action with
      | .stop => if formalSuccess cfg s files then .finalize else .failed
      | .dispatch => .prepareTask

def afterPrepare (cfg : Config) (s : EvoCIState) : Node :=
  if s.status = some .failed then .failed
  else if truthy s.batchConflict then
    if s.supervisorBatch < cfg.maxSupervisorBatches then .supervise else .failed
  else if s.workerTask.isNone then .failed
  else .worker

/-- The last failure class stops the run. -/
def stopsRun (s : EvoCIState) : Bool :=
  s.failureClasses.getLast? = some .model || s.failureClasses.getLast? = some .infrastructure

def afterWorker (s : EvoCIState) : Node :=
  if s.status = some .failed then .failed
  else if stopsRun s then .failed
  else
    match s.latestResult with
    | none => .failed
    | some result =>
      if result.status = .budgetExhausted ∨ s.budgetFailures ≠ [] then .failed
      else if result.status = .blocked then .supervise
      else
        match s.workerTask with
        | some task =>
          match task.kind with
          | .investigate => .supervise
          | .repair => .approval
        | none => .supervise

def afterApproval (s : EvoCIState) : Node :=
  if s.status = some .failed ∨ s.approved = some false then .failed else .applyCandidate

def afterApply (s : EvoCIState) : Node :=
  if s.status = some .failed then .failed
  else if truthy s.batchConflict then .rollback
  else .verify

def afterVerify (s : EvoCIState) : Node :=
  let verdict := s.verification.map VerificationResult.status
  if verdict = some .infraError ∨ verdict = some .inconclusive then .failed
  else if truthy s.batchConflict then .rollback
  else if s.verification.any VerificationResult.passed then .finalize
  else .rollback

def afterRollback (cfg : Config) (s : EvoCIState) : Node :=
  if s.status = some .failed then .failed
  else if stopsRun s then .failed
  else if s.supervisorBatch < cfg.maxSupervisorBatches then .supervise
  else .failed

/-- The edges of the graph; `none` is END. -/
def route (cfg : Config) (node : Node) (s : EvoCIState) (files : Files) : Option Node :=
  match node with
  | .bootstrap => some .retrieveContext
  | .retrieveContext => some .supervise
  | .supervise => some (afterSupervise cfg s files)
  | .prepareTask => some (afterPrepare cfg s)
  | .worker => some (afterWorker s)
  | .approval => some (afterApproval s)
  | .applyCandidate => some (afterApply s)
  | .verify => some (afterVerify s)
  | .rollback => some (afterRollback cfg s)
  | .finalize => none
  | .failed => none

/-- The edges that `build_graph` declares. -/
def edges : List (Node × Node) :=
  [(.bootstrap, .retrieveContext), (.retrieveContext, .supervise),
    (.supervise, .prepareTask), (.supervise, .finalize), (.supervise, .failed),
    (.prepareTask, .worker), (.prepareTask, .supervise), (.prepareTask, .failed),
    (.worker, .supervise), (.worker, .approval), (.worker, .failed),
    (.approval, .applyCandidate), (.approval, .failed),
    (.applyCandidate, .verify), (.applyCandidate, .rollback), (.applyCandidate, .failed),
    (.verify, .finalize), (.verify, .rollback), (.verify, .failed),
    (.rollback, .supervise), (.rollback, .failed)]

/-- Every route is a declared edge. -/
theorem route_mem_edges {cfg : Config} {node next : Node} {s : EvoCIState} {files : Files}
    (h : route cfg node s files = some next) : (node, next) ∈ edges := by
  cases node with
  | bootstrap | retrieveContext =>
    cases h
    decide
  | finalize | failed => cases h
  | supervise =>
    cases h
    unfold afterSupervise
    split
    · decide
    · split
      · decide
      · split
        · split <;> decide
        · decide
  | prepareTask =>
    cases h
    unfold afterPrepare
    repeat' split
    all_goals decide
  | worker =>
    cases h
    unfold afterWorker
    repeat' split
    all_goals decide
  | approval =>
    cases h
    unfold afterApproval
    split <;> decide
  | applyCandidate =>
    cases h
    unfold afterApply
    repeat' split
    all_goals decide
  | verify =>
    cases h
    simp only [afterVerify]
    repeat' split
    all_goals decide
  | rollback =>
    cases h
    unfold afterRollback
    repeat' split
    all_goals decide

/-! ## Steps -/

/-- The approval interrupt: the value it is resumed with is stored until the
node that raised it finishes. -/
inductive Interrupt where
  | idle
  | waiting
  | answered (decision : Bool)
  deriving DecidableEq, Repr

def Interrupt.resume : Interrupt → Option Bool
  | .answered decision => some decision
  | _ => none

def nodeOutcome (cfg : Config) (env : NodeEnv) (interrupt : Interrupt) (node : Node)
    (s : EvoCIState) (w : World) : Outcome :=
  match node with
  | .bootstrap => bootstrap s w
  | .retrieveContext => retrieveContext s w
  | .supervise => supervise cfg env s w
  | .prepareTask => prepareTask cfg env s w
  | .worker => worker cfg env s w
  | .approval => approval interrupt.resume s w
  | .applyCandidate => applyCandidate cfg env s w
  | .verify => verify cfg env s w
  | .rollback => rollback cfg env s w
  | .finalize => finalize cfg env s w
  | .failed => failed cfg env s w

/-- One execution of a node. -/
def runNode (cfg : Config) (env : NodeEnv) (interrupt : Interrupt) (node : Node)
    (s : EvoCIState) (w : World) : Outcome :=
  (nodeOutcome cfg env interrupt node s w).afterLoss env.lost

/-- What a run remembers of one execution of a node. -/
structure NodeRun where
  node : Node
  env : NodeEnv
  interrupt : Interrupt
  before : EvoCIState
  world : World
  outcome : Outcome

/-- A run between two steps: the next node (`none` after END), the last
checkpoint, the world, and all node executions so far. -/
structure GraphRun where
  node : Option Node
  state : EvoCIState
  world : World
  interrupt : Interrupt := .idle
  history : List NodeRun := []

inductive Action where
  /-- The next node is executed, on the last checkpoint. -/
  | execute (env : NodeEnv)
  /-- The interrupt of `approval` is resumed with a decision. -/
  | answer (decision : Bool)
  /-- A new process takes the run over. -/
  | restart
  /-- Somebody else changes the workspace. -/
  | modify (files : Files)

def Action.env? : Action → Option NodeEnv
  | .execute env => some env
  | _ => none

def World.restart (w : World) : World := { w with ledger := w.ledger.restart }

/-- The run after its next node ended with `outcome`. -/
def GraphRun.advance (cfg : Config) (r : GraphRun) (node : Node) (outcome : Outcome) : GraphRun :=
  match outcome with
  | .done s w =>
    { r with node := route cfg node s w.files, state := s, world := w, interrupt := .idle }
  | .interrupted w => { r with world := w, interrupt := .waiting }
  | .raised _ w => { r with world := w }
  | .killed w => { r with world := w.restart }

def GraphRun.execute (cfg : Config) (env : NodeEnv) (r : GraphRun) : GraphRun :=
  match r.node with
  | none => r
  | some node =>
    let outcome := runNode cfg env r.interrupt node r.state r.world
    { r.advance cfg node outcome with
      history := r.history ++ [⟨node, env, r.interrupt, r.state, r.world, outcome⟩] }

def act (cfg : Config) : Action → GraphRun → GraphRun
  | .execute env, r => r.execute cfg env
  | .answer decision, r =>
    if r.interrupt = .waiting then { r with interrupt := .answered decision } else r
  | .restart, r => { r with world := r.world.restart }
  | .modify files, r => { r with world := { r.world with files } }

/-- A run before its first node, as a task file starts it. -/
def GraphRun.start (failedCommands : List (List String)) (files : Files)
    (maxModelCalls maxToolCalls : Nat) : GraphRun where
  node := some .bootstrap
  state := { failedCommands }
  world := { files, ledger := { budget := { maxModelCalls, maxToolCalls } } }

/-- A run that some actions lead to. -/
def Reached (cfg : Config) (r : GraphRun) : Prop :=
  ∃ failedCommands files maxModelCalls maxToolCalls actions,
    r = Run.run (act cfg) (GraphRun.start failedCommands files maxModelCalls maxToolCalls) actions

/-! ## A workspace with one file

A repair of the file `a`, for runs on fixed inputs. -/

namespace Sample

def root : Loc := ["w"]

def files : Files := fun l =>
  if l = ["w"] then some (.dir 0o755)
  else if l = ["w", "a"] then some (.file (.utf8 "old") 0o644)
  else none

def config (batches : Nat) : Config where
  root := root
  runId := "run"
  maxSupervisorBatches := batches
  git := fun _ _ => (1, "")
  sha256 := fun _ => ""
  decodeReplace := fun _ => ""
  storable := fun name => !name.toList.contains '/'

def listing : Loc → List String := fun l => if l = root then ["a"] else []

def copying : Copying := ⟨listing, 4, none, noFiles, 0o022⟩

def restoring : Restoring := ⟨listing, listing, 4, none, 0o022⟩

def dispatch (task : WorkerTask) (valid : task.Valid) : SupervisorDecision where
  action := .dispatch
  reasoningSummary := "repair"
  tasks := [task]
  tasksValid := by simpa using valid
  dispatchOne := fun _ => rfl
  stopComplete := fun h => by cases h

def task (taskId : String) : WorkerTask := { taskId, kind := .repair, writeScope := ["a"] }

theorem task_valid {taskId : String} (h : strip taskId ≠ "") : (task taskId).Valid :=
  ⟨h, ⟨fun hkind => absurd hkind (by simp [task]), rfl⟩⟩

theorem t_valid : (task "t").Valid := task_valid (by decide)

theorem u_valid : (task "u").Valid := task_valid (by decide)

theorem t1_valid : (task "t1").Valid := task_valid (by decide)

theorem t2_valid : (task "t2").Valid := task_valid (by decide)

/-- A repair that returns `edits`. -/
def repair (taskId : String) (edits : List FileEdit) : WorkerRun where
  result := { taskId, status := .completed, summary := "done" }
  edits

/-- The actions of one batch up to `apply_candidate`, without an approval. -/
def batch (taskId : String) (valid : (task taskId).Valid) (edits : List FileEdit) : List Action :=
  [.execute { decide := .returned (dispatch (task taskId) valid) }, .execute { copying },
    .execute { execute := .returned (repair taskId edits) }, .execute {}, .execute {}]

/-- A verification whose commands exit with this code. -/
def verifying (exitCode : Int) : Action :=
  .execute { commandOutcome := fun _ => .ran exitCode "" "" false }

def rollingBack : Action := .execute { restoring }

/-- A run over the sample with one mandatory command. -/
def start (batches : Nat) (actions : List Action) : GraphRun :=
  Run.run (act (config batches)) (GraphRun.start [["test"]] files 9 9)
    ([.execute {}, .execute {}] ++ actions)

theorem start_reached (batches : Nat) (actions : List Action) :
    Reached (config batches) (start batches actions) :=
  ⟨_, _, _, _, _, rfl⟩

def edit : FileEdit := .replace "a" "new" none

example : (start 1 (batch "t" t_valid [edit] ++
    [verifying 0, .execute {}])).state.status = some .success := by
  decide +kernel

end Sample

end EvoCI
