import EvoCI.Graph.Progress
import EvoCI.Graph.Success

/-! A task of a campaign round that is executed again: the graph is invoked anew on
the thread and the workspace that the earlier execution left behind. -/

namespace EvoCI

open Library

/-! ## Invoking the graph on an existing thread -/

/-- The input is an update of the stored channels, and the graph starts again from
START in a new process; the workspace is kept. -/
def GraphRun.reinvoke (failedCommands : List (List String)) (r : GraphRun) : GraphRun :=
  { r with
    node := some .bootstrap
    state := { r.state with failedCommands }
    world := r.world.restart
    interrupt := .idle }

inductive TaskAction where
  | graph (action : Action)
  /-- The round is resumed, and the task with it. -/
  | reinvoke

def actTask (cfg : Config) (failedCommands : List (List String)) : TaskAction → GraphRun → GraphRun
  | .graph action, r => act cfg action r
  | .reinvoke, r => r.reinvoke failedCommands

/-- Executions of a task, one after another, up to some point. -/
def TaskReached (cfg : Config) (failedCommands : List (List String)) (r : GraphRun) : Prop :=
  ∃ files maxModelCalls maxToolCalls actions,
    r = Run.run (actTask cfg failedCommands)
      (GraphRun.start failedCommands files maxModelCalls maxToolCalls) actions

/-! ## A clean start -/

/-- The accumulated fields that `bootstrap` returns as empty lists are empty, and no
failure class is left. -/
structure Reset (s : EvoCIState) : Prop where
  workerResults : s.workerResults = []
  completedTaskIds : s.completedTaskIds = []
  failureClasses : s.failureClasses = []
  budgetFailures : s.budgetFailures = []
  evidence : s.evidence = []
  verificationHistory : s.verificationHistory = []
  failureClass : s.failureClass = none

/-- The execution wrote that edit into the workspace. -/
def NodeRun.wrote (e : NodeRun) (edit : FileEdit) : Prop :=
  e.node = .applyCandidate ∧ edit ∈ e.before.edits ∧
    edit.path ∈ e.outcome.world.writes.drop e.world.writes.length

/-- The final review accepted the candidate that was applied last. -/
def AcceptedIn (later : List NodeRun) : Prop :=
  ∃ v ∈ later.takeWhile (·.node ≠ .applyCandidate), v.node = .verify ∧
    ∃ s w, v.outcome = .done s w ∧ s.review.any ReviewResult.accepted = true

/-- An edit that was applied but never accepted. -/
def Unaccepted (history : List NodeRun) (edit : FileEdit) : Prop :=
  ∃ before e later, history = before ++ e :: later ∧ e.wrote edit ∧ ¬ AcceptedIn later

/-- The execution takes the snapshot of its batch. -/
def NodeRun.takesSnapshot (e : NodeRun) (snapshot : Snapshot) : Prop :=
  e.node = .prepareTask ∧ e.world.snapshots e.before.supervisorBatch = none ∧
    e.outcome.world.snapshots e.before.supervisorBatch = some snapshot

/-- The file of the edit has the content that the edit gives it. -/
def HoldsEdit (tree : Files) (root : Loc) (edit : FileEdit) : Prop :=
  tree.fileText root edit.path = .ok (readBack edit.intended)

/-- What is asked of executing the task again: `bootstrap` leaves reset fields, and
the first snapshot after it holds no unaccepted edit of the earlier executions. -/
structure StartsClean (cfg : Config) (failedCommands : List (List String)) (r : GraphRun) :
    Prop where
  reset : ∀ env w s w',
    runNode cfg env .idle .bootstrap (r.reinvoke failedCommands).state w = .done s w' → Reset s
  snapshot : ∀ actions before e after snapshot,
    (Run.run (act cfg) (r.reinvoke failedCommands) actions).history =
      r.history ++ before ++ e :: after →
    (∀ earlier ∈ before, ∀ tree, ¬ earlier.takesSnapshot tree) → e.takesSnapshot snapshot →
    ∀ edit, Unaccepted r.history edit → ¬ HoldsEdit snapshot.tree cfg.root edit

/-- No stored checkpoint is of a worker, and none has failed. -/
def StoppedEarly (history : List NodeRun) : Prop :=
  ∀ e ∈ history, ∀ s w, e.outcome = .done s w → e.node ≠ .worker ∧ s.status ≠ some .failed

/-! ## What a stored checkpoint adds -/

/-- Nodes that a batch comes to with a worker's result. -/
def afterResult (node : Node) : Bool :=
  node ∈ [.approval, .applyCandidate, .verify, .rollback, .finalize]

section Updates

variable {cfg : Config} {s s' : EvoCIState} {node : Node}

theorem update_worker (h : Update cfg s .worker s') : s'.workerResults ≠ [] := by
  cases h with
  | outOfBudget task message => simp [workerExhausted]
  | unreachable task message => simp [workerUnreachable]
  | returned task run =>
    unfold workerReturned
    simp only
    split <;> simp

theorem verifyCompleted_results (verification : VerificationResult) (id : String) :
    (verifyCompleted s verification id).workerResults = s.workerResults := by
  unfold verifyCompleted
  split <;> rfl

theorem update_results (h : Update cfg s node s') (hresults : s.workerResults ≠ []) :
    s'.workerResults ≠ [] := by
  cases h with
  | outOfBudget task message => simp [workerExhausted]
  | unreachable task message => simp [workerUnreachable]
  | returned task run => exact update_worker (.returned task run)
  | verified verification id =>
    rw [verifyCompleted_results]
    exact hresults
  | _ => exact hresults

/-- Fields in which a run is still as it was before its first worker result. -/
structure SameFields (s s' : EvoCIState) : Prop where
  completedTaskIds : s'.completedTaskIds = s.completedTaskIds
  failureClasses : s'.failureClasses = s.failureClasses
  budgetFailures : s'.budgetFailures = s.budgetFailures
  evidence : s'.evidence = s.evidence
  verificationHistory : s'.verificationHistory = s.verificationHistory
  failureClass : s'.failureClass = s.failureClass
  status : s'.status = s.status ∨ s'.status = some .running

theorem SameFields.refl (s : EvoCIState) : SameFields s s :=
  ⟨rfl, rfl, rfl, rfl, rfl, rfl, .inl rfl⟩

/-- A node that runs before any result leaves the fields as they are or fails. -/
theorem update_early (h : Update cfg s node s') (hworker : node ≠ .worker)
    (hearly : afterResult node = false) :
    s'.workerResults = s.workerResults ∧ s'.verification = s.verification ∧
      (SameFields s s' ∨ s'.failureClass ≠ none ∧ s'.status = some .failed) := by
  cases h with
  | bootstrapped => exact ⟨rfl, rfl, .inl ⟨rfl, rfl, rfl, rfl, rfl, rfl, .inr rfl⟩⟩
  | retrieved | stillFailed | decided | rejected | prepared =>
    exact ⟨rfl, rfl, .inl ⟨rfl, rfl, rfl, rfl, rfl, rfl, .inl rfl⟩⟩
  | usedUp | undecided | unprepared | exhausted | ended =>
    exact ⟨rfl, rfl, .inr ⟨Option.some_ne_none _, rfl⟩⟩
  | outOfBudget | unreachable | returned => exact absurd rfl hworker
  | unasked | answered | nothing | refused | applied | conflict | reviewed | verified | rolledBack
  | stuck | stopped | deferred | succeeded => cases hearly

theorem update_schema (h : Update cfg s node s') :
    s'.schemaVersion = s.schemaVersion ∨ s'.schemaVersion = some orchestrationSchemaVersion := by
  cases h with
  | bootstrapped => exact .inr rfl
  | returned task run =>
    unfold workerReturned
    simp only
    split <;> exact .inl rfl
  | verified verification id =>
    unfold verifyCompleted
    left
    split <;> rfl
  | _ => exact .inl rfl

/-- A batch comes to a later node only from a worker, from such a node, or with a
verification. -/
theorem route_afterResult {files : Files} {next : Node} (h : route cfg node s files = some next)
    (hnext : afterResult next = true) :
    node = .worker ∨ afterResult node = true ∨ s.verification.isSome := by
  have hall : ∀ edge ∈ edges, afterResult edge.2 = true →
      edge.1 = .supervise ∧ edge.2 = .finalize ∨ edge.1 = .worker ∨ afterResult edge.1 = true := by
    decide
  rcases hall _ (route_mem_edges h) hnext with ⟨rfl, rfl⟩ | hworker | hlater
  · obtain ⟨verification, hsome, -⟩ := afterSupervise_finalize (Option.some.inj h)
    exact .inr (.inr (by simp [hsome]))
  · exact .inl hworker
  · exact .inr (.inl hlater)

end Updates

/-! ## Runs -/

/-- The execution stored a checkpoint with status failed. -/
def NodeRun.stoppedFailed (e : NodeRun) : Prop :=
  ∃ s w, e.outcome = .done s w ∧ s.status = some .failed

/-- What the fields of a run tell of its history, as long as there is no result. -/
structure Unresulted (r : GraphRun) : Prop where
  unworked : ∀ e ∈ r.history, ¬ e.worked ∧ e.node ≠ .applyCandidate
  unverified : r.state.verification = none
  early : ∀ node, r.node = some node → afterResult node = false
  fields : r.state.failureClass = none → Reset r.state ∧ r.state.status ≠ some .failed ∧
    ∀ e ∈ r.history, ¬ e.stoppedFailed
  failed : r.state.failureClass ≠ none → ∃ e ∈ r.history, e.stoppedFailed

/-- A run has a worker's result, in its fields and in its history, or none. -/
structure Accumulates (r : GraphRun) : Prop where
  schema : r.state.schemaVersion = none ∨
    r.state.schemaVersion = some orchestrationSchemaVersion
  touched : r.state.workerResults ≠ [] → ∃ e ∈ r.history, e.worked
  unresulted : r.state.workerResults = [] → Unresulted r

section Kept

variable {cfg : Config} {r : GraphRun} {env : NodeEnv} {node : Node} {s : EvoCIState} {w : World}

/-- Before any result, a checkpoint that is no worker's keeps the history untold. -/
theorem Unresulted.done (hr : Unresulted r) (hresults : r.state.workerResults = [])
    (hnode : r.node = some node) (hworker : node ≠ .worker)
    (h : runNode cfg env r.interrupt node r.state r.world = .done s w) :
    Unresulted ⟨route cfg node s w.files, s, w, .idle,
      r.history ++ [⟨node, env, r.interrupt, r.state, r.world, .done s w⟩]⟩ := by
  have hearly := hr.early node hnode
  obtain ⟨hsame, hverification, hfields⟩ := update_early (runNode_update h) hworker hearly
  refine ⟨?_, hverification.trans hr.unverified, ?_, ?_, ?_⟩
  · intro e he
    rcases List.mem_append.mp he with he | he
    · exact hr.unworked e he
    · rw [List.mem_singleton] at he
      subst he
      refine ⟨fun hworked => hworker hworked.1, fun happly => ?_⟩
      have happly : node = .applyCandidate := happly
      rw [happly] at hearly
      cases hearly
  · intro next hnext
    by_contra hlate
    rw [Bool.not_eq_false] at hlate
    rcases route_afterResult hnext hlate with hwork | hlater | hverified
    · exact hworker hwork
    · rw [hearly] at hlater
      cases hlater
    · rw [hverification.trans hr.unverified] at hverified
      cases hverified
  · intro hnone
    rcases hfields with hfields | ⟨hclass, -⟩
    · obtain ⟨hreset, hstatus, hhistory⟩ := hr.fields (hfields.failureClass ▸ hnone)
      have hrunning : s.status ≠ some .failed := by
        rcases hfields.status with hkept | hrunning
        · rw [hkept]
          exact hstatus
        · rw [hrunning]
          decide
      refine ⟨⟨hsame.trans hresults, hfields.completedTaskIds.trans hreset.completedTaskIds,
        hfields.failureClasses.trans hreset.failureClasses,
        hfields.budgetFailures.trans hreset.budgetFailures,
        hfields.evidence.trans hreset.evidence,
        hfields.verificationHistory.trans hreset.verificationHistory, hnone⟩, hrunning, ?_⟩
      intro e he
      rcases List.mem_append.mp he with he | he
      · exact hhistory e he
      · rw [List.mem_singleton] at he
        subst he
        rintro ⟨s', w', hout, hfailed⟩
        cases hout
        exact hrunning hfailed
    · exact absurd hnone hclass
  · intro hclass
    rcases hfields with hfields | ⟨-, hfailed⟩
    · obtain ⟨e, he, hstopped⟩ := hr.failed (hfields.failureClass ▸ hclass)
      exact ⟨e, List.mem_append_left _ he, hstopped⟩
    · exact ⟨_, List.mem_append_right _ (List.mem_singleton.mpr rfl), s, w, rfl, hfailed⟩

/-- An execution that stores no checkpoint tells nothing. -/
theorem Unresulted.stopped {outcome : Outcome} (hr : Unresulted r) (hnode : r.node = some node)
    (hstopped : outcome.isDone = false) :
    Unresulted { r with history :=
      r.history ++ [⟨node, env, r.interrupt, r.state, r.world, outcome⟩] } := by
  refine ⟨?_, hr.unverified, hr.early, ?_, ?_⟩
  · intro e he
    rcases List.mem_append.mp he with he | he
    · exact hr.unworked e he
    · rw [List.mem_singleton] at he
      subst he
      refine ⟨fun hworked => ?_, fun happly => ?_⟩
      · have hdone := hworked.2
        rw [hstopped] at hdone
        cases hdone
      · have happly : node = .applyCandidate := happly
        have hearly := hr.early node hnode
        rw [happly] at hearly
        cases hearly
  · intro hnone
    obtain ⟨hreset, hstatus, hhistory⟩ := hr.fields hnone
    refine ⟨hreset, hstatus, fun e he => ?_⟩
    rcases List.mem_append.mp he with he | he
    · exact hhistory e he
    · rw [List.mem_singleton] at he
      subst he
      rintro ⟨s', w', hout, -⟩
      have hout : outcome = .done s' w' := hout
      rw [hout] at hstopped
      cases hstopped
  · intro hclass
    obtain ⟨e, he, hfailed⟩ := hr.failed hclass
    exact ⟨e, List.mem_append_left _ he, hfailed⟩

/-- Invoking the graph again changes no field and no history. -/
theorem Accumulates.reinvoke (hr : Accumulates r) (failedCommands : List (List String)) :
    Accumulates (r.reinvoke failedCommands) where
  schema := hr.schema
  touched := hr.touched
  unresulted hresults := by
    have hunresulted := hr.unresulted hresults
    refine ⟨hunresulted.unworked, hunresulted.unverified, ?_, fun hnone => ?_, hunresulted.failed⟩
    · intro node hnode
      cases hnode
      rfl
    · obtain ⟨hreset, hstatus, hhistory⟩ := hunresulted.fields hnone
      exact ⟨⟨hreset.workerResults, hreset.completedTaskIds, hreset.failureClasses,
        hreset.budgetFailures, hreset.evidence, hreset.verificationHistory, hreset.failureClass⟩,
        hstatus, hhistory⟩

end Kept

theorem accumulates_kept {cfg : Config} (r : GraphRun) (a : Action) (h : Accumulates r) :
    Accumulates (act cfg a r) := by
  refine @kept_of_step cfg (fun _ _ => True) Accumulates ?_ ?_ ?_ r a trivial h
  · intro r r' hr hnode hstate hhistory
    refine ⟨by rw [hstate]; exact hr.schema, ?_, ?_⟩
    · rw [hstate, hhistory]
      exact hr.touched
    · intro hresults
      rw [hstate] at hresults
      have hunresulted := hr.unresulted hresults
      refine ⟨?_, ?_, ?_, ?_, ?_⟩
      · rw [hhistory]
        exact hunresulted.unworked
      · rw [hstate]
        exact hunresulted.unverified
      · rw [hnode]
        exact hunresulted.early
      · rw [hstate, hhistory]
        exact hunresulted.fields
      · rw [hstate, hhistory]
        exact hunresulted.failed
  · intro r env node s w _ hr hnode hout
    have hupdate := runNode_update hout
    refine ⟨?_, ?_, ?_⟩
    · rcases update_schema hupdate with hkept | hnew
      · show s.schemaVersion = none ∨ _
        rw [hkept]
        exact hr.schema
      · exact .inr hnew
    · intro hresults
      by_cases hbefore : r.state.workerResults = []
      · by_cases hworker : node = .worker
        · exact ⟨_, List.mem_append_right _ (List.mem_singleton.mpr rfl), hworker, rfl⟩
        · have hearly := (hr.unresulted hbefore).early node hnode
          exact absurd ((update_early hupdate hworker hearly).1.trans hbefore) hresults
      · obtain ⟨e, he, hworked⟩ := hr.touched hbefore
        exact ⟨e, List.mem_append_left _ he, hworked⟩
    · intro hresults
      have hbefore : r.state.workerResults = [] := by
        by_contra hbefore
        exact update_results hupdate hbefore hresults
      have hworker : node ≠ .worker := by
        rintro rfl
        exact update_worker hupdate hresults
      exact (hr.unresulted hbefore).done hbefore hnode hworker hout
  · intro r env node outcome _ hr hnode hout hstopped
    refine ⟨hr.schema, ?_, ?_⟩
    · intro hresults
      obtain ⟨e, he, hworked⟩ := hr.touched hresults
      exact ⟨e, List.mem_append_left _ he, hworked⟩
    · intro hresults
      exact (hr.unresulted hresults).stopped hnode hstopped

theorem accumulates_of_task {cfg : Config} {failedCommands : List (List String)} {r : GraphRun}
    (h : TaskReached cfg failedCommands r) : Accumulates r := by
  obtain ⟨files, maxModelCalls, maxToolCalls, actions, rfl⟩ := h
  refine Run.invariant ?_ ?_ actions
  · intro r a hr
    cases a with
    | graph action => exact accumulates_kept r action hr
    | reinvoke => exact hr.reinvoke failedCommands
  · refine ⟨.inl rfl, fun h => absurd rfl h, fun _ => ⟨?_, rfl, ?_, ?_, fun h => absurd rfl h⟩⟩
    · intro e he
      cases he
    · intro node hnode
      cases hnode
      rfl
    · intro _
      refine ⟨⟨rfl, rfl, rfl, rfl, rfl, rfl, rfl⟩, fun h => ?_, fun e he => ?_⟩
      · cases h
      · cases he

theorem runNode_bootstrap {cfg : Config} {s : EvoCIState} {w : World}
    (h : s.schemaVersion = none ∨ s.schemaVersion = some orchestrationSchemaVersion) :
    runNode cfg {} .idle .bootstrap s w = .done { s with
      schemaVersion := some orchestrationSchemaVersion
      phase := some .bootstrap
      status := some .running } w := by
  unfold runNode nodeOutcome bootstrap
  simp only [if_pos h]
  rfl

/-- Actions of one execution are actions of the task. -/
theorem run_graph (cfg : Config) (failedCommands : List (List String)) (r : GraphRun)
    (actions : List Action) :
    Run.run (actTask cfg failedCommands) r (actions.map .graph) =
      Run.run (act cfg) r actions := by
  induction actions generalizing r with
  | nil => rfl
  | cons action actions ih => exact ih (act cfg action r)

/-- Executing a task again starts clean exactly when the earlier executions stored
no worker's checkpoint and no failed one. -/
theorem starts_clean_iff {cfg : Config} {failedCommands : List (List String)} {r : GraphRun}
    (h : TaskReached cfg failedCommands r) :
    StartsClean cfg failedCommands r ↔ StoppedEarly r.history := by
  have hr := accumulates_of_task h
  constructor
  · intro hclean
    -- the new execution can complete `bootstrap`, and its fields are the old ones
    have hreset := hclean.reset {} r.world _ _ (runNode_bootstrap hr.schema)
    have hunresulted := hr.unresulted hreset.workerResults
    obtain ⟨-, -, hhistory⟩ := hunresulted.fields hreset.failureClass
    intro e he s w hout
    refine ⟨fun hworker => (hunresulted.unworked e he).1 ⟨hworker, by rw [hout]; rfl⟩, ?_⟩
    exact fun hfailed => hhistory e he ⟨s, w, hout, hfailed⟩
  · intro hearly
    have hresults : r.state.workerResults = [] := by
      by_contra hresults
      obtain ⟨e, he, hworker, hdone⟩ := hr.touched hresults
      cases hout : e.outcome with
      | done s w => exact (hearly e he s w hout).1 hworker
      | _ => simp [hout, Outcome.isDone] at hdone
    have hunresulted := hr.unresulted hresults
    have hclass : r.state.failureClass = none := by
      by_contra hclass
      obtain ⟨e, he, s, w, hout, hfailed⟩ := hunresulted.failed hclass
      exact (hearly e he s w hout).2 hfailed
    refine ⟨?_, ?_⟩
    · intro env w s w' hdone
      obtain ⟨hreset, -, -⟩ := hunresulted.fields hclass
      obtain ⟨rfl, -⟩ := bootstrap_done (runNode_done hdone)
      exact ⟨hreset.workerResults, hreset.completedTaskIds, hreset.failureClasses,
        hreset.budgetFailures, hreset.evidence, hreset.verificationHistory, hreset.failureClass⟩
    · -- nothing was ever applied
      rintro _ _ _ _ _ _ _ _ edit ⟨before, e, later, hhistory, hwrote, -⟩
      have he : e ∈ r.history := by simp [hhistory]
      exact absurd hwrote.1 (hunresulted.unworked e he).2

namespace Sample

/-- An execution that dies in `prepare_task`, before any worker. -/
def stoppedEarly : GraphRun :=
  start 2 [.execute { decide := .returned (dispatch (task "t") t_valid) },
    .execute { copying, lost := true }]

theorem task_of_start (batches : Nat) (actions : List Action) :
    TaskReached (config batches) [["test"]] (start batches actions) :=
  ⟨files, 9, 9, _, (run_graph (config batches) [["test"]] _ _).symm⟩

/-- The execution ends neither in `worker` nor with a failure. -/
def beforeWorker (e : NodeRun) : Bool :=
  match e.outcome with
  | .done s _ => e.node ≠ .worker ∧ s.status ≠ some .failed
  | _ => true

theorem starts_clean_before_worker : StartsClean (config 2) [["test"]] stoppedEarly := by
  refine (starts_clean_iff (task_of_start 2 _)).mpr ?_
  have hall : stoppedEarly.history.all beforeWorker := by decide +kernel
  intro e he s w hout
  have hone := List.all_eq_true.mp hall e he
  rw [beforeWorker, hout] at hone
  exact of_decide_eq_true hone

/-- An execution that dies in `verify`, with its candidate in the workspace. -/
def stoppedInVerify : GraphRun :=
  start 2 (batch "t" t_valid [edit] ++
    [.execute { verifyFault := some (.killed 0) }])

/-- The task is executed again, up to the first snapshot. -/
def executedAgain : GraphRun :=
  Run.run (act (config 2)) (stoppedInVerify.reinvoke [["test"]])
    [.execute {}, .execute {},
      .execute { decide := .returned (dispatch (task "u") u_valid) },
      .execute { copying }]

/-- The new execution starts with the old result, and its first snapshot holds the
edit that nobody accepted. -/
theorem starts_with_old_candidate :
    TaskReached (config 2) [["test"]] stoppedInVerify ∧
      ¬ StartsClean (config 2) [["test"]] stoppedInVerify ∧
      executedAgain.state.workerResults.length = 1 ∧
      executedAgain.state.completedTaskIds = ["t"] ∧
      executedAgain.state.batchSnapshotPath = some 2 ∧
      (executedAgain.world.snapshots 2).any (fun snapshot =>
        snapshot.tree.fileText root "a" = .ok (some "new")) = true := by
  refine ⟨task_of_start 2 _, fun hclean => ?_, by decide +kernel, by decide +kernel,
    by decide +kernel, by decide +kernel⟩
  have hreset := hclean.reset {} stoppedInVerify.world _ _
    (runNode_bootstrap (.inr (by decide +kernel)))
  have hresults : stoppedInVerify.state.workerResults = [] := hreset.workerResults
  revert hresults
  decide +kernel

end Sample

end EvoCI
