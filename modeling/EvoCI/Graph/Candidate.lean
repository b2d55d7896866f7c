import EvoCI.Graph.Progress

/-! Whose edits `apply_candidate` writes. The candidate lives in the graph state
from the worker that returned it on, through rollbacks and later batches. -/

namespace EvoCI

open Library

/-! ## The candidate and the batch it comes from -/

/-- The edits that a completed worker returned. -/
def NodeRun.collected (e : NodeRun) : Option (List FileEdit) :=
  if e.node = .worker ∧ e.outcome.isDone = true then
    match e.env.execute with
    | .returned run => some run.edits
    | _ => none
  else none

/-- What the completed workers of a batch returned. -/
def collectedIn (history : List NodeRun) (batch : Nat) : List (List FileEdit) :=
  history.filterMap fun e => if e.before.supervisorBatch = batch then e.collected else none

/-- Every execution of `apply_candidate` is given the edits that the one worker
of its batch returned. -/
def AppliesCollected (history : List NodeRun) : Prop :=
  ∀ e ∈ history, e.node = .applyCandidate →
    collectedIn history e.before.supervisorBatch = [e.before.edits]

instance (history : List NodeRun) : Decidable (AppliesCollected history) :=
  inferInstanceAs (Decidable (∀ e ∈ history, e.node = .applyCandidate →
    collectedIn history e.before.supervisorBatch = [e.before.edits]))

/-- A repair that completes without edits finds no candidate of an earlier batch. -/
def FreshCandidate (a : Action) (r : GraphRun) : Prop :=
  r.node = some .worker → ∀ env ∈ a.env?, ∀ task ∈ r.state.workerTask,
    ∀ run ∈ env.execute.value?, task.kind = .repair → run.result.status = .completed →
      run.edits = [] → r.state.edits = []

instance (a : Action) (r : GraphRun) : Decidable (FreshCandidate a r) :=
  inferInstanceAs (Decidable (r.node = some .worker → ∀ env ∈ a.env?,
    ∀ task ∈ r.state.workerTask, ∀ run ∈ env.execute.value?, task.kind = .repair →
      run.result.status = .completed → run.edits = [] → r.state.edits = []))

/-- The candidate of the batch is known from the worker until it is applied. -/
structure Collected (r : GraphRun) : Prop where
  ready : r.node = some .approval ∨ r.node = some .applyCandidate →
    collectedIn r.history r.state.supervisorBatch = [r.state.edits]
  applied : AppliesCollected r.history

theorem collectedIn_append (history : List NodeRun) (e : NodeRun) (batch : Nat) :
    collectedIn (history ++ [e]) batch = collectedIn history batch ++
      (if e.before.supervisorBatch = batch then e.collected else none).toList := by
  unfold collectedIn
  rw [List.filterMap_append]
  cases h : (if e.before.supervisorBatch = batch then e.collected else none) <;> simp [h]

theorem collected_eq_none {e : NodeRun} (h : ¬ e.worked) : e.collected = none := if_neg h

/-- An execution other than a completed worker changes no batch's candidate. -/
theorem collectedIn_append_of_not_worked {history : List NodeRun} {e : NodeRun} (h : ¬ e.worked)
    (batch : Nat) : collectedIn (history ++ [e]) batch = collectedIn history batch := by
  rw [collectedIn_append, collected_eq_none h]
  split <;> simp

/-- Before its worker completed, a batch has no candidate. -/
theorem collectedIn_fresh {cfg : Config} {r : GraphRun} (h : Batches cfg r)
    (hnode : r.node = some .worker) : collectedIn r.history r.state.supervisorBatch = [] := by
  unfold collectedIn
  rw [List.filterMap_eq_nil_iff]
  intro e he
  split
  next hbatch =>
    apply collected_eq_none
    intro hworked
    have := h.fresh (.inr hnode) e he hworked
    omega
  · rfl

theorem appliesCollected_append {history : List NodeRun} {e : NodeRun} (hworked : ¬ e.worked)
    (h : AppliesCollected history)
    (hnew : e.node = .applyCandidate →
      collectedIn history e.before.supervisorBatch = [e.before.edits]) :
    AppliesCollected (history ++ [e]) := by
  intro other hother hnode
  rw [collectedIn_append_of_not_worked hworked]
  rcases List.mem_append.mp hother with hin | hin
  · exact h other hin hnode
  · rw [List.mem_singleton] at hin
    subst hin
    exact hnew hnode

/-! ## What the nodes do to the candidate -/

/-- A worker that leads to an approval leaves its own edits as the candidate,
unless it returned none. -/
theorem worker_candidate {cfg : Config} {env : NodeEnv} {s s' : EvoCIState} {w w' : World}
    (h : worker cfg env s w = .done s' w') (hnext : afterWorker s' = .approval) :
    ∃ task run, s.workerTask = some task ∧ task.kind = .repair ∧ env.execute = .returned run ∧
      run.result.status = .completed ∧
      s'.edits = if run.edits = [] then s.edits else run.edits := by
  obtain ⟨hrunning, hbudget, result, task', hresult, hstatus, htask', hkind⟩ :=
    afterWorker_approval hnext
  obtain ⟨task, htask, -, ⟨message, rfl⟩ | ⟨message, rfl⟩ | ⟨run, hrun, rfl⟩⟩ := worker_done h
  · simp [workerExhausted] at hbudget
  · exact absurd rfl hrunning
  · have hexhausted : ¬ (run.result.status = .budgetExhausted ∧ run.edits = []) := by
      rintro hexhausted
      simp [workerReturned, hexhausted] at hrunning
    simp only [workerReturned, if_neg hexhausted] at hresult htask' ⊢
    obtain rfl : task = task' := Option.some.inj (htask.symm.trans htask')
    simp only [EvoCIState.latestResult, List.getLast?_concat, Option.some.injEq] at hresult
    subst hresult
    refine ⟨task, run, htask, hkind, hrun, hstatus, ?_⟩
    unfold EvoCIState.edits
    simp only
    split
    · rfl
    · rfl

/-- `approval` passes the candidate on, in its batch. -/
theorem approval_candidate {resume : Option Bool} {s s' : EvoCIState} {w w' : World}
    (h : approval resume s w = .done s' w') :
    s'.edits = s.edits ∧ s'.supervisorBatch = s.supervisorBatch := by
  obtain ⟨-, ⟨-, rfl⟩ | ⟨_, -, rfl⟩⟩ := approval_done h <;> exact ⟨rfl, rfl⟩

/-- A resumed or crashed execution of `apply_candidate` writes paths of its
candidate only; without a candidate it leaves the world alone. -/
theorem applyCandidate_writes (cfg : Config) (env : NodeEnv) (interrupt : Interrupt)
    (s : EvoCIState) (w : World) :
    (∃ new, (runNode cfg env interrupt .applyCandidate s w).world.writes = w.writes ++ new ∧
        new.Sublist (s.edits.map FileEdit.path)) ∧
      (s.edits = [] → (runNode cfg env interrupt .applyCandidate s w).world = w) := by
  have hworld : (runNode cfg env interrupt .applyCandidate s w).world =
      (applyCandidate cfg env s w).world := afterLoss_world _ _
  rw [hworld]
  have hsame : ∃ new, w.writes = w.writes ++ new ∧ new.Sublist (s.edits.map FileEdit.path) :=
    ⟨[], by simp, List.nil_sublist _⟩
  unfold applyCandidate
  split
  · exact ⟨hsame, fun _ => rfl⟩
  next hedits =>
    refine ⟨?_, fun hnil => absurd hnil hedits⟩
    split
    · exact hsame
    · exact hsame
    · split
      next plan planned hplan =>
        obtain ⟨-, -, -, -, hwrites, -⟩ := obtainPlan_ready hplan
        obtain ⟨new, hnew, hsub⟩ := applyEdits_writes (applyContext cfg env s plan.baseline)
          env.crash s.edits planned.attempt
        refine ⟨new, ?_, hsub⟩
        rw [← hwrites]
        unfold applyPlanned
        rw [show planned.writes = planned.attempt.writes from rfl, ← hnew]
        split
        all_goals
          next hresult =>
            rw [hresult]
            rfl
      · exact hsame
      · exact hsame

/-! ## Runs -/

theorem collected_kept {cfg : Config} (r : GraphRun) (a : Action)
    (hok : FreshCandidate a r ∧ Batches cfg r) (h : Collected r) : Collected (act cfg a r) := by
  refine @kept_of_step cfg (fun a r => FreshCandidate a r ∧ Batches cfg r) Collected
    ?_ ?_ ?_ r a hok h
  · intro r r' hr hnode hstate hhistory
    refine ⟨?_, ?_⟩
    · rw [hnode, hstate, hhistory]
      exact hr.ready
    · rw [hhistory]
      exact hr.applied
  · intro r env node s w ⟨hfresh, hbatches⟩ hr hnode hrun
    have hdone := runNode_done hrun
    by_cases hworker : node = .worker
    · -- the one node that gives a batch its candidate
      subst hworker
      have hnone := collectedIn_fresh hbatches hnode
      have hbatch : s.supervisorBatch = r.state.supervisorBatch := by
        simpa using batch_done hrun
      refine ⟨?_, ?_⟩
      · intro hnext
        have hnext : afterWorker s = .approval := by
          rcases hnext with hnext | hnext
          · exact Option.some.inj hnext
          · have hroute : route cfg .worker s w.files = some .applyCandidate := hnext
            exact absurd (route_mem_edges hroute) (by decide)
        obtain ⟨task, run, htask, hkind, hexecute, hstatus, hedits⟩ :=
          worker_candidate hdone hnext
        have hown : s.edits = run.edits := by
          rw [hedits]
          split
          next hnil =>
            have hvalue : run ∈ env.execute.value? := by
              rw [hexecute]
              rfl
            rw [hfresh hnode env rfl task htask run hvalue hkind hstatus hnil, hnil]
          · rfl
        have hcollected : (⟨.worker, env, r.interrupt, r.state, r.world, .done s w⟩ :
            NodeRun).collected = some run.edits := by
          simp [NodeRun.collected, Outcome.isDone, hexecute]
        show collectedIn (r.history ++ [_]) s.supervisorBatch = [s.edits]
        rw [collectedIn_append, hbatch, hnone, hown, if_pos rfl, hcollected]
        rfl
      · intro e he happly
        rcases List.mem_append.mp he with he | he
        · -- an earlier application lies in an earlier batch
          have hcollected := hr.applied e he happly
          have hne : r.state.supervisorBatch ≠ e.before.supervisorBatch := by
            intro heq
            rw [← heq, hnone] at hcollected
            cases hcollected
          rw [collectedIn_append, hcollected]
          simp [hne]
        · rw [List.mem_singleton] at he
          subst he
          cases happly
    · have hnot : ¬ (⟨node, env, r.interrupt, r.state, r.world, .done s w⟩ : NodeRun).worked :=
        fun hworked => hworker hworked.1
      refine ⟨?_, ?_⟩
      · intro hnext
        have happroval : node = .approval := by
          have hroute : route cfg node s w.files = some .approval ∨
              route cfg node s w.files = some .applyCandidate := hnext
          rcases hroute with hroute | hroute
          · have hedge := route_mem_edges hroute
            cases node <;> first | exact absurd rfl hworker | (revert hedge; decide)
          · have hedge := route_mem_edges hroute
            cases node <;> revert hedge <;> decide
        subst happroval
        obtain ⟨hedits, hbatch⟩ := approval_candidate hdone
        show collectedIn (r.history ++ [_]) s.supervisorBatch = [s.edits]
        rw [collectedIn_append_of_not_worked hnot, hedits, hbatch]
        exact hr.ready (.inl hnode)
      · refine appliesCollected_append hnot hr.applied fun happly => ?_
        exact hr.ready (.inr (hnode.trans (congrArg some happly)))
  · intro r env node outcome _ hr hnode _ hout
    have hnot : ¬ (⟨node, env, r.interrupt, r.state, r.world, outcome⟩ : NodeRun).worked := by
      intro hworked
      rw [NodeRun.worked, hout] at hworked
      cases hworked.2
    refine ⟨?_, ?_⟩
    · intro hnext
      rw [collectedIn_append_of_not_worked hnot]
      exact hr.ready hnext
    · refine appliesCollected_append hnot hr.applied fun happly => ?_
      exact hr.ready (.inr (hnode.trans (congrArg some happly)))

section Start

variable {cfg : Config} {failedCommands : List (List String)} {files : Files}
  {maxModelCalls maxToolCalls : Nat} {actions : List Action}

/-- When every repair without edits finds no candidate left over, each execution
of `apply_candidate` is given exactly the edits of its batch's worker, writes
paths of those edits only, and writes nothing when there are none. -/
theorem applies_collected_of_fresh
    (h : Run.Every (act cfg) FreshCandidate
      (GraphRun.start failedCommands files maxModelCalls maxToolCalls) actions) :
    ∀ e ∈ (Run.run (act cfg) (GraphRun.start failedCommands files maxModelCalls maxToolCalls)
        actions).history, e.node = .applyCandidate →
      collectedIn (Run.run (act cfg)
          (GraphRun.start failedCommands files maxModelCalls maxToolCalls) actions).history
        e.before.supervisorBatch = [e.before.edits] ∧
      (∃ new, e.outcome.world.writes = e.world.writes ++ new ∧
        new.Sublist (e.before.edits.map FileEdit.path)) ∧
      (e.before.edits = [] → e.outcome.world = e.world) := by
  intro e he happly
  have hreached : Reached cfg (Run.run (act cfg)
      (GraphRun.start failedCommands files maxModelCalls maxToolCalls) actions) :=
    ⟨_, _, _, _, _, rfl⟩
  have hcollected : Collected (Run.run (act cfg)
      (GraphRun.start failedCommands files maxModelCalls maxToolCalls) actions) := by
    refine Run.invariant_of_every collected_kept ⟨?_, ?_⟩ (Run.every_and_invariant batches_kept
      (batches_of_reached ⟨_, _, _, _, [], rfl⟩) h)
    · simp [GraphRun.start]
    · simp [AppliesCollected, GraphRun.start]
  have hrecord := recorded_of_reached hreached e he
  rw [happly] at hrecord
  refine ⟨hcollected.applied e he happly, ?_⟩
  rw [hrecord]
  exact applyCandidate_writes cfg e.env e.interrupt e.before e.world

end Start

namespace Sample

/-- A first repair whose verification fails, then a second one. -/
def twoRepairs (second : List FileEdit) : List Action :=
  batch "t1" t1_valid [edit] ++ [verifying 1, rollingBack] ++
    batch "t2" t2_valid second ++ [verifying 0, .execute {}]

/-- Both batches of a run write the edits of their own workers. -/
theorem applies_collected_of_two_repairs :
    AppliesCollected (start 2 (twoRepairs [edit])).history := fun e he happly =>
  (applies_collected_of_fresh (by decide +kernel) e he happly).1

/-- The second worker returns no edits, and the candidate that the first batch
rolled back is written again. -/
theorem rolled_back_candidate_written_again :
    Reached (config 2) (start 2 (twoRepairs [])) ∧
      ¬ AppliesCollected (start 2 (twoRepairs [])).history ∧
      collectedIn (start 2 (twoRepairs [])).history 2 = [[]] ∧
      (start 2 (twoRepairs [])).world.writes = ["a", "a"] :=
  ⟨start_reached _ _, by decide +kernel, by decide +kernel, by decide +kernel⟩

end Sample

end EvoCI
