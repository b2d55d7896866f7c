import EvoCI.Graph.Steps

/-! Batches only ever grow, and a batch has at most one completed worker. -/

namespace EvoCI

/-- The state a worker leaves is still in its batch. -/
theorem worker_batch {cfg : Config} {s : EvoCIState} {task : WorkerTask} {run : WorkerRun} :
    (workerReturned cfg s task run).supervisorBatch = s.supervisorBatch := by
  unfold workerReturned
  simp only
  split <;> rfl

/-- Only `supervise` opens a batch, and only while batches are left. -/
theorem batch_done {cfg : Config} {env : NodeEnv} {interrupt : Interrupt} {node : Node}
    {s s' : EvoCIState} {w w' : World} (h : runNode cfg env interrupt node s w = .done s' w') :
    s'.supervisorBatch = s.supervisorBatch ∨
      node = .supervise ∧ s'.supervisorBatch = s.supervisorBatch + 1 ∧
        s.supervisorBatch < cfg.maxSupervisorBatches := by
  have hupdate := runNode_update h
  cases hupdate with
  | decided hleft decision => exact .inr ⟨rfl, rfl, hleft⟩
  | undecided hleft c m => exact .inr ⟨rfl, rfl, hleft⟩
  | returned task run => exact .inl worker_batch
  | verified verification id => exact .inl (verifyCompleted_kept s verification id).2.2.1
  | _ => exact .inl rfl

/-- `supervise` opens a batch unless it ends the run. -/
theorem batch_opened {cfg : Config} {env : NodeEnv} {interrupt : Interrupt} {s s' : EvoCIState}
    {w w' : World} (h : runNode cfg env interrupt .supervise s w = .done s' w')
    (hrunning : s'.status ≠ some .failed) : s'.supervisorBatch = s.supervisorBatch + 1 := by
  cases runNode_update h with
  | stillFailed hfailed => exact absurd hfailed hrunning
  | usedUp => exact absurd rfl hrunning
  | decided hleft decision => rfl
  | undecided hleft c m => rfl

/-- A worker's execution reached its checkpoint. -/
def NodeRun.worked (e : NodeRun) : Prop := e.node = .worker ∧ e.outcome.isDone = true

/-- The batches of a run: none beyond the configured number, none behind an
earlier one, and no completed worker in a batch whose worker is still to come. -/
structure Batches (cfg : Config) (r : GraphRun) : Prop where
  within : r.state.supervisorBatch ≤ cfg.maxSupervisorBatches
  past : ∀ e ∈ r.history, e.before.supervisorBatch ≤ r.state.supervisorBatch
  fresh : r.node = some .prepareTask ∨ r.node = some .worker →
    ∀ e ∈ r.history, e.worked → e.before.supervisorBatch < r.state.supervisorBatch

/-- The node that ran, when a batch's worker is still to come after it. -/
theorem before_worker {cfg : Config} {node : Node} {s : EvoCIState} {files : Files}
    (h : route cfg node s files = some .prepareTask ∨ route cfg node s files = some .worker) :
    node = .supervise ∧ s.status ≠ some .failed ∨ node = .prepareTask := by
  rcases h with h | h
  · have hedge := route_mem_edges h
    have hnode : node = .supervise := by cases node <;> revert hedge <;> decide
    subst hnode
    refine .inl ⟨rfl, fun hfailed => ?_⟩
    simp [route, afterSupervise, hfailed] at h
  · have hedge := route_mem_edges h
    right
    cases node <;> revert hedge <;> decide

theorem batches_kept {cfg : Config} (r : GraphRun) (a : Action) (h : Batches cfg r) :
    Batches cfg (act cfg a r) := by
  refine @kept_of_step cfg (fun _ _ => True) (Batches cfg) ?_ ?_ ?_ r a trivial h
  · intro r r' hr hnode hstate hhistory
    refine ⟨by rw [hstate]; exact hr.within, ?_, ?_⟩
    · rw [hstate, hhistory]
      exact hr.past
    · rw [hnode, hstate, hhistory]
      exact hr.fresh
  · intro r env node s w _ hr hnode hrun
    have hle : r.state.supervisorBatch ≤ s.supervisorBatch := by
      rcases batch_done hrun with heq | ⟨-, heq, -⟩ <;> omega
    refine ⟨?_, ?_, ?_⟩
    · have hwithin := hr.within
      show s.supervisorBatch ≤ cfg.maxSupervisorBatches
      rcases batch_done hrun with heq | ⟨-, heq, hleft⟩ <;> omega
    · intro e he
      rcases List.mem_append.mp he with he | he
      · exact (hr.past e he).trans hle
      · rw [List.mem_singleton] at he
        subst he
        exact hle
    · intro hnext e he hworked
      show e.before.supervisorBatch < s.supervisorBatch
      rcases before_worker hnext with ⟨rfl, hrunning⟩ | rfl
      · -- a batch was opened: everything before it lies in earlier ones
        have hnew := batch_opened hrun hrunning
        rcases List.mem_append.mp he with he | he
        · have := hr.past e he
          omega
        · rw [List.mem_singleton] at he
          subst he
          simp [NodeRun.worked] at hworked
      · rcases List.mem_append.mp he with he | he
        · exact Nat.lt_of_lt_of_le (hr.fresh (.inl hnode) e he hworked) hle
        · rw [List.mem_singleton] at he
          subst he
          simp [NodeRun.worked] at hworked
  · intro r env node outcome _ hr _ _ hout
    refine ⟨hr.within, ?_, ?_⟩
    · intro e he
      rcases List.mem_append.mp he with he | he
      · exact hr.past e he
      · rw [List.mem_singleton] at he
        subst he
        exact Nat.le_refl _
    · intro hnode e he hworked
      rcases List.mem_append.mp he with he | he
      · exact hr.fresh hnode e he hworked
      · rw [List.mem_singleton] at he
        subst he
        rw [NodeRun.worked, hout] at hworked
        cases hworked.2

theorem batches_of_reached {cfg : Config} {r : GraphRun} (h : Reached cfg r) : Batches cfg r :=
  holds_of_reached (fun _ _ _ _ => ⟨Nat.zero_le _, by simp [GraphRun.start],
    by simp [GraphRun.start]⟩) batches_kept h

end EvoCI
