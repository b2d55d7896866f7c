import EvoCI.Graph.Progress

/-! What a batch works from: the snapshot its task was prepared with, and the
apply plan made of that snapshot. Both are found again after a crash. -/

namespace EvoCI

open Library

/-! ## Operation ids -/

theorem takeWhile_digits (n : Nat) (rest : List Char) :
    (Nat.toDigits 10 n ++ ':' :: rest).takeWhile Char.isDigit = Nat.toDigits 10 n := by
  rw [List.takeWhile_append_of_pos]
  · simp [show Char.isDigit ':' = false by decide]
  · exact fun c hc => Nat.isDigit_of_mem_toDigits (by decide) (by decide) hc

/-- An operation id names its batch. -/
theorem operation_batch {batch other : Nat} {taskId otherTask : String}
    (h : s!"{batch}:{taskId}" = s!"{other}:{otherTask}") : batch = other := by
  have hchars : Nat.toDigits 10 batch ++ ':' :: taskId.toList =
      Nat.toDigits 10 other ++ ':' :: otherTask.toList := by
    simpa [toString] using congrArg String.toList h
  have hdigits := congrArg (List.takeWhile Char.isDigit) hchars
  rw [takeWhile_digits, takeWhile_digits] at hdigits
  calc
    batch = Nat.ofDigitChars 10 (Nat.toDigits 10 batch) 0 := Nat.ofDigitChars_ten_toDigits.symm
    _ = Nat.ofDigitChars 10 (Nat.toDigits 10 other) 0 := by rw [hdigits]
    _ = other := Nat.ofDigitChars_ten_toDigits

/-! ## What the nodes leave of snapshots and plans -/

section Nodes

variable {cfg : Config} {env : NodeEnv} {interrupt : Interrupt} {s : EvoCIState} {w : World}

/-- The node ends in the world it found, or in one its write loop left. -/
theorem applyCandidate_world (cfg : Config) (env : NodeEnv) (s : EvoCIState) (w : World) :
    (applyCandidate cfg env s w).world = w ∨ ∃ plan planned a,
      obtainPlan cfg s w = .ready plan planned ∧
        (applyCandidate cfg env s w).world = planned.after a := by
  unfold applyCandidate
  split
  · exact .inl rfl
  · split
    · exact .inl rfl
    · exact .inl rfl
    · split
      next plan planned hplan =>
        refine .inr ⟨plan, planned, ?_⟩
        unfold applyPlanned
        split
        next a _ => exact ⟨a, hplan, rfl⟩
        next e a _ => exact ⟨a, hplan, rfl⟩
        next e a _ => exact ⟨a, hplan, rfl⟩
        next a _ => exact ⟨a, hplan, rfl⟩
      · exact .inl rfl
      · exact .inl rfl

theorem prepareTask_world (cfg : Config) (env : NodeEnv) (s : EvoCIState) (w : World) :
    (prepareTask cfg env s w).world = w ∨ w.snapshots s.supervisorBatch = none ∧ ∃ snapshot,
      (prepareTask cfg env s w).world = w.withSnapshot s.supervisorBatch snapshot := by
  unfold prepareTask
  repeat' split
  all_goals first
    | exact .inl rfl
    | skip
  unfold prepareSnapshot
  split
  · exact .inl rfl
  next hnone =>
    refine .inr ⟨hnone, ?_⟩
    split
    next snapshot _ => exact ⟨some snapshot, rfl⟩
    next leftover _ _ => exact ⟨leftover, rfl⟩
    next leftover _ => exact ⟨leftover, rfl⟩

/-- Snapshots are stored by `prepare_task`, plans by `apply_candidate`. -/
theorem nodeOutcome_stores (cfg : Config) (env : NodeEnv) (interrupt : Interrupt) {node : Node}
    (s : EvoCIState) (w : World) (hprepare : node ≠ .prepareTask)
    (happly : node ≠ .applyCandidate) :
    (nodeOutcome cfg env interrupt node s w).world.snapshots = w.snapshots ∧
      (nodeOutcome cfg env interrupt node s w).world.plans = w.plans := by
  cases node with
  | prepareTask => exact absurd rfl hprepare
  | applyCandidate => exact absurd rfl happly
  | retrieveContext => exact ⟨rfl, rfl⟩
  | verify =>
    simp only [nodeOutcome, verify, verifyVerdict, verifyHandler]
    repeat' split
    all_goals exact ⟨rfl, rfl⟩
  | bootstrap =>
    simp only [nodeOutcome, bootstrap]
    split <;> exact ⟨rfl, rfl⟩
  | supervise =>
    simp only [nodeOutcome, supervise, superviseRetry]
    repeat' split
    all_goals exact ⟨rfl, rfl⟩
  | worker =>
    simp only [nodeOutcome, worker]
    repeat' split
    all_goals exact ⟨rfl, rfl⟩
  | approval =>
    simp only [nodeOutcome, approval]
    repeat' split
    all_goals exact ⟨rfl, rfl⟩
  | rollback =>
    simp only [nodeOutcome, rollback]
    repeat' split
    all_goals exact ⟨rfl, rfl⟩
  | finalize =>
    simp only [nodeOutcome, finalize, persistRunOutcome]
    repeat' split
    all_goals exact ⟨rfl, rfl⟩
  | failed =>
    simp only [nodeOutcome, failed, persistRunOutcome]
    repeat' split
    all_goals exact ⟨rfl, rfl⟩

end Nodes

/-! ## Inside a batch -/

/-- The nodes between a prepared task and the next decision. -/
def Node.inBatch : Node → Bool
  | .worker | .approval | .applyCandidate | .verify | .rollback => true
  | _ => false

/-- These nodes keep the batch, its task and its snapshot, and all but the worker
the candidate. -/
theorem inBatch_done {cfg : Config} {env : NodeEnv} {interrupt : Interrupt} {node : Node}
    {s s' : EvoCIState} {w w' : World} (h : runNode cfg env interrupt node s w = .done s' w')
    (hnode : node.inBatch = true) :
    s'.supervisorBatch = s.supervisorBatch ∧ s'.batchSnapshotPath = s.batchSnapshotPath ∧
      s'.workerTask = s.workerTask ∧ (node ≠ .worker → s'.fixerOutput = s.fixerOutput) := by
  cases runNode_update h with
  | returned task run =>
    unfold workerReturned
    simp only
    split <;> exact ⟨rfl, rfl, rfl, fun hne => absurd rfl hne⟩
  | verified verification id =>
    unfold verifyCompleted
    split <;> exact ⟨rfl, rfl, rfl, fun _ => rfl⟩
  | outOfBudget task message => exact ⟨rfl, rfl, rfl, fun _ => rfl⟩
  | unreachable task message => exact ⟨rfl, rfl, rfl, fun _ => rfl⟩
  | unasked => exact ⟨rfl, rfl, rfl, fun _ => rfl⟩
  | answered decision => exact ⟨rfl, rfl, rfl, fun _ => rfl⟩
  | nothing id => exact ⟨rfl, rfl, rfl, fun _ => rfl⟩
  | refused message reason => exact ⟨rfl, rfl, rfl, fun _ => rfl⟩
  | applied baseline a => exact ⟨rfl, rfl, rfl, fun _ => rfl⟩
  | conflict e baseline written => exact ⟨rfl, rfl, rfl, fun _ => rfl⟩
  | reviewed verification id blockers => exact ⟨rfl, rfl, rfl, fun _ => rfl⟩
  | rolledBack files => exact ⟨rfl, rfl, rfl, fun _ => rfl⟩
  | stuck message => exact ⟨rfl, rfl, rfl, fun _ => rfl⟩
  | _ => cases hnode

/-- The execution of `prepare_task` that took the snapshot of a batch. -/
def NodeRun.takes (batch : Nat) (snapshot : Snapshot) (e : NodeRun) : Prop :=
  e.node = .prepareTask ∧ e.before.supervisorBatch = batch ∧ e.world.snapshots batch = none ∧
    e.outcome.world.snapshots batch = some snapshot

/-- The batch has its snapshot, and a plan stored for it holds the snapshot's texts. -/
structure PreparedAt (cfg : Config) (history : List NodeRun) (s : EvoCIState) (w : World) :
    Prop where
  path : s.batchSnapshotPath = some s.supervisorBatch
  taken : ∃ snapshot, w.snapshots s.supervisorBatch = some snapshot ∧
    ∃ e ∈ history, e.takes s.supervisorBatch snapshot
  planned : ∀ plan, w.plans (operationId s) = some plan →
    ∀ snapshot, w.snapshots s.supervisorBatch = some snapshot →
      snapshot.tree.snapshotEditBaseline cfg.root [] s.edits = .ok plan.baseline

theorem PreparedAt.append {cfg : Config} {history : List NodeRun} {s : EvoCIState} {w : World}
    (h : PreparedAt cfg history s w) (e : NodeRun) : PreparedAt cfg (history ++ [e]) s w := by
  obtain ⟨snapshot, hsnapshot, taker, htaker, htakes⟩ := h.taken
  exact ⟨h.path, ⟨snapshot, hsnapshot, taker, List.mem_append_left _ htaker, htakes⟩, h.planned⟩

/-- The plan that `apply_candidate` obtains is made of the others snapshot. -/
theorem PreparedAt.obtainPlan {cfg : Config} {history : List NodeRun} {s : EvoCIState}
    {w planned : World} {plan : ApplyPlan} (h : PreparedAt cfg history s w)
    (hplan : obtainPlan cfg s w = .ready plan planned) :
    (∀ snapshot, w.snapshots s.supervisorBatch = some snapshot →
        snapshot.tree.snapshotEditBaseline cfg.root [] s.edits = .ok plan.baseline) ∧
      ∀ key, planned.plans key = if key = operationId s then some plan else w.plans key := by
  obtain ⟨snapshot, hsnapshot, -⟩ := h.taken
  unfold EvoCI.obtainPlan at hplan
  split at hplan
  next saved hsaved =>
    cases hplan
    refine ⟨h.planned _ hsaved, fun key => ?_⟩
    split
    next heq => rw [heq, hsaved]
    · rfl
  · simp only [h.path, Option.bind_some, hsnapshot] at hplan
    unfold makePlan at hplan
    split at hplan
    · cases hplan
    next baseline hbaseline =>
      split at hplan
      · cases hplan
        refine ⟨fun other hother => ?_, fun key => rfl⟩
        rw [hsnapshot] at hother
        cases hother
        exact hbaseline
      · cases hplan

/-- With the others snapshot at hand no change of the workspace is looked for. -/
theorem PreparedAt.not_changed {cfg : Config} {history : List NodeRun} {s : EvoCIState}
    {w : World} (h : PreparedAt cfg history s w) (message : String) :
    EvoCI.obtainPlan cfg s w ≠ .changed message := by
  obtain ⟨snapshot, hsnapshot, -⟩ := h.taken
  unfold EvoCI.obtainPlan
  split
  · simp
  · simp only [h.path, Option.bind_some, hsnapshot]
    unfold makePlan
    split
    · simp
    · split <;> simp

/-- Every batch keeps its snapshot and its plan, whatever happens to the run. -/
structure Prepared (cfg : Config) (r : GraphRun) : Prop where
  current : ∀ node ∈ r.node, node.inBatch = true → PreparedAt cfg r.history r.state r.world
  entries : ∀ e ∈ r.history, e.node.inBatch = true → PreparedAt cfg r.history e.before e.world
  taken : ∀ batch snapshot, r.world.snapshots batch = some snapshot →
    ∃ e ∈ r.history, e.takes batch snapshot
  past : ∀ key plan, r.world.plans key = some plan → ∃ (batch : Nat) (taskId : String),
    key = s!"{batch}:{taskId}" ∧ batch ≤ r.state.supervisorBatch ∧
      (r.node = some .prepareTask ∨ r.node = some .worker ∨ r.node = some .approval →
        batch < r.state.supervisorBatch)

/-- No plan is stored yet for an operation of the batch. -/
theorem Prepared.unplanned {cfg : Config} {r : GraphRun} (h : Prepared cfg r)
    (hnode : r.node = some .prepareTask ∨ r.node = some .worker ∨ r.node = some .approval)
    {s : EvoCIState} (hs : s.supervisorBatch = r.state.supervisorBatch) :
    r.world.plans (operationId s) = none := by
  cases hplan : r.world.plans (operationId s) with
  | none => rfl
  | some plan =>
    obtain ⟨batch, taskId, hkey, -, hlt⟩ := h.past _ plan hplan
    have hbatch : s.supervisorBatch = batch := operation_batch hkey
    have hlt := hlt hnode
    omega

/-- A prepared task has a snapshot. -/
theorem prepareTask_worker {cfg : Config} {env : NodeEnv} {s s' : EvoCIState} {w w' : World}
    (h : prepareTask cfg env s w = .done s' w') (hnext : afterPrepare cfg s' = .worker) :
    s'.supervisorBatch = s.supervisorBatch ∧ s'.batchSnapshotPath = some s.supervisorBatch ∧
      s'.batchConflict = none ∧ ∃ snapshot, w'.snapshots s.supervisorBatch = some snapshot := by
  obtain ⟨hrunning, task, htask⟩ := afterPrepare_worker hnext
  unfold prepareTask at h
  split at h
  · cases h
    exact absurd rfl hrunning
  · split at h
    · cases h
      exact absurd rfl hrunning
    · split at h
      · cases h
        exact absurd rfl hrunning
      · split at h
        · cases h
          exfalso
          unfold prepareRejected at hrunning htask
          split at htask
          · cases htask
          next hused => simp [hused, prepareFailure] at hrunning
        · cases h
        · unfold prepareSnapshot at h
          split at h
          next snapshot hsnapshot =>
            cases h
            exact ⟨rfl, rfl, rfl, snapshot, hsnapshot⟩
          · split at h
            next snapshot _ =>
              cases h
              exact ⟨rfl, rfl, rfl, snapshot, by simp [World.withSnapshot]⟩
            · cases h
              exact absurd rfl hrunning
            · cases h

section Kept

variable {cfg : Config} {r : GraphRun} {env : NodeEnv} {node : Node} {outcome : Outcome}

/-- The remembered execution. -/
def GraphRun.entry (r : GraphRun) (node : Node) (env : NodeEnv) (outcome : Outcome) : NodeRun :=
  ⟨node, env, r.interrupt, r.state, r.world, outcome⟩

theorem runNode_world (cfg : Config) (env : NodeEnv) (interrupt : Interrupt) (node : Node)
    (s : EvoCIState) (w : World) :
    (runNode cfg env interrupt node s w).world =
      (nodeOutcome cfg env interrupt node s w).world := by
  rw [runNode, afterLoss_world]

theorem Prepared.entries_append (h : Prepared cfg r) (hnode : r.node = some node) :
    ∀ e ∈ r.history ++ [r.entry node env outcome], e.node.inBatch = true →
      PreparedAt cfg (r.history ++ [r.entry node env outcome]) e.before e.world := by
  intro e he hin
  rcases List.mem_append.mp he with he | he
  · exact (h.entries e he hin).append _
  · rw [List.mem_singleton] at he
    subst he
    exact (h.current node hnode hin).append _

/-- A snapshot found after an execution is an old one, or the one just taken. -/
theorem Prepared.taken_append (h : Prepared cfg r)
    (hrun : runNode cfg env r.interrupt node r.state r.world = outcome) {batch : Nat}
    {snapshot : Snapshot} (hsnapshot : outcome.world.snapshots batch = some snapshot) :
    ∃ e ∈ r.history ++ [r.entry node env outcome], e.takes batch snapshot := by
  have hold : r.world.snapshots batch = some snapshot →
      ∃ e ∈ r.history ++ [r.entry node env outcome], e.takes batch snapshot := by
    intro hsnapshot
    obtain ⟨e, he, htakes⟩ := h.taken batch snapshot hsnapshot
    exact ⟨e, List.mem_append_left _ he, htakes⟩
  have hworld := runNode_world cfg env r.interrupt node r.state r.world
  rw [hrun] at hworld
  by_cases hprepare : node = .prepareTask
  · subst hprepare
    rcases prepareTask_world cfg env r.state r.world with hsame | ⟨hnone, stored, hstored⟩
    · have hworld : outcome.world = r.world := hworld.trans hsame
      rw [hworld] at hsnapshot
      exact hold hsnapshot
    · have hworld : outcome.world = r.world.withSnapshot r.state.supervisorBatch stored :=
        hworld.trans hstored
      by_cases hbatch : batch = r.state.supervisorBatch
      · subst hbatch
        exact ⟨_, List.mem_append_right _ (List.mem_singleton.mpr rfl), rfl, rfl, hnone, hsnapshot⟩
      · rw [hworld] at hsnapshot
        simp only [World.withSnapshot, hbatch, if_false] at hsnapshot
        exact hold hsnapshot
  · apply hold
    rw [← hsnapshot, hworld]
    by_cases happly : node = .applyCandidate
    · subst happly
      show _ = (applyCandidate cfg env r.state r.world).world.snapshots batch
      rcases applyCandidate_world cfg env r.state r.world with hsame | ⟨_, _, a, hplan, hafter⟩
      · rw [hsame]
      · rw [hafter]
        exact congrFun (obtainPlan_ready hplan).2.1.symm batch
    · rw [(nodeOutcome_stores cfg env r.interrupt r.state r.world hprepare happly).1]

/-- A plan found after an execution is an old one, or the one its operation got. -/
theorem plans_after (hrun : runNode cfg env r.interrupt node r.state r.world = outcome) :
    outcome.world.plans = r.world.plans ∨ node = .applyCandidate ∧ ∃ plan planned,
      obtainPlan cfg r.state r.world = .ready plan planned ∧
        outcome.world.plans = planned.plans := by
  have hworld := runNode_world cfg env r.interrupt node r.state r.world
  rw [hrun] at hworld
  rw [hworld]
  by_cases hprepare : node = .prepareTask
  · subst hprepare
    left
    show (prepareTask cfg env r.state r.world).world.plans = _
    rcases prepareTask_world cfg env r.state r.world with hsame | ⟨-, _, hstored⟩
    · rw [hsame]
    · rw [hstored]
      rfl
  · by_cases happly : node = .applyCandidate
    · subst happly
      rcases applyCandidate_world cfg env r.state r.world with
        hsame | ⟨plan, planned, a, hplan, hafter⟩
      · exact .inl (congrArg World.plans hsame)
      · refine .inr ⟨rfl, plan, planned, hplan, ?_⟩
        have hplans := congrArg World.plans hafter
        exact hplans
    · exact .inl (nodeOutcome_stores cfg env r.interrupt r.state r.world hprepare happly).2

/-- An execution inside a batch leaves what the batch works from. -/
theorem PreparedAt.execute (h : PreparedAt cfg r.history r.state r.world)
    (hrun : runNode cfg env r.interrupt node r.state r.world = outcome)
    (hnode : node.inBatch = true) : PreparedAt cfg r.history r.state outcome.world := by
  have hsnapshots : outcome.world.snapshots = r.world.snapshots := by
    have hworld := runNode_world cfg env r.interrupt node r.state r.world
    rw [hrun] at hworld
    rw [hworld]
    by_cases happly : node = .applyCandidate
    · subst happly
      show (applyCandidate cfg env r.state r.world).world.snapshots = _
      rcases applyCandidate_world cfg env r.state r.world with hsame | ⟨_, _, a, hplan, hafter⟩
      · rw [hsame]
      · rw [hafter]
        exact (obtainPlan_ready hplan).2.1
    · refine (nodeOutcome_stores cfg env r.interrupt r.state r.world ?_ happly).1
      rintro rfl
      cases hnode
  refine ⟨h.path, ?_, ?_⟩
  · rw [hsnapshots]
    exact h.taken
  · rw [hsnapshots]
    rcases plans_after hrun with hsame | ⟨rfl, plan, planned, hplan, hplans⟩
    · rw [hsame]
      exact h.planned
    · obtain ⟨hmade, hkeys⟩ := h.obtainPlan hplan
      intro other hother
      rw [hplans, hkeys, if_pos rfl] at hother
      cases hother
      exact hmade

/-- A stored plan's operation lies in a batch that is not behind the run's. -/
theorem Prepared.past_execute (h : Prepared cfg r) (hnode : r.node = some node)
    (hrun : runNode cfg env r.interrupt node r.state r.world = outcome) {key : String}
    {plan : ApplyPlan} (hplan : outcome.world.plans key = some plan) :
    ∃ (batch : Nat) (taskId : String), key = s!"{batch}:{taskId}" ∧
      batch ≤ r.state.supervisorBatch ∧
      (node = .prepareTask ∨ node = .worker ∨ node = .approval →
        batch < r.state.supervisorBatch) := by
  have hold : r.world.plans key = some plan →
      ∃ (batch : Nat) (taskId : String), key = s!"{batch}:{taskId}" ∧
        batch ≤ r.state.supervisorBatch ∧
        (node = .prepareTask ∨ node = .worker ∨ node = .approval →
          batch < r.state.supervisorBatch) := by
    intro hplan
    obtain ⟨batch, taskId, hkey, hle, hlt⟩ := h.past key plan hplan
    refine ⟨batch, taskId, hkey, hle, fun hearly => hlt ?_⟩
    rw [hnode]
    simpa using hearly
  rcases plans_after hrun with hsame | ⟨rfl, new, planned, hnew, hplans⟩
  · rw [hsame] at hplan
    exact hold hplan
  · rw [hplans, ((h.current .applyCandidate hnode rfl).obtainPlan hnew).2] at hplan
    split at hplan
    next heq =>
      refine ⟨r.state.supervisorBatch, taskIdOf r.state, heq, Nat.le_refl _, ?_⟩
      rintro (hearly | hearly | hearly) <;> cases hearly
    · exact hold hplan

end Kept

theorem prepared_finished {cfg : Config} {r : GraphRun} {env : NodeEnv} {node : Node}
    {s : EvoCIState} {w : World} (h : Prepared cfg r) (hnode : r.node = some node)
    (hrun : runNode cfg env r.interrupt node r.state r.world = .done s w) :
    Prepared cfg ⟨route cfg node s w.files, s, w, .idle,
      r.history ++ [r.entry node env (.done s w)]⟩ := by
  refine ⟨?_, h.entries_append hnode, fun batch snapshot => h.taken_append hrun, ?_⟩
  · intro next hnext hin
    have hedge := route_mem_edges hnext
    by_cases hprepare : node = .prepareTask
    · subst hprepare
      have hworker : next = .worker := by cases next <;> revert hedge hin <;> decide
      subst hworker
      obtain ⟨hbatch, hpath, -, snapshot, hsnapshot⟩ :=
        prepareTask_worker (runNode_done hrun) (Option.some.inj hnext)
      rw [← hbatch] at hpath hsnapshot
      refine ⟨hpath, ⟨snapshot, hsnapshot, h.taken_append hrun hsnapshot⟩, ?_⟩
      -- the batch has just begun
      intro plan hplan
      rcases plans_after hrun with hsame | ⟨happly, -⟩
      · have hplan : w.plans (operationId s) = some plan := hplan
        rw [show w.plans = r.world.plans from hsame, h.unplanned (.inl hnode) hbatch] at hplan
        cases hplan
      · cases happly
    · have hnodeIn : node.inBatch = true := by
        cases node <;> first
          | rfl
          | exact absurd rfl hprepare
          | (revert hedge hin; cases next <;> decide)
      obtain ⟨hbatch, hpath, htask, houtput⟩ := inBatch_done hrun hnodeIn
      have hafter := (h.current node hnode hnodeIn).execute hrun hnodeIn
      refine ⟨by rw [hpath, hbatch]; exact hafter.path, ?_, ?_⟩
      · rw [hbatch]
        exact (hafter.append _).taken
      · intro plan hplan
        by_cases hworker : node = .worker
        · subst hworker
          rcases plans_after hrun with hsame | ⟨happly, -⟩
          · have hplan : w.plans (operationId s) = some plan := hplan
            rw [show w.plans = r.world.plans from hsame,
              h.unplanned (.inr (.inl hnode)) hbatch] at hplan
            cases hplan
          · cases happly
        · have hid : operationId s = operationId r.state := by
            simp only [operationId, taskIdOf, hbatch, htask]
          have hedits : s.edits = r.state.edits := by
            simp only [EvoCIState.edits, houtput hworker]
          have hplan : w.plans (operationId s) = some plan := hplan
          rw [hid] at hplan
          rw [hbatch, hedits]
          exact hafter.planned plan hplan
  · intro key plan hplan
    obtain ⟨batch, taskId, hkey, hle, hlt⟩ := h.past_execute hnode hrun hplan
    refine ⟨batch, taskId, hkey, ?_, ?_⟩
    · show batch ≤ s.supervisorBatch
      rcases batch_done hrun with heq | ⟨-, heq, -⟩ <;> omega
    · intro hearly
      show batch < s.supervisorBatch
      by_cases hworker : node = .worker
      · have hbatch := (inBatch_done hrun (by rw [hworker]; rfl)).1
        have hlt := hlt (.inr (.inl hworker))
        omega
      · have hbefore : route cfg node s w.files = some .prepareTask ∨
            route cfg node s w.files = some .worker := by
          rcases hearly with hnext | hnext | hnext
          · exact .inl hnext
          · exact .inr hnext
          · have hedge := route_mem_edges hnext
            exact absurd (by cases node <;> revert hedge <;> decide) hworker
        rcases before_worker hbefore with ⟨rfl, hrunning⟩ | rfl
        · have hopened := batch_opened hrun hrunning
          omega
        · have hlt := hlt (.inl rfl)
          rcases batch_done hrun with heq | ⟨hsupervise, -⟩
          · omega
          · cases hsupervise

theorem prepared_stopped {cfg : Config} {r : GraphRun} {env : NodeEnv} {node : Node}
    {outcome : Outcome} (h : Prepared cfg r) (hnode : r.node = some node)
    (hrun : runNode cfg env r.interrupt node r.state r.world = outcome) :
    Prepared cfg { r with
      world := outcome.world
      history := r.history ++ [r.entry node env outcome] } := by
  refine ⟨?_, h.entries_append hnode, fun batch snapshot => h.taken_append hrun, ?_⟩
  · intro next hnext hin
    have heq : next = node := by
      have hnext : r.node = some next := hnext
      rw [hnode] at hnext
      exact (Option.some.inj hnext).symm
    subst heq
    exact ((h.current next hnode hin).execute hrun hin).append _
  · intro key plan hplan
    obtain ⟨batch, taskId, hkey, hle, hlt⟩ := h.past_execute hnode hrun hplan
    refine ⟨batch, taskId, hkey, hle, fun hearly => hlt ?_⟩
    have hearly : r.node = some .prepareTask ∨ r.node = some .worker ∨
      r.node = some .approval := hearly
    rw [hnode] at hearly
    simpa using hearly

/-- Snapshots and plans survive every step. -/
theorem prepared_kept {cfg : Config} (r : GraphRun) (a : Action) (h : Prepared cfg r) :
    Prepared cfg (act cfg a r) := by
  refine @kept_of_worlds cfg (fun _ _ => True) (Prepared cfg) ?_ ?_ ?_ ?_ ?_ r a trivial h
  · intro r interrupt hr
    exact ⟨hr.current, hr.entries, hr.taken, hr.past⟩
  · intro r hr
    exact ⟨fun node hnode hin =>
      ⟨(hr.current node hnode hin).path, (hr.current node hnode hin).taken,
        (hr.current node hnode hin).planned⟩, hr.entries, hr.taken, hr.past⟩
  · intro r files _ hr
    exact ⟨fun node hnode hin =>
      ⟨(hr.current node hnode hin).path, (hr.current node hnode hin).taken,
        (hr.current node hnode hin).planned⟩, hr.entries, hr.taken, hr.past⟩
  · intro r env node s w _ hr hnode hrun
    exact prepared_finished hr hnode hrun
  · intro r env node outcome _ hr hnode hrun _
    exact prepared_stopped hr hnode hrun

theorem prepared_of_reached {cfg : Config} {r : GraphRun} (h : Reached cfg r) : Prepared cfg r := by
  refine holds_of_reached (fun _ _ _ _ => ⟨?_, ?_, ?_, ?_⟩) prepared_kept h
  · intro node hnode hin
    cases hnode
    cases hin
  · intro e he
    cases he
  · intro batch snapshot hsnapshot
    cases hsnapshot
  · intro key plan hplan
    cases hplan

end EvoCI
