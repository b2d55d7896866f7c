import EvoCI.Graph.Approval
import EvoCI.Graph.Progress

/-! How long a run can be. Every edge lowers a rank made of the batches that are
left and the place of the node in its batch, as long as each node either is
checkpointed or waits for the approver. -/

namespace EvoCI

open Library

/-! ## The rank -/

/-- The node executions still to come, at most, with `left` batches left. -/
def nodeRank (batches left : Nat) : Node → Nat
  | .bootstrap => 7 * batches + 4
  | .retrieveContext => 7 * batches + 3
  | .prepareTask => 7 * left + 8
  | .worker => 7 * left + 7
  | .approval => 7 * left + 6
  | .applyCandidate => 7 * left + 5
  | .verify => 7 * left + 4
  | .rollback => 7 * left + 3
  | .supervise => 7 * left + 2
  | .finalize => 1
  | .failed => 1

def GraphRun.rank (cfg : Config) (r : GraphRun) : Nat :=
  r.node.elim 0
    (nodeRank cfg.maxSupervisorBatches (cfg.maxSupervisorBatches - r.state.supervisorBatch))

/-- Every edge that opens no batch lowers the rank. -/
theorem nodeRank_edge {batches left : Nat} (hleft : left ≤ batches) :
    ∀ edge ∈ edges, edge ≠ (.supervise, .prepareTask) →
      nodeRank batches left edge.2 < nodeRank batches left edge.1 := by
  simp only [edges, List.forall_mem_cons, nodeRank]
  refine ⟨?_, ?_, ?_, ?_, ?_, ?_, ?_, ?_, ?_, ?_, ?_, ?_, ?_, ?_, ?_, ?_, ?_, ?_, ?_, ?_, ?_, ?_⟩
  all_goals first
    | (intro _; omega)
    | simp

/-- So does the edge into a new batch, at the price of that batch. -/
theorem nodeRank_batch {batches left : Nat} (hleft : 0 < left) :
    nodeRank batches (left - 1) .prepareTask < nodeRank batches left .supervise := by
  simp only [nodeRank]
  omega

/-- A back edge to `supervise` is taken only while batches are left, or spends
what the batch had left. -/
theorem rank_done {cfg : Config} {env : NodeEnv} {interrupt : Interrupt} {node next : Node}
    {s s' : EvoCIState} {w w' : World} (h : runNode cfg env interrupt node s w = .done s' w')
    (hnext : route cfg node s' w'.files = some next) :
    nodeRank cfg.maxSupervisorBatches (cfg.maxSupervisorBatches - s'.supervisorBatch) next <
      nodeRank cfg.maxSupervisorBatches (cfg.maxSupervisorBatches - s.supervisorBatch) node := by
  have hedge := route_mem_edges hnext
  rcases batch_done h with hsame | ⟨rfl, hopened, hleft⟩
  · rw [hsame]
    refine nodeRank_edge (Nat.sub_le _ _) _ hedge ?_
    -- without a new batch the run has failed
    rintro hprepare
    obtain ⟨rfl, rfl⟩ := Prod.mk.inj hprepare
    have hopened := batch_opened h fun hfailed => by
      simp [route, afterSupervise, hfailed] at hnext
    omega
  · rw [hopened, ← Nat.sub_sub]
    by_cases hprepare : next = .prepareTask
    · subst hprepare
      exact nodeRank_batch (by omega)
    · have hlower := nodeRank_edge (Nat.sub_le cfg.maxSupervisorBatches s.supervisorBatch) _ hedge
        fun heq => hprepare (Prod.mk.inj heq).2
      refine Nat.lt_of_le_of_lt ?_ hlower
      cases next <;> simp only [nodeRank] <;> omega

/-! ## Steps that complete -/

def AgentAnswer.handled {α : Type} : AgentAnswer α → Bool
  | .raised _ => false
  | _ => true

/-- The copy is not cut short by the end of the process. -/
def Copying.lives (c : Copying) : Bool :=
  match c.stop with
  | some (_, .killed) => false
  | _ => true

/-- The agents and the verifier return something or raise an error that the nodes
handle, and the process lives. -/
def NodeEnv.answers (env : NodeEnv) : Bool :=
  env.decide.handled && env.retry.handled && env.execute.handled && env.verifyFault.isNone &&
    env.reviewFault.isNone && env.persistFault.isNone && env.crash.isNone && env.copying.lives &&
    !env.restoreKilled && !env.lost

/-- The paths of the dispatched task's scopes normalise. -/
def prepareHandled (s : EvoCIState) (w : World) : Prop :=
  ∀ decision ∈ s.decision, decision.action = .dispatch →
    2 ≤ w.ledger.budget.maxModelCalls - w.ledger.budget.modelCalls →
      ∀ task ∈ decision.tasks, (normalizeTask task).isOk = true

/-- The artifact of the edits can be stored under the task's name. -/
def workerHandled (cfg : Config) (env : NodeEnv) (s : EvoCIState) : Prop :=
  ∀ task ∈ s.workerTask, ∀ run ∈ env.execute.value?, run.edits ≠ [] →
    cfg.storable task.taskId = true

/-- For a candidate within its scope the baseline can be read and the plan stored,
every error of the write loop is one that becomes a conflict, and what the loop
wrote before it can be restored. -/
def applyHandled (cfg : Config) (env : NodeEnv) (s : EvoCIState) (w : World) : Prop :=
  s.edits ≠ [] → (scopeCheck s).isOk = true →
    match obtainPlan cfg s w with
    | .raised _ => False
    | .changed _ => True
    | .ready plan w' =>
      match applyLoop (applyContext cfg env s plan.baseline) env.crash s.edits w'.attempt with
      | .raised e a => e.isApplyConflict = true ∧
          (a.files.restoreAttemptWrites env.denied cfg.root plan.baseline a.written).2 = none
      | _ => True

/-- The commands of the failure can be parsed. -/
def verifyHandled (cfg : Config) (s : EvoCIState) : Prop := (localPlan cfg s).isOk = true

/-- No exception escapes the node. -/
def Handled (cfg : Config) (env : NodeEnv) (node : Node) (s : EvoCIState) (w : World) : Prop :=
  match node with
  | .prepareTask => prepareHandled s w
  | .worker => workerHandled cfg env s
  | .applyCandidate => applyHandled cfg env s w
  | .verify => verifyHandled cfg s
  | _ => True

/-- The execution is checkpointed, or waits for the approver. -/
def Outcome.completes : Outcome → Bool
  | .done _ _ | .interrupted _ => true
  | _ => false

theorem normalizeTask_error {task : WorkerTask} {e : PyError} (h : normalizeTask task = .error e) :
    ∃ m, e = .policyViolation m := by
  have hscope : ∀ {paths e}, normalizeWriteScope paths = .error e →
      ∃ m, e = .policyViolation m := by
    intro paths e hpaths
    unfold normalizeWriteScope at hpaths
    split at hpaths
    next hnormal =>
      cases hpaths
      obtain ⟨m, hm, -⟩ := normalizeWritePaths_message hnormal
      exact ⟨m, hm⟩
    · cases hpaths
  unfold normalizeTask at h
  split at h
  next hwrite =>
    cases h
    exact hscope hwrite
  · split at h
    next hread =>
      cases h
      exact hscope hread
    · cases h

theorem prepareSnapshot_completes {cfg : Config} {env : NodeEnv} {task : WorkerTask}
    {s : EvoCIState} {w : World} (h : env.copying.lives = true) :
    (prepareSnapshot cfg env task s w).completes = true := by
  unfold prepareSnapshot
  split
  · rfl
  · split
    · rfl
    · rfl
    next leftover hkilled =>
      exfalso
      simp only [saveBatchSnapshot] at hkilled
      split at hkilled
      next k hstop => simp [Copying.lives, hstop] at h
      · split at hkilled
        · cases hkilled
        · split at hkilled <;> cases hkilled
      · split at hkilled <;> cases hkilled

/-- `prepare_task` lets the errors of `normalize_write_scope` escape, and no others. -/
theorem prepareTask_completes {cfg : Config} {env : NodeEnv} {s : EvoCIState} {w : World}
    (h : env.copying.lives = true) :
    (prepareTask cfg env s w).completes = true ↔ prepareHandled s w := by
  unfold prepareTask prepareHandled
  split
  next hnone => simp [hnone, Outcome.completes]
  next decision hdecision =>
    simp only [hdecision, Option.mem_def, Option.some.injEq, forall_eq']
    split
    next hstop => simp [hstop, Outcome.completes]
    next hdispatch =>
      have hdispatch := Decidable.not_not.mp hdispatch
      split
      next hspent =>
        simp only [Outcome.completes, true_iff]
        intro _ hleft
        omega
      next hleft =>
        obtain ⟨task, htask⟩ := List.length_eq_one_iff.mp (decision.dispatchOne hdispatch)
        simp only [hdispatch, htask, List.mem_singleton, forall_eq, forall_const,
          Nat.le_of_not_lt hleft]
        have hscheduled : ∀ e, normalizeTask task = .error e →
            scheduledTask decision s w = .error e := by
          intro e he
          simp [scheduledTask, validateSingleTask, htask, he]
        cases hnormal : normalizeTask task with
        | error e =>
          obtain ⟨m, rfl⟩ := normalizeTask_error hnormal
          simp [hscheduled _ hnormal, Outcome.completes, Except.isOk, Except.toBool]
        | ok normalized =>
          simp only [Except.isOk, Except.toBool, iff_true]
          split
          · rfl
          next e hne herror =>
            rcases validateSingleTask_error herror with ⟨m, rfl⟩ | ⟨raw, hraw, hraise⟩
            · exact absurd rfl (hne m)
            · rw [htask, List.singleton_inj] at hraw
              subst hraw
              rw [hnormal] at hraise
              cases hraise
          · exact prepareSnapshot_completes h

theorem worker_completes {cfg : Config} {env : NodeEnv} {s : EvoCIState} {w : World}
    (h : env.execute.handled = true) (htask : s.workerTask.isSome = true) :
    (worker cfg env s w).completes = true ↔ workerHandled cfg env s := by
  obtain ⟨task, htask⟩ := Option.isSome_iff_exists.mp htask
  simp only [worker, workerHandled, htask, Option.mem_def, Option.some.injEq, forall_eq']
  cases hexecute : env.execute with
  | budgetExhausted message => simp [AgentAnswer.value?, Outcome.completes]
  | gatewayError message timeout => simp [AgentAnswer.value?, Outcome.completes]
  | raised e => simp [hexecute, AgentAnswer.handled] at h
  | returned run =>
    simp only [AgentAnswer.value?, Option.some.injEq, forall_eq']
    split
    next hstuck => simp [Outcome.completes, hstuck]
    next hfree =>
      simp only [Outcome.completes, true_iff]
      intro hedits
      simpa [hedits] using hfree

theorem applyCandidate_completes {cfg : Config} {env : NodeEnv} {s : EvoCIState} {w : World}
    (h : env.crash = none) :
    (applyCandidate cfg env s w).completes = true ↔ applyHandled cfg env s w := by
  unfold applyCandidate applyHandled
  split
  next hnil => simp [hnil, Outcome.completes]
  next hedits =>
    simp only [ne_eq, hedits, not_false_eq_true, forall_const]
    split
    next hscope => simp [hscope, Outcome.completes, Except.isOk, Except.toBool]
    next e hne hscope =>
      exfalso
      unfold scopeCheck at hscope
      split at hscope
      · cases hscope
      · obtain ⟨m, rfl, -⟩ := validateEditsAgainstScope_message hscope
        exact hne m rfl
    next hscope =>
      simp only [hscope, Except.isOk, Except.toBool, forall_const]
      split
      next plan planned hplan =>
        simp only [hplan, applyPlanned, applyEdits]
        cases hloop : applyLoop (applyContext cfg env s plan.baseline) env.crash s.edits
            planned.attempt with
        | finished a => simp [Outcome.completes]
        | killed a =>
          rw [h] at hloop
          exact absurd hloop applyLoop_not_killed
        | raised e a =>
          simp only [show (applyContext cfg env s plan.baseline).denied = env.denied from rfl,
            show (applyContext cfg env s plan.baseline).root = cfg.root from rfl,
            show (applyContext cfg env s plan.baseline).baseline = plan.baseline from rfl]
          cases hrestore : a.files.restoreAttemptWrites env.denied cfg.root plan.baseline
              a.written with
          | mk files error =>
            cases error with
            | some e' => simp [Outcome.completes]
            | none => cases e.isApplyConflict <;> simp [Outcome.completes]
      next message hplan => simp [hplan, Outcome.completes]
      next e hplan => simp [hplan, Outcome.completes]

theorem verify_completes {cfg : Config} {env : NodeEnv} {s : EvoCIState} {w : World}
    (hverify : env.verifyFault = none) (hreview : env.reviewFault = none) :
    (verify cfg env s w).completes = true ↔ verifyHandled cfg s := by
  unfold verify verifyHandled
  split
  next e hplan => simp [hplan, Outcome.completes, Except.isOk, Except.toBool]
  next planned hplan =>
    simp only [hplan, Except.isOk, Except.toBool, iff_true]
    have hreturned : ∃ verification ledger,
        verifyCommands cfg env s planned w.ledger = (.returned verification, ledger) := by
      unfold verifyCommands verifyOfficial verifyLocal
      simp only [hverify]
      repeat' split
      all_goals exact ⟨_, _, rfl⟩
    obtain ⟨verification, ledger, hrun⟩ := hreturned
    simp only [hrun, verifyVerdict, hreview]
    repeat' split
    all_goals rfl

/-- While agents, approver and verifier behave and the process lives, a node
completes exactly when it meets no error that it does not handle. -/
theorem completes_iff_handled {cfg : Config} {env : NodeEnv} {interrupt : Interrupt} {node : Node}
    {s : EvoCIState} {w : World} (h : env.answers = true)
    (hfresh : node = .bootstrap → s.schemaVersion = none)
    (htask : node = .worker → s.workerTask.isSome = true) :
    (runNode cfg env interrupt node s w).completes = true ↔ Handled cfg env node s w := by
  simp only [NodeEnv.answers, Bool.and_eq_true, Bool.not_eq_true', Option.isNone_iff_eq_none] at h
  obtain ⟨⟨⟨⟨⟨⟨⟨⟨⟨hdecide, hretry⟩, hexecute⟩, hverify⟩, hreview⟩, hpersist⟩, hcrash⟩, hlives⟩,
    hrestore⟩, hlost⟩ := h
  have halive : runNode cfg env interrupt node s w = nodeOutcome cfg env interrupt node s w := by
    unfold runNode
    cases nodeOutcome cfg env interrupt node s w <;> simp [Outcome.afterLoss, hlost]
  rw [halive]
  cases node with
  | prepareTask => exact prepareTask_completes hlives
  | worker => exact worker_completes hexecute (htask rfl)
  | applyCandidate => exact applyCandidate_completes hcrash
  | verify => exact verify_completes hverify hreview
  | bootstrap => simp [nodeOutcome, bootstrap, hfresh rfl, Outcome.completes, Handled]
  | retrieveContext => simp [nodeOutcome, retrieveContext, Outcome.completes, Handled]
  | supervise =>
    simp only [nodeOutcome, Handled, iff_true, supervise, superviseRetry]
    repeat' split
    all_goals first
      | rfl
      | simp_all [AgentAnswer.handled]
  | approval =>
    simp only [nodeOutcome, Handled, iff_true, approval]
    repeat' split
    all_goals rfl
  | rollback =>
    simp only [nodeOutcome, Handled, iff_true, rollback, hrestore]
    split <;> rfl
  | finalize =>
    simp only [nodeOutcome, Handled, iff_true, finalize, persistRunOutcome, hpersist]
    repeat' split
    all_goals rfl
  | failed =>
    simp only [nodeOutcome, Handled, iff_true, failed, persistRunOutcome, hpersist]
    split <;> rfl

/-! ## Calls to the agents -/

/-- A finished node called the supervisor at most twice, for a new batch, and the
worker at most once. -/
theorem calls_done {cfg : Config} {env : NodeEnv} {interrupt : Interrupt} {node : Node}
    {s s' : EvoCIState} {w w' : World} (h : runNode cfg env interrupt node s w = .done s' w') :
    (w'.decideCalls = w.decideCalls ∨ node = .supervise ∧
        s'.supervisorBatch = s.supervisorBatch + 1 ∧ w'.decideCalls ≤ w.decideCalls + 2) ∧
      (w'.executeCalls = w.executeCalls ∨ node = .worker ∧
        w'.executeCalls = w.executeCalls + 1) := by
  have hdone := runNode_done h
  cases node with
  | bootstrap =>
    obtain ⟨-, rfl⟩ := bootstrap_done hdone
    exact ⟨.inl rfl, .inl rfl⟩
  | retrieveContext =>
    cases hdone
    exact ⟨.inl rfl, .inl rfl⟩
  | supervise =>
    rcases supervise_done hdone with
      ⟨rfl, -⟩ | ⟨-, count, hcount, rfl, ⟨_, rfl⟩ | ⟨_, _, rfl⟩⟩
    · exact ⟨.inl rfl, .inl rfl⟩
    · exact ⟨.inr ⟨rfl, rfl, Nat.add_le_add_left hcount _⟩, .inl rfl⟩
    · exact ⟨.inr ⟨rfl, rfl, Nat.add_le_add_left hcount _⟩, .inl rfl⟩
  | prepareTask =>
    rcases (prepareTask_done hdone).2 with rfl | ⟨_, rfl⟩ <;> exact ⟨.inl rfl, .inl rfl⟩
  | worker =>
    obtain ⟨_, -, rfl, -⟩ := worker_done hdone
    exact ⟨.inl rfl, .inr ⟨rfl, rfl⟩⟩
  | approval =>
    obtain ⟨rfl, -⟩ := approval_done hdone
    exact ⟨.inl rfl, .inl rfl⟩
  | applyCandidate =>
    rcases applyCandidate_done hdone with ⟨-, rfl, -⟩ | ⟨rfl, -⟩ |
      ⟨_, planned, ⟨_, happlying, rfl, -⟩ | ⟨_, _, happlying, rfl, -⟩⟩
    · exact ⟨.inl rfl, .inl rfl⟩
    · exact ⟨.inl rfl, .inl rfl⟩
    all_goals
      obtain ⟨-, -, -, -, -, hdecide, hexecute, -⟩ := obtainPlan_ready happlying.obtained
      exact ⟨.inl hdecide, .inl hexecute⟩
  | verify =>
    obtain ⟨_, _, _, -, -, rfl, -⟩ := verify_done hdone
    exact ⟨.inl rfl, .inl rfl⟩
  | rollback =>
    obtain ⟨rfl, -⟩ := rollback_done hdone
    exact ⟨.inl rfl, .inl rfl⟩
  | finalize =>
    obtain ⟨rfl, -⟩ := finalize_done hdone
    exact ⟨.inl rfl, .inl rfl⟩
  | failed =>
    obtain ⟨rfl, -⟩ := failed_done hdone
    exact ⟨.inl rfl, .inl rfl⟩

/-! ## Runs -/

/-- Agents, approver and verifier behave, the process lives, and no error escapes
the node that is executed. -/
def Regular (cfg : Config) (a : Action) (r : GraphRun) : Prop :=
  ∀ env ∈ a.env?, env.answers = true ∧
    ∀ node ∈ r.node, Handled cfg env node r.state r.world

/-- The execution waits for the approver. -/
def NodeRun.waits (e : NodeRun) : Prop := e.node = .approval ∧ ∃ w, e.outcome = .interrupted w

/-- Node executions that reached their checkpoint. -/
def completed (history : List NodeRun) : Nat := history.countP fun e => e.outcome.isDone

structure Bounded (cfg : Config) (r : GraphRun) : Prop where
  fresh : r.node = some .bootstrap → r.state.schemaVersion = none
  task : r.node = some .worker → r.state.workerTask.isSome = true
  counted : completed r.history + r.rank cfg ≤ 7 * cfg.maxSupervisorBatches + 4
  settled : ∀ e ∈ r.history, e.outcome.isDone = true ∨ e.waits
  decided : r.world.decideCalls ≤ 2 * r.state.supervisorBatch
  executed : r.world.executeCalls ≤ r.state.supervisorBatch
  unexecuted : r.node = some .prepareTask ∨ r.node = some .worker →
    r.world.executeCalls < r.state.supervisorBatch
  once : r.history.Pairwise fun e later =>
    e.worked → later.worked → e.before.supervisorBatch ≠ later.before.supervisorBatch

section Kept

variable {cfg : Config} {r : GraphRun} {env : NodeEnv} {node : Node} {s : EvoCIState} {w : World}

theorem Bounded.task_done (h : runNode cfg env r.interrupt node r.state r.world = .done s w)
    (hnext : route cfg node s w.files = some .worker) : s.workerTask.isSome = true := by
  have hedge := route_mem_edges hnext
  have hprepare : node = .prepareTask := by cases node <;> revert hedge <;> decide
  subst hprepare
  obtain ⟨-, task, htask⟩ := afterPrepare_worker (Option.some.inj hnext)
  rw [htask]
  rfl

theorem Bounded.once_append {e : NodeRun} (hr : Bounded cfg r) (hbatches : Batches cfg r)
    (hnode : e.worked → r.node = some .worker)
    (hbatch : e.before.supervisorBatch = r.state.supervisorBatch) :
    (r.history ++ [e]).Pairwise fun e later =>
      e.worked → later.worked → e.before.supervisorBatch ≠ later.before.supervisorBatch := by
  rw [List.pairwise_append]
  refine ⟨hr.once, List.pairwise_singleton _ _, ?_⟩
  intro earlier hearlier later hlater hworked hlaterWorked
  rw [List.mem_singleton] at hlater
  subst hlater
  have hlt := hbatches.fresh (.inr (hnode hlaterWorked)) earlier hearlier hworked
  omega

theorem Bounded.finished (hr : Bounded cfg r) (hbatches : Batches cfg r)
    (hnode : r.node = some node)
    (h : runNode cfg env r.interrupt node r.state r.world = .done s w) :
    Bounded cfg ⟨route cfg node s w.files, s, w, .idle,
      r.history ++ [⟨node, env, r.interrupt, r.state, r.world, .done s w⟩]⟩ := by
  have hrank : (GraphRun.rank cfg ⟨route cfg node s w.files, s, w, .idle, []⟩) + 1 ≤
      r.rank cfg := by
    simp only [GraphRun.rank, hnode, Option.elim_some]
    cases hnext : route cfg node s w.files with
    | none =>
      cases node <;> simp [nodeRank]
    | some next => exact rank_done h hnext
  obtain ⟨hdecide, hexecute⟩ := calls_done h
  have hbatch := batch_done h
  refine ⟨?_, Bounded.task_done h, ?_, ?_, ?_, ?_, ?_, ?_⟩
  · intro hnext
    have hedge := route_mem_edges hnext
    cases node <;> contradiction
  · have hcounted := hr.counted
    simp only [completed, List.countP_append, List.countP_singleton, Outcome.isDone, if_true]
      at hcounted ⊢
    simp only [GraphRun.rank] at hrank hcounted ⊢
    omega
  · intro e he
    rcases List.mem_append.mp he with he | he
    · exact hr.settled e he
    · rw [List.mem_singleton] at he
      subst he
      exact .inl rfl
  · have hdecided := hr.decided
    show w.decideCalls ≤ 2 * s.supervisorBatch
    rcases hdecide with heq | ⟨-, hopened, hle⟩ <;>
      rcases hbatch with hsame | ⟨-, hopened', -⟩ <;> omega
  · have hexecuted := hr.executed
    show w.executeCalls ≤ s.supervisorBatch
    rcases hexecute with heq | ⟨rfl, heq⟩
    · rcases hbatch with hsame | ⟨-, hopened', -⟩ <;> omega
    · have hlt := hr.unexecuted (.inr hnode)
      rcases hbatch with hsame | ⟨-, hopened', -⟩ <;> omega
  · intro hnext
    have hexecuted := hr.executed
    show w.executeCalls < s.supervisorBatch
    rcases before_worker hnext with ⟨rfl, hrunning⟩ | rfl
    · rcases hexecute with heq | ⟨hworker, -⟩
      · rcases hbatch with hsame | ⟨-, hopened', -⟩
        · have hopened := batch_opened h hrunning
          omega
        · omega
      · cases hworker
    · have hlt := hr.unexecuted (.inl hnode)
      rcases hexecute with heq | ⟨hworker, -⟩
      · rcases hbatch with hsame | ⟨-, hopened', -⟩ <;> omega
      · cases hworker
  · exact hr.once_append hbatches (fun hworked => hnode.trans (congrArg some hworked.1)) rfl

end Kept

/-- A waiting execution of the approval node changes nothing. -/
theorem waits_world {cfg : Config} {env : NodeEnv} {interrupt : Interrupt} {node : Node}
    {s : EvoCIState} {w w' : World}
    (h : runNode cfg env interrupt node s w = .interrupted w') : node = .approval ∧ w' = w := by
  obtain ⟨rfl, -⟩ := interrupted_asks h
  have hworld := @quiet_nodes cfg env interrupt .approval s w (.inl rfl)
  rw [h] at hworld
  exact ⟨rfl, hworld⟩

theorem bounded_kept {cfg : Config} (r : GraphRun) (a : Action)
    (hok : Regular cfg a r ∧ Batches cfg r) (h : Bounded cfg r) : Bounded cfg (act cfg a r) := by
  refine @kept_of_worlds cfg (fun a r => Regular cfg a r ∧ Batches cfg r) (Bounded cfg)
    ?_ ?_ ?_ ?_ ?_ r a hok h
  · intro r interrupt hr
    exact ⟨hr.fresh, hr.task, hr.counted, hr.settled, hr.decided, hr.executed, hr.unexecuted,
      hr.once⟩
  · intro r hr
    exact ⟨hr.fresh, hr.task, hr.counted, hr.settled, hr.decided, hr.executed, hr.unexecuted,
      hr.once⟩
  · intro r files _ hr
    exact ⟨hr.fresh, hr.task, hr.counted, hr.settled, hr.decided, hr.executed, hr.unexecuted,
      hr.once⟩
  · intro r env node s w ⟨_, hbatches⟩ hr hnode hrun
    exact hr.finished hbatches hnode hrun
  · -- a node that is not checkpointed waits for the approver
    intro r env node outcome ⟨hregular, hbatches⟩ hr hnode hrun hstopped
    obtain ⟨hanswers, hhandled⟩ := hregular env rfl
    have hcompletes := (@completes_iff_handled cfg env r.interrupt node r.state r.world hanswers
      (fun h => hr.fresh (hnode.trans (congrArg some h)))
      (fun h => hr.task (hnode.trans (congrArg some h)))).mpr (hhandled node hnode)
    rw [hrun] at hcompletes
    cases outcome with
    | done s w => cases hstopped
    | raised e w => cases hcompletes
    | killed w => cases hcompletes
    | interrupted w =>
      obtain ⟨rfl, rfl⟩ := waits_world hrun
      refine ⟨hr.fresh, hr.task, ?_, ?_, hr.decided, hr.executed, hr.unexecuted, ?_⟩
      · have hcounted := hr.counted
        simpa [completed, Outcome.isDone, GraphRun.rank] using hcounted
      · intro e he
        rcases List.mem_append.mp he with he | he
        · exact hr.settled e he
        · rw [List.mem_singleton] at he
          subst he
          exact .inr ⟨rfl, _, rfl⟩
      · exact hr.once_append hbatches (fun hworked => by cases hworked.1) rfl

namespace Sample

/-- `Regular`, as far as a run on fixed inputs can decide it. -/
def completes (cfg : Config) (a : Action) (r : GraphRun) : Prop :=
  ∀ env ∈ a.env?, env.answers = true ∧ ∀ node ∈ r.node,
    (runNode cfg env r.interrupt node r.state r.world).completes = true ∧
      (node = .bootstrap → r.state.schemaVersion = none) ∧
      (node = .worker → r.state.workerTask.isSome = true)

instance (cfg : Config) (a : Action) (r : GraphRun) : Decidable (completes cfg a r) := by
  unfold completes
  infer_instance

theorem regular_of_completes {cfg : Config} (a : Action) (r : GraphRun)
    (h : completes cfg a r) : Regular cfg a r := by
  intro env henv
  obtain ⟨hanswers, hnodes⟩ := h env henv
  refine ⟨hanswers, fun node hnode => ?_⟩
  obtain ⟨hcompletes, hfresh, htask⟩ := hnodes node hnode
  exact (completes_iff_handled hanswers hfresh htask).mp hcompletes

def blocked : WorkerRun where
  result := { taskId := "t1", status := .blocked, summary := "stuck" }
  edits := []

/-- A blocked worker, then a repair whose verification fails, then the end of the
batches. -/
def blockedThenFailing : List Action :=
  [.execute { decide := .returned (dispatch (task "t1") t1_valid) },
    .execute { copying }, .execute { execute := .returned blocked }] ++
    batch "t2" t2_valid [edit] ++ [verifying 1, rollingBack, .execute {}]

/-- A task whose write scope leaves the workspace. -/
def outside : WorkerTask := { taskId := "t", kind := .repair, writeScope := ["../x"] }

theorem outside_valid : outside.Valid :=
  ⟨by decide, fun hkind => absurd hkind (by decide), rfl⟩

/-- `prepare_task` raises for that task each time the run is resumed. -/
def dispatchedOutside : List Action :=
  .execute { decide := .returned (dispatch outside outside_valid) } ::
    List.replicate 12 (.execute {})

end Sample

end EvoCI
