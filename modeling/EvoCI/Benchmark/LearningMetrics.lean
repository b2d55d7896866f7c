import Mathlib.Data.Set.Card
import EvoCI.Learning.Completion
import EvoCI.Learning.Reporting

/-! The metrics of a benchmarked run, computed when the graph has ended and refreshed behind
learning that was deferred, and how its two numbers about skills compare with what the run
changed in the registry. -/

namespace EvoCI

open Library

/-! ## Metrics -/

/-- The fields of `RunMetrics` that are computed from the events and the decision; what the
evaluator finds out, the learning does not change. -/
structure RunMetrics (ρ : Type) where
  evaluated : ρ
  llmCalls : Nat
  repairModelCalls : Nat
  postRunModelCalls : Nat
  toolCalls : Nat
  repairToolCalls : Nat
  postRunToolCalls : Nat
  failedToolCalls : Nat
  workersSpawned : Nat
  skillsSelected : Nat
  skillsUsed : Nat
  skillCreated : Nat
  skillUpdated : Nat
  skillsPromoted : Nat := 0
  skillsRejected : Nat := 0
  skillsSuperseded : Nat := 0
  skillRegistrySize : Nat
  activeSkillCount : Nat
  deriving DecidableEq, Repr

/-- `model_call_count`. -/
def TrajectoryView.modelCallCount (view : TrajectoryView) : Nat :=
  (view.agents.map fun item => item.2.modelCalls).sum

def TrajectoryView.failedToolCallCount (view : TrajectoryView) : Nat :=
  (view.agents.map fun item => item.2.failedToolCalls).sum

def TrajectoryEvent.selectedSkills (event : TrajectoryEvent) : List String :=
  match event.payload with
  | .skillSelected skillIds => skillIds
  | _ => []

/-- A worker has completed. -/
def TrajectoryEvent.completedWorker (event : TrajectoryEvent) : Option String :=
  if event.payload = .other "AgentCompleted" then
    event.agentId.filter fun agentId => "worker:".toList <+: agentId.toList
  else none

def postRunModelCalls (events : List TrajectoryEvent) : Nat :=
  events.countP fun event => event.payload = .modelCall ∧ event.budgetScope = .postRun

def postRunToolCalls (events : List TrajectoryEvent) : Nat :=
  events.countP fun event => event.payload.isToolCall ∧ event.budgetScope = .postRun

/-- The events of one of the two types, counted. -/
def reportCount (action : SkillAction) (events : List TrajectoryEvent) : Nat :=
  events.countP fun event => event.Reports action

/-- `decision.get("action") == "update_skill"` on `result.get("learning_decision") or {}`. -/
def decidesUpdate (decision : Option SkillLearningDecision) : Bool :=
  decision.any fun d => d.action = .updateSkill

/-- `collect_metrics`. -/
def collectMetrics {ρ : Type} (evaluated : ρ) (learningDecision : Option SkillLearningDecision)
    (log : List TrajectoryEvent) (skillRegistrySize activeSkillCount : Nat) : RunMetrics ρ :=
  let trajectory := buildView log
  let events := listEvents log
  { evaluated
    llmCalls := trajectory.modelCallCount
    repairModelCalls := events.countP TrajectoryEvent.countsModelCall
    postRunModelCalls := postRunModelCalls events
    toolCalls := trajectory.toolCallCount
    repairToolCalls := events.countP TrajectoryEvent.countsToolCall
    postRunToolCalls := postRunToolCalls events
    failedToolCalls := trajectory.failedToolCallCount
    workersSpawned := (events.filterMap TrajectoryEvent.completedWorker).dedup.length
    skillsSelected := (events.flatMap TrajectoryEvent.selectedSkills).dedup.length
    skillsUsed := trajectory.skillsUsed.length
    skillCreated := reportCount .created events
    skillUpdated := (decidesUpdate learningDecision).toNat + reportCount .updated events
    skillRegistrySize
    activeSkillCount }

/-- `attach_learning_metrics`. -/
def attachLearningMetrics {ρ : Type} (metrics : RunMetrics ρ)
    (learningDecision : Option SkillLearningDecision) (log : List TrajectoryEvent)
    (skillRegistrySize activeSkillCount : Nat) : RunMetrics ρ :=
  let trajectory := buildView log
  let events := listEvents log
  { metrics with
    llmCalls := trajectory.modelCallCount
    postRunModelCalls := postRunModelCalls events
    postRunToolCalls := postRunToolCalls events
    skillsUsed := trajectory.skillsUsed.length
    skillsSelected := (events.flatMap TrajectoryEvent.selectedSkills).dedup.length
    skillCreated := reportCount .created events
    skillUpdated := (decidesUpdate learningDecision).toNat + reportCount .updated events
    skillsPromoted := 0
    skillsRejected := 0
    skillRegistrySize
    activeSkillCount }

/-! ## What they should count -/

/-- A skill that has its row since the run. -/
def NewlyInstalled (s t : LearningStores) (skillId : String) : Prop :=
  s.registry.db.skills skillId = none ∧ (t.registry.db.skills skillId).isSome

/-- A skill that was there before, of which the run has committed an update. -/
def UpdateCommitted (runId : String) (s t : LearningStores) (skillId : String) : Prop :=
  (s.registry.db.skills skillId).isSome ∧ Installed runId t skillId

/-- The metrics count the changes of the registry from `s` to `t`. -/
structure CountsChanges {ρ : Type} (runId : String) (s t : LearningStores)
    (metrics : RunMetrics ρ) : Prop where
  created : {skillId | NewlyInstalled s t skillId}.encard = metrics.skillCreated
  updated : {skillId | UpdateCommitted runId s t skillId}.encard = metrics.skillUpdated

section

variable {ρ : Type} {runId : String} {s t : LearningStores}
  {decision : Option SkillLearningDecision} {metrics : RunMetrics ρ}

theorem reportCount_listEvents (action : SkillAction) (log : List TrajectoryEvent) :
    reportCount action (listEvents log) = reportCount action log :=
  (List.perm_insertionSort _ log).countP_eq _

/-- A log that reports what is installed has one event of its kind. -/
theorem reportCount_installed (h : Mined runId s t) {skillId : String}
    (hid : Installed runId t skillId) :
    reportCount .updated t.log + reportCount .created t.log ≤ 1 ∧
      (RunReported runId t ↔
        reportCount .updated t.log + reportCount .created t.log = 1) ∧
      ((s.registry.db.skills skillId).isSome → reportCount .created t.log = 0) ∧
      (¬ (s.registry.db.skills skillId).isSome → reportCount .updated t.log = 0) := by
  have hupdated := h.once .updated
  have hcreated := h.once .created
  have hzero : ∀ action, (∀ event ∈ t.log, ¬ event.Reports action) →
      reportCount action t.log = 0 := by
    intro action hsilent
    refine List.countP_eq_zero.mpr fun event hevent => ?_
    simpa using hsilent event hevent
  have hkind : ∀ event ∈ t.log, ∀ action, event.Reports action →
      (action = .updated ↔ (s.registry.db.skills skillId).isSome) := by
    intro event hevent action hreports
    obtain ⟨id, hid', -, hkind⟩ := h.reports event hevent action hreports
    obtain rfl := installed_unique hid hid'
    exact hkind
  have hnew : (s.registry.db.skills skillId).isSome → reportCount .created t.log = 0 := by
    intro hrow
    refine hzero _ fun event hevent hreports => ?_
    exact absurd ((hkind event hevent _ hreports).mpr hrow) (by decide)
  have hold : ¬ (s.registry.db.skills skillId).isSome → reportCount .updated t.log = 0 := by
    intro hrow
    refine hzero _ fun event hevent hreports => ?_
    exact absurd ((hkind event hevent _ hreports).mp rfl) hrow
  have hboth : reportCount .updated t.log + reportCount .created t.log ≤ 1 := by
    unfold reportCount at *
    by_cases hrow : (s.registry.db.skills skillId).isSome
    · rw [hnew hrow]
      exact hupdated
    · rw [hold hrow, Nat.zero_add]
      exact hcreated
  refine ⟨hboth, ⟨fun hreported => ?_, fun hone id hid' => ?_⟩, hnew, hold⟩
  · obtain ⟨event, hevent, action, hreports⟩ := hreported skillId hid
    have hpositive : 0 < reportCount action t.log :=
      List.countP_pos_iff.mpr ⟨event, hevent, by simpa using hreports⟩
    cases action <;> omega
  · by_contra hsilent
    have hnone : ∀ action, reportCount action t.log = 0 := fun action =>
      hzero action fun event hevent hreports => hsilent ⟨event, hevent, action, hreports⟩
    rw [hnone, hnone] at hone
    cases hone

/-- Without an installation the registry has not changed. -/
theorem unchanged_of_uninstalled (h : Mined runId s t)
    (hnone : t.registry.db.operations (installKey runId) = none) :
    {skillId | NewlyInstalled s t skillId} = ∅ ∧
      {skillId | UpdateCommitted runId s t skillId} = ∅ := by
  refine ⟨Set.eq_empty_of_forall_notMem ?_, Set.eq_empty_of_forall_notMem ?_⟩
  · rintro id ⟨hbefore, hafter⟩
    rw [h.rows hnone, hbefore] at hafter
    cases hafter
  · rintro id ⟨-, hid⟩
    unfold Installed at hid
    rw [hnone] at hid
    cases hid

/-- The changes are those of the installed skill. -/
theorem changes_of_installed (h : Mined runId s t) {skillId : String}
    (hid : Installed runId t skillId) :
    {id | NewlyInstalled s t id} = {id | id = skillId ∧ s.registry.db.skills skillId = none} ∧
      {id | UpdateCommitted runId s t id} =
        {id | id = skillId ∧ (s.registry.db.skills skillId).isSome} := by
  obtain ⟨-, row, -, hrows⟩ := h.installed hid
  refine ⟨Set.ext fun id => ⟨?_, ?_⟩, Set.ext fun id => ⟨?_, ?_⟩⟩
  · rintro ⟨hbefore, hafter⟩
    by_cases hsame : id = skillId
    · exact ⟨hsame, hsame ▸ hbefore⟩
    · rw [hrows, Function.update_of_ne hsame, hbefore] at hafter
      cases hafter
  · rintro ⟨rfl, hbefore⟩
    refine ⟨hbefore, ?_⟩
    rw [hrows, Function.update_self]
    rfl
  · rintro ⟨hrow, hinstalled⟩
    obtain rfl := installed_unique hid hinstalled
    exact ⟨rfl, hrow⟩
  · rintro ⟨rfl, hrow⟩
    exact ⟨hrow, hid⟩

theorem encard_only (skillId : String) (p : Prop) [Decidable p] :
    {id : String | id = skillId ∧ p}.encard = ((if p then 1 else 0 : Nat) : ℕ∞) := by
  split
  next hp =>
    have hset : {id : String | id = skillId ∧ p} = {skillId} := by
      ext id
      simp [hp]
    rw [hset, Set.encard_singleton]
    rfl
  next hp =>
    have hset : {id : String | id = skillId ∧ p} = ∅ := by
      ext id
      simp [hp]
    rw [hset, Set.encard_empty]
    rfl

/-- The numbers are right exactly when either the installed skill is reported and the decision
is not an update, or neither. -/
theorem countsChanges_iff (h : Mined runId s t)
    (hdecision : ∀ d, decision = some d →
      t.registry.db.operations (decisionKey runId) = some (.decision d))
    (hcreated : metrics.skillCreated = reportCount .created t.log)
    (hupdated : metrics.skillUpdated =
      (decidesUpdate decision).toNat + reportCount .updated t.log) :
    CountsChanges runId s t metrics ↔
      (RunReported runId t ↔ decidesUpdate decision = false) := by
  have hcounts : ∀ created updated : Nat,
      {skillId | NewlyInstalled s t skillId}.encard = (created : ℕ∞) →
      {skillId | UpdateCommitted runId s t skillId}.encard = (updated : ℕ∞) →
      (CountsChanges runId s t metrics ↔
        created = metrics.skillCreated ∧ updated = metrics.skillUpdated) := by
    intro created updated hc hu
    constructor
    · rintro ⟨hc', hu'⟩
      rw [hc] at hc'
      rw [hu] at hu'
      exact ⟨by exact_mod_cast hc', by exact_mod_cast hu'⟩
    · rintro ⟨rfl, rfl⟩
      exact ⟨hc, hu⟩
  cases hop : t.registry.db.operations (installKey runId) with
  | none =>
    obtain ⟨hnew, hcommitted⟩ := unchanged_of_uninstalled h hop
    have hsilent : ∀ action, reportCount action t.log = 0 := by
      intro action
      refine List.countP_eq_zero.mpr fun event hevent => ?_
      simp only [decide_eq_true_eq]
      intro hreports
      obtain ⟨id, hid, -⟩ := h.reports event hevent action hreports
      unfold Installed at hid
      rw [hop] at hid
      cases hid
    have hreported : RunReported runId t := by
      intro id hid
      unfold Installed at hid
      rw [hop] at hid
      cases hid
    rw [hcounts 0 0 (by rw [hnew, Set.encard_empty]; rfl)
      (by rw [hcommitted, Set.encard_empty]; rfl),
      hcreated, hupdated, hsilent, hsilent, iff_true_left hreported]
    cases decidesUpdate decision <;> simp
  | some result =>
    obtain ⟨skillId, -, ⟨hnone, -⟩ | ⟨hid, -⟩⟩ := h.settled
    · rw [hop] at hnone
      cases hnone
    have hid : Installed runId t skillId := hid
    obtain ⟨hnew, hcommitted⟩ := changes_of_installed h hid
    obtain ⟨hboth, hreported, hold, hfresh⟩ := reportCount_installed h hid
    obtain ⟨d, hd, haction⟩ := h.decided skillId hid
    have hupdates : decidesUpdate decision = true →
        (s.registry.db.skills skillId).isSome := by
      intro hupdate
      cases hdec : decision with
      | none =>
        rw [hdec] at hupdate
        cases hupdate
      | some d' =>
        have hsame := hdecision d' hdec
        rw [hd] at hsame
        cases hsame
        rw [hdec] at hupdate
        exact haction.mp (by simpa [decidesUpdate] using hupdate)
    rw [hcounts _ _ (by rw [hnew]; exact encard_only skillId _)
      (by rw [hcommitted]; exact encard_only skillId _), hcreated, hupdated, hreported]
    by_cases hrow : (s.registry.db.skills skillId).isSome
    · have hsome : s.registry.db.skills skillId ≠ none := Option.isSome_iff_ne_none.mp hrow
      rw [hold hrow, if_neg hsome, if_pos hrow]
      cases decidesUpdate decision <;> simp <;> omega
    · have hnone : s.registry.db.skills skillId = none := by simpa using hrow
      have hno : decidesUpdate decision = false := by
        by_contra hupdate
        exact hrow (hupdates (by simpa using hupdate))
      rw [hfresh hrow, if_pos hnone, if_neg hrow, hno]
      simp
      omega

end

/-! ## The runs -/

/-- The stores behind these executions. -/
def learnedBy (cfg : OutcomeConfig) (s : LearningStores) (xs : List OutcomeExecution) :
    LearningStores :=
  Run.run (OutcomeExecution.step cfg) s xs

/-- Whatever executions came before: without a decision in the result the metrics count the
changes exactly when these are reported, and behind an execution that returns both functions
count them exactly when either they are reported and the decision is not an update, or
neither. Only an interrupted execution leaves a change without its report. -/
theorem skillMetrics_count_iff {ρ : Type} (cfg : OutcomeConfig) (runId : String)
    (xs : List OutcomeExecution) (s : LearningStores) (hrun : ∀ x ∈ xs, x.outcome.runId = runId)
    (hfresh : Unlearned runId s) (evaluated : ρ) :
    (∀ size active, CountsChanges runId s (learnedBy cfg s xs)
        (collectMetrics evaluated none (learnedBy cfg s xs).log size active) ↔
      RunReported runId (learnedBy cfg s xs)) ∧
    (∀ (o : RunOutcome) env update, o.runId = runId →
      (o.persist cfg env (learnedBy cfg s xs)).result = .ok update →
      ∀ (metrics : RunMetrics ρ) size active,
        (CountsChanges runId s (o.persist cfg env (learnedBy cfg s xs)).state
            (collectMetrics evaluated update.learned.learningDecision
              (o.persist cfg env (learnedBy cfg s xs)).state.log size active) ↔
          (RunReported runId (o.persist cfg env (learnedBy cfg s xs)).state ↔
            decidesUpdate update.learned.learningDecision = false)) ∧
        (CountsChanges runId s (o.persist cfg env (learnedBy cfg s xs)).state
            (attachLearningMetrics metrics update.learned.learningDecision
              (o.persist cfg env (learnedBy cfg s xs)).state.log size active) ↔
          (RunReported runId (o.persist cfg env (learnedBy cfg s xs)).state ↔
            decidesUpdate update.learned.learningDecision = false))) ∧
    ((∀ x ∈ xs, x.crash = none) → RunReported runId (learnedBy cfg s xs) ∧
      ∀ (o : RunOutcome) env, o.runId = runId →
        RunReported runId (o.persist cfg env (learnedBy cfg s xs)).state) := by
  have hmined : Mined runId s (learnedBy cfg s xs) :=
    executions_mined cfg xs hrun (mined_refl hfresh)
  refine ⟨fun size active => ?_, fun o env update ho hupdate metrics size active => ?_,
    fun hwhole => ?_⟩
  · refine (@countsChanges_iff ρ runId s _ none _ hmined (fun d hd => by cases hd)
      (reportCount_listEvents .created _) ?_).trans ?_
    · exact congrArg (0 + ·) (reportCount_listEvents .updated _)
    · exact iff_true_right rfl
  · subst ho
    have hleft := (@honest_persist cfg o env s _ hmined).1.2
    have hdecision := fun d hd => @persist_decision cfg o env _ d update hupdate hd
    exact ⟨countsChanges_iff hleft hdecision (reportCount_listEvents .created _)
      (congrArg (_ + ·) (reportCount_listEvents .updated _)),
      countsChanges_iff hleft hdecision (reportCount_listEvents .created _)
        (congrArg (_ + ·) (reportCount_listEvents .updated _))⟩
  · have hreported := executions_reported cfg xs hrun hwhole (mined_refl hfresh)
      (unlearned_reported hfresh)
    refine ⟨hreported, fun o env ho => ?_⟩
    subst ho
    exact (honest_persist hmined).2 hreported

namespace Sample

/-- An update is installed and reported. -/
def taught : DurableRun OutcomeStep LearningStores Raised OutcomeUpdate :=
  succeeded.persist outcomeConfig (answering "b" updateDebug) usedDebug

/-- A run that called a tool, before it learns. -/
def calledTool : LearningStores where
  log := [⟨some "1", some "worker", some "i", 0, .repair, .toolCall "c" "read_file" {}⟩]
  memory := MemoryStore.empty
  registry := Registry.empty

/-- The miner proposes a new skill. -/
def taughtNew : DurableRun OutcomeStep LearningStores Raised OutcomeUpdate :=
  succeeded.persist outcomeConfig
    (answering "b" { updateDebug with action := .newSkill, targetSkillId := none }) calledTool

def decisionOf (run : DurableRun OutcomeStep LearningStores Raised OutcomeUpdate) :
    Option SkillLearningDecision :=
  match run.result with
  | .ok update => update.learned.learningDecision
  | .error _ => none

theorem numbered_quiet {event : TrajectoryEvent} {number : String}
    (hid : event.eventId = some number) (hother : ¬ "run".toList <+: number.toList)
    (hsilent : ∀ action, ¬ event.Reports action) : event.Quiet "run" := by
  refine ⟨hsilent, fun action skillId hskill hsame => hother ?_⟩
  rw [hid] at hsame
  unfold reportId emittedId at hsame
  rw [if_neg hskill] at hsame
  rw [Option.some.inj hsame]
  simp only [String.toList_append, List.append_assoc]
  exact List.prefix_append _ _

theorem usedDebug_unlearned : Unlearned "run" usedDebug := by
  refine ⟨?_, fun event hevent => ?_⟩
  · change oneSkill.db.operations _ = none
    rw [oneSkill_db]
    rfl
  · simp only [usedDebug, List.mem_cons, List.not_mem_nil, or_false] at hevent
    rcases hevent with rfl | rfl
    · exact numbered_quiet rfl (by decide) fun _ h => by cases h
    · exact numbered_quiet rfl (by decide) fun _ h => by cases h

theorem calledTool_unlearned : Unlearned "run" calledTool := by
  refine ⟨rfl, fun event hevent => ?_⟩
  simp only [calledTool, List.mem_cons, List.not_mem_nil, or_false] at hevent
  subst hevent
  exact numbered_quiet rfl (by decide) fun _ h => by cases h

/-- One update was committed, and both functions count two. -/
theorem update_counted_twice :
    Unlearned "run" usedDebug ∧ taught.result.toOption.isSome ∧
      decidesUpdate (decisionOf taught) = true ∧
      ¬ CountsChanges "run" usedDebug taught.state
        (collectMetrics () (decisionOf taught) taught.state.log 1 1) ∧
      ¬ CountsChanges "run" usedDebug taught.state
        (attachLearningMetrics (collectMetrics () none usedDebug.log 1 1) (decisionOf taught)
          taught.state.log 1 1) := by
  have hone : {id | UpdateCommitted "run" usedDebug taught.state id}.encard ≤ 1 := by
    rw [Set.encard_le_one_iff]
    rintro id id' ⟨-, hid⟩ ⟨-, hid'⟩
    exact installed_unique hid hid'
  have hwrong : ∀ metrics : RunMetrics Unit, metrics.skillUpdated = 2 →
      ¬ CountsChanges "run" usedDebug taught.state metrics := by
    intro metrics htwo hcounts
    rw [hcounts.updated, htwo] at hone
    exact absurd hone (by decide)
  exact ⟨usedDebug_unlearned, by decide +kernel, by decide +kernel, hwrong _ (by decide +kernel),
    hwrong _ (by decide +kernel)⟩

theorem new_skill_counted :
    CountsChanges "run" calledTool taughtNew.state
        (collectMetrics () (decisionOf taughtNew) taughtNew.state.log 1 1) ∧
      (collectMetrics () (decisionOf taughtNew) taughtNew.state.log 1 1).skillCreated = 1 := by
  obtain ⟨-, hmetrics, hwhole⟩ := skillMetrics_count_iff outcomeConfig "run" [] calledTool
    (by simp) calledTool_unlearned ()
  refine ⟨?_, by decide +kernel⟩
  cases hok : taughtNew.result with
  | error e =>
    have hsome : taughtNew.result.toOption.isSome := by decide +kernel
    rw [hok] at hsome
    cases hsome
  | ok update =>
    have hsame : decisionOf taughtNew = update.learned.learningDecision := by
      unfold decisionOf
      rw [hok]
    rw [hsame]
    refine ((hmetrics succeeded _ update rfl hok (collectMetrics () none [] 0 0) 1 1).1).mpr ?_
    refine iff_of_true ((hwhole (by simp)).2 succeeded _ rfl) ?_
    rw [← hsame]
    decide +kernel

end Sample

end EvoCI
