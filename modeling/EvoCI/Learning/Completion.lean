import EvoCI.Learning.Replay

/-! What an execution that is neither interrupted nor refused by a store has done at its end,
and what the executions of a run amount to together. -/

namespace EvoCI

open Library

/-- No call to a store fails. -/
def OutcomeEnv.Faultless (env : OutcomeEnv) : Prop :=
  (∀ step, env.memory.fault step = none) ∧ ∀ call, (env.host call).Faultless

/-- The tables hold an episode of the run. -/
def StoreTables.Tells (rows : StoreTables) (o : RunOutcome) : Prop :=
  ∃ e ∈ rows.episodes, e.id = o.episodeId ∨ e.runId = o.runId

/-- The run's episode is stored, if asked for, and the uses of these skills are recorded. -/
structure Finished (o : RunOutcome) (episode : Prop) (skillIds : List String)
    (t : LearningStores) : Prop where
  stored : episode → t.memory.committed.Tells o ∧ t.memory.current.Tells o
  counted : ∀ skillId ∈ skillIds, (t.registry.db.operations (useKey o.runId skillId)).isSome

section

variable {cfg : OutcomeConfig} {o : RunOutcome} {view : TrajectoryView} {episode : Prop}
  {skillIds : List String}

/-! ## What was done stays done -/

theorem record_isSome {db : SkillDatabase} {key other : String} {result : OperationResult}
    (h : (db.operations other).isSome) : ((db.record key result).operations other).isSome := by
  by_cases hkey : other = key
  · rw [hkey]
    exact record_self _ _ _
  · rwa [record_ne hkey]

theorem updateKeeps_finished {s : LearningStores} {id : String} :
    UpdateKeeps (fun r => Finished o episode skillIds (s.withRegistry r)) id
      (some (installKey o.runId)) where
  put t place package _ ht := ⟨ht.stored, ht.counted⟩
  upsert t manifest path candidate now _ ht := by
    refine ⟨ht.stored, fun skillId hin => ?_⟩
    have hkept : (t.db.upsert manifest path candidate (some (installKey o.runId)) now).operations
        (useKey o.runId skillId) = t.db.operations (useKey o.runId skillId) :=
      operations_upsert (useKey_ne_installKey _ _ _)
    exact (congrArg Option.isSome hkept).trans (ht.counted skillId hin)

theorem createKeeps_finished {s : LearningStores} {id : String} :
    CreateKeeps (fun r => Finished o episode skillIds (s.withRegistry r)) id
      (some (installKey o.runId)) where
  toUpdateKeeps := updateKeeps_finished
  root _ _ ht := ⟨ht.stored, ht.counted⟩
  memory _ _ _ ht := ⟨ht.stored, ht.counted⟩
  removeRoot _ ht := ⟨ht.stored, ht.counted⟩

theorem StoreTables.Tells.mono {rows rows' : StoreTables} (h : rows.Tells o)
    (hsub : rows.episodes ⊆ rows'.episodes) : rows'.Tells o := by
  obtain ⟨e, he, hid⟩ := h
  exact ⟨e, hsub he, hid⟩

theorem insertEpisode_subset {memoryConfig : MemoryConfig} {m : StoreTables} {e : Episode} :
    m.episodes ⊆ (m.insertEpisode memoryConfig e).episodes := by
  unfold StoreTables.insertEpisode
  split
  · exact List.Subset.refl _
  · exact List.subset_append_left _ _

/-- Rows are added, and committed or left open. -/
theorem finished_shows {t : LearningStores} {m : MemoryStore} {rows : StoreTables}
    (hshows : t.memory.Shows m rows) (hsub : t.memory.current.episodes ⊆ rows.episodes)
    (ht : Finished o episode skillIds t) : Finished o episode skillIds (t.withMemory m) := by
  refine ⟨fun hepisode => ?_, ht.counted⟩
  obtain ⟨hcommitted, hcurrent⟩ := ht.stored hepisode
  rcases hshows with rfl | rfl
  · exact ⟨hcurrent.mono hsub, hcurrent.mono hsub⟩
  · exact ⟨hcommitted, hcurrent.mono hsub⟩

theorem outcomeKeeps_finished {a : MemoryAnswers} :
    OutcomeKeeps (Finished o episode skillIds) cfg a o view where
  event t event _ ht := ⟨ht.stored, ht.counted⟩
  leftOpen t ht := finished_shows (Or.inr rfl) (List.Subset.refl _) ht
  rolledBack t ht :=
    ⟨fun hepisode => ⟨(ht.stored hepisode).1, (ht.stored hepisode).1⟩, ht.counted⟩
  episode t m e _ _ _ hm ht := finished_shows hm insertEpisode_subset ht
  unindexed t e _ _ _ _ ht := finished_shows (Or.inr rfl) (List.subset_append_left _ _) ht
  proposal t m candidate hm ht := finished_shows hm (List.Subset.refl _) ht
  noFact t m _ hm ht := finished_shows hm (List.Subset.refl _) ht
  fact t memory now _ _ _ ht := by
    refine ⟨fun hepisode => ?_, ht.counted⟩
    have hkept : (t.memory.committed.putFact memory now).2.Tells o := by
      unfold StoreTables.Tells
      rw [(putFact_episodes t.memory.committed memory now).1]
      exact (ht.stored hepisode).1
    exact ⟨hkept, hkept⟩
  use t skillId now _ _ _ _ ht := ⟨ht.stored, fun id hid => record_isSome (ht.counted id hid)⟩
  decision t d _ _ _ ht := ⟨ht.stored, fun id hid => record_isSome (ht.counted id hid)⟩
  update t d target _ _ _ _ _ _ _ ht := ⟨_, updateKeeps_finished, ht, fun _ h => h⟩
  create t d candidate id _ _ _ _ _ _ _ _ ht := ⟨_, createKeeps_finished, ht, fun _ h => h⟩
  lesson t skillId entry _ _ _ _ _ _ ht := ⟨ht.stored, ht.counted⟩

/-! ## What an execution does -/

variable {env : OutcomeEnv}

theorem insertEpisode_tells (m : StoreTables) (o : RunOutcome) (view : TrajectoryView) :
    (m.insertEpisode cfg.memory (o.episode view)).Tells o := by
  unfold StoreTables.insertEpisode
  split
  next hrow => exact hrow
  next => exact ⟨o.episode view, List.mem_append_right _ List.mem_cons_self, Or.inl rfl⟩

theorem commit_ok {α : Type} (h : env.Faultless) (m : MemoryStore) (step : MemoryStep)
    (rows : StoreTables) (result : α) :
    m.commit env.memory step rows result = (.ok result, ⟨rows, none⟩) := by
  unfold MemoryStore.commit
  rw [h.1]

theorem emit_returns {t : LearningStores} (payload : TrajectoryPayload) (discriminator : String)
    (agentId : Option String) (scope : BudgetScope) :
    Durable.Returns (fun _ u => u.memory = t.memory ∧ u.registry = t.registry)
      (env.emit o payload discriminator agentId scope) t :=
  Durable.returns_effect rfl ⟨rfl, rfl⟩

/-- The gate of the episode. -/
def RunOutcome.StoresEpisode (o : RunOutcome) (cfg : OutcomeConfig) : Prop :=
  cfg.memoryStore = true ∧ shouldPersistEpisode o.success o.resolvedClass o.state = true

theorem storeEpisode_returns (h : env.Faultless) (l : Learned) (t : LearningStores) :
    Durable.Returns (fun _ u => u.registry = t.registry ∧
      (o.StoresEpisode cfg → u.memory.committed.Tells o ∧ u.memory.current.Tells o))
      (storeEpisode cfg env o view l) t := by
  unfold storeEpisode
  split
  next hgate =>
    let rows := t.memory.current.insertEpisode cfg.memory (o.episode view)
    have hadded : Durable.Returns (fun _ u => u = t.withMemory ⟨rows, none⟩)
        (onMemory (addEpisode cfg.memory env.memory (o.episode view))) t := by
      refine Durable.returns_within (Durable.returns_statement (a := ()) ?_ rfl)
      simp only [h.1, commit_ok h]
      split
      next hhas =>
        rw [← insertEpisode_has hhas]
      · rfl
    refine Durable.returns_bind (Durable.returns_attempt hadded) ?_
    rintro _ _ ⟨_, rfl, rfl⟩
    refine Durable.returns_bind (emit_returns _ _ _ _) ?_
    rintro _ u ⟨hmemory, hregistry⟩
    refine Durable.returns_pure _ ⟨hregistry, fun _ => ?_⟩
    rw [hmemory]
    exact ⟨insertEpisode_tells _ o view, insertEpisode_tells _ o view⟩
  next hgate =>
    refine Durable.returns_pure _ ⟨rfl, fun hstores => absurd ?_ hgate⟩
    rw [Bool.and_eq_true]
    exact hstores

/-- What the loop over the used skills leaves: each that is in the registry is counted. -/
structure UsesRecorded (o : RunOutcome) (skillIds : List String) (t u : LearningStores) :
    Prop where
  counted : ∀ skillId ∈ skillIds, (t.registry.db.skills skillId).isSome →
    (u.registry.db.operations (useKey o.runId skillId)).isSome
  skills : u.registry.db.skills = t.registry.db.skills
  kept : ∀ key, (t.registry.db.operations key).isSome → (u.registry.db.operations key).isSome
  memory : u.memory = t.memory

theorem recordUse_returns {a : HostAnswers} (ha : a.Faultless) (skillId : String)
    (success patched : Bool) (t : LearningStores) :
    Durable.Returns (fun _ u => UsesRecorded o [skillId] t u)
      (onRegistry (recordUse a skillId success patched (some (useKey o.runId skillId)))) t := by
  refine Durable.returns_within ?_
  unfold recordUse onceFor
  cases hkey : t.registry.db.operations (useKey o.runId skillId) with
  | none =>
    refine Durable.returns_effect (t := { t.registry with
      db := (t.registry.db.updateStats skillId fun stats =>
        stats.use success patched a.rowsNow).record (useKey o.runId skillId) .recorded })
      (a := true) ?_ ⟨?_, rfl, fun key hsome => record_isSome hsome, rfl⟩
    · rw [check_ok (ha _)]
      simp only [givenKey_useKey, Except.map, hkey]
      rfl
    · intro id hid _
      rw [List.mem_singleton] at hid
      rw [hid]
      exact record_self _ _ _
  | some result =>
    refine Durable.returns_effect (t := t.registry) (a := false) ?_
      ⟨fun id hid _ => ?_, rfl, fun key hsome => hsome, rfl⟩
    · rw [check_ok (ha _)]
      simp only [givenKey_useKey, Except.map, hkey]
      rfl
    · rw [List.mem_singleton] at hid
      rw [hid]
      exact (congrArg Option.isSome hkey).trans rfl

theorem recordUses_returns (h : env.Faultless) (skillIds : List String) (l : Learned)
    (t : LearningStores) :
    Durable.Returns (fun _ u => UsesRecorded o skillIds t u)
      (recordUses env o view skillIds l) t := by
  induction skillIds generalizing l t with
  | nil => exact Durable.returns_pure _ ⟨by simp, rfl, fun _ hsome => hsome, rfl⟩
  | cons skillId rest ih =>
    have hread : Durable.Returns (fun found u => found = t.registry.get skillId ∧ u = t)
        (onRegistry (getSkill (env.host (.use skillId)) skillId)) t := by
      refine Durable.returns_within (Durable.returns_look ?_ ⟨rfl, rfl⟩)
      rw [check_ok (h.2 _ _)]
      rfl
    refine Durable.returns_bind (Durable.returns_attempt hread) ?_
    rintro _ u ⟨_, rfl, hfound, hsame⟩
    subst hfound
    subst hsame
    cases hget : u.registry.get skillId with
    | none =>
      have hrow : u.registry.db.skills skillId = none := by
        unfold Registry.get at hget
        exact Option.map_eq_none_iff.mp hget
      refine (ih l u).mono fun _ w hu => ⟨fun id hid hsome => ?_, hu.skills, hu.kept, hu.memory⟩
      rcases List.mem_cons.mp hid with rfl | hid
      · rw [hrow] at hsome
        cases hsome
      · exact hu.counted id hid hsome
    | some skill =>
      refine Durable.returns_bind (Durable.returns_attempt
        (recordUse_returns (h.2 _) skillId _ _ u)) ?_
      rintro _ v ⟨_, rfl, hv⟩
      refine (ih l v).mono fun _ w hu => ⟨fun id hid hsome => ?_, hu.skills.trans hv.skills,
        fun key hsome => hu.kept key (hv.kept key hsome), hu.memory.trans hv.memory⟩
      rcases List.mem_cons.mp hid with rfl | hid
      · exact hu.kept _ (hv.counted _ List.mem_cons_self hsome)
      · exact hu.counted id hid (by rwa [hv.skills])

/-- The used skills that are in the registry, when their uses are recorded. -/
def RunOutcome.countedSkills (o : RunOutcome) (cfg : OutcomeConfig) (view : TrajectoryView)
    (r : Registry) : List String :=
  if cfg.capabilityRegistry && !o.ungraded then
    view.skillsUsed.filter fun skillId => (r.db.skills skillId).isSome
  else []

theorem recordOutcomes_returns (h : env.Faultless) (l : Learned) (t : LearningStores) :
    Durable.Returns (fun _ u => u.memory = t.memory ∧
      ∀ skillId ∈ o.countedSkills cfg view t.registry,
        (u.registry.db.operations (useKey o.runId skillId)).isSome)
      (recordOutcomes cfg env o view l) t := by
  unfold recordOutcomes RunOutcome.countedSkills
  split
  · refine (recordUses_returns h _ l t).mono fun _ u hu => ⟨hu.memory, fun id hid => ?_⟩
    obtain ⟨hused, hrow⟩ := List.mem_filter.mp hid
    exact hu.counted id hused hrow
  · exact Durable.returns_pure _ ⟨rfl, by simp⟩

/-- At its end the episode is stored and the uses are recorded. -/
theorem persist_finished (h : env.Faultless) (t : LearningStores) :
    Finished o (o.StoresEpisode cfg)
      (o.countedSkills cfg (buildView (t.logged (o.terminal env t)).log) t.registry)
      (o.persist cfg env t).state := by
  refine Durable.leaves_bind (R := fun _ u => u = t.logged (o.terminal env t))
    (Durable.returns_effect rfl rfl) ?_
  rintro _ _ rfl
  refine Durable.leaves_bind (R := fun view u => view = buildView (t.logged (o.terminal env t)).log
    ∧ u = t.logged (o.terminal env t)) (Durable.returns_look rfl ⟨rfl, rfl⟩) ?_
  rintro view _ ⟨rfl, rfl⟩
  refine Durable.leaves_bind (storeEpisode_returns h _ _) ?_
  rintro l u ⟨hregistry, hstored⟩
  refine Durable.leaves_bind (recordOutcomes_returns h _ _) ?_
  rintro l v ⟨hmemory, hcounted⟩
  have hdone : Finished o (o.StoresEpisode cfg)
      (o.countedSkills cfg (buildView (t.logged (o.terminal env t)).log) t.registry) v := by
    refine ⟨fun hstores => ?_, fun id hid => hcounted id ?_⟩
    · rw [hmemory]
      exact hstored hstores
    · rw [hregistry]
      exact hid
  -- the later stages keep both
  have hkeeps := @outcomeKeeps_finished cfg o (buildView (t.logged (o.terminal env t)).log)
    (o.StoresEpisode cfg) (o.countedSkills cfg (buildView (t.logged (o.terminal env t)).log)
      t.registry)
  refine (Durable.Keeps.stays ?_ hdone).2
  refine Durable.keeps_bind (keeps_consolidate hkeeps _) fun l => ?_
  refine Durable.keeps_bind (keeps_mineSkill hkeeps _) fun l => ?_
  exact Durable.keeps_bind (keeps_recordLessons hkeeps _) fun l => Durable.keeps_pure _

/-! ## Together -/

/-- The effects of however many executions come to those of one. -/
structure LearnedOnce (cfg : OutcomeConfig) (o : RunOutcome) (s t : LearningStores) : Prop where
  episode : StoredEpisodes cfg o s.log s.memory.committed t.memory.committed
  fact : CommittedFacts cfg o s.memory.committed t.memory.committed
  uses : ∀ skillId stats, s.registry.db.stats skillId = some stats →
    ∃ stats' uses, t.registry.db.stats skillId = some stats' ∧ uses ≤ 1 ∧
      CountedUses uses (o.attributed (buildView s.log) skillId) stats stats'
  addUp : UsesAddUp t.registry
  skill : ∀ first second, SkillChanged s.registry t.registry first →
    SkillChanged s.registry t.registry second → first = second
  lesson : ∀ skillId ∈ (buildView s.log).skillsUsed,
    WrittenLesson o (buildView s.log) s.registry t.registry skillId

/-- What one completed execution among them has done. -/
structure LearnedFully (cfg : OutcomeConfig) (o : RunOutcome) (s t : LearningStores) : Prop where
  episode : o.StoresEpisode cfg → ∃ e : Episode,
    (∃ log, s.log <+: log ∧ e = o.episode (buildView log)) ∧
    t.memory.committed.episodes = s.memory.committed.episodes ++ [e] ∧
    t.memory.committed.episodesFts =
      s.memory.committed.episodesFts ++ [(e.id, e.content cfg.memory.lower)]
  uses : cfg.capabilityRegistry = true →
    o.resolvedClass ∉ [some .infrastructure, some .model, some .budget] →
    ∀ skillId ∈ (buildView s.log).skillsUsed, (s.registry.db.skills skillId).isSome →
      ∀ stats, s.registry.db.stats skillId = some stats →
        ∃ stats', t.registry.db.stats skillId = some stats' ∧
          CountedUses 1 (o.attributed (buildView s.log) skillId) stats stats'

theorem learnedOnce_of_onceFrom {s t : LearningStores} (h : OnceFrom cfg o s t) :
    LearnedOnce cfg o s t := by
  refine ⟨h.memory.committed.episodes, h.memory.committed.facts, fun id stats hstats => ?_,
    h.registry.addUp,
    fun first second hfirst hsecond => ?_, h.registry.lessons⟩
  · obtain ⟨stats', hstats', hcounted⟩ := h.registry.uses id stats hstats
    exact ⟨stats', _, hstats', Bool.toNat_le _, hcounted⟩
  · obtain ⟨d, hd, hinstalls⟩ := h.registry.mined first hfirst
    obtain ⟨d', hd', hinstalls'⟩ := h.registry.mined second hsecond
    rw [hd] at hd'
    cases hd'
    exact Option.some.inj (hinstalls.symm.trans hinstalls')

theorem learnedFully_of_finished {s t : LearningStores} (hfresh : FreshRun o s)
    (h : OnceFrom cfg o s t) (hdone : Finished o (o.StoresEpisode cfg)
      (o.countedSkills cfg (buildView s.log) s.registry) t) : LearnedFully cfg o s t := by
  refine ⟨fun hstores => ?_, fun hregistry hgraded id hused hrow stats hstats => ?_⟩
  · rcases h.memory.committed.episodes with ⟨hepisodes, -⟩ | hstored
    · obtain ⟨e, he, hsame⟩ := (hdone.stored hstores).1
      rw [hepisodes] at he
      obtain ⟨hid, hrun⟩ := hfresh.episode e he
      exact absurd hsame (not_or.mpr ⟨hid, hrun⟩)
    · exact hstored
  · obtain ⟨stats', hstats', hcounted⟩ := h.registry.uses id stats hstats
    have hungraded : o.ungraded = false := by simpa [RunOutcome.ungraded] using hgraded
    have hsome := hdone.counted id (by
      unfold RunOutcome.countedSkills
      rw [hregistry, hungraded]
      exact List.mem_filter.mpr ⟨hused, hrow⟩)
    rw [hsome] at hcounted
    exact ⟨stats', hstats', hcounted⟩

/-- A completed execution finishes what the run stores, whatever came before it. -/
theorem execution_finished {s t : LearningStores} {x : OutcomeExecution} (hx : x.outcome = o)
    (hcompleted : x.crash = none) (hfaultless : x.env.Faultless) (ht : OnceFrom cfg o s t) :
    Finished o (o.StoresEpisode cfg) (o.countedSkills cfg (buildView s.log) s.registry)
      (x.step cfg t) := by
  subst hx
  have hdone := @persist_finished cfg x.outcome x.env hfaultless t
  have hused : (buildView (t.logged (x.outcome.terminal x.env t)).log).skillsUsed =
      (buildView s.log).skillsUsed :=
    skillsUsed_congr ((recordEvent_traces (terminal_traces _ _ _)).trans ht.traces)
  have hstep : x.step cfg t = (x.outcome.persist cfg x.env t).state := by
    unfold OutcomeExecution.step
    rw [hcompleted]
  rw [hstep]
  refine ⟨hdone.stored, fun id hid => hdone.counted id ?_⟩
  unfold RunOutcome.countedSkills at hid ⊢
  split at hid
  next hgate =>
    rw [if_pos hgate]
    obtain ⟨hin, hrow⟩ := List.mem_filter.mp hid
    exact List.mem_filter.mpr ⟨by rw [hused]; exact hin, ht.registry.rows id hrow⟩
  next => cases hid

theorem executions_finished {t : LearningStores} {ids : List String} (xs : List OutcomeExecution)
    (hsame : ∀ x ∈ xs, x.outcome = o) (ht : Finished o episode ids t) :
    Finished o episode ids (Run.run (OutcomeExecution.step cfg) t xs) := by
  induction xs generalizing t with
  | nil => exact ht
  | cons x xs ih =>
    rw [Run.run_cons]
    refine ih (fun y hy => hsame y (List.mem_cons_of_mem _ hy)) ?_
    have hx := hsame x List.mem_cons_self
    subst hx
    exact execution_leaves outcomeKeeps_finished ht

/-- However often an outcome is persisted and wherever the executions crash, their effects are
those of at most one execution, and those of one as soon as one of them completes. -/
theorem outcome_learned_once (cfg : OutcomeConfig) (o : RunOutcome) (xs : List OutcomeExecution)
    (s : LearningStores) (hsame : ∀ x ∈ xs, x.Of o) (hfresh : FreshRun o s)
    (hplain : PlainIds o (buildView s.log)) (hadd : UsesAddUp s.registry) :
    LearnedOnce cfg o s (Run.run (OutcomeExecution.step cfg) s xs) ∧
      ((∃ x ∈ xs, x.crash = none ∧ x.env.Faultless) →
        LearnedFully cfg o s (Run.run (OutcomeExecution.step cfg) s xs)) := by
  have hself := @onceFrom_refl cfg o s hfresh hadd
  have honce := executions_once hfresh hplain xs hsame hself
  refine ⟨learnedOnce_of_onceFrom honce, ?_⟩
  rintro ⟨x, hx, hcompleted, hfaultless⟩
  refine learnedFully_of_finished hfresh honce ?_
  obtain ⟨before, after, rfl⟩ := List.append_of_mem hx
  rw [Run.run_append, Run.run_cons]
  have hbefore := executions_once hfresh hplain before
    (fun y hy => hsame y (List.mem_append_left _ hy)) hself
  refine executions_finished after (fun y hy => (hsame y ?_).outcome)
    (execution_finished (hsame x hx).outcome hcompleted hfaultless hbefore)
  exact List.mem_append_right _ (List.mem_cons_of_mem _ hy)

end

namespace Sample

theorem oneSkill_db : oneSkill.db = SkillDatabase.upsert Registry.empty.db
    (newManifest registryConfig (succeeding "a") skillCandidate "debug" {}
      [{ path := "SKILL.md", content := "---\n" }])
    (packagePath registryConfig "debug") skillCandidate none 1 := by
  with_unfolding_all rfl

theorem usedDebug_fresh (o : RunOutcome) : FreshRun o usedDebug := by
  refine ⟨rfl, fun e he => ?_, rfl, ?_, fun skillId => ?_⟩
  · cases he
  · change oneSkill.db.operations _ = none
    rw [oneSkill_db]
    rfl
  · change oneSkill.db.operations _ = none
    rw [oneSkill_db]
    rfl

theorem oneSkill_addsUp : UsesAddUp oneSkill := by
  have hempty : UsesAddUp Registry.empty := by
    intro id stats hstats
    cases hstats
  intro id stats hstats
  rw [oneSkill_db] at hstats
  exact @addUp_upsert _ _ (packagePath registryConfig "debug") skillCandidate none _ hempty id
    stats hstats

/-- The infrastructure broke down in a run that used a skill. -/
def brokenDown : OutcomeExecution where
  outcome := { succeeded with success := false, failureClass := some .infrastructure }
  env := answering "b" updateDebug

theorem broken_run_not_counted :
    brokenDown.crash = none ∧ brokenDown.env.Faultless ∧ FreshRun brokenDown.outcome usedDebug ∧
      (buildView usedDebug.log).skillsUsed = ["debug"] ∧
      (oneSkill.db.skills "debug").isSome ∧
      (brokenDown.step outcomeConfig usedDebug).memory.committed.episodes = [] ∧
      ((brokenDown.step outcomeConfig usedDebug).registry.db.stats "debug").map
        SkillStats.useCount = some 0 := by
  refine ⟨rfl, ⟨fun _ => rfl, fun _ _ => rfl⟩, usedDebug_fresh _, by decide +kernel,
    by decide +kernel, by decide +kernel, by decide +kernel⟩

theorem usedDebug_plain : PlainIds succeeded (buildView usedDebug.log) :=
  ⟨by decide, by decide +kernel⟩

theorem replayed_update_learned_once :
    LearnedFully outcomeConfig succeeded usedDebug
      (Run.run (OutcomeExecution.step outcomeConfig) usedDebug [decidedOnly, replay]) := by
  refine (outcome_learned_once outcomeConfig succeeded [decidedOnly, replay] usedDebug ?_
    (usedDebug_fresh _) usedDebug_plain oneSkill_addsUp).2
      ⟨replay, by simp, rfl, fun _ => rfl, fun _ _ => rfl⟩
  intro x hx
  simp only [List.mem_cons, List.not_mem_nil, or_false] at hx
  rcases hx with rfl | rfl <;> exact ⟨rfl, rfl⟩

end Sample

end EvoCI
