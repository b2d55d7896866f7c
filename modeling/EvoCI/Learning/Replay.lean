import EvoCI.Capability.UsageMemory
import EvoCI.Learning.Guard

/-! Executions of `persist_run_outcome` that crash and are repeated: seven effects on three
stores, each of which comes to one. -/

namespace EvoCI

open Library

/-! ## What a run may leave -/

/-- The statistics after so many uses of the run with this outcome. -/
structure CountedUses (uses : Nat) (success : Bool) (before after : SkillStats) : Prop where
  total : after.useCount = before.useCount + uses
  successes : after.successCount = before.successCount + if success then uses else 0
  failures : after.failureCount = before.failureCount + if success then 0 else uses

/-- The run's episode, as a log that goes on from `log` tells it, and its row in the index, or
neither. -/
def StoredEpisodes (cfg : OutcomeConfig) (o : RunOutcome) (log : List TrajectoryEvent)
    (before after : StoreTables) : Prop :=
  after.episodes = before.episodes ∧ after.episodesFts = before.episodesFts ∨
    ∃ e : Episode, (∃ log', log <+: log' ∧ e = o.episode (buildView log')) ∧
      after.episodes = before.episodes ++ [e] ∧
      after.episodesFts = before.episodesFts ++ [(e.id, e.content cfg.memory.lower)]

/-- One fact of the run committed, or none. -/
def CommittedFacts (cfg : OutcomeConfig) (o : RunOutcome) (before after : StoreTables) : Prop :=
  after.longTerm = before.longTerm ∧ after.longTermFts = before.longTermFts ∨
    ∃ memory now, FactOf cfg.memory o memory ∧
      after.longTerm = (before.putFact memory now).2.longTerm ∧
      after.longTermFts = (before.putFact memory now).2.longTermFts

/-- A package or the row of the skill is another one. -/
def SkillChanged (r t : Registry) (skillId : String) : Prop :=
  (∃ place, place.owner = some skillId ∧ t.dirs place ≠ r.dirs place) ∨
    t.db.skills skillId ≠ r.db.skills skillId

/-- One entry of the run with this outcome, or none. -/
def WrittenLesson (o : RunOutcome) (view : TrajectoryView) (r t : Registry) (skillId : String) :
    Prop :=
  t.memory skillId = r.memory skillId ∨ ∃ entry : SkillMemoryEntry,
    entry.runId = o.runId ∧ entry.outcome = o.outcomeText view skillId ∧
      t.memory skillId = (r.remember skillId entry).memory skillId

/-- The skill that a decision installs. -/
def SkillLearningDecision.installs (cfg : OutcomeConfig) (d : SkillLearningDecision) :
    Option String :=
  match d.action, d.candidateSkill with
  | .none, _ => none
  | .updateSkill, _ => d.targetSkillId
  | .newSkill, none => none
  | .newSkill, some candidate => (slug cfg.registry candidate.name).toOption

/-- Nothing of the run is stored, and no transaction is open. -/
structure FreshRun (o : RunOutcome) (s : LearningStores) : Prop where
  closed : s.memory.pending = none
  episode : ∀ e ∈ s.memory.committed.episodes, e.id ≠ o.episodeId ∧ e.runId ≠ o.runId
  commit : s.memory.committed.operations (commitKey o.runId) = none
  decision : s.registry.db.operations (decisionKey o.runId) = none
  use : ∀ skillId, s.registry.db.operations (useKey o.runId skillId) = none

/-- Every use was a success or a failure. -/
def UsesAddUp (r : Registry) : Prop :=
  ∀ skillId stats, r.db.stats skillId = some stats →
    stats.useCount = stats.successCount + stats.failureCount

/-- What the executions of a run make of a registry in which the run had stored nothing. -/
structure OnceRegistry (cfg : OutcomeConfig) (o : RunOutcome) (view : TrajectoryView)
    (r t : Registry) : Prop where
  decision : DecisionFits o.runId view.skillsUsed t
  mined : ∀ skillId, SkillChanged r t skillId →
    ∃ d, t.db.operations (decisionKey o.runId) = some (.decision d) ∧
      d.installs cfg = some skillId
  rows : ∀ skillId, (r.db.skills skillId).isSome → (t.db.skills skillId).isSome
  uses : ∀ skillId stats, r.db.stats skillId = some stats →
    ∃ stats', t.db.stats skillId = some stats' ∧
      CountedUses (t.db.operations (useKey o.runId skillId)).isSome.toNat
        (o.attributed view skillId) stats stats'
  addUp : UsesAddUp t
  lessons : ∀ skillId ∈ view.skillsUsed, WrittenLesson o view r t skillId

/-- What they make of the tables of such a memory store. -/
structure OnceMemory (cfg : OutcomeConfig) (o : RunOutcome) (log : List TrajectoryEvent)
    (m m' : StoreTables) : Prop where
  episodes : StoredEpisodes cfg o log m m'
  facts : CommittedFacts cfg o m m'
  uncommitted : m'.operations (commitKey o.runId) = none →
    m'.longTerm = m.longTerm ∧ m'.longTermFts = m.longTermFts

/-- What is committed and what an open transaction sees. -/
structure OnceStore (cfg : OutcomeConfig) (o : RunOutcome) (log : List TrajectoryEvent)
    (m : StoreTables) (store : MemoryStore) : Prop where
  committed : OnceMemory cfg o log m store.committed
  current : OnceMemory cfg o log m store.current

/-- What every store that the executions pass through has in common with the one before
them. -/
structure OnceFrom (cfg : OutcomeConfig) (o : RunOutcome) (s t : LearningStores) : Prop where
  log : s.log <+: t.log
  traces : (buildView t.log).skillUseTraces.Perm (buildView s.log).skillUseTraces
  memory : OnceStore cfg o s.log s.memory.committed t.memory
  registry : OnceRegistry cfg o (buildView s.log) s.registry t.registry

section

variable {cfg : OutcomeConfig} {o : RunOutcome} {s t : LearningStores}

theorem onceFrom_refl (hfresh : FreshRun o s) (hadd : UsesAddUp s.registry) :
    OnceFrom cfg o s s where
  log := List.prefix_rfl
  traces := List.Perm.refl _
  memory := by
    have hsame : OnceMemory cfg o s.log s.memory.committed s.memory.committed :=
      ⟨Or.inl ⟨rfl, rfl⟩, Or.inl ⟨rfl, rfl⟩, fun _ => ⟨rfl, rfl⟩⟩
    refine ⟨hsame, ?_⟩
    unfold MemoryStore.current
    rw [hfresh.closed]
    exact hsame
  registry := by
    refine ⟨fun d hd => ?_, fun skillId hchange => ?_, fun _ h => h, fun skillId stats hstats => ?_,
      hadd, fun _ _ => Or.inl rfl⟩
    · rw [hfresh.decision] at hd
      cases hd
    · rcases hchange with ⟨_, -, hne⟩ | hne <;> exact absurd rfl hne
    · refine ⟨stats, hstats, ?_⟩
      rw [hfresh.use]
      constructor <;> simp

/-! ## Episodes and facts -/

variable {log : List TrajectoryEvent} {before m : StoreTables}

/-- Rows that are committed or left open. -/
theorem onceStore_shows {store store' : MemoryStore} (h : OnceStore cfg o log before store)
    (hshows : store.Shows store' m) (hm : OnceMemory cfg o log before m) :
    OnceStore cfg o log before store' := by
  rcases hshows with rfl | rfl
  · exact ⟨hm, hm⟩
  · exact ⟨h.committed, hm⟩

theorem storedEpisodes_congr {m' : StoreTables} (hepisodes : m'.episodes = m.episodes)
    (hfts : m'.episodesFts = m.episodesFts) (h : StoredEpisodes cfg o log before m) :
    StoredEpisodes cfg o log before m' := by
  unfold StoredEpisodes
  rw [hepisodes, hfts]
  exact h

theorem storedEpisodes_insert
    (hfresh : ∀ e ∈ before.episodes, e.id ≠ o.episodeId ∧ e.runId ≠ o.runId)
    {log' : List TrajectoryEvent} (hlog : log <+: log') (h : StoredEpisodes cfg o log before m) :
    StoredEpisodes cfg o log before (m.insertEpisode cfg.memory (o.episode (buildView log'))) := by
  unfold StoreTables.insertEpisode
  rcases h with ⟨hepisodes, hfts⟩ | ⟨e, htold, hepisodes, hfts⟩
  · rw [if_neg]
    · refine Or.inr ⟨o.episode (buildView log'), ⟨log', hlog, rfl⟩, ?_, by rw [hfts]⟩
      rw [StoreTables.addRow, hepisodes]
    · rintro ⟨row, hrow, hsame⟩
      rw [hepisodes] at hrow
      obtain ⟨hid, hrun⟩ := hfresh row hrow
      exact hsame.elim hid hrun
  · rw [if_pos]
    · exact Or.inr ⟨e, htold, hepisodes, hfts⟩
    · obtain ⟨log₁, -, rfl⟩ := htold
      refine ⟨o.episode (buildView log₁), ?_, Or.inl rfl⟩
      rw [hepisodes]
      exact List.mem_append_right _ List.mem_cons_self

theorem insertEpisode_facts (memoryConfig : MemoryConfig) (m : StoreTables) (e : Episode) :
    (m.insertEpisode memoryConfig e).longTerm = m.longTerm ∧
      (m.insertEpisode memoryConfig e).longTermFts = m.longTermFts ∧
      (m.insertEpisode memoryConfig e).operations = m.operations := by
  unfold StoreTables.insertEpisode
  split <;> exact ⟨rfl, rfl, rfl⟩

theorem onceMemory_episode
    (hfresh : ∀ e ∈ before.episodes, e.id ≠ o.episodeId ∧ e.runId ≠ o.runId)
    {log' : List TrajectoryEvent} (hlog : log <+: log') (h : OnceMemory cfg o log before m) :
    OnceMemory cfg o log before
      (m.insertEpisode cfg.memory (o.episode (buildView log'))) := by
  obtain ⟨hfacts, hfts, hoperations⟩ :=
    insertEpisode_facts cfg.memory m (o.episode (buildView log'))
  refine ⟨storedEpisodes_insert hfresh hlog h.episodes, ?_, fun hnone => ?_⟩
  · unfold CommittedFacts
    rw [hfacts, hfts]
    exact h.facts
  · rw [hfacts, hfts]
    exact h.uncommitted (by rwa [hoperations] at hnone)

/-- An operation recorded beside the commit. -/
theorem onceMemory_record {key : String} {result : MemoryOperation}
    (h : OnceMemory cfg o log before m) : OnceMemory cfg o log before (m.record key result) := by
  refine ⟨h.episodes, h.facts, fun hnone => h.uncommitted ?_⟩
  have hnone : Function.update m.operations key (some ((m.operations key).getD result))
      (commitKey o.runId) = none := hnone
  by_cases hkey : commitKey o.runId = key
  · rw [hkey, Function.update_self] at hnone
    cases hnone
  · rwa [Function.update_of_ne hkey] at hnone

/-- The facts after a commit depend on the facts before it alone. -/
theorem putFact_congr {m' : StoreTables} (hfacts : m.longTerm = m'.longTerm)
    (hfts : m.longTermFts = m'.longTermFts) (memory : LongTermMemory) (now : Nat) :
    (m.putFact memory now).2.longTerm = (m'.putFact memory now).2.longTerm ∧
      (m.putFact memory now).2.longTermFts = (m'.putFact memory now).2.longTermFts := by
  unfold StoreTables.putFact
  rw [hfacts, hfts]
  cases m'.longTerm memory.id with
  | none => exact ⟨rfl, rfl⟩
  | some current => exact ⟨rfl, rfl⟩

theorem putFact_episodes (m : StoreTables) (memory : LongTermMemory) (now : Nat) :
    (m.putFact memory now).2.episodes = m.episodes ∧
      (m.putFact memory now).2.episodesFts = m.episodesFts := by
  unfold StoreTables.putFact
  cases m.longTerm memory.id <;> exact ⟨rfl, rfl⟩

theorem onceMemory_fact {memory : LongTermMemory} (hfact : FactOf cfg.memory o memory) (now : Nat)
    {result : MemoryOperation} (hnone : m.operations (commitKey o.runId) = none)
    (h : OnceMemory cfg o log before m) :
    OnceMemory cfg o log before
      ((m.putFact memory now).2.record (commitKey o.runId) result) := by
  obtain ⟨hfacts, hfts⟩ := h.uncommitted hnone
  obtain ⟨hput, hputFts⟩ := putFact_congr hfacts hfts memory now
  obtain ⟨hepisodes, hepisodesFts⟩ := putFact_episodes m memory now
  refine ⟨?_, Or.inr ⟨memory, now, hfact, hput, hputFts⟩, fun hcommitted => ?_⟩
  · exact storedEpisodes_congr hepisodes hepisodesFts h.episodes
  · have hsome : Function.update (m.putFact memory now).2.operations (commitKey o.runId) (some
        (((m.putFact memory now).2.operations (commitKey o.runId)).getD result))
        (commitKey o.runId) = none := hcommitted
    rw [Function.update_self] at hsome
    cases hsome

/-! ## Uses -/

theorem countedUses_use {before after : SkillStats} {success patched : Bool} {now : Nat}
    (h : CountedUses 0 success before after) :
    CountedUses 1 success before (after.use success patched now) := by
  obtain ⟨htotal, hsuccesses, hfailures⟩ := h
  unfold SkillStats.use
  cases success with
  | true =>
    simp only [if_true, Nat.add_zero] at hsuccesses hfailures htotal
    exact ⟨by simp [htotal], by simp [hsuccesses], by simp [hfailures]⟩
  | false =>
    simp only [Bool.false_eq_true, if_false, Nat.add_zero] at hsuccesses hfailures htotal
    exact ⟨by simp [htotal], by simp [hsuccesses], by simp [hfailures]⟩

theorem use_addsUp {stats : SkillStats}
    (h : stats.useCount = stats.successCount + stats.failureCount)
    (success patched : Bool) (now : Nat) :
    (stats.use success patched now).useCount =
      (stats.use success patched now).successCount +
        (stats.use success patched now).failureCount := by
  unfold SkillStats.use
  cases success <;> simp <;> omega

/-! ## Installing -/

variable {view : TrajectoryView} {r : Registry} {d : SkillLearningDecision} {skillId : String}

theorem useKey_ne_installKey (runId runId' skillId : String) :
    useKey runId skillId ≠ installKey runId' := by
  rw [useKey_eq]
  intro h
  exact absurd (operationKey_injective (by decide) (by decide) h).1 (by decide)

theorem operations_upsert {db : SkillDatabase} {manifest : SkillManifest} {path key runId : String}
    {candidate : SkillCandidate} {now : Nat} (h : key ≠ installKey runId) :
    (db.upsert manifest path candidate (some (installKey runId)) now).operations key =
      db.operations key := by
  unfold SkillDatabase.upsert
  simp only [installKey, givenKey_operationKey]
  exact Function.update_of_ne h _ _

/-- Installing a package leaves the counts of its skill. -/
theorem stats_upsert {db : SkillDatabase} {manifest : SkillManifest} {path : String}
    {candidate : SkillCandidate} {operationKey : Option String} {now : Nat} {id : String}
    {stats : SkillStats} (h : db.stats id = some stats) :
    ∃ stats', (db.upsert manifest path candidate operationKey now).stats id = some stats' ∧
      stats'.useCount = stats.useCount ∧ stats'.successCount = stats.successCount ∧
      stats'.failureCount = stats.failureCount := by
  unfold SkillDatabase.upsert
  by_cases hid : id = manifest.skillId
  · subst hid
    simp only [Function.update_self, h]
    exact ⟨_, rfl, rfl, rfl, rfl⟩
  · simp only [Function.update_of_ne hid]
    exact ⟨stats, h, rfl, rfl, rfl⟩

theorem addUp_upsert {t : Registry} {manifest : SkillManifest} {path : String}
    {candidate : SkillCandidate} {operationKey : Option String} {now : Nat} (h : UsesAddUp t) :
    UsesAddUp { t with db := t.db.upsert manifest path candidate operationKey now } := by
  intro id stats hstats
  change (t.db.upsert manifest path candidate operationKey now).stats id = some stats at hstats
  unfold SkillDatabase.upsert at hstats
  dsimp only at hstats
  by_cases hid : id = manifest.skillId
  · subst hid
    rw [Function.update_self] at hstats
    cases hbefore : t.db.stats manifest.skillId with
    | none =>
      rw [hbefore] at hstats
      cases hstats
      rfl
    | some before =>
      rw [hbefore] at hstats
      cases hstats
      exact h _ before hbefore
  · rw [Function.update_of_ne hid] at hstats
    exact h id stats hstats

/-- The registry fits, and this decision is the recorded one. -/
def Deciding (cfg : OutcomeConfig) (o : RunOutcome) (view : TrajectoryView) (r : Registry)
    (d : SkillLearningDecision) (t : Registry) : Prop :=
  OnceRegistry cfg o view r t ∧ t.db.operations (decisionKey o.runId) = some (.decision d)

theorem skillChanged_put {t : Registry} {place : Place} {package : Option Package}
    {id : String} (hplace : place.Concerns skillId) (hne : id ≠ skillId)
    (h : SkillChanged r (t.put place package) id) : SkillChanged r t id := by
  rcases h with ⟨other, howner, hchange⟩ | hrow
  · refine Or.inl ⟨other, howner, fun heq => hchange ?_⟩
    refine (dirs_put_of_ne _ _ ?_).trans heq
    rintro rfl
    cases other with
    | staging name => cases howner
    | _ =>
      cases howner
      exact hne hplace
  · exact Or.inr hrow

theorem updateKeeps_once (hinstalls : d.installs cfg = some skillId) :
    UpdateKeeps (Deciding cfg o view r d) skillId (some (installKey o.runId)) where
  put t place package hplace ht := by
    obtain ⟨hone, hrecorded⟩ := ht
    refine ⟨⟨hone.decision, fun id hchange => ?_, hone.rows, hone.uses, hone.addUp,
      hone.lessons⟩, hrecorded⟩
    by_cases hid : id = skillId
    · exact hid ▸ ⟨d, hrecorded, hinstalls⟩
    · exact hone.mined id (skillChanged_put hplace hid hchange)
  upsert t manifest path candidate now hmanifest ht := by
    obtain ⟨hone, hrecorded⟩ := ht
    have hkept : (t.db.upsert manifest path candidate (some (installKey o.runId)) now).operations
        (decisionKey o.runId) = t.db.operations (decisionKey o.runId) :=
      operations_upsert (decisionKey_ne_installKey _ _)
    have hother : ∀ id, id ≠ skillId →
        (t.db.upsert manifest path candidate (some (installKey o.runId)) now).skills id =
          t.db.skills id := by
      intro id hid
      exact Function.update_of_ne (by rw [hmanifest]; exact hid) _ _
    refine ⟨⟨fun e he => hone.decision e (hkept.symm.trans he), fun id hchange => ?_,
      fun id hsome => ?_, fun id stats hstats => ?_, addUp_upsert hone.addUp, hone.lessons⟩,
      hkept.trans hrecorded⟩
    · by_cases hid : id = skillId
      · exact hid ▸ ⟨d, hkept.trans hrecorded, hinstalls⟩
      · obtain ⟨e, he, hplace⟩ := hone.mined id (hchange.imp_right fun hrow heq =>
          hrow ((hother id hid).trans heq))
        exact ⟨e, hkept.trans he, hplace⟩
    · by_cases hid : id = skillId
      · subst hid
        change (Function.update t.db.skills manifest.skillId _ id).isSome
        rw [hmanifest, Function.update_self]
        rfl
      · rw [hother id hid]
        exact hone.rows id hsome
    · obtain ⟨before, hbefore, hcounted⟩ := hone.uses id stats hstats
      obtain ⟨after, hafter, htotal, hsuccesses, hfailures⟩ := @stats_upsert t.db manifest path
        candidate (some (installKey o.runId)) now id before hbefore
      refine ⟨after, hafter, ?_⟩
      rw [operations_upsert (useKey_ne_installKey _ _ _)]
      exact ⟨htotal.trans hcounted.total, hsuccesses.trans hcounted.successes,
        hfailures.trans hcounted.failures⟩

/-- A skill is created only when none was used, so that no lesson is touched. -/
theorem createKeeps_once (hinstalls : d.installs cfg = some skillId)
    (hunused : view.skillsUsed = []) :
    CreateKeeps (Deciding cfg o view r d) skillId (some (installKey o.runId)) where
  toUpdateKeeps := updateKeeps_once hinstalls
  root t roots ht :=
    ⟨⟨ht.1.decision, ht.1.mined, ht.1.rows, ht.1.uses, ht.1.addUp, ht.1.lessons⟩, ht.2⟩
  memory t text _ ht := by
    refine ⟨⟨ht.1.decision, ht.1.mined, ht.1.rows, ht.1.uses, ht.1.addUp, fun id hid => ?_⟩, ht.2⟩
    rw [hunused] at hid
    cases hid
  removeRoot t ht := by
    refine ⟨⟨ht.1.decision, fun id hchange => ?_, ht.1.rows, ht.1.uses, ht.1.addUp,
      fun id hid => ?_⟩, ht.2⟩
    · by_cases hid : id = skillId
      · rw [hid]
        exact ⟨d, ht.2, hinstalls⟩
      · refine ht.1.mined id (hchange.imp_left fun ⟨place, howner, hne⟩ =>
          ⟨place, howner, fun heq => hne (Eq.trans ?_ heq)⟩)
        cases place with
        | staging name => cases howner
        | _ =>
          cases howner
          exact if_neg hid
    · rw [hunused] at hid
      cases hid

/-! ## Single effects of an execution -/

theorem updateStats_self {db : SkillDatabase} {id : String} {f : SkillStats → SkillStats}
    {stats : SkillStats} (h : db.stats id = some stats) :
    (db.updateStats id f).stats id = some (f stats) := by
  unfold SkillDatabase.updateStats
  simp only [Function.update_self, h, Option.map_some]

theorem updateStats_of_ne {db : SkillDatabase} {id other : String} {f : SkillStats → SkillStats}
    (h : other ≠ id) : (db.updateStats id f).stats other = db.stats other :=
  Function.update_of_ne h _ _

theorem useKey_injective {runId id id' : String} (h : useKey runId id = useKey runId id') :
    id = id' := by
  have hlist := congrArg String.toList h
  simp only [useKey, String.toList_append] at hlist
  exact String.ext (List.append_cancel_left hlist)

theorem record_self (db : SkillDatabase) (key : String) (result : OperationResult) :
    ((db.record key result).operations key).isSome := by
  unfold SkillDatabase.record
  simp

theorem onceRegistry_use {patched : Bool} {now : Nat} {t : Registry}
    (hnone : t.db.operations (useKey o.runId skillId) = none) (h : OnceRegistry cfg o view r t) :
    OnceRegistry cfg o view r { t with
      db := (t.db.updateStats skillId fun stats =>
        stats.use (o.attributed view skillId) patched now).record (useKey o.runId skillId)
          .recorded } := by
  have hdecision : ∀ db : SkillDatabase, (db.record (useKey o.runId skillId) .recorded).operations
      (decisionKey o.runId) = db.operations (decisionKey o.runId) :=
    fun db => record_ne (decisionKey_ne_useKey _ _ _)
  refine ⟨fun e he => h.decision e ((hdecision _).symm.trans he), fun id hchange => ?_, h.rows,
    fun id stats hstats => ?_, fun id stats hstats => ?_, h.lessons⟩
  · obtain ⟨e, he, hplace⟩ := h.mined id hchange
    exact ⟨e, (hdecision _).trans he, hplace⟩
  · obtain ⟨before, hbefore, hcounted⟩ := h.uses id stats hstats
    by_cases hid : id = skillId
    · subst hid
      refine ⟨_, updateStats_self hbefore, ?_⟩
      rw [hnone] at hcounted
      rw [show (SkillDatabase.operations _ (useKey o.runId id)).isSome = true from
        record_self _ _ _]
      exact countedUses_use hcounted
    · refine ⟨before, (updateStats_of_ne hid).trans hbefore, ?_⟩
      rw [record_ne fun hkey => hid (useKey_injective hkey)]
      exact hcounted
  · by_cases hid : id = skillId
    · subst hid
      have hstats : (t.db.updateStats id fun stats =>
        stats.use (o.attributed view id) patched now).stats id = some stats := hstats
      cases hbefore : t.db.stats id with
      | none => simp [SkillDatabase.updateStats, hbefore] at hstats
      | some before =>
        rw [updateStats_self hbefore] at hstats
        cases hstats
        exact use_addsUp (h.addUp id before hbefore) _ _ _
    · exact h.addUp id stats ((updateStats_of_ne hid).symm.trans hstats)

theorem onceRegistry_decision {t : Registry} (hconstrained : d.Constrained view.skillsUsed)
    (hnone : t.db.operations (decisionKey o.runId) = none) (h : OnceRegistry cfg o view r t) :
    OnceRegistry cfg o view r { t with
      db := t.db.record (decisionKey o.runId) (.decision d) } := by
  refine ⟨fun e he => ?_, fun id hchange => ?_, h.rows, fun id stats hstats => ?_, h.addUp,
    h.lessons⟩
  · have he : Function.update t.db.operations (decisionKey o.runId) (some
        ((t.db.operations (decisionKey o.runId)).getD (.decision d))) (decisionKey o.runId) =
          some (.decision e) := he
    rw [Function.update_self, hnone] at he
    cases he
    exact hconstrained
  · obtain ⟨e, he, -⟩ := h.mined id hchange
    rw [hnone] at he
    cases he
  · rw [record_ne fun hkey => decisionKey_ne_useKey _ _ _ hkey.symm]
    exact h.uses id stats hstats

/-- The entry of a run carries its marker. -/
theorem remember_contains (t : Registry) (skillId : String) (entry : SkillMemoryEntry)
    (hreturn : '\r' ∉ (memoryMarker entry.runId skillId).toList) :
    Contains (readMemoryText (((t.remember skillId entry).memory skillId).getD ""))
      (memoryMarker entry.runId skillId) := by
  unfold Registry.remember Contains readMemoryText
  simp only [Function.update_self, Option.getD_some, String.toList_append, String.toList_ofList]
  unfold formatSkillMemoryBlock
  simp only [String.toList_append, List.append_assoc]
  -- the marker starts with no newline, so that nothing before it reaches into it
  obtain ⟨rest, hmarker⟩ : ∃ rest, (memoryMarker entry.runId skillId).toList = '<' :: rest :=
    ⟨_, memoryMarker_toList _ _⟩
  have hshown : ∀ before after : List Char, (memoryMarker entry.runId skillId).toList <:+:
      universalNewlines (before ++ ((memoryMarker entry.runId skillId).toList ++ after)) := by
    intro before after
    rw [hmarker] at hreturn ⊢
    rw [List.cons_append, universalNewlines_append (by decide), ← List.cons_append,
      universalNewlines_plain hreturn]
    exact ⟨universalNewlines before, universalNewlines after, List.append_assoc _ _ _⟩
  rw [← List.append_assoc]
  exact hshown _ _

theorem onceRegistry_lesson {t : Registry} {entry : SkillMemoryEntry}
    (hrun : entry.runId = o.runId) (houtcome : entry.outcome = o.outcomeText view skillId)
    (hreturn : '\r' ∉ (memoryMarker o.runId skillId).toList)
    (hmarker : ¬ Contains (readMemoryText ((t.memory skillId).getD ""))
      (memoryMarker o.runId skillId))
    (h : OnceRegistry cfg o view r t) :
    OnceRegistry cfg o view r (t.remember skillId entry) := by
  refine ⟨h.decision, h.mined, h.rows, h.uses, h.addUp, fun id hid => ?_⟩
  by_cases hsame : id = skillId
  · subst hsame
    rcases h.lessons id hid with hmemory | ⟨earlier, hearlier, -, hmemory⟩
    · refine Or.inr ⟨entry, hrun, houtcome, ?_⟩
      unfold Registry.remember
      simp only [Function.update_self, hmemory]
    · -- the entry of an earlier execution is there
      rw [hmemory, ← hearlier] at hmarker
      rw [← hearlier] at hreturn
      exact absurd (remember_contains _ _ _ hreturn) hmarker
  · have hother : (t.remember skillId entry).memory id = t.memory id :=
      Function.update_of_ne hsame _ _
    unfold WrittenLesson
    rw [hother]
    exact h.lessons id hid

theorem attributed_congr {view' : TrajectoryView}
    (h : view'.skillUseTraces.Perm view.skillUseTraces) (skillId : String) :
    o.attributed view' skillId = o.attributed view skillId := by
  unfold RunOutcome.attributed
  rw [explicitFailure_congr h]

/-- The ids by which memory.md knows the run have no carriage return. -/
structure PlainIds (o : RunOutcome) (view : TrajectoryView) : Prop where
  run : '\r' ∉ o.runId.toList
  skill : ∀ skillId ∈ view.skillsUsed, '\r' ∉ skillId.toList

theorem PlainIds.marker (h : PlainIds o view) (hused : skillId ∈ view.skillsUsed) :
    '\r' ∉ (memoryMarker o.runId skillId).toList := by
  have hstart : '\r' ∉ memoryStart := by decide +kernel
  have hclose : '\r' ∉ " -->".toList := by decide
  rw [memoryMarker_toList]
  simp only [List.mem_append, not_or]
  exact ⟨hstart, h.run, by decide, h.skill _ hused, hclose⟩

theorem prefix_recordEvent (log : List TrajectoryEvent) (event : TrajectoryEvent) :
    log <+: recordEvent log event := by
  unfold recordEvent Journal.record
  split
  · exact List.prefix_rfl
  · exact List.prefix_append _ _

/-- Every effect of an execution keeps what the executions have in common. -/
theorem outcomeKeeps_once (hfresh : FreshRun o s) (hplain : PlainIds o (buildView s.log))
    {a : MemoryAnswers} (hindex : a.fault .episodeFts = none) {log : List TrajectoryEvent}
    (hlog : s.log <+: log)
    (hview : (buildView log).skillUseTraces.Perm (buildView s.log).skillUseTraces) :
    OutcomeKeeps (OnceFrom cfg o s) cfg a o (buildView log) where
  event t event htraces ht := ⟨ht.log.trans (prefix_recordEvent _ _),
    (recordEvent_traces htraces).trans ht.traces, ht.memory, ht.registry⟩
  leftOpen t ht :=
    ⟨ht.log, ht.traces, ⟨ht.memory.committed, ht.memory.current⟩, ht.registry⟩
  rolledBack t ht :=
    ⟨ht.log, ht.traces, ⟨ht.memory.committed, ht.memory.committed⟩, ht.registry⟩
  episode t m e _ _ he hm ht := by
    subst he
    exact ⟨ht.log, ht.traces, onceStore_shows ht.memory hm
      (onceMemory_episode hfresh.episode hlog ht.memory.current), ht.registry⟩
  unindexed t e raised hraised _ _ _ := by
    rw [hindex] at hraised
    cases hraised
  proposal t m candidate hm ht := ⟨ht.log, ht.traces,
    onceStore_shows ht.memory hm (onceMemory_record ht.memory.current), ht.registry⟩
  noFact t m _ hm ht := ⟨ht.log, ht.traces,
    onceStore_shows ht.memory hm (onceMemory_record ht.memory.current), ht.registry⟩
  fact t memory now _ hfact hnone ht :=
    have hcommitted := onceMemory_fact hfact now hnone ht.memory.committed
    ⟨ht.log, ht.traces, ⟨hcommitted, hcommitted⟩, ht.registry⟩
  use t skillId now _ _ _ hnone ht := by
    refine ⟨ht.log, ht.traces, ht.memory, ?_⟩
    rw [attributed_congr hview]
    exact onceRegistry_use hnone ht.registry
  decision t d _ hconstrained hnone ht := by
    rw [skillsUsed_congr hview] at hconstrained
    exact ⟨ht.log, ht.traces, ht.memory, onceRegistry_decision hconstrained hnone ht.registry⟩
  update t d target _ _ _ haction htarget hrecorded _ ht := by
    refine ⟨Deciding cfg o (buildView s.log) s.registry d, updateKeeps_once ?_,
      ⟨ht.registry, hrecorded⟩, fun r hr => ⟨ht.log, ht.traces, ht.memory, hr.1⟩⟩
    unfold SkillLearningDecision.installs
    rw [haction, htarget]
  create t d candidate id _ _ _ haction hcandidate hrecorded hid _ ht := by
    refine ⟨Deciding cfg o (buildView s.log) s.registry d, createKeeps_once ?_
      ((ht.registry.decision d hrecorded).fresh haction), ⟨ht.registry, hrecorded⟩,
      fun r hr => ⟨ht.log, ht.traces, ht.memory, hr.1⟩⟩
    unfold SkillLearningDecision.installs
    rw [haction, hcandidate]
    simp only [hid]
    rfl
  lesson t skillId entry _ hused hrun houtcome _ hmarker ht := by
    rw [skillsUsed_congr hview] at hused
    refine ⟨ht.log, ht.traces, ht.memory,
      onceRegistry_lesson hrun ?_ (hplain.marker hused) hmarker ht.registry⟩
    rw [houtcome]
    unfold RunOutcome.outcomeText
    rw [attributed_congr hview]

/-- An execution of the run in which the index takes the row of the episode. -/
structure OutcomeExecution.Of (o : RunOutcome) (x : OutcomeExecution) : Prop where
  outcome : x.outcome = o
  indexed : x.env.memory.fault .episodeFts = none

theorem execution_once (hfresh : FreshRun o s) (hplain : PlainIds o (buildView s.log))
    {x : OutcomeExecution} (hx : x.Of o) (ht : OnceFrom cfg o s t) :
    OnceFrom cfg o s (x.step cfg t) := by
  obtain ⟨rfl, hindex⟩ := hx
  refine execution_leaves (outcomeKeeps_once hfresh hplain hindex ?_ ?_) ht
  · exact ht.log.trans (prefix_recordEvent _ _)
  · exact (recordEvent_traces (terminal_traces _ _ _)).trans ht.traces

theorem executions_once (hfresh : FreshRun o s) (hplain : PlainIds o (buildView s.log))
    (xs : List OutcomeExecution) (hsame : ∀ x ∈ xs, x.Of o) (ht : OnceFrom cfg o s t) :
    OnceFrom cfg o s (Run.run (OutcomeExecution.step cfg) t xs) := by
  induction xs generalizing t with
  | nil => exact ht
  | cons x xs ih =>
    rw [Run.run_cons]
    exact ih (fun y hy => hsame y (List.mem_cons_of_mem _ hy))
      (execution_once hfresh hplain (hsame x List.mem_cons_self) ht)

end

end EvoCI
