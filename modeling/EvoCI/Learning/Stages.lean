import Mathlib.Data.String.Basic
import EvoCI.Capability.Frame
import EvoCI.Learning.Outcome

/-! What one execution of `persist_run_outcome` can do to the stores, stage by stage: a
predicate that survives each kind of effect holds at every crash point. -/

namespace EvoCI

open Library

/-! ## Single effects -/

def LearningStores.logged (s : LearningStores) (event : TrajectoryEvent) : LearningStores :=
  { s with log := recordEvent s.log event }

/-- The registry's rows changed. -/
def LearningStores.withDb (db : SkillDatabase) (s : LearningStores) : LearningStores :=
  { s with registry := { s.registry with db } }

/-- An entry appended to the usage memory of a skill. -/
def Registry.remember (r : Registry) (skillId : String) (entry : SkillMemoryEntry) : Registry :=
  let text := (r.memory skillId).getD ""
  { r with
    memory := Function.update r.memory skillId
      (some (text ++ memoryGap (readMemoryText text) ++ formatSkillMemoryBlock skillId entry)) }

/-- These rows are committed, or the transaction stays open on them. -/
def MemoryStore.Shows (m m' : MemoryStore) (rows : StoreTables) : Prop :=
  m' = ⟨rows, none⟩ ∨ m' = m.leftOpen rows

/-- The fact that is stored for a candidate. -/
def FactOf (cfg : MemoryConfig) (o : RunOutcome) (memory : LongTermMemory) : Prop :=
  ∃ (candidate : LongTermFactCandidate) (content : String), candidate.fact? cfg = some content ∧
    memory.id = factMemoryId cfg o.repo content ∧ memory.repository = o.repo ∧
    memory.content = strip content ∧ memory.confidence = candidate.confidence ∧
    memory.sourceRunIds = [o.runId]

/-- The outcome of an entry is the one attributed to the skill. -/
def RunOutcome.outcomeText (o : RunOutcome) (view : TrajectoryView) (skillId : String) : String :=
  if o.attributed view skillId then "success" else "failure"

def decisionKey (runId : String) : String := operationKey "learning-decision" runId

def installKey (runId : String) : String := operationKey "learning-skill" runId

def proposalKey (runId : String) : String := operationKey "memory-decision" runId

def commitKey (runId : String) : String := operationKey "memory-commit" runId

/-- The decision is one that `_constrain` lets through. -/
structure SkillLearningDecision.Constrained (d : SkillLearningDecision) (used : List String) :
    Prop where
  valid : d.Valid
  target : d.action = .updateSkill → ∀ target, d.targetSkillId = some target → target ∈ used
  fresh : d.action = .newSkill → used = []
  lessons : ∀ lesson ∈ d.usageLessons, lesson.skillId ∈ used

/-- The predicate survives each kind of effect of an execution, with what the code knows when
it comes to it. -/
structure OutcomeKeeps (P : LearningStores → Prop) (cfg : OutcomeConfig) (a : MemoryAnswers)
    (o : RunOutcome) (view : TrajectoryView) : Prop where
  event : ∀ s event, event.skillUseTraces = [] → P s → P (s.logged event)
  leftOpen : ∀ s, P s → P (s.withMemory (s.memory.leftOpen s.memory.current))
  rolledBack : ∀ s, P s → P (s.withMemory s.memory.rolledBack)
  episode : ∀ s m (e : Episode), cfg.memoryStore = true →
    shouldPersistEpisode o.success o.resolvedClass o.state = true → e = o.episode view →
    s.memory.Shows m (s.memory.current.insertEpisode cfg.memory e) → P s → P (s.withMemory m)
  /-- The index refuses its row. -/
  unindexed : ∀ s (e : Episode) raised, a.fault .episodeFts = some raised → e = o.episode view →
    ¬ s.memory.current.Has e → P s →
    P (s.withMemory (s.memory.leftOpen (s.memory.current.addRow e)))
  proposal : ∀ s m candidate,
    s.memory.Shows m (s.memory.current.record (proposalKey o.runId) (.proposed candidate)) →
    P s → P (s.withMemory m)
  noFact : ∀ s m, o.success = true →
    s.memory.Shows m (s.memory.current.record (commitKey o.runId) (.committed none false)) →
    P s → P (s.withMemory m)
  fact : ∀ s (memory : LongTermMemory) now, o.success = true → FactOf cfg.memory o memory →
    s.memory.committed.operations (commitKey o.runId) = none → P s →
    P (s.withMemory ⟨(s.memory.committed.putFact memory now).2.record (commitKey o.runId)
      (.committed (some memory.id) (s.memory.committed.putFact memory now).1), none⟩)
  use : ∀ s skillId now, o.ungraded = false → skillId ∈ view.skillsUsed →
    (s.registry.db.skills skillId).isSome →
    s.registry.db.operations (useKey o.runId skillId) = none → P s →
    P (s.withDb ((s.registry.db.updateStats skillId fun stats =>
      stats.use (o.attributed view skillId) view.patched now).record (useKey o.runId skillId)
        .recorded))
  decision : ∀ s d, o.ungraded = false → d.Constrained view.skillsUsed →
    s.registry.db.operations (decisionKey o.runId) = none → P s →
    P (s.withDb (s.registry.db.record (decisionKey o.runId) (.decision d)))
  update : ∀ s d target, o.success = true → o.ungraded = false → d.Valid →
    d.action = .updateSkill → d.targetSkillId = some target →
    s.registry.db.operations (decisionKey o.runId) = some (.decision d) →
    (s.registry.get target).isSome → P s →
    ∃ Q, UpdateKeeps Q target (some (installKey o.runId)) ∧ Q s.registry ∧
      ∀ r, Q r → P (s.withRegistry r)
  create : ∀ s d candidate id, o.success = true → o.ungraded = false → d.Valid →
    d.action = .newSkill → d.candidateSkill = some candidate →
    s.registry.db.operations (decisionKey o.runId) = some (.decision d) →
    slug cfg.registry candidate.name = .ok id → s.registry.get id = none → P s →
    ∃ Q, CreateKeeps Q id (some (installKey o.runId)) ∧ Q s.registry ∧
      ∀ r, Q r → P (s.withRegistry r)
  lesson : ∀ s skillId (entry : SkillMemoryEntry),
    writesLessons cfg o view.skillsUsed = true → skillId ∈ view.skillsUsed →
    entry.runId = o.runId → entry.outcome = o.outcomeText view skillId →
    (s.registry.dirs (.package skillId)).isSome →
    ¬ Contains (readMemoryText ((s.registry.memory skillId).getD ""))
      (memoryMarker o.runId skillId) → P s →
    P (s.withRegistry (s.registry.remember skillId entry))

/-! ## Keys -/

theorem operationKey_injective {keyType keyType' runId runId' : String}
    (hplain : ':' ∉ keyType.toList) (hplain' : ':' ∉ keyType'.toList)
    (h : operationKey keyType runId = operationKey keyType' runId') :
    keyType = keyType' ∧ runId = runId' := by
  have hlist := congrArg String.toList h
  simp only [operationKey, String.toList_append, List.append_assoc] at hlist
  obtain ⟨htype, hrun⟩ := append_colon_injective hplain hplain' hlist
  exact ⟨String.ext htype, String.ext hrun⟩

theorem useKey_eq (runId skillId : String) :
    useKey runId skillId = operationKey "skill-use" (runId ++ ":" ++ skillId) := by
  have hsplit : "skill-use:" = "skill-use" ++ ":" := rfl
  refine String.ext ?_
  change ("skill-use:" ++ runId ++ ":" ++ skillId).toList =
    ("skill-use" ++ ":" ++ (runId ++ ":" ++ skillId)).toList
  rw [hsplit]
  simp only [String.toList_append, List.append_assoc]

theorem operationKey_ne_empty (keyType runId : String) : operationKey keyType runId ≠ "" := by
  intro hempty
  have hlist := congrArg String.toList hempty
  simp only [operationKey, String.toList_append] at hlist
  simp at hlist
  exact absurd hlist.2.1 (by decide)

theorem givenKey_operationKey (keyType runId : String) :
    givenKey (some (operationKey keyType runId)) = some (operationKey keyType runId) := by
  simp [givenKey, operationKey_ne_empty]

theorem givenKey_useKey (runId skillId : String) :
    givenKey (some (useKey runId skillId)) = some (useKey runId skillId) := by
  rw [useKey_eq, givenKey_operationKey]

theorem decisionKey_ne_useKey (runId runId' skillId : String) :
    decisionKey runId ≠ useKey runId' skillId := by
  rw [useKey_eq]
  intro h
  exact absurd (operationKey_injective (by decide) (by decide) h).1 (by decide)

theorem decisionKey_ne_installKey (runId runId' : String) :
    decisionKey runId ≠ installKey runId' := by
  intro h
  exact absurd (operationKey_injective (by decide) (by decide) h).1 (by decide)

/-! ## Decisions -/

theorem constrain_constrained {d : SkillLearningDecision} (hvalid : d.Valid) (success : Bool)
    (used : List String) : (d.constrain success used).Constrained used := by
  have hlessons : ∀ lesson ∈ d.usageLessons.filter fun lesson => lesson.skillId ∈ used,
      lesson.skillId ∈ used := by
    intro lesson hlesson
    simpa using (List.mem_filter.mp hlesson).2
  have hdropped : ∀ e : SkillLearningDecision, e.usageLessons =
      d.usageLessons.filter (fun lesson => lesson.skillId ∈ used) →
      e.dropped.Constrained used := by
    intro e he
    refine ⟨rfl, fun h => (by cases h), fun h => (by cases h), ?_⟩
    change ∀ lesson ∈ e.usageLessons, lesson.skillId ∈ used
    rw [he]
    exact hlessons
  unfold SkillLearningDecision.constrain
  simp only
  split
  · exact hdropped _ rfl
  · split
    · split
      next hupdate =>
        obtain ⟨haction, target, htarget, hused⟩ := hupdate
        refine ⟨hvalid, fun _ other hother => ?_, fun hnew => ?_, hlessons⟩
        · have hsame : target = other := Option.some.inj (htarget.symm.trans hother)
          exact hsame ▸ hused
        · have hnew : d.action = .newSkill := hnew
          rw [haction] at hnew
          cases hnew
      next => exact hdropped _ rfl
    next hused =>
      split
      · exact hdropped _ rfl
      next haction =>
        refine ⟨hvalid, fun hupdate => absurd (Or.inl hupdate) haction, fun _ => ?_, hlessons⟩
        exact not_not.mp hused

theorem constrained_none (rationale : String) (used : List String) :
    (SkillLearningDecision.Constrained { action := .none, rationale } used) :=
  ⟨rfl, fun h => (by cases h), fun h => (by cases h), fun _ h => (by cases h)⟩

theorem validated_ok {d e : SkillLearningDecision} (h : d.validated = .ok e) : e = d ∧ d.Valid := by
  unfold SkillLearningDecision.validated at h
  split at h
  next hvalid =>
    cases h
    exact ⟨rfl, hvalid⟩
  next => cases h

/-- Every decision that `decide` returns is constrained by the used skills. -/
theorem decideSkill_constrained {env : OutcomeEnv} {success : Bool} {view : TrajectoryView}
    {lower : String → String} {used : List String} {d : SkillLearningDecision}
    (h : decideSkill env success view lower used = .ok d) : d.Constrained used := by
  have hvalid : ∀ {answer : Except Raised SkillLearningDecision} {e : SkillLearningDecision},
      answer.bind SkillLearningDecision.validated = .ok e → e.Valid := by
    intro answer e hanswer
    cases answer with
    | error _ => cases hanswer
    | ok d =>
      obtain ⟨rfl, hd⟩ := validated_ok hanswer
      exact hd
  unfold decideSkill at h
  split at h
  · cases h
    exact constrained_none _ _
  · split at h
    next e hanswer =>
      cases h
      exact constrain_constrained (hvalid hanswer) _ _
    next =>
      split at h
      next e hanswer =>
        cases h
        exact constrain_constrained (hvalid hanswer) _ _
      next => cases h

/-! ## Stages -/

section

variable {P : LearningStores → Prop} {cfg : OutcomeConfig} {o : RunOutcome}
  {view : TrajectoryView} {env : OutcomeEnv}

theorem keeps_emit (h : OutcomeKeeps P cfg env.memory o view) {payload : TrajectoryPayload}
    (hpayload : ∀ skillIds kind resource success,
      payload ≠ .skillUsed skillIds kind resource success)
    (discriminator : String) (agentId : Option String) (scope : BudgetScope) :
    Durable.Keeps P (env.emit o payload discriminator agentId scope) := by
  refine Durable.keeps_effect fun s u t hrun hs => ?_
  cases hrun
  refine h.event s _ ?_ hs
  unfold TrajectoryEvent.skillUseTraces
  split
  next skillIds kind resource success hsame => exact absurd hsame (hpayload _ _ _ _)
  next => rfl

theorem keeps_learningError (h : OutcomeKeeps P cfg env.memory o view)
    (l : Learned) (stage : String)
    (e : Raised) : Durable.Keeps P (learningError env o l stage e) :=
  Durable.keeps_bind (keeps_emit h (by simp) _ _ _) fun _ => Durable.keeps_pure _

/-- What a call leaves that ends with a commit. -/
theorem commit_shows {α : Type} (m : MemoryStore) (a : MemoryAnswers) (step : MemoryStep)
    (rows : StoreTables) (result : α) : m.Shows (m.commit a step rows result).2 rows := by
  unfold MemoryStore.commit
  split
  · exact Or.inr rfl
  · exact Or.inl rfl

theorem insertEpisode_has {memoryConfig : MemoryConfig} {rows : StoreTables} {e : Episode}
    (h : rows.Has e) : rows.insertEpisode memoryConfig e = rows := by
  unfold StoreTables.insertEpisode
  rw [if_pos h]

theorem stays_addEpisode (h : OutcomeKeeps P cfg env.memory o view)
    (hstore : cfg.memoryStore = true)
    (hgate : shouldPersistEpisode o.success o.resolvedClass o.state = true)
    {s : LearningStores} (hs : P s) :
    Durable.Stays (fun m => P (s.withMemory m))
      (addEpisode cfg.memory env.memory (o.episode view)) s.memory := by
  refine Durable.stays_statement ?_
  dsimp only
  split
  · exact h.leftOpen s hs
  · split
    next hhas =>
      refine h.episode s _ _ hstore hgate rfl ?_ hs
      rw [insertEpisode_has hhas]
      exact commit_shows _ _ _ _ _
    next hfree =>
      split
      next raised hraised => exact h.unindexed s _ raised hraised rfl hfree hs
      · exact h.episode s _ _ hstore hgate rfl (commit_shows _ _ _ _ _) hs

/-- An operation that cannot be recorded leaves an open transaction. -/
theorem stays_recordMemoryOperation (h : OutcomeKeeps P cfg env.memory o view) {key : String}
    {result : MemoryOperation} {s : LearningStores} (hs : P s)
    (hrecord : ∀ m, s.memory.Shows m (s.memory.current.record key result) → P (s.withMemory m)) :
    Durable.Stays (fun m => P (s.withMemory m)) (recordMemoryOperation env.memory key result)
      s.memory := by
  refine Durable.stays_statement ?_
  dsimp only
  split
  · exact h.leftOpen s hs
  · exact hrecord _ (commit_shows _ _ _ _ _)

theorem keeps_storeEpisode (h : OutcomeKeeps P cfg env.memory o view) (l : Learned) :
    Durable.Keeps P (storeEpisode cfg env o view l) := by
  unfold storeEpisode
  split
  next hgate =>
    rw [Bool.and_eq_true] at hgate
    refine Durable.keeps_bind (Durable.keeps_attempt fun s hs => ?_) fun result => ?_
    · exact Durable.stays_within (stays_addEpisode h hgate.1 hgate.2 hs)
    · cases result with
      | ok _ => exact Durable.keeps_bind (keeps_emit h (by simp) _ _ _) fun _ =>
          Durable.keeps_pure _
      | error e => exact Durable.keeps_bind (keeps_learningError h _ _ _) fun _ =>
          Durable.keeps_raise _
  next => exact Durable.keeps_pure _

/-- A skill that was read is in the registry. -/
theorem getSkill_ok {a : HostAnswers} {skillId : String} {r : Registry}
    {found : Option RegisteredSkill} (h : (getSkill a skillId r).result = .ok found) :
    r.get skillId = found :=
  guarded_ok h

theorem onRegistry_result {α : Type} {m : RegistryM α} {s : LearningStores} {a : α}
    (h : (onRegistry m s).result = .ok a) : (m s.registry).result = .ok a := by
  change (m s.registry).result.mapError RegistryError.shown = .ok a at h
  cases hm : (m s.registry).result with
  | error e =>
    rw [hm] at h
    cases h
  | ok b =>
    rw [hm] at h
    rw [Except.ok.inj h]

theorem skills_of_get {r : Registry} {skillId : String} (h : (r.get skillId).isSome) :
    (r.db.skills skillId).isSome := by
  unfold Registry.get at h
  rwa [Option.isSome_map] at h

/-- A use is recorded under its key at most once. -/
theorem stays_recordUse (h : OutcomeKeeps P cfg env.memory o view) (ho : o.ungraded = false)
    {a : HostAnswers} {skillId : String} {s : LearningStores} (hused : skillId ∈ view.skillsUsed)
    (hrow : (s.registry.db.skills skillId).isSome) (hs : P s) :
    Durable.Stays P (onRegistry (recordUse a skillId (o.attributed view skillId) view.patched
      (some (useKey o.runId skillId)))) s := by
  refine Durable.stays_within (Durable.stays_effect hs fun _ t hrun => ?_)
  have hdone := guarded_ok hrun
  simp only [givenKey_useKey] at hdone
  split at hdone
  · cases hdone
    exact hs
  next hnone =>
    cases hdone
    refine h.use s skillId a.rowsNow ho hused hrow ?_ hs
    cases hop : s.registry.db.operations (useKey o.runId skillId) with
    | none => rfl
    | some _ =>
      rw [hop] at hnone
      exact absurd rfl hnone

theorem keeps_recordUses (h : OutcomeKeeps P cfg env.memory o view) (ho : o.ungraded = false)
    (skillIds : List String) (hused : ∀ skillId ∈ skillIds, skillId ∈ view.skillsUsed)
    (l : Learned) : Durable.Keeps P (recordUses env o view skillIds l) := by
  induction skillIds generalizing l with
  | nil => exact Durable.keeps_pure l
  | cons skillId rest ih =>
    have ih := ih fun id hid => hused id (List.mem_cons_of_mem _ hid)
    intro s hs
    refine Durable.stays_bind (Durable.stays_attempt (Durable.stays_within
      (Durable.stays_look _ hs))) fun found hfound _ => ?_
    change Durable.Stays P _ s
    cases found with
    | error e => exact (keeps_learningError h _ _ _).stays hs
    | ok found =>
      cases found with
      | none => exact (ih l).stays hs
      | some skill =>
        have hget := getSkill_ok (onRegistry_result (Except.ok.inj hfound))
        have hrow := @skills_of_get s.registry skillId (by rw [hget]; rfl)
        refine Durable.stays_bind (Durable.stays_attempt (stays_recordUse h ho
          (hused skillId List.mem_cons_self) hrow hs)) fun done _ hdone => ?_
        cases done with
        | ok _ => exact (ih l).stays hdone
        | error e =>
          exact (Durable.keeps_bind (keeps_learningError h _ _ _) fun l => ih l).stays hdone

theorem keeps_recordOutcomes (h : OutcomeKeeps P cfg env.memory o view) (l : Learned) :
    Durable.Keeps P (recordOutcomes cfg env o view l) := by
  unfold recordOutcomes
  split
  next hgate =>
    rw [Bool.and_eq_true, Bool.not_eq_true'] at hgate
    exact keeps_recordUses h hgate.2 _ (fun _ hid => hid) l
  next => exact Durable.keeps_pure l

/-! ## The fact -/

theorem keeps_proposeFact (h : OutcomeKeeps P cfg env.memory o view) :
    Durable.Keeps P (proposeFact env o) := by
  intro s hs
  refine Durable.stays_bind (Durable.stays_within (Durable.stays_look _ hs))
    fun previous _ _ => ?_
  change Durable.Stays P _ s
  cases previous with
  | some operation =>
    cases operation with
    | proposed candidate => exact Durable.stays_pure _ hs
    | committed memoryId created => exact Durable.stays_raise _ hs
  | none =>
    refine Durable.Keeps.stays ?_ hs
    refine Durable.keeps_bind (keeps_emit h (by simp) _ _ _) fun _ => ?_
    refine Durable.keeps_bind (fun s hs => Durable.stays_within (Durable.stays_look _ hs))
      fun _ => ?_
    refine Durable.keeps_bind (Durable.keeps_look _) fun candidate => ?_
    refine Durable.keeps_bind (fun s hs => Durable.stays_within
      (stays_recordMemoryOperation h hs fun m hm => ?_)) fun _ => Durable.keeps_pure _
    exact h.proposal s m candidate hm hs

/-- The commit of a fact: rolled back where it fails, and done once for its key. -/
theorem stays_addLongTerm (h : OutcomeKeeps P cfg env.memory o view) (ho : o.success = true)
    {memory : LongTermMemory} (hfact : FactOf cfg.memory o memory) {s : LearningStores} (hs : P s) :
    Durable.Stays (fun m => P (s.withMemory m))
      (addLongTerm env.memory memory (some (commitKey o.runId))) s.memory := by
  refine Durable.stays_statement ?_
  simp only [commitKey, givenKey_operationKey]
  split
  · exact h.rolledBack s hs
  · split
    · exact h.rolledBack s hs
    next hnone =>
      rw [Option.not_isSome_iff_eq_none] at hnone
      exact h.fact s memory env.memory.now ho hfact hnone hs

theorem keeps_commitCandidate (h : OutcomeKeeps P cfg env.memory o view) (ho : o.success = true)
    (candidate : LongTermFactCandidate) :
    Durable.Keeps P (onMemory (commitCandidate cfg.memory env.memory candidate o.runId o.repo
      (commitKey o.runId))) := by
  intro s hs
  refine Durable.stays_within (Durable.stays_look_bind hs fun existing _ => ?_)
  cases existing with
  | some operation => exact Durable.stays_pure _ hs
  | none =>
    cases hfact : candidate.fact? cfg.memory with
    | none =>
      exact Durable.stays_bind (stays_recordMemoryOperation h hs fun m hm => h.noFact s m ho hm hs)
        fun _ _ hdone => Durable.stays_pure _ hdone
    | some content =>
      refine Durable.stays_bind (stays_addLongTerm h ho ?_ hs)
        fun _ _ hdone => Durable.stays_pure _ hdone
      exact ⟨candidate, content, hfact, rfl, rfl, rfl, rfl, rfl⟩

theorem keeps_consolidate (h : OutcomeKeeps P cfg env.memory o view) (l : Learned) :
    Durable.Keeps P (consolidate cfg env o l) := by
  unfold consolidate
  split
  next hgate =>
    have ho : o.success = true := by
      simp only [Bool.and_eq_true] at hgate
      exact hgate.1.1.1
    refine Durable.keeps_bind (Durable.keeps_attempt (Durable.keeps_bind (keeps_proposeFact h)
      fun candidate => keeps_commitCandidate h ho candidate)) fun result => ?_
    cases result with
    | error e => exact keeps_learningError h _ _ _
    | ok memoryId =>
      cases memoryId with
      | none => exact Durable.keeps_pure _
      | some _ =>
        exact Durable.keeps_bind (keeps_emit h (by simp) _ _ _) fun _ => Durable.keeps_pure _
  next => exact Durable.keeps_pure l

/-! ## The skill -/

theorem recordOperation_done {a : HostAnswers} {key : String} {result : OperationResult}
    {r : Registry} {b : Bool} (h : (recordOperation a key result r).result = .ok b) :
    (recordOperation a key result r).state = { r with db := r.db.record key result } := by
  unfold recordOperation at h ⊢
  have hdone := Durable.effect_result h
  exact (congrArg Prod.snd (guarded_ok hdone)).symm

/-- Whatever the miner decides is recorded by then. -/
theorem mineDecision_recorded {s : LearningStores} {d : SkillLearningDecision}
    (hd : (mineDecision cfg env o view view.skillsUsed s).result = .ok d) :
    (mineDecision cfg env o view view.skillsUsed s).state.registry.db.operations
      (decisionKey o.runId) = some (.decision d) ∧ d.Valid := by
  obtain ⟨previous, hprevious, hrest, hstate⟩ := Durable.bind_result hd
  have hop : s.registry.db.operations (decisionKey o.runId) = previous :=
    guarded_ok (onRegistry_result hprevious)
  unfold mineDecision
  rw [hstate]
  cases previous with
  | some operation =>
    cases operation with
    | decision e =>
      obtain ⟨rfl, hvalid⟩ := validated_ok hrest
      exact ⟨hop, hvalid⟩
    | _ => cases hrest
  | none =>
    obtain ⟨_, -, hrest, hstate⟩ := Durable.bind_result hrest
    rw [hstate]
    obtain ⟨_, -, hrest, hstate⟩ := Durable.bind_result hrest
    rw [hstate]
    obtain ⟨e, hdecided, hrest, hstate⟩ := Durable.bind_result hrest
    rw [hstate]
    obtain ⟨_, hrecorded, hrest, hstate⟩ := Durable.bind_result hrest
    rw [hstate]
    cases hrest
    refine ⟨?_, (decideSkill_constrained hdecided).valid⟩
    change (recordOperation _ _ _ _).state.db.operations _ = _
    rw [recordOperation_done (onRegistry_result hrecorded)]
    change (Function.update s.registry.db.operations (decisionKey o.runId) (some
      ((s.registry.db.operations (decisionKey o.runId)).getD (.decision d)))) _ = _
    rw [hop]
    simp

theorem keeps_mineDecision (h : OutcomeKeeps P cfg env.memory o view) (ho : o.ungraded = false) :
    Durable.Keeps P (mineDecision cfg env o view view.skillsUsed) := by
  intro s hs
  refine Durable.stays_bind (Durable.stays_within (Durable.stays_look _ hs))
    fun previous hprevious _ => ?_
  change Durable.Stays P _ s
  have hop : s.registry.db.operations (decisionKey o.runId) = previous :=
    guarded_ok (onRegistry_result hprevious)
  cases previous with
  | some operation =>
    cases operation with
    | decision e => exact Durable.stays_look _ hs
    | _ => exact Durable.stays_raise _ hs
  | none =>
    -- neither the event nor the reading of the registry records a decision
    refine Durable.stays_bind ((keeps_emit h (by simp) _ _ _).stays hs) fun _ _ hs => ?_
    refine Durable.stays_bind (Durable.stays_within (Durable.stays_look _ hs)) fun _ _ hs => ?_
    refine Durable.stays_look_bind hs fun d hd => ?_
    refine Durable.stays_bind (Durable.stays_within (Durable.stays_effect hs fun _ t hrun => ?_))
      fun _ _ hdone => Durable.stays_pure _ hdone
    cases guarded_ok hrun
    exact h.decision _ d ho (decideSkill_constrained hd) hop hs

theorem keeps_applyDecision (h : OutcomeKeeps P cfg env.memory o view) (ho : o.ungraded = false)
    {d : SkillLearningDecision} (l : Learned) (hvalid : d.Valid) {s : LearningStores} (hs : P s)
    (hrecorded : s.registry.db.operations (decisionKey o.runId) = some (.decision d)) :
    Durable.Stays P (applyDecision cfg env o d l) s := by
  unfold applyDecision
  split
  · exact Durable.stays_pure _ hs
  next hgate =>
    rw [not_or, Bool.not_eq_false] at hgate
    cases hcandidate : d.candidateSkill with
    | none => exact (keeps_learningError h _ _ _).stays hs
    | some candidate =>
      simp only
      split
      · exact (keeps_learningError h _ _ _).stays hs
      next htarget =>
        refine Durable.stays_bind (Durable.stays_attempt ?_) fun result _ hdone => ?_
        · unfold installDecision
          simp only
          split
          next target haction htarget =>
            refine Durable.stays_within ?_
            by_cases hget : (s.registry.get target).isSome
            · obtain ⟨Q, hkeeps, hq, himp⟩ :=
                h.update s d target hgate.1 ho hvalid haction htarget hrecorded hget hs
              exact (stays_updateSkill hq fun _ => hkeeps).mono himp
            · exact stays_updateSkill hs fun hsome => absurd hsome hget
          next hother =>
            have hnew : d.action = .newSkill := by
              cases haction : d.action with
              | none => exact absurd haction hgate.2
              | newSkill => rfl
              | updateSkill =>
                cases ht : d.targetSkillId with
                | none => exact absurd ⟨haction, ht⟩ htarget
                | some target => exact absurd ht (hother target haction)
            refine Durable.stays_within ?_
            by_cases hfree : ∃ id, slug cfg.registry candidate.name = .ok id ∧
                s.registry.get id = none
            · obtain ⟨id, hid, hget⟩ := hfree
              obtain ⟨Q, hkeeps, hq, himp⟩ :=
                h.create s d candidate id hgate.1 ho hvalid hnew hcandidate hrecorded hid hget hs
              refine (stays_createSkill hq fun other hother _ => ?_).mono himp
              have hsame : other = id := Except.ok.inj (hother.symm.trans hid)
              exact hsame ▸ hkeeps
            · exact stays_createSkill hs fun id hid hget => absurd ⟨id, hid, hget⟩ hfree
        · cases result with
          | error e => exact (keeps_learningError h _ _ _).stays hdone
          | ok created =>
            exact (Durable.keeps_bind (keeps_emit h (by simp) _ _ _) fun _ =>
              Durable.keeps_pure _).stays hdone

theorem keeps_mineSkill (h : OutcomeKeeps P cfg env.memory o view) (l : Learned) :
    Durable.Keeps P (mineSkill cfg env o view l) := by
  unfold mineSkill
  split
  next hgate =>
    have ho : o.ungraded = false := by
      simp only [Bool.and_eq_true, Bool.not_eq_true'] at hgate
      exact hgate.1.2
    intro s hs
    refine Durable.stays_bind (Durable.stays_attempt ((keeps_mineDecision h ho).stays hs))
      fun result hresult hdone => ?_
    cases result with
    | error e => exact (keeps_learningError h _ _ _).stays hdone
    | ok d =>
      obtain ⟨hrecorded, hvalid⟩ := mineDecision_recorded (Except.ok.inj hresult)
      exact keeps_applyDecision h ho _ hvalid hdone hrecorded
  next => exact Durable.keeps_pure l

/-! ## Usage memory -/

theorem lessonEntry_outcome (l : Learned) (skillId : String) :
    (lessonEntry env o view l skillId).runId = o.runId ∧
      (lessonEntry env o view l skillId).outcome = o.outcomeText view skillId := by
  unfold lessonEntry RunOutcome.outcomeText RunOutcome.attributed
  refine ⟨rfl, ?_⟩
  cases view.explicitFailure skillId <;> cases o.success <;> rfl

theorem keeps_writeLessons (h : OutcomeKeeps P cfg env.memory o view)
    (hwrites : writesLessons cfg o view.skillsUsed = true) (skillIds : List String)
    (hused : ∀ skillId ∈ skillIds, skillId ∈ view.skillsUsed) (l : Learned) :
    Durable.Keeps P (writeLessons env o view skillIds l) := by
  induction skillIds generalizing l with
  | nil => exact Durable.keeps_pure l
  | cons skillId rest ih =>
    have ih := ih fun id hid => hused id (List.mem_cons_of_mem _ hid)
    obtain ⟨hrun, houtcome⟩ := @lessonEntry_outcome o view env l skillId
    refine Durable.keeps_bind (Durable.keeps_attempt fun s hs => Durable.stays_within
      (Durable.stays_effect hs fun _ t hdone => ?_)) fun result => ?_
    · have hdone := guarded_ok hdone
      simp only at hdone
      split at hdone
      · cases hdone
        exact hs
      next hpackage =>
        split at hdone
        · cases hdone
          exact hs
        next hmarker =>
          cases hdone
          rw [hrun] at hmarker
          refine h.lesson s skillId _ hwrites (hused skillId List.mem_cons_self) hrun houtcome
            ?_ hmarker hs
          rw [Option.isSome_iff_ne_none]
          intro hnone
          rw [hnone] at hpackage
          exact hpackage rfl
    · cases result with
      | ok appended => exact ih _
      | error e => exact Durable.keeps_bind (keeps_learningError h _ _ _) fun l => ih l

theorem keeps_recordLessons (h : OutcomeKeeps P cfg env.memory o view) (l : Learned) :
    Durable.Keeps P (recordLessons cfg env o view l) := by
  unfold recordLessons
  split
  next hwrites => exact keeps_writeLessons h hwrites _ (fun _ hid => hid) l
  next => exact Durable.keeps_pure l

/-! ## The whole -/

def RunOutcome.terminal (o : RunOutcome) (env : OutcomeEnv) (s : LearningStores) :
    TrajectoryEvent where
  eventId := emittedId o.runId none none (if o.success then "RunCompleted" else "RunFailed")
    "terminal"
  agentId := none
  invocationId := none
  timestamp := env.clock s.log.length
  payload := .other (if o.success then "RunCompleted" else "RunFailed")

/-- What survives each effect of an execution holds throughout it. -/
theorem stays_persist {s : LearningStores}
    (h : OutcomeKeeps P cfg env.memory o (buildView (s.logged (o.terminal env s)).log)) (hs : P s) :
    Durable.Stays P (o.persist cfg env) s := by
  refine Durable.stays_bind ((keeps_emit h (by simp) _ _ _).stays hs) fun _ _ hs => ?_
  refine Durable.stays_look_bind hs fun view hview => ?_
  cases hview
  refine Durable.Keeps.stays ?_ hs
  refine Durable.keeps_bind (keeps_storeEpisode h _) fun l => ?_
  refine Durable.keeps_bind (keeps_recordOutcomes h _) fun l => ?_
  refine Durable.keeps_bind (keeps_consolidate h _) fun l => ?_
  refine Durable.keeps_bind (keeps_mineSkill h _) fun l => ?_
  exact Durable.keeps_bind (keeps_recordLessons h _) fun l => Durable.keeps_pure _

end

/-! ## Executions -/

/-- One execution; `crash` tells how many effects come before the process dies. -/
structure OutcomeExecution where
  outcome : RunOutcome
  env : OutcomeEnv
  crash : Option Nat := none

/-- A process that dies leaves what is committed. -/
def OutcomeExecution.step (cfg : OutcomeConfig) (x : OutcomeExecution) (s : LearningStores) :
    LearningStores :=
  let run := x.outcome.persist cfg x.env s
  match x.crash with
  | none => run.state
  | some n => (run.crashed n s).withMemory (run.crashed n s).memory.rolledBack

/-- What holds throughout an execution, and without its open transaction, holds of what it
leaves. -/
theorem execution_stays {cfg : OutcomeConfig} {x : OutcomeExecution} {s : LearningStores}
    {P : LearningStores → Prop} (hlost : ∀ t, P t → P (t.withMemory t.memory.rolledBack))
    (hs : P s) (h : Durable.Stays P (x.outcome.persist cfg x.env) s) : P (x.step cfg s) := by
  unfold OutcomeExecution.step
  simp only
  split
  · exact h.2
  next n _ =>
    refine hlost _ ?_
    rcases (x.outcome.persist cfg x.env s).crashed_cases n s with hsame | ⟨p, -, hp, hcrash⟩
    · rw [hsame]
      exact hs
    · rw [hcrash]
      exact h.1 p hp

/-- What survives each effect of an execution holds of what it leaves. -/
theorem execution_leaves {cfg : OutcomeConfig} {x : OutcomeExecution} {s : LearningStores}
    {P : LearningStores → Prop} (h : OutcomeKeeps P cfg x.env.memory x.outcome
      (buildView (s.logged (x.outcome.terminal x.env s)).log)) (hs : P s) :
    P (x.step cfg s) :=
  execution_stays h.rolledBack hs (stays_persist h hs)

/-! ## What the log tells of the skills -/

theorem recordEvent_traces {log : List TrajectoryEvent} {event : TrajectoryEvent}
    (h : event.skillUseTraces = []) :
    (buildView (recordEvent log event)).skillUseTraces.Perm (buildView log).skillUseTraces := by
  refine (buildView_skillUseTraces _).trans (List.Perm.trans ?_ (buildView_skillUseTraces log).symm)
  unfold recordEvent Journal.record
  split
  · exact List.Perm.refl _
  · rw [List.flatMap_append, List.flatMap_singleton, h, List.append_nil]

theorem skillsUsed_congr {view view' : TrajectoryView}
    (h : view.skillUseTraces.Perm view'.skillUseTraces) : view.skillsUsed = view'.skillsUsed := by
  have hids := (h.map SkillUseTrace.skillId).dedup
  refine List.Perm.eq_of_pairwise (fun a b _ _ => le_antisymm)
    (List.pairwise_insertionSort _ _) (List.pairwise_insertionSort _ _) ?_
  exact ((List.perm_insertionSort _ _).trans hids).trans (List.perm_insertionSort _ _).symm

theorem explicitFailure_congr {view view' : TrajectoryView}
    (h : view.skillUseTraces.Perm view'.skillUseTraces) (skillId : String) :
    view.explicitFailure skillId = view'.explicitFailure skillId := by
  unfold TrajectoryView.explicitFailure
  rw [Bool.eq_iff_iff, List.any_eq_true, List.any_eq_true]
  exact exists_congr fun trace => and_congr_left' h.mem_iff

theorem skillsUsed_logged {s : LearningStores} {event : TrajectoryEvent}
    (h : event.skillUseTraces = []) :
    (buildView (s.logged event).log).skillsUsed = (buildView s.log).skillsUsed :=
  skillsUsed_congr (recordEvent_traces h)

theorem terminal_traces (o : RunOutcome) (env : OutcomeEnv) (s : LearningStores) :
    (o.terminal env s).skillUseTraces = [] := rfl

end EvoCI
