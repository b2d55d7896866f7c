import EvoCI.Capability.Recorded
import EvoCI.Learning.Replay

/-! What a run installs and what its events tell of it: throughout the executions of one
outcome the registry gains at most one change under the run's key, and the log at most one
event that reports it. -/

namespace EvoCI

open Library

/-! ## Reports -/

/-- The id of the event that reports the change of a skill. -/
def reportId (runId : String) (action : SkillAction) (skillId : String) : Option String :=
  emittedId runId none none action.event skillId

def TrajectoryEvent.Reports (event : TrajectoryEvent) (action : SkillAction) : Prop :=
  event.payload = .other action.event

instance (event : TrajectoryEvent) (action : SkillAction) : Decidable (event.Reports action) :=
  inferInstanceAs (Decidable (_ = _))

/-- The event neither is a report nor has the id of one. -/
structure TrajectoryEvent.Quiet (event : TrajectoryEvent) (runId : String) : Prop where
  silent : ∀ action, ¬ event.Reports action
  apart : ∀ action skillId, skillId ≠ "" → event.eventId ≠ reportId runId action skillId

/-- The run has installed nothing and reported nothing. -/
structure Unlearned (runId : String) (s : LearningStores) : Prop where
  install : s.registry.db.operations (installKey runId) = none
  quiet : ∀ event ∈ s.log, event.Quiet runId

/-- The registry has recorded this skill as the one that the run installed. -/
def Installed (runId : String) (t : LearningStores) (skillId : String) : Prop :=
  t.registry.db.operations (installKey runId) = some (.skill skillId)

/-- What the run installed has its event. -/
def RunReported (runId : String) (t : LearningStores) : Prop :=
  ∀ skillId, Installed runId t skillId → ∃ event ∈ t.log, ∃ action, event.Reports action

theorem reports_unique {event : TrajectoryEvent} {action other : SkillAction}
    (h : event.Reports action) (h' : event.Reports other) : action = other := by
  have hsame : TrajectoryPayload.other action.event = .other other.event := h.symm.trans h'
  cases action <;> cases other <;> first | rfl | exact absurd hsame (by decide)

theorem event_plain (action : SkillAction) : ':' ∉ action.event.toList := by
  cases action <;> decide

theorem reportId_injective {runId id id' : String} {action action' : SkillAction} (hid : id ≠ "")
    (h : reportId runId action id = reportId runId action' id') : action = action' ∧ id = id' := by
  obtain ⟨hevent, hkey⟩ := emittedId_injective hid (event_plain action) (event_plain action') h
  refine ⟨?_, hkey⟩
  cases action <;> cases action' <;> first | rfl | exact absurd hevent (by decide)

/-- Events of the harness of another type are quiet. -/
theorem harness_quiet {event : TrajectoryEvent} {runId type key : String} (hkey : key ≠ "")
    (hplain : ':' ∉ type.toList) (htype : ∀ action : SkillAction, type ≠ action.event)
    (hpayload : event.payload = .other type)
    (hid : event.eventId = emittedId runId none none type key) : event.Quiet runId := by
  refine ⟨fun action hreports => ?_, fun action skillId _ hsame => ?_⟩
  · have hsame : TrajectoryPayload.other type = .other action.event :=
      hpayload.symm.trans hreports
    exact htype action (TrajectoryPayload.other.inj hsame)
  · rw [hid] at hsame
    exact htype action (emittedId_injective hkey hplain (event_plain action) hsame).1

/-- So are model calls of the agents that are named without a colon. -/
theorem agent_quiet {event : TrajectoryEvent} {runId agentId type key : String}
    (hagent : agentId ≠ "harness") (hempty : agentId ≠ "") (hplain : ':' ∉ agentId.toList)
    (hpayload : event.payload = .modelCall)
    (hid : event.eventId = emittedId runId (some agentId) none type key) : event.Quiet runId := by
  refine ⟨fun action hreports => ?_, fun action skillId hskill hsame => ?_⟩
  · exact absurd (hpayload.symm.trans hreports) (by simp)
  · rw [hid] at hsame
    unfold reportId emittedId at hsame
    rw [if_neg hskill] at hsame
    split at hsame
    · cases hsame
    · have htext := congrArg String.toList (Option.some.inj hsame)
      simp only [textOr, if_neg hempty, String.toList_append, List.append_assoc] at htext
      replace htext := List.append_cancel_left (List.append_cancel_left htext)
      obtain ⟨hname, -⟩ := append_colon_injective hplain (by decide) htext
      exact hagent (String.ext hname)

/-! ## Quiet stages -/

/-- The rows of the skills, what the run installed and its decision stay as they are. -/
structure SameSkills (runId : String) (r t : Registry) : Prop where
  rows : t.db.skills = r.db.skills
  install : t.db.operations (installKey runId) = r.db.operations (installKey runId)
  decision : ∀ d, r.db.operations (decisionKey runId) = some (.decision d) →
    t.db.operations (decisionKey runId) = some (.decision d)

/-- The predicate survives whatever an execution does besides installing a skill and
reporting it. -/
structure QuietKeeps (P : LearningStores → Prop) (runId : String) : Prop where
  event : ∀ s event, event.Quiet runId → P s → P (s.logged event)
  memory : ∀ s memory, P s → P (s.withMemory memory)
  registry : ∀ s r, SameSkills runId s.registry r → P s → P (s.withRegistry r)

theorem QuietKeeps.and {P Q : LearningStores → Prop} {runId : String} (hp : QuietKeeps P runId)
    (hq : QuietKeeps Q runId) : QuietKeeps (fun s => P s ∧ Q s) runId where
  event s event hevent hs := ⟨hp.event s event hevent hs.1, hq.event s event hevent hs.2⟩
  memory s memory hs := ⟨hp.memory s memory hs.1, hq.memory s memory hs.2⟩
  registry s r hr hs := ⟨hp.registry s r hr hs.1, hq.registry s r hr hs.2⟩

/-- A decision that is recorded stays. -/
theorem quietKeeps_decided (runId : String) (d : SkillLearningDecision) :
    QuietKeeps (fun s => s.registry.db.operations (decisionKey runId) = some (.decision d))
      runId where
  event _ _ _ hs := hs
  memory _ _ hs := hs
  registry _ _ hr hs := hr.decision d hs

/-- Another operation is recorded beside the run's installation. -/
theorem sameSkills_record {runId key : String} {r t : Registry} {result : OperationResult}
    (hrows : t.db.skills = r.db.skills) (hoperations : t.db.operations = r.db.operations)
    (hkey : installKey runId ≠ key) :
    SameSkills runId r { t with db := t.db.record key result } := by
  refine ⟨hrows, (record_ne hkey).trans (congrFun hoperations _), fun d hd => ?_⟩
  change Function.update t.db.operations key (some ((t.db.operations key).getD result))
    (decisionKey runId) = some (.decision d)
  rw [hoperations]
  by_cases hsame : decisionKey runId = key
  · rw [← hsame, Function.update_self, hd]
    rfl
  · rw [Function.update_of_ne hsame]
    exact hd

section

variable {P : LearningStores → Prop} {cfg : OutcomeConfig} {o : RunOutcome}
  {view : TrajectoryView} {env : OutcomeEnv}

theorem quiet_emit (h : QuietKeeps P o.runId) {type key : String} (hkey : key ≠ "")
    (hplain : ':' ∉ type.toList) (htype : ∀ action : SkillAction, type ≠ action.event) :
    Durable.Keeps P (env.emit o (.other type) key) := by
  refine Durable.keeps_effect fun s u t hrun hs => ?_
  cases hrun
  exact h.event s _ (harness_quiet hkey hplain htype rfl rfl) hs

theorem quiet_modelCall (h : QuietKeeps P o.runId) {agentId : String} (hagent : agentId ≠ "harness")
    (hempty : agentId ≠ "") (hplain : ':' ∉ agentId.toList) :
    Durable.Keeps P (env.emit o .modelCall "final" (some agentId) .postRun) := by
  refine Durable.keeps_effect fun s u t hrun hs => ?_
  cases hrun
  exact h.event s _ (@agent_quiet _ _ _ "ModelCall" "final" hagent hempty hplain rfl rfl) hs

theorem quiet_onMemory {α : Type} (h : QuietKeeps P o.runId) (m : MemoryM α) :
    Durable.Keeps P (onMemory m) := by
  intro s hs
  refine Durable.stays_within ⟨fun p _ => ?_, ?_⟩
  · exact h.memory s p.2 hs
  · exact h.memory s _ hs

/-- A read of the registry. -/
theorem quiet_lookRegistry {α : Type} (f : Registry → Except RegistryError α) :
    Durable.Keeps P (onRegistry (Durable.look f)) := by
  intro s hs
  exact Durable.stays_within (Durable.stays_look _ hs)

theorem quiet_learningError (h : QuietKeeps P o.runId) (l : Learned) (stage : String)
    (e : Raised) : Durable.Keeps P (learningError env o l stage e) := by
  refine Durable.keeps_bind (quiet_emit h ?_ (by decide) ?_) fun _ => Durable.keeps_pure _
  · intro hempty
    have hlist := congrArg String.toList hempty
    simp at hlist
  · intro action
    cases action <;> decide

theorem quiet_created (h : QuietKeeps P o.runId) {key : String} (hkey : key ≠ "") :
    Durable.Keeps P (env.emit o (.other "MemoryCreated") key) := by
  refine quiet_emit h hkey (by decide) fun action => ?_
  cases action <;> decide

theorem quiet_storeEpisode (h : QuietKeeps P o.runId) (l : Learned) :
    Durable.Keeps P (storeEpisode cfg env o view l) := by
  unfold storeEpisode
  split
  · refine Durable.keeps_bind (Durable.keeps_attempt (quiet_onMemory h _)) fun result => ?_
    cases result with
    | ok _ =>
      exact Durable.keeps_bind (quiet_created h (by decide)) fun _ => Durable.keeps_pure _
    | error e =>
      exact Durable.keeps_bind (quiet_learningError h _ _ _) fun _ => Durable.keeps_raise _
  · exact Durable.keeps_pure l

theorem quiet_recordUse (h : QuietKeeps P o.runId) (a : HostAnswers) (skillId : String)
    (success patched : Bool) :
    Durable.Keeps P (onRegistry (recordUse a skillId success patched
      (some (useKey o.runId skillId)))) := by
  intro s hs
  refine Durable.stays_within (Durable.stays_effect hs fun _ t hrun => ?_)
  have hdone := guarded_ok hrun
  simp only [givenKey_useKey] at hdone
  split at hdone
  · cases hdone
    exact hs
  · cases hdone
    refine h.registry s _ ?_ hs
    exact @sameSkills_record o.runId (useKey o.runId skillId) s.registry { s.registry with
      db := s.registry.db.updateStats skillId fun stats => stats.use success patched a.rowsNow }
      .recorded rfl rfl (useKey_ne_installKey _ _ _).symm

theorem quiet_recordUses (h : QuietKeeps P o.runId) (skillIds : List String) (l : Learned) :
    Durable.Keeps P (recordUses env o view skillIds l) := by
  induction skillIds generalizing l with
  | nil => exact Durable.keeps_pure l
  | cons skillId rest ih =>
    refine Durable.keeps_bind (Durable.keeps_attempt (quiet_lookRegistry _)) fun found => ?_
    cases found with
    | error e => exact quiet_learningError h _ _ _
    | ok found =>
      cases found with
      | none => exact ih l
      | some skill =>
        refine Durable.keeps_bind (Durable.keeps_attempt (quiet_recordUse h _ _ _ _))
          fun done => ?_
        cases done with
        | ok _ => exact ih l
        | error e => exact Durable.keeps_bind (quiet_learningError h _ _ _) fun l => ih l

theorem quiet_recordOutcomes (h : QuietKeeps P o.runId) (l : Learned) :
    Durable.Keeps P (recordOutcomes cfg env o view l) := by
  unfold recordOutcomes
  split
  · exact quiet_recordUses h _ l
  · exact Durable.keeps_pure l

theorem quiet_proposeFact (h : QuietKeeps P o.runId) :
    Durable.Keeps P (proposeFact env o) := by
  refine Durable.keeps_bind (quiet_onMemory h _) fun previous => ?_
  cases previous with
  | some operation =>
    cases operation with
    | proposed candidate => exact Durable.keeps_pure candidate
    | committed memoryId created => exact Durable.keeps_raise _
  | none =>
    refine Durable.keeps_bind (quiet_modelCall h (by decide) (by decide) (by decide)) fun _ => ?_
    refine Durable.keeps_bind (quiet_onMemory h _) fun _ => ?_
    refine Durable.keeps_bind (Durable.keeps_look _) fun candidate => ?_
    exact Durable.keeps_bind (quiet_onMemory h _) fun _ => Durable.keeps_pure candidate

theorem quiet_consolidate (h : QuietKeeps P o.runId) (l : Learned) :
    Durable.Keeps P (consolidate cfg env o l) := by
  unfold consolidate
  split
  · refine Durable.keeps_bind (Durable.keeps_attempt (Durable.keeps_bind (quiet_proposeFact h)
      fun candidate => quiet_onMemory h _)) fun result => ?_
    cases result with
    | error e => exact quiet_learningError h _ _ _
    | ok memoryId =>
      cases memoryId with
      | none => exact Durable.keeps_pure l
      | some _ =>
        exact Durable.keeps_bind (quiet_created h (by decide)) fun _ => Durable.keeps_pure _
  · exact Durable.keeps_pure l

theorem quiet_mineDecision (h : QuietKeeps P o.runId) (used : List String) :
    Durable.Keeps P (mineDecision cfg env o view used) := by
  refine Durable.keeps_bind (quiet_lookRegistry _) fun previous => ?_
  cases previous with
  | some operation =>
    cases operation with
    | decision e => exact Durable.keeps_look _
    | _ => exact Durable.keeps_raise _
  | none =>
    refine Durable.keeps_bind (quiet_modelCall h (by decide) (by decide) (by decide)) fun _ => ?_
    refine Durable.keeps_bind (quiet_lookRegistry _) fun _ => ?_
    refine Durable.keeps_bind (Durable.keeps_look _) fun d => ?_
    refine Durable.keeps_bind (fun s hs => ?_) fun _ => Durable.keeps_pure d
    refine Durable.stays_within (Durable.stays_effect hs fun _ t hrun => ?_)
    cases guarded_ok hrun
    exact h.registry s _
      (sameSkills_record rfl rfl (decisionKey_ne_installKey _ _).symm) hs

theorem quiet_writeLessons (h : QuietKeeps P o.runId) (skillIds : List String) (l : Learned) :
    Durable.Keeps P (writeLessons env o view skillIds l) := by
  induction skillIds generalizing l with
  | nil => exact Durable.keeps_pure l
  | cons skillId rest ih =>
    refine Durable.keeps_bind (Durable.keeps_attempt fun s hs => Durable.stays_within
      (Durable.stays_effect hs fun _ t hrun => ?_)) fun result => ?_
    · have hdone := guarded_ok hrun
      simp only at hdone
      split at hdone
      · cases hdone
        exact hs
      · split at hdone
        · cases hdone
          exact hs
        · cases hdone
          exact h.registry s _ ⟨rfl, rfl, fun _ hd => hd⟩ hs
    · cases result with
      | ok appended => exact ih _
      | error e => exact Durable.keeps_bind (quiet_learningError h _ _ _) fun l => ih l

theorem quiet_recordLessons (h : QuietKeeps P o.runId) (l : Learned) :
    Durable.Keeps P (recordLessons cfg env o view l) := by
  unfold recordLessons
  split
  · exact quiet_writeLessons h _ l
  · exact Durable.keeps_pure l

end

/-! ## Installing -/

/-- While a skill is being installed the rows are the former ones, or the run has recorded
the skill and its row is there. -/
def Installing (runId : String) (rows : String → Option SkillRow) (skillId : String)
    (t : Registry) : Prop :=
  t.db.operations (installKey runId) = none ∧ t.db.skills = rows ∨
    t.db.operations (installKey runId) = some (.skill skillId) ∧
      ∃ row : SkillRow, row.manifest.skillId = skillId ∧
        t.db.skills = Function.update rows skillId (some row)

section

variable {runId skillId : String} {rows : String → Option SkillRow} {d : SkillLearningDecision}

theorem updateKeeps_installing :
    UpdateKeeps (fun t => Installing runId rows skillId t ∧
      t.db.operations (decisionKey runId) = some (.decision d)) skillId
      (some (installKey runId)) where
  put t place package _ ht := ht
  upsert t manifest path candidate now hmanifest ht := by
    have hinstalled : (t.db.upsert manifest path candidate (some (installKey runId)) now).operations
        (installKey runId) =
          some ((t.db.operations (installKey runId)).getD (.skill manifest.skillId)) := by
      unfold SkillDatabase.upsert
      simp only [installKey, givenKey_operationKey, Function.update_self]
    refine ⟨Or.inr ⟨?_, ⟨manifest, manifest.enabled, path⟩, hmanifest, ?_⟩, ?_⟩
    · refine hinstalled.trans ?_
      rcases ht.1 with ⟨hnone, -⟩ | ⟨hsome, -⟩
      · rw [hnone, Option.getD_none, hmanifest]
      · rw [hsome, Option.getD_some]
    · change Function.update t.db.skills manifest.skillId _ = _
      rcases ht.1 with ⟨-, hrows⟩ | ⟨-, row, -, hrows⟩
      · rw [hrows, hmanifest]
      · rw [hrows, hmanifest, Function.update_idem]
    · exact (operations_upsert (decisionKey_ne_installKey _ _)).trans ht.2

theorem createKeeps_installing :
    CreateKeeps (fun t => Installing runId rows skillId t ∧
      t.db.operations (decisionKey runId) = some (.decision d)) skillId
      (some (installKey runId)) where
  toUpdateKeeps := updateKeeps_installing
  root _ _ ht := ht
  memory _ _ _ ht := ht
  removeRoot _ ht := ht

end

/-! ## One change, one report -/

/-- From `s` on the run has installed at most one skill, by its decision, and reported at most
that. -/
structure Mined (runId : String) (s t : LearningStores) : Prop where
  settled : ∃ skillId, skillId ≠ "" ∧
    Installing runId s.registry.db.skills skillId t.registry
  decided : ∀ skillId, Installed runId t skillId →
    ∃ d, t.registry.db.operations (decisionKey runId) = some (.decision d) ∧
      (d.action = .updateSkill ↔ (s.registry.db.skills skillId).isSome)
  reports : ∀ event ∈ t.log, ∀ action, event.Reports action →
    ∃ skillId, Installed runId t skillId ∧ event.eventId = reportId runId action skillId ∧
      (action = .updated ↔ (s.registry.db.skills skillId).isSome)
  tagged : ∀ event ∈ t.log, ∀ action skillId, skillId ≠ "" →
    event.eventId = reportId runId action skillId → event.Reports action
  once : ∀ action, t.log.countP (fun event => event.Reports action) ≤ 1

theorem mem_recordEvent {log : List TrajectoryEvent} {event other : TrajectoryEvent}
    (h : other ∈ recordEvent log event) : other ∈ log ∨ other = event := by
  unfold recordEvent Journal.record at h
  split at h
  · exact Or.inl h
  · rcases List.mem_append.mp h with h | h
    · exact Or.inl h
    · exact Or.inr (List.mem_singleton.mp h)

theorem mem_recordEvent_of_mem {log : List TrajectoryEvent} {event other : TrajectoryEvent}
    (h : other ∈ log) : other ∈ recordEvent log event := by
  unfold recordEvent Journal.record
  split
  · exact h
  · exact List.mem_append_left _ h

section

variable {cfg : OutcomeConfig} {o : RunOutcome} {view : TrajectoryView} {env : OutcomeEnv}
  {runId skillId : String} {s t : LearningStores} {d : SkillLearningDecision}

theorem mined_refl (h : Unlearned runId s) : Mined runId s s := by
  refine ⟨⟨"skill", by decide, Or.inl ⟨h.install, rfl⟩⟩, fun id hid => ?_,
    fun event hevent action hreports => ?_, fun event hevent action id hid hsame => ?_,
    fun action => ?_⟩
  · have hid : s.registry.db.operations (installKey runId) = some (.skill id) := hid
    rw [h.install] at hid
    cases hid
  · exact absurd hreports ((h.quiet event hevent).silent action)
  · exact absurd hsame ((h.quiet event hevent).apart action id hid)
  · have hnone : s.log.countP (fun event => event.Reports action) = 0 := by
      rw [List.countP_eq_zero]
      intro event hevent
      simpa using (h.quiet event hevent).silent action
    omega

theorem quietKeeps_mined (runId : String) (s : LearningStores) :
    QuietKeeps (Mined runId s) runId where
  event t event hquiet ht := by
    refine ⟨ht.settled, ht.decided, fun other hother action hreports => ?_,
      fun other hother action id hid hsame => ?_, fun action => ?_⟩
    · rcases mem_recordEvent hother with hother | rfl
      · exact ht.reports other hother action hreports
      · exact absurd hreports (hquiet.silent action)
    · rcases mem_recordEvent hother with hother | rfl
      · exact ht.tagged other hother action id hid hsame
      · exact absurd hsame (hquiet.apart action id hid)
    · refine Nat.le_trans (Nat.le_of_eq ?_) (ht.once action)
      change (recordEvent t.log event).countP _ = _
      unfold recordEvent Journal.record
      split
      · rfl
      · rw [List.countP_append, List.countP_singleton, if_neg (by simpa using hquiet.silent action),
          Nat.add_zero]
  memory t memory ht := ⟨ht.settled, ht.decided, ht.reports, ht.tagged, ht.once⟩
  registry t r hr ht := by
    have hinstalled : ∀ id, Installed runId (t.withRegistry r) id ↔ Installed runId t id := by
      intro id
      unfold Installed
      rw [show (t.withRegistry r).registry.db.operations (installKey runId) =
        t.registry.db.operations (installKey runId) from hr.install]
    refine ⟨?_, fun id hid => ?_, fun event hevent action hreports => ?_, ht.tagged, ht.once⟩
    · obtain ⟨id, hid, hsettled⟩ := ht.settled
      refine ⟨id, hid, ?_⟩
      unfold Installing at hsettled ⊢
      rw [show (t.withRegistry r).registry.db.operations (installKey runId) =
        t.registry.db.operations (installKey runId) from hr.install,
        show (t.withRegistry r).registry.db.skills = t.registry.db.skills from hr.rows]
      exact hsettled
    · obtain ⟨d, hd, haction⟩ := ht.decided id ((hinstalled id).mp hid)
      exact ⟨d, hr.decision d hd, haction⟩
    · obtain ⟨id, hid, hsame⟩ := ht.reports event hevent action hreports
      exact ⟨id, (hinstalled id).mpr hid, hsame⟩

theorem quietKeeps_reported (runId : String) : QuietKeeps (RunReported runId) runId where
  event t event _ ht := by
    intro id hid
    obtain ⟨other, hother, hreports⟩ := ht id hid
    exact ⟨other, mem_recordEvent_of_mem hother, hreports⟩
  memory t memory ht := ht
  registry t r hr ht := by
    intro id hid
    refine ht id ?_
    unfold Installed at hid ⊢
    exact hr.install.symm.trans hid

theorem installed_unique {id : String} (h : Installed runId t skillId)
    (h' : Installed runId t id) : skillId = id :=
  OperationResult.skill.inj (Option.some.inj (h.symm.trans h'))

/-- What is installed is the one skill that has its own row. -/
theorem Mined.installed (h : Mined runId s t) (hid : Installed runId t skillId) :
    skillId ≠ "" ∧ ∃ row : SkillRow, row.manifest.skillId = skillId ∧
      t.registry.db.skills = Function.update s.registry.db.skills skillId (some row) := by
  obtain ⟨id, hne, ⟨hnone, -⟩ | ⟨hsome, row, hrow, hrows⟩⟩ := h.settled
  · rw [hid] at hnone
    cases hnone
  · rw [hid] at hsome
    cases hsome
    exact ⟨hne, row, hrow, hrows⟩

/-- The report of what is installed. -/
theorem mined_report (h : Mined o.runId s t) (hid : Installed o.runId t skillId)
    {action : SkillAction} (haction : action = .updated ↔ (s.registry.db.skills skillId).isSome) :
    Mined o.runId s (env.emit o (.other action.event) skillId none .repair t).state ∧
      RunReported o.runId (env.emit o (.other action.event) skillId none .repair t).state := by
  obtain ⟨hne, -⟩ := h.installed hid
  set event : TrajectoryEvent :=
    { eventId := reportId o.runId action skillId, agentId := none, invocationId := none,
      timestamp := env.clock t.log.length, payload := .other action.event } with hevent
  change Mined o.runId s (t.logged event) ∧ RunReported o.runId (t.logged event)
  have hreports : event.Reports action := rfl
  by_cases hholds : Journal.Holds TrajectoryEvent.eventId t.log event
  · -- an earlier execution reported it
    have hsame : t.logged event = t := by
      unfold LearningStores.logged recordEvent Journal.record
      rw [if_pos hholds]
    rw [hsame]
    refine ⟨h, fun id _ => ?_⟩
    obtain ⟨-, old, hold, hkey⟩ := hholds
    exact ⟨old, hold, action, h.tagged old hold action skillId hne hkey⟩
  · have hlog : (t.logged event).log = t.log ++ [event] := by
      unfold LearningStores.logged recordEvent Journal.record
      rw [if_neg hholds]
    have hnone : ∀ old ∈ t.log, ∀ other, ¬ old.Reports other := by
      intro old hold other hother
      obtain ⟨id, hid', hkey, hupdates⟩ := h.reports old hold other hother
      obtain rfl := installed_unique hid hid'
      have hsame : other = action := by
        cases other <;> cases action <;> simp_all
      subst hsame
      refine hholds ⟨?_, old, hold, hkey⟩
      change (reportId o.runId _ skillId).isSome
      unfold reportId emittedId
      rw [if_neg hne]
      rfl
    refine ⟨⟨h.settled, h.decided, fun other hother act hact => ?_,
      fun other hother act id hid' hsame => ?_, fun act => ?_⟩, fun id _ => ?_⟩
    · rw [hlog] at hother
      rcases List.mem_append.mp hother with hother | hother
      · exact absurd hact (hnone other hother act)
      · obtain rfl := List.mem_singleton.mp hother
        obtain rfl := reports_unique hact hreports
        exact ⟨skillId, hid, rfl, haction⟩
    · rw [hlog] at hother
      rcases List.mem_append.mp hother with hother | hother
      · exact h.tagged other hother act id hid' hsame
      · obtain rfl := List.mem_singleton.mp hother
        obtain ⟨rfl, -⟩ := reportId_injective hne hsame
        exact hreports
    · rw [hlog, List.countP_append]
      have hzero : t.log.countP (fun event => event.Reports act) = 0 := by
        rw [List.countP_eq_zero]
        intro old hold
        simpa using hnone old hold act
      have hone := @List.countP_le_length _ (fun event => decide (event.Reports act)) [event]
      rw [List.length_singleton] at hone
      omega
    · exact ⟨event, by rw [hlog]; simp, action, hreports⟩

/-- What the registry does with a decision that is applied for the first time: it refuses, or
works on one skill. -/
theorem installDecision_cases {candidate : SkillCandidate}
    (hnone : t.registry.db.operations (installKey o.runId) = none)
    (hrecorded : t.registry.db.operations (decisionKey o.runId) = some (.decision d))
    (hvalid : d.Valid) (haction : d.action ≠ .none) :
    Durable.Stays (fun u => u = t) (installDecision cfg env o d candidate) t ∧
        (∀ created, (installDecision cfg env o d candidate t).result ≠ .ok created) ∨
      ∃ skillId, skillId ≠ "" ∧
        (d.action = .updateSkill ↔ (t.registry.db.skills skillId).isSome) ∧
        Durable.Stays (fun u => u.log = t.log ∧
          Installing o.runId t.registry.db.skills skillId u.registry ∧
          u.registry.db.operations (decisionKey o.runId) = some (.decision d))
          (installDecision cfg env o d candidate) t ∧
        ∀ created, (installDecision cfg env o d candidate t).result = .ok created →
          created.manifest.skillId = skillId ∧
            Installed o.runId (installDecision cfg env o d candidate t).state skillId := by
  have hkey : givenKey (some (installKey o.runId)) = some (installKey o.runId) :=
    givenKey_operationKey _ _
  have hstart : ∀ id, Installing o.runId t.registry.db.skills id t.registry :=
    fun id => Or.inl ⟨hnone, rfl⟩
  have hsettled : ∀ {id : String} {r : Registry}, Installing o.runId t.registry.db.skills id r →
      (r.db.operations (installKey o.runId)).isSome →
      r.db.operations (installKey o.runId) = some (.skill id) := by
    intro id r hr hsome
    rcases hr with ⟨hempty, -⟩ | ⟨hdone, -⟩
    · rw [hempty] at hsome
      cases hsome
    · exact hdone
  -- a call that changes nothing does not return
  have hrefused : ∀ {m : RegistryM RegisteredSkill}, Durable.Stays (fun r => r = t.registry) m
      t.registry → (∀ created, (m t.registry).result = .ok created →
        ((m t.registry).state.db.operations (installKey o.runId)).isSome) →
      Durable.Stays (fun u => u = t) (onRegistry m) t ∧
        ∀ created, (onRegistry m t).result ≠ .ok created := by
    intro m hstays hsome
    refine ⟨Durable.stays_within (hstays.mono fun r hr => by rw [hr]; rfl),
      fun created hcreated => ?_⟩
    have hinstalled := hsome created (onRegistry_result hcreated)
    rw [hstays.2, hnone] at hinstalled
    cases hinstalled
  unfold SkillLearningDecision.Valid at hvalid
  unfold installDecision
  cases hact : d.action with
  | none => exact absurd hact haction
  | updateSkill =>
    rw [hact] at hvalid
    obtain ⟨-, htruthy⟩ := hvalid
    cases htarget : d.targetSkillId with
    | none =>
      rw [htarget] at htruthy
      cases htruthy
    | some target =>
      rw [htarget] at htruthy
      have hne : target ≠ "" := by simpa [truthy] using htruthy
      have hdone : ∀ created, (updateSkill cfg.registry (env.host .skill) target candidate
          (some (installKey o.runId)) t.registry).result = .ok created →
          created.manifest.skillId = target ∧ ((updateSkill cfg.registry (env.host .skill) target
            candidate (some (installKey o.runId)) t.registry).state.db.operations
              (installKey o.runId)).isSome := by
        intro created hcreated
        rcases updateSkill_returns hkey hcreated with ⟨id, hid, -⟩ | ⟨-, hinstalled⟩
        · rw [hnone] at hid
          cases hid
        · exact hinstalled
      by_cases hget : (t.registry.get target).isSome
      · right
        have hstays := @stays_updateSkill cfg.registry (env.host .skill)
          (fun r => Installing o.runId t.registry.db.skills target r ∧
            r.db.operations (decisionKey o.runId) = some (.decision d)) target
          (some (installKey o.runId)) candidate t.registry ⟨hstart target, hrecorded⟩
          fun _ => updateKeeps_installing
        refine ⟨target, hne, iff_of_true rfl (skills_of_get hget),
          Durable.stays_within (hstays.mono fun r hr => ⟨rfl, hr⟩), fun created hcreated => ?_⟩
        obtain ⟨hmanifest, hsome⟩ := hdone created (onRegistry_result hcreated)
        exact ⟨hmanifest, hsettled hstays.2.1 hsome⟩
      · exact Or.inl (hrefused (stays_updateSkill rfl fun hsome => absurd hsome hget)
          fun created hcreated => (hdone created hcreated).2)
  | newSkill =>
    have hdone : ∀ created, (createSkill cfg.registry (env.host .skill) candidate none
        (some (installKey o.runId)) t.registry).result = .ok created →
        slug cfg.registry candidate.name = .ok created.manifest.skillId ∧
          ((createSkill cfg.registry (env.host .skill) candidate none
            (some (installKey o.runId)) t.registry).state.db.operations
              (installKey o.runId)).isSome := by
      intro created hcreated
      rcases createSkill_returns hkey hcreated with ⟨id, hid, -⟩ | ⟨-, hinstalled⟩
      · rw [hnone] at hid
        cases hid
      · exact hinstalled
    by_cases hfree : ∃ id, slug cfg.registry candidate.name = .ok id ∧ t.registry.get id = none
    · obtain ⟨id, hid, hget⟩ := hfree
      right
      have hstays := @stays_createSkill cfg.registry (env.host .skill)
        (fun r => Installing o.runId t.registry.db.skills id r ∧
          r.db.operations (decisionKey o.runId) = some (.decision d))
        (some (installKey o.runId)) candidate t.registry none ⟨hstart id, hrecorded⟩ (by
          intro other hother _
          have hsame : other = id := Except.ok.inj (hother.symm.trans hid)
          rw [hsame]
          exact createKeeps_installing)
      refine ⟨id, slug_ne_empty hid, iff_of_false (by simp) ?_,
        Durable.stays_within (hstays.mono fun r hr => ⟨rfl, hr⟩), fun created hcreated => ?_⟩
      · unfold Registry.get at hget
        rw [Option.map_eq_none_iff.mp hget]
        simp
      · obtain ⟨hslug, hsome⟩ := hdone created (onRegistry_result hcreated)
        exact ⟨Except.ok.inj (hslug.symm.trans hid), hsettled hstays.2.1 hsome⟩
    · exact Or.inl (hrefused (stays_createSkill rfl fun id hid hget => absurd ⟨id, hid, hget⟩ hfree)
        fun created hcreated => (hdone created hcreated).2)

/-- A decision is one call to the registry. -/
theorem installDecision_call (candidate : SkillCandidate) :
    (∃ target, installDecision cfg env o d candidate = onRegistry (updateSkill cfg.registry
        (env.host .skill) target candidate (some (installKey o.runId)))) ∨
      installDecision cfg env o d candidate = onRegistry (createSkill cfg.registry
        (env.host .skill) candidate none (some (installKey o.runId))) := by
  unfold installDecision
  split
  next target _ _ => exact Or.inl ⟨target, rfl⟩
  next => exact Or.inr rfl

/-- A decision that is applied again changes nothing. -/
theorem installDecision_again {P : LearningStores → Prop} {candidate : SkillCandidate}
    (hinstalled : t.registry.db.operations (installKey o.runId) ≠ none) (ht : P t) :
    Durable.Stays P (installDecision cfg env o d candidate) t := by
  have hkey : givenKey (some (installKey o.runId)) = some (installKey o.runId) :=
    givenKey_operationKey _ _
  rcases @installDecision_call cfg o env d candidate with ⟨target, hcall⟩ | hcall
  · rw [hcall]
    exact Durable.stays_within (updateSkill_again hkey hinstalled ht)
  · rw [hcall]
    exact Durable.stays_within (createSkill_again hkey hinstalled ht)

/-- It returns the skill that is installed. -/
theorem installDecision_returns {candidate : SkillCandidate} {created : RegisteredSkill}
    (hinstalled : t.registry.db.operations (installKey o.runId) ≠ none)
    (h : (installDecision cfg env o d candidate t).result = .ok created) :
    ∃ id, Installed o.runId t id ∧ t.registry.get id = some created := by
  have hkey : givenKey (some (installKey o.runId)) = some (installKey o.runId) :=
    givenKey_operationKey _ _
  rcases @installDecision_call cfg o env d candidate with ⟨target, hcall⟩ | hcall
  · rw [hcall] at h
    rcases updateSkill_returns hkey (onRegistry_result h) with hprior | ⟨hnone, -⟩
    · exact hprior
    · exact absurd hnone hinstalled
  · rw [hcall] at h
    rcases createSkill_returns hkey (onRegistry_result h) with hprior | ⟨hnone, -⟩
    · exact hprior
    · exact absurd hnone hinstalled

/-- A skill of which nothing was reported is installed. -/
theorem mined_installing (h : Mined runId s t) {u : LearningStores} (hne : skillId ≠ "")
    (hnone : t.registry.db.operations (installKey runId) = none)
    (haction : d.action = .updateSkill ↔ (s.registry.db.skills skillId).isSome)
    (hlog : u.log = t.log) (hu : Installing runId s.registry.db.skills skillId u.registry)
    (hrecorded : u.registry.db.operations (decisionKey runId) = some (.decision d)) :
    Mined runId s u := by
  have hsilent : ∀ event ∈ t.log, ∀ action, ¬ event.Reports action := by
    intro event hevent action hreports
    obtain ⟨id, hid, -⟩ := h.reports event hevent action hreports
    unfold Installed at hid
    rw [hnone] at hid
    cases hid
  refine ⟨⟨skillId, hne, hu⟩, fun id hid => ⟨d, hrecorded, ?_⟩, fun event hevent action hreports =>
    ?_, fun event hevent => ?_, fun action => ?_⟩
  · rcases hu with ⟨hempty, -⟩ | ⟨hinstalled, -⟩
    · unfold Installed at hid
      rw [hempty] at hid
      cases hid
    · obtain rfl := installed_unique hinstalled hid
      exact haction
  · rw [hlog] at hevent
    exact absurd hreports (hsilent event hevent action)
  · rw [hlog] at hevent
    exact h.tagged event hevent
  · rw [hlog]
    exact h.once action

/-- The rows before anything is installed are the first ones. -/
theorem Mined.rows (h : Mined runId s t)
    (hnone : t.registry.db.operations (installKey runId) = none) :
    t.registry.db.skills = s.registry.db.skills := by
  obtain ⟨_, -, ⟨-, hrows⟩ | ⟨hsome, -⟩⟩ := h.settled
  · exact hrows
  · rw [hnone] at hsome
    cases hsome

theorem mined_installDecision (h : Mined o.runId s t) {candidate : SkillCandidate}
    (hrecorded : t.registry.db.operations (decisionKey o.runId) = some (.decision d))
    (hvalid : d.Valid) (haction : d.action ≠ .none) :
    Durable.Stays (Mined o.runId s) (installDecision cfg env o d candidate) t := by
  by_cases hnone : t.registry.db.operations (installKey o.runId) = none
  · rcases @installDecision_cases cfg o env t d candidate hnone hrecorded hvalid haction with
      ⟨hstays, -⟩ | ⟨id, hne, hupdates, hstays, -⟩
    · exact hstays.mono fun u hu => hu ▸ h
    · refine hstays.mono fun u hu => ?_
      rw [h.rows hnone] at hupdates hu
      exact mined_installing h hne hnone hupdates hu.1 hu.2.1 hu.2.2
  · exact installDecision_again hnone h

/-- The skill that an installation returns is the installed one. -/
theorem installDecision_installed (h : Mined o.runId s t) {candidate : SkillCandidate}
    (hrecorded : t.registry.db.operations (decisionKey o.runId) = some (.decision d))
    (hvalid : d.Valid) (haction : d.action ≠ .none) {created : RegisteredSkill}
    (hcreated : (installDecision cfg env o d candidate t).result = .ok created) :
    Installed o.runId (installDecision cfg env o d candidate t).state created.manifest.skillId ∧
      (d.action = .updateSkill ↔
        (s.registry.db.skills created.manifest.skillId).isSome) := by
  by_cases hnone : t.registry.db.operations (installKey o.runId) = none
  · rcases @installDecision_cases cfg o env t d candidate hnone hrecorded hvalid haction with
      ⟨-, hfails⟩ | ⟨id, -, hupdates, -, hreturns⟩
    · exact absurd hcreated (hfails created)
    · obtain ⟨rfl, hinstalled⟩ := hreturns created hcreated
      rw [h.rows hnone] at hupdates
      exact ⟨hinstalled, hupdates⟩
  · obtain ⟨id, hid, hget⟩ := installDecision_returns hnone hcreated
    obtain ⟨-, row, hrow, hrows⟩ := h.installed hid
    have hmanifest : created.manifest.skillId = id := by
      unfold Registry.get at hget
      rw [hrows, Function.update_self] at hget
      cases hget
      exact hrow
    have hsame : (installDecision cfg env o d candidate t).state = t :=
      (@installDecision_again cfg o env t d (fun u => u = t) candidate hnone rfl).2
    obtain ⟨d', hd', hupdates⟩ := h.decided id hid
    rw [hrecorded] at hd'
    cases hd'
    rw [hsame, hmanifest]
    exact ⟨hid, hupdates⟩

/-- An installation that fails leaves nothing unreported. -/
theorem installDecision_failed {candidate : SkillCandidate} {e : Raised}
    (hfails : (installDecision cfg env o d candidate t).result = .error e)
    (hreported : RunReported o.runId t) :
    RunReported o.runId (installDecision cfg env o d candidate t).state := by
  by_cases hnone : t.registry.db.operations (installKey o.runId) = none
  · obtain ⟨m, hcall, hm⟩ : ∃ m : RegistryM RegisteredSkill,
        installDecision cfg env o d candidate = onRegistry m ∧
          Durable.KeepsFailing (fun r => r.db.operations (installKey o.runId) = none) m := by
      rcases @installDecision_call cfg o env d candidate with ⟨target, hcall⟩ | hcall
      · exact ⟨_, hcall, failing_updateSkill⟩
      · exact ⟨_, hcall, failing_createSkill none⟩
    rw [hcall] at hfails ⊢
    have hstate : (onRegistry m t).state.registry.db.operations (installKey o.runId) = none := by
      change (m t.registry).result.mapError RegistryError.shown = .error e at hfails
      cases hresult : (m t.registry).result with
      | ok created =>
        rw [hresult] at hfails
        cases hfails
      | error raised => exact hm t.registry raised hnone hresult
    intro id hid
    unfold Installed at hid
    rw [hstate] at hid
    cases hid
  · exact (installDecision_again hnone hreported).2

/-! ## Executions -/

theorem appliedAction_updated (d : SkillLearningDecision) :
    (if d.action = .updateSkill then SkillAction.updated else .created) = .updated ↔
      d.action = .updateSkill := by
  split
  next haction => exact iff_of_true rfl haction
  next haction => exact iff_of_false (by decide) haction

/-- The program keeps to one change and one report, and where it is not interrupted what it
installs is reported. -/
def Honest {α : Type} (runId : String) (s : LearningStores) (m : OutcomeM α)
    (t : LearningStores) : Prop :=
  Durable.Stays (Mined runId s) m t ∧ (RunReported runId t → RunReported runId (m t).state)

theorem honest_quiet {α : Type} {m : OutcomeM α}
    (hm : ∀ P, QuietKeeps P runId → Durable.Keeps P m) (ht : Mined runId s t) :
    Honest runId s m t :=
  ⟨(hm _ (quietKeeps_mined runId s)).stays ht,
    fun hreported => ((hm _ (quietKeeps_reported runId)).stays hreported).2⟩

theorem honest_bind {α β : Type} {m : OutcomeM α} {f : α → OutcomeM β} (hm : Honest runId s m t)
    (hf : ∀ a, (m t).result = .ok a → Mined runId s (m t).state →
      Honest runId s (f a) (m t).state) : Honest runId s (m >>= f) t := by
  refine ⟨Durable.stays_bind hm.1 fun a ha hstate => (hf a ha hstate).1, fun hreported => ?_⟩
  exact Durable.ends_bind (fun _ _ => hm.2 hreported) fun a ha =>
    (hf a ha hm.1.2).2 (hm.2 hreported)

theorem honest_applyDecision (h : Mined o.runId s t) (l : Learned)
    (hrecorded : t.registry.db.operations (decisionKey o.runId) = some (.decision d))
    (hvalid : d.Valid) : Honest o.runId s (applyDecision cfg env o d l) t := by
  have herror : ∀ stage e {u : LearningStores}, Mined o.runId s u →
      Honest o.runId s (learningError env o l stage e) u :=
    fun stage e u hu => honest_quiet (fun P hP => quiet_learningError hP l stage e) hu
  unfold applyDecision
  split
  · exact honest_quiet (fun P _ => Durable.keeps_pure l) h
  next hgate =>
    rw [not_or] at hgate
    cases hcandidate : d.candidateSkill with
    | none => exact herror _ _ h
    | some candidate =>
      simp only
      split
      · exact herror _ _ h
      next htarget =>
        have hinstalls := @mined_installDecision cfg o env s t d h candidate hrecorded hvalid
          hgate.2
        -- an installation is honest only with its report
        refine ⟨Durable.stays_bind (Durable.stays_attempt hinstalls) fun result hresult hdone => ?_,
          fun hreported => Durable.ends_bind (fun e he => by cases he) fun result hresult => ?_⟩
        · cases result with
          | error e => exact (herror _ _ hdone).1
          | ok created =>
            obtain ⟨hinstalled, hupdates⟩ := installDecision_installed h hrecorded hvalid hgate.2
              (Except.ok.inj hresult)
            refine Durable.stays_bind (Durable.stays_effect hdone fun _ u hrun => ?_)
              fun _ _ hreports => Durable.stays_pure _ hreports
            cases hrun
            exact (mined_report hdone hinstalled ((appliedAction_updated d).trans hupdates)).1
        · cases result with
          | error e =>
            exact (herror _ _ hinstalls.2).2
              (installDecision_failed (Except.ok.inj hresult) hreported)
          | ok created =>
            obtain ⟨hinstalled, hupdates⟩ := installDecision_installed h hrecorded hvalid hgate.2
              (Except.ok.inj hresult)
            exact Durable.ends_bind (fun e he => by cases he) fun _ _ =>
              (mined_report hinstalls.2 hinstalled ((appliedAction_updated d).trans hupdates)).2

theorem honest_mineSkill (h : Mined o.runId s t) (l : Learned) :
    Honest o.runId s (mineSkill cfg env o view l) t := by
  unfold mineSkill
  split
  · have hdecides : Honest o.runId s
        (Durable.attempt (mineDecision cfg env o view view.skillsUsed)) t :=
      honest_quiet (fun P hP => Durable.keeps_attempt (quiet_mineDecision hP _)) h
    refine honest_bind hdecides fun result hresult hdone => ?_
    cases result with
    | error e => exact honest_quiet (fun P hP => quiet_learningError hP _ _ _) hdone
    | ok d =>
      obtain ⟨hrecorded, hvalid⟩ := mineDecision_recorded (Except.ok.inj hresult)
      exact honest_applyDecision hdone _ hrecorded hvalid
  · exact honest_quiet (fun P _ => Durable.keeps_pure l) h

theorem quiet_terminal {P : LearningStores → Prop} (h : QuietKeeps P o.runId) :
    Durable.Keeps P
      (env.emit o (.other (if o.success then "RunCompleted" else "RunFailed")) "terminal") := by
  refine quiet_emit h (by decide) ?_ fun action => ?_
  · split <;> decide
  · split <;> cases action <;> decide

theorem Mined.stored (h : Mined runId s t) (memory : MemoryStore) :
    Mined runId s (t.withMemory memory) :=
  ⟨h.settled, h.decided, h.reports, h.tagged, h.once⟩

/-- One execution changes at most one skill and reports what it changes. -/
theorem honest_persist (h : Mined o.runId s t) : Honest o.runId s (o.persist cfg env) t := by
  refine honest_bind (honest_quiet (fun P hP => quiet_terminal hP) h) fun _ _ ht => ?_
  refine honest_bind (honest_quiet (fun P _ => Durable.keeps_look _) ht) fun view _ ht => ?_
  refine honest_bind (honest_quiet (fun P hP => quiet_storeEpisode hP _) ht) fun l _ ht => ?_
  refine honest_bind (honest_quiet (fun P hP => quiet_recordOutcomes hP _) ht) fun l _ ht => ?_
  refine honest_bind (honest_quiet (fun P hP => quiet_consolidate hP _) ht) fun l _ ht => ?_
  refine honest_bind (honest_mineSkill ht _) fun l _ ht => ?_
  refine honest_bind (honest_quiet (fun P hP => quiet_recordLessons hP _) ht) fun l _ ht => ?_
  exact honest_quiet (fun P _ => Durable.keeps_pure _) ht

theorem executions_mined (cfg : OutcomeConfig) (xs : List OutcomeExecution)
    (hrun : ∀ x ∈ xs, x.outcome.runId = runId) (ht : Mined runId s t) :
    Mined runId s (Run.run (OutcomeExecution.step cfg) t xs) := by
  induction xs generalizing t with
  | nil => exact ht
  | cons x xs ih =>
    rw [Run.run_cons]
    have hx := hrun x List.mem_cons_self
    subst hx
    exact ih (fun y hy => hrun y (List.mem_cons_of_mem _ hy))
      (execution_stays (fun _ h => h.stored _) ht (honest_persist ht).1)

/-- Executions that are not interrupted report what they install. -/
theorem executions_reported (cfg : OutcomeConfig) (xs : List OutcomeExecution)
    (hrun : ∀ x ∈ xs, x.outcome.runId = runId) (hwhole : ∀ x ∈ xs, x.crash = none)
    (ht : Mined runId s t) (hreported : RunReported runId t) :
    RunReported runId (Run.run (OutcomeExecution.step cfg) t xs) := by
  induction xs generalizing t with
  | nil => exact hreported
  | cons x xs ih =>
    rw [Run.run_cons]
    have hx := hrun x List.mem_cons_self
    subst hx
    have hstep : x.step cfg t = (x.outcome.persist cfg x.env t).state := by
      unfold OutcomeExecution.step
      rw [hwhole x List.mem_cons_self]
    refine ih (fun y hy => hrun y (List.mem_cons_of_mem _ hy))
      (fun y hy => hwhole y (List.mem_cons_of_mem _ hy))
      (execution_stays (fun _ h => h.stored _) ht (honest_persist ht).1) ?_
    rw [hstep]
    exact (honest_persist ht).2 hreported

theorem unlearned_reported (h : Unlearned runId s) : RunReported runId s := by
  intro id hid
  unfold Installed at hid
  rw [h.install] at hid
  cases hid

/-! ## The decision in the result -/

theorem yields_learningError (l : Learned) (stage : String) (e : Raised) :
    Durable.Yields (fun l' => l'.learningDecision = l.learningDecision)
      (learningError env o l stage e) :=
  Durable.yields_bind fun _ => Durable.yields_pure rfl

theorem yields_storeEpisode (l : Learned) :
    Durable.Yields (fun l' => l'.learningDecision = l.learningDecision)
      (storeEpisode cfg env o view l) := by
  unfold storeEpisode
  split
  · refine Durable.yields_bind fun result => ?_
    cases result with
    | ok _ => exact Durable.yields_bind fun _ => Durable.yields_pure rfl
    | error e => exact Durable.yields_bind fun _ => Durable.yields_raise _
  · exact Durable.yields_pure rfl

theorem yields_recordUses (skillIds : List String) (l : Learned) :
    Durable.Yields (fun l' => l'.learningDecision = l.learningDecision)
      (recordUses env o view skillIds l) := by
  induction skillIds generalizing l with
  | nil => exact Durable.yields_pure rfl
  | cons skillId rest ih =>
    refine Durable.yields_bind fun found => ?_
    rcases found with e | _ | skill
    · exact yields_learningError _ _ _
    · exact ih l
    · refine Durable.yields_bind fun done => ?_
      cases done with
      | ok _ => exact ih l
      | error e =>
        refine (yields_learningError l _ _).bind fun l' hl' => ?_
        exact fun s a ha => (ih l' s a ha).trans hl'

theorem yields_recordOutcomes (l : Learned) :
    Durable.Yields (fun l' => l'.learningDecision = l.learningDecision)
      (recordOutcomes cfg env o view l) := by
  unfold recordOutcomes
  split
  · exact yields_recordUses _ l
  · exact Durable.yields_pure rfl

theorem yields_consolidate (l : Learned) :
    Durable.Yields (fun l' => l'.learningDecision = l.learningDecision)
      (consolidate cfg env o l) := by
  unfold consolidate
  split
  · refine Durable.yields_bind fun result => ?_
    rcases result with e | _ | memoryId
    · exact yields_learningError _ _ _
    · exact Durable.yields_pure rfl
    · exact Durable.yields_bind fun _ => Durable.yields_pure rfl
  · exact Durable.yields_pure rfl

theorem yields_applyDecision (l : Learned) :
    Durable.Yields (fun l' => l'.learningDecision = l.learningDecision)
      (applyDecision cfg env o d l) := by
  unfold applyDecision
  split
  · exact Durable.yields_pure rfl
  · cases d.candidateSkill with
    | none => exact yields_learningError _ _ _
    | some candidate =>
      simp only
      split
      · exact yields_learningError _ _ _
      · refine Durable.yields_bind fun result => ?_
        cases result with
        | ok created => exact Durable.yields_bind fun _ => Durable.yields_pure rfl
        | error e => exact yields_learningError _ _ _

theorem yields_writeLessons (skillIds : List String) (l : Learned) :
    Durable.Yields (fun l' => l'.learningDecision = l.learningDecision)
      (writeLessons env o view skillIds l) := by
  induction skillIds generalizing l with
  | nil => exact Durable.yields_pure rfl
  | cons skillId rest ih =>
    refine Durable.yields_bind fun result => ?_
    cases result with
    | ok appended =>
      intro s a ha
      refine (ih _ s a ha).trans ?_
      split <;> rfl
    | error e =>
      refine (yields_learningError l _ _).bind fun l' hl' => ?_
      exact fun s a ha => (ih l' s a ha).trans hl'

theorem yields_recordLessons (l : Learned) :
    Durable.Yields (fun l' => l'.learningDecision = l.learningDecision)
      (recordLessons cfg env o view l) := by
  unfold recordLessons
  split
  · exact yields_writeLessons _ l
  · exact Durable.yields_pure rfl

/-- A decision stays recorded while it is applied. -/
theorem decided_applyDecision (l : Learned) :
    Durable.Keeps (fun u => u.registry.db.operations (decisionKey o.runId) = some (.decision d))
      (applyDecision cfg env o d l) := by
  have hquiet := quietKeeps_decided o.runId d
  unfold applyDecision
  split
  · exact Durable.keeps_pure l
  · cases d.candidateSkill with
    | none => exact quiet_learningError hquiet _ _ _
    | some candidate =>
      simp only
      split
      · exact quiet_learningError hquiet _ _ _
      · have hkeeps := fun id => @createKeeps_decided o.runId (some (.decision d)) id o.runId
        have hwithin : ∀ {m : RegistryM RegisteredSkill} {u : LearningStores},
            Durable.Stays (fun r => r.db.operations (decisionKey o.runId) = some (.decision d)) m
              u.registry →
            Durable.Stays (fun w : LearningStores =>
              w.registry.db.operations (decisionKey o.runId) = some (.decision d))
              (onRegistry m) u := by
          intro m u hm
          refine Durable.stays_within ?_
          exact hm
        refine Durable.keeps_bind (Durable.keeps_attempt fun u hu => ?_) fun result => ?_
        · rcases @installDecision_call cfg o env d candidate with ⟨target, hcall⟩ | hcall
          · have hupdate := @stays_updateSkill cfg.registry (env.host .skill) _ target _ candidate
              u.registry hu fun _ => (hkeeps target).toUpdateKeeps
            rw [hcall]
            exact hwithin hupdate
          · have hcreate := @stays_createSkill cfg.registry (env.host .skill) _ _ candidate
              u.registry none hu fun id _ _ => hkeeps id
            rw [hcall]
            exact hwithin hcreate
        · cases result with
          | error e => exact quiet_learningError hquiet _ _ _
          | ok created =>
            refine Durable.keeps_bind (Durable.keeps_effect fun u _ w hrun hu => ?_)
              fun _ => Durable.keeps_pure _
            cases hrun
            exact hu

/-- A decision that mining comes to is the recorded one. -/
theorem mineSkill_decision {l l' : Learned} (hl : l.learningDecision = none)
    (h : (mineSkill cfg env o view l t).result = .ok l') (hd : l'.learningDecision = some d) :
    (mineSkill cfg env o view l t).state.registry.db.operations (decisionKey o.runId) =
      some (.decision d) := by
  unfold mineSkill at h ⊢
  split at h
  next hgate =>
    rw [if_pos hgate]
    obtain ⟨result, hresult, h, hstate⟩ := Durable.bind_result h
    rw [hstate]
    cases result with
    | error e =>
      have hnone : l'.learningDecision = l.learningDecision := yields_learningError l _ _ _ _ h
      rw [hd, hl] at hnone
      cases hnone
    | ok e =>
      have hsome : l'.learningDecision = some e := yields_applyDecision _ _ _ h
      rw [hd] at hsome
      cases hsome
      obtain ⟨hrecorded, -⟩ := mineDecision_recorded (Except.ok.inj hresult)
      exact (decided_applyDecision _ _ hrecorded).2
  next =>
    cases h
    rw [hl] at hd
    cases hd

/-- So is the decision in the result of an execution. -/
theorem persist_decision {update : OutcomeUpdate}
    (h : (o.persist cfg env t).result = .ok update)
    (hd : update.learned.learningDecision = some d) :
    (o.persist cfg env t).state.registry.db.operations (decisionKey o.runId) =
      some (.decision d) := by
  obtain ⟨_, -, h, hstate⟩ := Durable.bind_result h
  unfold RunOutcome.persist
  rw [hstate]
  obtain ⟨_, -, h, hstate⟩ := Durable.bind_result h
  rw [hstate]
  obtain ⟨_, hepisode, h, hstate⟩ := Durable.bind_result h
  rw [hstate]
  obtain ⟨_, huses, h, hstate⟩ := Durable.bind_result h
  rw [hstate]
  obtain ⟨_, hfact, h, hstate⟩ := Durable.bind_result h
  rw [hstate]
  obtain ⟨_, hmined, h, hstate⟩ := Durable.bind_result h
  rw [hstate]
  obtain ⟨_, hlessons, h, hstate⟩ := Durable.bind_result h
  rw [hstate]
  cases h
  have hnone := (yields_consolidate _ _ _ hfact).trans
    ((yields_recordOutcomes _ _ _ huses).trans (yields_storeEpisode _ _ _ hepisode))
  refine (Durable.Keeps.stays (quiet_recordLessons (quietKeeps_decided o.runId d) _) ?_).2
  exact mineSkill_decision hnone hmined ((yields_recordLessons _ _ _ hlessons).symm.trans hd)

end

end EvoCI
