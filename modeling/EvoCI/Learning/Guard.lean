import EvoCI.Learning.Stages

/-! Which skills an outcome may change: the gates of the classes, the constraint on the
miner's decision and the replay of recorded decisions together. -/

namespace EvoCI

open Library

/-- The skill whose directory this is. -/
def Place.owner : Place → Option String
  | .staging _ => none
  | .package skillId | .previous skillId | .oldPrevious skillId _ => some skillId

/-- An outcome may update the skills that the run used, or create one if it used none. -/
structure Allowed (o : RunOutcome) (used : List String) (r : Registry)
    (skillId : String) : Prop where
  success : o.success = true
  graded : o.resolvedClass ∉ [some .infrastructure, some .model, some .budget]
  change : skillId ∈ used ∧ (r.db.skills skillId).isSome ∨
    used = [] ∧ (r.db.skills skillId).isNone

/-- From `r` to `t` only allowed packages and rows changed, and lessons were written only for
used skills. -/
structure Guarded (o : RunOutcome) (used : List String) (r t : Registry) : Prop where
  package : ∀ place skillId, place.owner = some skillId → t.dirs place ≠ r.dirs place →
    Allowed o used r skillId
  row : ∀ skillId, t.db.skills skillId ≠ r.db.skills skillId → Allowed o used r skillId
  lesson : ∀ skillId text, t.memory skillId = some text → t.memory skillId ≠ r.memory skillId →
    skillId ∈ used ∨ text = ""

/-- The decision that is recorded for the run is one for these used skills. -/
def DecisionFits (runId : String) (used : List String) (r : Registry) : Prop :=
  ∀ d, r.db.operations (decisionKey runId) = some (.decision d) → d.Constrained used

/-- What holds throughout an execution that began with the registry `r`. -/
structure GuardedFrom (o : RunOutcome) (used : List String) (r : Registry) (s : LearningStores) :
    Prop where
  same : (buildView s.log).skillsUsed = used
  decision : DecisionFits o.runId used s.registry
  guarded : Guarded o used r s.registry

section

variable {cfg : OutcomeConfig} {o : RunOutcome} {used : List String} {r : Registry}

theorem guarded_refl : Guarded o used r r :=
  ⟨fun _ _ _ h => absurd rfl h, fun _ h => absurd rfl h, fun _ _ _ h => absurd rfl h⟩

theorem ungraded_false (h : o.ungraded = false) :
    o.resolvedClass ∉ [some .infrastructure, some .model, some .budget] := by
  simpa [RunOutcome.ungraded] using h

/-- Rows of other tables changed. -/
theorem guarded_withDb {t : Registry} {db : SkillDatabase} (h : Guarded o used r t)
    (hskills : db.skills = t.db.skills) : Guarded o used r { t with db } :=
  ⟨h.package, fun id hid => h.row id (by rwa [← hskills]), h.lesson⟩

/-- What is allowed at the time is allowed from the start. -/
theorem allowed_of_current {s : LearningStores} {skillId : String} (h : GuardedFrom o used r s)
    (hnow : Allowed o used s.registry skillId) : Allowed o used r skillId := by
  by_cases hrow : s.registry.db.skills skillId = r.db.skills skillId
  · exact ⟨hnow.success, hnow.graded, hrow ▸ hnow.change⟩
  · exact h.guarded.row skillId hrow

theorem operations_of_install {t : Registry} {manifest : SkillManifest} {path : String}
    {candidate : SkillCandidate} {now : Nat} {runId : String} :
    (t.db.upsert manifest path candidate (some (installKey runId)) now).operations
      (decisionKey runId) = t.db.operations (decisionKey runId) := by
  unfold SkillDatabase.upsert
  simp only [installKey, givenKey_operationKey]
  exact Function.update_of_ne (decisionKey_ne_installKey runId runId) _ _

/-- Effects about an allowed skill keep everything guarded. -/
theorem updateKeeps_guarded {s : LearningStores} {skillId : String}
    (h : (buildView s.log).skillsUsed = used) (hallowed : Allowed o used r skillId) :
    UpdateKeeps (fun t => GuardedFrom o used r (s.withRegistry t)) skillId
      (some (installKey o.runId)) where
  put t place package hplace ht := by
    refine ⟨h, ht.decision, fun other id howner hchange => ?_, ht.guarded.row, ht.guarded.lesson⟩
    by_cases hsame : other = place
    · subst hsame
      cases other with
      | staging name => cases howner
      | _ =>
        cases howner
        exact (hplace : _ = skillId) ▸ hallowed
    · refine ht.guarded.package other id howner fun heq => hchange ?_
      exact (dirs_put_of_ne _ _ hsame).trans heq
  upsert t manifest path candidate now hmanifest ht := by
    refine ⟨h, fun d hd => ht.decision d ?_, ht.guarded.package, fun id hchange => ?_,
      ht.guarded.lesson⟩
    · exact operations_of_install.symm.trans hd
    · by_cases hsame : id = skillId
      · exact hsame ▸ hallowed
      · refine ht.guarded.row id fun heq => hchange ?_
        have hother : (t.db.upsert manifest path candidate (some (installKey o.runId)) now).skills
            id = t.db.skills id := Function.update_of_ne (by rw [hmanifest]; exact hsame) _ _
        exact hother.trans heq

theorem createKeeps_guarded {s : LearningStores} {skillId : String}
    (h : (buildView s.log).skillsUsed = used) (hallowed : Allowed o used r skillId) :
    CreateKeeps (fun t => GuardedFrom o used r (s.withRegistry t)) skillId
      (some (installKey o.runId)) where
  toUpdateKeeps := updateKeeps_guarded h hallowed
  root t roots ht :=
    ⟨h, ht.decision, ht.guarded.package, ht.guarded.row, ht.guarded.lesson⟩
  memory t text htext ht := by
    refine ⟨h, ht.decision, ht.guarded.package, ht.guarded.row, fun id found hfound hchange => ?_⟩
    have hfound : Function.update t.memory skillId text id = some found := hfound
    have hchange : Function.update t.memory skillId text id ≠ r.memory id := hchange
    by_cases hsame : id = skillId
    · subst hsame
      rw [Function.update_self] at hfound
      rcases htext with rfl | rfl
      · cases hfound
      · exact Or.inr (Option.some.inj hfound).symm
    · rw [Function.update_of_ne hsame] at hfound hchange
      exact ht.guarded.lesson id found hfound hchange
  removeRoot t ht := by
    refine ⟨h, ht.decision, fun place id howner hchange => ?_, ht.guarded.row,
      fun id found hfound hchange => ?_⟩
    · by_cases hsame : id = skillId
      · exact hsame ▸ hallowed
      · refine ht.guarded.package place id howner fun heq => hchange ?_
        refine Eq.trans ?_ heq
        cases place with
        | staging name => cases howner
        | _ =>
          cases howner
          exact if_neg hsame
    · have hfound : Function.update t.memory skillId none id = some found := hfound
      have hchange : Function.update t.memory skillId none id ≠ r.memory id := hchange
      by_cases hsame : id = skillId
      · subst hsame
        rw [Function.update_self] at hfound
        cases hfound
      · rw [Function.update_of_ne hsame] at hfound hchange
        exact ht.guarded.lesson id found hfound hchange

theorem record_ne {db : SkillDatabase} {key other : String} {result : OperationResult}
    (h : other ≠ key) : (db.record key result).operations other = db.operations other :=
  Function.update_of_ne h _ _

/-- Every effect of an execution keeps to the guard. -/
theorem outcomeKeeps_guarded {a : MemoryAnswers} {view : TrajectoryView}
    (hview : view.skillsUsed = used) : OutcomeKeeps (GuardedFrom o used r) cfg a o view where
  event s event htraces hs :=
    ⟨(skillsUsed_logged htraces).trans hs.same, hs.decision, hs.guarded⟩
  leftOpen s hs := ⟨hs.same, hs.decision, hs.guarded⟩
  rolledBack s hs := ⟨hs.same, hs.decision, hs.guarded⟩
  episode s m e _ _ _ _ hs := ⟨hs.same, hs.decision, hs.guarded⟩
  unindexed s e _ _ _ _ hs := ⟨hs.same, hs.decision, hs.guarded⟩
  proposal s m candidate _ hs := ⟨hs.same, hs.decision, hs.guarded⟩
  noFact s m _ _ hs := ⟨hs.same, hs.decision, hs.guarded⟩
  fact s memory now _ _ _ hs := ⟨hs.same, hs.decision, hs.guarded⟩
  use s skillId now _ _ _ _ hs := by
    refine ⟨hs.same, fun d hd => hs.decision d ?_, guarded_withDb hs.guarded rfl⟩
    exact (record_ne (decisionKey_ne_useKey _ _ _)).symm.trans hd
  decision s d _ hconstrained hnone hs := by
    refine ⟨hs.same, fun e he => ?_, guarded_withDb hs.guarded rfl⟩
    have hrecorded : Function.update s.registry.db.operations (decisionKey o.runId) (some
        ((s.registry.db.operations (decisionKey o.runId)).getD (.decision d)))
        (decisionKey o.runId) = some (.decision e) := he
    rw [Function.update_self, hnone] at hrecorded
    cases hrecorded
    exact hview ▸ hconstrained
  update s d target ho hgraded _ haction htarget hrecorded hget hs := by
    refine ⟨_, updateKeeps_guarded hs.same (allowed_of_current hs
      ⟨ho, ungraded_false hgraded, ?_⟩), hs, fun _ h => h⟩
    exact Or.inl ⟨(hs.decision d hrecorded).target haction target htarget, skills_of_get hget⟩
  create s d candidate id ho hgraded _ haction _ hrecorded _ hget hs := by
    refine ⟨_, createKeeps_guarded hs.same (allowed_of_current hs
      ⟨ho, ungraded_false hgraded, ?_⟩), hs, fun _ h => h⟩
    refine Or.inr ⟨(hs.decision d hrecorded).fresh haction, ?_⟩
    rw [Option.isNone_iff_eq_none]
    unfold Registry.get at hget
    exact Option.map_eq_none_iff.mp hget
  lesson s skillId entry _ hused _ _ _ _ hs := by
    refine ⟨hs.same, hs.decision, hs.guarded.package, hs.guarded.row,
      fun id text htext hchange => ?_⟩
    by_cases hsame : id = skillId
    · exact Or.inl (hsame ▸ hview ▸ hused)
    · have hother : (s.registry.remember skillId entry).memory id = s.registry.memory id :=
        Function.update_of_ne hsame _ _
      exact hs.guarded.lesson id text (hother.symm.trans htext)
        fun heq => hchange (hother.trans heq)

end

/-- An execution changes what its outcome allows, and leaves a fitting decision. -/
theorem execution_guarded (cfg : OutcomeConfig) (x : OutcomeExecution) (s : LearningStores)
    (hdecision : DecisionFits x.outcome.runId (buildView s.log).skillsUsed s.registry) :
    GuardedFrom x.outcome (buildView s.log).skillsUsed s.registry (x.step cfg s) := by
  have hs : GuardedFrom x.outcome (buildView s.log).skillsUsed s.registry s :=
    ⟨rfl, hdecision, guarded_refl⟩
  exact execution_leaves (outcomeKeeps_guarded (skillsUsed_logged (terminal_traces _ _ _))) hs

/-! ## Between other runs -/

/-- An execution of this run, or one of another run, with its own log, on the same stores. -/
inductive OutcomeTurn where
  | own (x : OutcomeExecution)
  | other (x : OutcomeExecution) (log : List TrajectoryEvent)

def OutcomeTurn.step (cfg : OutcomeConfig) (turn : OutcomeTurn) (s : LearningStores) :
    LearningStores :=
  match turn with
  | .own x => x.step cfg s
  | .other x log => { x.step cfg { s with log } with log := s.log }

/-- The turns are those of this run and of others. -/
def OutcomeTurn.Of (runId : String) : OutcomeTurn → Prop
  | .own x => x.outcome.runId = runId
  | .other x _ => x.outcome.runId ≠ runId

section

variable {cfg : OutcomeConfig} {o : RunOutcome} {runId : String}
  {decided : Option OperationResult}

theorem decisionKey_ne_of_run (hrun : o.runId ≠ runId) : decisionKey runId ≠ decisionKey o.runId :=
  fun h => hrun (operationKey_injective (by decide) (by decide) h).2.symm

theorem createKeeps_decided {skillId runId' : String} :
    CreateKeeps (fun r => r.db.operations (decisionKey runId) = decided) skillId
      (some (installKey runId')) where
  put _ _ _ _ hr := hr
  upsert r manifest path candidate now _ hr := by
    refine Eq.trans ?_ hr
    unfold SkillDatabase.upsert
    simp only [installKey, givenKey_operationKey]
    exact Function.update_of_ne (decisionKey_ne_installKey runId runId') _ _
  root _ _ hr := hr
  memory _ _ _ hr := hr
  removeRoot _ hr := hr

/-- Other runs leave the decision of this one as it is. -/
theorem outcomeKeeps_decided {a : MemoryAnswers} {view : TrajectoryView} (hrun : o.runId ≠ runId) :
    OutcomeKeeps (fun s => s.registry.db.operations (decisionKey runId) = decided) cfg a o
      view where
  event _ _ _ hs := hs
  leftOpen _ hs := hs
  rolledBack _ hs := hs
  episode _ _ _ _ _ _ _ hs := hs
  unindexed _ _ _ _ _ _ hs := hs
  proposal _ _ _ _ hs := hs
  noFact _ _ _ _ hs := hs
  fact _ _ _ _ _ _ hs := hs
  use _ _ _ _ _ _ _ hs := (record_ne (decisionKey_ne_useKey _ _ _)).trans hs
  decision _ _ _ _ _ hs := (record_ne (decisionKey_ne_of_run hrun)).trans hs
  update _ _ _ _ _ _ _ _ _ _ hs := ⟨_, createKeeps_decided.toUpdateKeeps, hs, fun _ h => h⟩
  create _ _ _ _ _ _ _ _ _ _ _ _ hs := ⟨_, createKeeps_decided, hs, fun _ h => h⟩
  lesson _ _ _ _ _ _ _ _ _ hs := hs

end

/-- Over all executions of a run the recorded decision fits the used skills, whatever other runs
do between them. -/
theorem turns_fit (cfg : OutcomeConfig) (runId : String) (used : List String)
    (turns : List OutcomeTurn) (s : LearningStores) (hrun : ∀ turn ∈ turns, turn.Of runId)
    (hused : (buildView s.log).skillsUsed = used) (hs : DecisionFits runId used s.registry) :
    (buildView (Run.run (OutcomeTurn.step cfg) s turns).log).skillsUsed = used ∧
      DecisionFits runId used (Run.run (OutcomeTurn.step cfg) s turns).registry := by
  induction turns generalizing s with
  | nil => exact ⟨hused, hs⟩
  | cons turn turns ih =>
    have hturn := hrun turn List.mem_cons_self
    rw [Run.run_cons]
    cases turn with
    | own x =>
      have hx : x.outcome.runId = runId := hturn
      have hstep := execution_guarded cfg x s (by rw [hx, hused]; exact hs)
      refine ih _ (fun y hy => hrun y (List.mem_cons_of_mem _ hy)) (hstep.same.trans hused) ?_
      rw [← hx, ← hused]
      exact hstep.decision
    | other x log =>
      refine ih _ (fun y hy => hrun y (List.mem_cons_of_mem _ hy)) hused fun d hd => hs d ?_
      have hkept : (x.step cfg { s with log }).registry.db.operations (decisionKey runId) =
          s.registry.db.operations (decisionKey runId) :=
        execution_leaves (outcomeKeeps_decided hturn) rfl
      exact hkept.symm.trans hd

/-- In every execution of a run, whether its decision is new or replayed, whatever the models
answer, wherever it ends and whatever other runs do in between: packages change only if the outcome
is a success outside the excluded classes, an existing skill only if it was used, a new one only if
none was, and lessons are written only for used skills. -/
theorem packages_guarded (cfg : OutcomeConfig) (runId : String) (turns : List OutcomeTurn)
    (x : OutcomeExecution) (s : LearningStores) (hrun : ∀ turn ∈ turns, turn.Of runId)
    (hx : x.outcome.runId = runId)
    (hfresh : s.registry.db.operations (decisionKey runId) = none) :
    Guarded x.outcome (buildView s.log).skillsUsed
      (Run.run (OutcomeTurn.step cfg) s turns).registry
      (x.step cfg (Run.run (OutcomeTurn.step cfg) s turns)).registry := by
  have hfits : DecisionFits runId (buildView s.log).skillsUsed s.registry := by
    intro d hd
    rw [hfresh] at hd
    cases hd
  obtain ⟨hused, hdecision⟩ := turns_fit cfg runId _ turns s hrun rfl hfits
  have hguarded := execution_guarded cfg x (Run.run (OutcomeTurn.step cfg) s turns)
    (by rw [hx, hused]; exact hdecision)
  rw [← hused]
  exact hguarded.guarded

namespace Sample

def outcomeConfig : OutcomeConfig where
  registry := registryConfig
  memory := ⟨id, id⟩

/-- A run that called a tool and used the skill `debug`. -/
def usedDebug : LearningStores where
  log := [⟨some "1", some "worker", some "i", 0, .repair, .toolCall "c" "read_file" {}⟩,
    ⟨some "2", some "worker", some "i", 1, .repair,
      .skillUsed ["debug"] (some .procedure) none none⟩]
  memory := MemoryStore.empty
  registry := oneSkill

def updateDebug : SkillLearningDecision where
  action := .updateSkill
  rationale := ""
  candidateSkill := some { skillCandidate with skillMd := "# Debug\n" }
  targetSkillId := some "debug"

/-- Everything succeeds, and the miner answers so. -/
def answering (token : String) (decision : SkillLearningDecision) : OutcomeEnv where
  clock n := n + 2
  memory := ⟨1, fun _ => none⟩
  host _ := succeeding token
  proposal := .ok ⟨.none, none, 0⟩
  decision := .ok decision
  repaired := .ok decision
  createdAt := ""

def succeeded : RunOutcome where
  runId := "run"
  repo := "owner/repo"
  taskFamily := ""
  summary := ""
  state := { failedCommands := [] }
  success := true

/-- The process ends behind the record of the decision. -/
def decidedOnly : OutcomeExecution where
  outcome := succeeded
  env := answering "b" updateDebug
  crash := some 6

/-- Now the miner would create a skill. -/
def replay : OutcomeExecution where
  outcome := succeeded
  env := answering "c" { updateDebug with action := .newSkill, targetSkillId := none }

/-- Another run that used the skill breaks down, and its process ends behind its decision. -/
def elsewhere : OutcomeTurn :=
  .other { outcome := { succeeded with runId := "other", success := false }
           env := answering "d" updateDebug
           crash := some 6 } usedDebug.log

theorem replayed_update_guarded :
    (replay.step outcomeConfig (Run.run (OutcomeTurn.step outcomeConfig) usedDebug
        [.own decidedOnly, elsewhere])).registry.dirs (.package "debug") ≠
        oneSkill.dirs (.package "debug") ∧
      Guarded succeeded (buildView usedDebug.log).skillsUsed
        (Run.run (OutcomeTurn.step outcomeConfig) usedDebug [.own decidedOnly, elsewhere]).registry
        (replay.step outcomeConfig (Run.run (OutcomeTurn.step outcomeConfig) usedDebug
          [.own decidedOnly, elsewhere])).registry := by
  refine ⟨by decide +kernel, ?_⟩
  refine packages_guarded outcomeConfig "run" [.own decidedOnly, elsewhere] replay usedDebug ?_ rfl
    (by decide +kernel)
  intro turn hturn
  simp only [List.mem_cons, List.not_mem_nil, or_false] at hturn
  rcases hturn with rfl | rfl
  · rfl
  · exact show "other" ≠ "run" by decide

end Sample

end EvoCI
