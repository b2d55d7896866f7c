import EvoCI.Capability.Frame

/-! An installation and the record of its operation go together: a call that fails has not
recorded it, one that returns has, and a recorded one is not repeated. -/

namespace EvoCI

open Library

/-! ## Calls that fail -/

section

variable {cfg : RegistryConfig} {a : HostAnswers} {candidate : SkillCandidate}
  {skillId key : String}

/-- Without a key no operation is recorded. -/
theorem createKeeps_unkeyed (key : String) :
    CreateKeeps (fun t => t.db.operations key = none) skillId none where
  put _ _ _ _ ht := ht
  upsert _ _ _ _ _ _ ht := ht
  root _ _ ht := ht
  memory _ _ _ ht := ht
  removeRoot _ ht := ht

theorem failing_putInPlace (name : String) (manifest : SkillManifest) :
    Durable.KeepsFailing (fun t => t.db.operations key = none)
      (putInPlace cfg a skillId name manifest candidate (some key)) := by
  refine Durable.failing_bind ?_ fun _ => Durable.failing_effect
  exact keeps_rename (@createKeeps_unkeyed skillId key).toUpdateKeeps trivial rfl

theorem failing_installUpdate (name : String) (manifest : SkillManifest) :
    Durable.KeepsFailing (fun t => t.db.operations key = none)
      (installUpdate cfg a skillId name manifest candidate (some key)) := by
  have hkeeps := (@createKeeps_unkeyed skillId key).toUpdateKeeps
  refine Durable.failing_bind (Durable.keeps_onlyIf (Durable.keeps_bind
    (keeps_remove hkeeps trivial) fun _ => Durable.keeps_raise _)) fun _ => ?_
  refine Durable.failing_bind (keeps_makeReadonly hkeeps name) fun _ => ?_
  refine Durable.failing_bind (Durable.keeps_onError ?_ (keeps_undoUpdate hkeeps name false))
    fun _ => ?_
  · exact Durable.keeps_bind (Durable.keeps_onlyIf (keeps_rename hkeeps rfl rfl)) fun _ =>
      keeps_rename hkeeps rfl rfl
  -- nothing fails behind the rows
  refine Durable.failing_last (Durable.failing_onError (failing_putInPlace name manifest)
    (keeps_undoUpdate hkeeps name true)) fun _ t e he => ?_
  cases he

theorem failing_installNew (name : String) (manifest : SkillManifest) :
    Durable.KeepsFailing (fun t => t.db.operations key = none)
      (installNew cfg a skillId name manifest candidate (some key)) := by
  have hkeeps := @createKeeps_unkeyed skillId key
  refine Durable.failing_bind (Durable.keeps_onlyIf (Durable.keeps_raise _)) fun _ => ?_
  refine Durable.failing_bind (Durable.keeps_look _) fun before => ?_
  refine Durable.failing_bind (keeps_readyRoot hkeeps name before) fun _ => ?_
  refine Durable.failing_last (Durable.failing_onError (failing_putInPlace name manifest)
    (keeps_undoNew hkeeps name before)) fun _ t e he => ?_
  cases he

/-- An installation that fails has not been recorded. -/
theorem failing_updateSkill :
    Durable.KeepsFailing (fun t => t.db.operations key = none)
      (updateSkill cfg a skillId candidate (some key)) := by
  have hkeeps := (@createKeeps_unkeyed skillId key).toUpdateKeeps
  refine Durable.failing_bind (Durable.keeps_look _) fun prior => ?_
  cases prior with
  | some existing => exact (Durable.keeps_pure _).failing
  | none =>
    refine Durable.failing_bind (Durable.keeps_look _) fun found => ?_
    cases found with
    | none => exact (Durable.keeps_raise _).failing
    | some current =>
      refine Durable.failing_bind (keeps_writeStaging hkeeps _) fun staged => ?_
      refine Durable.failing_onError ?_ (keeps_remove hkeeps trivial)
      exact Durable.failing_bind (Durable.keeps_look _) fun _ => failing_installUpdate _ _

theorem failing_createSkill (given : Option String) :
    Durable.KeepsFailing (fun t => t.db.operations key = none)
      (createSkill cfg a candidate given (some key)) := by
  refine Durable.failing_bind (Durable.keeps_look _) fun prior => ?_
  cases prior with
  | some existing => exact (Durable.keeps_pure _).failing
  | none =>
    refine Durable.failing_bind (Durable.keeps_look _) fun id => ?_
    refine Durable.failing_bind (Durable.keeps_look _) fun found => ?_
    cases found with
    | some existing => exact (Durable.keeps_raise _).failing
    | none =>
      have hkeeps := (@createKeeps_unkeyed id key).toUpdateKeeps
      refine Durable.failing_bind (keeps_writeStaging hkeeps _) fun staged => ?_
      refine Durable.failing_onError ?_ (keeps_remove hkeeps trivial)
      exact Durable.failing_bind (Durable.keeps_look _) fun _ => failing_installNew _ _

/-! ## What an installation returns -/

/-- The skill of the operation, or none when it is not recorded. -/
theorem prior_cases {r : Registry} {prior : Option RegisteredSkill}
    (hkey : givenKey (some key) = some key)
    (h : (priorSkill a (some key) r).result = .ok prior) :
    r.db.operations key = none ∧ prior = none ∨
      ∃ id skill, prior = some skill ∧ r.db.operations key = some (.skill id) ∧
        r.get id = some skill := by
  cases prior with
  | none => exact Or.inl ⟨operation_unapplied h hkey, rfl⟩
  | some skill =>
    unfold priorSkill at h
    rw [Durable.look_run, hkey] at h
    cases hcheck : a.check .readOperation with
    | error e =>
      rw [hcheck] at h
      cases h
    | ok _ =>
      cases hoperation : r.db.operations key with
      | none => simp [hcheck, hoperation] at h
      | some result =>
        cases result with
        | skill id =>
          cases hread : a.check .readSkill with
          | error e => simp [hcheck, hoperation, hread] at h
          | ok _ =>
            cases hget : r.get id with
            | none => simp [hcheck, hoperation, hread, hget] at h
            | some found =>
              simp only [hcheck, hoperation, hread, hget] at h
              cases h
              exact Or.inr ⟨id, skill, rfl, rfl, hget⟩
        | _ => simp [hcheck, hoperation] at h

/-- The rows are there when they were put in place. -/
theorem putInPlace_records {name : String} {manifest : SkillManifest} {r : Registry}
    (hkey : givenKey (some key) = some key)
    (h : (putInPlace cfg a skillId name manifest candidate (some key) r).result = .ok ()) :
    ((putInPlace cfg a skillId name manifest candidate (some key) r).state.db.operations
      key).isSome := by
  obtain ⟨_, -, hrows, hstate⟩ := Durable.bind_result h
  unfold putInPlace
  rw [hstate]
  unfold upsertRows HostAnswers.effect at hrows ⊢
  have heffect := Durable.effect_result hrows
  have hdone := congrArg (fun p : Unit × Registry => (p.2.db.operations key).isSome)
    (guarded_ok heffect)
  refine hdone.symm.trans ?_
  simp only [SkillDatabase.upsert, hkey, Function.update_self]
  rfl

theorem installUpdate_records {name : String} {manifest : SkillManifest} {r : Registry}
    {created : RegisteredSkill} (hkey : givenKey (some key) = some key)
    (h : (installUpdate cfg a skillId name manifest candidate (some key) r).result =
      .ok created) :
    created.manifest = manifest ∧ ((installUpdate cfg a skillId name manifest candidate
      (some key) r).state.db.operations key).isSome := by
  obtain ⟨_, -, h, hstate⟩ := Durable.bind_result h
  unfold installUpdate
  rw [hstate]
  obtain ⟨_, -, h, hstate⟩ := Durable.bind_result h
  rw [hstate]
  obtain ⟨_, -, h, hstate⟩ := Durable.bind_result h
  rw [hstate]
  obtain ⟨_, hput, h, hstate⟩ := Durable.bind_result h
  rw [hstate]
  have hdone := Durable.onError_result hput
  rw [Durable.onError_state hdone] at h ⊢
  cases h
  exact ⟨rfl, putInPlace_records hkey hdone⟩

theorem installNew_records {name : String} {manifest : SkillManifest} {r : Registry}
    {created : RegisteredSkill} (hkey : givenKey (some key) = some key)
    (h : (installNew cfg a skillId name manifest candidate (some key) r).result =
      .ok created) :
    created.manifest = manifest ∧ ((installNew cfg a skillId name manifest candidate
      (some key) r).state.db.operations key).isSome := by
  obtain ⟨_, -, h, hstate⟩ := Durable.bind_result h
  unfold installNew
  rw [hstate]
  obtain ⟨_, -, h, hstate⟩ := Durable.bind_result h
  rw [hstate]
  obtain ⟨_, -, h, hstate⟩ := Durable.bind_result h
  rw [hstate]
  obtain ⟨_, hput, h, hstate⟩ := Durable.bind_result h
  rw [hstate]
  have hdone := Durable.onError_result hput
  rw [Durable.onError_state hdone] at h ⊢
  cases h
  exact ⟨rfl, putInPlace_records hkey hdone⟩

/-- An update that returns was applied before, or is applied now. -/
theorem updateSkill_returns {r : Registry} {created : RegisteredSkill}
    (hkey : givenKey (some key) = some key)
    (h : (updateSkill cfg a skillId candidate (some key) r).result = .ok created) :
    (∃ id, r.db.operations key = some (.skill id) ∧ r.get id = some created) ∨
      r.db.operations key = none ∧ created.manifest.skillId = skillId ∧
        ((updateSkill cfg a skillId candidate (some key) r).state.db.operations key).isSome := by
  obtain ⟨prior, hprior, h, hstate⟩ := Durable.bind_result h
  rcases prior_cases hkey hprior with ⟨hnone, rfl⟩ | ⟨id, skill, rfl, hoperation, hget⟩
  · refine Or.inr ⟨hnone, ?_⟩
    unfold updateSkill
    rw [hstate]
    obtain ⟨found, -, h, hstate⟩ := Durable.bind_result h
    rw [hstate]
    cases found with
    | none => cases h
    | some current =>
      obtain ⟨staged, hstaged, h, hstate⟩ := Durable.bind_result h
      rw [hstate]
      have hdone := Durable.onError_result h
      rw [Durable.onError_state hdone]
      obtain ⟨_, -, h, hstate⟩ := Durable.bind_result hdone
      rw [hstate]
      obtain ⟨hmanifest, hrecorded⟩ := installUpdate_records hkey h
      exact ⟨hmanifest ▸ writeStaging_skillId hstaged, hrecorded⟩
  · cases h
    exact Or.inl ⟨id, hoperation, hget⟩

theorem createSkill_returns {r : Registry} {created : RegisteredSkill}
    (hkey : givenKey (some key) = some key)
    (h : (createSkill cfg a candidate none (some key) r).result = .ok created) :
    (∃ id, r.db.operations key = some (.skill id) ∧ r.get id = some created) ∨
      r.db.operations key = none ∧ slug cfg candidate.name = .ok created.manifest.skillId ∧
        ((createSkill cfg a candidate none (some key) r).state.db.operations key).isSome := by
  obtain ⟨prior, hprior, h, hstate⟩ := Durable.bind_result h
  rcases prior_cases hkey hprior with ⟨hnone, rfl⟩ | ⟨id, skill, rfl, hoperation, hget⟩
  · refine Or.inr ⟨hnone, ?_⟩
    unfold createSkill
    rw [hstate]
    obtain ⟨id, hid, h, hstate⟩ := Durable.bind_result h
    rw [hstate]
    obtain ⟨found, -, h, hstate⟩ := Durable.bind_result h
    rw [hstate]
    cases found with
    | some existing => cases h
    | none =>
      obtain ⟨staged, hstaged, h, hstate⟩ := Durable.bind_result h
      rw [hstate]
      have hdone := Durable.onError_result h
      rw [Durable.onError_state hdone]
      obtain ⟨_, -, h, hstate⟩ := Durable.bind_result hdone
      rw [hstate]
      obtain ⟨hmanifest, hrecorded⟩ := installNew_records hkey h
      refine ⟨?_, hrecorded⟩
      rw [hmanifest, writeStaging_skillId hstaged]
      exact hid
  · cases h
    exact Or.inl ⟨id, hoperation, hget⟩

/-- An installation that is recorded is not repeated. -/
theorem updateSkill_again {P : Registry → Prop} {r : Registry}
    (hkey : givenKey (some key) = some key)
    (hinstalled : r.db.operations key ≠ none) (hr : P r) :
    Durable.Stays P (updateSkill cfg a skillId candidate (some key)) r := by
  refine Durable.stays_look_bind hr fun prior hprior => ?_
  rcases prior_cases hkey hprior with ⟨hnone, -⟩ | ⟨_, _, rfl, -, -⟩
  · exact absurd hnone hinstalled
  · exact Durable.stays_pure _ hr

theorem createSkill_again {P : Registry → Prop} {r : Registry} {given : Option String}
    (hkey : givenKey (some key) = some key) (hinstalled : r.db.operations key ≠ none) (hr : P r) :
    Durable.Stays P (createSkill cfg a candidate given (some key)) r := by
  refine Durable.stays_look_bind hr fun prior hprior => ?_
  rcases prior_cases hkey hprior with ⟨hnone, -⟩ | ⟨_, _, rfl, -, -⟩
  · exact absurd hnone hinstalled
  · exact Durable.stays_pure _ hr

theorem slug_ne_empty {value id : String} (h : slug cfg value = .ok id) : id ≠ "" := by
  unfold slug at h
  simp only at h
  split at h
  · cases h
  next hchars =>
    cases h
    intro hempty
    have hlist := congrArg String.toList hempty
    rw [String.toList_ofList] at hlist
    have hlength := congrArg List.length hlist
    rw [List.length_take] at hlength
    change min 80 _ = 0 at hlength
    have hpositive := List.length_pos_of_ne_nil hchars
    omega

end

end EvoCI
