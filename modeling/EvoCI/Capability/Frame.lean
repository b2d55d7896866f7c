import EvoCI.Capability.RegistryCrash

/-! What installing a package leaves alone: every effect of a creation or an update is about
one skill. -/

namespace EvoCI

open Library

/-- The directory is a staging directory or belongs to the skill. -/
def Place.Concerns (id : String) : Place → Prop
  | .staging _ => True
  | .package skillId | .previous skillId | .oldPrevious skillId _ => skillId = id

/-- The predicate survives the effects of an update of the skill. -/
structure UpdateKeeps (inv : Registry → Prop) (id : String) (operationKey : Option String) :
    Prop where
  put : ∀ t place package, place.Concerns id → inv t → inv (t.put place package)
  upsert : ∀ (t : Registry) manifest path candidate now, manifest.skillId = id → inv t →
    inv { t with db := t.db.upsert manifest path candidate operationKey now }

/-- The predicate survives the effects of a creation of the skill. -/
structure CreateKeeps (inv : Registry → Prop) (id : String) (operationKey : Option String) : Prop
    extends UpdateKeeps inv id operationKey where
  root : ∀ (t : Registry) roots, inv t → inv { t with roots }
  memory : ∀ (t : Registry) text, text = none ∨ text = some "" → inv t →
    inv { t with memory := Function.update t.memory id text }
  removeRoot : ∀ t, inv t → inv (t.removeRoot id)

/-- A call that does not fail has its effect. -/
theorem guarded_ok {ε α : Type} {check : Except ε Unit} {done found : α}
    (h : (check.map fun _ => done) = .ok found) : done = found := by
  cases check with
  | error e => cases h
  | ok _ => exact Except.ok.inj h

section

variable {cfg : RegistryConfig} {a : HostAnswers} {inv : Registry → Prop} {id : String}
  {operationKey : Option String} {candidate : SkillCandidate} {manifest : SkillManifest}

theorem keeps_remove {step : RegistryStep} {place : Place} (h : UpdateKeeps inv id operationKey)
    (hplace : place.Concerns id) : Durable.Keeps inv (remove step place) :=
  keeps_always fun t ht => h.put t place none hplace ht

theorem keeps_rename {step : RegistryStep} {source target : Place}
    (h : UpdateKeeps inv id operationKey) (hsource : source.Concerns id)
    (htarget : target.Concerns id) : Durable.Keeps inv (a.rename step source target) := by
  refine Durable.keeps_effect fun s u t hrun hs => ?_
  split at hrun
  all_goals try cases hrun
  exact h.put _ target _ htarget (h.put s source none hsource hs)

theorem keeps_writeFiles (h : UpdateKeeps inv id operationKey) (name : String) (n : Nat)
    (files : List GeneratedFile) : Durable.Keeps inv (writeFiles a name n files) := by
  induction files generalizing n with
  | nil => exact Durable.keeps_pure ()
  | cons generated files ih =>
    refine Durable.keeps_bind (Durable.keeps_look _) fun _ => ?_
    refine Durable.keeps_bind (keeps_hostEffect fun t ht => ?_) fun _ => ih (n + 1)
    exact h.put t _ _ trivial ht

theorem keeps_writeStaging (h : UpdateKeeps inv id operationKey) (lineage : Lineage) :
    Durable.Keeps inv (writeStaging cfg a candidate id lineage) := by
  refine Durable.keeps_bind ?_ fun _ => Durable.keeps_bind (Durable.keeps_look _) fun files => ?_
  · refine Durable.keeps_effect fun s u t hrun hs => ?_
    split at hrun
    all_goals try cases hrun
    exact h.put s _ _ trivial hs
  · refine Durable.keeps_onError ?_ (keeps_remove h trivial)
    refine Durable.keeps_bind (keeps_writeFiles h _ _ _) fun _ => ?_
    refine Durable.keeps_bind (keeps_hostEffect fun t ht => ?_) fun _ => Durable.keeps_pure _
    exact h.put t _ _ trivial ht

/-- What was staged is a manifest of the skill. -/
theorem writeStaging_skillId {lineage : Lineage} {r : Registry} {staged : String × SkillManifest}
    (h : (writeStaging cfg a candidate id lineage r).result = .ok staged) :
    staged.2.skillId = id := by
  obtain ⟨_, -, h, -⟩ := Durable.bind_result h
  obtain ⟨_, -, h, -⟩ := Durable.bind_result h
  obtain ⟨_, -, h, -⟩ := Durable.bind_result (Durable.onError_result h)
  obtain ⟨_, -, h, -⟩ := Durable.bind_result h
  cases h
  rfl

theorem keeps_makeReadonly (h : UpdateKeeps inv id operationKey) (name : String) :
    Durable.Keeps inv (makeReadonly a name) :=
  keeps_hostEffect fun t ht => h.put t _ _ trivial ht

theorem keeps_putInPlace (h : UpdateKeeps inv id operationKey) (name : String)
    (hmanifest : manifest.skillId = id) :
    Durable.Keeps inv (putInPlace cfg a id name manifest candidate operationKey) :=
  Durable.keeps_bind (keeps_rename h trivial rfl) fun _ =>
    keeps_hostEffect fun t ht => h.upsert t _ _ _ _ hmanifest ht

theorem keeps_undoUpdate (h : UpdateKeeps inv id operationKey) (name : String) (moved : Bool) :
    Durable.Keeps inv (undoUpdate a id name moved) := by
  refine Durable.keeps_bind (Durable.keeps_onlyIf (keeps_remove h rfl)) fun _ => ?_
  refine Durable.keeps_bind (Durable.keeps_onlyIf (keeps_always fun t ht => ?_)) fun _ => ?_
  · exact h.put _ _ _ rfl (h.put t _ _ rfl ht)
  refine Durable.keeps_bind (Durable.keeps_onlyIf (keeps_always fun t ht => ?_)) fun _ => ?_
  · exact h.put _ _ _ rfl (h.put t _ _ rfl ht)
  exact keeps_remove h trivial

theorem keeps_installUpdate (h : UpdateKeeps inv id operationKey) (name : String)
    (hmanifest : manifest.skillId = id) :
    Durable.Keeps inv (installUpdate cfg a id name manifest candidate operationKey) := by
  refine Durable.keeps_bind (Durable.keeps_onlyIf (Durable.keeps_bind (keeps_remove h trivial)
    fun _ => Durable.keeps_raise _)) fun _ => ?_
  refine Durable.keeps_bind (keeps_makeReadonly h name) fun _ => ?_
  refine Durable.keeps_bind (Durable.keeps_onError ?_ (keeps_undoUpdate h name false)) fun _ => ?_
  · exact Durable.keeps_bind (Durable.keeps_onlyIf (keeps_rename h rfl rfl)) fun _ =>
      keeps_rename h rfl rfl
  refine Durable.keeps_bind (Durable.keeps_onError (keeps_putInPlace h name hmanifest)
    (keeps_undoUpdate h name true)) fun _ => ?_
  exact Durable.keeps_bind (keeps_remove h rfl) fun _ => Durable.keeps_pure _

theorem keeps_readyRoot (h : CreateKeeps inv id operationKey) (name : String)
    (before : Registry) : Durable.Keeps inv (readyNew a id name before) := by
  refine Durable.keeps_bind (keeps_hostEffect fun t ht => h.root t _ ht) fun _ => ?_
  refine Durable.keeps_bind (Durable.keeps_onlyIf
    (keeps_hostEffect fun t ht => h.memory t _ (Or.inr rfl) ht)) fun _ => ?_
  exact keeps_makeReadonly h.toUpdateKeeps name

theorem keeps_undoNew (h : CreateKeeps inv id operationKey) (name : String)
    (before : Registry) : Durable.Keeps inv (undoNew id name before) := by
  refine Durable.keeps_bind (keeps_remove h.toUpdateKeeps rfl) fun _ => ?_
  refine Durable.keeps_bind (Durable.keeps_onlyIf
    (keeps_always fun t ht => h.memory t _ (Or.inl rfl) ht)) fun _ => ?_
  refine Durable.keeps_bind (Durable.keeps_onlyIf
    (keeps_always fun t ht => h.removeRoot t ht)) fun _ => ?_
  exact keeps_remove h.toUpdateKeeps trivial

theorem keeps_installNew (h : CreateKeeps inv id operationKey) (name : String)
    (hmanifest : manifest.skillId = id) :
    Durable.Keeps inv (installNew cfg a id name manifest candidate operationKey) := by
  refine Durable.keeps_bind (Durable.keeps_onlyIf (Durable.keeps_raise _)) fun _ => ?_
  refine Durable.keeps_bind (Durable.keeps_look _) fun before => ?_
  refine Durable.keeps_bind (keeps_readyRoot h name before) fun _ => ?_
  exact Durable.keeps_bind (Durable.keeps_onError
    (keeps_putInPlace h.toUpdateKeeps name hmanifest) (keeps_undoNew h name before)) fun _ =>
      Durable.keeps_pure _

/-- An update keeps what its effects on an existing skill keep. -/
theorem stays_updateSkill {r : Registry} (hr : inv r)
    (h : (r.get id).isSome → UpdateKeeps inv id operationKey) :
    Durable.Stays inv (updateSkill cfg a id candidate operationKey) r := by
  refine Durable.stays_look_bind hr fun prior _ => ?_
  cases prior with
  | some existing => exact Durable.stays_pure _ hr
  | none =>
    refine Durable.stays_look_bind hr fun found hfound => ?_
    cases found with
    | none => exact Durable.stays_raise _ hr
    | some current =>
      have hget : r.get id = some current := by
        cases hread : a.fault .readSkill with
        | some e =>
          rw [check_error hread] at hfound
          cases hfound
        | none =>
          rw [check_ok hread] at hfound
          exact Except.ok.inj hfound
      have hkeeps := h (by rw [hget]; rfl)
      refine Durable.stays_bind ((keeps_writeStaging hkeeps _).stays hr)
        fun staged hstaged hstate => ?_
      refine Durable.Keeps.stays ?_ hstate
      refine Durable.keeps_onError (Durable.keeps_bind (Durable.keeps_look _) fun _ => ?_)
        (keeps_remove hkeeps trivial)
      exact keeps_installUpdate hkeeps _ (writeStaging_skillId hstaged)

/-- A creation keeps what its effects on a missing skill keep. -/
theorem stays_createSkill {r : Registry} {skillId : Option String} (hr : inv r)
    (h : ∀ id, slug cfg ((skillId.filter (· ≠ "")).getD candidate.name) = .ok id →
      r.get id = none → CreateKeeps inv id operationKey) :
    Durable.Stays inv (createSkill cfg a candidate skillId operationKey) r := by
  refine Durable.stays_look_bind hr fun prior _ => ?_
  cases prior with
  | some existing => exact Durable.stays_pure _ hr
  | none =>
    refine Durable.stays_look_bind hr fun id hid => ?_
    refine Durable.stays_look_bind hr fun found hfound => ?_
    cases found with
    | some existing => exact Durable.stays_raise _ hr
    | none =>
      have hget : r.get id = none := by
        cases hread : a.fault .readSkill with
        | some e =>
          rw [check_error hread] at hfound
          cases hfound
        | none =>
          rw [check_ok hread] at hfound
          exact Except.ok.inj hfound
      have hkeeps := h id hid hget
      refine Durable.stays_bind ((keeps_writeStaging hkeeps.toUpdateKeeps _).stays hr)
        fun staged hstaged hstate => ?_
      refine Durable.Keeps.stays ?_ hstate
      refine Durable.keeps_onError (Durable.keeps_bind (Durable.keeps_look _) fun _ => ?_)
        (keeps_remove hkeeps.toUpdateKeeps trivial)
      exact keeps_installNew hkeeps _ (writeStaging_skillId hstaged)

end

end EvoCI
