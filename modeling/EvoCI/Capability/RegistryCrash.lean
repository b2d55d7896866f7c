import EvoCI.Capability.UpdateFailure
import EvoCI.Capability.Usage
import EvoCI.Library.Run

/-! The registry behind crashes: reopening it repairs nothing, so it holds what the last
process left. -/

namespace EvoCI

open Library

/-! ## Creating a skill -/

/-- The call comes to making a staging directory for this skill, and makes it. -/
def CreateStages (cfg : RegistryConfig) (a : HostAnswers) (r : Registry)
    (candidate : SkillCandidate) (skillId operationKey : Option String) (id : String) : Prop :=
  (priorSkill a operationKey r).result = .ok none ∧
    slug cfg ((skillId.filter (· ≠ "")).getD candidate.name) = .ok id ∧
    a.fault .readSkill = none ∧ r.get id = none ∧ ¬ StagingBlocked a r (stagingName a id)

/-- Why a skill is not created. -/
def HinderedNew (a : HostAnswers) (r : Registry) (id : String) : Prop :=
  (∃ step e, a.fault step = some e) ∨ (∃ package manifest, a.validation package manifest ≠ .ok []) ∨
    r.dirs (.package id) ≠ none

/-- A store passed through while a skill is created: the rename apart, it is as before the
call or has the new package with its rows. -/
def CreatePassed (cfg : RegistryConfig) (a : HostAnswers) (r : Registry) (id : String)
    (candidate : SkillCandidate) (operationKey : Option String) (files : List GeneratedFile)
    (p : RegistryStep × Registry) : Prop :=
  let manifest := newManifest cfg a candidate id {} files
  p.1 = .renameStaging ∨ Unmoved r p.2 ∨ p.1 = .upsertRows ∧ ∃ package,
    package.manifest = some manifest ∧ Replaced r p.2
      (r.db.upsert manifest (packagePath cfg id) candidate operationKey a.rowsNow) id package

theorem unmoved_refl (r : Registry) : Unmoved r r := ⟨rfl, fun _ => rfl⟩

section

variable {cfg : RegistryConfig} {a : HostAnswers} {r : Registry} {id name : String}
  {candidate : SkillCandidate} {operationKey : Option String} {manifest : SkillManifest}

/-- As in `r`, with this package staged. -/
structure StagedNew (r : Registry) (name : String) (manifest : SkillManifest) (t : Registry) :
    Prop where
  same : Unmoved r t
  staged : ∃ package, t.dirs (.staging name) = some package ∧ package.manifest = some manifest

theorem staged_of_eq {t t' : Registry} (h : StagedNew r name manifest t) (hdb : t'.db = t.db)
    (hdirs : t'.dirs = t.dirs) : StagedNew r name manifest t' :=
  ⟨⟨hdb.trans h.same.db, fun skillId => by rw [hdirs, h.same.package]⟩,
    by rw [hdirs]; exact h.staged⟩

theorem unmoved_of_eq {t t' : Registry} (h : Unmoved r t) (hdb : t'.db = t.db)
    (hdirs : ∀ skillId, t'.dirs (.package skillId) = t.dirs (.package skillId)) : Unmoved r t' :=
  ⟨hdb.trans h.db, fun skillId => (hdirs skillId).trans (h.package skillId)⟩

theorem keeps_hostEffect {inv : Registry → Prop} {step : RegistryStep} {f : Registry → Registry}
    (h : ∀ t, inv t → inv (f t)) : Durable.Keeps inv (a.effect step f) := by
  refine Durable.keeps_effect fun s u t hrun hs => ?_
  cases hfault : a.fault step with
  | some e =>
    rw [check_error hfault] at hrun
    cases hrun
  | none =>
    rw [check_ok hfault] at hrun
    cases hrun
    exact h s hs

theorem keeps_always {inv : Registry → Prop} {step : RegistryStep} {f : Registry → Registry}
    (h : ∀ t, inv t → inv (f t)) : Durable.Keeps inv (always step f) := by
  refine Durable.keeps_effect fun s u t hrun hs => ?_
  cases hrun
  exact h s hs

theorem keeps_readyNew (before : Registry) :
    Durable.Keeps (StagedNew r name manifest) (readyNew a id name before) := by
  refine Durable.keeps_bind (keeps_hostEffect fun t ht => staged_of_eq ht rfl rfl) fun _ => ?_
  refine Durable.keeps_bind (Durable.keeps_onlyIf
    (keeps_hostEffect fun t ht => staged_of_eq ht rfl rfl)) fun _ => ?_
  refine keeps_hostEffect fun t ht => ?_
  obtain ⟨package, hpackage, hmanifest⟩ := ht.staged
  refine ⟨unmoved_of_eq ht.same rfl fun skillId => dirs_put_of_ne _ _ (by simp),
    { package with readonly := true }, ?_, hmanifest⟩
  rw [Registry.change, dirs_put_self, hpackage]
  rfl

/-- The handler takes the new package away again. -/
theorem undoNew_unmoved (hpackage : r.dirs (.package id) = none) (before t : Registry)
    (hdb : t.db = r.db)
    (hother : ∀ id', id' ≠ id → t.dirs (.package id') = r.dirs (.package id')) :
    (∀ p ∈ (undoNew id name before t).passed, Unmoved r p.2) ∧
      Unmoved r (undoNew id name before t).state := by
  have hremoved : Unmoved r (t.put (.package id) none) := by
    refine ⟨hdb, fun id' => ?_⟩
    by_cases hsame : id' = id
    · subst hsame
      rw [dirs_put_self, hpackage]
    · rw [dirs_put_of_ne _ _ (by simpa using hsame), hother id' hsame]
  have hrest : Durable.Keeps (Unmoved r) (do
      Durable.onlyIf (fun _ => (before.memory id).isNone)
        (always .removeMemory fun r => { r with memory := Function.update r.memory id none })
      Durable.onlyIf (fun _ => !before.roots id) (always .removeRoot fun r => r.removeRoot id)
      remove .removeStaging (.staging name)) := by
    refine Durable.keeps_bind (Durable.keeps_onlyIf
      (keeps_always fun t ht => unmoved_of_eq ht rfl fun _ => rfl)) fun _ => ?_
    refine Durable.keeps_bind (Durable.keeps_onlyIf (keeps_always fun t ht => ?_)) fun _ => ?_
    · refine ⟨ht.db, fun id' => ?_⟩
      rw [← ht.package]
      unfold Registry.removeRoot
      by_cases hsame : id' = id
      · subst hsame
        simp [ht.package, hpackage]
      · simp [hsame]
    · exact keeps_always fun t ht => unmoved_of_eq ht rfl fun _ => dirs_put_of_ne _ _ (by simp)
  obtain ⟨hpassed, hstate⟩ := hrest _ hremoved
  unfold undoNew
  rw [Durable.bind_ok (remove_run _ _ t)]
  refine ⟨fun p hp => ?_, hstate⟩
  rcases List.mem_append.mp hp with hp | hp
  · rw [List.mem_singleton] at hp
    subst hp
    exact hremoved
  · exact hpassed p hp

/-- No call fails. -/
def HostAnswers.Faultless (a : HostAnswers) : Prop := ∀ step, a.fault step = none

theorem not_faultless (h : ¬ a.Faultless) : ∃ step e, a.fault step = some e := by
  obtain ⟨step, hstep⟩ := not_forall.mp h
  exact ⟨step, Option.ne_none_iff_exists'.mp hstep⟩

theorem readyNew_ok (h : a.Faultless) (before t : Registry) :
    (readyNew a id name before t).result = .ok () := by
  unfold readyNew makeReadonly
  simp only [Durable.bind_run, effect_done _ (h _), Durable.andThen_ok, Durable.onlyIf]
  split <;> simp [effect_done _ (h _)]

/-- Putting a new package in place: it is there with its rows, or the handler takes it
away again. -/
theorem putInPlace_new_run (hpackage : r.dirs (.package id) = none) {t : Registry}
    (ht : StagedNew r name manifest t) (before : Registry) :
    let run := Durable.onError (putInPlace cfg a id name manifest candidate operationKey)
      (undoNew id name before) t
    (∀ p ∈ run.passed, p.1 = .renameStaging ∨ Unmoved r p.2 ∨ p.1 = .upsertRows ∧ ∃ package,
        package.manifest = some manifest ∧ Replaced r p.2
          (r.db.upsert manifest (packagePath cfg id) candidate operationKey a.rowsNow) id package) ∧
    ((∃ package, package.manifest = some manifest ∧ run.result = .ok () ∧ Replaced r run.state
        (r.db.upsert manifest (packagePath cfg id) candidate operationKey a.rowsNow) id package) ∨
      ¬ a.Faultless ∧ (∃ e, run.result = .error e) ∧ Unmoved r run.state) := by
  intro run
  obtain ⟨package, hstaged, hmanifest⟩ := ht.staged
  cases hrename : a.fault .renameStaging with
  | some e =>
    have hfails : putInPlace cfg a id name manifest candidate operationKey t =
        ⟨[], .error e, t⟩ := Durable.bind_error (rename_fails hrename)
    obtain ⟨hpassed, hstate⟩ := @undoNew_unmoved r id name hpackage before t ht.same.db
      fun id' _ => ht.same.package id'
    have hrun : run = _ := Durable.onError_error hfails
    rw [hrun]
    refine ⟨fun p hp => Or.inr (Or.inl (hpassed p hp)), Or.inr ⟨fun h => ?_, ⟨e, rfl⟩, hstate⟩⟩
    rw [h] at hrename
    cases hrename
  | none =>
    let moved := (t.put (.staging name) none).put (.package id) (some package)
    have hmoved : a.rename .renameStaging (.staging name) (.package id) t =
        ⟨[(.renameStaging, moved)], .ok (), moved⟩ :=
      rename_done hrename hstaged ((ht.same.package id).trans hpackage)
    have hother : ∀ id', id' ≠ id → moved.dirs (.package id') = r.dirs (.package id') := by
      intro id' hne
      rw [dirs_put_of_ne _ _ (by simpa using hne), dirs_put_of_ne _ _ (by simp), ht.same.package]
    cases hrows : a.fault .upsertRows with
    | some e =>
      have hfails : putInPlace cfg a id name manifest candidate operationKey t =
          ⟨[(.renameStaging, moved)], .error e, moved⟩ := by
        unfold putInPlace upsertRows
        rw [Durable.bind_ok hmoved, effect_fails _ hrows]
        rfl
      obtain ⟨hpassed, hstate⟩ := @undoNew_unmoved r id name hpackage before moved
        ht.same.db hother
      have hrun : run = _ := Durable.onError_error hfails
      rw [hrun]
      refine ⟨fun p hp => ?_, Or.inr ⟨fun h => ?_, ⟨e, rfl⟩, hstate⟩⟩
      · rcases List.mem_cons.mp hp with rfl | hp
        · exact Or.inl rfl
        · exact Or.inr (Or.inl (hpassed p hp))
      · rw [h] at hrows
        cases hrows
    | none =>
      let done : Registry := { moved with
        db := moved.db.upsert manifest (packagePath cfg id) candidate operationKey a.rowsNow }
      have hdone : Replaced r done
          (r.db.upsert manifest (packagePath cfg id) candidate operationKey a.rowsNow) id
          package := by
        refine ⟨?_, dirs_put_self _ _ _, hother⟩
        change t.db.upsert _ _ _ _ _ = _
        rw [ht.same.db]
      have hplaced : putInPlace cfg a id name manifest candidate operationKey t =
          ⟨[(.renameStaging, moved), (.upsertRows, done)], .ok (), done⟩ := by
        unfold putInPlace upsertRows
        rw [Durable.bind_ok hmoved, effect_done _ hrows]
        rfl
      have hrun : run = _ := Durable.onError_ok hplaced
      rw [hrun]
      refine ⟨fun p hp => ?_, Or.inl ⟨package, hmanifest, rfl, hdone⟩⟩
      simp only [List.mem_cons, List.not_mem_nil, or_false] at hp
      rcases hp with rfl | rfl
      · exact Or.inl rfl
      · exact Or.inr (Or.inr ⟨rfl, package, hmanifest, hdone⟩)

/-- `_install_new`, from a staged package. -/
theorem installNew_run {t : Registry} (ht : StagedNew r name manifest t) :
    (∀ p ∈ (installNew cfg a id name manifest candidate operationKey t).passed,
      p.1 = .renameStaging ∨ Unmoved r p.2 ∨ p.1 = .upsertRows ∧ ∃ package,
        package.manifest = some manifest ∧ Replaced r p.2
          (r.db.upsert manifest (packagePath cfg id) candidate operationKey a.rowsNow) id package) ∧
    ((∃ package, package.manifest = some manifest ∧
        (installNew cfg a id name manifest candidate operationKey t).result =
          .ok ⟨manifest, packagePath cfg id⟩ ∧
        Replaced r (installNew cfg a id name manifest candidate operationKey t).state
          (r.db.upsert manifest (packagePath cfg id) candidate operationKey a.rowsNow) id package) ∨
      (¬ a.Faultless ∨ r.dirs (.package id) ≠ none) ∧
        (∃ e, (installNew cfg a id name manifest candidate operationKey t).result = .error e) ∧
        Unmoved r (installNew cfg a id name manifest candidate operationKey t).state) := by
  unfold installNew
  cases hpackage : r.dirs (.package id) with
  | some package =>
    have hexists : Durable.onlyIf (fun r : Registry => (r.dirs (.package id)).isSome)
        (Durable.raise (.capability s!"skill package already exists: {packagePath cfg id}") :
          RegistryM Unit) t = ⟨[], .error _, t⟩ :=
      Durable.onlyIf_true _ (by rw [ht.same.package, hpackage]; rfl)
    rw [Durable.bind_error hexists]
    exact ⟨by simp, Or.inr ⟨Or.inr (by simp), ⟨_, rfl⟩, ht.same⟩⟩
  | none =>
    have habsent : Durable.onlyIf (fun r : Registry => (r.dirs (.package id)).isSome)
        (Durable.raise (.capability s!"skill package already exists: {packagePath cfg id}") :
          RegistryM Unit) t = ⟨[], .ok (), t⟩ :=
      Durable.onlyIf_false _ (by rw [ht.same.package, hpackage]; rfl)
    have hlook : (Durable.look .ok : RegistryM Registry) t = ⟨[], .ok t, t⟩ := rfl
    rw [Durable.bind_ok habsent, Durable.bind_ok hlook]
    obtain ⟨hready, hstaged⟩ := @keeps_readyNew a r id name manifest t t ht
    cases hrun : readyNew a id name t t with
    | mk passed result u =>
      rw [hrun] at hready hstaged
      cases result with
      | error e =>
        rw [Durable.bind_error hrun]
        refine ⟨fun p hp => Or.inr (Or.inl (hready p hp).same),
          Or.inr ⟨Or.inl fun h => ?_, ⟨e, rfl⟩, hstaged.same⟩⟩
        have hok := @readyNew_ok a id name h t t
        rw [hrun] at hok
        cases hok
      | ok _ =>
        rw [Durable.bind_ok hrun]
        obtain ⟨hplaced, hend⟩ := @putInPlace_new_run cfg a r id name candidate operationKey
          manifest hpackage u hstaged t
        cases hput : Durable.onError (putInPlace cfg a id name manifest candidate operationKey)
            (undoNew id name t) u with
        | mk placed result v =>
          rw [hput] at hplaced hend
          have hall : ∀ p ∈ passed ++ placed, p.1 = .renameStaging ∨ Unmoved r p.2 ∨
              p.1 = .upsertRows ∧ ∃ package, package.manifest = some manifest ∧
                Replaced r p.2 (r.db.upsert manifest (packagePath cfg id) candidate operationKey
                  a.rowsNow) id package := by
            intro p hp
            rcases List.mem_append.mp hp with hp | hp
            · exact Or.inr (Or.inl (hready p hp).same)
            · exact hplaced p hp
          rcases hend with ⟨package, hmanifest, hok, hreplaced⟩ | ⟨hcause, ⟨e, herror⟩, hsame⟩
          · change result = .ok () at hok
            subst hok
            rw [Durable.bind_ok hput]
            exact ⟨by simpa using hall, Or.inl ⟨package, hmanifest, rfl, hreplaced⟩⟩
          · change result = .error e at herror
            subst herror
            rw [Durable.bind_error hput]
            exact ⟨by simpa using hall, Or.inr ⟨Or.inl hcause, ⟨e, rfl⟩, hsame⟩⟩

/-- The ways in which a creation can run. -/
inductive CreateRun (cfg : RegistryConfig) (a : HostAnswers) (r : Registry)
    (candidate : SkillCandidate) (skillId operationKey : Option String) :
    DurableRun RegistryStep Registry RegistryError RegisteredSkill → Prop where
  | prior (skill : RegisteredSkill) (h : (priorSkill a operationKey r).result = .ok (some skill)) :
      CreateRun cfg a r candidate skillId operationKey ⟨[], .ok skill, r⟩
  | early (e : RegistryError)
      (hprior : ∀ skill, (priorSkill a operationKey r).result ≠ .ok (some skill))
      (h : ∀ id, ¬ CreateStages cfg a r candidate skillId operationKey id) :
      CreateRun cfg a r candidate skillId operationKey ⟨[], .error e, r⟩
  | raised (passed : List (RegistryStep × Registry)) (e : RegistryError) (t : Registry)
      (id : String) (files : List GeneratedFile)
      (hstages : CreateStages cfg a r candidate skillId operationKey id)
      (hcause : (∃ e, filesToWrite candidate = .error e) ∨ HinderedNew a r id)
      (hpassed : ∀ p ∈ passed, CreatePassed cfg a r id candidate operationKey files p)
      (hsame : Unmoved r t) :
      CreateRun cfg a r candidate skillId operationKey ⟨passed, .error e, t⟩
  | installed (passed : List (RegistryStep × Registry)) (t : Registry) (id : String)
      (files : List GeneratedFile) (package : Package)
      (hstages : CreateStages cfg a r candidate skillId operationKey id)
      (hfiles : filesToWrite candidate = .ok files)
      (hpassed : ∀ p ∈ passed, CreatePassed cfg a r id candidate operationKey files p)
      (hmanifest : package.manifest = some (newManifest cfg a candidate id {} files))
      (hreplaced : Replaced r t (r.db.upsert (newManifest cfg a candidate id {} files)
        (packagePath cfg id) candidate operationKey a.rowsNow) id package) :
      CreateRun cfg a r candidate skillId operationKey
        ⟨passed, .ok ⟨newManifest cfg a candidate id {} files, packagePath cfg id⟩, t⟩

/-- From the staged package of a new skill on. -/
theorem createStaged_run {t : Registry} (ht : StagedNew r name manifest t) :
    let run := Durable.onError
      (do
        validateStaging a name manifest
        installNew cfg a id name manifest candidate operationKey)
      (remove .removeStaging (.staging name)) t
    (∀ p ∈ run.passed, p.1 = .renameStaging ∨ Unmoved r p.2 ∨ p.1 = .upsertRows ∧ ∃ package,
        package.manifest = some manifest ∧ Replaced r p.2
          (r.db.upsert manifest (packagePath cfg id) candidate operationKey a.rowsNow) id package) ∧
    ((∃ package, package.manifest = some manifest ∧
        run.result = .ok ⟨manifest, packagePath cfg id⟩ ∧ Replaced r run.state
          (r.db.upsert manifest (packagePath cfg id) candidate operationKey a.rowsNow) id package) ∨
      HinderedNew a r id ∧ (∃ e, run.result = .error e) ∧ Unmoved r run.state) := by
  intro run
  have hremoved : ∀ {u : Registry}, Unmoved r u → Unmoved r (u.put (.staging name) none) :=
    fun hu => unmoved_of_eq hu rfl fun _ => dirs_put_of_ne _ _ (by simp)
  rcases validateStaging_run name manifest t with hvalid | ⟨e, hinvalid, hcause⟩
  · obtain ⟨hpassed, hend⟩ := @installNew_run cfg a r id name candidate operationKey manifest t ht
    cases hinstall : installNew cfg a id name manifest candidate operationKey t with
    | mk passed result u =>
      rw [hinstall] at hpassed hend
      rcases hend with ⟨package, hmanifest, hok, hreplaced⟩ | ⟨hcause, ⟨e, herror⟩, hsame⟩
      · change result = .ok _ at hok
        subst hok
        have hrun : run = _ :=
          Durable.onError_ok ((Durable.bind_ok hvalid).trans (by rw [hinstall]))
        rw [hrun]
        exact ⟨by simpa using hpassed, Or.inl ⟨package, hmanifest, rfl, hreplaced⟩⟩
      · change result = .error e at herror
        subst herror
        have hrun : run = _ :=
          Durable.onError_error ((Durable.bind_ok hvalid).trans (by rw [hinstall]))
        rw [hrun, remove_run]
        refine ⟨fun p hp => ?_, Or.inr ⟨?_, ⟨e, rfl⟩, hremoved hsame⟩⟩
        · rcases List.mem_append.mp hp with hp | hp
          · exact hpassed p (by simpa using hp)
          · rw [List.mem_singleton] at hp
            subst hp
            exact Or.inr (Or.inl (hremoved hsame))
        · rcases hcause with h | h
          · exact Or.inl (not_faultless h)
          · exact Or.inr (Or.inr h)
  · have hrun : run = _ := Durable.onError_error (Durable.bind_error hinvalid)
    rw [hrun, remove_run]
    refine ⟨fun p hp => ?_, Or.inr ⟨?_, ⟨e, rfl⟩, hremoved ht.same⟩⟩
    · rw [List.nil_append, List.mem_singleton] at hp
      subst hp
      exact Or.inr (Or.inl (hremoved ht.same))
    · rcases hcause with h | h
      · exact Or.inl h
      · exact Or.inr (Or.inl h)

theorem createSkill_run (skillId : Option String) :
    CreateRun cfg a r candidate skillId operationKey
      (createSkill cfg a candidate skillId operationKey r) := by
  unfold createSkill
  cases hprior : (priorSkill a operationKey r).result with
  | error e =>
    have hrun : priorSkill a operationKey r = ⟨[], .error e, r⟩ := by rw [priorSkill_run, hprior]
    rw [Durable.bind_error hrun]
    refine .early e (fun skill h => ?_) fun id h => ?_
    · rw [hprior] at h
      cases h
    · rw [h.1] at hprior
      cases hprior
  | ok prior =>
    have hrun : priorSkill a operationKey r = ⟨[], .ok prior, r⟩ := by rw [priorSkill_run, hprior]
    rw [Durable.bind_ok hrun]
    cases prior with
    | some skill => exact .prior skill hprior
    | none =>
      have hnone : ∀ skill, (priorSkill a operationKey r).result ≠ .ok (some skill) := by
        intro skill h
        rw [hprior] at h
        cases h
      cases hslug : slug cfg ((skillId.filter (· ≠ "")).getD candidate.name) with
      | error e =>
        have hlook : (Durable.look fun _ => .error e : RegistryM String) r =
          ⟨[], .error e, r⟩ := rfl
        simp only [Durable.bind_error hlook, List.nil_append]
        refine .early e hnone fun id h => ?_
        rw [h.2.1] at hslug
        cases hslug
      | ok id =>
        have hlook : (Durable.look fun _ => .ok id : RegistryM String) r = ⟨[], .ok id, r⟩ := rfl
        have hid : ∀ id', CreateStages cfg a r candidate skillId operationKey id' → id' = id := by
          intro id' h
          have := h.2.1
          rw [hslug] at this
          exact (Except.ok.inj this).symm
        simp only [Durable.bind_ok hlook, List.nil_append]
        cases hread : a.fault .readSkill with
        | some e =>
          have hget : getSkill a id r = ⟨[], .error e, r⟩ := by
            unfold getSkill
            rw [Durable.look_run, check_error hread]
            rfl
          simp only [Durable.bind_error hget]
          refine .early e hnone fun id' h => ?_
          rw [h.2.2.1] at hread
          cases hread
        | none =>
          have hget : getSkill a id r = ⟨[], .ok (r.get id), r⟩ := by
            unfold getSkill
            rw [Durable.look_run, check_ok hread]
            rfl
          simp only [Durable.bind_ok hget, List.nil_append]
          cases hcurrent : r.get id with
          | some current =>
            refine .early _ hnone fun id' h => ?_
            have hnone := h.2.2.2.1
            rw [hid id' h, hcurrent] at hnone
            cases hnone
          | none =>
            by_cases hblocked : StagingBlocked a r (stagingName a id)
            · obtain ⟨e, hstaging⟩ := @writeStaging_blocked cfg a candidate id {} r hblocked
              simp only [Durable.bind_error hstaging]
              refine .early e hnone fun id' h => h.2.2.2.2 ?_
              rw [hid id' h]
              exact hblocked
            · have hstages : CreateStages cfg a r candidate skillId operationKey id :=
                ⟨hprior, hslug, hread, hcurrent, hblocked⟩
              cases hfiles : filesToWrite candidate with
              | error e =>
                simp only [Durable.bind_error (writeStaging_leaks hblocked hfiles)]
                refine .raised _ e _ id [] hstages (Or.inl ⟨e, hfiles⟩) (fun p hp => ?_)
                  (unmoved_put _ _ _)
                rw [List.mem_singleton] at hp
                subst hp
                exact Or.inr (Or.inl (unmoved_put _ _ _))
              | ok files =>
                obtain ⟨staged, hstaged, hwrite⟩ :=
                  @writeStaging_run cfg a candidate id {} r hblocked files hfiles
                have hstaged : ∀ p ∈ staged,
                    CreatePassed cfg a r id candidate operationKey files p :=
                  fun p hp => Or.inr (Or.inl (unmoved_of_stages (hstaged p hp)))
                rcases hwrite with hwrite | ⟨step, e, hstep, hwrite⟩
                · have hnew : StagedNew r (stagingName a id)
                      (newManifest cfg a candidate id {} files) (r.put (.staging (stagingName a id))
                        (some ⟨files, some (newManifest cfg a candidate id {} files), false⟩)) :=
                    ⟨unmoved_put _ _ _, _, dirs_put_self _ _ _, rfl⟩
                  obtain ⟨hpassed, hend⟩ := @createStaged_run cfg a r id (stagingName a id)
                    candidate
                    operationKey _ _ hnew
                  simp only [Durable.bind_ok hwrite]
                  have hall : ∀ {passed : List (RegistryStep × Registry)},
                      (∀ p ∈ passed, CreatePassed cfg a r id candidate operationKey files p) →
                      ∀ p ∈ staged ++ passed,
                        CreatePassed cfg a r id candidate operationKey files p := by
                    intro passed hpassed p hp
                    rcases List.mem_append.mp hp with hp | hp
                    · exact hstaged p hp
                    · exact hpassed p hp
                  rcases hend with ⟨package, hmanifest, hok, hreplaced⟩ |
                    ⟨hcause, ⟨e, herror⟩, hsame⟩
                  · rw [hok]
                    exact .installed _ _ id files package hstages hfiles (hall hpassed) hmanifest
                      hreplaced
                  · rw [herror]
                    exact .raised _ e _ id files hstages (Or.inr hcause) (hall hpassed) hsame
                · simp only [Durable.bind_error hwrite]
                  exact .raised staged e r id files hstages (Or.inr (Or.inl ⟨step, e, hstep⟩))
                    hstaged (unmoved_refl r)

end

/-! ## Runs of the registry -/

inductive RegistryCall where
  | create (candidate : SkillCandidate) (skillId operationKey : Option String)
  | update (skillId : String) (candidate : SkillCandidate) (operationKey : Option String)
  | setEnabled (skillId : String) (enabled : Bool)
  | recordRetrieval (skillIds : List String) (selected : Bool) (operationKey : Option String)
  | recordUse (skillId : String) (success patched : Bool) (operationKey : Option String)
  | recordOperation (key : String) (result : OperationResult)
  | appendSkillMemory (skillId : String) (entry : SkillMemoryEntry)

def RegistryCall.run (cfg : RegistryConfig) (a : HostAnswers) (r : Registry) :
    RegistryCall → DurableRun RegistryStep Registry RegistryError Unit
  | .create candidate skillId operationKey =>
    (createSkill cfg a candidate skillId operationKey r).void
  | .update skillId candidate operationKey =>
    (updateSkill cfg a skillId candidate operationKey r).void
  | .setEnabled skillId enabled => EvoCI.setEnabled a skillId enabled r
  | .recordRetrieval skillIds selected operationKey =>
    (EvoCI.recordRetrieval a skillIds selected operationKey r).void
  | .recordUse skillId success patched operationKey =>
    (EvoCI.recordUse a skillId success patched operationKey r).void
  | .recordOperation key result => (EvoCI.recordOperation a key result r).void
  | .appendSkillMemory skillId entry => (EvoCI.appendSkillMemory a skillId entry r).void

/-- A call, with the number of effects behind which the process ends, if it does. -/
structure RegistryEvent where
  call : RegistryCall
  answers : HostAnswers
  crash : Option Nat := none

/-- The registry that the next process opens. -/
def RegistryEvent.step (cfg : RegistryConfig) (event : RegistryEvent) (r : Registry) : Registry :=
  let run := event.call.run cfg event.answers r
  match event.crash with
  | none => run.state
  | some n => run.crashed n r

/-- The fresh names of a call are not in use. -/
def HostAnswers.Fresh (a : HostAnswers) (r : Registry) : Prop :=
  ∀ id, r.dirs (.staging (stagingName a id)) = none ∧ r.dirs (.oldPrevious id a.oldToken) = none

/-- Behind this effect of the call the rows and the packages may differ. -/
def RegistryCall.Exposed : RegistryCall → RegistryStep → Prop
  | .create _ _ _, step => step = .renameStaging
  | .update _ _ _, step => step.swaps = true
  | _, _ => False

/-- Behind this effect the skill exists, and no operation key tells that it is the call's. -/
def RegistryCall.Unkeyed : RegistryCall → RegistryStep → Prop
  | .create _ _ operationKey, step => step = .upsertRows ∧ givenKey operationKey = none
  | _, _ => False

/-- The process does not end behind such an effect, and no flag is switched. -/
structure RegistryEvent.Safe (cfg : RegistryConfig) (event : RegistryEvent) (r : Registry) :
    Prop where
  crash : ∀ n p, event.crash = some n →
    (event.call.run cfg event.answers r).lastOf n = some p →
      ¬ event.call.Exposed p.1 ∧ ¬ event.call.Unkeyed p.1
  flags : ∀ id enabled, event.call = .setEnabled id enabled →
    ∀ row, r.db.skills id = some row → row.manifest.enabled = enabled

/-- Every row has its package, with the manifest of the row, and every package a row. -/
structure RowsMatch (r : Registry) : Prop where
  packaged : ∀ id row, r.db.skills id = some row →
    ∃ package, r.dirs (.package id) = some package ∧ package.manifest = some row.manifest
  listed : ∀ id package, r.dirs (.package id) = some package → r.db.skills id ≠ none

theorem rowsMatch_of_same {r t : Registry} (h : RowsMatch r) (hskills : t.db.skills = r.db.skills)
    (hdirs : ∀ id, t.dirs (.package id) = r.dirs (.package id)) : RowsMatch t := by
  constructor
  · intro id row hrow
    rw [hskills] at hrow
    rw [hdirs]
    exact h.packaged id row hrow
  · intro id package hpackage
    rw [hdirs] at hpackage
    rw [hskills]
    exact h.listed id package hpackage

theorem rowsMatch_of_unmoved {r t : Registry} (h : RowsMatch r) (ht : Unmoved r t) : RowsMatch t :=
  rowsMatch_of_same h (by rw [ht.db]) ht.package

theorem rowsMatch_of_replaced {r t : Registry} (h : RowsMatch r) {manifest : SkillManifest}
    {path : String} {candidate : SkillCandidate} {operationKey : Option String} {now : Nat}
    {id : String} {package : Package} (hid : manifest.skillId = id)
    (hmanifest : package.manifest = some manifest)
    (ht : Replaced r t (r.db.upsert manifest path candidate operationKey now) id package) :
    RowsMatch t := by
  have hskills : t.db.skills = Function.update r.db.skills id
      (some ⟨manifest, manifest.enabled, path⟩) := by
    rw [ht.db, ← hid]
    rfl
  constructor
  · intro id' row hrow
    rw [hskills] at hrow
    by_cases hsame : id' = id
    · subst hsame
      rw [Function.update_self] at hrow
      cases hrow
      exact ⟨package, ht.package, hmanifest⟩
    · rw [Function.update_of_ne hsame] at hrow
      rw [ht.other id' hsame]
      exact h.packaged id' row hrow
  · intro id' package' hpackage
    rw [hskills]
    by_cases hsame : id' = id
    · subst hsame
      simp
    · rw [Function.update_of_ne hsame]
      rw [ht.other id' hsame] at hpackage
      exact h.listed id' package' hpackage

/-- A call with one effect that leaves the rows of the skills and the packages alone. -/
theorem rowsMatch_of_effect {α : Type} {step : RegistryStep}
    {f : Registry → Except RegistryError (α × Registry)} {r : Registry} (h : RowsMatch r)
    (hf : ∀ b t, f r = .ok (b, t) → RowsMatch t) :
    (∀ p ∈ ((Durable.effect step f r).void : DurableRun RegistryStep Registry RegistryError
        Unit).passed, RowsMatch p.2) ∧ RowsMatch (Durable.effect step f r).void.state := by
  cases hrun : f r with
  | error e =>
    rw [Durable.effect_error hrun]
    exact ⟨by simp [DurableRun.void], h⟩
  | ok result =>
    obtain ⟨b, t⟩ := result
    rw [Durable.effect_ok hrun]
    exact ⟨by simpa [DurableRun.void] using hf b t hrun, hf b t hrun⟩

theorem rowsMatch_onceFor {a : HostAnswers} {operationKey : Option String}
    {result : OperationResult} {write : SkillDatabase → SkillDatabase}
    (hwrite : ∀ db, (write db).skills = db.skills) {r : Registry} (h : RowsMatch r) :
    (∀ p ∈ (onceFor a operationKey result write r).void.passed, RowsMatch p.2) ∧
      RowsMatch (onceFor a operationKey result write r).void.state := by
  refine rowsMatch_of_effect h fun b t hrun => ?_
  cases hcheck : a.check .writeRow with
  | error e =>
    rw [hcheck] at hrun
    cases hrun
  | ok _ =>
    rw [hcheck] at hrun
    cases hkey : givenKey operationKey with
    | none =>
      rw [hkey] at hrun
      cases hrun
      exact rowsMatch_of_same h (hwrite _) fun _ => rfl
    | some key =>
      simp only [hkey, Except.map] at hrun
      split at hrun
      · cases hrun
        exact h
      · cases hrun
        exact rowsMatch_of_same h (hwrite _) fun _ => rfl

theorem updateStats_skills (db : SkillDatabase) (id : String) (f : SkillStats → SkillStats) :
    (db.updateStats id f).skills = db.skills := rfl

theorem fold_updateStats_skills (ids : List String) (f : SkillStats → SkillStats)
    (db : SkillDatabase) :
    (ids.foldl (fun db id => db.updateStats id f) db).skills = db.skills := by
  induction ids generalizing db with
  | nil => rfl
  | cons id ids ih => exact ih (db.updateStats id f)

theorem rowsMatch_setEnabled {a : HostAnswers} {id : String} {enabled : Bool} {r : Registry}
    (h : RowsMatch r) (hflag : ∀ row, r.db.skills id = some row → row.manifest.enabled = enabled) :
    (∀ p ∈ (setEnabled a id enabled r).passed, RowsMatch p.2) ∧
      RowsMatch (setEnabled a id enabled r).state := by
  unfold setEnabled
  cases hread : a.fault .readSkill with
  | some e =>
    have hget : getSkill a id r = ⟨[], .error e, r⟩ := by
      unfold getSkill
      rw [Durable.look_run, check_error hread]
      rfl
    rw [Durable.bind_error hget]
    exact ⟨by simp, h⟩
  | none =>
    have hget : getSkill a id r = ⟨[], .ok (r.get id), r⟩ := by
      unfold getSkill
      rw [Durable.look_run, check_ok hread]
      rfl
    rw [Durable.bind_ok hget]
    cases hrow : r.db.skills id with
    | none =>
      have hnone : r.get id = none := by
        unfold Registry.get
        rw [hrow]
        rfl
      rw [hnone]
      exact ⟨by simp, h⟩
    | some row =>
      have hsome : r.get id = some ⟨{ row.manifest with enabled := row.enabled },
          row.packagePath⟩ := by
        unfold Registry.get
        rw [hrow]
        rfl
      have hmanifest : { row.manifest with enabled } = row.manifest := by
        rw [← hflag row hrow]
      rw [hsome]
      have hmap : (r.db.skills id).map (fun row' : SkillRow =>
          { row' with manifest := row.manifest, enabled }) = some { row with enabled } := by
        rw [hrow]
        rfl
      simp only [hmanifest, List.nil_append]
      have hkept : RowsMatch { r with db := { r.db with
          skills := Function.update r.db.skills id (some { row with enabled }) } } := by
        constructor
        · intro id' row' hrow'
          by_cases hsame : id' = id
          · subst hsame
            simp only [Function.update_self, Option.some.injEq] at hrow'
            subst hrow'
            exact h.packaged id' row hrow
          · simp only [Function.update_of_ne hsame] at hrow'
            exact h.packaged id' row' hrow'
        · intro id' package hpackage
          by_cases hsame : id' = id
          · subst hsame
            simp
          · simp only [Function.update_of_ne hsame]
            exact h.listed id' package hpackage
      cases hwrite : a.fault .writeRow with
      | some e =>
        rw [effect_fails _ hwrite]
        exact ⟨by simp, h⟩
      | none =>
        rw [effect_done _ hwrite]
        simp only [hmap]
        exact ⟨by simpa using hkept, hkept⟩

/-- Every store that a call passes through or leaves has matching rows, but for those
behind an exposed effect. -/
theorem call_rowsMatch (cfg : RegistryConfig) (a : HostAnswers) {r : Registry} (h : RowsMatch r)
    (hfresh : a.Fresh r) (call : RegistryCall)
    (hflags : ∀ id enabled, call = .setEnabled id enabled →
      ∀ row, r.db.skills id = some row → row.manifest.enabled = enabled) :
    (∀ p ∈ (call.run cfg a r).passed, call.Exposed p.1 ∨ RowsMatch p.2) ∧
      RowsMatch (call.run cfg a r).state := by
  have hall : ∀ {run : DurableRun RegistryStep Registry RegistryError Unit},
      (∀ p ∈ run.passed, RowsMatch p.2) ∧ RowsMatch run.state →
      (∀ p ∈ run.passed, call.Exposed p.1 ∨ RowsMatch p.2) ∧ RowsMatch run.state :=
    fun hrun => ⟨fun p hp => Or.inr (hrun.1 p hp), hrun.2⟩
  cases call with
  | create candidate skillId operationKey =>
    have hrun := @createSkill_run cfg a r candidate operationKey skillId
    change (∀ p ∈ (createSkill cfg a candidate skillId operationKey r).passed, _) ∧
      RowsMatch (createSkill cfg a candidate skillId operationKey r).state
    generalize createSkill cfg a candidate skillId operationKey r = run at hrun
    have hpassed : ∀ {id files} {p : RegistryStep × Registry},
        CreatePassed cfg a r id candidate operationKey files p →
        p.1 = .renameStaging ∨ RowsMatch p.2 := by
      intro id files p hp
      rcases hp with hp | hp | ⟨-, package, hmanifest, hp⟩
      · exact Or.inl hp
      · exact Or.inr (rowsMatch_of_unmoved h hp)
      · exact Or.inr (rowsMatch_of_replaced h rfl hmanifest hp)
    cases hrun with
    | prior _ _ => exact ⟨by simp, h⟩
    | early _ _ _ => exact ⟨by simp, h⟩
    | raised passed e t id files _ _ hp hsame =>
      exact ⟨fun p hin => hpassed (hp p hin), rowsMatch_of_unmoved h hsame⟩
    | installed passed t id files package _ _ hp hmanifest hreplaced =>
      exact ⟨fun p hin => hpassed (hp p hin), rowsMatch_of_replaced h rfl hmanifest hreplaced⟩
  | update skillId candidate operationKey =>
    have hrun := @updateSkill_run cfg a r skillId candidate operationKey (hfresh skillId).2
    change (∀ p ∈ (updateSkill cfg a skillId candidate operationKey r).passed, _) ∧
      RowsMatch (updateSkill cfg a skillId candidate operationKey r).state
    generalize updateSkill cfg a skillId candidate operationKey r = run at hrun
    have hpassed : ∀ {current files} {p : RegistryStep × Registry},
        UpdatePassed cfg a r current skillId candidate operationKey files p →
        p.1.swaps = true ∨ RowsMatch p.2 := by
      intro current files p hp
      rcases hp with hp | ⟨-, hp⟩ | ⟨-, hp⟩
      · exact Or.inl hp
      · exact Or.inr (rowsMatch_of_unmoved h hp)
      · exact Or.inr (rowsMatch_of_replaced h rfl rfl hp)
    cases hrun with
    | prior _ _ => exact ⟨by simp, h⟩
    | early _ _ _ => exact ⟨by simp, h⟩
    | leaks e _ _ =>
      have hput := rowsMatch_of_unmoved h (unmoved_put r (stagingName a skillId) (some {}))
      exact ⟨by simpa using Or.inr hput, hput⟩
    | raised passed e current files _ _ _ hp => exact ⟨fun p hin => hpassed (hp p hin), h⟩
    | installed passed current files _ _ _ hp =>
      exact ⟨fun p hin => hpassed (hp p hin), rowsMatch_of_replaced h rfl rfl replaced_upserted⟩
  | setEnabled id enabled =>
    exact hall (rowsMatch_setEnabled h (hflags id enabled rfl))
  | recordRetrieval ids selected operationKey =>
    exact hall (rowsMatch_onceFor (fold_updateStats_skills ids _) h)
  | recordUse id success patched operationKey =>
    exact hall (rowsMatch_onceFor (fun db => updateStats_skills db id fun stats =>
      stats.use success patched a.rowsNow) h)
  | recordOperation key result =>
    refine hall (rowsMatch_of_effect h fun b t hrun => ?_)
    cases hcheck : a.check .writeRow with
    | error e =>
      rw [hcheck] at hrun
      cases hrun
    | ok _ =>
      rw [hcheck] at hrun
      cases hrun
      exact rowsMatch_of_same h rfl fun _ => rfl
  | appendSkillMemory id entry =>
    refine hall (rowsMatch_of_effect h fun b t hrun => ?_)
    cases hcheck : a.check .writeMemory with
    | error e =>
      rw [hcheck] at hrun
      cases hrun
    | ok _ =>
      rw [hcheck] at hrun
      simp only [Except.map] at hrun
      split at hrun
      · cases hrun
        exact h
      · split at hrun
        · cases hrun
          exact h
        · cases hrun
          exact rowsMatch_of_same h rfl fun _ => rfl

theorem step_completed {cfg : RegistryConfig} {event : RegistryEvent} (h : event.crash = none)
    (r : Registry) : event.step cfg r = (event.call.run cfg event.answers r).state := by
  unfold RegistryEvent.step
  rw [h]

theorem step_crashed {cfg : RegistryConfig} {event : RegistryEvent} {n : Nat}
    (h : event.crash = some n) (r : Registry) :
    event.step cfg r = (event.call.run cfg event.answers r).crashed n r := by
  unfold RegistryEvent.step
  rw [h]

theorem step_rowsMatch (cfg : RegistryConfig) {event : RegistryEvent} {r : Registry}
    (h : RowsMatch r) (hfresh : event.answers.Fresh r) (hsafe : event.Safe cfg r) :
    RowsMatch (event.step cfg r) := by
  obtain ⟨hpassed, hstate⟩ := call_rowsMatch cfg event.answers h hfresh event.call hsafe.flags
  cases hcrash : event.crash with
  | none =>
    rw [step_completed hcrash]
    exact hstate
  | some n =>
    rw [step_crashed hcrash]
    rcases DurableRun.crashed_cases (event.call.run cfg event.answers r) n r with
      hsame | ⟨p, hlast, hin, heq⟩
    · rw [hsame]
      exact h
    · rw [heq]
      rcases hpassed p hin with hexposed | hp
      · exact absurd hexposed (hsafe.crash n p hcrash hlast).1
      · exact hp

/-! ## Repeating a call -/

/-- The call is repeated where nothing fails. -/
structure HostAnswers.Sound (a : HostAnswers) (r : Registry) : Prop where
  faultless : a.Faultless
  valid : ∀ package manifest, a.validation package manifest = .ok []
  fresh : a.Fresh r

theorem prior_congr {a : HostAnswers} {operationKey : Option String} {r t : Registry}
    (h : t.db = r.db) :
    (priorSkill a operationKey t).result = (priorSkill a operationKey r).result := by
  unfold priorSkill Registry.get
  rw [Durable.look_run, Durable.look_run, h]

theorem get_congr {r t : Registry} (h : t.db = r.db) (id : String) : t.get id = r.get id := by
  unfold Registry.get
  rw [h]

theorem not_blocked {a : HostAnswers} {r : Registry} (h : a.Sound r) (id : String) :
    ¬ StagingBlocked a r (stagingName a id) := by
  rintro (hfault | hdir)
  · exact hfault (h.faultless _)
  · exact hdir (h.fresh id).1

theorem package_of_get {r : Registry} (h : RowsMatch r) {id : String} (hget : (r.get id).isSome) :
    r.dirs (.package id) ≠ none := by
  unfold Registry.get at hget
  cases hrow : r.db.skills id with
  | none =>
    rw [hrow] at hget
    cases hget
  | some row =>
    obtain ⟨package, hpackage, -⟩ := h.packaged id row hrow
    rw [hpackage]
    simp

theorem no_package_of_get {r : Registry} (h : RowsMatch r) {id : String} (hget : r.get id = none) :
    r.dirs (.package id) = none := by
  by_contra hne
  obtain ⟨package, hpackage⟩ := Option.ne_none_iff_exists'.mp hne
  have hrow := h.listed id package hpackage
  unfold Registry.get at hget
  exact hrow (Option.map_eq_none_iff.mp hget)

section

variable {cfg : RegistryConfig} {a : HostAnswers} {r : Registry} {candidate : SkillCandidate}
  {skillId : String} {operationKey : Option String}

/-- When nothing fails, an update goes through unless the skill is unknown or a path of
the candidate is outside its category. -/
theorem update_ok_iff (h : RowsMatch r) (ha : a.Sound r) :
    (∃ skill, (updateSkill cfg a skillId candidate operationKey r).result = .ok skill) ↔
      (∃ skill, (priorSkill a operationKey r).result = .ok (some skill)) ∨
        (priorSkill a operationKey r).result = .ok none ∧ (r.get skillId).isSome ∧
          ∃ files, filesToWrite candidate = .ok files := by
  have hrun := @updateSkill_run cfg a r skillId candidate operationKey (ha.fresh skillId).2
  have hstages : (priorSkill a operationKey r).result = .ok none → (r.get skillId).isSome →
      UpdateStages a r skillId operationKey :=
    fun hprior hget => ⟨hprior, ha.faultless _, hget, not_blocked ha skillId⟩
  generalize updateSkill cfg a skillId candidate operationKey r = run at hrun
  constructor
  · rintro ⟨skill, hok⟩
    cases hrun with
    | prior skill' hprior => exact Or.inl ⟨skill', hprior⟩
    | early _ _ _ => cases hok
    | leaks _ _ _ => cases hok
    | raised _ _ _ _ _ _ _ _ => cases hok
    | installed _ current files hstages hcurrent hfiles _ =>
      exact Or.inr ⟨hstages.1, hstages.2.2.1, files, hfiles⟩
  · rintro (⟨skill, hprior⟩ | ⟨hprior, hget, files, hfiles⟩)
    · cases hrun with
      | prior skill' _ => exact ⟨skill', rfl⟩
      | early _ hnot _ => exact absurd hprior (hnot skill)
      | leaks _ hst _ => rw [hst.1] at hprior; cases hprior
      | raised _ _ _ _ hst _ _ _ => rw [hst.1] at hprior; cases hprior
      | installed _ _ _ hst _ _ _ => exact ⟨_, rfl⟩
    · cases hrun with
      | prior skill' _ => exact ⟨skill', rfl⟩
      | early _ _ hnot => exact absurd (hstages hprior hget) hnot
      | leaks _ _ herror => rw [hfiles] at herror; cases herror
      | raised _ _ _ _ _ _ hcause _ =>
        rcases hcause with ⟨step, e, hfault⟩ | ⟨package, manifest, hinvalid⟩ | hmissing
        · rw [ha.faultless] at hfault; cases hfault
        · exact absurd (ha.valid package manifest) hinvalid
        · exact absurd hmissing (package_of_get h hget)
      | installed _ _ _ _ _ _ _ => exact ⟨_, rfl⟩

/-- When nothing fails, a skill is created unless its name has no identifier or an identifier
that is taken, or a path of the candidate is outside its category. -/
theorem create_ok_iff (h : RowsMatch r) (ha : a.Sound r) (givenId : Option String) :
    (∃ skill, (createSkill cfg a candidate givenId operationKey r).result = .ok skill) ↔
      (∃ skill, (priorSkill a operationKey r).result = .ok (some skill)) ∨
        (priorSkill a operationKey r).result = .ok none ∧
          (∃ id, slug cfg ((givenId.filter (· ≠ "")).getD candidate.name) = .ok id ∧
            r.get id = none) ∧ ∃ files, filesToWrite candidate = .ok files := by
  have hrun := @createSkill_run cfg a r candidate operationKey givenId
  generalize createSkill cfg a candidate givenId operationKey r = run at hrun
  constructor
  · rintro ⟨skill, hok⟩
    cases hrun with
    | prior skill' hprior => exact Or.inl ⟨skill', hprior⟩
    | early _ _ _ => cases hok
    | raised _ _ _ _ _ _ _ _ _ => cases hok
    | installed _ _ id files _ hstages hfiles _ _ _ =>
      exact Or.inr ⟨hstages.1, ⟨id, hstages.2.1, hstages.2.2.2.1⟩, files, hfiles⟩
  · rintro (⟨skill, hprior⟩ | ⟨hprior, ⟨id, hslug, hget⟩, files, hfiles⟩)
    · cases hrun with
      | prior skill' _ => exact ⟨skill', rfl⟩
      | early _ hnot _ => exact absurd hprior (hnot skill)
      | raised _ _ _ _ _ hst _ _ _ => rw [hst.1] at hprior; cases hprior
      | installed _ _ _ _ _ _ _ _ _ _ => exact ⟨_, rfl⟩
    · cases hrun with
      | prior skill' _ => exact ⟨skill', rfl⟩
      | early _ _ hnot =>
        exact absurd ⟨hprior, hslug, ha.faultless _, hget, not_blocked ha id⟩ (hnot id)
      | raised _ _ _ id' _ hst hcause _ _ =>
        rcases hcause with ⟨e, herror⟩ | ⟨step, e, hfault⟩ | ⟨package, manifest, hinvalid⟩ | hexists
        · rw [hfiles] at herror; cases herror
        · rw [ha.faultless] at hfault; cases hfault
        · exact absurd (ha.valid package manifest) hinvalid
        · exact absurd (no_package_of_get h hst.2.2.2.1) hexists
      | installed _ _ _ _ _ _ _ _ _ _ => exact ⟨_, rfl⟩

theorem operation_unapplied {key : String} (h : (priorSkill a operationKey r).result = .ok none)
    (hkey : givenKey operationKey = some key) : r.db.operations key = none := by
  unfold priorSkill at h
  rw [Durable.look_run, hkey] at h
  cases hcheck : a.check .readOperation with
  | error e =>
    rw [hcheck] at h
    cases h
  | ok _ =>
    cases hoperation : r.db.operations key with
    | none => rfl
    | some result =>
      cases hread : a.check .readSkill with
      | error e => cases result <;> simp [hcheck, hoperation, hread] at h
      | ok _ =>
        cases result with
        | skill id => cases hget : r.get id <;> simp [hcheck, hoperation, hread, hget] at h
        | recorded => simp [hcheck, hoperation] at h
        | retrieved _ _ => simp [hcheck, hoperation] at h
        | decision _ => simp [hcheck, hoperation] at h

theorem prior_unkeyed (hkey : givenKey operationKey = none) :
    (priorSkill a operationKey r).result = .ok none := by
  unfold priorSkill
  rw [Durable.look_run, hkey]

theorem prior_skill (ha : a.Faultless) {key id : String} {skill : RegisteredSkill}
    (hkey : givenKey operationKey = some key) (hoperation : r.db.operations key = some (.skill id))
    (hget : r.get id = some skill) : (priorSkill a operationKey r).result = .ok (some skill) := by
  unfold priorSkill
  rw [Durable.look_run, hkey]
  simp only [check_ok (ha _), hoperation, hget]

/-- Behind the commit of an operation with a key, its skill is returned again. -/
theorem prior_upserted {again : HostAnswers} {t : Registry} {manifest : SkillManifest}
    {path : String} {now : Nat} (hagain : again.Faultless)
    (hprior : (priorSkill a operationKey r).result = .ok none)
    (hdb : t.db = r.db.upsert manifest path candidate operationKey now) {key : String}
    (hkey : givenKey operationKey = some key) :
    ∃ skill, (priorSkill again operationKey t).result = .ok (some skill) := by
  have hoperation : t.db.operations key = some (.skill manifest.skillId) := by
    rw [hdb]
    simp only [SkillDatabase.upsert, hkey, Function.update_self, operation_unapplied hprior hkey,
      Option.getD_none]
  have hget : t.get manifest.skillId = some ⟨manifest, path⟩ := by
    unfold Registry.get
    rw [hdb]
    simp [SkillDatabase.upsert]
  exact ⟨_, prior_skill hagain hkey hoperation hget⟩

end

/-- The call installs a package. -/
def RegistryCall.Installs : RegistryCall → Prop
  | .create _ _ _ | .update _ _ _ => True
  | _ => False

/-- Repeated behind the event, the call goes through as it does before it. -/
def RegistryEvent.Repeatable (cfg : RegistryConfig) (event : RegistryEvent) (r : Registry) :
    Prop :=
  ∀ again : HostAnswers, again.Sound r → again.Sound (event.step cfg r) →
    (event.call.run cfg again r).result = .ok () →
      (event.call.run cfg again (event.step cfg r)).result = .ok ()

theorem void_ok_iff {α : Type} {run : DurableRun RegistryStep Registry RegistryError α} :
    run.void.result = .ok () ↔ ∃ b, run.result = .ok b := by
  unfold DurableRun.void
  cases run.result with
  | error e => simp [Except.map]
  | ok b => simp [Except.map]

theorem update_passed {cfg : RegistryConfig} {a : HostAnswers} {r : Registry} {skillId : String}
    {candidate : SkillCandidate} {operationKey : Option String} (hfresh : a.Fresh r)
    {p : RegistryStep × Registry}
    (hp : p ∈ (updateSkill cfg a skillId candidate operationKey r).passed) :
    p.1.swaps = true ∨ Unmoved r p.2 ∨ (priorSkill a operationKey r).result = .ok none ∧
      (∃ files, filesToWrite candidate = .ok files) ∧ ∃ manifest package,
        manifest.skillId = skillId ∧ Replaced r p.2 (r.db.upsert manifest (packagePath cfg skillId)
          candidate operationKey a.rowsNow) skillId package := by
  have hrun := @updateSkill_run cfg a r skillId candidate operationKey (hfresh skillId).2
  generalize updateSkill cfg a skillId candidate operationKey r = run at hrun hp
  have hcases : Unmoved r p.2 ∨ ∃ current files, UpdateStages a r skillId operationKey ∧
      filesToWrite candidate = .ok files ∧
      UpdatePassed cfg a r current skillId candidate operationKey files p := by
    cases hrun with
    | prior _ _ => cases hp
    | early _ _ _ => cases hp
    | leaks _ _ _ =>
      rw [List.mem_singleton] at hp
      subst hp
      exact Or.inl (unmoved_put _ _ _)
    | raised _ _ current files hstages hfiles _ hall =>
      exact Or.inr ⟨current, files, hstages, hfiles, hall p hp⟩
    | installed _ current files hstages _ hfiles hall =>
      exact Or.inr ⟨current, files, hstages, hfiles, hall p hp⟩
  rcases hcases with h | ⟨current, files, hstages, hfiles, h | ⟨-, h⟩ | ⟨-, h⟩⟩
  · exact Or.inr (Or.inl h)
  · exact Or.inl h
  · exact Or.inr (Or.inl h)
  · exact Or.inr (Or.inr ⟨hstages.1, ⟨files, hfiles⟩, _, _, rfl, h⟩)

theorem create_passed {cfg : RegistryConfig} {a : HostAnswers} {r : Registry}
    {candidate : SkillCandidate} {skillId operationKey : Option String}
    {p : RegistryStep × Registry}
    (hp : p ∈ (createSkill cfg a candidate skillId operationKey r).passed) :
    p.1 = .renameStaging ∨ Unmoved r p.2 ∨ p.1 = .upsertRows ∧
      (priorSkill a operationKey r).result = .ok none ∧ ∃ manifest path id package,
        Replaced r p.2 (r.db.upsert manifest path candidate operationKey a.rowsNow) id package := by
  have hrun := @createSkill_run cfg a r candidate operationKey skillId
  generalize createSkill cfg a candidate skillId operationKey r = run at hrun hp
  have hcases : ∃ id files, CreateStages cfg a r candidate skillId operationKey id ∧
      CreatePassed cfg a r id candidate operationKey files p := by
    cases hrun with
    | prior _ _ => cases hp
    | early _ _ _ => cases hp
    | raised _ _ _ id files hstages _ hall _ => exact ⟨id, files, hstages, hall p hp⟩
    | installed _ _ id files _ hstages _ hall _ _ => exact ⟨id, files, hstages, hall p hp⟩
  obtain ⟨id, files, hstages, h | h | ⟨hlabel, package, -, h⟩⟩ := hcases
  · exact Or.inl h
  · exact Or.inr (Or.inl h)
  · exact Or.inr (Or.inr ⟨hlabel, hstages.1, _, _, id, package, h⟩)

/-- A call behind whose crash the registry is as before it. -/
theorem repeats_of_unmoved {cfg : RegistryConfig} {a : HostAnswers} {r t : Registry}
    (h : RowsMatch r) (hrows : RowsMatch t) (hbefore : a.Sound r) (hbehind : a.Sound t)
    (hsame : Unmoved r t) {call : RegistryCall} (hinstalls : call.Installs)
    (hok : (call.run cfg a r).result = .ok ()) : (call.run cfg a t).result = .ok () := by
  cases call with
  | create candidate skillId operationKey =>
    refine void_ok_iff.mpr ((create_ok_iff hrows hbehind skillId).mpr ?_)
    have hready := (create_ok_iff h hbefore skillId).mp (void_ok_iff.mp hok)
    rw [prior_congr hsame.db]
    simp only [get_congr hsame.db]
    exact hready
  | update skillId candidate operationKey =>
    refine void_ok_iff.mpr ((update_ok_iff hrows hbehind).mpr ?_)
    have hready := (update_ok_iff h hbefore).mp (void_ok_iff.mp hok)
    rw [prior_congr hsame.db, get_congr hsame.db]
    exact hready
  | setEnabled _ _ => cases hinstalls
  | recordRetrieval _ _ _ => cases hinstalls
  | recordUse _ _ _ _ => cases hinstalls
  | recordOperation _ _ => cases hinstalls
  | appendSkillMemory _ _ => cases hinstalls

/-- An interrupted creation or update can be repeated. -/
theorem event_repeats {cfg : RegistryConfig} {event : RegistryEvent} {r : Registry}
    (h : RowsMatch r) (hfresh : event.answers.Fresh r) (hsafe : event.Safe cfg r) {n : Nat}
    (hcrash : event.crash = some n) (hinstalls : event.call.Installs) :
    event.Repeatable cfg r := by
  intro again hbefore hbehind hok
  have hrows := step_rowsMatch cfg h hfresh hsafe
  have hcases := DurableRun.crashed_cases (event.call.run cfg event.answers r) n r
  rw [← step_crashed hcrash] at hcases
  rcases hcases with hsame | ⟨p, hlast, hin, heq⟩
  · rw [hsame]
    exact hok
  obtain ⟨hexposed, hunkeyed⟩ := hsafe.crash n p hcrash hlast
  by_cases hunmoved : Unmoved r (event.step cfg r)
  · exact repeats_of_unmoved h hrows hbefore hbehind hunmoved hinstalls hok
  generalize event.step cfg r = t at hrows hbehind heq hunmoved ⊢
  subst heq
  cases hcall : event.call with
  | create candidate skillId operationKey =>
    rw [hcall] at hin hexposed hunkeyed
    refine void_ok_iff.mpr ((create_ok_iff hrows hbehind skillId).mpr (Or.inl ?_))
    rcases create_passed hin with hlabel | hsame | ⟨hlabel, hprior, manifest, path, id, package, hr⟩
    · exact absurd hlabel hexposed
    · exact absurd hsame hunmoved
    · cases hkey : givenKey operationKey with
      | none => exact absurd ⟨hlabel, hkey⟩ hunkeyed
      | some key => exact prior_upserted hbehind.faultless hprior hr.db hkey
  | update skillId candidate operationKey =>
    rw [hcall] at hin hexposed
    refine void_ok_iff.mpr ((update_ok_iff hrows hbehind).mpr ?_)
    rcases update_passed hfresh hin with hlabel | hsame |
      ⟨hprior, hfiles, manifest, package, hid, hr⟩
    · exact absurd hlabel hexposed
    · exact absurd hsame hunmoved
    · cases hkey : givenKey operationKey with
      | some key => exact Or.inl (prior_upserted hbehind.faultless hprior hr.db hkey)
      | none =>
        refine Or.inr ⟨prior_unkeyed hkey, ?_, hfiles⟩
        unfold Registry.get
        rw [hr.db, ← hid]
        simp [SkillDatabase.upsert]
  | setEnabled _ _ => rw [hcall] at hinstalls; cases hinstalls
  | recordRetrieval _ _ _ => rw [hcall] at hinstalls; cases hinstalls
  | recordUse _ _ _ _ => rw [hcall] at hinstalls; cases hinstalls
  | recordOperation _ _ => rw [hcall] at hinstalls; cases hinstalls
  | appendSkillMemory _ _ => rw [hcall] at hinstalls; cases hinstalls

/-! ## Every run -/

theorem rowsMatch_empty : RowsMatch Registry.empty :=
  ⟨fun _ _ h => (Option.some_ne_none _ h.symm).elim,
    fun _ _ h => (Option.some_ne_none _ h.symm).elim⟩

/-- In a run whose crashes come behind no exposed effect, every row has its package and
every package its row after every crash, and what was interrupted can be repeated. -/
theorem crashes_recovered (cfg : RegistryConfig) (events : List RegistryEvent)
    (hsafe : Run.Every (RegistryEvent.step cfg) (fun event r => event.answers.Fresh r ∧
      event.Safe cfg r) Registry.empty events) :
    RowsMatch (Run.run (RegistryEvent.step cfg) Registry.empty events) ∧
      ∀ event : RegistryEvent, let r := Run.run (RegistryEvent.step cfg) Registry.empty events
        event.answers.Fresh r → event.Safe cfg r → event.crash ≠ none → event.call.Installs →
          RowsMatch (event.step cfg r) ∧ event.Repeatable cfg r := by
  have hrows := Run.invariant_of_every (fun r event hok h => step_rowsMatch cfg h hok.1 hok.2)
    rowsMatch_empty hsafe
  refine ⟨hrows, ?_⟩
  intro event r hfresh hok hcrash hinstalls
  obtain ⟨n, hn⟩ := Option.ne_none_iff_exists'.mp hcrash
  exact ⟨step_rowsMatch cfg hrows hfresh hok, event_repeats hrows hfresh hok hn hinstalls⟩

namespace Sample

/-- The process ends behind `staging.rename(package)`. -/
def createInterrupted : RegistryEvent where
  call := .create skillCandidate none none
  answers := succeeding "a"
  crash := some 7

/-- The process ends behind `current.rename(previous)`. -/
def updateInterrupted : RegistryEvent where
  call := .update "debug" skillCandidate none
  answers := succeeding "b"
  crash := some 5

def afterCreate : Registry := createInterrupted.step registryConfig Registry.empty

def afterUpdate : Registry := updateInterrupted.step registryConfig oneSkill

/-- A package without a row, and a row without a package; neither call can be repeated. -/
theorem interrupted_calls_stay :
    ((afterCreate.dirs (.package "debug")).isSome = true ∧ afterCreate.db.skills "debug" = none ∧
      ∃ e, (createSkill registryConfig (succeeding "c") skillCandidate none none
        afterCreate).result = .error e) ∧
    (afterUpdate.db.skills "debug").isSome = true ∧ afterUpdate.dirs (.package "debug") = none ∧
      ∃ e, (updateSkill registryConfig (succeeding "c") "debug" skillCandidate none
        afterUpdate).result = .error e := by
  refine ⟨⟨by decide +kernel, by decide +kernel,
      .capability "skill package already exists: /skills/debug/package", ?_⟩,
    by decide +kernel, by decide +kernel, .capability "current package missing for debug", ?_⟩
  · with_unfolding_all rfl
  · with_unfolding_all rfl

def createdWithKey : RegistryEvent where
  call := .create skillCandidate none (some "key")
  answers := succeeding "a"
  crash := some 8

theorem created_recovered : RowsMatch
    (Run.run (RegistryEvent.step registryConfig) Registry.empty [createdWithKey]) := by
  have hlast : ((createdWithKey.call.run registryConfig createdWithKey.answers
      Registry.empty).lastOf 8).map Prod.fst = some .upsertRows := by decide +kernel
  have hsafe : createdWithKey.Safe registryConfig Registry.empty := by
    refine ⟨fun n p hcrash hp => ?_, fun _ _ hcall => by cases hcall⟩
    cases hcrash
    rw [hp] at hlast
    have hlabel : p.1 = .upsertRows := Option.some.inj hlast
    rw [hlabel]
    constructor
    · intro hexposed
      cases hexposed
    · rintro ⟨-, hkey⟩
      exact absurd hkey (by decide)
  exact (crashes_recovered registryConfig [createdWithKey]
    ⟨⟨fun _ => ⟨rfl, rfl⟩, hsafe⟩, trivial⟩).1

end Sample

end EvoCI
