import EvoCI.Capability.Install

/-! An update that raises: the handlers give back the registry as it was, but for a
staging directory that is made before the paths of the candidate are looked at. -/

namespace EvoCI

open Library

/-! ## How an update ends -/

/-- The rows and the packages are those of `r`. -/
structure Unmoved (r t : Registry) : Prop where
  db : t.db = r.db
  package : ∀ skillId, t.dirs (.package skillId) = r.dirs (.package skillId)

/-- The package and its rows are new, those of other skills are as in `r`. -/
structure Replaced (r t : Registry) (db : SkillDatabase) (skillId : String) (package : Package) :
    Prop where
  db : t.db = db
  package : t.dirs (.package skillId) = some package
  other : ∀ skillId', skillId' ≠ skillId →
    t.dirs (.package skillId') = r.dirs (.package skillId')

theorem unmoved_put (r : Registry) (name : String) (package : Option Package) :
    Unmoved r (r.put (.staging name) package) :=
  ⟨rfl, fun _ => dirs_put_of_ne r package (by simp)⟩

theorem unmoved_of_stages {r : Registry} {name : String} {p : RegistryStep × Registry}
    (h : Stages r name p) : Unmoved r p.2 := by
  obtain ⟨-, package, hput⟩ := h
  rw [hput]
  exact unmoved_put r name package

theorem unmoved_of_keepsCurrent {a : HostAnswers} {skillId name : String} {r t : Registry}
    {current : Package} (hcurrent : r.dirs (.package skillId) = some current)
    (h : KeepsCurrent a skillId name r current t) : Unmoved r t := by
  obtain ⟨staging, previous, old, rfl⟩ := h
  refine ⟨rfl, fun skillId' => ?_⟩
  by_cases hsame : skillId' = skillId
  · subst hsame
    rw [withLayout_package, hcurrent]
  · exact withLayout_other r name skillId a.oldToken _ hsame

/-- The call comes to making a staging directory, and makes it. -/
def UpdateStages (a : HostAnswers) (r : Registry) (skillId : String)
    (operationKey : Option String) : Prop :=
  (priorSkill a operationKey r).result = .ok none ∧ a.fault .readSkill = none ∧
    (r.get skillId).isSome ∧ ¬ StagingBlocked a r (stagingName a skillId)

/-- The manifest an update of this skill writes. -/
def updateManifest (cfg : RegistryConfig) (a : HostAnswers) (current : RegisteredSkill)
    (skillId : String) (candidate : SkillCandidate) (files : List GeneratedFile) :
    SkillManifest :=
  newManifest cfg a candidate skillId (updateLineage current.manifest candidate) files

/-- Why an update does not go through. -/
def Hindered (a : HostAnswers) (r : Registry) (skillId : String) : Prop :=
  (∃ step e, a.fault step = some e) ∨ (∃ package manifest, a.validation package manifest ≠ .ok []) ∨
    r.dirs (.package skillId) = none

/-- A store passed through by an update that stages these files: the renames apart, it
is as before the call or has the new package with its rows. -/
def UpdatePassed (cfg : RegistryConfig) (a : HostAnswers) (r : Registry)
    (current : RegisteredSkill) (skillId : String) (candidate : SkillCandidate)
    (operationKey : Option String) (files : List GeneratedFile)
    (p : RegistryStep × Registry) : Prop :=
  let manifest := updateManifest cfg a current skillId candidate files
  p.1.swaps = true ∨ p.1.committed = false ∧ Unmoved r p.2 ∨
    p.1.committed = true ∧ Replaced r p.2
      (r.db.upsert manifest (packagePath cfg skillId) candidate operationKey a.rowsNow) skillId
      ⟨files, some manifest, true⟩

/-- The ways in which an update can run. -/
inductive UpdateRun (cfg : RegistryConfig) (a : HostAnswers) (r : Registry) (skillId : String)
    (candidate : SkillCandidate) (operationKey : Option String) :
    DurableRun RegistryStep Registry RegistryError RegisteredSkill → Prop where
  | prior (skill : RegisteredSkill) (h : (priorSkill a operationKey r).result = .ok (some skill)) :
      UpdateRun cfg a r skillId candidate operationKey ⟨[], .ok skill, r⟩
  | early (e : RegistryError)
      (hprior : ∀ skill, (priorSkill a operationKey r).result ≠ .ok (some skill))
      (h : ¬ UpdateStages a r skillId operationKey) :
      UpdateRun cfg a r skillId candidate operationKey ⟨[], .error e, r⟩
  | leaks (e : RegistryError) (h : UpdateStages a r skillId operationKey)
      (hfiles : filesToWrite candidate = .error e) :
      UpdateRun cfg a r skillId candidate operationKey
        ⟨[(.makeStaging, r.put (.staging (stagingName a skillId)) (some {}))], .error e,
          r.put (.staging (stagingName a skillId)) (some {})⟩
  | raised (passed : List (RegistryStep × Registry)) (e : RegistryError)
      (current : RegisteredSkill) (files : List GeneratedFile)
      (hstages : UpdateStages a r skillId operationKey)
      (hfiles : filesToWrite candidate = .ok files) (hcause : Hindered a r skillId)
      (hpassed : ∀ p ∈ passed,
        UpdatePassed cfg a r current skillId candidate operationKey files p) :
      UpdateRun cfg a r skillId candidate operationKey ⟨passed, .error e, r⟩
  | installed (passed : List (RegistryStep × Registry)) (current : RegisteredSkill)
      (files : List GeneratedFile) (hstages : UpdateStages a r skillId operationKey)
      (hcurrent : r.get skillId = some current)
      (hfiles : filesToWrite candidate = .ok files)
      (hpassed : ∀ p ∈ passed,
        UpdatePassed cfg a r current skillId candidate operationKey files p) :
      UpdateRun cfg a r skillId candidate operationKey
        ⟨passed, .ok ⟨updateManifest cfg a current skillId candidate files,
            packagePath cfg skillId⟩,
          (r.upserted cfg a skillId (updateManifest cfg a current skillId candidate files)
            candidate operationKey).withLayout (stagingName a skillId) skillId a.oldToken
            ⟨none, some ⟨files, some (updateManifest cfg a current skillId candidate files), true⟩,
              r.dirs (.package skillId), none⟩⟩

section

variable {cfg : RegistryConfig} {a : HostAnswers} {r : Registry} {skillId : String}
  {candidate : SkillCandidate} {operationKey : Option String}

theorem replaced_upserted {name : String} {manifest : SkillManifest} {package : Package}
    {previous old : Option Package} :
    Replaced r ((r.upserted cfg a skillId manifest candidate operationKey).withLayout name skillId
        a.oldToken ⟨none, some package, previous, old⟩)
      (r.db.upsert manifest (packagePath cfg skillId) candidate operationKey a.rowsNow) skillId
      package :=
  ⟨rfl, by simp, fun _ hne => withLayout_other _ _ _ _ _ hne⟩

theorem validateStaging_run (name : String) (manifest : SkillManifest) (t : Registry) :
    validateStaging a name manifest t = ⟨[], .ok (), t⟩ ∨
      ∃ e, validateStaging a name manifest t = ⟨[], .error e, t⟩ ∧
        ((∃ step e, a.fault step = some e) ∨
          ∃ package manifest, a.validation package manifest ≠ .ok []) := by
  unfold validateStaging
  rw [Durable.look_run]
  cases hfault : a.fault .validate with
  | some e =>
    rw [check_error hfault]
    exact Or.inr ⟨e, rfl, Or.inl ⟨_, e, hfault⟩⟩
  | none =>
    rw [check_ok hfault]
    cases hverdict : a.validation ((t.dirs (.staging name)).getD {}) manifest with
    | error e =>
      exact Or.inr ⟨e, rfl, Or.inr ⟨_, manifest, by rw [hverdict]; simp⟩⟩
    | ok errors =>
      by_cases herrors : errors = []
      · subst herrors
        exact Or.inl rfl
      · refine Or.inr ⟨.capability ("skill validation failed: " ++ "; ".intercalate errors), ?_,
          Or.inr ⟨_, manifest, by rw [hverdict]; simpa using herrors⟩⟩
        change (⟨[], (if errors = [] then _ else _), t⟩ : DurableRun _ _ _ _) = _
        rw [if_neg herrors]
        rfl

/-- From the staged package on. -/
theorem installStaged_run (hfresh : r.dirs (.oldPrevious skillId a.oldToken) = none)
    (hstaging : r.dirs (.staging (stagingName a skillId)) = none) (current : RegisteredSkill)
    (files : List GeneratedFile) :
    let name := stagingName a skillId
    let manifest := updateManifest cfg a current skillId candidate files
    let m := Durable.onError
      (do
        validateStaging a name manifest
        installUpdate cfg a skillId name manifest candidate operationKey)
      (remove .removeStaging (.staging name))
    ∃ passed, (∀ p ∈ passed,
        UpdatePassed cfg a r current skillId candidate operationKey files p) ∧
      (m (r.put (.staging name) (some ⟨files, some manifest, false⟩)) = ⟨passed, .ok ⟨manifest,
          packagePath cfg skillId⟩, (r.upserted cfg a skillId manifest candidate
            operationKey).withLayout name skillId a.oldToken
            ⟨none, some ⟨files, some manifest, true⟩, r.dirs (.package skillId), none⟩⟩ ∨
        Hindered a r skillId ∧ ∃ e,
          m (r.put (.staging name) (some ⟨files, some manifest, false⟩)) =
            ⟨passed, .error e, r⟩) := by
  intro name manifest m
  have hundo : ∀ staged, remove .removeStaging (.staging name) (r.put (.staging name) staged) =
      ⟨[(.removeStaging, r)], .ok (), r⟩ := by
    intro staged
    rw [remove_run, put_put_self, put_of_eq hstaging]
  have hlast : UpdatePassed cfg a r current skillId candidate operationKey files
      (.removeStaging, r) := Or.inr (Or.inl ⟨rfl, rfl, fun _ => rfl⟩)
  have hall : ∀ {passed : List (RegistryStep × Registry)}, (∀ p ∈ passed,
      UpdatePassed cfg a r current skillId candidate operationKey files p) →
      ∀ p ∈ passed ++ [(.removeStaging, r)],
        UpdatePassed cfg a r current skillId candidate operationKey files p := by
    intro passed hpassed p hp
    rcases List.mem_append.mp hp with hp | hp
    · exact hpassed p hp
    · rw [List.mem_singleton] at hp
      subst hp
      exact hlast
  rcases validateStaging_run name manifest
    (r.put (.staging name) (some ⟨files, some manifest, false⟩)) with hvalid | ⟨e, hinvalid, hcause⟩
  · cases hcurrent : r.dirs (.package skillId) with
    | none =>
      refine ⟨[(.removeStaging, r), (.removeStaging, r)], by simpa using hlast,
        Or.inr ⟨Or.inr (Or.inr hcurrent),
          .capability s!"current package missing for {skillId}", ?_⟩⟩
      have hmissing : installUpdate cfg a skillId name manifest candidate operationKey
          (r.put (.staging name) (some ⟨files, some manifest, false⟩)) =
          ⟨[(.removeStaging, r)],
            .error (.capability s!"current package missing for {skillId}"), r⟩ := by
        refine Durable.bind_error ?_
        rw [Durable.onlyIf_true _ (by rw [dirs_put_of_ne _ _ (by simp), hcurrent]; rfl),
          Durable.bind_ok (hundo _)]
        rfl
      change Durable.onError _ _ _ = _
      rw [Durable.onError_error ((Durable.bind_ok hvalid).trans (by rw [hmissing])), remove_run,
        put_of_eq hstaging]
      rfl
    | some package =>
      have hlayout : ∀ staged, r.put (.staging name) (some staged) =
          r.withLayout name skillId a.oldToken
            ⟨some staged, some package, r.dirs (.previous skillId), none⟩ := by
        intro staged
        rw [put_staging_eq r name skillId a.oldToken, ← hcurrent, ← hfresh]
        rfl
      have hself : r.withLayout name skillId a.oldToken
          ⟨none, some package, r.dirs (.previous skillId), none⟩ = r := by
        conv_rhs => rw [← withLayout_layout r name skillId a.oldToken]
        unfold Registry.layout
        rw [hstaging, hcurrent, hfresh]
      obtain ⟨passed, hpassed, hinstall⟩ := @installUpdate_run cfg a candidate skillId name manifest
        operationKey r ⟨files, some manifest, false⟩ package (r.dirs (.previous skillId))
      have hpassed : ∀ p ∈ passed,
          UpdatePassed cfg a r current skillId candidate operationKey files p := by
        intro p hp
        rcases hpassed p hp with h | ⟨hlabel, h⟩ | ⟨hlabel, old, h⟩
        · exact Or.inl h
        · exact Or.inr (Or.inl ⟨hlabel, unmoved_of_keepsCurrent hcurrent h⟩)
        · exact Or.inr (Or.inr ⟨hlabel, h ▸ replaced_upserted⟩)
      rw [← hlayout] at hinstall
      rcases hinstall with hinstall | ⟨step, e, staging, hstep, hinstall⟩
      · refine ⟨passed, hpassed, Or.inl ?_⟩
        exact Durable.onError_ok ((Durable.bind_ok hvalid).trans (by rw [hinstall]; rfl))
      · refine ⟨passed ++ [(.removeStaging, r)], hall hpassed, Or.inr ⟨Or.inl ⟨step, e, hstep⟩,
          e, ?_⟩⟩
        change Durable.onError _ _ _ = _
        rw [Durable.onError_error ((Durable.bind_ok hvalid).trans (by rw [hinstall])),
          remove_run, put_staging, hself]
        rfl
  · refine ⟨[(.removeStaging, r)], by simpa using hlast, Or.inr ⟨?_, e, ?_⟩⟩
    · rcases hcause with h | h
      · exact Or.inl h
      · exact Or.inr (Or.inl h)
    · change Durable.onError _ _ _ = _
      rw [Durable.onError_error (Durable.bind_error hinvalid), hundo]
      rfl

theorem priorSkill_run : priorSkill a operationKey r =
    ⟨[], (priorSkill a operationKey r).result, r⟩ := rfl

theorem updateSkill_run (hfresh : r.dirs (.oldPrevious skillId a.oldToken) = none) :
    UpdateRun cfg a r skillId candidate operationKey
      (updateSkill cfg a skillId candidate operationKey r) := by
  unfold updateSkill
  cases hprior : (priorSkill a operationKey r).result with
  | error e =>
    have hrun : priorSkill a operationKey r = ⟨[], .error e, r⟩ := by rw [priorSkill_run, hprior]
    rw [Durable.bind_error hrun]
    refine .early e (fun skill h => ?_) fun h => ?_
    · rw [hprior] at h
      cases h
    · rw [h.1] at hprior
      cases hprior
  | ok prior =>
    have hrun : priorSkill a operationKey r = ⟨[], .ok prior, r⟩ := by rw [priorSkill_run, hprior]
    rw [Durable.bind_ok hrun]
    cases prior with
    | some skill => exact .prior skill hprior
    | none =>
      have hnone : ∀ skill, (priorSkill a operationKey r).result ≠ .ok (some skill) := by
        intro skill h
        rw [hprior] at h
        cases h
      cases hread : a.fault .readSkill with
      | some e =>
        have hget : getSkill a skillId r = ⟨[], .error e, r⟩ := by
          unfold getSkill
          rw [Durable.look_run, check_error hread]
          rfl
        simp only [Durable.bind_error hget, List.nil_append]
        refine .early e hnone fun h => ?_
        rw [h.2.1] at hread
        cases hread
      | none =>
        have hget : getSkill a skillId r = ⟨[], .ok (r.get skillId), r⟩ := by
          unfold getSkill
          rw [Durable.look_run, check_ok hread]
          rfl
        simp only [Durable.bind_ok hget, List.nil_append]
        cases hcurrent : r.get skillId with
        | none =>
          refine .early _ hnone fun h => ?_
          have hsome := h.2.2.1
          rw [hcurrent] at hsome
          cases hsome
        | some current =>
          by_cases hblocked : StagingBlocked a r (stagingName a skillId)
          · obtain ⟨e, hstaging⟩ := @writeStaging_blocked cfg a candidate skillId
              (updateLineage current.manifest candidate) r hblocked
            simp only [Durable.bind_error hstaging]
            exact .early e hnone fun h => h.2.2.2 hblocked
          · have hstages : UpdateStages a r skillId operationKey :=
              ⟨hprior, hread, by rw [hcurrent]; rfl, hblocked⟩
            have hdir : r.dirs (.staging (stagingName a skillId)) = none := by
              by_contra hne
              exact hblocked (Or.inr hne)
            cases hfiles : filesToWrite candidate with
            | error e =>
              simp only [Durable.bind_error (writeStaging_leaks hblocked hfiles)]
              exact .leaks e hstages hfiles
            | ok files =>
              obtain ⟨staged, hstaged, hwrite⟩ := @writeStaging_run cfg a candidate skillId
                (updateLineage current.manifest candidate) r hblocked files hfiles
              have hstaged : ∀ p ∈ staged,
                  UpdatePassed cfg a r current skillId candidate operationKey files p := by
                intro p hp
                have hlabel : p.1.committed = false := by
                  have := (hstaged p hp).1
                  cases hstep : p.1 <;> rw [hstep] at this <;> first | rfl | cases this
                exact Or.inr (Or.inl ⟨hlabel, unmoved_of_stages (hstaged p hp)⟩)
              rcases hwrite with hwrite | ⟨step, e, hstep, hwrite⟩
              · obtain ⟨passed, hpassed, hinstall⟩ := @installStaged_run cfg a r skillId candidate
                  operationKey hfresh hdir current files
                have hall : ∀ p ∈ staged ++ passed,
                    UpdatePassed cfg a r current skillId candidate operationKey files p := by
                  intro p hp
                  rcases List.mem_append.mp hp with hp | hp
                  · exact hstaged p hp
                  · exact hpassed p hp
                simp only [Durable.bind_ok hwrite]
                rcases hinstall with hinstall | ⟨hcause, e, hinstall⟩
                · unfold updateManifest at hinstall
                  rw [hinstall]
                  exact .installed _ current files hstages hcurrent hfiles hall
                · unfold updateManifest at hinstall
                  rw [hinstall]
                  exact .raised _ e current files hstages hfiles hcause hall
              · simp only [Durable.bind_error hwrite]
                exact .raised staged e current files hstages hfiles (Or.inl ⟨step, e, hstep⟩)
                  hstaged

/-! ## The registry behind an update -/

/-- An update that raises leaves everything as it was. One that returns has installed the
candidate: `package/` is new, `previous/` is the package before, nothing is staged and the
memory is the same; or its operation was applied before and nothing changed. -/
structure UpdateKept (cfg : RegistryConfig) (a : HostAnswers) (r : Registry) (skillId : String)
    (candidate : SkillCandidate) (operationKey : Option String) : Prop where
  raised : ∀ e, (updateSkill cfg a skillId candidate operationKey r).result = .error e →
    (updateSkill cfg a skillId candidate operationKey r).state = r
  returned : ∀ skill, (updateSkill cfg a skillId candidate operationKey r).result = .ok skill →
    (priorSkill a operationKey r).result = .ok (some skill) ∧
      (updateSkill cfg a skillId candidate operationKey r).state = r ∨
    ∃ current files, r.get skillId = some current ∧ filesToWrite candidate = .ok files ∧
      skill.manifest = updateManifest cfg a current skillId candidate files ∧
      let t := (updateSkill cfg a skillId candidate operationKey r).state
      t.dirs (.package skillId) = some ⟨files, some skill.manifest, true⟩ ∧
        t.dirs (.previous skillId) = r.dirs (.package skillId) ∧ t.memory = r.memory ∧
        t.dirs (.staging (stagingName a skillId)) = none ∧
        t.dirs (.oldPrevious skillId a.oldToken) = none

/-- An update keeps what it must exactly when no staging directory is made for a candidate
with a path outside its category. The fresh name is that of `uuid4`. -/
theorem update_kept_iff (cfg : RegistryConfig) (a : HostAnswers) (r : Registry)
    (skillId : String) (candidate : SkillCandidate) (operationKey : Option String)
    (hfresh : r.dirs (.oldPrevious skillId a.oldToken) = none) :
    UpdateKept cfg a r skillId candidate operationKey ↔
      (UpdateStages a r skillId operationKey → ∃ files, filesToWrite candidate = .ok files) := by
  have hrun := @updateSkill_run cfg a r skillId candidate operationKey hfresh
  constructor
  · intro h hstages
    cases hfiles : filesToWrite candidate with
    | ok files => exact ⟨files, rfl⟩
    | error e =>
      have hraised := h.raised
      generalize updateSkill cfg a skillId candidate operationKey r = run at hrun hraised
      cases hrun with
      | prior skill hprior =>
        rw [hstages.1] at hprior
        cases hprior
      | early e' _ hnot => exact absurd hstages hnot
      | leaks e' _ _ =>
        have hdirs := congrArg (fun t => t.dirs (.staging (stagingName a skillId)))
          (hraised e' rfl)
        rw [dirs_put_self] at hdirs
        exact absurd (Or.inr (by rw [← hdirs]; simp)) hstages.2.2.2
      | raised passed e' current files _ hok _ _ =>
        rw [hfiles] at hok
        cases hok
      | installed passed current files _ _ hok _ =>
        rw [hfiles] at hok
        cases hok
  · intro h
    have hkept : ∀ run, UpdateRun cfg a r skillId candidate operationKey run →
        (∀ e, run.result = .error e → run.state = r) := by
      intro run hrun e he
      cases hrun with
      | prior _ _ => rfl
      | early _ _ _ => rfl
      | leaks e' hstages hfiles =>
        obtain ⟨files, hok⟩ := h hstages
        rw [hok] at hfiles
        cases hfiles
      | raised _ _ _ _ _ _ _ _ => rfl
      | installed _ _ _ _ _ _ _ => cases he
    refine ⟨hkept _ hrun, fun skill hok => ?_⟩
    generalize updateSkill cfg a skillId candidate operationKey r = run at hrun hok
    cases hrun with
    | prior skill' hprior =>
      cases hok
      exact Or.inl ⟨hprior, rfl⟩
    | early _ _ _ => cases hok
    | leaks _ _ _ => cases hok
    | raised _ _ _ _ _ _ _ _ => cases hok
    | installed passed current files _ hcurrent hfiles _ =>
      cases hok
      exact Or.inr ⟨current, files, hcurrent, hfiles, rfl, by simp, by simp, rfl, by simp, by simp⟩

end

namespace Sample

def registryConfig : RegistryConfig where
  root := "/skills"
  sha256 _ := "0"
  lower value := value

/-- Everything succeeds. -/
def succeeding (token : String) : HostAnswers where
  token
  oldToken := token
  now := 1
  rowsNow := 1
  validation _ _ := .ok []
  fault _ := none

def skillCandidate : SkillCandidate where
  name := "debug"
  description := ""
  triggers := []
  taskFamilies := []
  skillMd := "---\n"
  sourceRunIds := ["run"]

/-- A script that is not under `scripts/`. -/
def misplaced : SkillCandidate :=
  { skillCandidate with scripts := [{ path := "tools/run.py", content := "" }] }

/-- The registry with one skill. -/
def oneSkill : Registry :=
  (createSkill registryConfig (succeeding "a") skillCandidate none none Registry.empty).state

theorem misplaced_leaves_staging :
    (∃ e, (updateSkill registryConfig (succeeding "b") "debug" misplaced none oneSkill).result =
      .error e) ∧
    oneSkill.dirs (.staging ".staging-debug-b") = none ∧
    (updateSkill registryConfig (succeeding "b") "debug" misplaced none oneSkill).state.dirs
      (.staging ".staging-debug-b") = some {} := by
  refine ⟨⟨.policyViolation "tools/run.py must be under scripts/", ?_⟩, ?_, ?_⟩
  · with_unfolding_all rfl
  · decide +kernel
  · decide +kernel

theorem plain_update_kept :
    UpdateKept registryConfig (succeeding "b") oneSkill "debug" skillCandidate none := by
  have hfresh : oneSkill.dirs (.oldPrevious "debug" "b") = none := by decide +kernel
  exact (update_kept_iff registryConfig (succeeding "b") oneSkill "debug" skillCandidate none
    hfresh).mpr fun _ => ⟨_, rfl⟩

end Sample

end EvoCI
