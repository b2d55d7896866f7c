import EvoCI.Capability.Registry

/-! What staging and installing a package come to: the four directories an update moves
packages between, and the registry after each of its effects. -/

namespace EvoCI

open Library

/-! ## The directories of an update -/

/-- The packages in the staging directory, in `package/`, in `previous/` and in the
directory an old `previous/` is moved to. -/
structure Layout where
  staging : Option Package
  package : Option Package
  previous : Option Package
  oldPrevious : Option Package

/-- The registry with these packages in the directories of an update. -/
def Registry.withLayout (r : Registry) (name skillId token : String) (l : Layout) : Registry :=
  { r with
    dirs := fun place =>
      if place = .staging name then l.staging
      else if place = .package skillId then l.package
      else if place = .previous skillId then l.previous
      else if place = .oldPrevious skillId token then l.oldPrevious
      else r.dirs place }

def Registry.layout (r : Registry) (name skillId token : String) : Layout :=
  ⟨r.dirs (.staging name), r.dirs (.package skillId), r.dirs (.previous skillId),
    r.dirs (.oldPrevious skillId token)⟩

section

variable (r : Registry) (name skillId token : String) (l : Layout) (package : Option Package)

@[simp] theorem withLayout_staging :
    (r.withLayout name skillId token l).dirs (.staging name) = l.staging := by
  simp [Registry.withLayout]

@[simp] theorem withLayout_package :
    (r.withLayout name skillId token l).dirs (.package skillId) = l.package := by
  simp [Registry.withLayout]

@[simp] theorem withLayout_previous :
    (r.withLayout name skillId token l).dirs (.previous skillId) = l.previous := by
  simp [Registry.withLayout]

@[simp] theorem withLayout_oldPrevious :
    (r.withLayout name skillId token l).dirs (.oldPrevious skillId token) = l.oldPrevious := by
  simp [Registry.withLayout]

@[simp] theorem withLayout_other {skillId' : String} (h : skillId' ≠ skillId) :
    (r.withLayout name skillId token l).dirs (.package skillId') = r.dirs (.package skillId') := by
  simp [Registry.withLayout, h]

theorem withLayout_layout :
    r.withLayout name skillId token (r.layout name skillId token) = r := by
  have hdirs : (r.withLayout name skillId token (r.layout name skillId token)).dirs = r.dirs := by
    funext place
    unfold Registry.withLayout Registry.layout
    grind
  cases r
  exact congrArg (Registry.mk · _ _ _) hdirs

theorem put_withLayout {place : Place} {l l' : Layout}
    (h : Function.update (r.withLayout name skillId token l).dirs place package =
      (r.withLayout name skillId token l').dirs) :
    (r.withLayout name skillId token l).put place package =
      r.withLayout name skillId token l' :=
  congrArg (Registry.mk · r.roots r.memory r.db) h

@[simp] theorem put_staging :
    (r.withLayout name skillId token l).put (.staging name) package =
      r.withLayout name skillId token { l with staging := package } := by
  apply put_withLayout
  funext place
  simp only [Function.update_apply, Registry.withLayout]
  grind

@[simp] theorem put_package :
    (r.withLayout name skillId token l).put (.package skillId) package =
      r.withLayout name skillId token { l with package := package } := by
  apply put_withLayout
  funext place
  simp only [Function.update_apply, Registry.withLayout]
  grind

@[simp] theorem put_previous :
    (r.withLayout name skillId token l).put (.previous skillId) package =
      r.withLayout name skillId token { l with previous := package } := by
  apply put_withLayout
  funext place
  simp only [Function.update_apply, Registry.withLayout]
  grind

@[simp] theorem put_oldPrevious :
    (r.withLayout name skillId token l).put (.oldPrevious skillId token) package =
      r.withLayout name skillId token { l with oldPrevious := package } := by
  apply put_withLayout
  funext place
  simp only [Function.update_apply, Registry.withLayout]
  grind

@[simp] theorem change_staging (f : Package → Package) :
    (r.withLayout name skillId token l).change (.staging name) f =
      r.withLayout name skillId token { l with staging := l.staging.map f } := by
  simp [Registry.change]

end

/-- A registry, with something else in its staging directory. -/
theorem put_staging_eq (r : Registry) (name skillId token : String) (package : Option Package) :
    r.put (.staging name) package =
      r.withLayout name skillId token { r.layout name skillId token with staging := package } := by
  conv_lhs => rw [← withLayout_layout r name skillId token]
  simp

/-! ## Staging -/

/-- The steps that touch nothing but the staging directory. -/
def RegistryStep.stages : RegistryStep → Bool
  | .makeStaging | .writeFile _ | .writeManifest | .makeReadonly | .removeStaging => true
  | _ => false

/-- A store passed through where only the staging directory has changed. -/
def Stages (r : Registry) (name : String) (p : RegistryStep × Registry) : Prop :=
  p.1.stages = true ∧ ∃ package, p.2 = r.put (.staging name) package

theorem safeRelative_of_category {path : String} {category : String}
    (h : safeRelative path (some category) = .ok ()) : safeRelative path none = .ok () := by
  unfold safeRelative at h ⊢
  split at h
  · cases h
  next hsafe => rw [if_neg hsafe]

theorem categorized_safe {category : String} {files written : List GeneratedFile}
    (h : categorized category files = .ok written) :
    ∀ f ∈ written, safeRelative f.path none = .ok () := by
  induction files generalizing written with
  | nil =>
    cases h
    simp
  | cons generated files ih =>
    rw [categorized] at h
    cases hsafe : safeRelative generated.path (some category) with
    | error e =>
      rw [hsafe] at h
      cases h
    | ok _ =>
      rw [hsafe] at h
      cases hrest : categorized category files with
      | error e =>
        rw [hrest] at h
        cases h
      | ok rest =>
        rw [hrest] at h
        cases h
        intro f hf
        rcases List.mem_cons.mp hf with rfl | hf
        · exact safeRelative_of_category hsafe
        · exact ih hrest f hf

theorem filesToWrite_safe {candidate : SkillCandidate} {files : List GeneratedFile}
    (h : filesToWrite candidate = .ok files) : ∀ f ∈ files, safeRelative f.path none = .ok () := by
  unfold filesToWrite at h
  cases hscripts : categorized "scripts" candidate.scripts with
  | error e => rw [hscripts] at h; cases h
  | ok scripts =>
    cases hreferences : categorized "references" candidate.references with
    | error e => rw [hscripts, hreferences] at h; cases h
    | ok references =>
      cases htemplates : categorized "templates" candidate.templates with
      | error e => rw [hscripts, hreferences, htemplates] at h; cases h
      | ok templates =>
        cases htests : categorized "tests" candidate.tests with
        | error e => rw [hscripts, hreferences, htemplates, htests] at h; cases h
        | ok tests =>
          rw [hscripts, hreferences, htemplates, htests] at h
          cases h
          intro f hf
          simp only [List.mem_cons, List.mem_append] at hf
          rcases hf with rfl | ((hf | hf) | hf) | hf
          · exact (by decide : safeRelative "SKILL.md" none = .ok ())
          · exact categorized_safe hscripts f hf
          · exact categorized_safe hreferences f hf
          · exact categorized_safe htemplates f hf
          · exact categorized_safe htests f hf

/-- The loop over the files stages all of them, or stops at a call that fails. -/
theorem writeFiles_run (a : HostAnswers) (r : Registry) (name : String)
    {files : List GeneratedFile} (hsafe : ∀ f ∈ files, safeRelative f.path none = .ok ())
    (n : Nat) (package : Package) :
    ∃ passed, (∀ p ∈ passed, Stages r name p) ∧
      (writeFiles a name n files (r.put (.staging name) (some package)) = ⟨passed, .ok (),
          r.put (.staging name) (some { package with files := package.files ++ files })⟩ ∨
        ∃ step e package', a.fault step = some e ∧
          writeFiles a name n files (r.put (.staging name) (some package)) =
            ⟨passed, .error e, r.put (.staging name) (some package')⟩) := by
  induction files generalizing n package with
  | nil => exact ⟨[], by simp, Or.inl (by simp [writeFiles])⟩
  | cons generated files ih =>
    have hlook : (Durable.look fun _ => safeRelative generated.path none : RegistryM Unit)
        (r.put (.staging name) (some package)) =
          ⟨[], .ok (), r.put (.staging name) (some package)⟩ := by
      rw [Durable.look_run, hsafe generated List.mem_cons_self]
    cases hfault : a.fault (.writeFile n) with
    | some e =>
      refine ⟨[], by simp, Or.inr ⟨_, e, package, hfault, ?_⟩⟩
      rw [writeFiles, Durable.bind_ok hlook, Durable.bind_error (effect_fails _ hfault _)]
      rfl
    | none =>
      obtain ⟨passed, hstages, hrest⟩ := ih (fun f hf => hsafe f (List.mem_cons_of_mem _ hf))
        (n + 1)
        { package with files := package.files ++ [generated] }
      have hput : (r.put (.staging name) (some package)).change (.staging name) (fun package =>
          { package with files := package.files ++ [generated] }) =
          r.put (.staging name) (some { package with files := package.files ++ [generated] }) := by
        simp [Registry.change]
      have hrun := effect_done (fun r => r.change (.staging name) fun package =>
        { package with files := package.files ++ [generated] }) hfault
        (r.put (.staging name) (some package))
      rw [hput] at hrun
      refine ⟨(.writeFile n, r.put (.staging name)
        (some { package with files := package.files ++ [generated] })) :: passed, ?_, ?_⟩
      · intro p hp
        rcases List.mem_cons.mp hp with rfl | hp
        · exact ⟨rfl, _, rfl⟩
        · exact hstages p hp
      · rw [writeFiles, Durable.bind_ok hlook, Durable.bind_ok hrun]
        rcases hrest with hrest | ⟨step, e, package', hstep, hrest⟩
        · rw [hrest]
          exact Or.inl (by simp)
        · rw [hrest]
          exact Or.inr ⟨step, e, package', hstep, rfl⟩

/-- `mkdir` of the staging directory fails. -/
def StagingBlocked (a : HostAnswers) (r : Registry) (name : String) : Prop :=
  a.fault .makeStaging ≠ none ∨ r.dirs (.staging name) ≠ none

theorem makeStaging_blocked {a : HostAnswers} {r : Registry} {name : String}
    (h : StagingBlocked a r name) : ∃ e, makeStaging a name r = ⟨[], .error e, r⟩ := by
  unfold makeStaging
  cases hfault : a.fault .makeStaging with
  | some e => exact ⟨e, Durable.effect_error (by rw [check_error hfault])⟩
  | none =>
    rcases h with h | h
    · exact absurd hfault h
    · obtain ⟨package, hpackage⟩ := Option.ne_none_iff_exists'.mp h
      exact ⟨_, Durable.effect_error (by rw [check_ok hfault, hpackage])⟩

theorem makeStaging_done {a : HostAnswers} {r : Registry} {name : String}
    (h : ¬ StagingBlocked a r name) :
    makeStaging a name r = ⟨[(.makeStaging, r.put (.staging name) (some {}))], .ok (),
      r.put (.staging name) (some {})⟩ := by
  obtain ⟨hfault, hdir⟩ := not_or.mp h
  rw [not_not] at hfault hdir
  exact Durable.effect_ok (by rw [check_ok hfault, hdir])

section

variable {cfg : RegistryConfig} {a : HostAnswers} {candidate : SkillCandidate}
  {skillId : String} {lineage : Lineage} {r : Registry}

theorem writeStaging_blocked (h : StagingBlocked a r (stagingName a skillId)) :
    ∃ e, writeStaging cfg a candidate skillId lineage r = ⟨[], .error e, r⟩ := by
  obtain ⟨e, hrun⟩ := makeStaging_blocked h
  exact ⟨e, Durable.bind_error hrun⟩

/-- A path outside its category is found after the directory is made, and the directory
stays. -/
theorem writeStaging_leaks (h : ¬ StagingBlocked a r (stagingName a skillId))
    {e : RegistryError} (hfiles : filesToWrite candidate = .error e) :
    writeStaging cfg a candidate skillId lineage r =
      ⟨[(.makeStaging, r.put (.staging (stagingName a skillId)) (some {}))], .error e,
        r.put (.staging (stagingName a skillId)) (some {})⟩ := by
  unfold writeStaging
  simp only [Durable.bind_run, makeStaging_done h, Durable.andThen_ok, Durable.look_run, hfiles,
    Durable.andThen_error, List.append_nil]

theorem fillStaging_run (name : String) {files : List GeneratedFile}
    (hsafe : ∀ f ∈ files, safeRelative f.path none = .ok ()) :
    ∃ passed, (∀ p ∈ passed, Stages r name p) ∧
      (fillStaging cfg a candidate skillId lineage name files (r.put (.staging name) (some {})) =
          ⟨passed, .ok (name, newManifest cfg a candidate skillId lineage files),
            r.put (.staging name)
              (some ⟨files, some (newManifest cfg a candidate skillId lineage files), false⟩)⟩ ∨
        ∃ step e package, a.fault step = some e ∧
          fillStaging cfg a candidate skillId lineage name files
            (r.put (.staging name) (some {})) =
              ⟨passed, .error e, r.put (.staging name) (some package)⟩) := by
  obtain ⟨written, hwritten, hloop⟩ := writeFiles_run a r name hsafe 0 {}
  unfold fillStaging
  rcases hloop with hloop | ⟨step, e, package, hstep, hloop⟩
  · cases hfault : a.fault .writeManifest with
    | none =>
      refine ⟨written ++ [(.writeManifest, r.put (.staging name)
        (some ⟨files, some (newManifest cfg a candidate skillId lineage files), false⟩))],
        ?_, Or.inl ?_⟩
      · intro p hp
        rcases List.mem_append.mp hp with hp | hp
        · exact hwritten p hp
        · rw [List.mem_singleton] at hp
          subst hp
          exact ⟨rfl, _, rfl⟩
      · rw [Durable.bind_ok hloop, Durable.bind_ok (effect_done _ hfault _)]
        simp [Registry.change]
    | some e =>
      refine ⟨written, hwritten, Or.inr ⟨_, e, { files }, hfault, ?_⟩⟩
      rw [Durable.bind_ok hloop, Durable.bind_error (effect_fails _ hfault _)]
      simp only [List.append_nil, List.nil_append]
  · exact ⟨written, hwritten, Or.inr ⟨step, e, package, hstep, Durable.bind_error hloop⟩⟩

/-- With all paths in their categories, the package is staged or nothing is left. -/
theorem writeStaging_run (h : ¬ StagingBlocked a r (stagingName a skillId))
    {files : List GeneratedFile} (hfiles : filesToWrite candidate = .ok files) :
    ∃ passed, (∀ p ∈ passed, Stages r (stagingName a skillId) p) ∧
      (writeStaging cfg a candidate skillId lineage r =
          ⟨passed, .ok (stagingName a skillId, newManifest cfg a candidate skillId lineage files),
            r.put (.staging (stagingName a skillId))
              (some ⟨files, some (newManifest cfg a candidate skillId lineage files), false⟩)⟩ ∨
        ∃ step e, a.fault step = some e ∧
          writeStaging cfg a candidate skillId lineage r = ⟨passed, .error e, r⟩) := by
  have hdir : r.dirs (.staging (stagingName a skillId)) = none := by
    by_contra hne
    exact h (Or.inr hne)
  obtain ⟨written, hwritten, hfill⟩ := @fillStaging_run cfg a candidate skillId
    lineage r (stagingName a skillId) files (filesToWrite_safe hfiles)
  have hlook : (Durable.look fun _ => filesToWrite candidate :
      RegistryM (List GeneratedFile)) (r.put (.staging (stagingName a skillId)) (some {})) =
      ⟨[], .ok files, r.put (.staging (stagingName a skillId)) (some {})⟩ := by
    rw [Durable.look_run, hfiles]
  unfold writeStaging
  rcases hfill with hfill | ⟨step, e, package, hstep, hfill⟩
  · refine ⟨(.makeStaging, r.put (.staging (stagingName a skillId)) (some {})) :: written,
      ?_, Or.inl ?_⟩
    · intro p hp
      rcases List.mem_cons.mp hp with rfl | hp
      · exact ⟨rfl, _, rfl⟩
      · exact hwritten p hp
    · rw [Durable.bind_ok (makeStaging_done h), Durable.bind_ok hlook, Durable.onError_ok hfill]
      rfl
  · refine ⟨(.makeStaging, r.put (.staging (stagingName a skillId)) (some {})) ::
      (written ++ [(.removeStaging, r)]), ?_, Or.inr ⟨step, e, hstep, ?_⟩⟩
    · intro p hp
      rcases List.mem_cons.mp hp with rfl | hp
      · exact ⟨rfl, _, rfl⟩
      · rcases List.mem_append.mp hp with hp | hp
        · exact hwritten p hp
        · rw [List.mem_singleton] at hp
          subst hp
          exact ⟨rfl, none, (put_of_eq hdir).symm⟩
    · rw [Durable.bind_ok (makeStaging_done h), Durable.bind_ok hlook,
        Durable.onError_error hfill, remove_run, put_put_self, put_of_eq hdir]
      rfl

end

/-! ## Installing over a current package -/

section

variable {cfg : RegistryConfig} {a : HostAnswers} {candidate : SkillCandidate}
  {skillId name : String} {manifest : SkillManifest} {operationKey : Option String}
  (r : Registry)

/-- The steps behind which `package/` and the row may differ. -/
def RegistryStep.swaps : RegistryStep → Bool
  | .renameCurrent | .renameStaging | .removePackage => true
  | _ => false

/-- The steps behind the commit of an update. -/
def RegistryStep.committed : RegistryStep → Bool
  | .upsertRows | .removeOldPrevious => true
  | _ => false

/-- The registry as the update finds it, but for its other directories. -/
def KeepsCurrent (a : HostAnswers) (skillId name : String) (r : Registry) (current : Package)
    (t : Registry) : Prop :=
  ∃ staging previous old,
    t = r.withLayout name skillId a.oldToken ⟨staging, some current, previous, old⟩

theorem keepsCurrent_layout (staging : Option Package) (current : Package)
    (previous old : Option Package) : KeepsCurrent a skillId name r current
      (r.withLayout name skillId a.oldToken ⟨staging, some current, previous, old⟩) :=
  ⟨staging, previous, old, rfl⟩

/-- The handler brings back the current package, and what was in `previous/`. -/
theorem undo_current (staging : Option Package) (current : Package) (previous : Option Package) :
    undoUpdate a skillId name false
        (r.withLayout name skillId a.oldToken ⟨staging, some current, previous, none⟩) =
      ⟨[(.removeStaging, r.withLayout name skillId a.oldToken
          ⟨none, some current, previous, none⟩)],
        .ok (), r.withLayout name skillId a.oldToken ⟨none, some current, previous, none⟩⟩ := by
  simp [undoUpdate, Durable.bind_run, Durable.onlyIf, remove_run]

theorem undo_previous (staging : Option Package) (current previous : Package) :
    undoUpdate a skillId name false
        (r.withLayout name skillId a.oldToken ⟨staging, some current, none, some previous⟩) =
      ⟨[(.restorePrevious,
          r.withLayout name skillId a.oldToken ⟨staging, some current, some previous, none⟩),
        (.removeStaging,
          r.withLayout name skillId a.oldToken ⟨none, some current, some previous, none⟩)],
        .ok (), r.withLayout name skillId a.oldToken
          ⟨none, some current, some previous, none⟩⟩ := by
  simp [undoUpdate, Durable.bind_run, Durable.onlyIf, remove_run, always_run]

theorem undo_moved (staging package : Option Package) (current : Package)
    (previous : Option Package) :
    ∃ passed, (∀ p ∈ passed, p.1 = .removePackage ∨
        p.1.committed = false ∧ KeepsCurrent a skillId name r current p.2) ∧
      undoUpdate a skillId name true
          (r.withLayout name skillId a.oldToken ⟨staging, package, some current, previous⟩) =
        ⟨passed, .ok (),
          r.withLayout name skillId a.oldToken ⟨none, some current, previous, none⟩⟩ := by
  cases package with
  | none =>
    cases previous with
    | none =>
      refine ⟨[(.restorePackage, r.withLayout name skillId a.oldToken
          ⟨staging, some current, none, none⟩), (.removeStaging,
          r.withLayout name skillId a.oldToken ⟨none, some current, none, none⟩)], ?_, ?_⟩
      · simp [RegistryStep.committed, keepsCurrent_layout]
      · simp [undoUpdate, Durable.bind_run, Durable.onlyIf, remove_run, always_run]
    | some previous =>
      refine ⟨[(.restorePackage, r.withLayout name skillId a.oldToken
          ⟨staging, some current, none, some previous⟩),
        (.restorePrevious, r.withLayout name skillId a.oldToken
          ⟨staging, some current, some previous, none⟩),
        (.removeStaging, r.withLayout name skillId a.oldToken
          ⟨none, some current, some previous, none⟩)], ?_, ?_⟩
      · simp [RegistryStep.committed, keepsCurrent_layout]
      · simp [undoUpdate, Durable.bind_run, Durable.onlyIf, remove_run, always_run]
  | some package =>
    cases previous with
    | none =>
      refine ⟨[(.removePackage, r.withLayout name skillId a.oldToken
          ⟨staging, none, some current, none⟩),
        (.restorePackage, r.withLayout name skillId a.oldToken
          ⟨staging, some current, none, none⟩), (.removeStaging,
          r.withLayout name skillId a.oldToken ⟨none, some current, none, none⟩)], ?_, ?_⟩
      · simp [RegistryStep.committed, keepsCurrent_layout]
      · simp [undoUpdate, Durable.bind_run, Durable.onlyIf, remove_run, always_run]
    | some previous =>
      refine ⟨[(.removePackage, r.withLayout name skillId a.oldToken
          ⟨staging, none, some current, some previous⟩),
        (.restorePackage, r.withLayout name skillId a.oldToken
          ⟨staging, some current, none, some previous⟩),
        (.restorePrevious, r.withLayout name skillId a.oldToken
          ⟨staging, some current, some previous, none⟩),
        (.removeStaging, r.withLayout name skillId a.oldToken
          ⟨none, some current, some previous, none⟩)], ?_, ?_⟩
      · simp [RegistryStep.committed, keepsCurrent_layout]
      · simp [undoUpdate, Durable.bind_run, Durable.onlyIf, remove_run, always_run]

/-- Room is made, or a call failed and the handler undid what was done. -/
theorem makeRoom_run (staging : Option Package) (current : Package) (previous : Option Package) :
    ∃ passed, (∀ p ∈ passed, p.1.swaps = true ∨
        p.1.committed = false ∧ KeepsCurrent a skillId name r current p.2) ∧
      (Durable.onError (makeRoom a skillId) (undoUpdate a skillId name false)
          (r.withLayout name skillId a.oldToken ⟨staging, some current, previous, none⟩) =
        ⟨passed, .ok (),
          r.withLayout name skillId a.oldToken ⟨staging, none, some current, previous⟩⟩ ∨
      ∃ step e, a.fault step = some e ∧
        Durable.onError (makeRoom a skillId) (undoUpdate a skillId name false)
          (r.withLayout name skillId a.oldToken ⟨staging, some current, previous, none⟩) =
        ⟨passed, .error e,
          r.withLayout name skillId a.oldToken ⟨none, some current, previous, none⟩⟩) := by
  have hlast := @keepsCurrent_layout a skillId name r
  cases previous with
  | none =>
    cases hcurrent : a.fault .renameCurrent with
    | none =>
      refine ⟨[(.renameCurrent,
        r.withLayout name skillId a.oldToken ⟨staging, none, some current, none⟩)], ?_, Or.inl ?_⟩
      · simp [RegistryStep.swaps]
      · apply Durable.onError_ok
        simp [makeRoom, Durable.bind_run, Durable.onlyIf, HostAnswers.rename, Durable.effect,
          check_ok hcurrent]
    | some e =>
      refine ⟨[(.removeStaging,
        r.withLayout name skillId a.oldToken ⟨none, some current, none, none⟩)], ?_,
        Or.inr ⟨_, e, hcurrent, ?_⟩⟩
      · simp [RegistryStep.committed, hlast]
      · have hfails : makeRoom a skillId
            (r.withLayout name skillId a.oldToken ⟨staging, some current, none, none⟩) =
            ⟨[], .error e,
              r.withLayout name skillId a.oldToken ⟨staging, some current, none, none⟩⟩ := by
          simp [makeRoom, Durable.bind_run, Durable.onlyIf, rename_fails hcurrent]
        rw [Durable.onError_error hfails, undo_current]
        rfl
  | some previous =>
    cases hprevious : a.fault .renamePrevious with
    | some e =>
      refine ⟨[(.removeStaging,
        r.withLayout name skillId a.oldToken ⟨none, some current, some previous, none⟩)], ?_,
        Or.inr ⟨_, e, hprevious, ?_⟩⟩
      · simp [RegistryStep.committed, hlast]
      · have hfails : makeRoom a skillId
            (r.withLayout name skillId a.oldToken ⟨staging, some current, some previous, none⟩) =
            ⟨[], .error e, r.withLayout name skillId a.oldToken
              ⟨staging, some current, some previous, none⟩⟩ := by
          simp [makeRoom, Durable.bind_run, Durable.onlyIf, rename_fails hprevious]
        rw [Durable.onError_error hfails, undo_current]
        rfl
    | none =>
      cases hcurrent : a.fault .renameCurrent with
      | none =>
        refine ⟨[(.renamePrevious,
            r.withLayout name skillId a.oldToken ⟨staging, some current, none, some previous⟩),
          (.renameCurrent,
            r.withLayout name skillId a.oldToken ⟨staging, none, some current, some previous⟩)],
          ?_, Or.inl ?_⟩
        · simp [RegistryStep.swaps, RegistryStep.committed, hlast]
        · apply Durable.onError_ok
          simp [makeRoom, Durable.bind_run, Durable.onlyIf, HostAnswers.rename, Durable.effect,
            check_ok hcurrent, check_ok hprevious]
      | some e =>
        refine ⟨[(.renamePrevious,
            r.withLayout name skillId a.oldToken ⟨staging, some current, none, some previous⟩),
          (.restorePrevious,
            r.withLayout name skillId a.oldToken ⟨staging, some current, some previous, none⟩),
          (.removeStaging,
            r.withLayout name skillId a.oldToken ⟨none, some current, some previous, none⟩)], ?_,
          Or.inr ⟨_, e, hcurrent, ?_⟩⟩
        · simp [RegistryStep.committed, hlast]
        · have hfails : makeRoom a skillId
              (r.withLayout name skillId a.oldToken ⟨staging, some current, some previous, none⟩) =
              ⟨[(.renamePrevious, r.withLayout name skillId a.oldToken
                ⟨staging, some current, none, some previous⟩)], .error e,
                r.withLayout name skillId a.oldToken
                  ⟨staging, some current, none, some previous⟩⟩ := by
            simp [makeRoom, Durable.bind_run, Durable.onlyIf, HostAnswers.rename, Durable.effect,
              check_error hcurrent, check_ok hprevious]
          rw [Durable.onError_error hfails, undo_previous]
          rfl

/-- The registry with the rows of the new package. -/
def Registry.upserted (r : Registry) (cfg : RegistryConfig) (a : HostAnswers) (skillId : String)
    (manifest : SkillManifest) (candidate : SkillCandidate) (operationKey : Option String) :
    Registry :=
  { r with db := r.db.upsert manifest (packagePath cfg skillId) candidate operationKey a.rowsNow }

/-- The new package is in place with its rows, or a call failed and the handler brought
back the current one. -/
theorem putInPlace_update_run (package current : Package) (previous : Option Package) :
    ∃ passed, (∀ p ∈ passed, p.1.swaps = true ∨
        p.1.committed = false ∧ KeepsCurrent a skillId name r current p.2 ∨
        p.1 = .upsertRows ∧
          p.2 = (r.upserted cfg a skillId manifest candidate operationKey).withLayout name skillId
            a.oldToken ⟨none, some package, some current, previous⟩) ∧
      (Durable.onError (putInPlace cfg a skillId name manifest candidate operationKey)
          (undoUpdate a skillId name true)
          (r.withLayout name skillId a.oldToken ⟨some package, none, some current, previous⟩) =
        ⟨passed, .ok (),
          (r.upserted cfg a skillId manifest candidate operationKey).withLayout name skillId
            a.oldToken ⟨none, some package, some current, previous⟩⟩ ∨
      ∃ step e, a.fault step = some e ∧
        Durable.onError (putInPlace cfg a skillId name manifest candidate operationKey)
          (undoUpdate a skillId name true)
          (r.withLayout name skillId a.oldToken ⟨some package, none, some current, previous⟩) =
        ⟨passed, .error e,
          r.withLayout name skillId a.oldToken ⟨none, some current, previous, none⟩⟩) := by
  cases hstaging : a.fault .renameStaging with
  | some e =>
    obtain ⟨passed, hpassed, hundo⟩ :=
      @undo_moved a skillId name r (some package) none current previous
    refine ⟨passed, ?_, Or.inr ⟨_, e, hstaging, ?_⟩⟩
    · intro p hp
      rcases hpassed p hp with h | h
      · exact Or.inl (by rw [h]; rfl)
      · exact Or.inr (Or.inl h)
    · have hfails : putInPlace cfg a skillId name manifest candidate operationKey
          (r.withLayout name skillId a.oldToken ⟨some package, none, some current, previous⟩) =
          ⟨[], .error e,
            r.withLayout name skillId a.oldToken ⟨some package, none, some current, previous⟩⟩ :=
        Durable.bind_error (rename_fails hstaging)
      rw [Durable.onError_error hfails, hundo]
      rfl
  | none =>
    have hrename : a.rename .renameStaging (.staging name) (.package skillId)
        (r.withLayout name skillId a.oldToken ⟨some package, none, some current, previous⟩) =
        ⟨[(.renameStaging, r.withLayout name skillId a.oldToken
            ⟨none, some package, some current, previous⟩)], .ok (),
          r.withLayout name skillId a.oldToken ⟨none, some package, some current, previous⟩⟩ := by
      simp [HostAnswers.rename, Durable.effect, check_ok hstaging]
    cases hrows : a.fault .upsertRows with
    | none =>
      refine ⟨[(.renameStaging, r.withLayout name skillId a.oldToken
            ⟨none, some package, some current, previous⟩),
          (.upsertRows, (r.upserted cfg a skillId manifest candidate operationKey).withLayout name
            skillId a.oldToken ⟨none, some package, some current, previous⟩)], ?_, Or.inl ?_⟩
      · simp [RegistryStep.swaps]
      · apply Durable.onError_ok
        unfold putInPlace upsertRows
        rw [Durable.bind_ok hrename, effect_done _ hrows]
        rfl
    | some e =>
      obtain ⟨passed, hpassed, hundo⟩ :=
        @undo_moved a skillId name r none (some package) current previous
      refine ⟨(.renameStaging, r.withLayout name skillId a.oldToken
            ⟨none, some package, some current, previous⟩) :: passed, ?_, Or.inr ⟨_, e, hrows, ?_⟩⟩
      · intro p hp
        rcases List.mem_cons.mp hp with rfl | hp
        · exact Or.inl rfl
        · rcases hpassed p hp with h | h
          · exact Or.inl (by rw [h]; rfl)
          · exact Or.inr (Or.inl h)
      · have hfails : putInPlace cfg a skillId name manifest candidate operationKey
            (r.withLayout name skillId a.oldToken ⟨some package, none, some current, previous⟩) =
            ⟨[(.renameStaging, r.withLayout name skillId a.oldToken
              ⟨none, some package, some current, previous⟩)], .error e,
              r.withLayout name skillId a.oldToken
                ⟨none, some package, some current, previous⟩⟩ := by
          unfold putInPlace upsertRows
          rw [Durable.bind_ok hrename, effect_fails _ hrows]
          rfl
        rw [Durable.onError_error hfails, hundo]
        rfl

/-- `_install_update` over a current package, from a staged one. -/
theorem installUpdate_run (staged current : Package) (previous : Option Package) :
    ∃ passed, (∀ p ∈ passed, p.1.swaps = true ∨
        p.1.committed = false ∧ KeepsCurrent a skillId name r current p.2 ∨
        p.1.committed = true ∧ ∃ old,
          p.2 = (r.upserted cfg a skillId manifest candidate operationKey).withLayout name skillId
            a.oldToken ⟨none, some { staged with readonly := true }, some current, old⟩) ∧
      (installUpdate cfg a skillId name manifest candidate operationKey
          (r.withLayout name skillId a.oldToken ⟨some staged, some current, previous, none⟩) =
        ⟨passed, .ok ⟨manifest, packagePath cfg skillId⟩,
          (r.upserted cfg a skillId manifest candidate operationKey).withLayout name skillId
            a.oldToken ⟨none, some { staged with readonly := true }, some current, none⟩⟩ ∨
      ∃ step e staging, a.fault step = some e ∧
        installUpdate cfg a skillId name manifest candidate operationKey
          (r.withLayout name skillId a.oldToken ⟨some staged, some current, previous, none⟩) =
        ⟨passed, .error e,
          r.withLayout name skillId a.oldToken ⟨staging, some current, previous, none⟩⟩) := by
  have hpresent : Durable.onlyIf (fun r : Registry => (r.dirs (.package skillId)).isNone)
      (do
        remove .removeStaging (.staging name)
        Durable.raise (.capability s!"current package missing for {skillId}") : RegistryM Unit)
      (r.withLayout name skillId a.oldToken ⟨some staged, some current, previous, none⟩) =
      ⟨[], .ok (),
        r.withLayout name skillId a.oldToken ⟨some staged, some current, previous, none⟩⟩ :=
    Durable.onlyIf_false _ (by simp)
  unfold installUpdate
  rw [Durable.bind_ok hpresent]
  cases hreadonly : a.fault .makeReadonly with
  | some e =>
    refine ⟨[], by simp, Or.inr ⟨_, e, some staged, hreadonly, ?_⟩⟩
    have hfails : makeReadonly a name
        (r.withLayout name skillId a.oldToken ⟨some staged, some current, previous, none⟩) =
        ⟨[], .error e,
          r.withLayout name skillId a.oldToken ⟨some staged, some current, previous, none⟩⟩ :=
      effect_fails _ hreadonly _
    rw [Durable.bind_error hfails]
    rfl
  | none =>
    have hmade : makeReadonly a name
        (r.withLayout name skillId a.oldToken ⟨some staged, some current, previous, none⟩) =
        ⟨[(.makeReadonly, r.withLayout name skillId a.oldToken
            ⟨some { staged with readonly := true }, some current, previous, none⟩)], .ok (),
          r.withLayout name skillId a.oldToken
            ⟨some { staged with readonly := true }, some current, previous, none⟩⟩ := by
      unfold makeReadonly
      rw [effect_done _ hreadonly]
      simp
    have hfirst : (RegistryStep.makeReadonly).committed = false ∧ KeepsCurrent a skillId name r
        current (r.withLayout name skillId a.oldToken
          ⟨some { staged with readonly := true }, some current, previous, none⟩) :=
      ⟨rfl, keepsCurrent_layout r _ _ _ _⟩
    rw [Durable.bind_ok hmade]
    obtain ⟨moved, hmoved, hroom⟩ := @makeRoom_run a skillId name r
      (some { staged with readonly := true }) current previous
    rcases hroom with hroom | ⟨step, e, hstep, hroom⟩
    · obtain ⟨placed, hplaced, hplace⟩ := @putInPlace_update_run cfg a candidate skillId name
        manifest operationKey r { staged with readonly := true } current previous
      rw [Durable.bind_ok hroom]
      rcases hplace with hplace | ⟨step, e, hstep, hplace⟩
      · rw [Durable.bind_ok hplace, Durable.bind_ok (remove_run _ _ _)]
        simp only [put_oldPrevious, Durable.pure_run, List.append_nil, List.cons_append,
          List.nil_append]
        refine ⟨_, ?_, Or.inl rfl⟩
        intro p hp
        simp only [List.mem_cons, List.mem_append, List.not_mem_nil, or_false] at hp
        rcases hp with rfl | hp | hp | rfl
        · exact Or.inr (Or.inl hfirst)
        · rcases hmoved p hp with h | h
          · exact Or.inl h
          · exact Or.inr (Or.inl h)
        · rcases hplaced p hp with h | h | ⟨hlabel, h⟩
          · exact Or.inl h
          · exact Or.inr (Or.inl h)
          · exact Or.inr (Or.inr ⟨by rw [hlabel]; rfl, _, h⟩)
        · exact Or.inr (Or.inr ⟨rfl, _, rfl⟩)
      · rw [Durable.bind_error hplace]
        refine ⟨_, ?_, Or.inr ⟨step, e, none, hstep, rfl⟩⟩
        intro p hp
        simp only [List.mem_cons, List.mem_append, List.cons_append, List.nil_append] at hp
        rcases hp with rfl | hp | hp
        · exact Or.inr (Or.inl hfirst)
        · rcases hmoved p hp with h | h
          · exact Or.inl h
          · exact Or.inr (Or.inl h)
        · rcases hplaced p hp with h | h | ⟨hlabel, h⟩
          · exact Or.inl h
          · exact Or.inr (Or.inl h)
          · exact Or.inr (Or.inr ⟨by rw [hlabel]; rfl, _, h⟩)
    · rw [Durable.bind_error hroom]
      refine ⟨_, ?_, Or.inr ⟨step, e, none, hstep, rfl⟩⟩
      intro p hp
      simp only [List.mem_cons, List.cons_append, List.nil_append] at hp
      rcases hp with rfl | hp
      · exact Or.inr (Or.inl hfirst)
      · rcases hmoved p hp with h | h
        · exact Or.inl h
        · exact Or.inr (Or.inl h)

end

end EvoCI
