import EvoCI.Scheduler
import EvoCI.Library.Durable

/-! The capability registry: package directories under one root and the rows beside them.
An operation is a sequence of atomic effects; any of them may fail, and the process may end
between any two. -/

namespace EvoCI

open Library

/-! ## Packages and rows -/

structure SkillPermissions where
  readWorkspace : Bool := true
  writeWorkspace : Bool := false
  execute : Bool := false
  network : Bool := false
  deriving DecidableEq, Repr

structure SkillFile where
  path : String
  sha256 : String
  executable : Bool := false
  deriving DecidableEq, Repr

structure SkillManifest where
  skillId : String
  name : String
  description : String
  triggers : List String
  taskFamilies : List String
  permissions : SkillPermissions
  sourceRunIds : List String
  enabled : Bool := true
  files : List SkillFile
  createdAt : Nat
  updatedAt : Nat
  deriving DecidableEq, Repr

structure GeneratedFile where
  path : String
  content : String
  executable : Bool := false
  deriving DecidableEq, Repr

structure SkillCandidate where
  name : String
  description : String
  triggers : List String
  taskFamilies : List String
  skillMd : String
  scripts : List GeneratedFile := []
  references : List GeneratedFile := []
  templates : List GeneratedFile := []
  tests : List GeneratedFile := []
  sourceRunIds : List String
  permissions : SkillPermissions := {}
  deriving DecidableEq, Repr

structure SkillUsageLesson where
  skillId : String
  lesson : String
  deriving DecidableEq, Repr

inductive LearningAction where
  | none
  | newSkill
  | updateSkill
  deriving DecidableEq, Repr

structure SkillLearningDecision where
  action : LearningAction
  rationale : String
  candidateSkill : Option SkillCandidate := none
  targetSkillId : Option String := none
  usageLessons : List SkillUsageLesson := []
  deriving DecidableEq, Repr

/-- A package directory, with the files in the order they were written. -/
structure Package where
  files : List GeneratedFile := []
  manifest : Option SkillManifest := none
  readonly : Bool := false
  deriving DecidableEq, Repr

/-- Where a package directory can be. -/
inductive Place where
  | staging (name : String)
  | package (skillId : String)
  | previous (skillId : String)
  | oldPrevious (skillId token : String)
  deriving DecidableEq, Repr

structure SkillRow where
  manifest : SkillManifest
  enabled : Bool
  packagePath : String
  deriving DecidableEq, Repr

structure SkillStats where
  retrievalCount : Nat := 0
  selectedCount : Nat := 0
  useCount : Nat := 0
  successCount : Nat := 0
  failureCount : Nat := 0
  patchCount : Nat := 0
  createdAt : Nat
  updatedAt : Nat
  lastUsedAt : Option Nat := none
  deriving DecidableEq, Repr

/-- What `applied_operations` stores: the JSON objects the callers write. -/
inductive OperationResult where
  | skill (skillId : String)
  | recorded
  | retrieved (count : Nat) (selected : Bool)
  | decision (decision : SkillLearningDecision)
  deriving DecidableEq, Repr

structure SkillDatabase where
  skills : String → Option SkillRow
  fts : List (String × String)
  stats : String → Option SkillStats
  operations : String → Option OperationResult

structure Registry where
  dirs : Place → Option Package
  roots : String → Bool
  memory : String → Option String
  db : SkillDatabase

/-- A fresh registry. -/
def Registry.empty : Registry where
  dirs _ := none
  roots _ := false
  memory _ := none
  db := ⟨fun _ => none, [], fun _ => none, fun _ => none⟩

structure RegisteredSkill where
  manifest : SkillManifest
  packagePath : String
  deriving DecidableEq, Repr

inductive RegistryError where
  /-- `CapabilityRegistryError`. -/
  | capability (message : String)
  | policyViolation (message : String)
  | keyError (message : String)
  /-- What a library call raises, by class and message. -/
  | raised (kind message : String)
  deriving DecidableEq, Repr

/-! ## Steps -/

/-- The effects, and the calls that can fail without one. -/
inductive RegistryStep where
  | readOperation
  | readSkill
  | makeStaging
  | writeFile (n : Nat)
  | writeManifest
  | validate
  | makeReadonly
  | makeRoot
  | writeMemory
  | renamePrevious
  | renameCurrent
  | renameStaging
  | upsertRows
  | writeRow
  | removeStaging
  | removePackage
  | removeOldPrevious
  | removeMemory
  | removeRoot
  | restorePackage
  | restorePrevious
  deriving DecidableEq, Repr

/-- The registry's root, its hash function and `str.lower`. -/
structure RegistryConfig where
  root : String
  sha256 : List UInt8 → String
  lower : String → String

/-- What the host answers during one call: its clock, its fresh names, the verdict of
`CandidateValidator` and the calls that fail. -/
structure HostAnswers where
  token : String
  oldToken : String
  now : Nat
  rowsNow : Nat
  validation : Package → SkillManifest → Except RegistryError (List String)
  fault : RegistryStep → Option RegistryError

/-- A program of the registry. -/
abbrev RegistryM := Durable RegistryStep Registry RegistryError

def HostAnswers.check (a : HostAnswers) (step : RegistryStep) : Except RegistryError Unit :=
  match a.fault step with
  | some e => .error e
  | none => .ok ()

/-- An effect that may fail. -/
def HostAnswers.effect (a : HostAnswers) (step : RegistryStep) (f : Registry → Registry) :
    RegistryM Unit :=
  Durable.effect step fun r => (a.check step).map fun _ => ((), f r)

/-- A compensating effect. -/
def always (step : RegistryStep) (f : Registry → Registry) : RegistryM Unit :=
  Durable.effect step fun r => .ok ((), f r)

def Registry.put (r : Registry) (place : Place) (package : Option Package) : Registry :=
  { r with dirs := Function.update r.dirs place package }

/-- `source.rename(target)`. -/
def HostAnswers.rename (a : HostAnswers) (step : RegistryStep) (source target : Place) :
    RegistryM Unit :=
  Durable.effect step fun r =>
    match a.check step, r.dirs source, r.dirs target with
    | .error e, _, _ => .error e
    | .ok _, none, _ => .error (.raised "FileNotFoundError" "no such file or directory")
    | .ok _, some _, some _ => .error (.raised "OSError" "directory not empty")
    | .ok _, some package, none => .ok ((), (r.put source none).put target (some package))

/-- `_writable_rmtree`. -/
def remove (step : RegistryStep) (place : Place) : RegistryM Unit :=
  always step fun r => r.put place none

/-! ## Names and paths -/

/-- A lower-case letter or a digit. -/
def isSlugChar (c : Char) : Bool := ('a' ≤ c ∧ c ≤ 'z') ∨ ('0' ≤ c ∧ c ≤ '9')

/-- `re.sub(r"[^a-z0-9]+", "-", value)`. -/
def dashRuns : List Char → List Char
  | [] => []
  | c :: cs =>
    if isSlugChar c then c :: dashRuns cs
    else
      match dashRuns cs with
      | '-' :: rest => '-' :: rest
      | rest => '-' :: rest

def stripDashes (cs : List Char) : List Char :=
  ((cs.dropWhile (· = '-')).reverse.dropWhile (· = '-')).reverse

def slug (cfg : RegistryConfig) (value : String) : Except RegistryError String :=
  let cs := stripDashes (dashRuns (cfg.lower value).toList)
  if cs = [] then .error (.capability "skill name cannot produce an empty ID")
  else .ok (String.ofList (cs.take 80))

/-- `_safe_relative`. -/
def safeRelative (path : String) (category : Option String) : Except RegistryError Unit :=
  if isAbsolute path ∨ ".." ∈ pathParts path ∨ pathParts path = [] then
    .error (.policyViolation s!"unsafe skill path: {path}")
  else
    match category with
    | none => .ok ()
    | some name =>
      if (pathParts path).head? ≠ some name then
        .error (.policyViolation s!"{path} must be under {name}/")
      else .ok ()

/-- `_categorized`. -/
def categorized (category : String) :
    List GeneratedFile → Except RegistryError (List GeneratedFile)
  | [] => .ok []
  | generated :: files => do
    safeRelative generated.path (some category)
    let rest ← categorized category files
    return generated :: rest

/-- The files of a package, `SKILL.md` first. -/
def filesToWrite (candidate : SkillCandidate) : Except RegistryError (List GeneratedFile) := do
  let scripts ← categorized "scripts" candidate.scripts
  let references ← categorized "references" candidate.references
  let templates ← categorized "templates" candidate.templates
  let tests ← categorized "tests" candidate.tests
  return { path := "SKILL.md", content := candidate.skillMd } ::
    (scripts ++ references ++ templates ++ tests)

/-! ## Reading rows -/

/-- `get`: the row decides whether the skill is enabled. -/
def Registry.get (r : Registry) (skillId : String) : Option RegisteredSkill :=
  (r.db.skills skillId).map fun row =>
    ⟨{ row.manifest with enabled := row.enabled }, row.packagePath⟩

def getSkill (a : HostAnswers) (skillId : String) : RegistryM (Option RegisteredSkill) :=
  Durable.look fun r => (a.check .readSkill).map fun _ => r.get skillId

/-- An empty operation key is none. -/
def givenKey (operationKey : Option String) : Option String := operationKey.filter (· ≠ "")

/-- The skill that an operation applied earlier returns again. -/
def priorSkill (a : HostAnswers) (operationKey : Option String) :
    RegistryM (Option RegisteredSkill) :=
  Durable.look fun r =>
    match givenKey operationKey with
    | none => .ok none
    | some key =>
      match a.check .readOperation, r.db.operations key with
      | .error e, _ => .error e
      | .ok _, none => .ok none
      | .ok _, some (.skill skillId) =>
        match a.check .readSkill, r.get skillId with
        | .error e, _ => .error e
        | .ok _, some skill => .ok (some skill)
        | .ok _, none =>
          .error (.capability s!"operation {key} references a missing skill")
      | .ok _, some _ => .error (.capability s!"operation {key} has an invalid stored result")

/-! ## Staging -/

def stagingName (a : HostAnswers) (skillId : String) : String := s!".staging-{skillId}-{a.token}"

def makeStaging (a : HostAnswers) (name : String) : RegistryM Unit :=
  Durable.effect .makeStaging fun r =>
    match a.check .makeStaging, r.dirs (.staging name) with
    | .error e, _ => .error e
    | .ok _, some _ => .error (.raised "FileExistsError" "file exists")
    | .ok _, none => .ok ((), r.put (.staging name) (some {}))

/-- The directory with a change made to it. -/
def Registry.change (r : Registry) (place : Place) (f : Package → Package) : Registry :=
  r.put place ((r.dirs place).map f)

/-- The loop over the files; a staged path is inside the directory, since it is relative
and has no `..`. -/
def writeFiles (a : HostAnswers) (name : String) : Nat → List GeneratedFile → RegistryM Unit
  | _, [] => pure ()
  | n, generated :: files => do
    Durable.look fun _ => safeRelative generated.path none
    a.effect (.writeFile n) fun r => r.change (.staging name) fun package =>
      { package with files := package.files ++ [generated] }
    writeFiles a name (n + 1) files

def skillFile (cfg : RegistryConfig) (generated : GeneratedFile) : SkillFile :=
  ⟨generated.path, cfg.sha256 (encode generated.content), generated.executable⟩

/-- What a new manifest takes over from the current one. -/
structure Lineage where
  createdAt : Option Nat := none
  sourceRunIds : List String := []
  enabled : Bool := true

def newManifest (cfg : RegistryConfig) (a : HostAnswers) (candidate : SkillCandidate)
    (skillId : String) (lineage : Lineage) (files : List GeneratedFile) : SkillManifest where
  skillId
  name := candidate.name
  description := candidate.description
  triggers := candidate.triggers
  taskFamilies := candidate.taskFamilies
  permissions := candidate.permissions
  sourceRunIds :=
    if lineage.sourceRunIds = [] then candidate.sourceRunIds else lineage.sourceRunIds
  enabled := lineage.enabled
  files := files.map (skillFile cfg)
  createdAt := lineage.createdAt.getD a.now
  updatedAt := a.now

/-- What `_write_staging` does in its `try`. -/
def fillStaging (cfg : RegistryConfig) (a : HostAnswers) (candidate : SkillCandidate)
    (skillId : String) (lineage : Lineage) (name : String) (files : List GeneratedFile) :
    RegistryM (String × SkillManifest) := do
  let manifest := newManifest cfg a candidate skillId lineage files
  writeFiles a name 0 files
  a.effect .writeManifest fun r => r.change (.staging name) fun package =>
    { package with manifest := some manifest }
  return (name, manifest)

/-- `_write_staging`: the paths are sorted by category before the `try` begins. -/
def writeStaging (cfg : RegistryConfig) (a : HostAnswers) (candidate : SkillCandidate)
    (skillId : String) (lineage : Lineage) : RegistryM (String × SkillManifest) := do
  let name := stagingName a skillId
  makeStaging a name
  let files ← Durable.look fun _ => filesToWrite candidate
  Durable.onError (fillStaging cfg a candidate skillId lineage name files)
    (remove .removeStaging (.staging name))

/-- `validate_package` on what is staged. -/
def validateStaging (a : HostAnswers) (name : String) (manifest : SkillManifest) : RegistryM Unit :=
  Durable.look fun r => do
    a.check .validate
    let errors ← a.validation ((r.dirs (.staging name)).getD {}) manifest
    if errors = [] then return ()
    else throw (.capability ("skill validation failed: " ++ "; ".intercalate errors))

def makeReadonly (a : HostAnswers) (name : String) : RegistryM Unit :=
  a.effect .makeReadonly fun r => r.change (.staging name) fun package =>
    { package with readonly := true }

/-! ## Rows -/

def ftsContent (candidate : SkillCandidate) : String :=
  " ".intercalate
    (candidate.name :: candidate.description :: (candidate.triggers ++ candidate.taskFamilies))

/-- `_upsert_rows`, committed. -/
def SkillDatabase.upsert (db : SkillDatabase) (manifest : SkillManifest) (packagePath : String)
    (candidate : SkillCandidate) (operationKey : Option String) (now : Nat) : SkillDatabase where
  skills := Function.update db.skills manifest.skillId
    (some ⟨manifest, manifest.enabled, packagePath⟩)
  fts := db.fts.filter (fun entry => entry.1 ≠ manifest.skillId) ++
    [(manifest.skillId, ftsContent candidate)]
  stats := Function.update db.stats manifest.skillId
    (some (match db.stats manifest.skillId with
      | none => { createdAt := now, updatedAt := now }
      | some stats => { stats with updatedAt := now }))
  operations :=
    match givenKey operationKey with
    | none => db.operations
    | some key => Function.update db.operations key
      (some ((db.operations key).getD (.skill manifest.skillId)))

def packagePath (cfg : RegistryConfig) (skillId : String) : String :=
  s!"{cfg.root}/{skillId}/package"

/-- One transaction: on an exception it is rolled back. -/
def upsertRows (cfg : RegistryConfig) (a : HostAnswers) (manifest : SkillManifest)
    (skillId : String) (candidate : SkillCandidate) (operationKey : Option String) :
    RegistryM Unit :=
  a.effect .upsertRows fun r =>
    { r with db := r.db.upsert manifest (packagePath cfg skillId) candidate operationKey a.rowsNow }

/-! ## Installing -/

/-- The files below a skill's own directory go with it. -/
def Registry.removeRoot (r : Registry) (skillId : String) : Registry :=
  { r with
    dirs := fun place =>
      match place with
      | .staging _ => r.dirs place
      | .package id | .previous id | .oldPrevious id _ =>
        if id = skillId then none else r.dirs place
    roots := Function.update r.roots skillId false
    memory := Function.update r.memory skillId none }

/-- The staged package becomes the current one, and its rows are written. -/
def putInPlace (cfg : RegistryConfig) (a : HostAnswers) (skillId name : String)
    (manifest : SkillManifest) (candidate : SkillCandidate) (operationKey : Option String) :
    RegistryM Unit := do
  a.rename .renameStaging (.staging name) (.package skillId)
  upsertRows cfg a manifest skillId candidate operationKey

/-- What `_install_new` does before its `try`. -/
def readyNew (a : HostAnswers) (skillId name : String) (before : Registry) : RegistryM Unit := do
  a.effect .makeRoot fun r => { r with roots := Function.update r.roots skillId true }
  Durable.onlyIf (fun _ => (before.memory skillId).isNone)
    (a.effect .writeMemory fun r =>
      { r with memory := Function.update r.memory skillId (some "") })
  makeReadonly a name

/-- The handler of `_install_new`; what was there before stays. -/
def undoNew (skillId name : String) (before : Registry) : RegistryM Unit := do
  remove .removePackage (.package skillId)
  Durable.onlyIf (fun _ => (before.memory skillId).isNone)
    (always .removeMemory fun r =>
      { r with memory := Function.update r.memory skillId none })
  Durable.onlyIf (fun _ => !before.roots skillId)
    (always .removeRoot fun r => r.removeRoot skillId)
  remove .removeStaging (.staging name)

def installNew (cfg : RegistryConfig) (a : HostAnswers) (skillId name : String)
    (manifest : SkillManifest) (candidate : SkillCandidate) (operationKey : Option String) :
    RegistryM RegisteredSkill := do
  Durable.onlyIf (fun r => (r.dirs (.package skillId)).isSome)
    (Durable.raise (.capability s!"skill package already exists: {packagePath cfg skillId}"))
  let before ← Durable.look .ok
  readyNew a skillId name before
  Durable.onError (putInPlace cfg a skillId name manifest candidate operationKey)
    (undoNew skillId name before)
  return ⟨manifest, packagePath cfg skillId⟩

/-- The handler of `_install_update`; what was moved is told from what exists. -/
def undoUpdate (a : HostAnswers) (skillId name : String) (movedCurrent : Bool) :
    RegistryM Unit := do
  let old := Place.oldPrevious skillId a.oldToken
  Durable.onlyIf (fun r => movedCurrent && (r.dirs (.package skillId)).isSome)
    (remove .removePackage (.package skillId))
  Durable.onlyIf (fun r =>
      (r.dirs (.package skillId)).isNone && (r.dirs (.previous skillId)).isSome)
    (always .restorePackage fun r =>
      (r.put (.package skillId) (r.dirs (.previous skillId))).put (.previous skillId) none)
  Durable.onlyIf (fun r => (r.dirs old).isSome && (r.dirs (.previous skillId)).isNone)
    (always .restorePrevious fun r => (r.put (.previous skillId) (r.dirs old)).put old none)
  remove .removeStaging (.staging name)

/-- The two renames that make room for the new package. -/
def makeRoom (a : HostAnswers) (skillId : String) : RegistryM Unit := do
  Durable.onlyIf (fun r => (r.dirs (.previous skillId)).isSome)
    (a.rename .renamePrevious (.previous skillId) (.oldPrevious skillId a.oldToken))
  a.rename .renameCurrent (.package skillId) (.previous skillId)

/-- `_install_update`; `moved_current` is true from the second rename on. -/
def installUpdate (cfg : RegistryConfig) (a : HostAnswers) (skillId name : String)
    (manifest : SkillManifest) (candidate : SkillCandidate) (operationKey : Option String) :
    RegistryM RegisteredSkill := do
  Durable.onlyIf (fun r => (r.dirs (.package skillId)).isNone)
    (do
      remove .removeStaging (.staging name)
      Durable.raise (.capability s!"current package missing for {skillId}"))
  makeReadonly a name
  Durable.onError (makeRoom a skillId) (undoUpdate a skillId name false)
  Durable.onError (putInPlace cfg a skillId name manifest candidate operationKey)
    (undoUpdate a skillId name true)
  remove .removeOldPrevious (.oldPrevious skillId a.oldToken)
  return ⟨manifest, packagePath cfg skillId⟩

/-! ## The operations -/

def createSkill (cfg : RegistryConfig) (a : HostAnswers) (candidate : SkillCandidate)
    (skillId operationKey : Option String) : RegistryM RegisteredSkill := do
  match ← priorSkill a operationKey with
  | some existing => return existing
  | none =>
    let resolvedId ← Durable.look fun _ =>
      slug cfg ((skillId.filter (· ≠ "")).getD candidate.name)
    match ← getSkill a resolvedId with
    | some _ => Durable.raise (.capability s!"skill already exists: {resolvedId}")
    | none =>
      let (name, manifest) ← writeStaging cfg a candidate resolvedId {}
      Durable.onError
        (do
          validateStaging a name manifest
          installNew cfg a resolvedId name manifest candidate operationKey)
        (remove .removeStaging (.staging name))

/-- What an update keeps of the current manifest. -/
def updateLineage (current : SkillManifest) (candidate : SkillCandidate) : Lineage where
  createdAt := some current.createdAt
  sourceRunIds := fromKeys (current.sourceRunIds ++ candidate.sourceRunIds)
  enabled := current.enabled

def updateSkill (cfg : RegistryConfig) (a : HostAnswers) (skillId : String)
    (candidate : SkillCandidate) (operationKey : Option String) : RegistryM RegisteredSkill := do
  match ← priorSkill a operationKey with
  | some existing => return existing
  | none =>
    match ← getSkill a skillId with
    | none => Durable.raise (.capability s!"unknown skill: {skillId}")
    | some current =>
      let (name, manifest) ←
        writeStaging cfg a candidate skillId (updateLineage current.manifest candidate)
      Durable.onError
        (do
          validateStaging a name manifest
          installUpdate cfg a skillId name manifest candidate operationKey)
        (remove .removeStaging (.staging name))

/-- `_set_enabled`; the package keeps its manifest. -/
def setEnabled (a : HostAnswers) (skillId : String) (enabled : Bool) : RegistryM Unit := do
  match ← getSkill a skillId with
  | none => Durable.raise (.keyError s!"unknown skill: {skillId}")
  | some record =>
    a.effect .writeRow fun r =>
      { r with db := { r.db with
        skills := Function.update r.db.skills skillId ((r.db.skills skillId).map fun row =>
          { row with manifest := { record.manifest with enabled }, enabled }) } }

/-! ## Directories -/

@[simp] theorem dirs_put_self (r : Registry) (place : Place) (package : Option Package) :
    (r.put place package).dirs place = package := by
  simp [Registry.put]

theorem dirs_put_of_ne (r : Registry) {place other : Place} (package : Option Package)
    (h : other ≠ place) : (r.put place package).dirs other = r.dirs other := by
  simp [Registry.put, h]

@[simp] theorem put_put_self (r : Registry) (place : Place) (first second : Option Package) :
    (r.put place first).put place second = r.put place second := by
  simp [Registry.put]

theorem put_of_eq {r : Registry} {place : Place} {package : Option Package}
    (h : r.dirs place = package) : r.put place package = r := by
  subst h
  simp [Registry.put]

/-! ## Single effects -/

section

variable {a : HostAnswers} {step : RegistryStep}

theorem check_ok (h : a.fault step = none) : a.check step = .ok () := by
  unfold HostAnswers.check
  rw [h]

theorem check_error {e : RegistryError} (h : a.fault step = some e) : a.check step = .error e := by
  unfold HostAnswers.check
  rw [h]

theorem effect_done (f : Registry → Registry) (h : a.fault step = none) (r : Registry) :
    a.effect step f r = ⟨[(step, f r)], .ok (), f r⟩ :=
  Durable.effect_ok (by rw [check_ok h]; rfl)

theorem effect_fails (f : Registry → Registry) {e : RegistryError} (h : a.fault step = some e)
    (r : Registry) : a.effect step f r = ⟨[], .error e, r⟩ :=
  Durable.effect_error (by rw [check_error h]; rfl)

theorem rename_done {source target : Place} {r : Registry} {package : Package}
    (h : a.fault step = none) (hsource : r.dirs source = some package)
    (htarget : r.dirs target = none) :
    a.rename step source target r =
      ⟨[(step, (r.put source none).put target (some package))], .ok (),
        (r.put source none).put target (some package)⟩ :=
  Durable.effect_ok (by rw [check_ok h, hsource, htarget])

theorem rename_fails {source target : Place} {r : Registry} {e : RegistryError}
    (h : a.fault step = some e) : a.rename step source target r = ⟨[], .error e, r⟩ :=
  Durable.effect_error (by rw [check_error h])

end

theorem always_run (step : RegistryStep) (f : Registry → Registry) (r : Registry) :
    always step f r = ⟨[(step, f r)], .ok (), f r⟩ := rfl

theorem remove_run (step : RegistryStep) (place : Place) (r : Registry) :
    remove step place r = ⟨[(step, r.put place none)], .ok (), r.put place none⟩ := rfl

end EvoCI
