import EvoCI.Library.Utf8
import EvoCI.Library.Dict
import EvoCI.StagingRuns
import EvoCI.ReplaceText
import EvoCI.Routing
import EvoCI.Capability.UpdateFailure

/-! The checks that compare the files of a package with the hashes of its manifest: the
validator's over the text it reads, those of `load_skill`, `read_skill_resource` and the
materializer over the bytes. -/

namespace EvoCI

open Library

/-! ## Reading a file -/

/-- `payload.decode("utf-8", errors="replace")`. -/
def Content.decoded (content : Content) : String := String.ofList (Utf8.decodeReplace content.bytes)

/-- `Path.read_text(encoding="utf-8", errors="replace")`. -/
def Content.readReplaced (content : Content) : String :=
  String.ofList (universalNewlines (Utf8.decodeReplace content.bytes))

theorem Content.readReplaced_utf8 (text : String) :
    (Content.utf8 text).readReplaced = String.ofList (universalNewlines text.toList) := by
  have hbytes : (Content.utf8 text).bytes = text.toList.flatMap String.utf8EncodeChar :=
    encode_eq text
  rw [Content.readReplaced, hbytes, Utf8.decodeReplace_encoded]

/-- Text is read as it was written when it has no carriage return. -/
theorem Content.readReplaced_eq_iff (text : String) :
    (Content.utf8 text).readReplaced = text ↔ '\r' ∉ text.toList := by
  rw [Content.readReplaced_utf8, ← stable_iff, Stable]
  constructor
  · intro h
    simpa using congrArg String.toList h
  · intro h
    rw [h, String.ofList_toList]

/-- The file an already resolved target is, when it stands strictly below the package. -/
def Files.packageFile (files : Files) (package target : Loc) : Option Content :=
  if package <+: target ∧ package ≠ target then (files.fileAt target).map Prod.fst else none

/-! ## The validator -/

/-- What the validator looks for besides the hashes: the patterns of secrets and the policy
on Python sources. -/
structure ValidatorRules where
  secret : String → Bool
  pythonPolicy : String → String → List String

def endsWith (path suffix : String) : Bool := suffix.toList.isSuffixOf path.toList

def forbiddenText : List String :=
  ["rm -rf /", "sudo ", "curl | sh", "../", "/etc/", "~/.ssh", "\".env\"", "'.env'"]

/-- The comparison of the validator: it hashes the text it has read. -/
def hashAccepts (cfg : RegistryConfig) (file : SkillFile) (content : Content) : Bool :=
  cfg.sha256 (encode content.readReplaced) = file.sha256

def fileErrors (cfg : RegistryConfig) (rules : ValidatorRules) (file : SkillFile)
    (content : Content) : List String :=
  let text := content.readReplaced
  (if hashAccepts cfg file content then [] else [s!"immutable hash mismatch: {file.path}"]) ++
  (if rules.secret text then [s!"possible secret in {file.path}"] else []) ++
  (if forbiddenText.any fun token => containsText token text then
    [s!"unsafe path or command in {file.path}"] else []) ++
  (if endsWith file.path ".py" then rules.pythonPolicy text file.path else []) ++
  (if startsWith file.path "scripts/" ∧ ¬ endsWith file.path ".py" then
    [s!"unsupported_runner: {file.path}"] else []) ++
  (if endsWith file.path ".sh" then [s!"unsupported_runner: {file.path}"] else [])

def validateFiles (cfg : RegistryConfig) (rules : ValidatorRules) (files : Files) (package : Loc) :
    List SkillFile → Except PyError (List String)
  | [] => .ok []
  | file :: rest => do
    let target ← files.resolve package file.path
    let errors :=
      match files.packageFile package target with
      | none => [s!"unsafe or missing file: {file.path}"]
      | some content => fileErrors cfg rules file content
    return errors ++ (← validateFiles cfg rules files package rest)

/-- `_validate_package`. -/
def validatePackage (cfg : RegistryConfig) (rules : ValidatorRules) (files : Files) (package : Loc)
    (manifest : SkillManifest) : Except PyError (List String) := do
  let missing := ["SKILL.md", "manifest.json"].any fun path =>
    match files.resolve package path with
    | .ok target => (files.fileAt target).isNone
    | .error _ => true
  let errors ← validateFiles cfg rules files package manifest.files
  return (if missing then ["package is missing SKILL.md or manifest.json"] else []) ++ errors

/-! ## The skill tools -/

/-- A prefix of the path below the package is a symbolic link. -/
def Files.linkedBelow (files : Files) : Loc → List String → Bool
  | _, [] => false
  | current, part :: parts =>
    (files.linkAt (current ++ [part])).isSome || files.linkedBelow (current ++ [part]) parts

/-- `_resolve_skill_package_file`, with the content of the file it finds. -/
def skillPackageFile (files : Files) (package : Loc) (relative : String) :
    Except PyError Content :=
  if isAbsolute relative ∨ ".." ∈ pathParts relative ∨ pathParts relative = [] then
    .error (.policyViolation s!"unsafe skill resource path: {relative}")
  else if files.linkedBelow package (pathParts relative) then
    .error (.policyViolation "skill resource must not be a symlink")
  else do
    let target ← files.resolve package relative
    match files.packageFile package target with
    | none => .error (.policyViolation "skill resource is missing or escaped the package")
    | some content => .ok content

/-- `{file.path: file.sha256 for file in record.manifest.files}`. -/
def declaredHashes (files : List SkillFile) : Dict String String :=
  files.foldl (fun declared file => Dict.set declared file.path file.sha256) []

/-- The bytes of a declared file, when their hash is the declared one. -/
def declaredContent (cfg : RegistryConfig) (files : Files) (package : Loc)
    (manifest : SkillManifest) (path undeclared : String) : Except PyError Content :=
  match (declaredHashes manifest.files).get? path with
  | none => .error (.policyViolation undeclared)
  | some sha256 => do
    let content ← skillPackageFile files package path
    if cfg.sha256 content.bytes ≠ sha256 then
      .error (.policyViolation s!"skill resource hash mismatch: {path}")
    else .ok content

/-- The procedure that the first `load_skill` of a skill returns. -/
def loadProcedure (cfg : RegistryConfig) (files : Files) (package : Loc)
    (manifest : SkillManifest) : Except PyError String := do
  let content ← declaredContent cfg files package manifest "SKILL.md"
    "SKILL.md is not declared in the skill manifest"
  let procedure := content.decoded
  return if 16000 < procedure.length then
    String.ofList (procedure.toList.take 16000) ++ "\n...[truncated]" else procedure

structure ResourceFragment where
  path : String
  offset : Nat
  limit : Nat
  length : Nat
  truncated : Bool
  sha256 : String
  content : String
  deriving DecidableEq, Repr

/-- `read_skill_resource` on an activated and enabled skill. -/
def readSkillResource (cfg : RegistryConfig) (files : Files) (package : Loc)
    (manifest : SkillManifest) (path : String) (offset limit : Nat) :
    Except PyError ResourceFragment := do
  let content ← declaredContent cfg files package manifest path
    "resource is not declared in the skill manifest"
  let text := content.decoded
  return {
    path, offset, limit
    length := text.length
    truncated := offset + limit < text.length ∨ 0 < offset
    sha256 := cfg.sha256 content.bytes
    content := String.ofList ((text.toList.drop offset).take limit) }

/-! ## The materializer -/

def verifyFile (cfg : RegistryConfig) (files : Files) (destination : Loc) (file : SkillFile) :
    Except PyError Unit := do
  let target ← files.resolve destination file.path
  match files.packageFile destination target with
  | none =>
    .error (.policyViolation s!"materialized skill file is missing or unsafe: {file.path}")
  | some content =>
    if cfg.sha256 content.bytes ≠ file.sha256 then
      .error (.policyViolation s!"materialized skill hash mismatch: {file.path}")
    else .ok ()

/-- `CapabilityMaterializer._verify`. -/
def verifyMaterialized (cfg : RegistryConfig) (files : Files) (destination : Loc) :
    List SkillFile → Except PyError Unit
  | [] => .ok ()
  | file :: rest => do
    verifyFile cfg files destination file
    verifyMaterialized cfg files destination rest

/-! ## Verdicts -/

/-- The hash check of the validator passes on the file. -/
def validatorAccepts (cfg : RegistryConfig) (files : Files) (package : Loc) (file : SkillFile) :
    Bool :=
  match files.resolve package file.path with
  | .error _ => false
  | .ok target => (files.packageFile package target).any (hashAccepts cfg file)

/-- What the checks say of a declared file; `load_skill` reads `SKILL.md` alone. -/
def verdicts (cfg : RegistryConfig) (files : Files) (package : Loc) (manifest : SkillManifest)
    (file : SkillFile) (offset limit : Nat) : List Bool :=
  [validatorAccepts cfg files package file,
    (readSkillResource cfg files package manifest file.path offset limit).isOk,
    (verifyFile cfg files package file).isOk] ++
  if file.path = "SKILL.md" then [(loadProcedure cfg files package manifest).isOk] else []

/-- What the package says last about the content of a path. Two spellings of one file are two
paths. -/
def lastContent (written : List GeneratedFile) (path : String) : Option String :=
  (written.reverse.find? fun generated => generated.path = path).map GeneratedFile.content

theorem get?_declaredHashes (cfg : RegistryConfig) (written : List GeneratedFile) (path : String) :
    (declaredHashes (written.map (skillFile cfg))).get? path =
      (lastContent written path).map fun content => cfg.sha256 (encode content) := by
  induction written using List.reverseRecOn with
  | nil => rfl
  | append_singleton written generated ih =>
    rw [declaredHashes, List.map_append, List.foldl_append]
    show Dict.get? (Dict.set (declaredHashes (written.map (skillFile cfg))) generated.path
      (cfg.sha256 (encode generated.content))) path = _
    rw [Dict.get?_set, ih, lastContent, lastContent, List.reverse_append]
    by_cases hpath : path = generated.path
    · simp [hpath]
    · rw [if_neg hpath]
      simp [Ne.symm hpath]

/-! ## A file below a package without links -/

section

variable {cfg : RegistryConfig} {files : Files} {package : Loc} {path : String}
  {content : Content} {mode : Nat}

theorem linkedBelow_eq_false (parts : List String) {current : Loc}
    (hlinks : ∀ l, current <+: l → files.linkAt l = none) :
    files.linkedBelow current parts = false := by
  induction parts generalizing current with
  | nil => rfl
  | cons part parts ih =>
    have hbelow : current <+: current ++ [part] := List.prefix_append _ _
    rw [Files.linkedBelow, hlinks _ hbelow, ih fun l hl => hlinks l (hbelow.trans hl)]
    rfl

/-- A path of a package, and the file that stands there. -/
structure Holds (files : Files) (package : Loc) (path : String) (content : Content) : Prop where
  links : ∀ l, package <+: l → files.linkAt l = none
  safe : safeRelative path none = .ok ()
  file : (files.fileAt (package ++ pathParts path)).map Prod.fst = some content

theorem safeRelative_iff {path : String} :
    safeRelative path none = .ok () ↔
      isAbsolute path = false ∧ ".." ∉ pathParts path ∧ pathParts path ≠ [] := by
  unfold safeRelative
  split
  next h =>
    constructor
    · intro hok
      cases hok
    · rintro ⟨h1, h2, h3⟩
      simp [h1, h2, h3] at h
  next h =>
    simp only [not_or] at h
    exact ⟨fun _ => ⟨by simpa using h.1, h.2.1, h.2.2⟩, fun _ => rfl⟩

theorem Holds.resolve (h : Holds files package path content) :
    files.resolve package path = .ok (package ++ pathParts path) := by
  obtain ⟨habsolute, hdots, -⟩ := safeRelative_iff.mp h.safe
  exact Files.resolve_unlinked h.links habsolute hdots

theorem Holds.packageFile (h : Holds files package path content) :
    files.packageFile package (package ++ pathParts path) = some content := by
  obtain ⟨-, -, hparts⟩ := safeRelative_iff.mp h.safe
  have hne : package ≠ package ++ pathParts path := fun heq => hparts (by simpa using heq)
  rw [Files.packageFile, if_pos ⟨List.prefix_append _ _, hne⟩, h.file]

theorem Holds.skillPackageFile (h : Holds files package path content) :
    skillPackageFile files package path = .ok content := by
  obtain ⟨habsolute, hdots, hparts⟩ := safeRelative_iff.mp h.safe
  rw [EvoCI.skillPackageFile, if_neg (by simp [habsolute, hdots, hparts]),
    linkedBelow_eq_false _ h.links, if_neg (by simp), h.resolve]
  simp only [bind, Except.bind, h.packageFile]

theorem Holds.validatorAccepts (h : Holds files package path content) {file : SkillFile}
    (hpath : file.path = path) :
    validatorAccepts cfg files package file = hashAccepts cfg file content := by
  rw [EvoCI.validatorAccepts, hpath, h.resolve]
  simp [h.packageFile]

theorem Holds.verifyFile (h : Holds files package path content) {file : SkillFile}
    (hpath : file.path = path) :
    (verifyFile cfg files package file).isOk = true ↔ cfg.sha256 content.bytes = file.sha256 := by
  rw [EvoCI.verifyFile, hpath, h.resolve]
  simp only [bind, Except.bind, h.packageFile]
  split
  next hne => simpa [Except.isOk, Except.toBool] using hne
  next heq => simpa [Except.isOk, Except.toBool] using heq

theorem Holds.declaredContent (h : Holds files package path content) (manifest : SkillManifest)
    (undeclared : String) :
    declaredContent cfg files package manifest path undeclared = .ok content ↔
      (declaredHashes manifest.files).get? path = some (cfg.sha256 content.bytes) := by
  rw [EvoCI.declaredContent]
  split
  next hnone => simp [hnone]
  next sha256 hsome =>
    rw [h.skillPackageFile, hsome]
    simp only [bind, Except.bind, Option.some.injEq]
    split
    next hne => simpa using Ne.symm hne
    next heq => simpa using (not_not.mp heq).symm

/-- Where the bytes are not the declared ones, nothing is read. -/
theorem Holds.declaredContent_isOk (h : Holds files package path content)
    (manifest : SkillManifest) (undeclared : String) :
    (EvoCI.declaredContent cfg files package manifest path undeclared).isOk = true ↔
      (declaredHashes manifest.files).get? path = some (cfg.sha256 content.bytes) := by
  rw [← h.declaredContent manifest undeclared]
  constructor
  · intro hok
    cases hread : EvoCI.declaredContent cfg files package manifest path undeclared with
    | error e =>
      rw [hread] at hok
      cases hok
    | ok other =>
      rw [EvoCI.declaredContent, h.skillPackageFile] at hread
      split at hread
      · cases hread
      · simp only [bind, Except.bind] at hread
        split at hread
        · cases hread
        · exact hread.symm
  · intro hok
    rw [hok]
    rfl

theorem Holds.readSkillResource (h : Holds files package path content)
    {manifest : SkillManifest} {offset limit : Nat} :
    (readSkillResource cfg files package manifest path offset limit).isOk = true ↔
      (declaredHashes manifest.files).get? path = some (cfg.sha256 content.bytes) := by
  rw [← h.declaredContent_isOk manifest "resource is not declared in the skill manifest",
    EvoCI.readSkillResource]
  cases EvoCI.declaredContent cfg files package manifest path _ <;> rfl

theorem Holds.loadProcedure (h : Holds files package "SKILL.md" content)
    {manifest : SkillManifest} :
    (loadProcedure cfg files package manifest).isOk = true ↔
      (declaredHashes manifest.files).get? "SKILL.md" = some (cfg.sha256 content.bytes) := by
  rw [← h.declaredContent_isOk manifest "SKILL.md is not declared in the skill manifest",
    EvoCI.loadProcedure]
  cases EvoCI.declaredContent cfg files package manifest "SKILL.md" _ <;> rfl

end

/-! ## What the checks agree on -/

/-- What `_write_staging` returns describes what it has written. -/
theorem staged_of_writeStaging {cfg : RegistryConfig} {a : HostAnswers}
    {candidate : SkillCandidate} {skillId : String} {lineage : Lineage} {r : Registry}
    {name : String} {manifest : SkillManifest} {staged : Package}
    (hrun : (writeStaging cfg a candidate skillId lineage r).result = .ok (name, manifest))
    (hstaged : (writeStaging cfg a candidate skillId lineage r).state.dirs (.staging name) =
      some staged) :
    filesToWrite candidate = .ok staged.files ∧
      manifest.files = staged.files.map (skillFile cfg) := by
  by_cases hblocked : StagingBlocked a r (stagingName a skillId)
  · obtain ⟨e, he⟩ := @writeStaging_blocked cfg a candidate skillId lineage r hblocked
    rw [he] at hrun
    cases hrun
  cases hfiles : filesToWrite candidate with
  | error e =>
    rw [writeStaging_leaks hblocked hfiles] at hrun
    cases hrun
  | ok written =>
    obtain ⟨passed, -, hdone | ⟨step, e, -, hfailed⟩⟩ :=
      @writeStaging_run cfg a candidate skillId lineage r hblocked written hfiles
    · rw [hdone] at hrun hstaged
      cases hrun
      simp only [Registry.put, Function.update_self, Option.some.injEq] at hstaged
      rw [← hstaged]
      exact ⟨rfl, rfl⟩
    · rw [hfailed] at hrun
      cases hrun

section

variable {cfg : RegistryConfig} {files : Files} {package : Loc} {manifest : SkillManifest}
  {written : List GeneratedFile} {generated : GeneratedFile} {content : Content}
  {offset limit : Nat}

theorem hashAccepts_iff (hinjective : Function.Injective cfg.sha256) :
    hashAccepts cfg (skillFile cfg generated) content = true ↔
      content.readReplaced = generated.content := by
  rw [hashAccepts, decide_eq_true_eq]
  constructor
  · exact fun h => encode_injective (hinjective h)
  · exact fun h => by rw [h]; rfl

theorem declared_iff (hinjective : Function.Injective cfg.sha256)
    (hmanifest : manifest.files = written.map (skillFile cfg)) (path : String) :
    (declaredHashes manifest.files).get? path = some (cfg.sha256 content.bytes) ↔
      (lastContent written path).map encode = some content.bytes := by
  rw [hmanifest, get?_declaredHashes]
  cases lastContent written path with
  | none => simp
  | some text =>
    simp only [Option.map_some, Option.some.injEq]
    exact hinjective.eq_iff

/-- The validator goes by the text of a file, the others by its bytes. -/
theorem mem_verdicts (h : Holds files package generated.path content)
    (hinjective : Function.Injective cfg.sha256)
    (hmanifest : manifest.files = written.map (skillFile cfg)) (verdict : Bool) :
    verdict ∈ verdicts cfg files package manifest (skillFile cfg generated) offset limit ↔
      verdict = decide (content.readReplaced = generated.content) ∨
      verdict = decide ((lastContent written generated.path).map encode = some content.bytes) ∨
      verdict = decide (content.bytes = encode generated.content) := by
  have hvalidator : validatorAccepts cfg files package (skillFile cfg generated) =
      decide (content.readReplaced = generated.content) := by
    rw [h.validatorAccepts rfl, Bool.eq_iff_iff, hashAccepts_iff hinjective, decide_eq_true_iff]
  have hread : (readSkillResource cfg files package manifest generated.path offset limit).isOk =
      decide ((lastContent written generated.path).map encode = some content.bytes) := by
    rw [Bool.eq_iff_iff, h.readSkillResource, declared_iff hinjective hmanifest,
      decide_eq_true_iff]
  have hverify : (verifyFile cfg files package (skillFile cfg generated)).isOk =
      decide (content.bytes = encode generated.content) := by
    rw [Bool.eq_iff_iff, h.verifyFile rfl, decide_eq_true_iff]
    exact hinjective.eq_iff
  have hpath : (skillFile cfg generated).path = generated.path := rfl
  rw [verdicts, hvalidator, hpath, hread, hverify]
  split
  next hskill =>
    have hload : (loadProcedure cfg files package manifest).isOk =
        decide ((lastContent written generated.path).map encode = some content.bytes) := by
      rw [hskill] at h ⊢
      rw [Bool.eq_iff_iff, h.loadProcedure, declared_iff hinjective hmanifest, decide_eq_true_iff]
    rw [hload]
    simp only [List.cons_append, List.nil_append, List.mem_cons, List.not_mem_nil, or_false]
    tauto
  next => simp

end

/-- The checks accept a file as it is written, and reject it once its bytes are others, just
when it has no carriage return, no later file has its path with other content, and the new
bytes do not read as the same text. -/
theorem integrity_agrees_iff (cfg : RegistryConfig) (hinjective : Function.Injective cfg.sha256)
    (a : HostAnswers) (candidate : SkillCandidate) (skillId : String) (lineage : Lineage)
    (r : Registry) {name : String} {manifest : SkillManifest} {staged : Package}
    (hrun : (writeStaging cfg a candidate skillId lineage r).result = .ok (name, manifest))
    (hstaged : (writeStaging cfg a candidate skillId lineage r).state.dirs (.staging name) =
      some staged)
    {generated : GeneratedFile} (hgenerated : generated ∈ staged.files) {files : Files}
    {package : Loc} (hlinks : ∀ l, package <+: l → files.linkAt l = none) (modified : Content)
    (mode mode' offset limit : Nat) :
    let place := package ++ pathParts generated.path
    let fresh := files.put place (.file (.utf8 generated.content) mode)
    let changed := fresh.put place (.file modified mode')
    ((∀ verdict ∈ verdicts cfg fresh package manifest (skillFile cfg generated) offset limit,
        verdict = true) ∧
      (modified.bytes ≠ encode generated.content →
        ∀ verdict ∈ verdicts cfg changed package manifest (skillFile cfg generated) offset limit,
          verdict = false)) ↔
    '\r' ∉ generated.content.toList ∧
      lastContent staged.files generated.path = some generated.content ∧
      (modified.bytes ≠ encode generated.content →
        modified.readReplaced ≠ generated.content) := by
  intro place fresh changed
  obtain ⟨hfiles, hmanifest⟩ := staged_of_writeStaging hrun hstaged
  have hsafe := filesToWrite_safe hfiles generated hgenerated
  have hplace : package <+: place := List.prefix_append _ _
  have hlinkFresh : fresh.linkAt = files.linkAt := Files.linkAt_put _ _ _ (hlinks _ hplace)
  have hlinkChanged : changed.linkAt = files.linkAt := by
    rw [← hlinkFresh]
    exact Files.linkAt_put _ _ _ (by rw [hlinkFresh]; exact hlinks _ hplace)
  have hfresh : Holds fresh package generated.path (.utf8 generated.content) := by
    refine ⟨fun l hl => by rw [hlinkFresh]; exact hlinks l hl, hsafe, ?_⟩
    rw [Files.fileAt_put, if_pos rfl]
    rfl
  have hchanged : Holds changed package generated.path modified := by
    refine ⟨fun l hl => by rw [hlinkChanged]; exact hlinks l hl, hsafe, ?_⟩
    rw [Files.fileAt_put, if_pos rfl]
    rfl
  have hlast : (lastContent staged.files generated.path).map encode =
      some (encode generated.content) ↔
        lastContent staged.files generated.path = some generated.content := by
    cases lastContent staged.files generated.path with
    | none => simp
    | some text =>
      simp only [Option.map_some, Option.some.injEq]
      exact ⟨fun h => encode_injective h, fun h => by rw [h]⟩
  have haccept : (∀ verdict ∈ verdicts cfg fresh package manifest (skillFile cfg generated) offset
      limit, verdict = true) ↔ '\r' ∉ generated.content.toList ∧
        lastContent staged.files generated.path = some generated.content := by
    simp only [mem_verdicts hfresh hinjective hmanifest, forall_eq_or_imp, forall_eq,
      decide_eq_true_eq]
    rw [Content.readReplaced_eq_iff, ← hlast]
    exact ⟨fun h => ⟨h.1, h.2.1⟩, fun h => ⟨h.1, h.2, rfl⟩⟩
  have hreject (hne : modified.bytes ≠ encode generated.content)
      (hl : lastContent staged.files generated.path = some generated.content) :
      (∀ verdict ∈ verdicts cfg changed package manifest (skillFile cfg generated) offset limit,
        verdict = false) ↔ modified.readReplaced ≠ generated.content := by
    simp only [mem_verdicts hchanged hinjective hmanifest, forall_eq_or_imp, forall_eq,
      decide_eq_false_iff_not]
    refine ⟨fun h => h.1, fun h => ⟨h, ?_, hne⟩⟩
    rw [hl]
    simpa using Ne.symm hne
  rw [haccept, and_assoc]
  refine and_congr_right fun _ => and_congr_right fun hl => ?_
  exact forall_congr' fun hne => hreject hne hl

namespace Sample

/-- A hash without collisions. -/
def byteText (bytes : List UInt8) : String := String.ofList (bytes.map fun b => Char.ofNat b.toNat)

theorem byteText_injective : Function.Injective byteText := by
  intro first second h
  have hchars : Function.Injective fun b : UInt8 => Char.ofNat b.toNat := by
    intro b b' hb
    have hval (b : UInt8) : (Char.ofNat b.toNat).toNat = b.toNat := by
      have hvalid : b.toNat.isValidChar := Or.inl (by have hlt := b.toNat_lt; omega)
      rw [Char.ofNat, dif_pos hvalid]
      rfl
    have hnat := congrArg Char.toNat hb
    simp only [hval] at hnat
    exact UInt8.toNat_inj.mp hnat
  exact hchars.list_map (String.ofList_injective h)

def exactConfig : RegistryConfig := { registryConfig with sha256 := byteText }

/-- A skill with one reference. -/
def noted (content : String) : SkillCandidate :=
  { skillCandidate with references := [⟨"references/notes.md", content, false⟩] }

def notes (content : String) : GeneratedFile := ⟨"references/notes.md", content, false⟩

def emptyTree : Files := fun _ => none

def notesPlace : Loc := ["skills", "staged"] ++ pathParts (notes "").path

def notedPackage (content : String) : Package where
  files := [⟨"SKILL.md", "---\n", false⟩, notes content]
  manifest := some (newManifest exactConfig (succeeding "a") (noted content) "debug" {}
    [⟨"SKILL.md", "---\n", false⟩, notes content])

def stagedManifest (content : String) : SkillManifest :=
  newManifest exactConfig (succeeding "a") (noted content) "debug" {} (notedPackage content).files

theorem noted_staged (content : String) :
    (writeStaging exactConfig (succeeding "a") (noted content) "debug" {}
      Registry.empty).result = .ok (".staging-debug-a", stagedManifest content) ∧
    (writeStaging exactConfig (succeeding "a") (noted content) "debug" {}
      Registry.empty).state.dirs (.staging ".staging-debug-a") = some (notedPackage content) := by
  have hopen : ¬ StagingBlocked (succeeding "a") Registry.empty
      (stagingName (succeeding "a") "debug") := by
    rintro (h | h) <;> exact h rfl
  have hsafe : safeRelative "references/notes.md" (some "references") = .ok () := by
    decide +kernel
  have hfiles : filesToWrite (noted content) = .ok (notedPackage content).files := by
    simp [filesToWrite, categorized, noted, skillCandidate, notedPackage, notes, hsafe, bind,
      Except.bind, pure, Except.pure]
  obtain ⟨passed, -, hdone | ⟨step, e, hfault, -⟩⟩ :=
    @writeStaging_run exactConfig _ _ _ {} _ hopen _ hfiles
  · have hname : stagingName (succeeding "a") "debug" = ".staging-debug-a" := by decide +kernel
    rw [hdone, hname]
    simp only [Registry.put, Function.update_self]
    exact ⟨rfl, rfl⟩
  · cases hfault

theorem notes_agree :
    let fresh := emptyTree.put notesPlace (.file (.utf8 "a\n") 0o644)
    let changed := fresh.put notesPlace (.file (.utf8 "b\n") 0o444)
    (∀ verdict ∈ verdicts exactConfig fresh ["skills", "staged"] (stagedManifest "a\n")
        (skillFile exactConfig (notes "a\n")) 0 8000, verdict = true) ∧
      ((Content.utf8 "b\n").bytes ≠ encode "a\n" →
        ∀ verdict ∈ verdicts exactConfig changed ["skills", "staged"] (stagedManifest "a\n")
          (skillFile exactConfig (notes "a\n")) 0 8000, verdict = false) :=
  (integrity_agrees_iff exactConfig byteText_injective (succeeding "a") (noted "a\n") "debug" {}
    Registry.empty (noted_staged "a\n").1 (noted_staged "a\n").2
    (by simp [notedPackage] : notes "a\n" ∈ (notedPackage "a\n").files)
    (fun _ _ => rfl : ∀ l, ["skills", "staged"] <+: l → emptyTree.linkAt l = none)
    (.utf8 "b\n") 0o644 0o444 0 8000).mpr (by decide +kernel)

/-- The check of the validator rejects what `_write_staging` has just written, the others
accept it. -/
theorem carriage_return_rejected :
    (writeStaging exactConfig (succeeding "a") (noted "a\r\n") "debug" {}
      Registry.empty).result = .ok (".staging-debug-a", stagedManifest "a\r\n") ∧
    verdicts exactConfig (emptyTree.put notesPlace (.file (.utf8 "a\r\n") 0o644))
      ["skills", "staged"] (stagedManifest "a\r\n")
      (skillFile exactConfig (notes "a\r\n")) 0 8000 = [false, true, true] :=
  ⟨(noted_staged "a\r\n").1, by decide +kernel⟩

end Sample

end EvoCI
