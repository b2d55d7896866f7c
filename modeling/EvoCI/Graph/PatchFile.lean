import EvoCI.Library.JsonWriter
import EvoCI.Worker
import EvoCI.VerificationRuns
import EvoCI.Graph.CandidateResume

/-! The patch artifact as a file: what `save_patch_artifact` writes of a plan and of edits, and what
is validated again when it is loaded. The directory of a command is normalised both times, so that
it has to be a fixed point of its normal form. -/

namespace EvoCI

open Library

/-! ## Directories of commands -/

/-- The directory names no root once its backslashes are slashes, its first component begins with
no space and its last one ends with none. -/
structure KeepsCwd (cwd : String) : Prop where
  rootless : isAbsolute (slashed (rawCwd cwd)) = false
  first : ∀ part ∈ (pathParts (slashed (rawCwd cwd))).head?,
    ∀ c ∈ part.toList.head?, isSpace c = false
  last : ∀ part ∈ (pathParts (slashed (rawCwd cwd))).getLast?,
    ∀ c ∈ part.toList.getLast?, isSpace c = false

/-- A directory below the workspace that is its own normal form. -/
structure NormalCwd (cwd : String) : Prop where
  relative : isAbsolute cwd = false
  below : ".." ∉ pathParts cwd
  fixed : normalizeRepoCwd cwd = .ok cwd

theorem length_slashed (raw : String) : (slashed raw).length = raw.length := by
  rw [← String.length_toList, ← String.length_toList, slashed, String.toList_ofList,
    List.length_map]

theorem backslash_notMem_slashed (raw : String) : '\\' ∉ (slashed raw).toList := by
  rw [slashed, String.toList_ofList, List.mem_map]
  rintro ⟨c, -, hc⟩
  split at hc
  · cases hc
  · next hne => exact hne hc

theorem slashed_of_notMem {raw : String} (h : '\\' ∉ raw.toList) : slashed raw = raw := by
  have hmap : raw.toList.map (fun c => if c = '\\' then '/' else c) = raw.toList.map id := by
    refine List.map_congr_left fun c hc => if_neg ?_
    rintro rfl
    exact h hc
  rw [slashed, hmap, List.map_id, String.ofList_toList]

theorem pathRoot_of_relative {path : String} (h : isAbsolute path = false) :
    pathRoot path = "" := by
  unfold pathRoot
  split
  next heq => simp [isAbsolute, heq] at h
  next heq => simp [isAbsolute, heq] at h
  next heq => simp [isAbsolute, heq] at h
  next => rfl

theorem isAbsolute_rooted {path : String} (h : isAbsolute path = true) (rest : String) :
    isAbsolute (pathRoot path ++ rest) = true := by
  unfold pathRoot
  split
  next => simp [isAbsolute]
  next => simp [isAbsolute]
  next => simp [isAbsolute]
  next hother =>
    cases hpath : path.toList with
    | nil => simp [isAbsolute, hpath] at h
    | cons c cs =>
      simp only [isAbsolute, hpath, List.head?_cons, Option.some.injEq, decide_eq_true_eq] at h
      exact absurd (h ▸ hpath) (hother cs)

/-- What the normal form of a directory is. -/
theorem normalizeRepoCwd_ok {raw cwd : String} (h : normalizeRepoCwd raw = .ok cwd) :
    ".." ∉ pathParts (slashed (rawCwd raw)) ∧
      cwd = if pathRoot (slashed (rawCwd raw)) = "" ∧ pathParts (slashed (rawCwd raw)) = [] then "."
        else pathRoot (slashed (rawCwd raw)) ++ joinParts (pathParts (slashed (rawCwd raw))) := by
  simp only [normalizeRepoCwd] at h
  split at h
  · cases h
  · split at h
    · cases h
    next hup =>
      split at h
      next hempty =>
        refine ⟨hup, ?_⟩
        rw [if_pos hempty]
        exact (Except.ok.inj h).symm
      next hsome =>
        refine ⟨hup, ?_⟩
        rw [if_neg hsome]
        exact (Except.ok.inj h).symm

theorem head?_joinParts {part : String} (h : part ≠ "") (parts : List String) :
    (joinParts (part :: parts)).toList.head? = part.toList.head? := by
  cases parts with
  | nil => rfl
  | cons next parts =>
    obtain ⟨c, cs, hpart⟩ := List.exists_cons_of_ne_nil (String.toList_eq_nil_iff.not.mpr h)
    rw [joinParts]
    · simp [hpart]
    · simp

theorem getLast?_joinParts {parts : List String} (h : ∀ part ∈ parts, part ≠ "") :
    (joinParts parts).toList.getLast? = parts.getLast?.bind fun part => part.toList.getLast? := by
  induction parts with
  | nil => rfl
  | cons part parts ih =>
    cases parts with
    | nil => rfl
    | cons next parts =>
      have hrest := ih fun other hother => h other (List.mem_cons_of_mem _ hother)
      have hsome : (joinParts (next :: parts)).toList ≠ [] := by
        intro hnil
        have hhead := head?_joinParts (h next (by simp)) parts
        rw [hnil] at hhead
        exact h next (by simp) (String.toList_eq_nil_iff.mp (List.head?_eq_none_iff.mp hhead.symm))
      rw [joinParts, String.toList_append, List.getLast?_append_of_ne_nil _ hsome, hrest,
        List.getLast?_cons_cons]
      simp

/-- Spaces at the ends of a joined path are those of its first and last component. -/
theorem strip_joinParts_iff {parts : List String} (h : ∀ part ∈ parts, part ≠ "") :
    strip (joinParts parts) = joinParts parts ↔
      (∀ part ∈ parts.head?, ∀ c ∈ part.toList.head?, isSpace c = false) ∧
        ∀ part ∈ parts.getLast?, ∀ c ∈ part.toList.getLast?, isSpace c = false := by
  rw [strip_eq_self_iff, getLast?_joinParts h]
  refine and_congr ?_ ?_
  · cases parts with
    | nil => simp [joinParts]
    | cons part parts =>
      rw [head?_joinParts (h part List.mem_cons_self)]
      simp
  · constructor
    · intro hlast part hpart c hc
      exact hlast c (Option.mem_bind_iff.mpr ⟨part, hpart, hc⟩)
    · intro hlast c hc
      obtain ⟨part, hpart, hc⟩ := Option.mem_bind_iff.mp hc
      exact hlast part hpart c hc

/-- A normal form that is normalised to itself has no spaces at its ends: what is stripped would
be missing from the result. -/
theorem strip_of_fixed {cwd : String} (hrelative : isAbsolute cwd = false)
    (h : normalizeRepoCwd cwd = .ok cwd) : strip cwd = cwd := by
  obtain ⟨-, hcwd⟩ := normalizeRepoCwd_ok h
  split at hcwd
  · rw [hcwd]
    decide +kernel
  · have hroot : pathRoot (slashed (rawCwd cwd)) = "" := by
      cases habsolute : isAbsolute (slashed (rawCwd cwd)) with
      | false => exact pathRoot_of_relative habsolute
      | true =>
        rw [hcwd, isAbsolute_rooted habsolute] at hrelative
        cases hrelative
    rw [hroot, String.empty_append] at hcwd
    have hlength : cwd.length ≤ (rawCwd cwd).length := by
      calc cwd.length = (joinParts (pathParts (slashed (rawCwd cwd)))).length := by rw [← hcwd]
        _ ≤ (slashed (rawCwd cwd)).length := length_joinParts_pathParts _
        _ = (rawCwd cwd).length := length_slashed _
    rw [rawCwd] at hlength hcwd
    split at hlength
    next hempty =>
      rw [if_pos hempty] at hcwd
      have hnil : joinParts (pathParts (slashed ".")) = "" := by decide +kernel
      rw [hcwd, hnil]
      decide +kernel
    next => exact strip_of_length hlength

theorem normalizeRepoCwd_joinParts {parts : List String} (hne : parts ≠ [])
    (hparts : ∀ part ∈ parts, IsPart part) (hup : ".." ∉ parts)
    (hslash : '\\' ∉ (joinParts parts).toList)
    (hstrip : strip (joinParts parts) = joinParts parts) :
    normalizeRepoCwd (joinParts parts) = .ok (joinParts parts) := by
  have hsome : joinParts parts ≠ "" := by
    intro hempty
    have hback := pathParts_joinParts parts hparts
    rw [hempty] at hback
    exact hne (hback.symm.trans (by decide +kernel))
  have hraw : rawCwd (joinParts parts) = joinParts parts := by
    rw [rawCwd, hstrip, if_neg hsome]
  have hrelative := isAbsolute_joinParts parts hparts
  simp only [normalizeRepoCwd, hraw, slashed_of_notMem hslash, pathParts_joinParts parts hparts,
    hrelative, pathRoot_of_relative hrelative, Bool.false_eq_true, if_false, if_neg hup, hne,
    and_false, String.empty_append]

/-- Which accepted directories stay below the workspace and are their own normal form. -/
theorem normalCwd_iff {raw cwd : String} (h : normalizeRepoCwd raw = .ok cwd) :
    NormalCwd cwd ↔ KeepsCwd raw := by
  obtain ⟨hup, hcwd⟩ := normalizeRepoCwd_ok h
  have hparts := pathParts_isPart (slashed (rawCwd raw))
  cases habsolute : isAbsolute (slashed (rawCwd raw)) with
  | true =>
    have hrooted : isAbsolute cwd = true := by
      rw [hcwd]
      split
      next hempty =>
        have := isAbsolute_rooted habsolute ""
        rw [hempty.1] at this
        cases this
      next => exact isAbsolute_rooted habsolute _
    constructor
    · intro hnormal
      rw [hnormal.relative] at hrooted
      cases hrooted
    · intro hkeeps
      rw [hkeeps.rootless] at habsolute
      cases habsolute
  | false =>
    rw [pathRoot_of_relative habsolute, String.empty_append] at hcwd
    by_cases hnil : pathParts (slashed (rawCwd raw)) = []
    · rw [if_pos ⟨rfl, hnil⟩] at hcwd
      subst hcwd
      constructor
      · intro _
        exact ⟨habsolute, by simp [hnil], by simp [hnil]⟩
      · intro _
        exact ⟨by decide +kernel, by decide +kernel, by rfl⟩
    · rw [if_neg (fun hempty => hnil hempty.2)] at hcwd
      have hstrip : strip cwd = cwd ↔ _ :=
        hcwd ▸ strip_joinParts_iff fun part hpart => (hparts part hpart).2.1
      have hback : pathParts cwd = pathParts (slashed (rawCwd raw)) := by
        rw [hcwd]
        exact pathParts_joinParts _ hparts
      have hrelative : isAbsolute cwd = false := by
        rw [hcwd]
        exact isAbsolute_joinParts _ hparts
      constructor
      · intro hnormal
        obtain ⟨hfirst, hlast⟩ := hstrip.mp (strip_of_fixed hnormal.relative hnormal.fixed)
        exact ⟨habsolute, hfirst, hlast⟩
      · intro hkeeps
        have hbelow : ".." ∉ pathParts cwd := by
          rw [hback]
          exact hup
        refine ⟨hrelative, hbelow, ?_⟩
        have hslash : '\\' ∉ cwd.toList := by
          intro hin
          rw [hcwd] at hin
          rcases mem_joinParts_pathParts hin with hc | hc
          · cases hc
          · exact backslash_notMem_slashed _ hc
        have hkept := hstrip.mpr ⟨hkeeps.first, hkeeps.last⟩
        rw [hcwd] at hslash hkept ⊢
        exact normalizeRepoCwd_joinParts hnil hparts hup hslash hkept

/-! ## What is written -/

def textValue (text : String) : JsonText.Value := .str (pyText text)

def optionalText : Option String → JsonText.Value
  | none => .null
  | some text => textValue text

def textValues (items : List String) : JsonText.Value := .list (items.map textValue)

abbrev ArtifactPayload := List (PyText × JsonText.Value)

/-- A dictionary of named entries. -/
def entries (items : List (String × JsonText.Value)) : ArtifactPayload :=
  items.map fun item => (pyText item.1, item.2)

/-- `edit.model_dump(mode="json")`. -/
def FileEdit.dump (edit : FileEdit) : JsonText.Value :=
  .mapping (entries [("path", textValue edit.path), ("content", optionalText edit.content),
    ("delete", .bool edit.delete), ("expected_sha256", optionalText edit.expectedSha256)])

/-- `spec.model_dump(mode="json")`. -/
def VerificationCommandSpec.dump (spec : VerificationCommandSpec) : JsonText.Value :=
  .mapping (entries [("argv", textValues spec.argv), ("cwd", textValue spec.cwd)])

/-- `parse_verification_plan` of a list. -/
def parseVerificationPlan : List RawCommand → Except PyError (List VerificationCommandSpec)
  | [] => .ok []
  | command :: commands =>
    match command.parse with
    | .error e => .error e
    | .ok spec =>
      match parseVerificationPlan commands with
      | .error e => .error e
      | .ok specs => .ok (spec :: specs)

/-- The arguments of `save_patch_artifact` beside the plan. -/
structure HarvestedPatch where
  task : WorkerTask
  edits : List FileEdit
  baselineSnapshotId : String
  summary : String
  commandsRun : List String

def HarvestedPatch.payload (patch : HarvestedPatch) (plan : List VerificationCommandSpec) :
    ArtifactPayload :=
  entries [("task_id", textValue patch.task.taskId),
    ("write_scope", textValues patch.task.writeScope),
    ("baseline_snapshot_id", textValue patch.baselineSnapshotId),
    ("summary", textValue patch.summary),
    ("commands_run", textValues patch.commandsRun),
    ("verification_plan", .list (plan.map VerificationCommandSpec.dump)),
    ("edits", .list (patch.edits.map FileEdit.dump)),
    ("changed_files", textValues (patch.edits.map FileEdit.path))]

/-- `json.dumps(payload, indent=2)`. -/
def dumpsPayload (payload : ArtifactPayload) : Content :=
  .utf8 (String.ofList (JsonText.write 0 (.mapping payload)))

/-- `save_patch_artifact`: what `patch.json` holds then. -/
def savePatchArtifact (patch : HarvestedPatch) (plan : List RawCommand) :
    Except PyError Content :=
  match parseVerificationPlan plan with
  | .error e => .error e
  | .ok specs => .ok (dumpsPayload (patch.payload specs))

/-! ## What is read -/

/-- What is not in the repository: the value of a float literal, how pydantic takes another value
for a `bool`, and `repr`. -/
structure JsonHost where
  readFloat : List Char → String
  laxBool : JsonText.Value → Option Bool
  reprOf : JsonText.Value → String

/-- `json.loads`. -/
def jsonLoads (host : JsonHost) (text : String) : Option JsonText.Value :=
  match JsonText.rawDecode host.readFloat (JsonText.skip text.toList) with
  | some (value, rest) => if JsonText.skip rest = [] then some value else none
  | none => none

/-- `load_patch_artifact`, given what is at the place. -/
def loadPatchArtifact (host : JsonHost) (artifactRef : String) (file : Option Content) :
    Except PyError ArtifactPayload :=
  match file with
  | none => .error (.integrationError s!"missing patch artifact: {artifactRef}")
  | some content =>
    match content.readText with
    | .error e => .error e
    | .ok text =>
      match jsonLoads host text with
      | none => .error (.valueError "invalid JSON")
      | some (.mapping payload) => .ok payload
      | some _ => .error (.integrationError s!"invalid patch artifact: {artifactRef}")

/-- `str` of pydantic. It takes lone surrogates too; a text has none, and they are refused. -/
def validateText : JsonText.Value → Except PyError String
  | .str points =>
    if Bindable points then .ok (String.ofList (points.map Char.ofNat))
    else .error (.valueError "Input should be a valid string, unable to parse raw data")
  | _ => .error (.valueError "Input should be a valid string")

def validateOptionalText : JsonText.Value → Except PyError (Option String)
  | .null => .ok none
  | value => (validateText value).map some

def validateBool (host : JsonHost) : JsonText.Value → Except PyError Bool
  | .bool value => .ok value
  | value =>
    match host.laxBool value with
    | some value => .ok value
    | none => .error (.valueError "Input should be a valid boolean")

def validateTexts : List JsonText.Value → Except PyError (List String)
  | [] => .ok []
  | item :: items =>
    match validateText item with
    | .error e => .error e
    | .ok text => (validateTexts items).map (text :: ·)

/-- A field of a model; without a default it is required. -/
def validateField {α : Type} (items : ArtifactPayload) (name : String) (default : Option α)
    (validate : JsonText.Value → Except PyError α) : Except PyError α :=
  match Dict.get? items (pyText name), default with
  | some value, _ => validate value
  | none, some value => .ok value
  | none, none => .error (.valueError "Field required")

/-- `FileEdit.model_validate`. -/
def validateEdit (host : JsonHost) : JsonText.Value → Except PyError FileEdit
  | .mapping items => do
    let path ← validateField items "path" none validateText
    let content ← validateField items "content" (some none) validateOptionalText
    let delete ← validateField items "delete" (some false) (validateBool host)
    let expectedSha256 ← validateField items "expected_sha256" (some none) validateOptionalText
    if h : delete = content.isNone then .ok ⟨path, content, delete, expectedSha256, h⟩
    else .error (.valueError "exactly one of delete=true or content must be provided")
  | _ => .error (.valueError "Input should be a valid dictionary or instance of FileEdit")

def validateEdits (host : JsonHost) : List JsonText.Value → Except PyError (List FileEdit)
  | [] => .ok []
  | item :: items =>
    match validateEdit host item with
    | .error e => .error e
    | .ok edit => (validateEdits host items).map (edit :: ·)

/-- `edits_from_artifact`. -/
def editsFromArtifact (host : JsonHost) (payload : ArtifactPayload) :
    Except PyError (List FileEdit) :=
  match Dict.get? payload (pyText "edits") with
  | some (.list items) => validateEdits host items
  | none | some .null | some (.bool false) | some (.int 0) | some (.float "0.0") |
    some (.float "-0.0") | some (.str []) | some (.mapping []) => .ok []
  | some (.str _) | some (.mapping _) =>
    .error (.valueError "Input should be a valid dictionary or instance of FileEdit")
  | some _ => .error (.typeError "edits are not iterable")

def validateArgv : JsonText.Value → Except PyError (List String)
  | .list items => validateTexts items
  | _ => .error (.valueError "Input should be a valid list")

/-- `VerificationCommandSpec.model_validate`. -/
def validateCommand (items : ArtifactPayload) : Except PyError VerificationCommandSpec := do
  let argv ← validateField items "argv" none validateArgv
  let cwd ← validateField items "cwd" (some ".") validateText
  verificationCommandSpec argv cwd

/-- How `parse_verification_command` takes a value. -/
def rawCommandOf (host : JsonHost) : JsonText.Value → RawCommand
  | .mapping items => .mapping (validateCommand items)
  | .list items =>
    match items, validateTexts items with
    | _ :: _, .ok argv => .argv argv
    | items, _ => .other (host.reprOf (.list items))
  | value => .other (host.reprOf value)

/-- `verification_plan_from_artifact`. -/
def verificationPlanFromArtifact (host : JsonHost) (payload : ArtifactPayload) :
    Except PyError (List VerificationCommandSpec) :=
  let parsed : Except PyError (List VerificationCommandSpec) :=
    match Dict.get? payload (pyText "verification_plan") with
    | none | some .null => .ok []
    | some (.list items) => parseVerificationPlan (items.map (rawCommandOf host))
    | some _ => .error (.valueError "verification_plan must be a list")
  match parsed with
  | .ok specs => .ok specs
  | .error e =>
    .error (.integrationError s!"invalid verification_plan in patch artifact: {e.message}")

/-! ## The way through the file -/

theorem scalar_pyText (text : String) : ∀ point ∈ pyText text,
    point < 0x110000 ∧ ¬ (0xd800 ≤ point ∧ point ≤ 0xdfff) := by
  intro point hpoint
  obtain ⟨c, -, rfl⟩ := List.mem_map.mp hpoint
  rcases c.valid with hlow | ⟨hlow, hhigh⟩
  · have : c.toNat < 0xd800 := hlow
    omega
  · have hsurrogate : 0xdfff < c.toNat := hlow
    have hplane : c.toNat < 0x110000 := hhigh
    omega

theorem joined_pyText (text : String) : JsonText.Joined (pyText text) :=
  JsonText.joined_of_scalar (fun point hpoint => (scalar_pyText text point hpoint).1)
    fun point hpoint => (scalar_pyText text point hpoint).2

theorem validateText_textValue (text : String) : validateText (textValue text) = .ok text := by
  have hbindable : Bindable (pyText text) := fun point hpoint =>
    decide_eq_false (scalar_pyText text point hpoint).2
  have hback : (pyText text).map Char.ofNat = text.toList := by
    rw [pyText, List.map_map]
    exact (List.map_congr_left fun c _ => Char.ofNat_toNat c).trans (List.map_id _)
  rw [textValue, validateText, if_pos hbindable, hback, String.ofList_toList]

theorem validateOptionalText_optionalText (text : Option String) :
    validateOptionalText (optionalText text) = .ok text := by
  cases text with
  | none => rfl
  | some text =>
    have htext := validateText_textValue text
    rw [textValue] at htext
    rw [optionalText, textValue, validateOptionalText, htext]
    · rfl
    · exact nofun

theorem validateTexts_textValue (items : List String) :
    validateTexts (items.map textValue) = .ok items := by
  induction items with
  | nil => rfl
  | cons item items ih =>
    rw [List.map_cons, validateTexts, validateText_textValue, ih]
    rfl

theorem pyText_inj {first second : String} : pyText first = pyText second ↔ first = second := by
  constructor
  · intro h
    have htext := validateText_textValue first
    rw [textValue, h, ← textValue, validateText_textValue] at htext
    exact (Except.ok.inj htext).symm
  · rintro rfl
    rfl

theorem get?_entries (items : List (String × JsonText.Value)) (name : String) :
    Dict.get? (entries items) (pyText name) = Dict.get? items name := by
  induction items with
  | nil => rfl
  | cons item items ih =>
    rw [entries, List.map_cons, ← entries, Dict.get?_cons, ih, Dict.get?_cons]
    simp only [pyText_inj]

theorem validateEdit_dump (host : JsonHost) (edit : FileEdit) :
    validateEdit host edit.dump = .ok edit := by
  obtain ⟨path, content, delete, expectedSha256, hoperation⟩ := edit
  simp [validateEdit, FileEdit.dump, validateField, get?_entries, Dict.get?, validateText_textValue,
    validateOptionalText_optionalText, validateBool, Bind.bind, Except.bind, hoperation]

theorem validateEdits_dump (host : JsonHost) (edits : List FileEdit) :
    validateEdits host (edits.map FileEdit.dump) = .ok edits := by
  induction edits with
  | nil => rfl
  | cons edit edits ih =>
    rw [List.map_cons, validateEdits, validateEdit_dump, ih]
    rfl

theorem rawCommandOf_dump (host : JsonHost) (spec : VerificationCommandSpec) :
    rawCommandOf host spec.dump = .mapping (verificationCommandSpec spec.argv spec.cwd) := by
  simp [rawCommandOf, VerificationCommandSpec.dump, validateCommand, validateField, get?_entries,
    Dict.get?, validateText_textValue, validateArgv, textValues, validateTexts_textValue, Bind.bind,
    Except.bind]

/-- A command that was accepted is accepted again, unchanged, exactly if its directory is normal. -/
theorem verificationCommandSpec_again (spec : VerificationCommandSpec) :
    verificationCommandSpec spec.argv spec.cwd = .ok spec ↔
      normalizeRepoCwd spec.cwd = .ok spec.cwd := by
  obtain ⟨argv, cwd, hlength, hitems, hcwd⟩ := spec
  rw [verificationCommandSpec, dif_pos hlength, dif_pos hitems]
  constructor
  · intro h
    split at h
    next normal hnormal =>
      have hsame : normal = cwd := congrArg VerificationCommandSpec.cwd (Except.ok.inj h)
      change normalizeRepoCwd cwd = .ok cwd
      rw [hnormal, hsame]
    next => cases h
  · intro h
    split
    next normal hnormal =>
      rw [h] at hnormal
      cases hnormal
      rfl
    next e herror =>
      rw [h] at herror
      cases herror

theorem parseVerificationPlan_again (specs : List VerificationCommandSpec) :
    parseVerificationPlan (specs.map fun spec =>
        .mapping (verificationCommandSpec spec.argv spec.cwd)) = .ok specs ↔
      ∀ spec ∈ specs, normalizeRepoCwd spec.cwd = .ok spec.cwd := by
  induction specs with
  | nil => simp [parseVerificationPlan]
  | cons spec specs ih =>
    rw [List.forall_mem_cons, ← ih, ← verificationCommandSpec_again, List.map_cons,
      parseVerificationPlan, RawCommand.parse]
    constructor
    · intro h
      split at h
      · cases h
      next first hfirst =>
        split at h
        · cases h
        next rest hrest =>
          obtain ⟨hhead, htail⟩ := List.cons.inj (Except.ok.inj h)
          exact ⟨hhead ▸ hfirst, htail ▸ hrest⟩
    · rintro ⟨hfirst, hrest⟩
      rw [hfirst, hrest]

/-! ## What is written can be read -/

theorem writable_textValues (items : List String) : JsonText.Writable (textValues items) := by
  refine .list fun item hitem => ?_
  obtain ⟨text, -, rfl⟩ := List.mem_map.mp hitem
  exact .str (joined_pyText text)

theorem writable_optionalText (text : Option String) :
    JsonText.Writable (optionalText text) := by
  cases text with
  | none => exact .null
  | some text => exact .str (joined_pyText text)

theorem writable_entries {items : List (String × JsonText.Value)}
    (hnames : (Dict.keys items).Nodup) (h : ∀ item ∈ items, JsonText.Writable item.2) :
    JsonText.Writable (.mapping (entries items)) := by
  refine .mapping ?_ ?_ ?_
  · have hkeys : Dict.keys (entries items) = (Dict.keys items).map pyText := by
      simp [Dict.keys, entries]
    rw [hkeys]
    exact hnames.map fun _ _ hsame => pyText_inj.mp hsame
  · intro item hitem
    obtain ⟨named, -, rfl⟩ := List.mem_map.mp hitem
    exact joined_pyText _
  · intro item hitem
    obtain ⟨named, hnamed, rfl⟩ := List.mem_map.mp hitem
    exact h named hnamed

theorem FileEdit.writable_dump (edit : FileEdit) : JsonText.Writable edit.dump := by
  refine writable_entries (by simp [Dict.keys]) ?_
  simp only [List.forall_mem_cons]
  exact ⟨.str (joined_pyText _), writable_optionalText _, .bool _, writable_optionalText _,
    List.forall_mem_nil _⟩

theorem VerificationCommandSpec.writable_dump (spec : VerificationCommandSpec) :
    JsonText.Writable spec.dump := by
  refine writable_entries (by simp [Dict.keys]) ?_
  simp only [List.forall_mem_cons]
  exact ⟨writable_textValues _, .str (joined_pyText _), List.forall_mem_nil _⟩

theorem HarvestedPatch.writable_payload (patch : HarvestedPatch)
    (plan : List VerificationCommandSpec) : JsonText.Writable (.mapping (patch.payload plan)) := by
  have hplan : JsonText.Writable (.list (plan.map VerificationCommandSpec.dump)) := by
    refine .list fun item hitem => ?_
    obtain ⟨spec, -, rfl⟩ := List.mem_map.mp hitem
    exact spec.writable_dump
  have hedits : JsonText.Writable (.list (patch.edits.map FileEdit.dump)) := by
    refine .list fun item hitem => ?_
    obtain ⟨edit, -, rfl⟩ := List.mem_map.mp hitem
    exact edit.writable_dump
  refine writable_entries (by simp [Dict.keys]) ?_
  simp only [List.forall_mem_cons]
  exact ⟨.str (joined_pyText _), writable_textValues _, .str (joined_pyText _),
    .str (joined_pyText _), writable_textValues _, hplan, hedits, writable_textValues _,
    List.forall_mem_nil _⟩

/-- A payload that can be written is loaded as it was. -/
theorem loadPatchArtifact_dumps (host : JsonHost) (artifactRef : String) {payload : ArtifactPayload}
    (h : JsonText.Writable (.mapping payload)) :
    loadPatchArtifact host artifactRef (some (dumpsPayload payload)) = .ok payload := by
  have hread : (dumpsPayload payload).readText =
      .ok (String.ofList (JsonText.write 0 (.mapping payload))) := by
    refine (readText_eq_iff _ _).mpr ?_
    rw [String.toList_ofList]
    exact universalNewlines_of_notMem _ (h.return_notMem 0)
  have hskip : JsonText.skip (JsonText.write 0 (.mapping payload)) =
      JsonText.write 0 (.mapping payload) := by
    obtain ⟨c, tail, hwritten, hblank, -⟩ :=
      (h.denotes 0 : JsonText.Denotes host.readFloat _ _).head
    rw [hwritten, JsonText.skip_cons hblank]
  have hdecode : JsonText.rawDecode host.readFloat _ = _ := JsonText.rawDecode_write h []
  rw [List.append_nil] at hdecode
  have hloads : jsonLoads host (String.ofList (JsonText.write 0 (.mapping payload))) =
      some (.mapping payload) := by
    rw [jsonLoads, String.toList_ofList, hskip, hdecode]
    rfl
  simp only [loadPatchArtifact, hread, hloads]

/-! ## Plans and edits -/

theorem cwd_of_accepted {argv : List String} {cwd : String} {spec : VerificationCommandSpec}
    (h : verificationCommandSpec argv cwd = .ok spec) : normalizeRepoCwd cwd = .ok spec.cwd := by
  rw [verificationCommandSpec] at h
  split at h
  next =>
    split at h
    next =>
      split at h
      next hcwd =>
        rw [← Except.ok.inj h]
        exact hcwd
      next => cases h
    next => cases h
  next => cases h

theorem normal_iff_of_accepted {raws : List (List String × String)}
    {specs : List VerificationCommandSpec}
    (h : List.Forall₂ (fun raw spec => verificationCommandSpec raw.1 raw.2 = .ok spec) raws specs) :
    (∀ spec ∈ specs, NormalCwd spec.cwd) ↔ ∀ raw ∈ raws, KeepsCwd raw.2 := by
  induction h with
  | nil => simp
  | cons hraw _ ih =>
    rw [List.forall_mem_cons, List.forall_mem_cons, ih, normalCwd_iff (cwd_of_accepted hraw)]

/-- The plan of a loaded artifact. -/
theorem verificationPlanFromArtifact_payload (host : JsonHost) (patch : HarvestedPatch)
    (specs : List VerificationCommandSpec) :
    verificationPlanFromArtifact host (patch.payload specs) = .ok specs ↔
      ∀ spec ∈ specs, normalizeRepoCwd spec.cwd = .ok spec.cwd := by
  have hcommands : (specs.map VerificationCommandSpec.dump).map (rawCommandOf host) =
      specs.map fun spec => .mapping (verificationCommandSpec spec.argv spec.cwd) := by
    rw [List.map_map]
    exact List.map_congr_left fun spec _ => rawCommandOf_dump host spec
  have hplan : Dict.get? (patch.payload specs) (pyText "verification_plan") =
      some (.list (specs.map VerificationCommandSpec.dump)) := by
    rw [HarvestedPatch.payload, get?_entries]
    rfl
  rw [← parseVerificationPlan_again]
  simp only [verificationPlanFromArtifact, hplan, hcommands]
  constructor
  · intro h
    split at h
    next heq =>
      rw [heq]
      exact h
    next => cases h
  · intro h
    rw [h]

/-- Loaded from its artifact a patch has the edits it had. Its plan comes back, and its commands
run in normal directories below the workspace, exactly if each directory that was accepted keeps
its form. -/
theorem patchFile_faithful_iff (host : JsonHost) (artifactRef : String) (patch : HarvestedPatch)
    {raws : List (List String × String)} {specs : List VerificationCommandSpec}
    {plan : List RawCommand}
    (haccepted : List.Forall₂ (fun raw spec => verificationCommandSpec raw.1 raw.2 = .ok spec)
      raws specs)
    (hplan : parseVerificationPlan plan = .ok specs) :
    ∃ file payload, savePatchArtifact patch plan = .ok file ∧
      loadPatchArtifact host artifactRef (some file) = .ok payload ∧
      editsFromArtifact host payload = .ok patch.edits ∧
      ((∀ spec ∈ specs, NormalCwd spec.cwd) ∧
          verificationPlanFromArtifact host payload = .ok specs ↔
        ∀ raw ∈ raws, KeepsCwd raw.2) := by
  have hwritable := patch.writable_payload specs
  refine ⟨_, _, by rw [savePatchArtifact, hplan],
    loadPatchArtifact_dumps host artifactRef hwritable,
    ?_, ?_⟩
  · rw [editsFromArtifact, HarvestedPatch.payload, get?_entries]
    exact validateEdits_dump host patch.edits
  · rw [verificationPlanFromArtifact_payload, ← normal_iff_of_accepted haccepted]
    constructor
    · intro h
      exact h.1
    · intro h
      exact ⟨h, fun spec hspec => (h spec hspec).fixed⟩

namespace Sample

theorem toOption_eq_some {ε α : Type} {x : Except ε α} {a : α} (h : x.toOption = some a) :
    x = .ok a := by
  cases x with
  | error e => cases h
  | ok b => exact congrArg _ (Option.some.inj h)

theorem ls_cwd (raw cwd : String) (h : normalizeRepoCwd raw = .ok cwd) :
    ∃ raw, normalizeRepoCwd raw = .ok cwd :=
  ⟨raw, h⟩

def lsIn (raw cwd : String) (h : normalizeRepoCwd raw = .ok cwd) : VerificationCommandSpec :=
  ⟨["ls"], cwd, by decide, by decide +kernel, ls_cwd raw cwd h⟩

/-- Accepted for a directory that is absolute once its backslash is a slash. -/
def lsEtc : VerificationCommandSpec :=
  lsIn "\\etc" "/etc" (toOption_eq_some (by decide +kernel))

/-- Accepted for a directory whose name begins with a space. -/
def lsSpaced : VerificationCommandSpec :=
  lsIn "./ a" " a" (toOption_eq_some (by decide +kernel))

def lsSrc : VerificationCommandSpec :=
  lsIn "src\\lib" "src/lib" (toOption_eq_some (by decide +kernel))

theorem lsIn_accepted {raw cwd : String} (h : normalizeRepoCwd raw = .ok cwd) :
    verificationCommandSpec ["ls"] raw = .ok (lsIn raw cwd h) := by
  have hlength : ["ls"] ≠ [] ∧ ["ls"].length ≤ 32 := by decide
  have hitems : ∀ item ∈ ["ls"], strip item ≠ "" := by decide +kernel
  rw [verificationCommandSpec, dif_pos hlength, dif_pos hitems]
  split
  next hcwd =>
    rw [h] at hcwd
    cases hcwd
    rfl
  next herror =>
    rw [h] at herror
    cases herror

def plainJson : JsonHost := ⟨String.ofList, fun _ => none, fun _ => ""⟩

/-- An edit with backslashes, spaces, quotes and line ends. -/
def oddPatch : HarvestedPatch where
  task := { taskId := "fix", kind := .repair, writeScope := ["a \\b"] }
  edits := [{ path := "a \\b", content := some " \"\r\n\\u00e9 é😀 ",
              contentMatchesOperation := rfl }]
  baselineSnapshotId := "base"
  summary := ""
  commandsRun := []

/-- `\etc` is accepted as the absolute `/etc`, and `./ a` as a directory that is another one when
it is normalised again; neither plan is loaded as it was saved. -/
theorem etc_accepted :
    verificationCommandSpec ["ls"] "\\etc" = .ok lsEtc ∧ isAbsolute lsEtc.cwd = true ∧
      verificationPlanFromArtifact plainJson (oddPatch.payload [lsEtc]) ≠ .ok [lsEtc] ∧
      verificationCommandSpec ["ls"] "./ a" = .ok lsSpaced ∧
      normalizeRepoCwd lsSpaced.cwd = .ok "a" ∧
      verificationPlanFromArtifact plainJson (oddPatch.payload [lsSpaced]) ≠ .ok [lsSpaced] := by
  have hetc : (normalizeRepoCwd "/etc").toOption = none := by decide +kernel
  have hspaced : normalizeRepoCwd " a" = .ok "a" := toOption_eq_some (by decide +kernel)
  refine ⟨lsIn_accepted _, by decide +kernel, fun h => ?_, lsIn_accepted _, hspaced, fun h => ?_⟩
  · have hfixed : normalizeRepoCwd "/etc" = .ok "/etc" :=
      (verificationPlanFromArtifact_payload _ _ _).mp h lsEtc List.mem_cons_self
    rw [hfixed] at hetc
    cases hetc
  · have hfixed : normalizeRepoCwd " a" = .ok " a" :=
      (verificationPlanFromArtifact_payload _ _ _).mp h lsSpaced List.mem_cons_self
    rw [hspaced] at hfixed
    exact absurd (Except.ok.inj hfixed) (by decide)

theorem src_keeps : KeepsCwd "src\\lib" := by
  have hparts : pathParts (slashed (rawCwd "src\\lib")) = ["src", "lib"] := by decide +kernel
  refine ⟨by decide +kernel, fun part hpart c hc => ?_, fun part hpart c hc => ?_⟩
  · rw [hparts] at hpart
    obtain rfl := Option.some.inj hpart
    obtain rfl := Option.some.inj hc
    decide
  · rw [hparts] at hpart
    obtain rfl := Option.some.inj hpart
    obtain rfl := Option.some.inj hc
    decide

/-- A plan and edits that come back from their artifact. -/
theorem odd_patch_faithful :
    ∃ file payload, savePatchArtifact oddPatch [.parsed lsSrc] = .ok file ∧
      loadPatchArtifact plainJson "patch.json" (some file) = .ok payload ∧
      editsFromArtifact plainJson payload = .ok oddPatch.edits ∧
      NormalCwd lsSrc.cwd ∧ verificationPlanFromArtifact plainJson payload = .ok [lsSrc] := by
  have haccepted : List.Forall₂ (fun raw spec => verificationCommandSpec raw.1 raw.2 = .ok spec)
      [(["ls"], "src\\lib")] [lsSrc] := .cons (lsIn_accepted _) .nil
  obtain ⟨file, payload, hsave, hload, hedits, hplan⟩ :=
    patchFile_faithful_iff plainJson "patch.json" oddPatch haccepted
      (rfl : parseVerificationPlan [.parsed lsSrc] = .ok [lsSrc])
  have hkeeps : ∀ raw ∈ [(["ls"], "src\\lib")], KeepsCwd raw.2 := by
    intro raw hraw
    rw [List.mem_singleton.mp hraw]
    exact src_keeps
  obtain ⟨hnormal, hsame⟩ := hplan.mpr hkeeps
  exact ⟨file, payload, hsave, hload, hedits, hnormal lsSrc List.mem_cons_self, hsame⟩

end Sample

end EvoCI
