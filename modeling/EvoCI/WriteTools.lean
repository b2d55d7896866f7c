import EvoCI.Scheduler
import EvoCI.Library.Run
import Mathlib.Data.List.Sort

/-! The write tools of a repair worker on its staging copy, and the record of the
paths that its successful calls changed. -/

namespace EvoCI

open Library

/-! ## Substrings -/

/-- Occurrences of `old` that do not overlap; `skip` characters are left of the
last one found. -/
def countFrom (old : List Char) : Nat → List Char → Nat
  | _, [] => 0
  | skip + 1, _ :: cs => countFrom old skip cs
  | 0, c :: cs =>
    if old.isPrefixOf (c :: cs) then countFrom old (old.length - 1) cs + 1
    else countFrom old 0 cs

/-- `text.count(old)`. -/
def countText (old text : String) : Nat := countFrom old.toList 0 text.toList

/-- Replaces the next `count` occurrences. -/
def replaceFrom (old new : List Char) : Nat → Nat → List Char → List Char
  | _, _, [] => []
  | skip + 1, count, _ :: cs => replaceFrom old new skip count cs
  | 0, 0, cs => cs
  | 0, count + 1, c :: cs =>
    if old.isPrefixOf (c :: cs) then new ++ replaceFrom old new (old.length - 1) count cs
    else c :: replaceFrom old new 0 (count + 1) cs

/-- `text.replace(old, new, count)`. -/
def replaceText (old new : String) (count : Nat) (text : String) : String :=
  String.ofList (replaceFrom old.toList new.toList 0 count text.toList)

/-! ## File tools -/

structure PatchApplicationResult where
  createdFiles : List String := []
  modifiedFiles : List String := []
  deletedFiles : List String := []
  deriving DecidableEq, Repr

def maxPatchFiles : Nat := 20

namespace Files

/-- `(boundary.root / path).is_symlink()`; the last component is not followed. -/
def isSymlink (files : Files) (root : Loc) (path : String) : Bool :=
  match (pathParts path).getLast? with
  | none => false
  | some name =>
    match realpath files.linkAt maxLinks root (pathParts path).dropLast with
    | some base => (files.linkAt (base ++ [name])).isSome
    | none => false

/-- `_resolve_regular_file`, and `_resolve_staged_path` where nothing must exist. -/
def resolveRegularFile (files : Files) (root : Loc) (path : String) (mustExist : Bool) :
    Except PyError Loc :=
  if isAbsolute path ∨ ".." ∈ pathParts path then
    .error (.policyViolation s!"path escapes workspace: {path}")
  else if files.isSymlink root path then
    .error (.policyViolation s!"refusing to operate on symlink: {path}")
  else
    match files.boundaryResolve root path with
    | .error e => .error e
    | .ok target =>
      if mustExist ∧ files.pathExists root target = false then
        .error (.osError s!"No such file or directory: {path}")
      else if (files.linkAt target).isSome then
        .error (.policyViolation s!"refusing to operate on symlink: {path}")
      else if files.pathExists root target ∧ files.fileAt target = none then
        .error (.policyViolation s!"target is not a regular file: {path}")
      else .ok target

/-- The loop of `apply_patch`: the files as they are when it returns or raises. -/
def patchFiles (files : Files) (denied : Loc → Bool) (root : Loc) :
    List (String × String) → PatchApplicationResult → Files × Except PyError PatchApplicationResult
  | [], result => (files, .ok result)
  | (path, content) :: rest, result =>
    match files.boundaryResolve root path with
    | .error e => (files, .error e)
    | .ok target =>
      match files.writeFile denied root path content none with
      | .error e => (files, .error e)
      | .ok files' =>
        files'.patchFiles denied root rest
          (if files.pathExists root target then
            { result with modifiedFiles := result.modifiedFiles ++ [path] }
          else { result with createdFiles := result.createdFiles ++ [path] })

def applyPatch (files : Files) (denied : Loc → Bool) (root : Loc)
    (entries : List (String × String)) : Files × Except PyError PatchApplicationResult :=
  if maxPatchFiles < entries.length then
    (files, .error (.policyViolation "patch changes too many files"))
  else files.patchFiles denied root entries {}

/-- `replace_text`. The staged file is read with universal newlines. -/
def replaceText (files : Files) (denied : Loc → Bool) (root : Loc)
    (path oldText newText : String) (expectedReplacements : Int) :
    Except PyError (Files × PatchApplicationResult) :=
  if oldText = "" then .error (.policyViolation "old_text must not be empty")
  else
    match files.resolveRegularFile root path true with
    | .error e => .error e
    | .ok target =>
      match files.readTextOrNone target with
      | .error _ => .error (.policyViolation s!"file is not valid UTF-8 text: {path}")
      | .ok text =>
        let content := text.getD ""
        let found := countText oldText content
        if (found : Int) ≠ expectedReplacements then
          .error (.policyViolation (s!"replace_text expected {expectedReplacements} " ++
            s!"occurrence(s) of old_text in {path}, found {found}"))
        else
          (files.writeFile denied root path (EvoCI.replaceText oldText newText found content)
            none).map fun files' => (files', { modifiedFiles := [path] })

def createFile (files : Files) (denied : Loc → Bool) (root : Loc) (path content : String) :
    Except PyError (Files × PatchApplicationResult) :=
  match files.resolveRegularFile root path false with
  | .error e => .error e
  | .ok target =>
    if files.pathExists root target then
      .error (.policyViolation s!"file already exists: {path}")
    else
      (files.writeFile denied root path content none).map fun files' =>
        (files', { createdFiles := [path] })

def deleteFile (files : Files) (denied : Loc → Bool) (root : Loc) (path : String) :
    Except PyError (Files × PatchApplicationResult) :=
  match files.resolveRegularFile root path true with
  | .error e => .error e
  | .ok target =>
    (files.unlink denied root target).map fun files' => (files', { deletedFiles := [path] })

end Files

/-! ## The registry -/

/-- The registry of a repair worker: its staging copy, the normalized paths it may
write, and where the operating system refuses. -/
structure WriteRegistry where
  root : Loc
  allowedWrites : List String
  denied : Loc → Bool := fun _ => false

/-- `_require_write_path`. -/
def WriteRegistry.requireWritePath (registry : WriteRegistry) (files : Files) (path : String) :
    Except PyError String :=
  match assertWritePathAllowed path registry.allowedWrites with
  | .error e => .error e
  | .ok normalized =>
    match files.boundaryResolve registry.root normalized with
    | .error e => .error e
    | .ok target =>
      if files.isSymlink registry.root normalized ∨ (files.linkAt target).isSome then
        .error (.policyViolation s!"refusing to operate on symlink: {path}")
      else .ok normalized

/-- The dictionary of normalized paths that `apply_patch` writes. -/
def WriteRegistry.guardPaths (registry : WriteRegistry) (files : Files) :
    List (String × String) → Dict String String → Except PyError (Dict String String)
  | [], guarded => .ok guarded
  | (path, content) :: rest, guarded =>
    match registry.requireWritePath files path with
    | .error e => .error e
    | .ok normalized => registry.guardPaths files rest (guarded.set normalized content)

/-- A call of a write tool. -/
inductive WriteCall where
  | applyPatch (files : Dict String String)
  | replaceText (path oldText newText : String) (expectedReplacements : Int)
  | createFile (path content : String)
  | deleteFile (path : String)
  /-- A script leaves any files behind; its result names none of them. -/
  | runSkillScript (after : Files) (error : Option PyError)

/-- What a tool makes of the files when it raises nothing before it writes. -/
def performed (files : Files) (result : Except PyError (Files × PatchApplicationResult)) :
    Files × Except PyError PatchApplicationResult :=
  match result with
  | .error e => (files, .error e)
  | .ok (files', result) => (files', .ok result)

/-- The function of a write tool in the registry. -/
def WriteCall.perform (registry : WriteRegistry) (files : Files) :
    WriteCall → Files × Except PyError PatchApplicationResult
  | .applyPatch entries =>
    match registry.guardPaths files entries [] with
    | .error e => (files, .error e)
    | .ok guarded => files.applyPatch registry.denied registry.root guarded
  | .replaceText path oldText newText expectedReplacements =>
    match registry.requireWritePath files path with
    | .error e => (files, .error e)
    | .ok _ => performed files (files.replaceText registry.denied registry.root path oldText newText
        expectedReplacements)
  | .createFile path content =>
    match registry.requireWritePath files path with
    | .error e => (files, .error e)
    | .ok _ => performed files (files.createFile registry.denied registry.root path content)
  | .deleteFile path =>
    match registry.requireWritePath files path with
    | .error e => (files, .error e)
    | .ok _ => performed files (files.deleteFile registry.denied registry.root path)
  | .runSkillScript after error =>
    match error with
    | none => (after, .ok {})
    | some e => (after, .error e)

/-- A staging copy and the paths recorded as changed. -/
structure Staging where
  files : Files
  changedPaths : List String := []

/-- `_record_changed_paths`. -/
def PatchApplicationResult.paths (result : PatchApplicationResult) : List String :=
  (result.createdFiles ++ result.modifiedFiles ++ result.deletedFiles).filter (· ≠ "")

/-- `invoke` of the registry: paths are recorded when the tool has returned. -/
def Staging.invoke (registry : WriteRegistry) (call : WriteCall) (st : Staging) : Staging :=
  match call.perform registry st.files with
  | (files, .error _) => { st with files }
  | (files, .ok result) => { files, changedPaths := st.changedPaths ++ result.paths }

end EvoCI
