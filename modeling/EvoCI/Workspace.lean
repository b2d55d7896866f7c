import Mathlib.Data.List.Basic
import EvoCI.Text

/-! The file system below and around a workspace, and the file tools over it.
A location is an absolute path whose components are all real; a path string is
resolved to a location by following the symbolic links on its way. -/

namespace EvoCI

abbrev Loc := List String

/-- A directory entry. The target of a symbolic link is the stored path string. -/
inductive Entry where
  | file (content : Content) (mode : Nat)
  | dir (mode : Nat)
  | link (target : String)
  deriving DecidableEq, Repr

/-- What the operating system finds at each location. -/
abbrev Files := Loc → Option Entry

namespace Files

/-! ## Resolving paths -/

def linkAt (files : Files) (loc : Loc) : Option String :=
  match files loc with
  | some (.link target) => some target
  | _ => none

/-- A walk over components ends at a location or stops at the first link. -/
inductive Walk where
  | done (loc : Loc)
  | atLink (base : Loc) (target : String) (rest : List String)

def walk (links : Loc → Option String) : Loc → List String → Walk
  | base, [] => .done base
  | base, name :: rest =>
    if name = ".." then walk links base.dropLast rest
    else
      match links (base ++ [name]) with
      | some target => .atLink base target rest
      | none => walk links (base ++ [name]) rest

/-- `os.path.realpath`; `none` is a chain of more links than are followed. -/
def realpath (links : Loc → Option String) : Nat → Loc → List String → Option Loc
  | 0, base, parts =>
    match walk links base parts with
    | .done loc => some loc
    | .atLink _ _ _ => none
  | hops + 1, base, parts =>
    match walk links base parts with
    | .done loc => some loc
    | .atLink base target rest =>
      realpath links hops (if isAbsolute target then [] else base) (pathParts target ++ rest)

def maxLinks : Nat := 40

/-- `(root / path).resolve()`. -/
def resolve (files : Files) (root : Loc) (path : String) : Except PyError Loc :=
  match realpath files.linkAt maxLinks (if isAbsolute path then [] else root) (pathParts path) with
  | some loc => .ok loc
  | none => .error (.symlinkLoop s!"Symlink loop from {path}")

/-- `WorkspaceBoundary(root).resolve(path)`. -/
def boundaryResolve (files : Files) (root : Loc) (path : String) : Except PyError Loc :=
  match files.resolve root path with
  | .error e => .error e
  | .ok loc =>
    if root <+: loc then .ok loc
    else .error (.policyViolation s!"path escapes workspace: {path}")

/-! ## Reading -/

/-- Content and mode of the regular file at a location. -/
def fileAt (files : Files) (loc : Loc) : Option (Content × Nat) :=
  match files loc with
  | some (.file content mode) => some (content, mode)
  | _ => none

/-- `_read_text_or_none(target)`. -/
def readTextOrNone (files : Files) (target : Loc) : Except PyError (Option String) :=
  match files.fileAt target with
  | some (content, _) => content.readText.map some
  | none => .ok none

/-- `_file_text(root, relative)`: a path that does not resolve does not exist. -/
def fileText (files : Files) (root : Loc) (path : String) : Except PyError (Option String) :=
  match files.resolve root path with
  | .ok loc => files.readTextOrNone loc
  | .error _ => .ok none

/-! ## Writing -/

def put (files : Files) (loc : Loc) (entry : Entry) : Files :=
  fun l => if l = loc then some entry else files l

def remove (files : Files) (loc : Loc) : Files :=
  fun l => if l = loc then none else files l

/-- Mode of a directory created under the usual umask. -/
def newDirMode : Nat := 0o755

def newFileMode : Nat := 0o600

/-- `target.parent.mkdir(parents=True, exist_ok=True)`, when it succeeds. -/
def mkdirParents (files : Files) (target : Loc) : Files :=
  fun l => if l <+: target ∧ l ≠ target ∧ (files l).isNone then some (.dir newDirMode) else files l

/-- A regular file stands where a directory above `target` is needed. -/
def parentBlocked (files : Files) (target : Loc) : Bool :=
  target.inits.any fun l => l ≠ target ∧ (files.fileAt l).isSome

def isDir (files : Files) (root target : Loc) : Bool :=
  match files target with
  | some (.dir _) => true
  | _ => target = root

/-- `FileTools(root, writable=True).write_file(path, content, mode=mode)`.
`denied` are the locations the operating system refuses to write. The rename of
the staged file is the one step that changes the target. -/
def writeFile (files : Files) (denied : Loc → Bool) (root : Loc) (path content : String)
    (mode : Option Nat) : Except PyError Files :=
  match files.boundaryResolve root path with
  | .error e => .error e
  | .ok target =>
    if files.parentBlocked target then .error (.osError s!"Not a directory: {path}")
    else if files.isDir root target then .error (.osError s!"Is a directory: {path}")
    else if denied target then .error (.osError s!"Permission denied: {path}")
    else
      let fileMode := mode.getD ((files.fileAt target).elim newFileMode Prod.snd)
      .ok ((files.mkdirParents target).put target (.file (.utf8 content) fileMode))

/-- `target.unlink()` on a target that exists. -/
def unlink (files : Files) (denied : Loc → Bool) (root target : Loc) : Except PyError Files :=
  if files.isDir root target then .error (.osError "Is a directory")
  else if denied target then .error (.osError "Permission denied")
  else .ok (files.remove target)

/-! ## What each change leaves alone -/

@[simp] theorem put_self (files : Files) (loc : Loc) (entry : Entry) :
    files.put loc entry loc = some entry := by simp [put]

theorem put_of_ne (files : Files) {loc l : Loc} (entry : Entry) (h : l ≠ loc) :
    files.put loc entry l = files l := by simp [put, h]

theorem remove_of_ne (files : Files) {loc l : Loc} (h : l ≠ loc) :
    files.remove loc l = files l := by simp [remove, h]

/-- Creating parents turns missing entries into directories and nothing else. -/
theorem mkdirParents_cases (files : Files) (target l : Loc) :
    files.mkdirParents target l = files l ∨
      files l = none ∧ files.mkdirParents target l = some (.dir newDirMode) ∧
        l <+: target ∧ l ≠ target := by
  unfold mkdirParents
  split
  next h => exact .inr ⟨by simpa using h.2.2, rfl, h.1, h.2.1⟩
  next => exact .inl rfl

@[simp] theorem fileAt_mkdirParents (files : Files) (target : Loc) :
    (files.mkdirParents target).fileAt = files.fileAt := by
  funext l
  rcases mkdirParents_cases files target l with h | ⟨hn, hd, -⟩
  · simp [fileAt, h]
  · simp [fileAt, hn, hd]

@[simp] theorem linkAt_mkdirParents (files : Files) (target : Loc) :
    (files.mkdirParents target).linkAt = files.linkAt := by
  funext l
  rcases mkdirParents_cases files target l with h | ⟨hn, hd, -⟩
  · simp [linkAt, h]
  · simp [linkAt, hn, hd]

theorem fileAt_put (files : Files) (loc l : Loc) (content : Content) (mode : Nat) :
    (files.put loc (.file content mode)).fileAt l =
      if l = loc then some (content, mode) else files.fileAt l := by
  by_cases h : l = loc
  · simp [fileAt, put, h]
  · simp [fileAt, put, h]

theorem linkAt_put (files : Files) {loc : Loc} (content : Content) (mode : Nat)
    (h : files.linkAt loc = none) : (files.put loc (.file content mode)).linkAt = files.linkAt := by
  funext l
  by_cases hl : l = loc
  · subst hl
    rw [h]
    simp [linkAt, put]
  · simp [linkAt, put, hl]

theorem linkAt_remove (files : Files) {loc : Loc} (h : files.linkAt loc = none) :
    (files.remove loc).linkAt = files.linkAt := by
  funext l
  by_cases hl : l = loc
  · subst hl
    rw [h]
    simp [linkAt, remove]
  · simp [linkAt, remove, hl]

theorem resolve_congr {files files' : Files} (h : files'.linkAt = files.linkAt) (root : Loc)
    (path : String) : files'.resolve root path = files.resolve root path := by
  simp [resolve, h]

/-- A path resolves as another of the same components. -/
theorem resolve_of_parts {files : Files} {root l : Loc} {path path' : String}
    (hparts : pathParts path' = pathParts path) (habsolute : isAbsolute path' = isAbsolute path)
    (h : files.resolve root path = .ok l) : files.resolve root path' = .ok l := by
  unfold resolve at h ⊢
  rw [hparts, habsolute]
  split at h
  next loc hloc =>
    cases h
    rfl
  · cases h

theorem boundaryResolve_congr {files files' : Files} (h : files'.linkAt = files.linkAt)
    (root : Loc) (path : String) :
    files'.boundaryResolve root path = files.boundaryResolve root path := by
  simp [boundaryResolve, resolve_congr h]

theorem boundaryResolve_ok {files : Files} {root loc : Loc} {path : String}
    (h : files.boundaryResolve root path = .ok loc) :
    files.resolve root path = .ok loc ∧ root <+: loc := by
  unfold boundaryResolve at h
  split at h
  · cases h
  · split at h
    · cases h
      exact ⟨by assumption, by assumption⟩
    · cases h

theorem boundaryResolve_of_resolve {files : Files} {root loc : Loc} {path : String}
    (h : files.resolve root path = .ok loc) (hroot : root <+: loc) :
    files.boundaryResolve root path = .ok loc := by
  simp [boundaryResolve, h, hroot]

/-! ## A resolved location is not a link -/

/-- No location on the way from `root` down to `base` is a link. -/
def Unlinked (links : Loc → Option String) (root base : Loc) : Prop :=
  ∀ q, root <+: q → q ≠ root → q <+: base → links q = none

theorem unlinked_self (links : Loc → Option String) (root : Loc) : Unlinked links root root :=
  fun _ hq hne hle => absurd (List.IsPrefix.eq_of_length_le hle hq.length_le) hne

theorem unlinked_nil (links : Loc → Option String) (root : Loc) : Unlinked links root [] := by
  intro q hq hne hle
  have hnil : q = [] := List.prefix_nil.mp hle
  subst hnil
  exact absurd (List.prefix_nil.mp hq).symm hne

theorem unlinked_dropLast {links : Loc → Option String} {root base : Loc}
    (h : Unlinked links root base) : Unlinked links root base.dropLast :=
  fun q hq hne hle => h q hq hne (hle.trans (List.dropLast_prefix base))

theorem unlinked_concat {links : Loc → Option String} {root base : Loc} {name : String}
    (h : Unlinked links root base) (hn : links (base ++ [name]) = none) :
    Unlinked links root (base ++ [name]) := by
  intro q hq hne hle
  rcases List.prefix_concat_iff.mp hle with rfl | hle
  · exact hn
  · exact h q hq hne hle

theorem unlinked_walk {links : Loc → Option String} {root : Loc} (parts : List String)
    (base : Loc) (h : Unlinked links root base) :
    (∀ loc, walk links base parts = .done loc → Unlinked links root loc) ∧
      ∀ b t rest, walk links base parts = .atLink b t rest → Unlinked links root b := by
  induction parts generalizing base with
  | nil =>
    refine ⟨fun loc hw => ?_, fun b t rest hw => ?_⟩
    · cases hw
      exact h
    · cases hw
  | cons name parts ih =>
    unfold walk
    split
    · exact ih _ (unlinked_dropLast h)
    · split
      · refine ⟨fun loc hw => ?_, fun b t rest hw => ?_⟩
        · cases hw
        · cases hw
          exact h
      next hn => exact ih _ (unlinked_concat h hn)

theorem unlinked_realpath {links : Loc → Option String} {root : Loc} (hops : Nat)
    (base : Loc) (parts : List String) (h : Unlinked links root base) {loc : Loc}
    (hr : realpath links hops base parts = some loc) : Unlinked links root loc := by
  induction hops generalizing base parts with
  | zero =>
    unfold realpath at hr
    split at hr
    next hw =>
      cases hr
      exact (unlinked_walk parts base h).1 _ hw
    next => cases hr
  | succ hops ih =>
    unfold realpath at hr
    split at hr
    next hw =>
      cases hr
      exact (unlinked_walk parts base h).1 _ hw
    next b t rest hw =>
      refine ih _ _ ?_ hr
      split
      · exact unlinked_nil links root
      · exact (unlinked_walk parts base h).2 _ _ _ hw

theorem unlinked_of_resolve {files : Files} {root loc : Loc} {path : String}
    (h : files.resolve root path = .ok loc) : Unlinked files.linkAt root loc := by
  unfold resolve at h
  split at h
  next hr =>
    cases h
    refine unlinked_realpath maxLinks _ _ ?_ hr
    split
    · exact unlinked_nil _ root
    · exact unlinked_self _ root
  next => cases h

theorem linkAt_of_resolve {files : Files} {root loc : Loc} {path : String}
    (h : files.resolve root path = .ok loc) (hroot : root <+: loc) (hne : loc ≠ root) :
    files.linkAt loc = none :=
  unlinked_of_resolve h loc hroot hne List.prefix_rfl

/-! ## Specifications of the two writers -/

theorem isDir_root (files : Files) (root : Loc) : files.isDir root root = true := by
  unfold isDir
  split <;> simp

/-- Only the regular files at `targets` changed, and directories may have
appeared; every path keeps resolving where it did. -/
structure Touches (files files' : Files) (targets : Loc → Prop) : Prop where
  links : files'.linkAt = files.linkAt
  frame : ∀ l, ¬ targets l →
    files' l = files l ∨ files l = none ∧ files' l = some (.dir newDirMode)

theorem Touches.refl (files : Files) (targets : Loc → Prop) : Touches files files targets :=
  ⟨rfl, fun _ _ => .inl rfl⟩

theorem Touches.mono {files files' : Files} {targets more : Loc → Prop}
    (h : Touches files files' targets) (hsub : ∀ l, targets l → more l) :
    Touches files files' more :=
  ⟨h.links, fun l hl => h.frame l fun ht => hl (hsub l ht)⟩

theorem Touches.trans {files files' files'' : Files} {targets : Loc → Prop}
    (h : Touches files files' targets) (h' : Touches files' files'' targets) :
    Touches files files'' targets := by
  refine ⟨h'.links.trans h.links, fun l hl => ?_⟩
  rcases h.frame l hl with hs | ⟨hn, hd⟩
  · rw [← hs]
    exact h'.frame l hl
  · right
    rcases h'.frame l hl with hs' | ⟨hn', -⟩
    · exact ⟨hn, hs'.trans hd⟩
    · rw [hd] at hn'
      cases hn'

theorem Touches.fileAt_eq {files files' : Files} {targets : Loc → Prop}
    (h : Touches files files' targets) {l : Loc} (hl : ¬ targets l) :
    files'.fileAt l = files.fileAt l := by
  rcases h.frame l hl with hs | ⟨hn, hd⟩
  · simp [fileAt, hs]
  · simp [fileAt, hn, hd]

theorem Touches.readTextOrNone_eq {files files' : Files} {targets : Loc → Prop}
    (h : Touches files files' targets) {l : Loc} (hl : ¬ targets l) :
    files'.readTextOrNone l = files.readTextOrNone l := by
  simp [readTextOrNone, h.fileAt_eq hl]

theorem Touches.resolve_eq {files files' : Files} {targets : Loc → Prop}
    (h : Touches files files' targets) (root : Loc) (path : String) :
    files'.resolve root path = files.resolve root path :=
  resolve_congr h.links root path

theorem Touches.boundaryResolve_eq {files files' : Files} {targets : Loc → Prop}
    (h : Touches files files' targets) (root : Loc) (path : String) :
    files'.boundaryResolve root path = files.boundaryResolve root path :=
  boundaryResolve_congr h.links root path

/-- A successful write replaces one regular file. -/
theorem writeFile_ok {files files' : Files} {denied : Loc → Bool} {root : Loc}
    {path content : String} {mode : Option Nat}
    (h : files.writeFile denied root path content mode = .ok files') :
    ∃ target, files.boundaryResolve root path = .ok target ∧ Touches files files' (· = target) ∧
      files'.fileAt target =
        some (.utf8 content, mode.getD ((files.fileAt target).elim newFileMode Prod.snd)) := by
  unfold writeFile at h
  split at h
  · cases h
  next target ht =>
    split at h
    · cases h
    · split at h
      · cases h
      next hdir =>
        split at h
        · cases h
        · cases h
          have hne : target ≠ root := by
            rintro rfl
            exact hdir (isDir_root files target)
          obtain ⟨hres, hroot⟩ := boundaryResolve_ok ht
          have hlink := linkAt_of_resolve hres hroot hne
          refine ⟨target, ht, ⟨?_, fun l hl => ?_⟩, ?_⟩
          · rw [linkAt_put _ _ _ (by rw [linkAt_mkdirParents]; exact hlink), linkAt_mkdirParents]
          · rw [put_of_ne _ _ hl]
            rcases mkdirParents_cases files target l with hs | ⟨hn, hd, -⟩
            · exact .inl hs
            · exact .inr ⟨hn, hd⟩
          · rw [fileAt_put, if_pos rfl]

/-- A successful unlink removes one entry that is not a link. -/
theorem unlink_ok {files files' : Files} {denied : Loc → Bool} {root target : Loc} {path : String}
    (ht : files.boundaryResolve root path = .ok target)
    (h : files.unlink denied root target = .ok files') :
    Touches files files' (· = target) ∧ files' target = none := by
  unfold unlink at h
  split at h
  · cases h
  next hdir =>
    split at h
    · cases h
    · cases h
      have hne : target ≠ root := by
        rintro rfl
        exact hdir (isDir_root files target)
      obtain ⟨hres, hroot⟩ := boundaryResolve_ok ht
      refine ⟨⟨linkAt_remove files (linkAt_of_resolve hres hroot hne), fun l hl => ?_⟩, ?_⟩
      · exact .inl (remove_of_ne files hl)
      · simp [remove]

/-! ## Errors name what went wrong -/

theorem boundaryResolve_message {files : Files} {root : Loc} {path : String} {e : PyError}
    (h : files.boundaryResolve root path = .error e) : e.message ≠ "" := by
  unfold boundaryResolve resolve at h
  split at h
  next hresolve =>
    split at hresolve
    · cases hresolve
    · cases hresolve
      cases h
      simp [PyError.message, toString]
  · split at h
    · cases h
    · cases h
      simp [PyError.message, toString]

theorem readTextOrNone_message {files : Files} {target : Loc} {e : PyError}
    (h : files.readTextOrNone target = .error e) : e.message ≠ "" := by
  unfold readTextOrNone at h
  split at h
  next content _ _ =>
    cases content with
    | utf8 text => cases h
    | binary raw =>
      cases h
      decide
  · cases h

theorem writeFile_message {files : Files} {denied : Loc → Bool} {root : Loc} {path content : String}
    {mode : Option Nat} {e : PyError}
    (h : files.writeFile denied root path content mode = .error e) :
    e.message ≠ "" := by
  unfold writeFile at h
  split at h
  next hresolve =>
    cases h
    exact boundaryResolve_message hresolve
  · repeat' split at h
    all_goals cases h
    all_goals simp [PyError.message, toString]

theorem unlink_message {files : Files} {denied : Loc → Bool} {root target : Loc} {e : PyError}
    (h : files.unlink denied root target = .error e) : e.message ≠ "" := by
  unfold unlink at h
  repeat' split at h
  all_goals cases h
  all_goals decide

end Files

end EvoCI
