import EvoCI.Patch

/-! Batch snapshots: copying the workspace aside and copying it back. Both are
sequences of effects on single locations, so that a process can die between any
two of them. A snapshot is stored under the locations of the workspace it was
taken of. -/

namespace EvoCI

/-! ## Effects -/

inductive TreeEffect where
  | makeDir (loc : Loc)
  | create (loc : Loc) (mode : Nat)
  | fill (loc : Loc) (content : Content)
  | chmod (loc : Loc) (mode : Nat)
  /-- `shutil.rmtree(loc)` or `loc.unlink()`. -/
  | removeTree (loc : Loc)
  deriving DecidableEq, Repr

namespace TreeEffect

/-- The location written, if the effect is not a removal. -/
def target : TreeEffect → Option Loc
  | .makeDir loc | .create loc _ | .fill loc _ | .chmod loc _ => some loc
  | .removeTree _ => none

def emptyContent : Content := .utf8 ""

/-- What the effect makes of the entry at `l`. -/
def on (l : Loc) : TreeEffect → Option Entry → Option Entry
  | .makeDir loc, entry =>
    if l = loc then
      match entry with
      | some (.dir mode) => some (.dir mode)
      | _ => some (.dir Files.newDirMode)
    else entry
  | .create loc mode, entry => if l = loc then some (.file emptyContent mode) else entry
  | .fill loc content, entry =>
    if l = loc then
      match entry with
      | some (.file _ mode) => some (.file content mode)
      | other => other
    else entry
  | .chmod loc mode, entry =>
    if l = loc then
      match entry with
      | some (.file content _) => some (.file content mode)
      | some (.dir _) => some (.dir mode)
      | other => other
    else entry
  | .removeTree loc, entry => if loc <+: l then none else entry

end TreeEffect

def effectsOn (l : Loc) (effects : List TreeEffect) (entry : Option Entry) : Option Entry :=
  effects.foldl (fun e effect => effect.on l e) entry

def applyEffects (effects : List TreeEffect) (files : Files) : Files :=
  fun l => effectsOn l effects (files l)

/-! ## Copying a tree -/

/-- Names that `copy_workspace_with_independent_git` leaves out, at every depth. -/
def isIgnored (name : String) : Bool :=
  name ∈ [".git", ".evoci", ".evoci_runtime", "__pycache__", ".pytest_cache"] ||
    ".pyc".toList.isSuffixOf name.toList

/-- The permissions of a file that `open(path, "wb")` creates. -/
def createdMode (umask : Nat) : Nat := 0o666 - (0o666 &&& umask)

/-- `copy2` of one regular file. -/
def copyFile (umask : Nat) (dst : Loc) (content : Content) (mode : Nat) : List TreeEffect :=
  [.create dst (createdMode umask), .fill dst content, .chmod dst mode]

/-- Where the link `target` found in the directory `base` leads. -/
def followLink (files : Files) (base : Loc) (target : String) : Option Loc :=
  Files.realpath files.linkAt Files.maxLinks (if isAbsolute target then [] else base)
    (pathParts target)

/-- The permissions `copystat` gives the copy of a directory. -/
def copyMode (files : Files) (src dst : Loc) : List TreeEffect :=
  match files src with
  | some (.dir mode) => [.chmod dst mode]
  | _ => []

/-- One directory entry of `shutil.copytree`: its effects, and whether it was
copied without an error. Links are followed; `copyDir` copies a directory. -/
def copyEntry (umask : Nat) (files : Files) (copyDir : Loc → Loc → List TreeEffect × Bool)
    (src dst : Loc) (name : String) : List TreeEffect × Bool :=
  match files (src ++ [name]) with
  | some (.file content mode) => (copyFile umask (dst ++ [name]) content mode, true)
  | some (.dir _) => copyDir (src ++ [name]) (dst ++ [name])
  | some (.link target) =>
    match followLink files src target with
    | some loc =>
      match files loc with
      | some (.file content mode) => (copyFile umask (dst ++ [name]) content mode, true)
      | some (.dir _) => copyDir loc (dst ++ [name])
      | _ => ([], false)
    | none => ([], false)
  | none => ([], true)

/-- `shutil.copytree(src, dst, ignore=...)`. An entry that fails is reported at
the end and does not stop the others. Paths have at most `depth` levels. -/
def copyTree (umask : Nat) (files : Files) (scandir : Loc → List String)
    (ignored : String → Bool) : Nat → Loc → Loc → List TreeEffect × Bool
  | 0, _, _ => ([], false)
  | depth + 1, src, dst =>
    let entries := ((scandir src).filter fun name => !ignored name).map fun name =>
      copyEntry umask files (fun s d => copyTree umask files scandir ignored depth s d) src dst name
    (.makeDir dst :: entries.flatMap Prod.fst ++ copyMode files src dst,
      entries.all Prod.snd)

/-! ## Snapshots -/

/-- A copy made by following links holds none. -/
structure Snapshot where
  tree : Files
  noLinks : ∀ l target, tree l ≠ some (.link target)

def noFiles : Files := fun _ => none

/-- How a copy is cut short after some of its effects. -/
inductive CopyStop where
  | killed
  | failed (message : String)
  deriving DecidableEq, Repr

/-- What the system does while a tree is copied: the order of directory
listings, the depth paths may have, where the copy stops, the Git metadata
that ends up in the copy, and the umask of the process. -/
structure Copying where
  scandir : Loc → List String
  depth : Nat
  stop : Option (Nat × CopyStop)
  gitMetadata : Files
  umask : Nat

inductive SaveResult where
  | saved (snapshot : Snapshot)
  | failed (leftover : Option Snapshot) (message : String)
  | killed (leftover : Option Snapshot)

/-- The directory that is there afterwards. -/
def SaveResult.left : SaveResult → Option Snapshot
  | .saved snapshot => some snapshot
  | .failed leftover _ | .killed leftover => leftover

theorem effectsOn_noLink (l : Loc) (effects : List TreeEffect) (entry : Option Entry)
    (h : ∀ target, entry ≠ some (.link target)) :
    ∀ target, effectsOn l effects entry ≠ some (.link target) := by
  induction effects generalizing entry with
  | nil => exact h
  | cons effect effects ih =>
    apply ih
    intro target
    cases effect with
    | makeDir loc =>
      simp only [TreeEffect.on]
      split
      · split <;> simp
      · exact h target
    | create loc mode =>
      simp only [TreeEffect.on]
      split
      · simp
      · exact h target
    | fill loc content =>
      simp only [TreeEffect.on]
      split
      · split
        · simp
        · exact h target
      · exact h target
    | chmod loc mode =>
      simp only [TreeEffect.on]
      split
      · split
        · simp
        · simp
        · exact h target
      · exact h target
    | removeTree loc =>
      simp only [TreeEffect.on]
      split
      · simp
      · exact h target

/-- The copy after some effects; without any its directory does not exist. -/
def snapshotAfter : List TreeEffect → Option Snapshot
  | [] => none
  | effects@(_ :: _) =>
    some ⟨applyEffects effects noFiles, fun l => effectsOn_noLink l effects none (by simp)⟩

/-- The finished copy with the Git metadata under `root / ".git"`. -/
def withGit (root : Loc) (effects : List TreeEffect) (gitMetadata : Files) : Snapshot where
  tree l :=
    if root ++ [".git"] <+: l then
      match gitMetadata l with
      | some (.link _) => none
      | other => other
    else applyEffects effects noFiles l
  noLinks l target := by
    split
    · split
      · simp
      next hnot => exact fun h => hnot target h
    · exact effectsOn_noLink l effects none (by simp) target

/-- `save_batch_snapshot(root, destination)` for a destination that does not
exist. A stop after the last effect falls into the Git commands. -/
def saveBatchSnapshot (c : Copying) (files : Files) (root : Loc) : SaveResult :=
  let (effects, ok) := copyTree c.umask files c.scandir isIgnored c.depth root root
  match c.stop with
  | some (k, .killed) =>
    if k < effects.length then .killed (snapshotAfter (effects.take k))
    else if ok then .killed (some (withGit root effects c.gitMetadata))
    else .failed (snapshotAfter effects) "copy errors"
  | some (k, .failed message) =>
    if k < effects.length then .failed (snapshotAfter (effects.take k)) message
    else if ok then .failed (some (withGit root effects c.gitMetadata)) message
    else .failed (snapshotAfter effects) "copy errors"
  | none =>
    if ok then .saved (withGit root effects c.gitMetadata)
    else .failed (snapshotAfter effects) "copy errors"

/-! ## Restoring -/

/-- Top-level names that a restore neither deletes nor copies. -/
def isKept (name : String) : Bool := name = ".evoci" || name = ".git"

/-- What the system does while a snapshot is copied back. -/
structure Restoring where
  iterdir : Loc → List String
  scandir : Loc → List String
  depth : Nat
  fault : Option (Nat × String)
  umask : Nat

/-- One item of the snapshot copied into the workspace. -/
def restoreItem (r : Restoring) (tree : Files) (root : Loc) (name : String) :
    List TreeEffect × Bool :=
  match tree (root ++ [name]) with
  | some (.dir _) =>
    copyTree r.umask tree r.scandir (fun _ => false) r.depth (root ++ [name]) (root ++ [name])
  | some (.file content mode) => (copyFile r.umask (root ++ [name]) content mode, true)
  | _ => ([], true)

/-- The effects of `restore_batch_snapshot` up to the first item that fails. -/
def restoreItems (r : Restoring) (tree : Files) (root : Loc) :
    List String → List TreeEffect × Bool
  | [] => ([], true)
  | name :: names =>
    match restoreItem r tree root name with
    | (effects, true) =>
      let (rest, ok) := restoreItems r tree root names
      (effects ++ rest, ok)
    | (effects, false) => (effects, false)

/-- `restore_batch_snapshot(snapshot, root)`: the workspace as it is when it
returns or raises. -/
def restoreBatchSnapshot (r : Restoring) (files : Files) (root : Loc)
    (snapshot : Option Snapshot) : Files × Option PyError :=
  match snapshot with
  | none => (files, some (.integrationError "batch snapshot missing"))
  | some snapshot =>
    let removals := ((r.iterdir root).filter fun name => !isKept name).map fun name =>
      TreeEffect.removeTree (root ++ [name])
    let (copies, ok) := restoreItems r snapshot.tree root
      ((r.scandir root).filter fun name => !isKept name)
    let effects := removals ++ copies
    match r.fault with
    | some (k, message) => (applyEffects (effects.take k) files, some (.osError message))
    | none =>
      if ok then (applyEffects effects files, none)
      else (applyEffects effects files, some (.osError "copy errors"))

/-! ## What a copy holds -/

variable {umask : Nat}

theorem effectsOn_append (l : Loc) (first second : List TreeEffect) (entry : Option Entry) :
    effectsOn l (first ++ second) entry = effectsOn l second (effectsOn l first entry) := by
  simp [effectsOn]

/-- Effects that write other locations do not change the entry at `l`. -/
theorem effectsOn_of_other {l : Loc} {effects : List TreeEffect} (entry : Option Entry)
    (h : ∀ effect ∈ effects, ∃ loc, effect.target = some loc ∧ l ≠ loc) :
    effectsOn l effects entry = entry := by
  induction effects generalizing entry with
  | nil => rfl
  | cons effect effects ih =>
    have hone : effect.on l entry = entry := by
      obtain ⟨loc, hloc, hne⟩ := h effect (by simp)
      cases effect <;> simp_all [TreeEffect.on, TreeEffect.target]
    rw [effectsOn, List.foldl_cons, hone]
    exact ih entry fun e he => h e (List.mem_cons_of_mem _ he)

/-- Files and directories below directories only. -/
structure IsTree (files : Files) (root : Loc) : Prop where
  rootDir : ∃ mode, files root = some (.dir mode)
  parents : ∀ l name, root <+: l → files (l ++ [name]) ≠ none → ∃ mode, files l = some (.dir mode)

/-- A listing names every entry of a directory once. -/
def Lists (files : Files) (scandir : Loc → List String) : Prop :=
  ∀ l, (scandir l).Nodup ∧ ∀ name, name ∈ scandir l ↔ files (l ++ [name]) ≠ none

/-- No component of the relative path is ignored. -/
def Unignored (ignored : String → Bool) (rel : List String) : Prop :=
  ∀ name ∈ rel, ignored name = false

theorem copyMode_target {files : Files} {src dst : Loc} {effect : TreeEffect}
    (h : effect ∈ copyMode files src dst) : effect.target = some dst := by
  unfold copyMode at h
  split at h
  · rw [List.mem_singleton] at h
    subst h
    rfl
  · cases h

theorem copyFile_target {dst : Loc} {content : Content} {mode : Nat} {effect : TreeEffect}
    (h : effect ∈ copyFile umask dst content mode) : effect.target = some dst := by
  simp only [copyFile, List.mem_cons, List.not_mem_nil, or_false] at h
  rcases h with rfl | rfl | rfl <;> rfl

/-- The effects of one entry lie at or below its copy. -/
theorem copyEntry_targets {files : Files} {copyDir : Loc → Loc → List TreeEffect × Bool}
    {ignored : String → Bool}
    (hdir : ∀ src dst, ∀ effect ∈ (copyDir src dst).1, ∃ rel, Unignored ignored rel ∧
      effect.target = some (dst ++ rel))
    {src dst : Loc} {name : String} (hname : ignored name = false) {effect : TreeEffect}
    (h : effect ∈ (copyEntry umask files copyDir src dst name).1) :
    ∃ rel, Unignored ignored (name :: rel) ∧ effect.target = some (dst ++ name :: rel) := by
  have hcons : ∀ rel, Unignored ignored rel → Unignored ignored (name :: rel) := by
    intro rel hrel other hother
    rcases List.mem_cons.mp hother with rfl | hin
    · exact hname
    · exact hrel other hin
  have hnil : Unignored ignored [name] := hcons [] (by simp [Unignored])
  have hbelow : ∀ {s}, effect ∈ (copyDir s (dst ++ [name])).1 →
      ∃ rel, Unignored ignored (name :: rel) ∧ effect.target = some (dst ++ name :: rel) := by
    intro s hs
    obtain ⟨rel, hrel, ht⟩ := hdir s (dst ++ [name]) effect hs
    exact ⟨rel, hcons rel hrel, by simpa using ht⟩
  unfold copyEntry at h
  split at h
  · exact ⟨[], hnil, copyFile_target h⟩
  · exact hbelow h
  · split at h
    · split at h
      · exact ⟨[], hnil, copyFile_target h⟩
      · exact hbelow h
      · cases h
    · cases h
  · cases h

/-- Nothing is copied under an ignored name. -/
theorem copyTree_targets (files : Files) (scandir : Loc → List String) (ignored : String → Bool)
    (depth : Nat) (src dst : Loc) :
    ∀ effect ∈ (copyTree umask files scandir ignored depth src dst).1, ∃ rel,
      Unignored ignored rel ∧ effect.target = some (dst ++ rel) := by
  induction depth generalizing src dst with
  | zero => simp [copyTree]
  | succ depth ih =>
    intro effect h
    have hself : Unignored ignored [] := by simp [Unignored]
    simp only [copyTree, List.cons_append, List.mem_cons, List.mem_append, List.mem_flatMap,
      List.mem_map, List.mem_filter] at h
    rcases h with rfl | ⟨_, ⟨name, ⟨-, hname⟩, rfl⟩, h⟩ | h
    · exact ⟨[], hself, by simp [TreeEffect.target]⟩
    · obtain ⟨rel, hrel, ht⟩ := copyEntry_targets ih (by simpa using hname) h
      exact ⟨name :: rel, hrel, ht⟩
    · exact ⟨[], hself, by simpa using copyMode_target h⟩

/-- The effects that write `l`. -/
def targeting (l : Loc) (effects : List TreeEffect) : List TreeEffect :=
  effects.filter fun effect => effect.target = some l

theorem targeting_append (l : Loc) (first second : List TreeEffect) :
    targeting l (first ++ second) = targeting l first ++ targeting l second := by
  simp [targeting]

theorem targeting_of_other {l : Loc} {effects : List TreeEffect}
    (h : ∀ effect ∈ effects, ∃ loc, effect.target = some loc ∧ l ≠ loc) :
    targeting l effects = [] := by
  rw [targeting, List.filter_eq_nil_iff]
  intro effect heffect
  obtain ⟨loc, hloc, hne⟩ := h effect heffect
  simp [hloc, hne.symm]

theorem targeting_of_all {l : Loc} {effects : List TreeEffect}
    (h : ∀ effect ∈ effects, effect.target = some l) : targeting l effects = effects := by
  rw [targeting, List.filter_eq_self]
  intro effect heffect
  simp [h effect heffect]

/-- Only the effects that write `l` matter for the entry there. -/
theorem effectsOn_targeting {l : Loc} {effects : List TreeEffect} (entry : Option Entry)
    (h : ∀ effect ∈ effects, effect.target ≠ none) :
    effectsOn l effects entry = effectsOn l (targeting l effects) entry := by
  induction effects generalizing entry with
  | nil => rfl
  | cons effect effects ih =>
    have hrest := ih (effect.on l entry) fun e he => h e (List.mem_cons_of_mem _ he)
    rw [effectsOn, List.foldl_cons, ← effectsOn, hrest]
    by_cases ht : effect.target = some l
    · simp [targeting, ht, effectsOn]
    · have hsame : effectsOn l [effect] entry = entry := by
        apply effectsOn_of_other
        intro e he
        rw [List.mem_singleton] at he
        subst he
        obtain ⟨loc, hloc⟩ := Option.ne_none_iff_exists'.mp (h e (by simp))
        exact ⟨loc, hloc, fun heq => ht (by rw [hloc, heq])⟩
      have hone : effect.on l entry = entry := hsame
      simp [targeting, ht, hone]

/-- Of the effects of distinct entries only those of `name` reach below it. -/
theorem targeting_entries {copies : String → List TreeEffect} {dst : Loc} (names : List String)
    (hnodup : names.Nodup)
    (htargets : ∀ name ∈ names, ∀ effect ∈ copies name, ∃ rel,
      effect.target = some (dst ++ name :: rel)) (name : String) (rel : List String) :
    targeting (dst ++ name :: rel) (names.flatMap copies) =
      if name ∈ names then targeting (dst ++ name :: rel) (copies name) else [] := by
  induction names with
  | nil => rfl
  | cons first names ih =>
    obtain ⟨hfirst, hnodup'⟩ := List.nodup_cons.mp hnodup
    rw [List.flatMap_cons, targeting_append,
      ih hnodup' fun n hn => htargets n (List.mem_cons_of_mem _ hn)]
    by_cases heq : name = first
    · subst heq
      simp [hfirst]
    · have hother : targeting (dst ++ name :: rel) (copies first) = [] := by
        apply targeting_of_other
        intro effect heffect
        obtain ⟨rest, ht⟩ := htargets first (by simp) effect heffect
        exact ⟨_, ht, fun h => heq (List.cons.inj (List.append_cancel_left h)).1⟩
      rw [hother]
      simp [heq]

/-- Under a tree's file there is nothing, and under its links nothing of its own. -/
theorem IsTree.below {files : Files} {root : Loc} (h : IsTree files root) {l : Loc}
    (hroot : root <+: l) (rel : List String) (hrel : rel ≠ [])
    (hentry : files (l ++ rel) ≠ none) : ∃ mode, files l = some (.dir mode) := by
  induction rel generalizing l with
  | nil => exact absurd rfl hrel
  | cons name rel ih =>
    apply h.parents l name hroot
    by_cases hnil : rel = []
    · subst hnil
      exact hentry
    · have hentry' : files ((l ++ [name]) ++ rel) ≠ none := by simpa using hentry
      obtain ⟨mode, hmode⟩ := ih (hroot.trans (List.prefix_append _ _)) hnil hentry'
      simp [hmode]

/-- The effects that copy one file, or make one directory. -/
def entryEffects (umask : Nat) (l : Loc) : Option Entry → List TreeEffect
  | some (.file content mode) => copyFile umask l content mode
  | some (.dir mode) => [.makeDir l, .chmod l mode]
  | _ => []

theorem effectsOn_entryEffects (l : Loc) {found : Option Entry}
    (hlink : ∀ t, found ≠ some (.link t)) (hfound : found ≠ none) (entry : Option Entry) :
    effectsOn l (entryEffects umask l found) entry = found := by
  cases found with
  | none => exact absurd rfl hfound
  | some e =>
    cases e with
    | file content mode => simp [entryEffects, effectsOn, copyFile, TreeEffect.on]
    | link t => exact absurd rfl (hlink t)
    | dir mode =>
      have hdir : ∃ m, TreeEffect.on l (.makeDir l) entry = some (.dir m) := by
        simp only [TreeEffect.on, if_true]
        split <;> simp
      obtain ⟨m, hm⟩ := hdir
      rw [entryEffects, effectsOn, List.foldl_cons, hm]
      simp [TreeEffect.on]

/-- What a copy does at the location of one file or directory of the tree: all
that copying it takes or nothing, and all of it when the copy succeeds and no
ignored name leads there. -/
theorem copyTree_targeting (umask : Nat) {files : Files} {root : Loc}
    {scandir : Loc → List String} (ignored : String → Bool) (htree : IsTree files root)
    (hlists : Lists files scandir)
    (depth : Nat) {src : Loc} (dst : Loc) (hroot : root <+: src) (rel : List String)
    (hsrc : ∃ mode, files src = some (.dir mode)) (hentry : files (src ++ rel) ≠ none)
    (hlink : ∀ t, files (src ++ rel) ≠ some (.link t)) :
    let (effects, ok) := copyTree umask files scandir ignored depth src dst
    targeting (dst ++ rel) effects = entryEffects umask (dst ++ rel) (files (src ++ rel)) ∨
      targeting (dst ++ rel) effects = [] ∧ ¬ (ok = true ∧ Unignored ignored rel) := by
  induction depth generalizing src dst rel with
  | zero => simp [copyTree, targeting]
  | succ depth ih =>
    obtain ⟨mode, hmode⟩ := hsrc
    simp only [copyTree]
    have hentries : ∀ name ∈ (scandir src).filter (fun name => !ignored name),
        ∀ effect ∈ (copyEntry umask files
            (fun s d => copyTree umask files scandir ignored depth s d) src dst
          name).1, ∃ rest, effect.target = some (dst ++ name :: rest) := by
      intro name hname effect heffect
      obtain ⟨rest, -, ht⟩ := copyEntry_targets (copyTree_targets files scandir ignored depth)
        (by simpa using (List.mem_filter.mp hname).2) heffect
      exact ⟨rest, ht⟩
    rw [List.cons_append, ← List.singleton_append, targeting_append, targeting_append,
      List.flatMap_map]
    cases rel with
    | nil =>
      left
      have hmid : targeting (dst ++ []) (((scandir src).filter fun name => !ignored name).flatMap
          fun name => (copyEntry umask files
              (fun s d => copyTree umask files scandir ignored depth s d) src
            dst name).1) = [] := by
        apply targeting_of_other
        intro effect heffect
        obtain ⟨name, hname, hin⟩ := List.mem_flatMap.mp heffect
        obtain ⟨rest, ht⟩ := hentries name hname effect hin
        exact ⟨_, ht, by simp⟩
      rw [hmid, List.append_nil, List.append_nil, hmode]
      simp [targeting, copyMode, hmode, entryEffects, TreeEffect.target]
    | cons name rel =>
      have hchild : files (src ++ [name]) ≠ none := by
        by_cases hnil : rel = []
        · subst hnil
          exact hentry
        · have hbelow : files ((src ++ [name]) ++ rel) ≠ none := by simpa using hentry
          obtain ⟨m, hm⟩ := htree.below (hroot.trans (List.prefix_append _ _)) rel hnil hbelow
          simp [hm]
      have hfirst : targeting (dst ++ name :: rel) [.makeDir dst] = [] := by
        simp [targeting, TreeEffect.target]
      have hlast : targeting (dst ++ name :: rel) (copyMode files src dst) = [] :=
        targeting_of_other fun effect heffect => ⟨dst, copyMode_target heffect, by simp⟩
      rw [hfirst, hlast, List.nil_append, List.append_nil,
        targeting_entries _ ((hlists src).1.filter _) hentries]
      by_cases hign : ignored name = true
      · right
        refine ⟨by simp [hign], fun ⟨_, hun⟩ => ?_⟩
        rw [hun name (by simp)] at hign
        cases hign
      · have hname : name ∈ (scandir src).filter fun name => !ignored name := by
          rw [List.mem_filter]
          exact ⟨((hlists src).2 name).mpr hchild, by simpa using hign⟩
        rw [if_pos hname, List.all_map, List.all_eq_true]
        have hassoc : src ++ name :: rel = (src ++ [name]) ++ rel := by simp
        have hdst : dst ++ name :: rel = (dst ++ [name]) ++ rel := by simp
        cases hc : files (src ++ [name]) with
        | none => exact absurd hc hchild
        | some found =>
          cases found with
          | file content fileMode =>
            have hnil : rel = [] := by
              by_contra hne
              obtain ⟨m, hm⟩ := htree.below (hroot.trans (List.prefix_append _ _)) rel hne
                (hassoc ▸ hentry)
              simp [hc] at hm
            subst hnil
            left
            rw [hc]
            simp only [copyEntry, hc]
            exact targeting_of_all fun effect => copyFile_target
          | dir dirMode =>
            have hone : copyEntry umask files
                (fun s d => copyTree umask files scandir ignored depth s d) src
                dst name =
                  copyTree umask files scandir ignored depth (src ++ [name]) (dst ++ [name]) := by
              simp [copyEntry, hc]
            rw [hone, hassoc, hdst]
            rw [hassoc] at hentry hlink
            rcases ih (dst ++ [name]) (hroot.trans (List.prefix_append _ _)) rel ⟨dirMode, hc⟩
              hentry hlink with hall | ⟨hnone, hnot⟩
            · exact .inl hall
            · refine .inr ⟨hnone, fun ⟨hok, hun⟩ => hnot ⟨?_, ?_⟩⟩
              · have := hok name hname
                simpa [hone] using this
              · exact fun n hn => hun n (List.mem_cons_of_mem _ hn)
          | link target =>
            exfalso
            by_cases hnil : rel = []
            · subst hnil
              exact hlink target hc
            · obtain ⟨m, hm⟩ := htree.below (hroot.trans (List.prefix_append _ _)) rel hnil
                (hassoc ▸ hentry)
              simp [hc] at hm

/-- Where no links are followed every location of the copy is one of the tree. -/
theorem copyTree_sound (files : Files) (scandir : Loc → List String) (ignored : String → Bool)
    (depth : Nat) (src dst : Loc)
    (hlinks : ∀ rel, Unignored ignored rel → ∀ t, files (src ++ rel) ≠ some (.link t))
    (hsrc : files src ≠ none) :
    ∀ effect ∈ (copyTree umask files scandir ignored depth src dst).1, ∃ rel,
      files (src ++ rel) ≠ none ∧ effect.target = some (dst ++ rel) := by
  induction depth generalizing src dst with
  | zero => simp [copyTree]
  | succ depth ih =>
    intro effect h
    have hself : files (src ++ []) ≠ none := by simpa using hsrc
    simp only [copyTree, List.cons_append, List.mem_cons, List.mem_append, List.mem_flatMap,
      List.mem_map, List.mem_filter] at h
    rcases h with rfl | ⟨_, ⟨name, ⟨-, hname⟩, rfl⟩, h⟩ | h
    · exact ⟨[], hself, by simp [TreeEffect.target]⟩
    · have hcons : ∀ rel, Unignored ignored rel → Unignored ignored (name :: rel) := by
        intro rel hrel other hother
        rcases List.mem_cons.mp hother with rfl | hin
        · simpa using hname
        · exact hrel other hin
      unfold copyEntry at h
      split at h
      next content mode hfile => exact ⟨[name], by simp [hfile], copyFile_target h⟩
      next mode hdir =>
        obtain ⟨rel, hrel, ht⟩ := ih (src ++ [name]) (dst ++ [name])
          (fun rel hrel => by simpa using hlinks (name :: rel) (hcons rel hrel)) (by simp [hdir])
          effect h
        exact ⟨name :: rel, by simpa using hrel, by simpa using ht⟩
      next target hlink =>
        exact absurd hlink (hlinks [name] (hcons [] (by simp [Unignored])) target)
      next => cases h
    · exact ⟨[], hself, by simpa using copyMode_target h⟩

end EvoCI
