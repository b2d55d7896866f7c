import Mathlib.Data.List.Lex
import Mathlib.Data.List.Sort
import Mathlib.Data.String.Basic
import EvoCI.Library.Records
import EvoCI.Capability.Integrity

/-! The hash over directories by which a campaign knows a generation again and tells whether
a branch has changed a package. -/

namespace EvoCI

open Library

/-! ## Directories -/

/-- A name the file system gives an entry. -/
def IsName (part : String) : Prop := IsPart part ∧ part ≠ ".." ∧ '\x00' ∉ part.toList

instance (part : String) : Decidable (IsName part) := inferInstanceAs (Decidable (_ ∧ _ ∧ _))

/-- A regular file below a directory. -/
structure TreeFile where
  parts : List String
  bytes : List UInt8
  deriving DecidableEq, Repr

/-- The regular files below a directory, in the order the directory lists them. -/
structure FileTree where
  files : List TreeFile
  distinct : (files.map TreeFile.parts).Nodup
  named : ∀ file ∈ files, file.parts ≠ [] ∧ ∀ part ∈ file.parts, IsName part

/-- `item.name.endswith(("-wal", "-shm", "-journal"))`. -/
def TreeFile.isSideFile (file : TreeFile) : Bool :=
  ["-wal", "-shm", "-journal"].any fun suffix => endsWith (file.parts.getLast?.getD "") suffix

def TreeFile.before (file other : TreeFile) : Prop := file.parts ≤ other.parts

instance : DecidableRel TreeFile.before := fun file other =>
  inferInstanceAs (Decidable (file.parts ≤ other.parts))

/-- The files that count, sorted by path. -/
def FileTree.hashed (tree : FileTree) : List TreeFile :=
  (tree.files.filter fun file => !file.isSideFile).insertionSort TreeFile.before

/-- The files that count of a root; a root that does not exist has none. -/
def rootFiles (root : Option FileTree) : List TreeFile := root.elim [] FileTree.hashed

/-- What a file adds to the digest: its name and its bytes. -/
def TreeFile.record (file : TreeFile) : List UInt8 × List UInt8 :=
  (encode (joinParts file.parts), file.bytes)

def treeStream (roots : List (Option FileTree)) : List UInt8 :=
  roots.flatMap fun root => (rootFiles root).flatMap fun file =>
    encode (joinParts file.parts) ++ [0] ++ file.bytes

/-- `tree_hash(*roots)`. -/
def treeHash (sha256 : List UInt8 → String) (roots : List (Option FileTree)) : String :=
  sha256 (treeStream roots)

/-! ## Where it decides -/

/-- What a generation says of itself. -/
structure GenerationMetadata where
  status : Option String
  contentSha256 : Option String
  deriving DecidableEq, Repr

/-- The `task_id` is no single component of a path. -/
def unsafeTaskId (taskId : String) : Bool :=
  taskId = "" ∨ isAbsolute taskId ∨ ".." ∈ pathParts taskId ∨ '/' ∈ taskId.toList ∨
    '\\' ∈ taskId.toList

/-- `prepare_round` up to its checks of the parent generation; `reprTask` is `repr`. -/
def checkParent (sha256 : List UInt8 → String) (reprTask : String → String) (roundNumber : Int)
    (taskIds : List String) (parent : Option GenerationMetadata)
    (state skills : Option FileTree) (currentGeneration : Int) : Except PyError Unit :=
  if roundNumber < 1 then .error (.runtimeError "round must be >= 1")
  else
    match taskIds.find? unsafeTaskId with
    | some taskId =>
      .error (.runtimeError s!"unsafe task_id for campaign staging: {reprTask taskId}")
    | none =>
      if parent.bind GenerationMetadata.status ≠ some "complete" then
        .error (.runtimeError s!"parent Generation {roundNumber - 1} is missing or incomplete")
      else if parent.bind GenerationMetadata.contentSha256 ≠
          some (treeHash sha256 [state, skills]) then
        .error (.runtimeError s!"parent Generation {roundNumber - 1} was modified after commit")
      else if currentGeneration < roundNumber - 1 then
        .error (.runtimeError
          "campaign lineage does not contain the required parent generation")
      else .ok ()

/-- `package_changed` in `_merge_skill_packages`. -/
def packageChanged (sha256 : List UInt8 → String) (parentPackage : Option FileTree)
    (sourcePackage : FileTree) : Bool :=
  match parentPackage with
  | none => true
  | some parent => treeHash sha256 [some sourcePackage] ≠ treeHash sha256 [some parent]

/-! ## The digest as a stream of records -/

/-- All files that count, root by root. -/
def listing (roots : List (Option FileTree)) : List TreeFile := roots.flatMap rootFiles

theorem treeStream_eq (roots : List (Option FileTree)) :
    treeStream roots = Records.stream 0 ((listing roots).map TreeFile.record) := by
  simp [treeStream, Records.stream, listing, TreeFile.record, List.flatMap_assoc,
    List.flatMap_map]

/-- The two lists of roots have the same files at the same places, root by root. -/
def SameFiles (roots other : List (Option FileTree)) : Prop :=
  ∀ i : Nat, ((roots.map rootFiles)[i]?).getD [] = ((other.map rootFiles)[i]?).getD []

theorem flatten_congr {α : Type} {xs ys : List (List α)}
    (h : ∀ i : Nat, xs[i]?.getD [] = ys[i]?.getD []) : xs.flatten = ys.flatten := by
  induction xs generalizing ys with
  | nil =>
    have hnil : ys.flatten = [] := by
      rw [List.flatten_eq_nil_iff]
      intro l hl
      obtain ⟨i, hi⟩ := List.mem_iff_getElem?.mp hl
      simpa [hi] using (h i).symm
    rw [hnil, List.flatten_nil]
  | cons x xs ih =>
    cases ys with
    | nil =>
      have hnil : (x :: xs).flatten = [] := by
        rw [List.flatten_eq_nil_iff]
        intro l hl
        obtain ⟨i, hi⟩ := List.mem_iff_getElem?.mp hl
        simpa [hi] using h i
      rw [hnil, List.flatten_nil]
    | cons y ys =>
      have hhead : x = y := by simpa using h 0
      have htail := @ih ys fun i => by simpa using h (i + 1)
      rw [List.flatten_cons, List.flatten_cons, hhead, htail]

theorem SameFiles.listing_eq {roots other : List (Option FileTree)} (h : SameFiles roots other) :
    listing roots = listing other := by
  have hflatten := flatten_congr h
  simpa [listing, List.flatMap_def] using hflatten

theorem named_of_mem_listing {roots : List (Option FileTree)} {file : TreeFile}
    (h : file ∈ listing roots) : file.parts ≠ [] ∧ ∀ part ∈ file.parts, IsName part := by
  obtain ⟨root, -, hfile⟩ := List.mem_flatMap.mp h
  cases root with
  | none => simp [rootFiles] at hfile
  | some tree =>
    have hmem : file ∈ tree.files.filter fun file => !file.isSideFile := by
      simpa [rootFiles, FileTree.hashed] using hfile
    exact tree.named file (List.mem_filter.mp hmem).1

theorem zero_notMem_name {parts : List String} (h : ∀ part ∈ parts, IsName part) :
    (0 : UInt8) ∉ encode (joinParts parts) := by
  intro hzero
  have hn : (0 : Nat) < 128 := by omega
  rcases mem_joinParts (ascii_of_mem_encode hn hzero) with hslash | ⟨part, hpart, hc⟩
  · exact absurd hslash (by decide)
  · exact (h part hpart).2.2 hc

theorem record_injOn {file other : TreeFile} (hfile : ∀ part ∈ file.parts, IsName part)
    (hother : ∀ part ∈ other.parts, IsName part) (h : file.record = other.record) :
    file = other := by
  obtain ⟨parts, bytes⟩ := file
  obtain ⟨parts', bytes'⟩ := other
  simp only [TreeFile.record, Prod.mk.injEq] at h
  obtain ⟨hname, rfl⟩ := h
  have hparts := congrArg pathParts (encode_injective hname)
  rw [pathParts_joinParts parts fun part hpart => (hfile part hpart).1,
    pathParts_joinParts parts' fun part hpart => (hother part hpart).1] at hparts
  rw [hparts]

theorem map_record_injOn {files others : List TreeFile}
    (hfiles : ∀ file ∈ files, ∀ part ∈ file.parts, IsName part)
    (hothers : ∀ file ∈ others, ∀ part ∈ file.parts, IsName part)
    (h : files.map TreeFile.record = others.map TreeFile.record) : files = others := by
  induction files generalizing others with
  | nil =>
    cases others with
    | nil => rfl
    | cons other others => simp at h
  | cons file files ih =>
    cases others with
    | nil => simp at h
    | cons other others =>
      rw [List.map_cons, List.map_cons] at h
      obtain ⟨hhead, htail⟩ := List.cons.inj h
      rw [record_injOn (hfiles _ List.mem_cons_self) (hothers _ List.mem_cons_self) hhead,
        ih (fun f hf => hfiles f (List.mem_cons_of_mem _ hf))
          (fun f hf => hothers f (List.mem_cons_of_mem _ hf)) htail]

/-! ## When two trees have one hash -/

/-- The files are distributed over the roots in another way, in the same order. -/
def Shifted (roots other : List (Option FileTree)) : Prop :=
  listing roots = listing other ∧ ¬ SameFiles roots other

/-- A file of the other roots goes on, where these have its shorter version, with the names
and the bytes of the files that follow here. -/
def GoesOn (roots other : List (Option FileTree)) : Prop :=
  Records.Absorbed 0 ((listing roots).map TreeFile.record) ((listing other).map TreeFile.record)

def Confusable (roots other : List (Option FileTree)) : Prop :=
  Shifted roots other ∨ GoesOn roots other ∨ GoesOn other roots

theorem SameFiles.not_confusable {roots other : List (Option FileTree)}
    (h : SameFiles roots other) : ¬ Confusable roots other := by
  rintro (hshifted | habsorbed | habsorbed)
  · exact hshifted.2 h
  · exact habsorbed.ne (by rw [h.listing_eq])
  · exact habsorbed.ne (by rw [h.listing_eq])

theorem treeStream_eq_iff (roots other : List (Option FileTree)) :
    treeStream roots = treeStream other ↔ SameFiles roots other ∨ Confusable roots other := by
  have hnames (roots : List (Option FileTree)) :
      ∀ r ∈ (listing roots).map TreeFile.record, (0 : UInt8) ∉ r.1 := by
    intro r hr
    obtain ⟨file, hfile, rfl⟩ := List.mem_map.mp hr
    exact zero_notMem_name (named_of_mem_listing hfile).2
  have hlisting : (listing roots).map TreeFile.record = (listing other).map TreeFile.record ↔
      listing roots = listing other :=
    ⟨map_record_injOn (fun f hf => (named_of_mem_listing hf).2)
      fun f hf => (named_of_mem_listing hf).2, fun h => by rw [h]⟩
  rw [treeStream_eq, treeStream_eq, Records.stream_eq_iff (hnames roots) (hnames other), hlisting]
  constructor
  · rintro (hsame | habsorbed | habsorbed)
    · by_cases h : SameFiles roots other
      · exact Or.inl h
      · exact Or.inr (Or.inl ⟨hsame, h⟩)
    · exact Or.inr (Or.inr (Or.inl habsorbed))
    · exact Or.inr (Or.inr (Or.inr habsorbed))
  · rintro (h | hshifted | habsorbed | habsorbed)
    · exact Or.inl h.listing_eq
    · exact Or.inl hshifted.1
    · exact Or.inr (Or.inl habsorbed)
    · exact Or.inr (Or.inr habsorbed)

theorem treeHash_eq_iff {sha256 : List UInt8 → String} (hinjective : Function.Injective sha256)
    (roots other : List (Option FileTree)) :
    treeHash sha256 roots = treeHash sha256 other ↔
      SameFiles roots other ∨ Confusable roots other := by
  rw [← treeStream_eq_iff]
  exact hinjective.eq_iff

/-- Only the hash of the parent's directories makes their files matter. -/
theorem checkParent_isOk {sha256 : List UInt8 → String} {reprTask : String → String}
    {roundNumber : Int} {taskIds : List String} {parent : Option GenerationMetadata}
    {state skills state' skills' : Option FileTree} {currentGeneration : Int}
    (hrecorded : parent.bind GenerationMetadata.contentSha256 =
      some (treeHash sha256 [state, skills])) :
    (checkParent sha256 reprTask roundNumber taskIds parent state' skills'
        currentGeneration).isOk = true ↔
      (checkParent sha256 reprTask roundNumber taskIds parent state skills
        currentGeneration).isOk = true ∧
      treeHash sha256 [state, skills] = treeHash sha256 [state', skills'] := by
  unfold checkParent
  rw [hrecorded]
  split
  · simp [Except.isOk, Except.toBool]
  · split
    · simp [Except.isOk, Except.toBool]
    · split
      · simp [Except.isOk, Except.toBool]
      · by_cases hhash : treeHash sha256 [state, skills] = treeHash sha256 [state', skills']
        · simp [hhash]
        · simp [hhash, Except.isOk, Except.toBool]

theorem packageChanged_eq_false {sha256 : List UInt8 → String}
    {parentPackage : Option FileTree} {sourcePackage : FileTree} :
    packageChanged sha256 parentPackage sourcePackage = false ↔
      parentPackage.isSome = true ∧
        treeHash sha256 [some sourcePackage] = treeHash sha256 [parentPackage] := by
  cases parentPackage with
  | none => simp [packageChanged]
  | some parent => simp [packageChanged]

/-- Different files have different hashes, a generation modified after its commit is refused
and a package is taken for unchanged only when it is the parent's, just when the files differ
otherwise than by moving to a neighbouring root or into the end of the file before them. -/
theorem treeHash_injective_iff (sha256 : List UInt8 → String)
    (hinjective : Function.Injective sha256) :
    (∀ roots other, (¬ SameFiles roots other → treeHash sha256 roots ≠ treeHash sha256 other) ↔
      ¬ Confusable roots other) ∧
    (∀ reprTask roundNumber taskIds parent state skills state' skills' currentGeneration,
      parent.bind GenerationMetadata.contentSha256 = some (treeHash sha256 [state, skills]) →
      ((¬ SameFiles [state, skills] [state', skills'] →
          (checkParent sha256 reprTask roundNumber taskIds parent state' skills'
            currentGeneration).isOk = false) ↔
        ((checkParent sha256 reprTask roundNumber taskIds parent state skills
            currentGeneration).isOk = true →
          ¬ Confusable [state, skills] [state', skills']))) ∧
    ∀ parentPackage sourcePackage,
      (packageChanged sha256 parentPackage sourcePackage = false →
        parentPackage.isSome = true ∧ SameFiles [some sourcePackage] [parentPackage]) ↔
      (parentPackage.isSome = true → ¬ Confusable [some sourcePackage] [parentPackage]) := by
  have hmain (roots other : List (Option FileTree)) :
      (¬ SameFiles roots other → treeHash sha256 roots ≠ treeHash sha256 other) ↔
        ¬ Confusable roots other := by
    rw [Ne, treeHash_eq_iff hinjective, not_or]
    constructor
    · intro h hconfusable
      by_cases hsame : SameFiles roots other
      · exact hsame.not_confusable hconfusable
      · exact (h hsame).2 hconfusable
    · exact fun h hsame => ⟨hsame, h⟩
  refine ⟨hmain, ?_, ?_⟩
  · intro reprTask roundNumber taskIds parent state skills state' skills' currentGeneration
      hrecorded
    rw [← hmain, ← Bool.not_eq_true, checkParent_isOk hrecorded, not_and]
    exact ⟨fun h hok hsame => h hsame hok, fun h hsame hok => h hok hsame⟩
  · intro parentPackage sourcePackage
    rw [packageChanged_eq_false, ← hmain]
    constructor
    · intro h hsome hne heq
      exact hne (h ⟨hsome, heq⟩).2
    · rintro h ⟨hsome, heq⟩
      refine ⟨hsome, ?_⟩
      by_contra hne
      exact h hsome hne heq

namespace Sample

def databases : FileTree where
  files := [⟨["capabilities.sqlite"], [1]⟩, ⟨["memory.sqlite"], [2]⟩]
  distinct := by decide +kernel
  named := by decide +kernel

def oneSkillTree : FileTree where
  files := [⟨["notes", "package", "SKILL.md"], [3]⟩]
  distinct := by decide +kernel
  named := by decide +kernel

/-- The skill stands among the databases. -/
def movedTree : FileTree where
  files := [⟨["capabilities.sqlite"], [1]⟩, ⟨["memory.sqlite"], [2]⟩,
    ⟨["notes", "package", "SKILL.md"], [3]⟩]
  distinct := by decide +kernel
  named := by decide +kernel

def committed : GenerationMetadata where
  status := some "complete"
  contentSha256 := some (treeHash byteText [some databases, some oneSkillTree])

/-- After the commit the skill is moved from `skills` to `state`, and the next round accepts
the generation. -/
theorem moved_skill_accepted :
    Function.Injective byteText ∧
    ¬ SameFiles [some databases, some oneSkillTree] [some movedTree, none] ∧
    checkParent byteText id 1 ["task"] (some committed) (some movedTree) none 0 = .ok () := by
  refine ⟨byteText_injective, fun h => ?_, by decide +kernel⟩
  have hskills := h 1
  exact absurd hskills (by decide +kernel)

/-- The skill is written over. -/
def overwrittenTree : FileTree where
  files := [⟨["notes", "package", "SKILL.md"], [4]⟩]
  distinct := by decide +kernel
  named := by decide +kernel

/-- A skill written over after the commit is noticed by the next round. -/
theorem changed_skill_refused :
    treeHash byteText [some databases, some oneSkillTree] ≠
        treeHash byteText [some databases, some overwrittenTree] ∧
      (checkParent byteText id 1 ["task"] (some committed) (some databases) (some overwrittenTree)
        0).isOk = false := by
  have hsame : ¬ SameFiles [some databases, some oneSkillTree]
      [some databases, some overwrittenTree] :=
    fun h => absurd (h 1) (by decide +kernel)
  have hconfusable : ¬ Confusable [some databases, some oneSkillTree]
      [some databases, some overwrittenTree] :=
    fun h => absurd ((treeStream_eq_iff _ _).mpr (.inr h)) (by decide +kernel)
  obtain ⟨hhash, hcheck, -⟩ := treeHash_injective_iff byteText byteText_injective
  exact ⟨(hhash _ _).mpr hconfusable hsame,
    (hcheck id 1 ["task"] (some committed) (some databases) (some oneSkillTree) (some databases)
      (some overwrittenTree) 0 rfl).mpr (fun _ => hconfusable) hsame⟩

end Sample

end EvoCI
