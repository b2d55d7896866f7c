import EvoCI.Library.Records
import EvoCI.ReplaceText
import EvoCI.Benchmark.CandidatePatch
import EvoCI.Graph.Baseline
import EvoCI.Graph.CandidateResume
import EvoCI.Capability.Integrity

/-! What the id of a workspace tells of its files: the digest runs over the diff that Git prints
and the names and bytes of the untracked files, one behind the other. -/

namespace EvoCI

open Library

/-! ## What Git knows of a workspace -/

/-- What stands at a name, its executable bit included. -/
inductive WorkNode where
  | regular (bytes : List UInt8) (executable : Bool)
  | link (target : String)
  | directory
  deriving DecidableEq, Repr

def nodeAt (files : Files) (root : Loc) (name : String) : Option WorkNode :=
  (files (root ++ pathParts name)).map fun entry =>
    match entry with
    | .file content mode => .regular content.bytes (mode.testBit 6)
    | .link target => .link target
    | .dir _ => .directory

/-- The tracked names, the untracked names that are not ignored and the diff against `HEAD`, which
come through a pipe in text mode. -/
structure GitWorktree (cfg : Config) (files : Files) where
  tracked : List String
  untracked : List String
  diff : String
  names : ∀ name ∈ untracked, name ≠ "" ∧ '\x00' ∉ name.toList
  printsDiff : (cfg.git ["diff", "HEAD"] files).2 = textRead diff
  printsUntracked :
    (cfg.git ["ls-files", "--others", "--exclude-standard", "-z"] files).2 =
      textRead (String.ofList (untracked.flatMap fun name => name.toList ++ ['\x00']))

section

variable {cfg : Config} {files files' : Files}

/-- The tracked files have the same names, bytes, kinds and executable bits. -/
def SameTracked (tree : GitWorktree cfg files) (tree' : GitWorktree cfg files') : Prop :=
  tree.tracked = tree'.tracked ∧
    ∀ name ∈ tree.tracked, nodeAt files cfg.root name = nodeAt files' cfg.root name

def SameUntracked (tree : GitWorktree cfg files) (tree' : GitWorktree cfg files') : Prop :=
  tree.untracked = tree'.untracked ∧
    ∀ name ∈ tree.untracked, nodeAt files cfg.root name = nodeAt files' cfg.root name

/-! ## What the digest sees -/

/-- The names as `workspace_snapshot_id` sorts them. -/
def GitWorktree.shownNames (tree : GitWorktree cfg files) : List String :=
  (tree.untracked.map textRead).insertionSort (· ≤ ·)

/-- The pieces behind the revision. -/
def GitWorktree.pieces (tree : GitWorktree cfg files) : List (List UInt8) :=
  encode (textRead tree.diff) ::
    Records.named encode (untrackedBytes files cfg.root) tree.shownNames

/-- The workspaces differ in nothing that the digest looks at: the diffs differ at most in their
line ends, and the untracked files neither in a name, as it is read, nor in the bytes of a regular
file. -/
def Blurred (tree : GitWorktree cfg files) (tree' : GitWorktree cfg files') : Prop :=
  (SameTracked tree tree' ∨ tree.diff ≠ tree'.diff ∧ textRead tree.diff = textRead tree'.diff) ∧
    tree.shownNames = tree'.shownNames ∧
    ∀ name ∈ tree.shownNames,
      untrackedBytes files cfg.root name = untrackedBytes files' cfg.root name

/-- The workspaces have one digest: they are blurred, or where their pieces part one piece goes on
with what the other workspace has next. -/
def SameDigest (tree : GitWorktree cfg files) (tree' : GitWorktree cfg files') : Prop :=
  Blurred tree tree' ∨ Records.RunsOn tree.pieces tree'.pieces ∨
    Records.RunsOn tree'.pieces tree.pieces

end

/-! ## Where ids are compared -/

/-- `integrate_edits` with an expected baseline. -/
def integrateOnBaseline (cfg : Config) (denied : Loc → Bool) (expected : Option String)
    (edits : List FileEdit) (files : Files) : Except PyError Files :=
  match expected with
  | none =>
    files.integrateEdits (fun content => cfg.sha256 content.bytes) denied cfg.root edits
  | some baseline =>
    if workspaceSnapshotId cfg files ≠ baseline then
      .error (.patchConflict
        s!"workspace snapshot {workspaceSnapshotId cfg files} does not match baseline {baseline}")
    else files.integrateEdits (fun content => cfg.sha256 content.bytes) denied cfg.root edits

/-- What one id says to a check that has recorded another. -/
structure Refuses (cfg : Config) (recorded : String) (files : Files) : Prop where
  verification : ∀ s : EvoCIState, s.verificationSnapshotId = some recorded →
    formalSuccess cfg s files = false
  integration : ∀ denied edits, ∃ message,
    integrateOnBaseline cfg denied (some recorded) edits files = .error (.patchConflict message)
  application : ∀ (s : EvoCIState) (w : World), s.workerBaselineId = some recorded →
    w.files = files → w.plans (operationId s) = none → s.batchSnapshotPath.bind w.snapshots = none →
    ∃ message, obtainPlan cfg s w = .changed message

/-! ## Names through a pipe -/

theorem splitNulFrom_piece {piece : List Char} (h : '\x00' ∉ piece) (read rest : List Char) :
    splitNulFrom read (piece ++ '\x00' :: rest) =
      String.ofList (read.reverse ++ piece) :: splitNulFrom [] rest := by
  induction piece generalizing read with
  | nil => simp [splitNulFrom]
  | cons c piece ih =>
    obtain ⟨hc, hpiece⟩ := not_or.mp (List.mem_cons.not.mp h)
    rw [List.cons_append, splitNulFrom, if_neg (fun heq => hc heq.symm), ih hpiece]
    simp

theorem mem_universalNewlines {c : Char} (hc : c ≠ '\n') {cs : List Char}
    (h : c ∈ universalNewlines cs) : c ∈ cs := by
  fun_induction universalNewlines cs with
  | case1 => exact h
  | case2 cs ih =>
    rcases List.mem_cons.mp h with h | h
    · exact absurd h hc
    · exact List.mem_cons_of_mem _ (List.mem_cons_of_mem _ (ih h))
  | case3 cs _ ih =>
    rcases List.mem_cons.mp h with h | h
    · exact absurd h hc
    · exact List.mem_cons_of_mem _ (ih h)
  | case4 d cs _ _ ih =>
    rcases List.mem_cons.mp h with rfl | h
    · exact List.mem_cons_self
    · exact List.mem_cons_of_mem _ (ih h)

theorem textRead_ne_empty {name : String} (h : name ≠ "") : textRead name ≠ "" := by
  intro hread
  have hchars : universalNewlines name.toList = [] := by
    simpa [textRead] using congrArg String.toList hread
  cases hname : name.toList with
  | nil => exact h (String.toList_inj.mp hname)
  | cons c cs =>
    rw [hname] at hchars
    by_cases hcr : c = '\r'
    · subst hcr
      cases cs with
      | nil => cases hchars
      | cons d cs =>
        by_cases hd : d = '\n'
        · subst hd
          rw [universalNewlines] at hchars
          cases hchars
        · rw [universalNewlines_cr hd] at hchars
          cases hchars
    · rw [universalNewlines_other hcr] at hchars
      cases hchars

theorem universalNewlines_names (names : List String) :
    universalNewlines (names.flatMap fun name => name.toList ++ ['\x00']) =
      names.flatMap fun name => universalNewlines name.toList ++ ['\x00'] := by
  induction names with
  | nil => rfl
  | cons name names ih =>
    have hnul : ('\x00' : Char) ≠ '\n' := by decide
    have hcr : ('\x00' : Char) ≠ '\r' := by decide
    rw [List.flatMap_cons, List.flatMap_cons, List.append_assoc, List.singleton_append,
      universalNewlines_append hnul, universalNewlines_other hcr, ih, List.append_assoc,
      List.singleton_append]

theorem splitNul_names {names : List String} (h : ∀ name ∈ names, '\x00' ∉ name.toList) :
    splitNul (textRead (String.ofList (names.flatMap fun name => name.toList ++ ['\x00']))) =
      names.map textRead ++ [""] := by
  simp only [splitNul, textRead, String.toList_ofList, universalNewlines_names]
  induction names with
  | nil => rfl
  | cons name names ih =>
    have hnul : ('\x00' : Char) ≠ '\n' := by decide
    have hname : '\x00' ∉ universalNewlines name.toList := fun hin =>
      h name List.mem_cons_self (mem_universalNewlines hnul hin)
    rw [List.flatMap_cons, List.append_assoc, List.singleton_append, splitNulFrom_piece hname,
      ih fun other hother => h other (List.mem_cons_of_mem _ hother)]
    simp [textRead]

/-! ## The id -/

section

variable {cfg : Config} {files files' : Files}

/-- The part of the digest that an id shows. -/
def shortDigest (cfg : Config) (input : List UInt8) : String :=
  String.ofList ((cfg.sha256 input).toList.take 16)

def GitWorktree.digestInput (tree : GitWorktree cfg files) : List UInt8 :=
  encode (revisionOf cfg files) ++ encode "\n" ++ tree.pieces.flatten

theorem snapshotId_eq (tree : GitWorktree cfg files) :
    workspaceSnapshotId cfg files =
      revisionOf cfg files ++ ":" ++ shortDigest cfg tree.digestInput := by
  have hnul : ∀ name ∈ tree.untracked, '\x00' ∉ name.toList :=
    fun name hname => (tree.names name hname).2
  have hkept : ((splitNul (textRead (String.ofList
      (tree.untracked.flatMap fun name => name.toList ++ ['\x00'])))).filter
        fun name => name ≠ "") = tree.untracked.map textRead := by
    rw [splitNul_names hnul, List.filter_append]
    have hall : (tree.untracked.map textRead).filter (fun name => decide (name ≠ "")) =
        tree.untracked.map textRead := by
      rw [List.filter_eq_self]
      intro name hname
      obtain ⟨other, hother, rfl⟩ := List.mem_map.mp hname
      exact decide_eq_true (textRead_ne_empty (tree.names other hother).1)
    rw [hall]
    simp
  simp only [workspaceSnapshotId, tree.printsDiff, tree.printsUntracked, hkept]
  rw [shortDigest, GitWorktree.digestInput, GitWorktree.pieces, List.flatten_cons,
    Records.named_flatten, ← List.append_assoc]
  rfl

theorem append_left_cancel_string {start first second : String} :
    start ++ first = start ++ second ↔ first = second := by
  constructor
  · intro h
    have hchars := congrArg String.toList h
    simp only [String.toList_append, List.append_cancel_left_eq] at hchars
    exact String.toList_inj.mp hchars
  · exact fun h => by rw [h]

theorem shownNames_encoded (tree : GitWorktree cfg files) :
    ∀ name ∈ tree.shownNames, encode name ≠ [] := by
  intro name hname hempty
  have hmem : name ∈ tree.untracked.map textRead := by
    simpa [GitWorktree.shownNames] using hname
  obtain ⟨other, hother, rfl⟩ := List.mem_map.mp hmem
  have hnil : encode (textRead other) = encode "" := hempty.trans (encode_ofList []).symm
  exact textRead_ne_empty (tree.names other hother).1 (encode_injective hnil)

/-- The diff does not tell more than the tracked files, nor less. -/
theorem pieces_eq_iff (tree : GitWorktree cfg files) (tree' : GitWorktree cfg files')
    (hgit : tree.diff = tree'.diff ↔ SameTracked tree tree') :
    tree.pieces = tree'.pieces ↔ Blurred tree tree' := by
  have hread : encode (textRead tree.diff) = encode (textRead tree'.diff) ↔
      SameTracked tree tree' ∨
        tree.diff ≠ tree'.diff ∧ textRead tree.diff = textRead tree'.diff := by
    rw [← hgit]
    constructor
    · intro h
      by_cases hdiff : tree.diff = tree'.diff
      · exact Or.inl hdiff
      · exact Or.inr ⟨hdiff, encode_injective h⟩
    · rintro (h | ⟨-, h⟩) <;> rw [h]
  have hinjective : Function.Injective encode := fun _ _ h => encode_injective h
  rw [GitWorktree.pieces, GitWorktree.pieces, List.cons.injEq, hread,
    Records.named_inj hinjective, Blurred]

theorem digestInput_eq_iff (tree : GitWorktree cfg files) (tree' : GitWorktree cfg files')
    (hrevision : revisionOf cfg files = revisionOf cfg files')
    (hgit : tree.diff = tree'.diff ↔ SameTracked tree tree') :
    tree.digestInput = tree'.digestInput ↔ SameDigest tree tree' := by
  rw [GitWorktree.digestInput, GitWorktree.digestInput, hrevision, List.append_cancel_left_eq,
    SameDigest, ← pieces_eq_iff tree tree' hgit]
  exact Records.headed_flatten_eq_iff (shownNames_encoded tree) (shownNames_encoded tree')

/-- Two workspaces with one `HEAD` have one id just when the digest cannot tell them apart. -/
theorem snapshotId_eq_iff (tree : GitWorktree cfg files) (tree' : GitWorktree cfg files')
    (hrevision : revisionOf cfg files = revisionOf cfg files')
    (hgit : tree.diff = tree'.diff ↔ SameTracked tree tree')
    (hcollision : shortDigest cfg tree.digestInput = shortDigest cfg tree'.digestInput →
      tree.digestInput = tree'.digestInput) :
    workspaceSnapshotId cfg files = workspaceSnapshotId cfg files' ↔ SameDigest tree tree' := by
  rw [← digestInput_eq_iff tree tree' hrevision hgit, snapshotId_eq tree, snapshotId_eq tree',
    hrevision, append_left_cancel_string]
  exact ⟨hcollision, fun h => by rw [h]⟩

end

/-! ## What the checks refuse -/

section

variable {cfg : Config} {recorded : String} {files : Files}

theorem refuses_of_ne (h : workspaceSnapshotId cfg files ≠ recorded) (htext : recorded ≠ "") :
    Refuses cfg recorded files where
  verification s hs := by
    unfold formalSuccess
    split
    · rw [hs]
      simp [Ne.symm h]
    · rfl
  integration denied edits := ⟨_, by rw [integrateOnBaseline, if_pos h]⟩
  application s w hs hw hplan hsnapshot := by
    have hbaseline : truthy s.workerBaselineId = true := by
      rw [hs]
      simpa [truthy] using htext
    refine
      ⟨s!"workspace snapshot {workspaceSnapshotId cfg files} does not match baseline {recorded}",
        ?_⟩
    simp only [obtainPlan, hplan, hsnapshot, hbaseline, hw]
    rw [if_pos ⟨trivial, by rw [hs]; exact Ne.symm h⟩, hs]
    rfl

theorem snapshotId_ne_empty (cfg : Config) (files : Files) :
    workspaceSnapshotId cfg files ≠ "" := by
  intro h
  have hchars := congrArg String.toList h
  simp only [workspaceSnapshotId, String.toList_append] at hchars
  simp at hchars

end

/-- Of two workspaces with one `HEAD` that differ in a tracked or an untracked file, the id tells
them apart, and the checks refuse one for the other, just when the digest does. -/
theorem snapshotId_injective_iff (cfg : Config) {files files' : Files}
    (tree : GitWorktree cfg files) (tree' : GitWorktree cfg files')
    (hrevision : revisionOf cfg files = revisionOf cfg files')
    (hgit : tree.diff = tree'.diff ↔ SameTracked tree tree')
    (hcollision : shortDigest cfg tree.digestInput = shortDigest cfg tree'.digestInput →
      tree.digestInput = tree'.digestInput) :
    ((¬ (SameTracked tree tree' ∧ SameUntracked tree tree') →
        workspaceSnapshotId cfg files ≠ workspaceSnapshotId cfg files' ∧
          Refuses cfg (workspaceSnapshotId cfg files) files') ↔
      (¬ (SameTracked tree tree' ∧ SameUntracked tree tree') → ¬ SameDigest tree tree')) := by
  refine forall_congr' fun _ => ?_
  rw [← snapshotId_eq_iff tree tree' hrevision hgit hcollision]
  constructor
  · exact fun h => h.1
  · exact fun h => ⟨h, refuses_of_ne (Ne.symm h) (snapshotId_ne_empty cfg files)⟩

namespace Sample

/-- A repository with one untracked file, whose name is one of two. -/
def idConfig : Config where
  root := ["w"]
  runId := "run"
  maxSupervisorBatches := 1
  git arguments files :=
    if arguments = ["rev-parse", "HEAD"] then (0, "c0ffee\n")
    else if arguments = ["diff", "HEAD"] then (0, "")
    else (0, if (files ["w", "a"]).isSome then "a\x00" else "ab\x00")
  sha256 := byteText
  decodeReplace := fun _ => ""
  storable := fun _ => true

def oneUntracked (name text : String) : Files :=
  emptyTree.put ["w", name] (.file (.utf8 text) 0o644)

def aTree (text : String) : GitWorktree idConfig (oneUntracked "a" text) where
  tracked := []
  untracked := ["a"]
  diff := ""
  names := by decide +kernel
  printsDiff := by
    have hread : textRead "" = "" := by decide +kernel
    simp [idConfig, hread]
  printsUntracked := by
    have hread : textRead (String.ofList ['a', '\x00']) = "a\x00" := by decide +kernel
    simp [idConfig, oneUntracked, Files.put, hread]

def abTree (text : String) : GitWorktree idConfig (oneUntracked "ab" text) where
  tracked := []
  untracked := ["ab"]
  diff := ""
  names := by decide +kernel
  printsDiff := by
    have hread : textRead "" = "" := by decide +kernel
    simp [idConfig, hread]
  printsUntracked := by
    have hread : textRead (String.ofList ['a', 'b', '\x00']) = "ab\x00" := by decide +kernel
    simp [idConfig, oneUntracked, Files.put, emptyTree, hread]

/-- Another text of the file is told, and refused. -/
theorem other_text_told :
    workspaceSnapshotId idConfig (oneUntracked "a" "b") ≠
        workspaceSnapshotId idConfig (oneUntracked "a" "c") ∧
      Refuses idConfig (workspaceSnapshotId idConfig (oneUntracked "a" "b"))
        (oneUntracked "a" "c") := by
  have hgit : (aTree "b").diff = (aTree "c").diff ↔ SameTracked (aTree "b") (aTree "c") :=
    ⟨fun _ => ⟨rfl, fun _ h => absurd h List.not_mem_nil⟩, fun _ => rfl⟩
  have hdigest : ¬ SameDigest (aTree "b") (aTree "c") := fun h =>
    absurd ((digestInput_eq_iff (aTree "b") (aTree "c") rfl hgit).mpr h) (by decide +kernel)
  exact (snapshotId_injective_iff idConfig (aTree "b") (aTree "c") rfl hgit
    fun h => absurd h (by decide +kernel)).mpr (fun _ => hdigest)
    fun h => absurd (h.2.2 "a" (List.mem_singleton.mpr rfl)) (by decide +kernel)

/-- A letter of the text moves to the name, and a verification of the one workspace counts for
the other. -/
theorem moved_letter_untold :
    ¬ SameUntracked (aTree "bc") (abTree "c") ∧
    workspaceSnapshotId idConfig (oneUntracked "a" "bc") =
      workspaceSnapshotId idConfig (oneUntracked "ab" "c") :=
  ⟨fun h => absurd h.1 (by decide +kernel), by decide +kernel⟩

end Sample

end EvoCI
