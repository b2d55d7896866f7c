import EvoCI.Integration
import EvoCI.RoundTrip
import EvoCI.Graph.Run

/-! The fingerprint of a snapshot: copies of one workspace get Git metadata of their
own, and so do not always get the same id. -/

namespace EvoCI

open Library

/-! ## Git metadata of a copy -/

/-- Git, as far as copies of a workspace and their fingerprints depend on it. -/
structure GitTool where
  /-- `git init`, `git add --all` and a commit of the tree at this time. -/
  commit : Files → Nat → Files
  /-- A copied `.git` directory after `update-ref HEAD` and `reset --mixed HEAD`. -/
  detach : Int × String → Files → Files → Files
  commitId : Files → Nat → String

/-- Where `.git` leads, and what stands there. -/
def gitEntry (files : Files) (root : Loc) : Option (Loc × Entry) :=
  match files.resolve root ".git" with
  | .ok l => (files l).map fun entry => (l, entry)
  | .error _ => none

def subtree (files : Files) (l : Loc) : Files := fun l' => if l <+: l' then files l' else none

def revParse (cfg : Config) (files : Files) : Int × String := cfg.git ["rev-parse", "HEAD"] files

/-- The Git metadata that `copy_workspace_with_independent_git` leaves in a copy when
its commands succeed. -/
def independentGit (cfg : Config) (tool : GitTool) (files copied : Files) (time : Nat) : Files :=
  match gitEntry files cfg.root with
  | none => tool.commit copied time
  | some (l, entry) =>
    if (revParse cfg files).1 ≠ 0 then tool.commit copied time
    else
      match entry with
      | .dir _ => tool.detach (revParse cfg files) (subtree files l) copied
      | _ => tool.commit copied time

/-- `.git` is a directory and its HEAD can be read: `preserve_head`. -/
def preservesHead (cfg : Config) (files : Files) : Bool :=
  match gitEntry files cfg.root with
  | some (_, .dir _) => (revParse cfg files).1 = 0
  | _ => false

/-- What the fingerprints rely on. Git does not look at the entry of the root itself,
and the id of a commit depends on its tree and its time. -/
structure GitTool.Behaves (tool : GitTool) (cfg : Config) : Prop where
  reads : ∀ arguments tree tree', (∀ l, l ≠ cfg.root → tree l = tree' l) →
    cfg.git arguments tree = cfg.git arguments tree'
  commits : ∀ tree tree' time, (∀ l, l ≠ cfg.root → tree l = tree' l) →
    tool.commit tree time = tool.commit tree' time ∧
      tool.commitId tree time = tool.commitId tree' time
  detaches : ∀ head git tree tree', (∀ l, l ≠ cfg.root → tree l = tree' l) →
    tool.detach head git tree = tool.detach head git tree'
  committed : ∀ effects time,
    let head := revParse cfg (withGit cfg.root effects
      (tool.commit (applyEffects effects noFiles) time)).tree
    head.1 = 0 ∧ strip head.2 = tool.commitId (applyEffects effects noFiles) time
  dated : ∀ tree time time', tool.commitId tree time = tool.commitId tree time' → time = time'
  plain : ∀ tree time, ':' ∉ (tool.commitId tree time).toList

theorem independentGit_of_preserved {cfg : Config} {files : Files}
    (h : preservesHead cfg files = true)
    (tool : GitTool) : ∃ l, ∀ copied time, independentGit cfg tool files copied time =
      tool.detach (revParse cfg files) (subtree files l) copied := by
  unfold preservesHead at h
  split at h
  next l mode hentry =>
    refine ⟨l, fun copied time => ?_⟩
    have hcode : (revParse cfg files).1 = 0 := by simpa using h
    simp [independentGit, hentry, hcode]
  · cases h

theorem independentGit_of_committed {cfg : Config} {files : Files}
    (h : preservesHead cfg files = false) (tool : GitTool) (copied : Files) (time : Nat) :
    independentGit cfg tool files copied time = tool.commit copied time := by
  unfold independentGit
  split
  · rfl
  next l entry hentry =>
    split
    · rfl
    next hcode =>
      split
      next mode =>
        have hcode : (revParse cfg files).1 = 0 := not_ne_iff.mp hcode
        simp [preservesHead, hentry, hcode] at h
      · rfl

/-! ## Trees that snapshots hold -/

/-- Two trees hold the same below the top-level names that restores manage. -/
def SameManaged (root : Loc) (files files' : Files) : Prop :=
  ∀ l, Managed root l → files l = files' l

/-- A tree as snapshots hold it. -/
structure Storable (root : Loc) (tree : Files) : Prop where
  plain : Plain tree root
  parents : ∀ l name, Managed root l → tree (l ++ [name]) ≠ none →
    ∃ mode, tree l = some (.dir mode)

theorem Managed.child {root l : Loc} (h : Managed root l) (name : String) :
    Managed root (l ++ [name]) := by
  obtain ⟨top, rel, hkept, rfl⟩ := h
  exact ⟨top, rel ++ [name], hkept, by simp⟩

theorem Storable.congr {root : Loc} {tree tree' : Files} (h : Storable root tree)
    (hsame : SameManaged root tree' tree) : Storable root tree' := by
  constructor
  · intro name rel hkept hentry
    rw [hsame _ ⟨name, rel, hkept, rfl⟩] at hentry ⊢
    exact h.plain name rel hkept hentry
  · intro l name hl hentry
    rw [hsame _ (hl.child name)] at hentry
    rw [hsame l hl]
    exact h.parents l name hl hentry

theorem storable_of_saved {c : Copying} {files : Files} {root : Loc} {snapshot : Snapshot}
    (hlists : Lists files c.scandir) (hsave : saveBatchSnapshot c files root = .saved snapshot) :
    Storable root snapshot.tree :=
  ⟨plain_of_saved hsave fun _ _ => rfl, fun _ _ hl => saved_parents hlists hsave hl⟩

/-! ## Fingerprints of two copies -/

/-- The copy of the workspace, without Git metadata. -/
def copied (cfg : Config) (env : NodeEnv) (files : Files) : Files :=
  applyEffects (copyTree env.copying.umask files env.copying.scandir isIgnored env.copying.depth
    cfg.root cfg.root).1 noFiles

/-- The copies of one tree differ in nothing but the entry of their root. -/
theorem copied_agree {cfg : Config} {env env' : NodeEnv} {files files' : Files}
    {snapshot snapshot' : Snapshot}
    (hsave : saveBatchSnapshot env.copying files cfg.root = .saved snapshot)
    (hsave' : saveBatchSnapshot env'.copying files' cfg.root = .saved snapshot')
    (hsame : SameManaged cfg.root snapshot.tree snapshot'.tree) (l : Loc) (hl : l ≠ cfg.root) :
    copied cfg env files l = copied cfg env' files' l := by
  obtain ⟨-, rfl⟩ := saveBatchSnapshot_saved hsave
  obtain ⟨-, rfl⟩ := saveBatchSnapshot_saved hsave'
  by_cases hbelow : cfg.root <+: l
  · obtain ⟨rel, rfl⟩ := hbelow
    cases rel with
    | nil => exact absurd (List.append_nil _) hl
    | cons name rel =>
      by_cases hkept : isKept name = true
      · -- restores keep what copies leave out
        have hignored : ¬ Unignored isIgnored (name :: rel) := by
          intro hun
          have hname := hun name (by simp)
          simp only [isKept, Bool.or_eq_true, decide_eq_true_eq] at hkept
          rcases hkept with rfl | rfl <;> revert hname <;> decide
        simp only [copied, applyEffects, noFiles]
        rw [copy_ignored hignored, copy_ignored hignored]
      · have hmanaged : Managed cfg.root (cfg.root ++ name :: rel) :=
          ⟨name, rel, by simpa using hkept, rfl⟩
        have hboth := hsame _ hmanaged
        rw [withGit_managed _ _ _ hmanaged, withGit_managed _ _ _ hmanaged] at hboth
        exact hboth
  · have houtside : ∀ (env : NodeEnv) (files : Files), copied cfg env files l = none := by
      intro env files
      apply effectsOn_of_other
      intro effect heffect
      obtain ⟨rel, -, ht⟩ := copyTree_targets _ _ _ _ _ _ effect heffect
      refine ⟨_, ht, ?_⟩
      rintro rfl
      exact hbelow (List.prefix_append _ _)
    rw [houtside, houtside]

theorem saved_top {c : Copying} {files : Files} {root : Loc} {snapshot : Snapshot}
    (hsave : saveBatchSnapshot c files root = .saved snapshot) :
    ∃ mode, snapshot.tree root = some (.dir mode) := by
  obtain ⟨hok, rfl⟩ := saveBatchSnapshot_saved hsave
  have hnot : ¬ root ++ [".git"] <+: root := by
    intro hp
    have hlen := hp.length_le
    simp only [List.length_append, List.length_singleton] at hlen
    omega
  cases hdepth : c.depth with
  | zero =>
    rw [hdepth] at hok
    cases hok
  | succ depth =>
    obtain ⟨mode, hmode⟩ := @copyTree_top c.umask files c.scandir isIgnored depth root root
    exact ⟨mode, by simp [withGit, hnot, applyEffects, noFiles, hmode]⟩

theorem alike_of_saved {cfg : Config} {c c' : Copying} {files files' : Files}
    {snapshot snapshot' : Snapshot}
    (hsave : saveBatchSnapshot c files cfg.root = .saved snapshot)
    (hsave' : saveBatchSnapshot c' files' cfg.root = .saved snapshot')
    (hsame : SameManaged cfg.root snapshot.tree snapshot'.tree) :
    Alike cfg.root snapshot.tree snapshot'.tree := by
  have hlinks : ∀ (snapshot : Snapshot) l, snapshot.tree.linkAt l = none := by
    intro snapshot l
    unfold Files.linkAt
    split
    next target hlink => exact absurd hlink (snapshot.noLinks l target)
    · rfl
  refine ⟨fun l hl hgit => ?_, saved_top hsave, saved_top hsave', hlinks _, hlinks _⟩
  have hcopied := @copied_agree cfg { copying := c } { copying := c' } _ _ _ _ hsave hsave'
    hsame l hl
  obtain ⟨-, rfl⟩ := saveBatchSnapshot_saved hsave
  obtain ⟨-, rfl⟩ := saveBatchSnapshot_saved hsave'
  simp only [withGit, if_neg hgit]
  exact hcopied

/-- The fingerprint does not look at the entry of the root. -/
theorem workspaceSnapshotId_congr {cfg : Config} {tool : GitTool} (htool : tool.Behaves cfg)
    {tree tree' : Files} (hsame : ∀ l, l ≠ cfg.root → tree l = tree' l)
    (htop : ∃ mode, tree cfg.root = some (.dir mode))
    (htop' : ∃ mode, tree' cfg.root = some (.dir mode)) :
    workspaceSnapshotId cfg tree = workspaceSnapshotId cfg tree' := by
  have hbytes : untrackedBytes tree cfg.root = untrackedBytes tree' cfg.root := by
    funext name
    unfold untrackedBytes
    by_cases hnil : pathParts name = []
    · obtain ⟨mode, hmode⟩ := htop
      obtain ⟨mode', hmode'⟩ := htop'
      simp [hnil, hmode, hmode']
    · rw [hsame]
      intro h
      exact hnil (by simpa using h)
  unfold workspaceSnapshotId
  simp only [htool.reads _ tree tree' hsame, hbytes]

/-- The revision in a fingerprint. -/
def revisionOf (cfg : Config) (files : Files) : String :=
  if (revParse cfg files).1 = 0 then strip (revParse cfg files).2 else "no-head"

theorem revisionOf_eq {cfg : Config} {tree tree' : Files}
    (hplain : ':' ∉ (revisionOf cfg tree).toList) (hplain' : ':' ∉ (revisionOf cfg tree').toList)
    (h : workspaceSnapshotId cfg tree = workspaceSnapshotId cfg tree') :
    revisionOf cfg tree = revisionOf cfg tree' := by
  have htake : ∀ (revision digest : String), ':' ∉ revision.toList →
      (revision ++ ":" ++ digest).toList.takeWhile (· ≠ ':') = revision.toList := by
    intro revision digest hrevision
    have hlist : (revision ++ ":" ++ digest).toList =
        revision.toList ++ ':' :: digest.toList := by simp
    rw [hlist, List.takeWhile_append_of_pos]
    · simp
    · intro c hc
      simp only [ne_eq, decide_eq_true_eq]
      rintro rfl
      exact hrevision hc
  have hchars := congrArg (fun id : String => id.toList.takeWhile (· ≠ ':')) h
  have hform : ∀ files, ∃ digest, workspaceSnapshotId cfg files =
      revisionOf cfg files ++ ":" ++ digest := fun files => ⟨_, rfl⟩
  obtain ⟨digest, hdigest⟩ := hform tree
  obtain ⟨digest', hdigest'⟩ := hform tree'
  simp only [hdigest, hdigest'] at hchars
  rw [htake _ _ hplain, htake _ _ hplain'] at hchars
  exact String.toList_inj.mp hchars

/-- The Git metadata of the workspace is the same in both trees. -/
structure GitUnchanged (cfg : Config) (files files' : Files) : Prop where
  entry : gitEntry files cfg.root = gitEntry files' cfg.root
  below : ∀ l entry, gitEntry files cfg.root = some (l, entry) → subtree files l = subtree files' l
  head : revParse cfg files = revParse cfg files'

theorem GitUnchanged.preservesHead {cfg : Config} {files files' : Files}
    (h : GitUnchanged cfg files files') : preservesHead cfg files = preservesHead cfg files' := by
  simp only [EvoCI.preservesHead, h.entry, h.head]

theorem GitUnchanged.independentGit {cfg : Config} {tool : GitTool} {files files' : Files}
    (h : GitUnchanged cfg files files') (copied : Files) (time : Nat) :
    independentGit cfg tool files copied time = independentGit cfg tool files' copied time := by
  unfold EvoCI.independentGit
  rw [← h.entry, ← h.head]
  cases hentry : gitEntry files cfg.root with
  | none => rfl
  | some found => simp only [h.below found.1 found.2 hentry]

section Copies

variable {cfg : Config} {tool : GitTool} {env env' : NodeEnv} {files files' : Files}
  {snapshot snapshot' : Snapshot} {time time' : Nat}

/-- The copies of one workspace have one fingerprint when their Git metadata comes
from the workspace's, or was committed at one time. -/
theorem snapshotIds_eq_iff (htool : tool.Behaves cfg)
    (hsave : saveBatchSnapshot env.copying files cfg.root = .saved snapshot)
    (hsave' : saveBatchSnapshot env'.copying files' cfg.root = .saved snapshot')
    (hsame : SameManaged cfg.root snapshot.tree snapshot'.tree)
    (hgit : env.copying.gitMetadata = independentGit cfg tool files (copied cfg env files) time)
    (hgit' : env'.copying.gitMetadata =
      independentGit cfg tool files' (copied cfg env' files') time')
    (hunchanged : GitUnchanged cfg files files') :
    workspaceSnapshotId cfg snapshot.tree = workspaceSnapshotId cfg snapshot'.tree ↔
      preservesHead cfg files = true ∨ time = time' := by
  have hcopied := copied_agree hsave hsave' hsame
  have hmetadata : preservesHead cfg files = true ∨ time = time' →
      env.copying.gitMetadata = env'.copying.gitMetadata := by
    intro hcases
    rw [hgit, hgit', ← hunchanged.independentGit]
    by_cases hpreserved : preservesHead cfg files = true
    · obtain ⟨l, hdetached⟩ := independentGit_of_preserved hpreserved tool
      rw [hdetached, hdetached]
      exact htool.detaches _ _ _ _ hcopied
    · have hcommitted : preservesHead cfg files = false := by simpa using hpreserved
      rw [independentGit_of_committed hcommitted, independentGit_of_committed hcommitted,
        hcases.resolve_left hpreserved]
      exact (htool.commits _ _ _ hcopied).1
  have htop := saved_top hsave
  have htop' := saved_top hsave'
  obtain ⟨-, rfl⟩ := saveBatchSnapshot_saved hsave
  obtain ⟨-, rfl⟩ := saveBatchSnapshot_saved hsave'
  constructor
  · intro hids
    by_cases hpreserved : preservesHead cfg files = true
    · exact .inl hpreserved
    · right
      have hcommitted : preservesHead cfg files = false := by simpa using hpreserved
      have hcommitted' : preservesHead cfg files' = false := by
        rw [← hunchanged.preservesHead]
        exact hcommitted
      rw [hgit, hgit', independentGit_of_committed hcommitted,
        independentGit_of_committed hcommitted'] at hids
      have hrevision : ∀ (env : NodeEnv) (files : Files) (time : Nat), revisionOf cfg
          (withGit cfg.root (copyTree env.copying.umask files env.copying.scandir isIgnored
            env.copying.depth cfg.root cfg.root).1 (tool.commit (copied cfg env files) time)).tree =
          tool.commitId (copied cfg env files) time := by
        intro env files time
        obtain ⟨hcode, hid⟩ := htool.committed (copyTree env.copying.umask files
          env.copying.scandir isIgnored env.copying.depth cfg.root cfg.root).1 time
        unfold copied revisionOf
        rw [if_pos hcode, hid]
      have hrevisions := revisionOf_eq (by rw [hrevision]; exact htool.plain _ _)
        (by rw [hrevision]; exact htool.plain _ _) hids
      rw [hrevision, hrevision, (htool.commits _ _ time hcopied).2] at hrevisions
      exact htool.dated _ _ _ hrevisions
  · intro hcases
    refine workspaceSnapshotId_congr htool (fun l hl => ?_) htop htop'
    have hentry := hcopied l hl
    unfold copied at hentry
    simp only [withGit, hmetadata hcases, hentry]

end Copies

namespace Sample

/-! ## A repository

The sample workspace with a `.git` directory. Git writes nothing but `HEAD`, and the
id of a commit is its time and whether the file is the sample's. -/

def gitDir : Loc := ["w", ".git"]

def headFile : Loc := ["w", ".git", "HEAD"]

def commitId (tree : Files) (time : Nat) : String :=
  String.ofList (List.replicate time '0' ++
    [if tree ["w", "a"] = files ["w", "a"] then 'a' else 'b'])

/-- A `.git` directory with this commit checked out. -/
def headAt (id : String) : Files := fun l =>
  if l = gitDir then some (.dir 0o755)
  else if l = headFile then some (.file (.utf8 id) 0o644)
  else none

def git (arguments : List String) (tree : Files) : Int × String :=
  if arguments = ["rev-parse", "HEAD"] then
    match tree headFile with
    | some (.file (.utf8 id) _) => (0, id ++ "\n")
    | _ => (128, "")
  else (0, "")

def gitTool : GitTool where
  commit tree time := headAt (commitId tree time)
  detach head metadata _ := fun l =>
    if l = headFile then some (.file (.utf8 (strip head.2)) 0o644) else metadata l
  commitId := commitId

def gitConfig (batches : Nat) : Config := { config batches with git := git }

theorem commitId_chars (tree : Files) (time : Nat) :
    ∀ c ∈ (commitId tree time).toList, c = '0' ∨ c = 'a' ∨ c = 'b' := by
  intro c hc
  simp only [commitId, String.toList_ofList, List.mem_append, List.mem_singleton] at hc
  rcases hc with hzero | rfl
  · exact .inl (List.eq_of_mem_replicate hzero)
  · split
    · exact .inr (.inl rfl)
    · exact .inr (.inr rfl)

theorem strip_commitId (tree : Files) (time : Nat) :
    strip (commitId tree time ++ "\n") = commitId tree time := by
  have hspace : ∀ c ∈ (commitId tree time).toList, isSpace c = false := by
    intro c hc
    rcases commitId_chars tree time c hc with rfl | rfl | rfl <;> decide
  have hkeep : ∀ cs : List Char, (∀ c ∈ cs, isSpace c = false) → cs.dropWhile isSpace = cs := by
    intro cs hcs
    cases cs with
    | nil => rfl
    | cons c cs => simp [hcs c (by simp)]
  have hfront : ((commitId tree time).toList ++ ['\n']).dropWhile isSpace =
      (commitId tree time).toList ++ ['\n'] := by
    have hne : (commitId tree time).toList ≠ [] := by simp [commitId]
    obtain ⟨c, cs, hcs⟩ := List.exists_cons_of_ne_nil hne
    rw [hcs] at hspace ⊢
    simp [hspace c (by simp)]
  have hback : ((commitId tree time).toList ++ ['\n']).reverse.dropWhile isSpace =
      (commitId tree time).toList.reverse := by
    rw [List.reverse_append, List.reverse_singleton, List.singleton_append,
      List.dropWhile_cons_of_pos (by decide)]
    exact hkeep _ fun c hc => hspace c (List.mem_reverse.mp hc)
  have hlist : (commitId tree time ++ "\n").toList = (commitId tree time).toList ++ ['\n'] := by
    simp
  rw [strip, hlist, hfront, hback, List.reverse_reverse, String.ofList_toList]

theorem gitTool_behaves (batches : Nat) : gitTool.Behaves (gitConfig batches) where
  reads arguments tree tree' hsame := by
    have hhead : tree headFile = tree' headFile := hsame _ (show headFile ≠ root by decide)
    show git arguments tree = git arguments tree'
    simp only [git, hhead]
  commits tree tree' time hsame := by
    have hfile : tree ["w", "a"] = tree' ["w", "a"] := hsame _ (show ["w", "a"] ≠ root by decide)
    have hid : commitId tree time = commitId tree' time := by
      simp only [commitId, hfile]
    exact ⟨congrArg headAt hid, hid⟩
  detaches _ _ _ _ _ := rfl
  committed effects time := by
    have hhead : revParse (gitConfig batches) (withGit root effects
        (headAt (commitId (applyEffects effects noFiles) time))).tree =
        (0, commitId (applyEffects effects noFiles) time ++ "\n") := rfl
    show (revParse (gitConfig batches) (withGit root effects (headAt _)).tree).1 = 0 ∧
      strip (revParse (gitConfig batches) (withGit root effects (headAt _)).tree).2 = commitId _ _
    rw [hhead]
    exact ⟨rfl, strip_commitId _ _⟩
  dated tree time time' h := by
    have hlen := congrArg (fun id : String => id.toList.length) h
    simpa [gitTool, commitId] using hlen
  plain tree time hin := by
    rcases commitId_chars tree time _ hin with h | h | h <;> revert h <;> decide

end Sample

end EvoCI
