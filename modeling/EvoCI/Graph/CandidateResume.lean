import Mathlib.Tactic.MkIffOfInductiveProp
import EvoCI.Integration
import EvoCI.Graph.Baseline
import EvoCI.Graph.Batch

/-! Resuming a failed candidate in a later batch: its artifact names the baseline of
its own batch, and the later batch computes one of its own. -/

namespace EvoCI

open Library

/-! ## Resuming a candidate -/

/-- What `save_patch_artifact` stores of a candidate, as far as resuming reads it. -/
structure PatchArtifact where
  baselineSnapshotId : String
  edits : List FileEdit

/-- The artifact of a worker that starts in the state. -/
def savedArtifact (s : EvoCIState) (edits : List FileEdit) : PatchArtifact :=
  ⟨s.workerBaselineId.getD "", edits⟩

/-- How the staging copy of a task that resumes a candidate starts. -/
inductive Resuming where
  | blocked (message : String)
  | raised (e : PyError)
  | staged (files : Files)

def resumeIn (cfg : Config) (denied : Loc → Bool) (artifact : PatchArtifact)
    (writeScope : List String) (staging : Files) : Resuming :=
  match assertEditsAllowed writeScope artifact.edits with
  | .error e => .raised e
  | .ok () =>
    match staging.integrateEdits (fun content => cfg.sha256 content.bytes) denied cfg.root
        artifact.edits with
    | .error e => .raised e
    | .ok files => .staged files

/-- `execute` of a repair worker from the loaded artifact to its staging copy. -/
def resumeStaging (cfg : Config) (denied : Loc → Bool) (artifact : PatchArtifact) (s : EvoCIState)
    (writeScope : List String) (staging : Files) : Resuming :=
  if artifact.baselineSnapshotId ≠ s.workerBaselineId.getD "" then
    .blocked "failed candidate baseline does not match current snapshot"
  else resumeIn cfg denied artifact writeScope staging

/-- The staging copy is the workspace's with the edits of the candidate applied. -/
def HasEdits (cfg : Config) (edits : List FileEdit) (staging files : Files) : Prop :=
  staging.Touches files (staging.PathsAt cfg.root (edits.map FileEdit.path)) ∧
    (staging.DistinctFiles cfg.root (edits.map FileEdit.path) →
      ∀ edit ∈ edits, files.fileText cfg.root edit.path = .ok (readBack edit.content))

/-- The edits lie in the write scope, and the tree takes them with all their hashes
checked. -/
def TakesEdits (cfg : Config) (writeScope : List String) (edits : List FileEdit) (tree : Files) :
    Prop :=
  assertEditsAllowed writeScope edits = .ok () ∧
    ∃ files, tree.integrateEdits (fun content => cfg.sha256 content.bytes) (fun _ => false) cfg.root
      edits = .ok files

theorem resumeIn_staged_iff {cfg : Config} {artifact : PatchArtifact} {writeScope : List String}
    {staging : Files} :
    (∃ files, resumeIn cfg (fun _ => false) artifact writeScope staging = .staged files) ↔
      TakesEdits cfg writeScope artifact.edits staging := by
  unfold resumeIn TakesEdits
  constructor
  · rintro ⟨files, h⟩
    split at h
    · cases h
    next hallowed =>
      split at h
      · cases h
      next found hfound => exact ⟨hallowed, found, hfound⟩
  · rintro ⟨hallowed, files, hfiles⟩
    exact ⟨files, by rw [hallowed, hfiles]⟩

theorem resumeIn_staged {cfg : Config} {denied : Loc → Bool} {artifact : PatchArtifact}
    {writeScope : List String} {staging files : Files}
    (h : resumeIn cfg denied artifact writeScope staging = .staged files) :
    HasEdits cfg artifact.edits staging files := by
  unfold resumeIn at h
  split at h
  · cases h
  · split at h
    · cases h
    next found hfound =>
      cases h
      unfold Files.integrateEdits at hfound
      split at hfound
      next hnil =>
        cases hfound
        rw [hnil]
        exact ⟨Files.Touches.refl _ _, by simp⟩
      · split at hfound
        · cases hfound
        next hcheck =>
          exact ⟨applyEdits_touches hfound,
            applyEdits_texts hfound (precheckEdits_nodup hcheck).1⟩

/-- A task that resumes the candidate is not rejected for another baseline. Each copy of
the workspace holds what the workspace holds, and becomes its staging copy with exactly
the candidate's edits applied. -/
def Resumes (cfg : Config) (artifact : PatchArtifact) (writeScope : List String) (s : EvoCIState)
    (workspace : Files) : Prop :=
  s.workerBaselineId = some artifact.baselineSnapshotId ∧
    ∀ (c : Copying) (staging : Snapshot), Lists workspace c.scandir →
      saveBatchSnapshot c workspace cfg.root = .saved staging →
      SameManaged cfg.root staging.tree workspace ∧ ∃ files,
        resumeStaging cfg (fun _ => false) artifact s writeScope staging.tree = .staged files ∧
          HasEdits cfg artifact.edits staging.tree files

/-- Where copies hold what the workspace holds, the candidate is resumed when it has the
baseline of the task, and a copy takes its edits. -/
theorem resumes_iff {cfg : Config} {artifact : PatchArtifact} {writeScope : List String}
    {s : EvoCIState} {workspace : Files} {c : Copying} {snapshot : Snapshot}
    (hlists : Lists workspace c.scandir)
    (hsave : saveBatchSnapshot c workspace cfg.root = .saved snapshot)
    (hholds : ∀ (c : Copying) (staging : Snapshot), Lists workspace c.scandir →
      saveBatchSnapshot c workspace cfg.root = .saved staging →
      SameManaged cfg.root staging.tree workspace)
    (hgit : LeavesGit cfg.root artifact.edits) :
    Resumes cfg artifact writeScope s workspace ↔
      s.workerBaselineId = some artifact.baselineSnapshotId ∧
        TakesEdits cfg writeScope artifact.edits snapshot.tree := by
  have hsame : s.workerBaselineId = some artifact.baselineSnapshotId → ∀ staging,
      resumeStaging cfg (fun _ => false) artifact s writeScope staging =
        resumeIn cfg (fun _ => false) artifact writeScope staging := by
    intro hid staging
    simp [resumeStaging, hid]
  constructor
  · rintro ⟨hid, hresumes⟩
    obtain ⟨-, files, hstaged, -⟩ := hresumes c snapshot hlists hsave
    rw [hsame hid] at hstaged
    exact ⟨hid, resumeIn_staged_iff.mp ⟨files, hstaged⟩⟩
  · rintro ⟨hid, hallowed, files, hfiles⟩
    refine ⟨hid, fun c staging hstaging hcopy => ?_⟩
    have hheld := hholds c staging hstaging hcopy
    have hmanaged : SameManaged cfg.root snapshot.tree staging.tree := by
      intro l hl
      rw [hheld l hl, hholds _ _ hlists hsave l hl]
    obtain ⟨files', hfiles'⟩ := (alike_of_saved hsave hcopy hmanaged).integrateEdits hgit hfiles
    obtain ⟨found, hfound⟩ := resumeIn_staged_iff.mpr ⟨hallowed, files', hfiles'⟩
    rw [hsame hid]
    exact ⟨hheld, found, hfound, resumeIn_staged hfound⟩

/-! ## Preparing and rolling back -/

/-- One execution of `prepare_task` takes the snapshot for its task, with the Git commands
run at `time`, and is checkpointed. -/
structure Prepares (cfg : Config) (tool : GitTool) (env : NodeEnv) (time : Nat) (r : GraphRun)
    (s : EvoCIState) (w : World) : Prop where
  node : r.node = some .prepareTask
  fresh : r.world.snapshots r.state.supervisorBatch = none
  done : runNode cfg env r.interrupt .prepareTask r.state r.world = .done s w
  next : afterPrepare cfg s = .worker
  git : env.copying.gitMetadata =
    independentGit cfg tool r.world.files (copied cfg env r.world.files) time
  tree : IsTree r.world.files cfg.root
  lists : Lists r.world.files env.copying.scandir

/-- A verified candidate is rolled back, and the run goes on. -/
structure RollsBack (cfg : Config) (env : NodeEnv) (r : GraphRun) (s : EvoCIState) (w : World) :
    Prop where
  node : r.node = some .rollback
  verified : r.state.phase = some .verify
  done : runNode cfg env r.interrupt .rollback r.state r.world = .done s w
  next : afterRollback cfg s = .supervise
  tree : IsTree r.world.files cfg.root
  iterdir : Lists r.world.files env.restoring.iterdir
  scandir : ∀ snapshot, r.world.snapshots r.state.supervisorBatch = some snapshot →
    Lists snapshot.tree env.restoring.scandir

/-- Nobody changes the workspace, no copy of it is cut short, and what a candidate
changes is undone by restoring the snapshot of its batch. -/
def StaysPut (cfg : Config) : Action → GraphRun → Prop
  | .execute env, r =>
    (r.node = some .prepareTask → IsTree r.world.files cfg.root ∧
      Lists r.world.files env.copying.scandir ∧
      (r.world.snapshots r.state.supervisorBatch = none →
        ∃ snapshot, saveBatchSnapshot env.copying r.world.files cfg.root = .saved snapshot)) ∧
    (r.node = some .rollback → restoresAttempt r.state = false ∧
      IsTree r.world.files cfg.root ∧ Lists r.world.files env.restoring.iterdir ∧
      ∀ snapshot, r.world.snapshots r.state.supervisorBatch = some snapshot →
        Lists snapshot.tree env.restoring.scandir)
  | .modify _, _ => False
  | _, _ => True

theorem prepareTask_saved {cfg : Config} {env : NodeEnv} {s s' : EvoCIState} {w w' : World}
    (h : prepareTask cfg env s w = .done s' w') (hnext : afterPrepare cfg s' = .worker)
    (hfresh : w.snapshots s.supervisorBatch = none) :
    ∃ snapshot task, saveBatchSnapshot env.copying w.files cfg.root = .saved snapshot ∧
      s' = preparePrepared s task (workspaceSnapshotId cfg snapshot.tree) ∧
      w' = w.withSnapshot s.supervisorBatch (some snapshot) := by
  obtain ⟨hrunning, task, htask⟩ := afterPrepare_worker hnext
  unfold prepareTask at h
  split at h
  · cases h
    exact absurd rfl hrunning
  · split at h
    · cases h
      exact absurd rfl hrunning
    · split at h
      · cases h
        exact absurd rfl hrunning
      · split at h
        · cases h
          exfalso
          unfold prepareRejected at hrunning htask
          split at htask
          · cases htask
          next hused => simp [hused, prepareFailure] at hrunning
        · cases h
        next task _ =>
          unfold prepareSnapshot at h
          rw [hfresh] at h
          simp only at h
          split at h
          next snapshot hsaved =>
            cases h
            exact ⟨snapshot, task, hsaved, rfl, rfl⟩
          · cases h
            exact absurd rfl hrunning
          · cases h

/-- A snapshot that was taken stays what it is. -/
theorem runNode_snapshot (cfg : Config) (env : NodeEnv) (interrupt : Interrupt) (node : Node)
    {s : EvoCIState} {w : World} {batch : Nat} {snapshot : Snapshot}
    (h : w.snapshots batch = some snapshot) :
    (runNode cfg env interrupt node s w).world.snapshots batch = some snapshot := by
  rw [runNode_world]
  by_cases hprepare : node = .prepareTask
  · subst hprepare
    show (prepareTask cfg env s w).world.snapshots batch = _
    rcases prepareTask_world cfg env s w with hsame | ⟨hnone, stored, hstored⟩
    · rw [hsame, h]
    · have hne : batch ≠ s.supervisorBatch := by
        rintro rfl
        rw [h] at hnone
        cases hnone
      rw [hstored]
      simp [World.withSnapshot, hne, h]
  · by_cases happly : node = .applyCandidate
    · subst happly
      show (applyCandidate cfg env s w).world.snapshots batch = _
      rcases applyCandidate_world cfg env s w with hsame | ⟨_, _, a, hplan, hafter⟩
      · rw [hsame, h]
      · rw [hafter, ← h]
        exact congrFun (obtainPlan_ready hplan).2.1 batch
    · rw [(nodeOutcome_stores cfg env interrupt s w hprepare happly).1, h]

theorem snapshot_kept {cfg : Config} {batch : Nat} {snapshot : Snapshot} (r : GraphRun) (a : Action)
    (h : r.world.snapshots batch = some snapshot) :
    (act cfg a r).world.snapshots batch = some snapshot := by
  cases a with
  | answer decision =>
    simp only [act]
    split <;> exact h
  | restart => exact h
  | modify files => exact h
  | execute env =>
    simp only [act, GraphRun.execute]
    cases hn : r.node with
    | none => exact h
    | some node =>
      simp only
      have houtcome := runNode_snapshot cfg env r.interrupt node (s := r.state) h
      cases hout : runNode cfg env r.interrupt node r.state r.world with
      | _ =>
        rw [hout] at houtcome
        exact houtcome

/-! ## What stays from batch to batch -/

/-- Only these nodes touch the workspace. -/
theorem nodeOutcome_files (cfg : Config) (env : NodeEnv) (interrupt : Interrupt) {node : Node}
    (s : EvoCIState) (w : World) (happly : node ≠ .applyCandidate) (hverify : node ≠ .verify)
    (hrollback : node ≠ .rollback) :
    (nodeOutcome cfg env interrupt node s w).world.files = w.files := by
  cases node with
  | applyCandidate => exact absurd rfl happly
  | verify => exact absurd rfl hverify
  | rollback => exact absurd rfl hrollback
  | retrieveContext => rfl
  | prepareTask =>
    rcases prepareTask_world cfg env s w with hsame | ⟨-, snapshot, hstored⟩
    · exact congrArg World.files hsame
    · have hfiles := congrArg World.files hstored
      exact hfiles
  | bootstrap =>
    simp only [nodeOutcome, bootstrap]
    split <;> rfl
  | supervise =>
    simp only [nodeOutcome, supervise, superviseRetry]
    repeat' split
    all_goals rfl
  | worker =>
    simp only [nodeOutcome, worker]
    repeat' split
    all_goals rfl
  | approval =>
    simp only [nodeOutcome, approval]
    repeat' split
    all_goals rfl
  | finalize =>
    simp only [nodeOutcome, finalize, persistRunOutcome]
    repeat' split
    all_goals rfl
  | failed =>
    simp only [nodeOutcome, failed, persistRunOutcome]
    repeat' split
    all_goals rfl

/-- The first execution in a batch stores what it saves. -/
theorem prepareTask_stored (cfg : Config) (env : NodeEnv) (s : EvoCIState) (w : World) :
    (prepareTask cfg env s w).world = w ∨ w.snapshots s.supervisorBatch = none ∧
      (prepareTask cfg env s w).world = w.withSnapshot s.supervisorBatch
        (saveBatchSnapshot env.copying w.files cfg.root).left := by
  unfold prepareTask
  repeat' split
  all_goals first
    | exact .inl rfl
    | skip
  unfold prepareSnapshot
  split
  · exact .inl rfl
  next hnone =>
    refine .inr ⟨hnone, ?_⟩
    cases saveBatchSnapshot env.copying w.files cfg.root <;> rfl

/-- The nodes at which no candidate is applied. -/
def Node.betweenCandidates : Node → Bool
  | .bootstrap | .retrieveContext | .supervise | .prepareTask | .worker | .approval => true
  | _ => false

/-- Since a batch every snapshot holds the same tree, and so does the workspace
while no candidate is applied. -/
structure SettledSince (cfg : Config) (tree : Files) (batch : Nat) (r : GraphRun) : Prop where
  since : batch ≤ r.state.supervisorBatch
  snapshots : ∀ other snapshot, batch ≤ other → r.world.snapshots other = some snapshot →
    SameManaged cfg.root snapshot.tree tree
  files : ∀ node ∈ r.node, node.betweenCandidates = true →
    SameManaged cfg.root r.world.files tree

section Kept

variable {cfg : Config} {tree : Files} {batch : Nat} {r : GraphRun} {env : NodeEnv} {node : Node}
  {outcome : Outcome}

/-- A snapshot stored by an execution holds the tree. -/
theorem SettledSince.snapshots_after (h : SettledSince cfg tree batch r)
    (htree : Storable cfg.root tree)
    (hok : StaysPut cfg (.execute env) r) (hnode : r.node = some node)
    (hrun : runNode cfg env r.interrupt node r.state r.world = outcome) :
    ∀ other snapshot, batch ≤ other → outcome.world.snapshots other = some snapshot →
      SameManaged cfg.root snapshot.tree tree := by
  intro other snapshot hle hsnapshot
  have hworld := runNode_world cfg env r.interrupt node r.state r.world
  rw [hrun] at hworld
  rw [hworld] at hsnapshot
  by_cases hprepare : node = .prepareTask
  · subst hprepare
    have hfound : (prepareTask cfg env r.state r.world).world.snapshots other = some snapshot :=
      hsnapshot
    obtain ⟨hroot, hlists, hsaves⟩ := hok.1 hnode
    rcases prepareTask_stored cfg env r.state r.world with hsame | ⟨hnone, hstored⟩
    · rw [hsame] at hfound
      exact h.snapshots other snapshot hle hfound
    · obtain ⟨saved, hsaved⟩ := hsaves hnone
      rw [hstored, hsaved] at hfound
      simp only [World.withSnapshot] at hfound
      split at hfound
      · cases hfound
        have hfiles := h.files .prepareTask hnode rfl
        intro l hl
        rw [saved_of_plain hroot hlists hsaved (htree.congr hfiles).plain hl, hfiles l hl]
      · exact h.snapshots other snapshot hle hfound
  · by_cases happly : node = .applyCandidate
    · subst happly
      have hfound : (applyCandidate cfg env r.state r.world).world.snapshots other =
        some snapshot := hsnapshot
      rcases applyCandidate_world cfg env r.state r.world with hsame | ⟨_, _, a, hplan, hafter⟩
      · rw [hsame] at hfound
        exact h.snapshots other snapshot hle hfound
      · rw [hafter] at hfound
        have hkept := congrFun (obtainPlan_ready hplan).2.1 other
        exact h.snapshots other snapshot hle (hkept.symm.trans hfound)
    · rw [(nodeOutcome_stores cfg env r.interrupt r.state r.world hprepare happly).1] at hsnapshot
      exact h.snapshots other snapshot hle hsnapshot

theorem SettledSince.files_after (h : SettledSince cfg tree batch r) (hnode : r.node = some node)
    (hbetween : node.betweenCandidates = true)
    (hrun : runNode cfg env r.interrupt node r.state r.world = outcome) :
    SameManaged cfg.root outcome.world.files tree := by
  have hworld := runNode_world cfg env r.interrupt node r.state r.world
  rw [hrun] at hworld
  rw [hworld, nodeOutcome_files]
  · exact h.files node hnode hbetween
  all_goals
    rintro rfl
    cases hbetween

/-- A rollback that goes on has brought the tree back. -/
theorem rollback_brings_back {s : EvoCIState} {w : World} (hprepared : Prepared cfg r)
    (hnode : r.node = some .rollback)
    (hrun : runNode cfg env r.interrupt .rollback r.state r.world = .done s w)
    (hnext : afterRollback cfg s = .supervise) (hwhole : restoresAttempt r.state = false)
    (hroot : IsTree r.world.files cfg.root) (hiter : Lists r.world.files env.restoring.iterdir)
    (hscan : ∀ snapshot, r.world.snapshots r.state.supervisorBatch = some snapshot →
      Lists snapshot.tree env.restoring.scandir)
    (hsnapshots : ∀ snapshot, r.world.snapshots r.state.supervisorBatch = some snapshot →
      SameManaged cfg.root snapshot.tree tree)
    (htree : Storable cfg.root tree) : SameManaged cfg.root w.files tree := by
  have hat := hprepared.current _ hnode rfl
  obtain ⟨snapshot, hsnapshot, -⟩ := hat.taken
  have hsame := hsnapshots snapshot hsnapshot
  have hrestore : rollbackFiles cfg env r.state r.world =
      restoreBatchSnapshot env.restoring r.world.files cfg.root (some snapshot) := by
    unfold rollbackFiles
    rw [hwhole, hat.path]
    simp [restoreSnapshot, hsnapshot]
  obtain ⟨hw, ⟨hnone, -⟩ | ⟨e, -, rfl⟩⟩ := rollback_done (runNode_done hrun)
  · rw [hrestore] at hnone hw
    rw [hw]
    intro l hl
    rw [← hsame l hl]
    exact restore_holds hroot hiter (hscan snapshot hsnapshot) (htree.congr hsame).parents
      (Prod.ext rfl hnone) hl
  · simp [afterRollback, rollbackFailed] at hnext

end Kept

theorem settled_kept {cfg : Config} {tree : Files} {batch : Nat} (htree : Storable cfg.root tree)
    (r : GraphRun) (a : Action) (hok : StaysPut cfg a r ∧ Prepared cfg r)
    (h : SettledSince cfg tree batch r) : SettledSince cfg tree batch (act cfg a r) := by
  refine @kept_of_worlds cfg (fun a r => StaysPut cfg a r ∧ Prepared cfg r)
    (SettledSince cfg tree batch) ?_ ?_ ?_ ?_ ?_ r a hok h
  · intro r interrupt hr
    exact ⟨hr.since, hr.snapshots, hr.files⟩
  · intro r hr
    exact ⟨hr.since, hr.snapshots, hr.files⟩
  · intro r files hok _
    exact hok.1.elim
  · intro r env node s w ⟨hok, hprepared⟩ hr hnode hrun
    refine ⟨?_, hr.snapshots_after htree hok hnode hrun, ?_⟩
    · have hsince := hr.since
      show batch ≤ s.supervisorBatch
      rcases batch_done hrun with heq | ⟨-, heq, -⟩ <;> omega
    · intro next hnext hbetween
      have hedge := route_mem_edges hnext
      by_cases hrollback : node = .rollback
      · subst hrollback
        have hsupervise : next = .supervise := by
          cases next <;> revert hedge hbetween <;> decide
        subst hsupervise
        obtain ⟨hwhole, hroot, hiter, hscan⟩ := hok.2 hnode
        exact rollback_brings_back hprepared hnode hrun (Option.some.inj hnext) hwhole hroot hiter
          hscan (fun snapshot => hr.snapshots _ snapshot hr.since) htree
      · refine hr.files_after hnode ?_ hrun
        cases node <;> first
          | rfl
          | exact absurd rfl hrollback
          | (cases next <;> revert hedge hbetween <;> decide)
  · intro r env node outcome ⟨hok, _⟩ hr hnode hrun _
    refine ⟨hr.since, hr.snapshots_after htree hok hnode hrun, ?_⟩
    intro next hnext hbetween
    have heq : next = node := by
      have hnext : r.node = some next := hnext
      rw [hnode] at hnext
      exact (Option.some.inj hnext).symm
    subst heq
    exact hr.files_after hnode hbetween hrun

/-! ## From the batch of a candidate to a later one -/

theorem restoresAttempt_of_verified {s : EvoCIState} (h : s.phase = some .verify) :
    restoresAttempt s = false := by
  simp [restoresAttempt, h]

/-- The rollback of a verified candidate leaves a settled run. -/
theorem settled_of_rollsBack {cfg : Config} {r : GraphRun} (hreached : Reached cfg r)
    {env : NodeEnv} {s : EvoCIState} {w : World} (hback : RollsBack cfg env r s w)
    {snapshot : Snapshot} (hsnapshot : r.world.snapshots r.state.supervisorBatch = some snapshot)
    (hstorable : Storable cfg.root snapshot.tree) :
    SettledSince cfg snapshot.tree r.state.supervisorBatch (r.execute cfg env) := by
  have hkept : (act cfg (.execute env) r).world.snapshots r.state.supervisorBatch = some snapshot :=
    snapshot_kept r (.execute env) hsnapshot
  have hafter : Reached cfg (act cfg (.execute env) r) := hreached.run [.execute env]
  have hprepared := prepared_of_reached hafter
  have hbatches := batches_of_reached hafter
  have hstate : (act cfg (.execute env) r).state = s := by
    simp [act, GraphRun.execute, hback.node, hback.done, GraphRun.advance]
  have hfiles : (act cfg (.execute env) r).world = w := by
    simp [act, GraphRun.execute, hback.node, hback.done, GraphRun.advance]
  have hbatch : s.supervisorBatch = r.state.supervisorBatch :=
    (inBatch_done hback.done rfl).1
  refine ⟨?_, ?_, ?_⟩
  · show _ ≤ (act cfg (.execute env) r).state.supervisorBatch
    rw [hstate]
    omega
  · intro other found hle hfound
    obtain ⟨e, he, -, hbefore, -⟩ := hprepared.taken other found hfound
    have hpast := hbatches.past e he
    rw [hstate] at hpast
    have heq : other = r.state.supervisorBatch := by omega
    subst heq
    have hfound : (act cfg (.execute env) r).world.snapshots r.state.supervisorBatch =
      some found := hfound
    rw [hkept] at hfound
    cases hfound
    exact fun _ _ => rfl
  · intro node _ _
    show SameManaged cfg.root (act cfg (.execute env) r).world.files snapshot.tree
    rw [hfiles]
    refine rollback_brings_back (prepared_of_reached hreached) hback.node hback.done hback.next
      (restoresAttempt_of_verified hback.verified) hback.tree hback.iterdir hback.scandir ?_
      hstorable
    intro found hfound
    rw [hsnapshot] at hfound
    cases hfound
    exact fun _ _ => rfl

section Later

variable {cfg : Config} {tool : GitTool} {first back ahead later : GraphRun}
  {env env' env'' : NodeEnv} {time time' : Nat} {s s' s'' : EvoCIState} {w w' w'' : World}
  {actions actions' : List Action}

end Later

namespace Sample

/-! ## A candidate of two batches -/

/-- The sample workspace with its repository. -/
def repository : Files := fun l => if l = gitDir ∨ l = headFile then headAt "0a" l else files l

def gitListing : Loc → List String := fun l =>
  if l = [] then ["w"] else if l = root then [".git", "a"] else if l = gitDir then ["HEAD"] else []

/-- A copy of the workspace made at this time. -/
def preparing (scandir : Loc → List String) (workspace : Files) (time : Nat) : NodeEnv where
  copying := ⟨scandir, 4, none, independentGit (gitConfig 2) gitTool workspace
    (applyEffects (copyTree 0o022 workspace scandir isIgnored 4 root root).1 noFiles) time, 0o022⟩

/-- The first batch is about to be prepared. -/
def firstBatch (workspace : Files) : GraphRun :=
  Run.run (act (gitConfig 2)) (GraphRun.start [["test"]] workspace 9 9)
    [.execute {}, .execute {},
      .execute { decide := .returned (dispatch (task "t") t_valid) }]

def prepared (scandir : Loc → List String) (workspace : Files) : GraphRun :=
  (firstBatch workspace).execute (gitConfig 2) (preparing scandir workspace 1)

/-- Its candidate failed its verification. -/
def rejected (scandir : Loc → List String) (workspace : Files) : GraphRun :=
  Run.run (act (gitConfig 2)) (prepared scandir workspace)
    [.execute { execute := .returned (repair "t" [edit]) }, .execute {}, .execute {}, verifying 1]

def restoringWith (scandir : Loc → List String) : NodeEnv where
  restoring := ⟨scandir, scandir, 4, none, 0o022⟩

/-- The candidate was rolled back, and the second batch is about to be prepared. -/
def secondBatch (scandir : Loc → List String) (workspace : Files) : GraphRun :=
  Run.run (act (gitConfig 2))
    ((rejected scandir workspace).execute (gitConfig 2) (restoringWith scandir))
    [.execute { decide := .returned (dispatch (task "u") u_valid) }]

def preparedAgain (scandir : Loc → List String) (workspace : Files) : GraphRun :=
  (secondBatch scandir workspace).execute (gitConfig 2)
    (preparing scandir (secondBatch scandir workspace).world.files 2)

/-- The workspace after the candidate was applied. -/
def written : Files :=
  (repository.mkdirParents ["w", "a"]).put ["w", "a"] (.file (.utf8 "new") 0o644)

theorem rejected_files : (rejected gitListing repository).world.files = written := by
  with_unfolding_all rfl

theorem secondBatch_files : (secondBatch gitListing repository).world.files =
    applyEffects ([.removeTree ["w", "a"]] ++ copyFile 0o022 ["w", "a"] (.utf8 "old") 0o644)
      written := by
  with_unfolding_all rfl

/-- Where the sample repository has entries. -/
def locations : List Loc := [root, gitDir, headFile, ["w", "a"]]

/-- A tree with the entries of the sample repository. -/
structure LaidOut (tree : Files) : Prop where
  entries : ∀ l, l ≠ [] → (tree l ≠ none ↔ l ∈ locations)
  top : ∃ mode, tree root = some (.dir mode)
  git : ∃ mode, tree gitDir = some (.dir mode)

theorem LaidOut.isTree {tree : Files} (h : LaidOut tree) : IsTree tree root := by
  refine ⟨h.top, fun l name hbelow hentry => ?_⟩
  have hin := (h.entries _ (by simp)).mp hentry
  simp only [locations, List.mem_cons, List.not_mem_nil, or_false] at hin
  rcases hin with heq | heq | heq | heq
  · have hl : l = [] := (List.append_inj' (show l ++ [name] = [] ++ ["w"] from heq) rfl).1
    rw [hl] at hbelow
    exact absurd hbelow (by decide)
  · have hl : l = root := (List.append_inj' (show l ++ [name] = root ++ [".git"] from heq) rfl).1
    rw [hl]
    exact h.top
  · have hl : l = gitDir :=
      (List.append_inj' (show l ++ [name] = gitDir ++ ["HEAD"] from heq) rfl).1
    rw [hl]
    exact h.git
  · have hl : l = root := (List.append_inj' (show l ++ [name] = root ++ ["a"] from heq) rfl).1
    rw [hl]
    exact h.top

theorem LaidOut.lists {tree : Files} (h : LaidOut tree) : Lists tree gitListing := by
  intro l
  constructor
  · simp only [gitListing]
    repeat' split
    all_goals decide
  · intro name
    rw [h.entries _ (by simp)]
    simp only [locations, List.mem_cons, List.not_mem_nil, or_false]
    constructor
    · intro hin
      unfold gitListing at hin
      split at hin
      next hl => subst hl; simp at hin; subst hin; decide
      · split at hin
        next hl => subst hl; simp at hin; rcases hin with rfl | rfl <;> decide
        · split at hin
          next hl => subst hl; simp at hin; subst hin; decide
          · cases hin
    · rintro (heq | heq | heq | heq)
      · obtain ⟨rfl, hname⟩ := List.append_inj' (show l ++ [name] = [] ++ ["w"] from heq) rfl
        cases hname
        decide
      · obtain ⟨rfl, hname⟩ := List.append_inj' (show l ++ [name] = root ++ [".git"] from heq) rfl
        cases hname
        decide
      · obtain ⟨rfl, hname⟩ :=
          List.append_inj' (show l ++ [name] = gitDir ++ ["HEAD"] from heq) rfl
        cases hname
        decide
      · obtain ⟨rfl, hname⟩ := List.append_inj' (show l ++ [name] = root ++ ["a"] from heq) rfl
        cases hname
        decide

theorem repository_laidOut : LaidOut repository := by
  refine ⟨fun l _ => ?_, ⟨0o755, rfl⟩, ⟨0o755, rfl⟩⟩
  simp only [locations, List.mem_cons, List.not_mem_nil, or_false, repository, headAt, files, root,
    gitDir, headFile]
  constructor
  · intro h
    by_contra hnot
    simp only [not_or] at hnot
    simp [hnot] at h
  · rintro (rfl | rfl | rfl | rfl) <;> decide

/-- A tree that differs from the repository in the content of the file only. -/
theorem laidOut_of_repository {tree : Files} (hfile : tree ["w", "a"] ≠ none)
    (hrest : ∀ l, l ≠ [] → l ≠ ["w", "a"] → tree l = repository l) : LaidOut tree := by
  refine ⟨fun l hl => ?_, ⟨0o755, ?_⟩, ⟨0o755, ?_⟩⟩
  · by_cases ha : l = ["w", "a"]
    · rw [ha]
      exact ⟨fun _ => by decide, fun _ => hfile⟩
    · rw [hrest l hl ha]
      exact repository_laidOut.entries l hl
  · rw [hrest root (by decide) (by decide)]
    rfl
  · rw [hrest gitDir (by decide) (by decide)]
    rfl

theorem written_rest (l : Loc) (hl : l ≠ []) (ha : l ≠ ["w", "a"]) : written l = repository l := by
  unfold written
  rw [Files.put_of_ne _ _ ha, Files.mkdirParents]
  by_cases htop : l = ["w"]
  · subst htop
    rfl
  · have hnot : ¬ l <+: ["w", "a"] := by
      intro hp
      have hin := List.mem_inits _ _ |>.mpr hp
      simp [List.inits, hl, ha, htop] at hin
    simp [hnot]

theorem secondBatch_rest (l : Loc) (hl : l ≠ []) (ha : l ≠ ["w", "a"]) :
    (secondBatch gitListing repository).world.files l = repository l := by
  rw [secondBatch_files, applyEffects]
  by_cases hbelow : ["w", "a"] <+: l
  · obtain ⟨rel, rfl⟩ := hbelow
    have hrel : rel ≠ [] := by
      rintro rfl
      exact ha rfl
    simp [effectsOn, copyFile, TreeEffect.on, hrel, repository, files, gitDir, headFile]
  · rw [← written_rest l hl ha]
    simp [effectsOn, copyFile, TreeEffect.on, ha, hbelow]

/-- The first batch's snapshot. -/
def stored : Snapshot := withGit root
  (copyTree 0o022 repository gitListing isIgnored 4 root root).1
    (preparing gitListing repository 1).copying.gitMetadata

theorem rejected_snapshots : (rejected gitListing repository).world.snapshots 1 = some stored := by
  with_unfolding_all rfl

theorem stored_rest (l : Loc) (hl : l ≠ []) (ha : l ≠ ["w", "a"]) :
    stored.tree l = repository l := by
  have hcopy : (copyTree 0o022 repository gitListing isIgnored 4 root root).1 =
      .makeDir root :: copyFile 0o022 ["w", "a"] (.utf8 "old") 0o644 ++ [.chmod root 0o755] := by
    decide
  have hgit : (preparing gitListing repository 1).copying.gitMetadata =
      gitTool.detach (0, "0a\n") (subtree repository gitDir) noFiles := by
    with_unfolding_all rfl
  have hlink : ∀ target, repository l ≠ some (.link target) := by
    intro target
    simp only [repository, headAt, files]
    repeat' split
    all_goals simp
  simp only [stored, withGit, hcopy, hgit]
  split
  next hbelow =>
    have hbelow : gitDir <+: l := hbelow
    by_cases hhead : l = headFile
    · subst hhead
      decide
    · have hsame : gitTool.detach (0, "0a\n") (subtree repository gitDir) noFiles l =
          repository l := by
        simp [gitTool, hhead, subtree, hbelow]
      rw [hsame]
      split
      next target htarget => exact absurd htarget (hlink target)
      · rfl
  next hbelow =>
    have hgitDir : l ≠ gitDir := by
      rintro rfl
      exact hbelow (by decide)
    have hhead : l ≠ headFile := by
      rintro rfl
      exact hbelow (by decide)
    by_cases hroot : l = root
    · subst hroot
      decide
    · simp [applyEffects, effectsOn, copyFile, TreeEffect.on, ha, hroot, repository, hgitDir,
        hhead, noFiles, files, show l ≠ ["w"] from hroot]

theorem execute_done {cfg : Config} {r : GraphRun} {env : NodeEnv} {node : Node}
    (hnode : r.node = some node)
    (hdone : (runNode cfg env r.interrupt node r.state r.world).isDone = true) :
    runNode cfg env r.interrupt node r.state r.world =
      .done (r.execute cfg env).state (r.execute cfg env).world := by
  cases hout : runNode cfg env r.interrupt node r.state r.world with
  | done s w => simp [GraphRun.execute, hnode, hout, GraphRun.advance]
  | interrupted w => rw [hout] at hdone; cases hdone
  | raised e w => rw [hout] at hdone; cases hdone
  | killed w => rw [hout] at hdone; cases hdone

/-- The run over the repository, node by node. -/
@[mk_iff]
structure RepositoryRun : Prop where
  preparesFirst : (firstBatch repository).node = some .prepareTask
  firstDone : (runNode (gitConfig 2) (preparing gitListing repository 1)
    (firstBatch repository).interrupt .prepareTask (firstBatch repository).state
    (firstBatch repository).world).isDone = true
  firstWorks : afterPrepare (gitConfig 2) (prepared gitListing repository).state = .worker
  inFirst : (rejected gitListing repository).state.supervisorBatch =
    (prepared gitListing repository).state.supervisorBatch
  rollsBack : (rejected gitListing repository).node = some .rollback
  verified : (rejected gitListing repository).state.phase = some .verify
  ofFirst : (rejected gitListing repository).state.supervisorBatch = 1
  rollbackDone : (runNode (gitConfig 2) (restoringWith gitListing)
    (rejected gitListing repository).interrupt .rollback (rejected gitListing repository).state
    (rejected gitListing repository).world).isDone = true
  goesOn : afterRollback (gitConfig 2) ((rejected gitListing repository).execute (gitConfig 2)
    (restoringWith gitListing)).state = .supervise
  supervises : ((rejected gitListing repository).execute (gitConfig 2)
    (restoringWith gitListing)).node = some .supervise
  fileBack : (secondBatch gitListing repository).world.files ["w", "a"] ≠ none
  fileStored : stored.tree ["w", "a"] ≠ none
  preparesSecond : (secondBatch gitListing repository).node = some .prepareTask
  secondDone : (runNode (gitConfig 2)
    (preparing gitListing (secondBatch gitListing repository).world.files 2)
    (secondBatch gitListing repository).interrupt .prepareTask
    (secondBatch gitListing repository).state
    (secondBatch gitListing repository).world).isDone = true
  secondWorks : afterPrepare (gitConfig 2) (preparedAgain gitListing repository).state = .worker
  gitFirst : gitEntry repository root = some (gitDir, .dir 0o755)
  gitSecond : gitEntry (secondBatch gitListing repository).world.files root =
    some (gitDir, .dir 0o755)
  sameHead : revParse (gitConfig 2) (firstBatch repository).world.files =
    revParse (gitConfig 2) (secondBatch gitListing repository).world.files
  keepsHead : preservesHead (gitConfig 2) (firstBatch repository).world.files = true
  editAt : noFiles.boundaryResolve (gitConfig 2).root edit.path = .ok ["w", "a"]
  inScope : assertEditsAllowed ["a"] [edit] = .ok ()
  applies : (stored.tree.integrateEdits (fun content => (gitConfig 2).sha256 content.bytes)
    (fun _ => false) (gitConfig 2).root [edit]).toOption.isSome = true

theorem secondBatch_laidOut (h : RepositoryRun) :
    LaidOut (secondBatch gitListing repository).world.files :=
  laidOut_of_repository h.fileBack secondBatch_rest

theorem first_prepares (h : RepositoryRun) : Prepares (gitConfig 2) gitTool
    (preparing gitListing repository 1) 1 (firstBatch repository)
    (prepared gitListing repository).state (prepared gitListing repository).world where
  node := h.preparesFirst
  fresh := rfl
  done := execute_done h.preparesFirst h.firstDone
  next := h.firstWorks
  git := rfl
  tree := repository_laidOut.isTree
  lists := repository_laidOut.lists

theorem second_prepares (h : RepositoryRun) : Prepares (gitConfig 2) gitTool
    (preparing gitListing (secondBatch gitListing repository).world.files 2) 2
    (secondBatch gitListing repository) (preparedAgain gitListing repository).state
    (preparedAgain gitListing repository).world where
  node := h.preparesSecond
  fresh := by with_unfolding_all rfl
  done := execute_done h.preparesSecond h.secondDone
  next := h.secondWorks
  git := rfl
  tree := (secondBatch_laidOut h).isTree
  lists := (secondBatch_laidOut h).lists

theorem first_rollsBack (h : RepositoryRun) : RollsBack (gitConfig 2) (restoringWith gitListing)
    (rejected gitListing repository)
    ((rejected gitListing repository).execute (gitConfig 2) (restoringWith gitListing)).state
    ((rejected gitListing repository).execute (gitConfig 2) (restoringWith gitListing)).world where
  node := h.rollsBack
  verified := h.verified
  done := execute_done h.rollsBack h.rollbackDone
  next := h.goesOn
  tree := by
    rw [rejected_files]
    exact (laidOut_of_repository (by decide) written_rest).isTree
  iterdir := by
    rw [rejected_files]
    exact (laidOut_of_repository (by decide) written_rest).lists
  scandir snapshot hsnapshot := by
    rw [h.ofFirst, rejected_snapshots] at hsnapshot
    cases hsnapshot
    exact (laidOut_of_repository h.fileStored stored_rest).lists

theorem git_unchanged (h : RepositoryRun) :
    GitUnchanged (gitConfig 2) (firstBatch repository).world.files
      (secondBatch gitListing repository).world.files := by
  refine ⟨h.gitFirst.trans h.gitSecond.symm, fun l entry hl => ?_,
    h.sameHead⟩
  have hdir : gitDir = l :=
    congrArg Prod.fst (Option.some.inj (h.gitFirst.symm.trans hl))
  subst hdir
  funext l
  show (if gitDir <+: l then repository l else none) = _
  unfold subtree
  by_cases hbelow : gitDir <+: l
  · have hl : l ≠ [] := by
      rintro rfl
      exact absurd hbelow (by decide)
    have ha : l ≠ ["w", "a"] := by
      rintro rfl
      exact absurd hbelow (by decide)
    rw [if_pos hbelow, if_pos hbelow, secondBatch_rest l hl ha]
  · rw [if_neg hbelow, if_neg hbelow]

theorem supervising_staysPut (h : RepositoryRun) :
    Run.Every (act (gitConfig 2)) (StaysPut (gitConfig 2))
      ((rejected gitListing repository).execute (gitConfig 2) (restoringWith gitListing))
      [.execute { decide := .returned (dispatch (task "u") u_valid) }] := by
  refine ⟨⟨fun hnode => ?_, fun hnode => ?_⟩, trivial⟩ <;>
  · rw [h.supervises] at hnode
    cases hnode

theorem edit_leavesGit (h : RepositoryRun) : LeavesGit (gitConfig 2).root [edit] := by
  intro other hother target htarget
  rw [List.mem_singleton.mp hother, h.editAt] at htarget
  cases htarget
  decide

theorem prepared_takesEdits (h : RepositoryRun) : ∃ snapshot,
    (prepared gitListing repository).world.snapshots
        (prepared gitListing repository).state.supervisorBatch = some snapshot ∧
      TakesEdits (gitConfig 2) ["a"] [edit] snapshot.tree := by
  have hstored : (prepared gitListing repository).world.snapshots
      (prepared gitListing repository).state.supervisorBatch = some stored := by
    with_unfolding_all rfl
  have hok := h.applies
  refine ⟨stored, hstored, h.inScope, ?_⟩
  cases hresult : stored.tree.integrateEdits (fun content => (gitConfig 2).sha256 content.bytes)
      (fun _ => false) (gitConfig 2).root [edit] with
  | error e =>
    rw [hresult] at hok
    cases hok
  | ok files => exact ⟨files, rfl⟩

theorem repositoryRun : RepositoryRun := by
  rw [repositoryRun_iff]
  decide +kernel

theorem preparedAgain_reached (scandir : Loc → List String) (workspace : Files) :
    Reached (gitConfig 2) (preparedAgain scandir workspace) := by
  have hfirst : Reached (gitConfig 2) (firstBatch workspace) := ⟨_, _, _, _, _, rfl⟩
  have hprepared : Reached (gitConfig 2) (prepared scandir workspace) :=
    hfirst.run [.execute (preparing scandir workspace 1)]
  have hrejected : Reached (gitConfig 2) (rejected scandir workspace) := hprepared.run _
  have hrestored := hrejected.run [.execute (restoringWith scandir)]
  have hsecond : Reached (gitConfig 2) (secondBatch scandir workspace) := hrestored.run _
  exact hsecond.run [.execute (preparing scandir (secondBatch scandir workspace).world.files 2)]

end Sample

end EvoCI
