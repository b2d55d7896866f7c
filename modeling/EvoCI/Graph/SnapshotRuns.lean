import EvoCI.Graph.CandidateResume

/-! What the snapshot of a batch brings back: a process can die while `prepare_task`
copies the workspace, and the directory it leaves is taken for the snapshot by every
later node of the batch. -/

namespace EvoCI

open Library

/-! ## What a copy has performed -/

/-- The effects before the copy stops. -/
def Copying.performed (c : Copying) (effects : List TreeEffect) : List TreeEffect :=
  match c.stop with
  | some (k, _) => effects.take k
  | none => effects

/-- The effects that it does not come to. -/
def Copying.unperformed (c : Copying) (effects : List TreeEffect) : List TreeEffect :=
  match c.stop with
  | some (k, _) => effects.drop k
  | none => []

theorem Copying.performed_append (c : Copying) (effects : List TreeEffect) :
    c.performed effects ++ c.unperformed effects = effects := by
  unfold performed unperformed
  split
  · exact List.take_append_drop _ _
  · exact List.append_nil _

theorem Copying.performed_eq_take (c : Copying) (effects : List TreeEffect) :
    ∃ k, c.performed effects = effects.take k := by
  unfold performed
  split
  next k _ _ => exact ⟨k, rfl⟩
  · exact ⟨effects.length, List.take_length.symm⟩

/-- The directory of the snapshot, however `save_batch_snapshot` ends. -/
theorem left_holds {c : Copying} {files : Files} {root : Loc} {snapshot : Snapshot}
    (h : (saveBatchSnapshot c files root).left = some snapshot) {l : Loc} (hl : Managed root l) :
    snapshot.tree l = effectsOn l
      (c.performed (copyTree c.umask files c.scandir isIgnored c.depth root root).1) none := by
  have hafter : ∀ effects, snapshotAfter effects = some snapshot →
      snapshot.tree l = effectsOn l effects none := by
    intro effects heffects
    cases effects with
    | nil => cases heffects
    | cons effect effects =>
      cases heffects
      rfl
  have hwhole : ∀ k, ¬ k < (copyTree c.umask files c.scandir isIgnored c.depth root root).1.length →
      (copyTree c.umask files c.scandir isIgnored c.depth root root).1.take k =
        (copyTree c.umask files c.scandir isIgnored c.depth root root).1 :=
    fun k hk => List.take_of_length_le (Nat.le_of_not_lt hk)
  unfold saveBatchSnapshot at h
  unfold Copying.performed
  simp only at h
  split at h
  next k hstop =>
    simp only [hstop]
    split at h
    · exact hafter _ h
    next hk =>
      rw [hwhole k hk]
      split at h
      · cases h
        exact withGit_managed _ _ _ hl
      · exact hafter _ h
  next k message hstop =>
    simp only [hstop]
    split at h
    · exact hafter _ h
    next hk =>
      rw [hwhole k hk]
      split at h
      · cases h
        exact withGit_managed _ _ _ hl
      · exact hafter _ h
  next hstop =>
    simp only [hstop]
    split at h
    · cases h
      exact withGit_managed _ _ _ hl
    · exact hafter _ h

/-- Without the effect the copy of a file of the tree is another one. -/
def TreeEffect.Completes (umask : Nat) (files : Files) : TreeEffect → Prop
  | .create loc _ => files.fileAt loc ≠ none
  | .fill loc content => files.fileAt loc ≠ none ∧ content ≠ emptyContent
  | .chmod loc mode => files.fileAt loc ≠ none ∧ mode ≠ createdMode umask
  | _ => False

/-- A file is copied unless the copy stops before an effect that completes it. -/
theorem copied_iff {umask : Nat} {files : Files} {l : Loc} {content : Content} {mode : Nat}
    (hfile : files l = some (.file content mode)) {before after : List TreeEffect}
    (hbefore : ∀ effect ∈ before, effect.target ≠ none)
    (h : targeting l (before ++ after) = copyFile umask l content mode) :
    effectsOn l before none = some (.file content mode) ↔
      ∀ effect ∈ after, effect.target = some l → ¬ effect.Completes umask files := by
  have hat : files.fileAt l = some (content, mode) := by simp [Files.fileAt, hfile]
  have hafter : (∀ effect ∈ after, effect.target = some l → ¬ effect.Completes umask files) ↔
      ∀ effect ∈ targeting l after, ¬ effect.Completes umask files := by
    simp [targeting]
  rw [hafter, effectsOn_targeting none hbefore]
  rw [targeting_append, copyFile] at h
  generalize targeting l before = done at h ⊢
  -- the copy of the file may stop after each of its three effects
  rcases done with _ | ⟨first, _ | ⟨second, _ | ⟨third, _ | ⟨fourth, more⟩⟩⟩⟩ <;>
    simp only [List.cons_append, List.nil_append, List.cons.injEq] at h
  · rw [h]
    simp [effectsOn, TreeEffect.Completes, hat]
  · obtain ⟨rfl, h⟩ := h
    rw [h]
    simp [effectsOn, TreeEffect.on, TreeEffect.Completes, hat, eq_comm]
  · obtain ⟨rfl, rfl, h⟩ := h
    rw [h]
    simp [effectsOn, TreeEffect.on, TreeEffect.Completes, hat, eq_comm]
  · obtain ⟨rfl, rfl, rfl, h⟩ := h
    rw [h]
    simp [effectsOn, TreeEffect.on]
  · simp at h

/-! ## Snapshots over runs -/

/-- A snapshot that an execution left is the batch's from then on. -/
def KeepsTaken (r : GraphRun) : Prop :=
  ∀ e ∈ r.history, ∀ batch snapshot, e.outcome.world.snapshots batch = some snapshot →
    r.world.snapshots batch = some snapshot

theorem keepsTaken_kept {cfg : Config} (r : GraphRun) (a : Action) (h : KeepsTaken r) :
    KeepsTaken (act cfg a r) := by
  have hexecuted : ∀ (r : GraphRun) env node outcome, KeepsTaken r →
      runNode cfg env r.interrupt node r.state r.world = outcome →
      ∀ e ∈ r.history ++ [⟨node, env, r.interrupt, r.state, r.world, outcome⟩], ∀ batch snapshot,
        e.outcome.world.snapshots batch = some snapshot →
        outcome.world.snapshots batch = some snapshot := by
    intro r env node outcome hr hrun e he batch snapshot hsnapshot
    rcases List.mem_append.mp he with he | he
    · have hnode := @runNode_snapshot cfg env r.interrupt node r.state _ _ _
        (hr e he batch snapshot hsnapshot)
      rwa [hrun] at hnode
    · rw [List.mem_singleton] at he
      subst he
      exact hsnapshot
  refine @kept_of_worlds cfg (fun _ _ => True) KeepsTaken ?_ ?_ ?_ ?_ ?_ r a trivial h
  · exact fun r interrupt hr => hr
  · exact fun r hr => hr
  · exact fun r files _ hr => hr
  · intro r env node s w _ hr _ hrun
    exact hexecuted r env node _ hr hrun
  · intro r env node outcome _ hr _ hrun _
    exact hexecuted r env node outcome hr hrun

theorem keepsTaken_of_reached {cfg : Config} {r : GraphRun} (h : Reached cfg r) : KeepsTaken r :=
  holds_of_reached (fun _ _ _ _ e he => by cases he) keepsTaken_kept h

/-- The execution that took a snapshot has copied the workspace it found. -/
theorem taken_left {cfg : Config} {r : GraphRun} (hreached : Reached cfg r) {e : NodeRun}
    (he : e ∈ r.history) {batch : Nat} {snapshot : Snapshot} (h : e.takes batch snapshot) :
    (saveBatchSnapshot e.env.copying e.world.files cfg.root).left = some snapshot := by
  obtain ⟨hnode, hbatch, hfresh, htaken⟩ := h
  have hrun := recorded_of_reached hreached e he
  have hworld := runNode_world cfg e.env e.interrupt e.node e.before e.world
  rw [← hrun, hnode] at hworld
  have hworld : e.outcome.world = (prepareTask cfg e.env e.before e.world).world := hworld
  rw [hworld] at htaken
  rcases prepareTask_stored cfg e.env e.before e.world with hsame | ⟨-, hstored⟩
  · rw [hsame, hfresh] at htaken
    cases htaken
  · rw [hstored, hbatch] at htaken
    simpa [World.withSnapshot] using htaken

/-! ## Rolled back batches -/

section Restored

variable {cfg : Config} {env : NodeEnv} {r : GraphRun} {e : NodeRun} {snapshot : Snapshot}
  {s : EvoCIState} {w : World} {files : Files}

/-- An execution of `prepare_task` took the snapshot of the run's batch, and found the
workspace as the file system shows it. -/
structure TakenBy (cfg : Config) (r : GraphRun) (e : NodeRun) (snapshot : Snapshot) : Prop where
  ran : e ∈ r.history
  takes : e.takes r.state.supervisorBatch snapshot
  tree : IsTree e.world.files cfg.root
  lists : Lists e.world.files e.env.copying.scandir

theorem TakenBy.stored (h : TakenBy cfg r e snapshot) (hreached : Reached cfg r) :
    r.world.snapshots r.state.supervisorBatch = some snapshot :=
  keepsTaken_of_reached hreached e h.ran _ _ h.takes.2.2.2

/-- `rollback`, or the exception handler of `verify`, puts the snapshot of its batch in
the place of the workspace, and nothing stops it. -/
structure BringsBack (cfg : Config) (env : NodeEnv) (r : GraphRun) (files : Files) : Prop where
  restored : r.node = some .rollback ∧ restoresAttempt r.state = false ∧
      rollbackFiles cfg env r.state r.world = (files, none) ∨
    r.node = some .verify ∧ verifyRestore cfg env r.state r.world = (files, none)
  tree : IsTree r.world.files cfg.root
  iterdir : Lists r.world.files env.restoring.iterdir
  scandir : ∀ snapshot, r.world.snapshots r.state.supervisorBatch = some snapshot →
    Lists snapshot.tree env.restoring.scandir

/-- It is the batch's own snapshot that is brought back. -/
theorem BringsBack.restores (h : BringsBack cfg env r files) (hreached : Reached cfg r)
    (htaken : TakenBy cfg r e snapshot) :
    restoreBatchSnapshot env.restoring r.world.files cfg.root (some snapshot) = (files, none) := by
  have hsnapshot := htaken.stored hreached
  have hprepared := prepared_of_reached hreached
  rcases h.restored with ⟨hnode, hwhole, hrestored⟩ | ⟨hnode, hrestored⟩
  · unfold rollbackFiles at hrestored
    rw [hwhole, (hprepared.current _ hnode rfl).path] at hrestored
    simpa [restoreSnapshot, hsnapshot] using hrestored
  · unfold verifyRestore at hrestored
    rw [(hprepared.current _ hnode rfl).path] at hrestored
    simpa [restoreSnapshot, hsnapshot] using hrestored

/-- The candidate of the batch failed its verification and is rolled back. -/
structure RolledBack (cfg : Config) (env : NodeEnv) (r : GraphRun) (s : EvoCIState) (w : World) :
    Prop where
  node : r.node = some .rollback
  verified : r.state.phase = some .verify
  done : runNode cfg env r.interrupt .rollback r.state r.world = .done s w
  restored : (rollbackFiles cfg env r.state r.world).2 = none
  tree : IsTree r.world.files cfg.root
  iterdir : Lists r.world.files env.restoring.iterdir
  scandir : ∀ snapshot, r.world.snapshots r.state.supervisorBatch = some snapshot →
    Lists snapshot.tree env.restoring.scandir

theorem RolledBack.bringsBack (h : RolledBack cfg env r s w) : BringsBack cfg env r w.files where
  restored := by
    obtain ⟨hw, -⟩ := rollback_done (runNode_done h.done)
    refine .inl ⟨h.node, restoresAttempt_of_verified h.verified, Prod.ext ?_ h.restored⟩
    rw [hw]
  tree := h.tree
  iterdir := h.iterdir
  scandir := h.scandir

/-- Rolling back a candidate brings the workspace back to what it was when the snapshot
was taken, exactly if it held neither links nor names that copies leave out. -/
theorem rolled_back_iff (hreached : Reached cfg r) (htaken : TakenBy cfg r e snapshot)
    (hsaved : saveBatchSnapshot e.env.copying e.world.files cfg.root = .saved snapshot)
    (hback : RolledBack cfg env r s w) :
    SameManaged cfg.root w.files e.world.files ↔ Plain e.world.files cfg.root :=
  restore_save_iff htaken.tree htaken.lists hsaved hback.tree hback.iterdir
    (hback.scandir snapshot (htaken.stored hreached)) (hback.bringsBack.restores hreached htaken)

/-! ## Snapshots cut short -/

/-- Every file of the workspace that restores manage is there, as it was. -/
def HoldsFiles (root : Loc) (workspace files : Files) : Prop :=
  ∀ l content mode, Managed root l → workspace l = some (.file content mode) →
    files l = some (.file content mode)

/-- The snapshot of the run's batch holds every file that the workspace had when `e`
began to copy it, and so does the workspace whenever the snapshot is brought back. -/
structure KeepsFiles (cfg : Config) (e : NodeRun) (r : GraphRun) : Prop where
  stored : ∀ snapshot, r.world.snapshots r.state.supervisorBatch = some snapshot →
    HoldsFiles cfg.root e.world.files snapshot.tree
  broughtBack : ∀ env files, BringsBack cfg env r files →
    HoldsFiles cfg.root e.world.files files

/-- The effects of the copy that an execution makes. -/
def NodeRun.copyEffects (cfg : Config) (e : NodeRun) : List TreeEffect :=
  (copyTree e.env.copying.umask e.world.files e.env.copying.scandir isIgnored
    e.env.copying.depth cfg.root cfg.root).1

/-- No file has an ignored name or lies too deep for the copy, and the copy does not stop
before the last file is completed. -/
structure CopiesFiles (cfg : Config) (e : NodeRun) : Prop where
  within : ∀ name rel content mode, isKept name = false →
    e.world.files (cfg.root ++ name :: rel) = some (.file content mode) →
    Unignored isIgnored (name :: rel) ∧ rel.length < e.env.copying.depth
  completed : ∀ effect ∈ e.env.copying.unperformed (e.copyEffects cfg), ∀ l, Managed cfg.root l →
    effect.target = some l → ¬ effect.Completes e.env.copying.umask e.world.files

theorem targeting_performed {c : Copying} {l : Loc} {effects : List TreeEffect}
    (h : targeting l effects = []) : targeting l (c.performed effects) = [] := by
  rw [← c.performed_append effects, targeting_append] at h
  exact (List.append_eq_nil_iff.mp h).1

theorem TakenBy.tree_eq (h : TakenBy cfg r e snapshot) (hreached : Reached cfg r) {l : Loc}
    (hl : Managed cfg.root l) :
    snapshot.tree l = effectsOn l (e.env.copying.performed (e.copyEffects cfg)) none :=
  left_holds (taken_left hreached h.ran h.takes) hl

/-- A file is in the snapshot exactly if the copy comes to it and completes it. -/
theorem TakenBy.holds_iff (h : TakenBy cfg r e snapshot) (hreached : Reached cfg r) {name : String}
    {rel : List String} {content : Content} {mode : Nat} (hkept : isKept name = false)
    (hfile : e.world.files (cfg.root ++ name :: rel) = some (.file content mode)) :
    snapshot.tree (cfg.root ++ name :: rel) = some (.file content mode) ↔
      (Unignored isIgnored (name :: rel) ∧ rel.length < e.env.copying.depth) ∧
        ∀ effect ∈ e.env.copying.unperformed (e.copyEffects cfg),
          effect.target = some (cfg.root ++ name :: rel) →
            ¬ effect.Completes e.env.copying.umask e.world.files := by
  have hperformed : ∀ effect ∈ e.env.copying.performed (e.copyEffects cfg),
      effect.target ≠ none := by
    intro effect heffect
    have hin : effect ∈ e.copyEffects cfg := by
      rw [← e.env.copying.performed_append (e.copyEffects cfg)]
      exact List.mem_append_left _ heffect
    exact copyTree_target_ne_none effect hin
  rw [h.tree_eq hreached ⟨name, rel, hkept, rfl⟩]
  rcases @copyTree_file _ _ _ isIgnored _ h.tree h.lists e.env.copying.depth cfg.root cfg.root
    List.prefix_rfl name rel _ _ hfile with ⟨hun, hdepth, hcopied⟩ | ⟨hout, hnone⟩
  · rw [copied_iff hfile hperformed (by rw [Copying.performed_append]; exact hcopied)]
    exact ⟨fun hafter => ⟨⟨hun, hdepth⟩, hafter⟩, fun hboth => hboth.2⟩
  · have hnone : targeting (cfg.root ++ name :: rel) (e.copyEffects cfg) = [] := hnone
    rw [effectsOn_targeting none hperformed, targeting_performed hnone]
    exact ⟨fun hfalse => (by cases hfalse), fun hboth => absurd hboth.1 hout⟩

theorem TakenBy.parents (h : TakenBy cfg r e snapshot) (hreached : Reached cfg r) {l : Loc}
    {name : String} (hl : Managed cfg.root l) (hentry : snapshot.tree (l ++ [name]) ≠ none) :
    ∃ mode, snapshot.tree l = some (.dir mode) := by
  rw [h.tree_eq hreached (hl.child name)] at hentry
  rw [h.tree_eq hreached hl]
  obtain ⟨k, hk⟩ := e.env.copying.performed_eq_take (e.copyEffects cfg)
  obtain ⟨top, rel, -, rfl⟩ := hl
  rw [hk] at hentry ⊢
  exact copyTree_take_parents (fun l => (h.lists l).1) _ cfg.root cfg.root (top :: rel)
    name k hentry

/-- Wherever the process died in `prepare_task`, the snapshot that the batch restores from
has all files of the workspace exactly if the copy had come to the last of them. -/
theorem snapshot_keeps_iff (hreached : Reached cfg r) (htaken : TakenBy cfg r e snapshot) :
    KeepsFiles cfg e r ↔ CopiesFiles cfg e := by
  constructor
  · intro hkeeps
    have hstored := hkeeps.stored snapshot (htaken.stored hreached)
    constructor
    · intro name rel content mode hkept hfile
      have hin := hstored _ content mode ⟨name, rel, hkept, rfl⟩ hfile
      exact ((htaken.holds_iff hreached hkept hfile).mp hin).1
    · intro effect heffect l hl htarget hcompletes
      have hfile : ∃ content mode, e.world.files l = some (.file content mode) := by
        cases hentry : e.world.files l with
        | none => cases effect <;> simp_all [TreeEffect.Completes, TreeEffect.target, Files.fileAt]
        | some entry =>
          cases entry with
          | file content mode => exact ⟨content, mode, rfl⟩
          | _ => cases effect <;> simp_all [TreeEffect.Completes, TreeEffect.target, Files.fileAt]
      obtain ⟨content, mode, hfile⟩ := hfile
      obtain ⟨name, rel, hkept, rfl⟩ := hl
      have hin := hstored _ content mode ⟨name, rel, hkept, rfl⟩ hfile
      exact ((htaken.holds_iff hreached hkept hfile).mp hin).2 effect heffect htarget hcompletes
  · intro hcopies
    have hstored : HoldsFiles cfg.root e.world.files snapshot.tree := by
      intro l content mode hl hfile
      obtain ⟨name, rel, hkept, rfl⟩ := hl
      exact (htaken.holds_iff hreached hkept hfile).mpr
        ⟨hcopies.within name rel content mode hkept hfile, fun effect heffect =>
          hcopies.completed effect heffect _ ⟨name, rel, hkept, rfl⟩⟩
    constructor
    · intro found hfound
      rw [htaken.stored hreached] at hfound
      cases hfound
      exact hstored
    · intro env files hback l content mode hl hfile
      rw [restore_holds hback.tree hback.iterdir (hback.scandir snapshot (htaken.stored hreached))
        (fun l name hl => htaken.parents hreached hl) (hback.restores hreached htaken) hl]
      exact hstored l content mode hl hfile

end Restored

/-! ## Runs on the sample -/

theorem mem_history_act {cfg : Config} {r : GraphRun} {e : NodeRun} (a : Action)
    (h : e ∈ r.history) : e ∈ (act cfg a r).history := by
  cases a with
  | answer decision =>
    simp only [act]
    split <;> exact h
  | restart => exact h
  | modify files => exact h
  | execute env =>
    simp only [act, GraphRun.execute]
    split
    · exact h
    · exact List.mem_append_left _ h

namespace Sample

/-- The first `prepare_task` over a workspace. -/
def preparedEntry (scandir : Loc → List String) (workspace : Files) : NodeRun :=
  (firstBatch workspace).entry .prepareTask (preparing scandir workspace 1)
    (runNode (gitConfig 2) (preparing scandir workspace 1) (firstBatch workspace).interrupt
      .prepareTask (firstBatch workspace).state (firstBatch workspace).world)

theorem preparedEntry_ran (scandir : Loc → List String) (workspace : Files)
    (hnode : (firstBatch workspace).node = some .prepareTask) :
    preparedEntry scandir workspace ∈ (rejected scandir workspace).history := by
  have hfirst : preparedEntry scandir workspace ∈ (prepared scandir workspace).history := by
    simp [prepared, GraphRun.execute, hnode, preparedEntry, GraphRun.entry]
  have hkept : ∀ (r : GraphRun) (a : Action), preparedEntry scandir workspace ∈ r.history →
      preparedEntry scandir workspace ∈ (act (gitConfig 2) a r).history :=
    fun r a hr => mem_history_act a hr
  exact Run.invariant hkept hfirst _

theorem repository_takenBy (h : RepositoryRun) : TakenBy (gitConfig 2)
    (rejected gitListing repository) (preparedEntry gitListing repository) stored where
  ran := preparedEntry_ran _ _ h.preparesFirst
  takes := by
    rw [h.ofFirst]
    exact ⟨rfl, by with_unfolding_all rfl, rfl, by with_unfolding_all rfl⟩
  tree := repository_laidOut.isTree
  lists := repository_laidOut.lists

theorem rejected_reached (scandir : Loc → List String) (workspace : Files) :
    Reached (gitConfig 2) (rejected scandir workspace) := by
  have hfirst : Reached (gitConfig 2) (firstBatch workspace) := ⟨_, _, _, _, _, rfl⟩
  have hprepared : Reached (gitConfig 2) (prepared scandir workspace) :=
    hfirst.run [.execute (preparing scandir workspace 1)]
  exact hprepared.run _

/-- The repository's only entry that restores manage is its file. -/
theorem repository_managed {name : String} {rel : List String} (hkept : isKept name = false)
    (hentry : repository (root ++ name :: rel) ≠ none) : name = "a" ∧ rel = [] := by
  have hin := (repository_laidOut.entries _ (by simp)).mp hentry
  simp only [locations, List.mem_cons, List.not_mem_nil, or_false, root, gitDir, headFile,
    List.cons_append, List.nil_append, List.cons.injEq, true_and] at hin
  rcases hin with heq | ⟨rfl, -⟩ | ⟨rfl, -⟩ | heq
  · cases heq
  · exact absurd hkept (by decide)
  · exact absurd hkept (by decide)
  · exact heq

theorem repository_plain : Plain repository root := by
  intro name rel hkept hentry
  obtain ⟨rfl, rfl⟩ := repository_managed hkept hentry
  have hfile : repository (root ++ ["a"]) = some (.file (.utf8 "old") 0o644) := rfl
  refine ⟨fun target => ?_, fun other hother => ?_⟩
  · rw [hfile]
    simp
  · rw [List.mem_singleton.mp hother]
    decide

theorem repository_rolledBack (h : RepositoryRun) : RolledBack (gitConfig 2)
    (restoringWith gitListing) (rejected gitListing repository)
    ((rejected gitListing repository).execute (gitConfig 2) (restoringWith gitListing)).state
    ((rejected gitListing repository).execute (gitConfig 2) (restoringWith gitListing)).world where
  node := (first_rollsBack h).node
  verified := (first_rollsBack h).verified
  done := (first_rollsBack h).done
  restored := by decide +kernel
  tree := (first_rollsBack h).tree
  iterdir := (first_rollsBack h).iterdir
  scandir := (first_rollsBack h).scandir

/-- The rolled back candidate leaves nothing behind. -/
theorem repository_back : SameManaged root
    ((rejected gitListing repository).execute (gitConfig 2) (restoringWith gitListing)).world.files
    repository :=
  (rolled_back_iff (rejected_reached _ _) (repository_takenBy repositoryRun)
    (by with_unfolding_all rfl) (repository_rolledBack repositoryRun)).mpr repository_plain

/-- The sample workspace with a file of byte code. -/
def compiled : Files := fun l =>
  if l = ["w", "m.pyc"] then some (.file (.utf8 "code") 0o644) else files l

def compiledListing : Loc → List String := fun l => if l = root then ["a", "m.pyc"] else []

/-- Nobody touches the byte code, and the rollback deletes it. -/
theorem byte_code_lost : Reached (gitConfig 2) (rejected compiledListing compiled) ∧
    (rejected compiledListing compiled).node = some .rollback ∧
    (rejected compiledListing compiled).state.phase = some .verify ∧
    (rejected compiledListing compiled).world.writes = ["a"] ∧
    (firstBatch compiled).world.files.contentAt ["w", "m.pyc"] = some (.utf8 "code") ∧
    ((rejected compiledListing compiled).execute (gitConfig 2)
      (restoringWith compiledListing)).node = some .supervise ∧
    ((rejected compiledListing compiled).execute (gitConfig 2)
      (restoringWith compiledListing)).world.files.contentAt ["w", "m.pyc"] = none :=
  ⟨rejected_reached _ _, by decide +kernel, by decide +kernel, by decide +kernel,
    by decide +kernel, by decide +kernel, by decide +kernel⟩

/-- The snapshot of the repository was not cut short. -/
theorem repository_kept : KeepsFiles (gitConfig 2) (preparedEntry gitListing repository)
    (rejected gitListing repository) := by
  refine (snapshot_keeps_iff (rejected_reached _ _) (repository_takenBy repositoryRun)).mpr ⟨?_, ?_⟩
  · intro name rel content mode hkept hfile
    have hfile : repository (root ++ name :: rel) = some (.file content mode) := hfile
    have hentry : repository (root ++ name :: rel) ≠ none := by simp [hfile]
    have hplain := (repository_plain name rel hkept hentry).2
    obtain ⟨rfl, rfl⟩ := repository_managed hkept hentry
    exact ⟨hplain, by decide⟩
  · intro effect heffect
    cases heffect

/-- A batch whose process dies once the directory of the snapshot is made, and whose
candidate changes nothing. -/
def cutShort : List Action :=
  [.execute { decide := .returned (dispatch (task "t") t_valid) },
    .execute { copying := { copying with stop := some (1, .killed) } }, .execute { copying },
    .execute { execute := .returned (repair "t" []) }, .execute {}, .execute {}, verifying 1]

/-- The resumed run takes the empty directory for the snapshot, and its rollback deletes
the file that no candidate touched. -/
theorem cut_short_deletes : Reached (config 1) (start 1 (cutShort ++ [rollingBack])) ∧
    (start 1 cutShort).node = some .rollback ∧ (start 1 cutShort).world.writes = [] ∧
    (start 1 cutShort).world.files.contentAt ["w", "a"] = some (.utf8 "old") ∧
    (start 1 (cutShort ++ [rollingBack])).state.phase = some .rollback ∧
    (start 1 (cutShort ++ [rollingBack])).world.files.contentAt ["w", "a"] = none :=
  ⟨start_reached _ _, by decide +kernel, by decide +kernel, by decide +kernel, by decide +kernel,
    by decide +kernel⟩

end Sample

end EvoCI
