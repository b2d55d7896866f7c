import EvoCI.Conflict
import EvoCI.Graph.Batch

/-! Rolling back an attempt that met a conflict: what it wrote goes back to the
batch's baseline, what others wrote stays. -/

namespace EvoCI

open Library

/-! ## What an attempt wrote -/

/-- The paths that the executions of `apply_candidate` in a batch wrote. -/
def attemptWrites (history : List NodeRun) (batch : Nat) : List String :=
  history.flatMap fun e =>
    if e.node = .applyCandidate ∧ e.before.supervisorBatch = batch then
      e.outcome.world.writes.drop e.world.writes.length
    else []

theorem attemptWrites_append (history : List NodeRun) (e : NodeRun) (batch : Nat) :
    attemptWrites (history ++ [e]) batch =
      attemptWrites history batch ++
        if e.node = .applyCandidate ∧ e.before.supervisorBatch = batch then
          e.outcome.world.writes.drop e.world.writes.length
        else [] := by
  simp [attemptWrites]

/-- Nobody but the attempt changed the file of an edit: it is the one in the
snapshot, or holds what the attempt puts in its place. -/
def Untouched (root : Loc) (left tree : Files) (edit : FileEdit) : Prop :=
  left.fileOf root edit.path = tree.fileOf root edit.path ∨
    left.contentOf root edit.path = edit.content.map .utf8 ∧
      tree.fileText root edit.path ≠ .ok edit.content

/-- Files that the attempt did not write are as it found them, and files that it
wrote and nobody else changed are as in the snapshot. -/
def RestoresAttempt (root : Loc) (wrote : List String) (edits : List FileEdit)
    (left tree after : Files) : Prop :=
  (∀ l, ¬ left.PathsAt root wrote l → after.contentAt l = left.contentAt l) ∧
    ∀ edit ∈ edits, edit.path ∈ wrote → Untouched root left tree edit →
      after.fileOf root edit.path = tree.fileOf root edit.path

/-- What restoring a conflict relies on. `prior` are the paths that earlier
executions of the attempt wrote, `tree` is the batch's snapshot. -/
structure Restorable (cfg : Config) (env : NodeEnv) (prior : List String) (s : EvoCIState)
    (w : World) (tree : Files) : Prop where
  /-- No verdict of an earlier batch is left in the state. -/
  unverified : s.verification = none
  inScope : scopeCheck s = .ok ()
  stable : ∀ edit ∈ s.edits, StableText edit.content
  /-- Writing the text of a snapshot's file makes the same file. -/
  plain : ∀ edit ∈ s.edits, ∀ content, tree.contentOf cfg.root edit.path = some content →
    ∃ text, content = .utf8 text ∧ Stable text
  coherent : ∀ edit ∈ s.edits, ∀ other ∈ s.edits, ∀ l,
    w.files.boundaryResolve cfg.root edit.path = .ok l →
    w.files.boundaryResolve cfg.root other.path = .ok l →
    tree.fileOf cfg.root edit.path = tree.fileOf cfg.root other.path
  /-- An edit found done was written by the attempt, or changes nothing. -/
  own : ∀ edit ∈ s.edits, w.files.fileText cfg.root edit.path = .ok edit.content →
    tree.fileText cfg.root edit.path = .ok edit.content ∨
      ∀ l, w.files.boundaryResolve cfg.root edit.path = .ok l → w.files.PathsAt cfg.root prior l
  /-- No edit that an earlier execution wrote lies behind the conflict. -/
  reached : ∀ edit ∈ s.edits, edit.path ∈ prior →
    w.files.fileText cfg.root edit.path = .ok edit.content →
    tree.fileText cfg.root edit.path ≠ .ok edit.content →
    ∀ baseline, tree.snapshotEditBaseline cfg.root [] s.edits = .ok baseline →
      Passes (applyContext cfg env s baseline) s.edits w.attempt edit

/-! ## The baseline of a plan -/

section Baseline

variable {tree : Files} {root : Loc} {edits : List FileEdit} {baseline : Baseline}

theorem baseline_text (h : tree.snapshotEditBaseline root [] edits = .ok baseline)
    {edit : FileEdit} (hedit : edit ∈ edits) :
    tree.fileText root edit.path = .ok (baselineContent baseline edit.path) ∧
      (tree.fileOf root edit.path).map Prod.snd = (baselineEntry baseline edit.path).mode := by
  rcases Files.baselineEntry_fresh h edit.path with hmade | ⟨hnot, -⟩
  · rw [← baselineEntry_content]
    exact Files.fileBaseline_ok hmade
  · exact absurd (List.mem_map_of_mem hedit) hnot

theorem baseline_stable (h : tree.snapshotEditBaseline root [] edits = .ok baseline) :
    StableBaseline baseline := by
  intro path
  rcases Files.baselineEntry_fresh h path with hmade | ⟨-, hnone⟩
  · exact Files.stableText_of_fileText (Files.fileBaseline_ok hmade).1
  · rw [hnone]
    rfl

/-- Edits with one file in the snapshot have one baseline. -/
theorem baselineEntry_congr (h : tree.snapshotEditBaseline root [] edits = .ok baseline)
    {edit other : FileEdit} (hedit : edit ∈ edits) (hother : other ∈ edits)
    (hfile : tree.fileOf root edit.path = tree.fileOf root other.path) :
    baselineEntry baseline edit.path = baselineEntry baseline other.path := by
  obtain ⟨htext, hmode⟩ := baseline_text h hedit
  obtain ⟨htext', hmode'⟩ := baseline_text h hother
  have hcontent : tree.contentOf root edit.path = tree.contentOf root other.path := by
    rw [Files.contentOf_eq_fileOf, Files.contentOf_eq_fileOf, hfile]
  rw [Files.fileText_eq, hcontent, ← Files.fileText_eq, htext', ← baselineEntry_content,
    ← baselineEntry_content] at htext
  rw [hfile, hmode'] at hmode
  have hcontents := Except.ok.inj htext
  cases hone : baselineEntry baseline edit.path
  cases htwo : baselineEntry baseline other.path
  simp_all

/-- A file that holds the text and the mode of the baseline is the snapshot's. -/
theorem fileOf_of_baseline (h : tree.snapshotEditBaseline root [] edits = .ok baseline)
    {edit : FileEdit} (hedit : edit ∈ edits)
    (hplain : ∀ content, tree.contentOf root edit.path = some content →
      ∃ text, content = .utf8 text ∧ Stable text)
    {found : Option (Content × Nat)}
    (hcontent : found.map Prod.fst = (baselineContent baseline edit.path).map .utf8)
    (hmode : ∀ mode, (baselineEntry baseline edit.path).mode = some mode →
      baselineContent baseline edit.path ≠ none → found.map Prod.snd = some mode) :
    found = tree.fileOf root edit.path := by
  obtain ⟨htext, htreeMode⟩ := baseline_text h hedit
  cases htree : tree.fileOf root edit.path with
  | none =>
    have hnone : tree.contentOf root edit.path = none := by
      rw [Files.contentOf_eq_fileOf, htree]
      rfl
    rw [Files.fileText_eq, hnone] at htext
    rw [← Except.ok.inj htext] at hcontent
    simpa using hcontent
  | some item =>
    obtain ⟨content, mode⟩ := item
    have hsome : tree.contentOf root edit.path = some content := by
      rw [Files.contentOf_eq_fileOf, htree]
      rfl
    obtain ⟨text, rfl, hstable⟩ := hplain content hsome
    have hbase : baselineContent baseline edit.path = some text := by
      rw [@Files.fileText_written tree root edit.path (some text) hsome,
        stableText_some.mpr hstable] at htext
      exact (Except.ok.inj htext).symm
    rw [htree] at htreeMode
    have hmode := hmode mode htreeMode.symm (by rw [hbase]; simp)
    rw [hbase] at hcontent
    cases found with
    | none => cases hcontent
    | some item =>
      exact congrArg some (Prod.ext (Option.some.inj hcontent) (Option.some.inj hmode))

end Baseline

/-! ## One conflict -/

section Conflict

variable {cfg : Config} {env : NodeEnv} {s : EvoCIState} {w planned : World} {plan : ApplyPlan}
  {tree : Files} {prior new : List String}

theorem obtainPlan_attempt (h : obtainPlan cfg s w = .ready plan planned) :
    planned.attempt = w.attempt := by
  obtain ⟨hfiles, -, hledger, hcharges, hwrites, -⟩ := obtainPlan_ready h
  simp only [World.attempt, hfiles, hledger, hcharges, hwrites]

theorem Restorable.coherentWrites (h : Restorable cfg env prior s w tree)
    (hbase : tree.snapshotEditBaseline cfg.root [] s.edits = .ok plan.baseline) :
    w.files.CoherentWrites cfg.root plan.baseline (s.edits.map FileEdit.path) := by
  intro p hp q hq l hpl hql
  obtain ⟨edit, hedit, rfl⟩ := List.mem_map.mp hp
  obtain ⟨other, hother, rfl⟩ := List.mem_map.mp hq
  exact baselineEntry_congr hbase hedit hother (h.coherent edit hedit other hother l hpl hql)

/-- What `apply_candidate` restores before it reports a conflict. Restoring the
attempt once more changes nothing. -/
theorem conflict_restores {e : PyError} {a : Attempt}
    (h : Applying cfg env s w plan planned (.conflict e a))
    (hbase : tree.snapshotEditBaseline cfg.root [] s.edits = .ok plan.baseline)
    (hok : Restorable cfg env prior s w tree) (hnew : a.writes = w.writes ++ new) :
    RestoresAttempt cfg.root (prior ++ new) s.edits w.files tree a.files ∧
      ∀ denied, (a.files.restoreAttemptWrites denied cfg.root plan.baseline a.written).1 =
        a.files := by
  obtain ⟨stopped, hloop, hrestore, ha⟩ := applyEdits_conflict h.looped
  rw [obtainPlan_attempt h.obtained] at hloop
  obtain ⟨before, stop, after, mid, hst⟩ := stopped_of_raised hloop
  have hcoherent := hok.coherentWrites hbase
  have hnew : stopped.writes = w.writes ++ new := by
    rw [ha] at hnew
    exact hnew
  have hown : ∀ edit ∈ s.edits, w.files.fileText cfg.root edit.path = .ok edit.content →
      edit.content = baselineContent plan.baseline edit.path ∨
        ∀ l, w.files.boundaryResolve cfg.root edit.path = .ok l →
          w.files.PathsAt cfg.root prior l := by
    intro edit hedit htext
    rcases hok.own edit hedit htext with htree | hprior
    · rw [(baseline_text hbase hedit).1] at htree
      exact .inl (Except.ok.inj htree).symm
    · exact .inr hprior
  obtain ⟨hleft, hback⟩ := hst.restored hrestore rfl hcoherent hok.stable hown hnew
  have hlinks : a.files.linkAt = w.files.linkAt := hst.links hrestore rfl hcoherent
  have hwrote : ∀ path ∈ new, ∃ other ∈ before, other.path = path := by
    obtain ⟨new', hnew', -, hsub, -⟩ := applyLoop_finished hst.finished
    rw [hst.writes, hnew'] at hnew
    rw [← List.append_cancel_left hnew]
    exact fun path hpath => List.mem_map.mp (hsub.subset hpath)
  have hkept : ∀ l, ¬ w.files.PathsAt cfg.root new l →
      (∀ other ∈ s.edits, w.files.boundaryResolve cfg.root other.path = .ok l →
        w.files.fileAt l = tree.fileOf cfg.root other.path) →
      a.files.fileAt l = w.files.fileAt l := by
    intro l hfree hfile
    refine hst.fileAt_kept hrestore rfl hcoherent hnew hfree fun other hother hres => ?_
    have hres : w.files.boundaryResolve cfg.root other.path = .ok l := hres
    obtain ⟨htext, hmode⟩ := baseline_text hbase hother
    have hcontent : w.files.contentOf cfg.root other.path = tree.contentOf cfg.root other.path := by
      rw [Files.contentOf_eq_fileOf, Files.contentOf_eq_fileOf, Files.fileOf_of_boundary hres,
        hfile other hother hres]
    refine ⟨?_, ?_⟩
    · show w.files.readTextOrNone l = _
      rw [← Files.fileText_of_boundary hres, Files.fileText_congr hcontent]
      exact htext
    · show (w.files.fileAt l).map Prod.snd = _
      rw [hfile other hother hres]
      exact hmode
  refine ⟨⟨hleft, ?_⟩, ?_⟩
  · intro edit hedit hpath huntouched
    by_cases hloc : ∃ l, w.files.boundaryResolve cfg.root edit.path = .ok l
    · obtain ⟨l, hl⟩ := hloc
      have hafter : a.files.boundaryResolve cfg.root edit.path = .ok l := by
        rw [Files.boundaryResolve_congr hlinks, hl]
      rw [Files.fileOf_of_boundary hafter]
      have hrestored : ∀ other ∈ s.edits, w.files.boundaryResolve cfg.root other.path = .ok l →
          other.path ∈ new ∨ other ∈ before ∧
            w.files.fileText cfg.root other.path = .ok other.content ∧
            other.content ≠ baselineContent plan.baseline other.path →
          a.files.fileAt l = tree.fileOf cfg.root edit.path := by
        intro other hother hres hcase
        obtain ⟨hcontent, hmode⟩ := hback other hother hcase l hres
        have hentry := baselineEntry_congr hbase hother hedit
          (hok.coherent other hother edit hedit l hres hl)
        rw [show (applyContext cfg env s plan.baseline).baseline = plan.baseline from rfl,
          ← baselineEntry_content, hentry, baselineEntry_content] at hcontent hmode
        exact fileOf_of_baseline hbase hedit (hok.plain edit hedit) hcontent hmode
      by_cases hnewHere : w.files.PathsAt cfg.root new l
      · obtain ⟨path, hpathNew, hres⟩ := hnewHere
        obtain ⟨other, hother, rfl⟩ := hwrote path hpathNew
        exact hrestored other (by rw [hst.split]; simp [hother]) hres (.inl hpathNew)
      · have hprior : edit.path ∈ prior := (List.mem_append.mp hpath).resolve_right
          fun hin => hnewHere ⟨edit.path, hin, hl⟩
        rcases huntouched with hfile | ⟨hcontent, hne⟩
        · rw [Files.fileOf_of_boundary hl] at hfile
          rw [← hfile]
          refine hkept l hnewHere fun other hother hres => ?_
          rw [hfile, hok.coherent edit hedit other hother l hl hres]
        · -- an earlier execution wrote the edit, and the loop gets past it
          have htext : w.files.fileText cfg.root edit.path = .ok edit.content := by
            rw [Files.fileText_written hcontent, hok.stable edit hedit]
          have hin := (hst.passes_iff edit).mp
            (hok.reached edit hedit hprior htext hne plan.baseline hbase)
          refine hrestored edit hedit hl (.inr ⟨hin, htext, ?_⟩)
          rintro hsame
          rw [(baseline_text hbase hedit).1, ← hsame] at hne
          exact hne rfl
    · -- a path that leaves the workspace was not written and is not restored
      have hnotBefore : edit ∉ before := fun hin => hloc (hst.inside hrestore hin)
      have hprior : edit.path ∈ prior := by
        refine (List.mem_append.mp hpath).resolve_right fun hin => ?_
        obtain ⟨other, hother, hsame⟩ := hwrote _ hin
        obtain ⟨l, hl⟩ := hst.inside hrestore hother
        rw [hsame] at hl
        exact hloc ⟨l, hl⟩
      rcases huntouched with hfile | ⟨hcontent, hne⟩
      · rw [← hfile]
        unfold Files.fileOf
        rw [Files.resolve_congr hlinks]
        cases hres : w.files.resolve cfg.root edit.path with
        | error e => rfl
        | ok l =>
          have houtside : ¬ cfg.root <+: l := fun hin =>
            hloc ⟨l, Files.boundaryResolve_of_resolve hres hin⟩
          refine hkept l ?_ fun other _ hother =>
            absurd (Files.boundaryResolve_ok hother).2 houtside
          rintro ⟨path, -, hpath⟩
          exact houtside (Files.boundaryResolve_ok hpath).2
      · have htext : w.files.fileText cfg.root edit.path = .ok edit.content := by
          rw [Files.fileText_written hcontent, hok.stable edit hedit]
        exact absurd ((hst.passes_iff edit).mp
          (hok.reached edit hedit hprior htext hne plan.baseline hbase)) hnotBefore
  · intro denied
    have hkeys : Dict.keys a.written ⊆ s.edits.map FileEdit.path := by
      rw [ha]
      exact hst.keys_subset rfl
    rw [ha]
    refine Files.restoreAttemptWrites_again hrestore (Files.CoherentWrites.due ?_)
      (baseline_stable hbase)
    intro p hp q hq l hpl hql
    have hstopped : stopped.files.linkAt = w.files.linkAt := by
      obtain ⟨_, -, -, -, htouch, -⟩ := applyLoop_finished hst.finished
      rw [hst.files, htouch.links]
      rfl
    rw [Files.boundaryResolve_congr hstopped] at hpl hql
    exact hcoherent p (hst.keys_subset rfl hp) q (hst.keys_subset rfl hq) l hpl hql

end Conflict

/-! ## Runs -/

/-- A conflict that `apply_candidate` reports can be restored, and nobody changes
the workspace between the conflict and its rollback. -/
def KeepsConflict (cfg : Config) : Action → GraphRun → Prop
  | .execute env, r => r.node = some .applyCandidate → ∀ s w,
      runNode cfg env r.interrupt .applyCandidate r.state r.world = .done s w →
      truthy s.batchConflict = true →
      ∀ snapshot, r.world.snapshots r.state.supervisorBatch = some snapshot →
        Restorable cfg env (attemptWrites r.history r.state.supervisorBatch) r.state r.world
          snapshot.tree
  | .modify _, r => ¬ (r.node = some .rollback ∧ r.state.phase = some .applyCandidate)
  | _, _ => True

/-- The rollback of a conflict leaves behind what the batch's `apply_candidate`
found, and the snapshot's files where the attempt wrote. -/
def KeepsOthers (cfg : Config) (before : List NodeRun) (v : NodeRun) : Prop :=
  v.node = .rollback → v.before.phase = some .applyCandidate →
    ∃ e ∈ before, e.node = .applyCandidate ∧
      e.before.supervisorBatch = v.before.supervisorBatch ∧ (∃ w, e.outcome = .done v.before w) ∧
      ∃ snapshot, v.world.snapshots v.before.supervisorBatch = some snapshot ∧
        RestoresAttempt cfg.root (attemptWrites before v.before.supervisorBatch) e.before.edits
          e.world.files snapshot.tree v.outcome.world.files

/-- The conflict that waits for its rollback is restored already. -/
structure RestoredAt (cfg : Config) (history : List NodeRun) (s : EvoCIState) (w : World)
    (e : NodeRun) (snapshot : Snapshot) : Prop where
  applied : e.node = .applyCandidate
  batch : e.before.supervisorBatch = s.supervisorBatch
  outcome : ∃ w', e.outcome = .done s w'
  restores : restoresAttempt s = true
  again : ∀ denied written, s.attemptWritten = some written →
    (w.files.restoreAttemptWrites denied cfg.root s.attemptBaseline written).1 = w.files
  stored : w.snapshots s.supervisorBatch = some snapshot
  restored : RestoresAttempt cfg.root (attemptWrites history s.supervisorBatch) e.before.edits
    e.world.files snapshot.tree w.files

structure Conflicted (cfg : Config) (r : GraphRun) : Prop where
  clear : r.node = some .worker ∨ r.node = some .approval ∨ r.node = some .applyCandidate →
    r.state.batchConflict = none
  waiting : r.node = some .rollback → r.state.phase = some .applyCandidate →
    ∃ e ∈ r.history, ∃ snapshot, RestoredAt cfg r.history r.state r.world e snapshot
  rolledBack : Run.Preceded (KeepsOthers cfg) r.history

section Kept

variable {cfg : Config} {r : GraphRun} {env : NodeEnv} {node : Node} {s : EvoCIState} {w : World}

/-- A candidate within its scope that ends in a conflict met it in the loop. -/
theorem applyCandidate_conflict (h : applyCandidate cfg env r.state r.world = .done s w)
    (hscope : scopeCheck r.state = .ok ())
    (hplan : ∀ m, obtainPlan cfg r.state r.world ≠ .changed m)
    (hclear : r.state.batchConflict = none) (hconflict : truthy s.batchConflict = true) :
    ∃ plan planned e a, Applying cfg env r.state r.world plan planned (.conflict e a) ∧
      w = planned.after a ∧ s = applyConflict r.state e plan.baseline a.written := by
  unfold applyCandidate at h
  split at h
  · cases h
    simp [hclear, truthy] at hconflict
  next hedits =>
    simp only [hscope] at h
    split at h
    next plan planned hready =>
      unfold applyPlanned at h
      split at h
      · cases h
        simp [applyDone, hclear, truthy] at hconflict
      next e a hloop =>
        cases h
        exact ⟨plan, planned, e, a, ⟨hedits, hscope, hready, hloop⟩, rfl, rfl⟩
      · cases h
      · cases h
    next message hchanged => exact absurd hchanged (hplan message)
    · cases h

/-- Rolling back a conflict leaves the files as they are: they are restored. -/
theorem RestoredAt.rollback {history : List NodeRun} {e : NodeRun} {snapshot : Snapshot}
    (h : RestoredAt cfg history r.state r.world e snapshot) :
    (runNode cfg env r.interrupt .rollback r.state r.world).world.files = r.world.files ∧
      (runNode cfg env r.interrupt .rollback r.state r.world).world.snapshots =
        r.world.snapshots := by
  have hfiles : (rollbackFiles cfg env r.state r.world).1 = r.world.files := by
    unfold rollbackFiles
    rw [if_pos h.restores]
    unfold restoreAttempt
    split
    next written hwritten => exact h.again env.denied written hwritten
    · rfl
  rw [runNode_world]
  refine ⟨?_, (nodeOutcome_stores cfg env r.interrupt r.state r.world (by decide) (by decide)).1⟩
  show (EvoCI.rollback cfg env r.state r.world).world.files = _
  unfold EvoCI.rollback
  cases hresult : rollbackFiles cfg env r.state r.world with
  | mk files error =>
    rw [hresult] at hfiles
    cases error with
    | none => exact hfiles
    | some e =>
      simp only
      split <;> exact hfiles

theorem attemptWrites_rollback (history : List NodeRun) {e : NodeRun} (h : e.node = .rollback)
    (batch : Nat) : attemptWrites (history ++ [e]) batch = attemptWrites history batch := by
  simp [attemptWrites_append, h]

theorem Conflicted.clear_done (hr : Conflicted cfg r) (hnode : r.node = some node)
    (hrun : runNode cfg env r.interrupt node r.state r.world = .done s w)
    (hnext : route cfg node s w.files = some .worker ∨
      route cfg node s w.files = some .approval ∨ route cfg node s w.files = some .applyCandidate) :
    s.batchConflict = none := by
  by_cases hprepare : node = .prepareTask
  · subst hprepare
    rcases hnext with hnext | hnext | hnext
    · exact (prepareTask_worker (runNode_done hrun) (Option.some.inj hnext)).2.2.1
    · have hedge := route_mem_edges hnext
      contradiction
    · have hedge := route_mem_edges hnext
      contradiction
  · have hbefore : node = .worker ∨ node = .approval := by
      rcases hnext with hnext | hnext | hnext <;>
      · have hedge := route_mem_edges hnext
        cases node <;> first
          | contradiction
          | exact .inl rfl
          | exact .inr rfl
    have hclear := hr.clear (by
      rcases hbefore with rfl | rfl
      · exact .inl hnode
      · exact .inr (.inl hnode))
    rw [← hclear]
    cases runNode_update hrun with
    | returned task run =>
      unfold workerReturned
      simp only
      split <;> rfl
    | outOfBudget task message => rfl
    | unreachable task message => rfl
    | unasked => rfl
    | answered decision => rfl
    | _ => rcases hbefore with hbefore | hbefore <;> cases hbefore

/-- A conflict that is reported is restored. -/
theorem Conflicted.waiting_done (hr : Conflicted cfg r) (hprepared : Prepared cfg r)
    (hok : KeepsConflict cfg (.execute env) r) (hnode : r.node = some node)
    (hrun : runNode cfg env r.interrupt node r.state r.world = .done s w)
    (hnext : route cfg node s w.files = some .rollback) (hphase : s.phase = some .applyCandidate) :
    ∃ e ∈ r.history ++ [r.entry node env (.done s w)], ∃ snapshot,
      RestoredAt cfg (r.history ++ [r.entry node env (.done s w)]) s w e snapshot := by
  have hedge := route_mem_edges hnext
  by_cases hverify : node = .verify
  · subst hverify
    exfalso
    cases runNode_update hrun with
    | reviewed verification id blockers => cases hphase
    | verified verification id =>
      unfold verifyCompleted at hphase
      split at hphase <;> cases hphase
  · have happly : node = .applyCandidate := by
      cases node <;> first
        | contradiction
        | rfl
    subst happly
    have hconflict : truthy s.batchConflict = true := by
      have hnext : afterApply s = .rollback := Option.some.inj hnext
      unfold afterApply at hnext
      split at hnext
      · cases hnext
      · split at hnext
        next htruthy => exact htruthy
        · cases hnext
    have hat := hprepared.current _ hnode rfl
    obtain ⟨snapshot, hsnapshot, -⟩ := hat.taken
    have hrestorable := hok hnode s w hrun hconflict snapshot hsnapshot
    obtain ⟨plan, planned, err, a, happlying, rfl, rfl⟩ := applyCandidate_conflict
      (runNode_done hrun) hrestorable.inScope hat.not_changed
      (hr.clear (.inr (.inr hnode))) hconflict
    have hbase := (hat.obtainPlan happlying.obtained).1 snapshot hsnapshot
    obtain ⟨new, hnew⟩ : ∃ new, a.writes = r.world.writes ++ new := by
      obtain ⟨new, hnew, -⟩ := applyEdits_writes (applyContext cfg env r.state plan.baseline)
        env.crash r.state.edits planned.attempt
      rw [happlying.looped, obtainPlan_attempt happlying.obtained] at hnew
      exact ⟨new, hnew⟩
    obtain ⟨hrestores, hagain⟩ := conflict_restores happlying hbase hrestorable hnew
    refine ⟨_, List.mem_append_right _ (List.mem_singleton.mpr rfl), snapshot,
      rfl, rfl, ⟨_, rfl⟩, ?_, ?_, ?_, ?_⟩
    · simp [restoresAttempt, applyConflict, hrestorable.unverified]
    · intro denied written hwritten
      cases hwritten
      exact hagain denied
    · rw [← hsnapshot]
      exact congrFun (obtainPlan_ready happlying.obtained).2.1 _
    · have hwrites : attemptWrites (r.history ++ [r.entry .applyCandidate env
          (.done (applyConflict r.state err plan.baseline a.written) (planned.after a))])
          r.state.supervisorBatch = attemptWrites r.history r.state.supervisorBatch ++ new := by
        rw [attemptWrites_append, if_pos ⟨rfl, rfl⟩]
        show _ ++ a.writes.drop r.world.writes.length = _
        rw [hnew, List.drop_left]
      show RestoresAttempt _ (attemptWrites _ r.state.supervisorBatch) _ _ _ _
      rw [hwrites]
      exact hrestores

/-- The rollback that is executed keeps what others wrote. -/
theorem Conflicted.rolledBack_append (hr : Conflicted cfg r) (hnode : r.node = some node)
    {outcome : Outcome} (hrun : runNode cfg env r.interrupt node r.state r.world = outcome) :
    Run.Preceded (KeepsOthers cfg) (r.history ++ [r.entry node env outcome]) := by
  rw [Run.preceded_concat]
  refine ⟨hr.rolledBack, ?_⟩
  rintro hrollback hphase
  have hrollback : node = .rollback := hrollback
  subst hrollback
  obtain ⟨e, he, snapshot, hat⟩ := hr.waiting hnode hphase
  refine ⟨e, he, hat.applied, hat.batch, hat.outcome, snapshot, hat.stored, ?_⟩
  show RestoresAttempt _ _ _ _ _ outcome.world.files
  rw [← hrun, hat.rollback.1]
  exact hat.restored

theorem Conflicted.waiting_stopped (hr : Conflicted cfg r) (hnode : r.node = some node)
    {outcome : Outcome} (hrun : runNode cfg env r.interrupt node r.state r.world = outcome)
    (hrollback : r.node = some .rollback) (hphase : r.state.phase = some .applyCandidate) :
    ∃ e ∈ r.history ++ [r.entry node env outcome], ∃ snapshot,
      RestoredAt cfg (r.history ++ [r.entry node env outcome]) r.state outcome.world
        e snapshot := by
  obtain ⟨e, he, snapshot, hat⟩ := hr.waiting hrollback hphase
  have hsame : node = .rollback := by
    rw [hnode] at hrollback
    exact Option.some.inj hrollback
  subst hsame
  obtain ⟨hfiles, hsnapshots⟩ := @RestoredAt.rollback cfg r env r.history e snapshot hat
  rw [hrun] at hfiles hsnapshots
  refine ⟨e, List.mem_append_left _ he, snapshot, hat.applied, hat.batch, hat.outcome,
    hat.restores, ?_, ?_, ?_⟩
  · rw [hfiles]
    exact hat.again
  · rw [hsnapshots]
    exact hat.stored
  · rw [hfiles, attemptWrites_rollback _ (by rfl)]
    exact hat.restored

end Kept

theorem conflicted_kept {cfg : Config} (r : GraphRun) (a : Action)
    (hok : KeepsConflict cfg a r ∧ Prepared cfg r) (h : Conflicted cfg r) :
    Conflicted cfg (act cfg a r) := by
  refine @kept_of_worlds cfg (fun a r => KeepsConflict cfg a r ∧ Prepared cfg r) (Conflicted cfg)
    ?_ ?_ ?_ ?_ ?_ r a hok h
  · intro r interrupt hr
    exact ⟨hr.clear, hr.waiting, hr.rolledBack⟩
  · intro r hr
    refine ⟨hr.clear, fun hnode hphase => ?_, hr.rolledBack⟩
    obtain ⟨e, he, snapshot, hat⟩ := hr.waiting hnode hphase
    exact ⟨e, he, snapshot, hat.applied, hat.batch, hat.outcome, hat.restores, hat.again,
      hat.stored, hat.restored⟩
  · intro r files ⟨hok, _⟩ hr
    exact ⟨hr.clear, fun hnode hphase => absurd ⟨hnode, hphase⟩ hok, hr.rolledBack⟩
  · intro r env node s w ⟨hok, hprepared⟩ hr hnode hrun
    exact ⟨hr.clear_done hnode hrun, hr.waiting_done hprepared hok hnode hrun,
      hr.rolledBack_append hnode hrun⟩
  · intro r env node outcome _ hr hnode hrun _
    exact ⟨hr.clear, hr.waiting_stopped hnode hrun, hr.rolledBack_append hnode hrun⟩

/-- While every conflict can be restored and nobody writes between a conflict and
its rollback, each rollback of a conflict keeps what others wrote, and puts back
what the attempt alone wrote, in every batch. -/
theorem conflicts_keep_others {cfg : Config} {failedCommands : List (List String)} {files : Files}
    {maxModelCalls maxToolCalls : Nat} {actions : List Action}
    (h : Run.Every (act cfg) (KeepsConflict cfg)
      (GraphRun.start failedCommands files maxModelCalls maxToolCalls) actions) :
    Run.Preceded (KeepsOthers cfg) (Run.run (act cfg)
      (GraphRun.start failedCommands files maxModelCalls maxToolCalls) actions).history := by
  have hconflicted : Conflicted cfg (Run.run (act cfg)
      (GraphRun.start failedCommands files maxModelCalls maxToolCalls) actions) := by
    refine Run.invariant_of_every conflicted_kept ⟨?_, ?_, ?_⟩ (Run.every_and_invariant
      prepared_kept (prepared_of_reached ⟨_, _, _, _, [], rfl⟩) h)
    · rintro (hnode | hnode | hnode) <;> cases hnode
    · intro hnode
      cases hnode
    · exact Run.preceded_nil _
  exact hconflicted.rolledBack

namespace Sample

/-- Somebody else changes the file. -/
def theirs : Files := fun l =>
  if l = ["w", "a"] then some (.file (.utf8 "theirs") 0o644) else files l

/-- A batch whose file is changed right before it is applied. -/
def overtaken (taskId : String) (valid : (task taskId).Valid) : List Action :=
  (batch taskId valid [edit]).take 4 ++ [.modify theirs]

/-- A repair of two files, the first of them new. -/
def overtakenTask : WorkerTask := { taskId := "t", kind := .repair, writeScope := ["b", "a"] }

theorem overtakenTask_valid : overtakenTask.Valid :=
  ⟨by decide, ⟨fun hkind => absurd hkind (by simp [overtakenTask]), rfl⟩⟩

def overtakenEdits : List FileEdit := [.replace "b" "fresh" none, edit]

/-- A batch of both files whose second one is changed right before they are applied. -/
def overtakenPair : List Action :=
  [.execute { decide := .returned (dispatch overtakenTask overtakenTask_valid) },
    .execute { copying },
    .execute { execute := .returned (repair "t" overtakenEdits) }, .execute {}, .modify theirs]

/-- Actions that leave no conflict to restore. -/
def Unconcerned : Action → GraphRun → Prop
  | .execute _, r => r.node ≠ some .applyCandidate
  | .modify _, r => ¬ (r.node = some .rollback ∧ r.state.phase = some .applyCandidate)
  | _, _ => True

instance : ∀ a r, Decidable (Unconcerned a r)
  | .execute _, r => inferInstanceAs (Decidable (r.node ≠ some .applyCandidate))
  | .modify _, r => inferInstanceAs
      (Decidable (¬ (r.node = some .rollback ∧ r.state.phase = some .applyCandidate)))
  | .answer _, _ | .restart, _ => .isTrue trivial

theorem keepsConflict_of_unconcerned (a : Action) (r : GraphRun) (h : Unconcerned a r) :
    KeepsConflict (config 1) a r := by
  cases a with
  | execute env => exact fun hnode => absurd hnode h
  | modify files => exact h
  | answer decision => trivial
  | restart => trivial

/-- The conflict over the second file can be restored. -/
theorem overtakenPair_restorable (snapshot : Snapshot)
    (h : (start 1 overtakenPair).world.snapshots 1 = some snapshot) :
    Restorable (config 1) {} [] (start 1 overtakenPair).state
      (start 1 overtakenPair).world snapshot.tree := by
  have hedits : (start 1 overtakenPair).state.edits = overtakenEdits := by
    decide +kernel
  have hold : ((start 1 overtakenPair).world.snapshots 1).map
      (fun snapshot => (snapshot.tree.contentOf root "a", snapshot.tree.contentOf root "b")) =
        some (some (.utf8 "old"), none) := by
    decide +kernel
  have hfound : ∀ other ∈ overtakenEdits,
      (start 1 overtakenPair).world.files.fileText root other.path ≠ .ok other.content := by
    decide +kernel
  have hplaces : ∀ other ∈ overtakenEdits,
      (start 1 overtakenPair).world.files.boundaryResolve root other.path =
        .ok (root ++ [other.path]) := by
    decide +kernel
  rw [h] at hold
  obtain ⟨holda, holdb⟩ : snapshot.tree.contentOf root "a" = some (.utf8 "old") ∧
      snapshot.tree.contentOf root "b" = none := by
    simpa using hold
  constructor
  · decide +kernel
  · decide +kernel
  · decide +kernel
  · rw [hedits]
    intro other hother content hcontent
    obtain rfl | rfl := List.mem_pair.mp hother
    · rw [show (config 1).root = root from rfl] at hcontent
      exact absurd (hcontent.symm.trans holdb) (Option.some_ne_none _)
    · rw [show (config 1).root = root from rfl] at hcontent
      cases hcontent.symm.trans holda
      exact ⟨"old", rfl, by decide⟩
  · rw [hedits]
    intro other hother another hanother l hl hl'
    rw [show (config 1).root = root from rfl, hplaces other hother] at hl
    rw [show (config 1).root = root from rfl, hplaces another hanother, ← hl] at hl'
    have hpath : [another.path] = [other.path] :=
      List.append_cancel_left (Except.ok.inj hl')
    rw [(List.cons.inj hpath).1]
  · rw [hedits]
    intro other hother htext
    exact absurd htext (hfound other hother)
  · intro other _ hprior
    cases hprior

/-- The attempt has written its first file and meets the other's content in the second: the first
file goes, and the other's content stays. -/
theorem overtaken_keeps_others :
    Run.Preceded (KeepsOthers (config 1))
        (start 1 (overtakenPair ++ [.execute {}, rollingBack])).history ∧
      attemptWrites (start 1 (overtakenPair ++ [.execute {}])).history 1 = ["b"] ∧
      (start 1 (overtakenPair ++ [.execute {}, rollingBack])).world.files.contentAt ["w", "b"] =
        none ∧
      (start 1 (overtakenPair ++ [.execute {}, rollingBack])).world.files.contentAt ["w", "a"] =
        some (.utf8 "theirs") := by
  refine ⟨conflicts_keep_others ?_, by decide +kernel, by decide +kernel, by decide +kernel⟩
  rw [← List.append_assoc, Run.every_append]
  refine ⟨Run.every_mono keepsConflict_of_unconcerned (by decide +kernel), ?_, ?_, trivial⟩
  · intro _ s w _ _ snapshot hsnapshot
    exact overtakenPair_restorable snapshot hsnapshot
  · exact keepsConflict_of_unconcerned _ _ (by decide +kernel)

/-- A batch that failed its verification, then one that meets the other's content. -/
def verifiedThenOvertaken : List Action :=
  batch "t" t_valid [edit] ++ [verifying 1, rollingBack] ++
    overtaken "u" u_valid ++ [.execute {}]

/-- In a second batch the verdict of the first one is still in the state: the
whole snapshot is restored, and the other's content is lost. -/
theorem verified_then_overtaken_lost :
    Reached (config 2) (start 2 (verifiedThenOvertaken ++ [rollingBack])) ∧
      (start 2 verifiedThenOvertaken).node = some .rollback ∧
      truthy (start 2 verifiedThenOvertaken).state.batchConflict = true ∧
      attemptWrites (start 2 verifiedThenOvertaken).history 2 = [] ∧
      (start 2 verifiedThenOvertaken).world.files.contentAt ["w", "a"] = some (.utf8 "theirs") ∧
      (start 2 (verifiedThenOvertaken ++ [rollingBack])).world.files.contentAt ["w", "a"] =
        some (.utf8 "old") :=
  ⟨start_reached _ _, by decide +kernel, by decide +kernel, by decide +kernel,
    by decide +kernel, by decide +kernel⟩

end Sample

end EvoCI
