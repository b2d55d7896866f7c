import EvoCI.Graph.Success

/-! What a verification was computed on. An exception inside `verify` restores the
batch snapshot before it leaves the node, and the resumed node does not apply the
candidate again. -/

namespace EvoCI

open Library

/-- Nobody else changes the workspace while a candidate is verified or accepted,
and an exception inside `verify` finds nothing to restore. -/
def KeepsCandidate (cfg : Config) (a : Action) (r : GraphRun) : Prop :=
  match a with
  | .modify files =>
    r.node = some .verify ∨ r.node = some .finalize → files = r.world.files
  | .execute env => r.node = some .verify → ∀ index e, env.verifyFault = some (.raised index e) →
      (verifyRestore cfg env r.state r.world).1 = r.world.files
  | _ => True

/-- A completed application of the state's candidate, without a conflict, that
left the workspace with these files. -/
def NodeRun.leaves (e : NodeRun) (s : EvoCIState) (files : Files) : Prop :=
  e.integrates s ∧ ∃ s' w', e.outcome = .done s' w' ∧ afterApply s' = .verify ∧ w'.files = files

/-- The verification that an execution records was computed on the workspace that
`apply_candidate` left in the same batch. -/
def NodeRun.verifiesApplied (history : List NodeRun) (v : NodeRun) : Prop :=
  ∀ s w, v.outcome = .done s w → s.verificationSnapshotId = v.before.integratedSnapshotId ∧
    ∃ e ∈ history, e.leaves v.before v.world.files

structure Present (cfg : Config) (r : GraphRun) : Prop where
  applied : r.node = some .verify ∨ r.node = some .finalize →
    ∃ e ∈ r.history, e.leaves r.state r.world.files
  fingerprint : r.node = some .verify →
    r.state.integratedSnapshotId = some (workspaceSnapshotId cfg r.world.files)
  verified : ∀ v ∈ r.history, v.node = .verify → v.verifiesApplied r.history
  finalized : ∀ f ∈ r.history, f.node = .finalize →
    ∃ e ∈ r.history, e.leaves f.before f.world.files

/-! ## What stays of the workspace -/

/-- `verify` changes the workspace in its exception handler only. -/
theorem verify_files {cfg : Config} {env : NodeEnv} {s : EvoCIState} {w : World}
    (h : ∀ index e, env.verifyFault = some (.raised index e) →
      (verifyRestore cfg env s w).1 = w.files) : (verify cfg env s w).world.files = w.files := by
  unfold verify
  split
  · rfl
  next planned hplanned =>
    cases hrun : verifyCommands cfg env s planned w.ledger with
    | mk verifying ledger =>
      cases verifying with
      | returned verification =>
        simp only [verifyVerdict]
        repeat' split
        all_goals rfl
      | killed => rfl
      | raised e =>
        have hfault : ∃ index e', env.verifyFault = some (.raised index e') := by
          unfold verifyCommands verifyOfficial verifyLocal at hrun
          simp only at hrun
          repeat' split at hrun
          all_goals cases hrun
          all_goals exact ⟨_, _, ‹_›⟩
        obtain ⟨index, e', hfault⟩ := hfault
        have hrestore := h index e' hfault
        simp only [verifyHandler]
        have hsame : (verifyRestore cfg env s { w with ledger }).1 = w.files := hrestore
        split <;> exact hsame

theorem finalize_world (cfg : Config) (env : NodeEnv) (s : EvoCIState) (w : World) :
    (finalize cfg env s w).world = w := by
  simp only [finalize, persistRunOutcome]
  repeat' split
  all_goals rfl

theorem leaves_congr {e : NodeRun} {s s' : EvoCIState} {files : Files} (h : e.leaves s files)
    (hbatch : s'.supervisorBatch = s.supervisorBatch) (houtput : s'.fixerOutput = s.fixerOutput) :
    e.leaves s' files := by
  obtain ⟨⟨hnode, hdone, hb, ho⟩, hleft⟩ := h
  exact ⟨⟨hnode, hdone, hb.trans hbatch.symm, ho.trans houtput.symm⟩, hleft⟩

/-! ## Runs -/

section Kept

variable {cfg : Config} {r : GraphRun} {env : NodeEnv} {node : Node} {s : EvoCIState} {w : World}

/-- The execution that leads to `verify` leaves the workspace that is verified. -/
theorem leaves_done (h : runNode cfg env r.interrupt node r.state r.world = .done s w)
    (hnext : route cfg node s w.files = some .verify) :
    (⟨node, env, r.interrupt, r.state, r.world, .done s w⟩ : NodeRun).leaves s w.files ∧
      s.integratedSnapshotId = some (workspaceSnapshotId cfg w.files) := by
  have hedge := route_mem_edges hnext
  have happly : node = .applyCandidate := by cases node <;> revert hedge <;> decide
  subst happly
  have hnext : afterApply s = .verify := Option.some.inj hnext
  exact ⟨⟨Succeeding.integrated_done h (congrArg some hnext), s, w, rfl, hnext, rfl⟩,
    applyCandidate_verify (runNode_done h) hnext⟩

theorem verifiesApplied_done (hr : Present cfg r) (hnode : r.node = some .verify)
    (h : runNode cfg env r.interrupt .verify r.state r.world = .done s w) :
    (⟨.verify, env, r.interrupt, r.state, r.world, .done s w⟩ : NodeRun).verifiesApplied
      r.history := by
  intro s' w' hout
  cases hout
  refine ⟨?_, hr.applied (.inl hnode)⟩
  rw [hr.fingerprint hnode]
  obtain ⟨_, verification, _, -, -, -, ⟨-, -, rfl⟩ | ⟨-, rfl⟩⟩ := verify_done (runNode_done h)
  · rfl
  · exact (verifyCompleted_kept r.state verification _).2.1

theorem verifiesApplied_append {history : List NodeRun} {v : NodeRun}
    (h : v.verifiesApplied history) (e : NodeRun) : v.verifiesApplied (history ++ [e]) := by
  intro s w hout
  obtain ⟨hid, a, ha, hleaves⟩ := h s w hout
  exact ⟨hid, a, List.mem_append_left _ ha, hleaves⟩

end Kept

theorem present_kept {cfg : Config} (r : GraphRun) (a : Action)
    (hok : KeepsCandidate cfg a r ∧ Succeeding cfg r) (h : Present cfg r) :
    Present cfg (act cfg a r) := by
  refine @kept_of_worlds cfg (fun a r => KeepsCandidate cfg a r ∧ Succeeding cfg r)
    (Present cfg) ?_ ?_ ?_ ?_ ?_ r a hok h
  · intro r interrupt hr
    exact ⟨hr.applied, hr.fingerprint, hr.verified, hr.finalized⟩
  · intro r hr
    exact ⟨hr.applied, hr.fingerprint, hr.verified, hr.finalized⟩
  · rintro r files ⟨hkeeps, -⟩ hr
    refine ⟨?_, ?_, hr.verified, hr.finalized⟩
    · intro hnode
      rw [hkeeps hnode]
      exact hr.applied hnode
    · intro hnode
      rw [hkeeps (.inl hnode)]
      exact hr.fingerprint hnode
  · intro r env node s w ⟨hkeeps, hsucceeding⟩ hr hnode hrun
    have hworld : node = .verify → w.files = r.world.files := by
      rintro rfl
      have hfiles := verify_files (hkeeps hnode)
      rwa [show verify cfg env r.state r.world = .done s w from runNode_done hrun] at hfiles
    have hgrow : ∀ {state : EvoCIState} {files : Files},
        (∃ e ∈ r.history, e.leaves state files) →
        ∃ e ∈ r.history ++ [⟨node, env, r.interrupt, r.state, r.world, .done s w⟩],
          e.leaves state files := by
      rintro state files ⟨e, he, hleaves⟩
      exact ⟨e, List.mem_append_left _ he, hleaves⟩
    refine ⟨?_, ?_, ?_, ?_⟩
    · rintro (hnext | hnext)
      · exact ⟨_, List.mem_append_right _ (List.mem_singleton.mpr rfl), (leaves_done hrun hnext).1⟩
      · -- only the verification of the same batch leads to `finalize`
        have hroute : route cfg node s w.files = some .finalize := hnext
        have hedge := route_mem_edges hroute
        have hnodes : node = .supervise ∨ node = .verify := by
          cases node <;> revert hedge <;> decide
        rcases hnodes with rfl | rfl
        · exfalso
          have hpassing := afterSupervise_finalize (Option.some.inj hroute)
          rw [Passing, verification_done hrun (by decide) (by decide)] at hpassing
          exact hsucceeding.clean _ hnode (by decide) (by decide) (by decide) hpassing
        · obtain ⟨e, he, hleaves⟩ := hr.applied (.inl hnode)
          refine ⟨e, List.mem_append_left _ he, ?_⟩
          show e.leaves s w.files
          rw [hworld rfl]
          refine leaves_congr hleaves (by simpa using batch_done hrun) ?_
          cases runNode_update hrun with
          | reviewed verification id blockers hblockers => rfl
          | verified verification id => exact (verifyCompleted_kept r.state verification id).2.2.2.1
    · intro hnext
      exact (leaves_done hrun hnext).2
    · intro v hv hverify
      rcases List.mem_append.mp hv with hv | hv
      · exact verifiesApplied_append (hr.verified v hv hverify) _
      · rw [List.mem_singleton] at hv
        subst hv
        have hverify : node = .verify := hverify
        subst hverify
        exact verifiesApplied_append (verifiesApplied_done hr hnode hrun) _
    · intro f hf hfinalize
      rcases List.mem_append.mp hf with hf | hf
      · exact hgrow (hr.finalized f hf hfinalize)
      · rw [List.mem_singleton] at hf
        subst hf
        have hfinalize : node = .finalize := hfinalize
        subst hfinalize
        exact hgrow (hr.applied (.inr hnode))
  · rintro r env node outcome ⟨hkeeps, -⟩ hr hnode hrun hstopped
    have hworld : node = .verify ∨ node = .finalize → outcome.world.files = r.world.files := by
      rw [← hrun, runNode, afterLoss_world]
      rintro (rfl | rfl)
      · exact verify_files (hkeeps hnode)
      · exact congrArg World.files (finalize_world cfg env r.state r.world)
    have hnodes : r.node = some .verify ∨ r.node = some .finalize →
        node = .verify ∨ node = .finalize := by
      rintro (hat | hat)
      · exact .inl (Option.some.inj (hnode.symm.trans hat))
      · exact .inr (Option.some.inj (hnode.symm.trans hat))
    refine ⟨?_, ?_, ?_, ?_⟩
    · intro hat
      obtain ⟨e, he, hleaves⟩ := hr.applied hat
      refine ⟨e, List.mem_append_left _ he, ?_⟩
      show e.leaves r.state outcome.world.files
      rw [hworld (hnodes hat)]
      exact hleaves
    · intro hat
      show r.state.integratedSnapshotId = some (workspaceSnapshotId cfg outcome.world.files)
      rw [hworld (hnodes (.inl hat))]
      exact hr.fingerprint hat
    · intro v hv hverify
      rcases List.mem_append.mp hv with hv | hv
      · exact verifiesApplied_append (hr.verified v hv hverify) _
      · rw [List.mem_singleton] at hv
        subst hv
        intro s w hout
        have hout : outcome = .done s w := hout
        rw [hout] at hstopped
        cases hstopped
    · intro f hf hfinalize
      rcases List.mem_append.mp hf with hf | hf
      · obtain ⟨e, he, hleaves⟩ := hr.finalized f hf hfinalize
        exact ⟨e, List.mem_append_left _ he, hleaves⟩
      · rw [List.mem_singleton] at hf
        subst hf
        have hfinalize : node = .finalize := hfinalize
        subst hfinalize
        obtain ⟨e, he, hleaves⟩ := hr.applied (.inr hnode)
        exact ⟨e, List.mem_append_left _ he, hleaves⟩

/-- While nobody else writes and no exception inside `verify` restores another
workspace, every recorded verification, resumed or not, was computed on the
workspace that `apply_candidate` left in its batch, and so is every success. -/
theorem verified_as_applied {cfg : Config} {failedCommands : List (List String)} {files : Files}
    {maxModelCalls maxToolCalls : Nat} {actions : List Action}
    (h : Run.Every (act cfg) (KeepsCandidate cfg)
      (GraphRun.start failedCommands files maxModelCalls maxToolCalls) actions) :
    (∀ v ∈ (Run.run (act cfg) (GraphRun.start failedCommands files maxModelCalls maxToolCalls)
        actions).history, v.node = .verify → v.verifiesApplied (Run.run (act cfg)
          (GraphRun.start failedCommands files maxModelCalls maxToolCalls) actions).history) ∧
      ∀ f ∈ (Run.run (act cfg) (GraphRun.start failedCommands files maxModelCalls maxToolCalls)
        actions).history, f.node = .finalize → ∃ e ∈ (Run.run (act cfg)
          (GraphRun.start failedCommands files maxModelCalls maxToolCalls) actions).history,
        e.leaves f.before f.world.files := by
  have hpresent : Present cfg (Run.run (act cfg)
      (GraphRun.start failedCommands files maxModelCalls maxToolCalls) actions) := by
    refine Run.invariant_of_every present_kept ⟨?_, ?_, ?_, ?_⟩ (Run.every_and_invariant
      succeeding_kept (succeeding_of_reached ⟨_, _, _, _, [], rfl⟩) h)
    · rintro (hnode | hnode) <;> cases hnode
    · intro hnode
      cases hnode
    · simp [GraphRun.start]
    · simp [GraphRun.start]
  exact ⟨hpresent.verified, hpresent.finalized⟩

namespace Sample

/-- A verification that is cancelled, then resumed by a new process. -/
def cancelled : List Action :=
  batch "t" t_valid [edit] ++
    [.execute { verifyFault := some (.raised 0 .cancelled), restoring }, .restart, verifying 0,
      .execute {}]

/-- A process that is killed inside `verify` instead leaves the candidate in
place, and the resumed verification is computed on it. -/
def killed : List Action :=
  batch "t" t_valid [edit] ++
    [.execute { verifyFault := some (.killed 0) }, .restart, verifying 0, .execute {}]

theorem keeps_killed : Run.Every (act (config 1)) (KeepsCandidate (config 1))
    (GraphRun.start [["test"]] files 9 9) ([.execute {}, .execute {}] ++ killed) := by
  refine ⟨?_, ?_, ?_, ?_, ?_, ?_, ?_, ?_, ?_, ?_, ?_, trivial⟩
  all_goals first
    | exact trivial
    | exact fun _ index e hfault => by cases hfault

theorem killed_verified_as_applied :
    ∃ v ∈ (start 1 killed).history, v.node = .verify ∧ v.outcome.isDone = true ∧
      v.verifiesApplied (start 1 killed).history := by
  have hdone : ∃ v ∈ (start 1 killed).history, v.node = .verify ∧ v.outcome.isDone = true := by
    decide +kernel
  obtain ⟨v, hv, hverify, hdone⟩ := hdone
  exact ⟨v, hv, hverify, hdone, (verified_as_applied keeps_killed).1 v hv hverify⟩

/-- The run succeeds although its workspace is the one before the candidate, and
its verification was not computed on the workspace with the candidate. -/
theorem cancelled_success_without_candidate :
    Reached (config 1) (start 1 cancelled) ∧
      (start 1 cancelled).state.status = some .success ∧
      (start 1 cancelled).world.files ["w", "a"] = files ["w", "a"] ∧
      ¬ ∀ v ∈ (start 1 cancelled).history, v.node = .verify →
        v.verifiesApplied (start 1 cancelled).history := by
  refine ⟨start_reached _ _, by decide +kernel, by decide +kernel, fun hall => ?_⟩
  have hbaseline : ∃ v ∈ (start 1 cancelled).history, v.node = .verify ∧
      v.outcome.isDone = true ∧ v.world.files ["w", "a"] = files ["w", "a"] := by
    decide +kernel
  have happlied : ∀ e ∈ (start 1 cancelled).history, e.node = .applyCandidate →
      e.outcome.world.files ["w", "a"] ≠ files ["w", "a"] := by
    decide +kernel
  obtain ⟨v, hv, hverify, hdone, hfiles⟩ := hbaseline
  cases hout : v.outcome with
  | done s w =>
    obtain ⟨-, e, he, ⟨hnode, -⟩, s', w', houtcome, -, hleft⟩ := hall v hv hverify s w hout
    apply happlied e he hnode
    rw [houtcome, Outcome.world, hleft, hfiles]
  | interrupted w => simp [hout, Outcome.isDone] at hdone
  | raised e w => simp [hout, Outcome.isDone] at hdone
  | killed w => simp [hout, Outcome.isDone] at hdone

end Sample

end EvoCI
