import EvoCI.Graph.Approval
import EvoCI.Graph.Progress

/-! What a run that ends with success has behind it: a verification of its last
batch that passed on the workspace it ends with, after a permitted application. -/

namespace EvoCI

open Library

/-- The state holds a passing verification. -/
def Passing (s : EvoCIState) : Prop :=
  ∃ verification, s.verification = some verification ∧ verification.passed = true

/-! ## Verdicts -/

theorem verifyOfficial_passed {cfg : Config} {env : NodeEnv} {s : EvoCIState}
    {ledger ledger' : Ledger} {verification : VerificationResult}
    (h : verifyOfficial cfg env s ledger = (.returned verification, ledger'))
    (hpassed : verification.passed = true) : verification = env.official := by
  unfold verifyOfficial at h
  split at h
  · cases h
    cases hpassed
  · simp only at h
    split at h
    · cases h
      rfl
    · cases h
    · cases h

/-- The verdict behind a passing verification: the official one, or a plan with a
command of the harness of which every command ran and succeeded. -/
def Earned (cfg : Config) (env : NodeEnv) (planned : List PlannedCommand)
    (verification : VerificationResult) : Prop :=
  verification.passed = true ∧
    (cfg.officialVerifier = true → verification = env.official) ∧
    (cfg.officialVerifier = false →
      hasMandatory planned = true ∧ AllSucceeded planned verification.commands)

theorem verifyCommands_earned {cfg : Config} {env : NodeEnv} {s : EvoCIState}
    {planned : List PlannedCommand} {ledger ledger' : Ledger} {verification : VerificationResult}
    (h : verifyCommands cfg env s planned ledger = (.returned verification, ledger'))
    (hpassed : verification.passed = true) : Earned cfg env planned verification := by
  unfold verifyCommands at h
  split at h
  next hofficial =>
    refine ⟨hpassed, fun _ => verifyOfficial_passed h hpassed, fun hlocal => ?_⟩
    rw [hofficial] at hlocal
    cases hlocal
  next hlocal =>
    refine ⟨hpassed, fun hofficial => absurd hofficial hlocal, fun _ => ?_⟩
    unfold verifyLocal at h
    split at h
    · cases h
      exact runVerification_passed hpassed
    · cases h
    · cases h

/-! ## The state on the way to success -/

theorem afterVerify_finalize {s : EvoCIState} (h : afterVerify s = .finalize) :
    truthy s.batchConflict = false ∧ Passing s := by
  simp only [afterVerify] at h
  split at h
  · cases h
  · split at h
    · cases h
    next hconflict =>
      split at h
      next hpassed =>
        refine ⟨by simpa using hconflict, ?_⟩
        cases hsome : s.verification with
        | none => simp [hsome] at hpassed
        | some verification => exact ⟨verification, hsome, by simpa [hsome] using hpassed⟩
      · cases h

theorem afterVerify_rollback {s : EvoCIState} (h : afterVerify s = .rollback)
    (hpassing : Passing s) :
    truthy s.batchConflict = true := by
  obtain ⟨verification, hsome, hpassed⟩ := hpassing
  simp only [afterVerify] at h
  split at h
  · cases h
  · split at h
    next hconflict => exact hconflict
    · simp [hsome, hpassed] at h

/-- Without a passing verification the supervisor cannot stop with success. -/
theorem afterSupervise_finalize {cfg : Config} {s : EvoCIState} {files : Files}
    (h : afterSupervise cfg s files = .finalize) : Passing s := by
  unfold afterSupervise at h
  split at h
  · cases h
  · split at h
    · cases h
    · split at h
      · split at h
        next hformal =>
          unfold formalSuccess at hformal
          split at hformal
          next verification hsome =>
            simp only [Bool.and_eq_true] at hformal
            exact ⟨verification, hsome, hformal.1.1⟩
          · cases hformal
        · cases h
      · cases h

/-- Only `verify` records a verification, and only a rollback drops one. -/
theorem verification_done {cfg : Config} {env : NodeEnv} {interrupt : Interrupt} {node : Node}
    {s s' : EvoCIState} {w w' : World} (h : runNode cfg env interrupt node s w = .done s' w')
    (hverify : node ≠ .verify) (hrollback : node ≠ .rollback) :
    s'.verification = s.verification := by
  cases runNode_update h with
  | returned task run =>
    unfold workerReturned
    simp only
    split <;> rfl
  | reviewed verification id blockers hblockers => exact absurd rfl hverify
  | verified verification id => exact absurd rfl hverify
  | rolledBack files => exact absurd rfl hrollback
  | _ => rfl

theorem status_done {cfg : Config} {env : NodeEnv} {interrupt : Interrupt} {node : Node}
    {s s' : EvoCIState} {w w' : World} (h : runNode cfg env interrupt node s w = .done s' w')
    (hsuccess : s'.status = some .success) : node = .finalize ∨ s.status = some .success := by
  cases runNode_update h with
  | returned task run =>
    unfold workerReturned at hsuccess
    simp only at hsuccess
    split at hsuccess
    · cases hsuccess
    · exact .inr hsuccess
  | answered decision => cases decision <;> cases hsuccess
  | verified verification id =>
    unfold verifyCompleted at hsuccess
    split at hsuccess <;> first | cases hsuccess | exact .inr hsuccess
  | stopped reason => exact .inl rfl
  | deferred => exact .inl rfl
  | succeeded => exact .inl rfl
  | bootstrapped => cases hsuccess
  | usedUp => cases hsuccess
  | undecided => cases hsuccess
  | unprepared => cases hsuccess
  | exhausted => cases hsuccess
  | unreachable => cases hsuccess
  | stuck => cases hsuccess
  | ended => cases hsuccess
  | _ => exact .inr hsuccess

/-! ## Runs -/

/-- A completed application of the candidate that the state holds, in its batch. -/
def NodeRun.integrates (e : NodeRun) (s : EvoCIState) : Prop :=
  e.node = .applyCandidate ∧ e.outcome.isDone = true ∧
    e.before.supervisorBatch = s.supervisorBatch ∧ e.before.fixerOutput = s.fixerOutput

/-- A verification that passed, on a workspace the final review found nothing
in, with the candidate of its batch applied before. -/
def NodeRun.accepts (cfg : Config) (before : List NodeRun) (v : NodeRun) : Prop :=
  v.node = .verify ∧ reviewBlockers cfg v.world.files = [] ∧
    (∃ s w planned verification, v.outcome = .done s w ∧ s.verification = some verification ∧
      localPlan cfg v.before = .ok planned ∧ Earned cfg v.env planned verification) ∧
    ∃ e ∈ before, e.integrates v.before

/-- The history ends with an accepting verification of the current batch and
executions of `finalize` after it. -/
def Accepted (cfg : Config) (r : GraphRun) : Prop :=
  ∃ before v after, r.history = before ++ v :: after ∧ v.accepts cfg before ∧
    (∀ e ∈ after, e.node = .finalize ∧ e.before.supervisorBatch = v.before.supervisorBatch) ∧
    r.state.supervisorBatch = v.before.supervisorBatch ∧ (r.node = none → after ≠ [])

structure Succeeding (cfg : Config) (r : GraphRun) : Prop where
  clean : ∀ node, r.node = some node → node ≠ .rollback → node ≠ .finalize → node ≠ .failed →
    ¬ Passing r.state
  rejected : r.node = some .rollback → Passing r.state → truthy r.state.batchConflict = true
  ended : r.state.status = some .success → r.node = none
  integrated : r.node = some .verify → ∃ e ∈ r.history, e.integrates r.state
  accepted : r.node = some .finalize ∨ r.state.status = some .success → Accepted cfg r

section Kept

variable {cfg : Config} {r : GraphRun} {env : NodeEnv} {node : Node} {s : EvoCIState} {w : World}

theorem Succeeding.clean_done (hr : Succeeding cfg r) (hnode : r.node = some node)
    (h : runNode cfg env r.interrupt node r.state r.world = .done s w) (next : Node)
    (hnext : route cfg node s w.files = some next) (hrollback : next ≠ .rollback)
    (hfinalize : next ≠ .finalize) (hfailed : next ≠ .failed) : ¬ Passing s := by
  by_cases hverify : node = .verify
  · subst hverify
    have hedge := route_mem_edges hnext
    exfalso
    cases next <;> contradiction
  · by_cases hback : node = .rollback
    · subst hback
      rintro ⟨verification, hsome, hpassed⟩
      cases runNode_update h with
      | rolledBack files =>
        simp only [rollbackDone] at hsome
        split at hsome
        · cases hsome
        next hconflict =>
          exact hconflict (hr.rejected hnode ⟨verification, hsome, hpassed⟩)
      | stuck message =>
        simp only [route, afterRollback, rollbackFailed, if_true, Option.some.injEq] at hnext
        exact hfailed hnext.symm
    · have hkept := verification_done h hverify hback
      have hclean := hr.clean node hnode hback (by rintro rfl; cases hnext)
        (by rintro rfl; cases hnext)
      rwa [Passing, hkept]

theorem Succeeding.rejected_done (hr : Succeeding cfg r) (hnode : r.node = some node)
    (h : runNode cfg env r.interrupt node r.state r.world = .done s w)
    (hnext : route cfg node s w.files = some .rollback) (hpassing : Passing s) :
    truthy s.batchConflict = true := by
  by_cases hverify : node = .verify
  · subst hverify
    exact afterVerify_rollback (Option.some.inj hnext) hpassing
  · have hedge := route_mem_edges hnext
    have happly : node = .applyCandidate := by
      cases node <;> first | exact absurd rfl hverify | (revert hedge; decide)
    subst happly
    have hkept := verification_done h hverify (by decide)
    have hclean := hr.clean _ hnode (by decide) (by decide) (by decide)
    rw [Passing, hkept] at hpassing
    exact absurd hpassing hclean

theorem Succeeding.integrated_done
    (h : runNode cfg env r.interrupt node r.state r.world = .done s w)
    (hnext : route cfg node s w.files = some .verify) :
    (⟨node, env, r.interrupt, r.state, r.world, .done s w⟩ : NodeRun).integrates s := by
  have hedge := route_mem_edges hnext
  have happly : node = .applyCandidate := by cases node <;> revert hedge <;> decide
  subst happly
  cases runNode_update h <;> exact ⟨rfl, rfl, rfl, rfl⟩

/-- The verification that leads to `finalize` accepts. -/
theorem Succeeding.accepts_done (hr : Succeeding cfg r) (hnode : r.node = some .verify)
    (h : runNode cfg env r.interrupt .verify r.state r.world = .done s w)
    (hnext : afterVerify s = .finalize) :
    (⟨.verify, env, r.interrupt, r.state, r.world, .done s w⟩ : NodeRun).accepts cfg r.history := by
  obtain ⟨hconflict, verification, hsome, hpassed⟩ := afterVerify_finalize hnext
  obtain ⟨planned, verdict, ledger, hplanned, hrun, -, ⟨-, hblockers, rfl⟩ | ⟨hclean, rfl⟩⟩ :=
    verify_done (runNode_done h)
  · exfalso
    have hreason := joinSemicolon_ne_empty hblockers blocker_ne_empty
    simp only [verifyRejected, truthy, decide_eq_false_iff_not, Decidable.not_not] at hconflict
    exact hreason hconflict
  · have hrecorded := (verifyCompleted_kept r.state verdict
      (workspaceSnapshotId cfg r.world.files)).1
    obtain rfl := Option.some.inj (hrecorded.symm.trans hsome)
    exact ⟨rfl, hclean hpassed, ⟨_, _, planned, verdict, rfl, hsome, hplanned,
      verifyCommands_earned hrun hpassed⟩, hr.integrated hnode⟩

theorem Succeeding.accepted_done (hr : Succeeding cfg r) (hnode : r.node = some node)
    (h : runNode cfg env r.interrupt node r.state r.world = .done s w)
    (hnext : route cfg node s w.files = some .finalize ∨ s.status = some .success) :
    Accepted cfg ⟨route cfg node s w.files, s, w, .idle,
      r.history ++ [⟨node, env, r.interrupt, r.state, r.world, .done s w⟩]⟩ := by
  have hverify : route cfg node s w.files = some .finalize → node = .verify := by
    intro hroute
    have hedge := route_mem_edges hroute
    have hnodes : node = .supervise ∨ node = .verify := by cases node <;> revert hedge <;> decide
    rcases hnodes with rfl | rfl
    · exfalso
      have hpassing := afterSupervise_finalize (Option.some.inj hroute)
      rw [Passing, verification_done h (by decide) (by decide)] at hpassing
      exact hr.clean _ hnode (by decide) (by decide) (by decide) hpassing
    · rfl
  rcases hnext with hroute | hsuccess
  · obtain rfl := hverify hroute
    refine ⟨r.history, _, [], rfl, hr.accepts_done hnode h (Option.some.inj hroute),
      by simp, ?_, ?_⟩
    · simpa using batch_done h
    · intro hend
      rw [show route cfg .verify s w.files = none from hend] at hroute
      cases hroute
  · rcases status_done h hsuccess with rfl | hbefore
    · obtain ⟨before, v, after, hsplit, haccepts, hafter, hbatch, -⟩ := hr.accepted (.inl hnode)
      have hsame : s.supervisorBatch = r.state.supervisorBatch := by simpa using batch_done h
      refine ⟨before, v, after ++ [⟨.finalize, env, r.interrupt, r.state, r.world, .done s w⟩],
        by simp [hsplit], haccepts, ?_, hsame.trans hbatch, by simp⟩
      intro e he
      rcases List.mem_append.mp he with he | he
      · exact hafter e he
      · rw [List.mem_singleton] at he
        subst he
        exact ⟨rfl, hbatch⟩
    · rw [hr.ended hbefore] at hnode
      cases hnode

end Kept

theorem succeeding_kept {cfg : Config} (r : GraphRun) (a : Action) (h : Succeeding cfg r) :
    Succeeding cfg (act cfg a r) := by
  refine @kept_of_step cfg (fun _ _ => True) (Succeeding cfg) ?_ ?_ ?_ r a trivial h
  · intro r r' hr hnode hstate hhistory
    refine ⟨?_, ?_, ?_, ?_, ?_⟩
    · rw [hnode, hstate]
      exact hr.clean
    · rw [hnode, hstate]
      exact hr.rejected
    · rw [hnode, hstate]
      exact hr.ended
    · rw [hnode, hstate, hhistory]
      exact hr.integrated
    · rw [Accepted, hnode, hstate, hhistory]
      exact hr.accepted
  · intro r env node s w _ hr hnode hrun
    refine ⟨hr.clean_done hnode hrun, hr.rejected_done hnode hrun, ?_, ?_,
      hr.accepted_done hnode hrun⟩
    · intro hsuccess
      rcases status_done hrun hsuccess with rfl | hbefore
      · rfl
      · rw [hr.ended hbefore] at hnode
        cases hnode
    · intro hnext
      exact ⟨_, List.mem_append_right _ (List.mem_singleton.mpr rfl),
        Succeeding.integrated_done hrun hnext⟩
  · intro r env node outcome _ hr hnode _ hstopped
    refine ⟨hr.clean, hr.rejected, hr.ended, ?_, ?_⟩
    · intro hnext
      obtain ⟨e, he, hintegrates⟩ := hr.integrated hnext
      exact ⟨e, List.mem_append_left _ he, hintegrates⟩
    · intro haccepted
      obtain ⟨before, v, after, hsplit, haccepts, hafter, hbatch, -⟩ := hr.accepted haccepted
      have hfinalize : node = .finalize := by
        rcases haccepted with hat | hsuccess
        · exact Option.some.inj (hnode.symm.trans hat)
        · have hended := hr.ended hsuccess
          rw [hnode] at hended
          cases hended
      refine ⟨before, v, after ++ [⟨node, env, r.interrupt, r.state, r.world, outcome⟩],
        by simp [hsplit], haccepts, ?_, hbatch, by simp⟩
      intro e he
      rcases List.mem_append.mp he with he | he
      · exact hafter e he
      · rw [List.mem_singleton] at he
        subst he
        exact ⟨hfinalize, hbatch⟩

theorem succeeding_of_reached {cfg : Config} {r : GraphRun} (h : Reached cfg r) :
    Succeeding cfg r := by
  refine holds_of_reached (fun _ _ _ _ => ?_) succeeding_kept h
  refine ⟨?_, ?_, ?_, ?_, ?_⟩
  · rintro node - - - - ⟨verification, hsome, -⟩
    cases hsome
  · intro hnode
    cases hnode
  · intro hstatus
    cases hstatus
  · intro hnode
    cases hnode
  · rintro (hnode | hstatus)
    · cases hnode
    · cases hstatus

/-- A run that ends with success does so in `finalize`, directly after a `verify`
of the same batch that passed on a workspace the final review found nothing in:
the official verdict passed, or some planned command is the harness's own and
every planned command ran and succeeded. The candidate of that batch was applied
before, and had no edits, needed no approval or had been approved. -/
theorem success_earned {cfg : Config} {r : GraphRun} (h : Reached cfg r)
    (hsuccess : r.state.status = some .success) :
    r.node = none ∧ ∃ before v after, r.history = before ++ v :: after ∧ after ≠ [] ∧
      (∀ e ∈ after, e.node = .finalize ∧ e.before.supervisorBatch = v.before.supervisorBatch) ∧
      v.node = .verify ∧ reviewBlockers cfg v.world.files = [] ∧
      (∃ s w planned verification, v.outcome = .done s w ∧ s.verification = some verification ∧
        verification.passed = true ∧ localPlan cfg v.before = .ok planned ∧
        (cfg.officialVerifier = true → verification = v.env.official) ∧
        (cfg.officialVerifier = false →
          hasMandatory planned = true ∧ AllSucceeded planned verification.commands)) ∧
      ∃ e ∈ before, e.integrates v.before ∧
        ∀ output, e.before.fixerOutput = some output → output.edits ≠ [] →
          requiresApproval output = true → ∃ a ∈ before, a.approves e.before := by
  have hsucceeding := succeeding_of_reached h
  have hend := hsucceeding.ended hsuccess
  obtain ⟨before, v, after, hsplit, ⟨hverify, hblockers, hverdict, e, he, hintegrates⟩, hafter, -,
    hsome⟩ := hsucceeding.accepted (.inr hsuccess)
  refine ⟨hend, before, v, after, hsplit, hsome hend, hafter, hverify, hblockers,
    ?_, e, he, hintegrates, ?_⟩
  · obtain ⟨s, w, planned, verification, hout, hsome, hplanned, hpassed, hofficial, hlocal⟩ :=
      hverdict
    exact ⟨s, w, planned, verification, hout, hsome, hpassed, hplanned, hofficial, hlocal⟩
  · -- what was applied was permitted by an approval before it
    obtain ⟨earlier, later, rfl⟩ := List.append_of_mem he
    have hpermitted := (gated_of_reached h).applied earlier e (later ++ v :: after)
      (by simp [hsplit]) hintegrates.1
    intro output houtput hedits hneeds
    obtain ⟨a, ha, happroves⟩ := hpermitted output houtput hedits hneeds
    exact ⟨a, List.mem_append_left _ ha, happroves⟩

namespace Sample

/-- A repair whose verification passes. -/
def repaired : GraphRun :=
  start 1 (batch "t" t_valid [edit] ++ [verifying 0, .execute {}])

/-- It ends with success after an accepting verification. -/
theorem repaired_earned : repaired.node = none ∧
    ∃ v ∈ repaired.history, v.node = .verify ∧ reviewBlockers (config 1) v.world.files = [] := by
  obtain ⟨hend, before, v, after, hsplit, -, -, hverify, hblockers, -⟩ :=
    success_earned (start_reached 1 _) (show repaired.state.status = some .success by
      decide +kernel)
  have hmem : v ∈ before ++ v :: after := by simp
  rw [← hsplit] at hmem
  exact ⟨hend, v, hmem, hverify, hblockers⟩

end Sample

end EvoCI
