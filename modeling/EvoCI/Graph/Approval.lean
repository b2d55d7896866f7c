import EvoCI.Graph.Steps

/-! The human gate: which candidates need a decision, that none of them is
applied without one of its own batch, and what a refusal leads to. -/

namespace EvoCI

open Library

/-! ## Candidates that need a decision -/

/-- A relative path below `.github/workflows`, as it is spelled. A path through a directory that
links there is not one. -/
def InWorkflows (path : String) : Prop :=
  isAbsolute path = false ∧
    ∃ name rest, pathParts path = ".github" :: "workflows" :: name :: rest

/-- The edits change a workflow, delete a file, change more than four files or a
manifest together with a lock file, or the candidate carries a risk. -/
def Risky (output : FixerOutput) : Prop :=
  (∃ edit ∈ output.edits, InWorkflows edit.path) ∨
    (∃ edit ∈ output.edits, edit.delete = true) ∨
    4 < (output.edits.map fun edit => posixPath edit.path).dedup.length ∨
    ((∃ edit ∈ output.edits, loweredName edit.path ∈ manifestNames) ∧
      ∃ edit ∈ output.edits, loweredName edit.path ∈ lockNames) ∨
    output.proposal.risk ≠ .low

theorem isWorkflowPath_of_in {path : String} (h : InWorkflows path) :
    isWorkflowPath path = true := by
  obtain ⟨hrelative, name, rest, hparts⟩ := h
  have hjoin : posixPath path = ".github/workflows/" ++ joinParts (name :: rest) := by
    simp only [posixPath, hrelative, hparts, joinParts]
    simp [← String.append_assoc]
  simp only [isWorkflowPath, hjoin, String.toList_append, List.isPrefixOf_iff_prefix]
  exact List.prefix_append _ _

/-- The changed files of a proposal are the paths of its edits. -/
theorem mem_changedFiles (output : FixerOutput) (path : String) :
    path ∈ output.proposal.changedFiles ↔ ∃ edit ∈ output.edits, edit.path = path := by
  rw [← output.editsMatchChangedFiles.mem_iff, List.mem_map]

theorem requiresApproval_of_risky {output : FixerOutput} (h : Risky output) :
    requiresApproval output = true := by
  have hany : ∀ test : String → Bool, (∃ edit ∈ output.edits, test edit.path = true) →
      output.proposal.changedFiles.any test = true := by
    rintro test ⟨edit, hedit, htest⟩
    exact List.any_eq_true.mpr ⟨edit.path, (mem_changedFiles output _).mpr ⟨edit, hedit, rfl⟩,
      htest⟩
  have hlength : (output.edits.map fun edit => posixPath edit.path).dedup.length =
      (output.proposal.changedFiles.map posixPath).dedup.length := by
    have hperm := (output.editsMatchChangedFiles.map posixPath).dedup.length_eq
    rwa [List.map_map] at hperm
  unfold requiresApproval
  simp only [Bool.or_eq_true, Bool.and_eq_true, decide_eq_true_eq]
  rcases h with ⟨edit, hedit, hin⟩ | ⟨edit, hedit, hdelete⟩ | hmany | ⟨⟨first, hfirst, hmanifest⟩,
    second, hsecond, hlock⟩ | hrisk
  · exact .inl (.inl (.inl (.inr (hany _ ⟨edit, hedit, isWorkflowPath_of_in hin⟩))))
  · exact .inl (.inl (.inr (List.any_eq_true.mpr ⟨edit, hedit, hdelete⟩)))
  · exact .inl (.inr (hlength ▸ hmany))
  · exact .inr ⟨hany _ ⟨first, hfirst, by simpa using hmanifest⟩,
      hany _ ⟨second, hsecond, by simpa using hlock⟩⟩
  · refine .inl (.inl (.inl (.inl ?_)))
    cases hlevel : output.proposal.risk with
    | low => exact absurd hlevel hrisk
    | medium => exact .inl rfl
    | high => exact .inr rfl

/-! ## The gate -/

/-- The approval node of this batch received a truthy decision on this candidate. -/
def NodeRun.approves (e : NodeRun) (s : EvoCIState) : Prop :=
  e.node = .approval ∧ e.interrupt = .answered true ∧ e.outcome.isDone = true ∧
    e.before.supervisorBatch = s.supervisorBatch ∧ e.before.fixerOutput = s.fixerOutput

/-- A candidate with edits that needs a decision got one. -/
def Permitted (history : List NodeRun) (s : EvoCIState) : Prop :=
  ∀ output, s.fixerOutput = some output → output.edits ≠ [] → requiresApproval output = true →
    ∃ e ∈ history, e.approves s

/-- The approval node was given a falsy decision. -/
def NodeRun.refused (e : NodeRun) : Prop := e.node = .approval ∧ e.interrupt = .answered false

/-- A refused run is about to end or has ended, failed by policy. -/
def Refused (r : GraphRun) : Prop :=
  r.node = some .approval ∧ r.interrupt = .answered false ∨
    (r.node = some .failed ∨ r.node = none) ∧ r.state.status = some .failed ∧
      r.state.failureClass = some .policy

/-- Executions after a refusal change nothing in the workspace. -/
def QuietAfterRefusal (before : List NodeRun) (e : NodeRun) : Prop :=
  (∃ refusal ∈ before, refusal.refused) →
    (e.node = .approval ∨ e.node = .failed) ∧ e.outcome.world.files = e.world.files

structure Gated (r : GraphRun) : Prop where
  asked : r.interrupt ≠ .idle → r.node = some .approval ∧ r.state.edits ≠ [] ∧
    ∀ output, r.state.fixerOutput = some output → requiresApproval output = true
  permitted : r.node = some .applyCandidate → Permitted r.history r.state
  applied : Run.Preceded (fun before e => e.node = .applyCandidate → Permitted before e.before)
    r.history
  refused : (∃ e ∈ r.history, e.refused) → Refused r
  quiet : Run.Preceded QuietAfterRefusal r.history

/-- Only `approval` interrupts the graph, for a candidate that needs a decision
and has none yet. -/
theorem interrupted_asks {cfg : Config} {env : NodeEnv} {interrupt : Interrupt} {node : Node}
    {s : EvoCIState} {w w' : World}
    (h : runNode cfg env interrupt node s w = .interrupted w') :
    node = .approval ∧ interrupt.resume = none ∧ s.edits ≠ [] ∧
      ∀ output, s.fixerOutput = some output → requiresApproval output = true := by
  have hout := runNode_interrupted h
  cases node with
  | approval =>
    simp only [nodeOutcome, approval] at hout
    split at hout
    · cases hout
    next output houtput =>
      split at hout
      · cases hout
      next hneeds =>
        simp only [not_or, Bool.not_eq_false] at hneeds
        split at hout
        next hresume =>
          refine ⟨rfl, hresume, ?_, ?_⟩
          · simpa [EvoCIState.edits, houtput] using hneeds.1
          · intro other hother
            obtain rfl := Option.some.inj (houtput.symm.trans hother)
            exact hneeds.2
        · cases hout
  | bootstrap =>
    simp only [nodeOutcome, bootstrap] at hout
    split at hout <;> cases hout
  | retrieveContext => cases hout
  | supervise =>
    simp only [nodeOutcome, supervise, superviseRetry] at hout
    repeat' split at hout
    all_goals cases hout
  | prepareTask =>
    simp only [nodeOutcome, prepareTask, prepareSnapshot] at hout
    repeat' split at hout
    all_goals cases hout
  | worker =>
    simp only [nodeOutcome, worker] at hout
    repeat' split at hout
    all_goals cases hout
  | applyCandidate =>
    simp only [nodeOutcome, applyCandidate, applyPlanned] at hout
    repeat' split at hout
    all_goals cases hout
  | verify =>
    simp only [nodeOutcome, verify, verifyVerdict, verifyHandler] at hout
    repeat' split at hout
    all_goals cases hout
  | rollback =>
    simp only [nodeOutcome, rollback] at hout
    repeat' split at hout
    all_goals cases hout
  | finalize =>
    simp only [nodeOutcome, finalize, persistRunOutcome] at hout
    repeat' split at hout
    all_goals cases hout
  | failed =>
    simp only [nodeOutcome, failed, persistRunOutcome] at hout
    repeat' split at hout
    all_goals cases hout

theorem approval_world (resume : Option Bool) (s : EvoCIState) (w : World) :
    (approval resume s w).world = w := by
  unfold approval
  repeat' split
  all_goals rfl

theorem failed_world (cfg : Config) (env : NodeEnv) (s : EvoCIState) (w : World) :
    (failed cfg env s w).world = w := by
  simp only [failed, persistRunOutcome]
  repeat' split
  all_goals rfl

/-- The gate and the failed end of a run leave the world alone. -/
theorem quiet_nodes {cfg : Config} {env : NodeEnv} {interrupt : Interrupt} {node : Node}
    {s : EvoCIState} {w : World} (h : node = .approval ∨ node = .failed) :
    (runNode cfg env interrupt node s w).world = w := by
  rw [runNode, afterLoss_world]
  rcases h with rfl | rfl
  · exact approval_world _ _ _
  · exact failed_world _ _ _ _

theorem permitted_append {history : List NodeRun} {s : EvoCIState} (h : Permitted history s)
    (e : NodeRun) : Permitted (history ++ [e]) s := by
  intro output houtput hedits hneeds
  obtain ⟨a, ha, happroves⟩ := h output houtput hedits hneeds
  exact ⟨a, List.mem_append_left _ ha, happroves⟩

/-- Leaving the gate towards `apply_candidate` means being permitted. -/
theorem approval_permits {cfg : Config} {env : NodeEnv} {r : GraphRun} {s : EvoCIState}
    {w : World}
    (h : runNode cfg env r.interrupt .approval r.state r.world = .done s w)
    (hnext : afterApproval s = .applyCandidate) :
    Permitted (r.history ++ [⟨.approval, env, r.interrupt, r.state, r.world, .done s w⟩]) s := by
  intro output houtput hedits hneeds
  obtain ⟨-, ⟨hfree, rfl⟩ | ⟨decision, hresume, rfl⟩⟩ := approval_done (runNode_done h)
  · exfalso
    have houtput : r.state.fixerOutput = some output := houtput
    rcases hfree with hnil | ⟨other, hother, hfree⟩
    · exact hedits (by simpa [EvoCIState.edits, houtput] using hnil)
    · obtain rfl := Option.some.inj (houtput.symm.trans hother)
      rw [hneeds] at hfree
      cases hfree
  · cases decision with
    | false => simp [afterApproval, approvalResolved] at hnext
    | true =>
      refine ⟨_, List.mem_append_right _ (List.mem_singleton.mpr rfl), rfl, ?_, rfl, rfl, rfl⟩
      show r.interrupt = .answered true
      cases hinterrupt : r.interrupt with
      | idle => simp [hinterrupt, Interrupt.resume] at hresume
      | waiting => simp [hinterrupt, Interrupt.resume] at hresume
      | answered other => simpa [hinterrupt, Interrupt.resume] using hresume

/-- A refused candidate leaves the gate towards the failed end of the run. -/
theorem approval_refuses {cfg : Config} {env : NodeEnv} {r : GraphRun} {s : EvoCIState} {w : World}
    (hr : Gated r) (hanswered : r.interrupt = .answered false)
    (h : runNode cfg env r.interrupt .approval r.state r.world = .done s w) :
    route cfg .approval s w.files = some .failed ∧ s.status = some .failed ∧
      s.failureClass = some .policy := by
  obtain ⟨-, hedits, hneeds⟩ := hr.asked (by simp [hanswered])
  obtain ⟨-, ⟨hfree, -⟩ | ⟨decision, hresume, rfl⟩⟩ := approval_done (runNode_done h)
  · exfalso
    rcases hfree with hnil | ⟨output, houtput, hfree⟩
    · exact hedits hnil
    · rw [hneeds output houtput] at hfree
      cases hfree
  · simp only [hanswered, Interrupt.resume, Option.some.injEq] at hresume
    subst hresume
    exact ⟨rfl, rfl, rfl⟩

/-- Once refused, a run is at the gate or at its failed end. -/
theorem gated_refused {env : NodeEnv} {r : GraphRun} {node : Node}
    {outcome : Outcome} (hr : Gated r) (hnode : r.node = some node)
    (h : ∃ e ∈ r.history ++ [⟨node, env, r.interrupt, r.state, r.world, outcome⟩], e.refused) :
    Refused r := by
  obtain ⟨e, he, hrefused⟩ := h
  rcases List.mem_append.mp he with he | he
  · exact hr.refused ⟨e, he, hrefused⟩
  · rw [List.mem_singleton] at he
    subst he
    obtain ⟨rfl, hanswered⟩ := hrefused
    exact .inl ⟨hnode, hanswered⟩

theorem gated_quiet {cfg : Config} {env : NodeEnv} {r : GraphRun} {node : Node} {outcome : Outcome}
    (hr : Gated r) (hnode : r.node = some node)
    (hrun : runNode cfg env r.interrupt node r.state r.world = outcome) :
    QuietAfterRefusal r.history ⟨node, env, r.interrupt, r.state, r.world, outcome⟩ := by
  intro hrefused
  have hnodes : node = .approval ∨ node = .failed := by
    rcases hr.refused hrefused with ⟨hat, -⟩ | ⟨hat | hat, -⟩
    · exact .inl (Option.some.inj (hnode.symm.trans hat))
    · exact .inr (Option.some.inj (hnode.symm.trans hat))
    · rw [hnode] at hat
      cases hat
  refine ⟨hnodes, ?_⟩
  have hworld := @quiet_nodes cfg env r.interrupt node r.state r.world hnodes
  rw [hrun] at hworld
  exact congrArg World.files hworld

theorem gated_kept {cfg : Config} (r : GraphRun) (a : Action) (h : Gated r) :
    Gated (act cfg a r) := by
  refine @kept_of_interrupts cfg (fun _ _ => True) Gated ?_ ?_ ?_ ?_ r a trivial h
  · intro r r' hr hnode hstate hinterrupt hhistory
    refine ⟨?_, ?_, ?_, ?_, ?_⟩
    · rw [hinterrupt, hnode, hstate]
      exact hr.asked
    · rw [hnode, hhistory, hstate]
      exact hr.permitted
    · rw [hhistory]
      exact hr.applied
    · rw [Refused, hhistory, hnode, hinterrupt, hstate]
      exact hr.refused
    · rw [hhistory]
      exact hr.quiet
  · intro r decision hr hwaiting
    have hasked := hr.asked (by simp [hwaiting])
    refine ⟨fun _ => hasked, hr.permitted, hr.applied, ?_, hr.quiet⟩
    intro hrefused
    rcases hr.refused hrefused with ⟨-, hanswered⟩ | ⟨hnode | hnode, -⟩
    · simp [hwaiting] at hanswered
    · rw [hasked.1] at hnode
      cases hnode
    · rw [hasked.1] at hnode
      cases hnode
  · intro r env node s w _ hr hnode hrun
    refine ⟨fun hidle => absurd rfl hidle, ?_, ?_, ?_, ?_⟩
    · intro hnext
      have hnext : route cfg node s w.files = some .applyCandidate := hnext
      have hedge := route_mem_edges hnext
      have happroval : node = .approval := by cases node <;> revert hedge <;> decide
      subst happroval
      exact approval_permits hrun (Option.some.inj hnext)
    · rw [Run.preceded_concat]
      refine ⟨hr.applied, fun happly => ?_⟩
      exact hr.permitted (hnode.trans (congrArg some happly))
    · intro hrefused
      right
      rcases gated_refused hr hnode hrefused with
        ⟨hat, hanswered⟩ | ⟨hat | hat, hstatus, hclass⟩
      · obtain rfl := Option.some.inj (hnode.symm.trans hat)
        obtain ⟨hroute, hstatus, hclass⟩ := approval_refuses hr hanswered hrun
        exact ⟨.inl hroute, hstatus, hclass⟩
      · obtain rfl := Option.some.inj (hnode.symm.trans hat)
        obtain ⟨-, rfl⟩ := failed_done (runNode_done hrun)
        refine ⟨.inr rfl, rfl, ?_⟩
        simp [outcomeFailed, resolveFailureClass, hclass]
      · rw [hnode] at hat
        cases hat
    · rw [Run.preceded_concat]
      exact ⟨hr.quiet, gated_quiet hr hnode hrun⟩
  · intro r env node outcome _ hr hnode hrun hstopped
    refine ⟨?_, ?_, ?_, ?_, ?_⟩
    · intro hidle
      cases outcome with
      | done s w => cases hstopped
      | interrupted w =>
        obtain ⟨rfl, -, hedits, hneeds⟩ := interrupted_asks hrun
        exact ⟨hnode, hedits, hneeds⟩
      | raised e w => exact hr.asked hidle
      | killed w => exact hr.asked hidle
    · intro hnext
      exact permitted_append (hr.permitted hnext) _
    · rw [Run.preceded_concat]
      refine ⟨hr.applied, fun happly => ?_⟩
      exact hr.permitted (hnode.trans (congrArg some happly))
    · intro hrefused
      rcases gated_refused hr hnode hrefused with ⟨hat, hanswered⟩ | hended
      · refine .inl ⟨hat, ?_⟩
        cases outcome with
        | done s w => cases hstopped
        | interrupted w =>
          have hresume := (interrupted_asks hrun).2.1
          simp [hanswered, Interrupt.resume] at hresume
        | raised e w => exact hanswered
        | killed w => exact hanswered
      · exact .inr hended
    · rw [Run.preceded_concat]
      exact ⟨hr.quiet, gated_quiet hr hnode hrun⟩

theorem gated_of_reached {cfg : Config} {r : GraphRun} (h : Reached cfg r) : Gated r := by
  refine holds_of_reached (fun _ _ _ _ => ?_) gated_kept h
  refine ⟨fun hidle => absurd rfl hidle, ?_, Run.preceded_nil _, ?_, Run.preceded_nil _⟩
  · intro hnode
    cases hnode
  · simp [GraphRun.start]

/-- In every run, an execution of `apply_candidate` with a risky candidate comes
after the approval node of its batch was told to go on with exactly that
candidate. After a refusal nothing but the gate and the failed end of the run is
executed, nothing in the workspace changes, and a run that ends fails by policy. -/
theorem risky_candidate_approved {cfg : Config} {r : GraphRun} (h : Reached cfg r) :
    (∀ before e after, r.history = before ++ e :: after → e.node = .applyCandidate →
        ∀ output, e.before.fixerOutput = some output → output.edits ≠ [] → Risky output →
          ∃ a ∈ before, a.approves e.before) ∧
      ∀ before refusal after, r.history = before ++ refusal :: after → refusal.refused →
        (∀ e ∈ after, (e.node = .approval ∨ e.node = .failed) ∧
            e.outcome.world.files = e.world.files) ∧
          (r.node = none → r.state.status = some .failed ∧
            r.state.failureClass = some .policy) := by
  have hgated := gated_of_reached h
  refine ⟨?_, ?_⟩
  · intro before e after hsplit happly output houtput hedits hrisky
    exact hgated.applied before e after hsplit happly output houtput hedits
      (requiresApproval_of_risky hrisky)
  · intro before refusal after hsplit hrefused
    refine ⟨?_, ?_⟩
    · intro e he
      obtain ⟨between, later, rfl⟩ := List.append_of_mem he
      refine hgated.quiet (before ++ refusal :: between) e later ?_ ⟨refusal, by simp, hrefused⟩
      rw [hsplit]
      simp
    · intro hend
      rcases hgated.refused ⟨refusal, by simp [hsplit], hrefused⟩ with ⟨hat, -⟩ | ⟨-, hfailed⟩
      · rw [hend] at hat
        cases hat
      · exact hfailed

namespace Sample

/-- A batch that deletes `a`, its approval answered with `decision`, and the next
two nodes. -/
def deleting (decision : Bool) : GraphRun :=
  start 1 (batch "t" t_valid [.remove "a" none] ++
    [.answer decision, .execute {}, .execute {}])

theorem split_at {α : Type} {items : List α} {i : Nat} (h : i < items.length) :
    items = items.take i ++ items[i] :: items.drop (i + 1) := by
  rw [List.getElem_cons_drop, List.take_append_drop]

/-- The deletion is applied after its approval, and refused it ends the run. -/
theorem deletion_approved :
    (∃ a ∈ (deleting true).history.take 8, a.node = .approval ∧ a.interrupt = .answered true) ∧
      (deleting false).state.status = some .failed ∧
      (deleting false).state.failureClass = some .policy := by
  have htrue : 8 < (deleting true).history.length := by decide +kernel
  have hfalse : 7 < (deleting false).history.length := by decide +kernel
  refine ⟨?_, ?_⟩
  · have hedits : (deleting true).history[8].before.edits = [.remove "a" none] := by
      decide +kernel +revert
    cases houtput : (deleting true).history[8].before.fixerOutput with
    | none =>
      rw [EvoCIState.edits, houtput] at hedits
      cases hedits
    | some output =>
      have hown : output.edits = [.remove "a" none] := by
        simpa [EvoCIState.edits, houtput] using hedits
      obtain ⟨a, ha, hnode, hanswered, -⟩ := (risky_candidate_approved (start_reached _ _)).1
        _ _ _ (split_at htrue) (by decide +kernel +revert) output houtput (by simp [hown])
        (.inr (.inl ⟨.remove "a" none, by simp [hown], rfl⟩))
      exact ⟨a, ha, hnode, hanswered⟩
  · exact ((risky_candidate_approved (start_reached _ _)).2 _ _ _ (split_at hfalse)
      ⟨by decide +kernel +revert, by decide +kernel +revert⟩).2 (by decide +kernel)

end Sample

end EvoCI
