import EvoCI.Benchmark.CandidatePatch
import EvoCI.Benchmark.Scoring

/-! The verdict of the official image on a candidate: the tests fail before the repair, the patch
is built, and the last attempt of the repaired code decides. -/

namespace EvoCI

open Library

/-! ## Results -/

inductive BenchmarkPreflightStatus where
  | reproduced
  | notReproduced
  | notAvailable
  | infraError
  deriving DecidableEq, Repr

structure BenchmarkPreflightResult where
  status : BenchmarkPreflightStatus
  commands : List BenchmarkCommandResult := []
  details : String
  failureClass : Option String := none
  ftpResults : Dict String NodeStatus := []
  deriving DecidableEq, Repr

inductive BenchmarkVerificationStatus where
  | passed
  | failed
  | notAvailable
  | infraError
  deriving DecidableEq, Repr

structure BenchmarkVerificationResult where
  status : BenchmarkVerificationStatus
  commands : List BenchmarkCommandResult := []
  details : String
  failureClass : Option String := none
  ftpResults : Dict String NodeStatus := []
  ptpResults : Dict String NodeStatus := []
  attempts : List EvalAttempt := []
  deriving DecidableEq, Repr

/-- `str(exc)` of a patch that is not built. -/
def PatchRefused.message : PatchRefused → String
  | .unsafePatch m | .protectedPatch m | .gitFailed m => m
  | .undecodable => PyError.unicodeDecodeError.message

namespace DockerReplayVerifier

/-- What the score of the unrepaired code says of the oracle. -/
def preflightVerdict (v : DockerReplayVerifier) (score : SuiteScore) : BenchmarkPreflightResult :=
  if hasReason score.infraReason then
    { status := .infraError
      commands := score.commands
      details := "baseline infra_error: " ++ score.infraReason.getD ""
      failureClass := some "infra"
      ftpResults := score.ftpResults }
  else if score.ftpExecuted && score.anyFtpFailed then
    let failed := score.ftpResults.countP fun item => item.2 = .failed
    { status := .reproduced
      commands := score.commands
      details := s!"reproduced {failed} FAIL_TO_PASS test(s) in official image"
      ftpResults := score.ftpResults }
  else if score.allFtpPassed then
    { status := .notReproduced
      commands := score.commands
      details := "FAIL_TO_PASS tests already passed before repair"
      ftpResults := score.ftpResults }
  else
    { status := .infraError
      commands := score.commands
      details := s!"FAIL_TO_PASS mixed baseline results: {v.reprResults score.ftpResults}"
      failureClass := some "infra"
      ftpResults := score.ftpResults }

/-- `preflight`. -/
def preflight (v : DockerReplayVerifier) (baseline : Nat → EvalContainer) :
    Except Raised BenchmarkPreflightResult :=
  if v.failToPass = [] then
    .ok { status := .notAvailable, details := "no FAIL_TO_PASS tests in dataset" }
  else (scorePatches v baseline "baseline" "" false).map v.preflightVerdict

/-- The verdict on the score of a patch. -/
def scoreVerdict (v : DockerReplayVerifier) (score : SuiteScore) : BenchmarkVerificationResult :=
  if hasReason score.infraReason then
    { status := .infraError
      commands := score.commands
      details := "final infra_error: " ++ score.infraReason.getD ""
      failureClass := some "infra"
      ftpResults := score.ftpResults
      ptpResults := score.ptpResults
      attempts := score.attempts }
  else if score.allFtpPassed && score.allPtpPassed then
    { status := .passed
      commands := score.commands
      details := "FAIL_TO_PASS and PASS_TO_PASS all passed"
      ftpResults := score.ftpResults
      ptpResults := score.ptpResults
      attempts := score.attempts }
  else
    { status := .failed
      commands := score.commands
      details := "official-image tests failed after repair: " ++
        s!"ftp={v.reprResults score.ftpResults} ptp={v.reprResults score.ptpResults}"
      failureClass := some "assertion"
      ftpResults := score.ftpResults
      ptpResults := score.ptpResults
      attempts := score.attempts }

/-- `verify`. -/
def verify (v : DockerReplayVerifier) (git : GitAnswer) (finals : Nat → EvalContainer)
    (preflight : BenchmarkPreflightResult) : Except Raised BenchmarkVerificationResult :=
  match preflight.status with
  | .infraError =>
    .ok { status := .infraError
          commands := preflight.commands
          details := preflight.details
          failureClass := some "infra"
          ftpResults := preflight.ftpResults }
  | .notReproduced | .notAvailable =>
    .ok { status := .notAvailable
          details := s!"benchmark oracle unavailable: {preflight.details}" }
  | .reproduced =>
    match buildCandidatePatch git v.protectedFiles with
    | .error (.protectedPatch message) =>
      .ok { status := .infraError, details := message, failureClass := some "protected_file" }
    | .error refused =>
      .ok { status := .infraError
            details := s!"candidate patch could not be built: {refused.message}"
            failureClass := some "infra" }
    | .ok candidate => (scorePatches v finals "final" candidate true).map v.scoreVerdict

/-- A test command, by how it starts. -/
def isTestCommand (item : BenchmarkCommandResult) : Bool :=
  item.command.take 3 = ["python", "-m", "pytest"] ||
    item.command.take 2 = ["python", "tests/runtests.py"]

def verificationStatus : BenchmarkVerificationStatus → VerificationStatus
  | .passed => .passed
  | .failed => .failed
  | .infraError => .infraError
  | .notAvailable => .unavailable

theorem verificationStatus_passed (status : BenchmarkVerificationStatus) :
    verificationStatus status = .passed ↔ status = .passed := by
  cases status <;> simp [verificationStatus]

/-- The feedback that `verify_candidate` makes of a verdict. -/
def candidateFeedback (official : BenchmarkVerificationResult) : VerificationResult :=
  let tests := official.commands.filter isTestCommand
  let commands := tests.map fun item : BenchmarkCommandResult =>
    { command := item.command
      exitCode := item.exitCode
      stdout := tailChars 4000 item.stdout
      stderr := tailChars 4000 item.stderr
      timedOut := item.timedOut : VerificationCommandResult }
  let failure := tests.reverse.find? fun item => item.exitCode ≠ 0 || item.timedOut
  let excerpt := failure.elim "" fun item =>
    tailChars 4000 (if item.stderr = "" then item.stdout else item.stderr)
  { passed := official.status = .passed
    status := verificationStatus official.status
    commands
    expectedCount := commands.length
    executedCount := commands.length
    incompleteReason :=
      if official.status = .passed then none else some (strip s!"{official.details}\n{excerpt}")
    successContract := by
      rw [decide_eq_true_iff]
      exact (verificationStatus_passed official.status).symm }

/-- `verify_candidate`. -/
def verifyCandidate (v : DockerReplayVerifier) (git : GitAnswer) (finals : Nat → EvalContainer)
    (preflight : BenchmarkPreflightResult) : Except Raised VerificationResult :=
  (v.verify git finals preflight).map candidateFeedback

end DockerReplayVerifier

/-! ## Status maps -/

theorem get?_statusMap (f : String → NodeStatus) (nodes : List String) (node : String) :
    Dict.get? (statusMap f nodes) node = if node ∈ nodes then some (f node) else none := by
  unfold statusMap
  induction nodes using List.reverseRecOn with
  | nil => rfl
  | append_singleton nodes last ih =>
    rw [List.foldl_append, List.foldl_cons, List.foldl_nil, Dict.get?_set, ih]
    by_cases hlast : node = last
    · simp [hlast]
    · simp [hlast]

theorem keys_statusMap_nodup (f : String → NodeStatus) (nodes : List String) :
    (Dict.keys (statusMap f nodes)).Nodup := by
  unfold statusMap
  induction nodes using List.reverseRecOn with
  | nil => simp
  | append_singleton nodes last ih =>
    rw [List.foldl_append, List.foldl_cons, List.foldl_nil]
    exact Dict.keys_set_nodup _ _ _ ih

theorem mem_statusMap {f : String → NodeStatus} {nodes : List String} {item : String × NodeStatus} :
    item ∈ statusMap f nodes ↔ item.1 ∈ nodes ∧ item.2 = f item.1 := by
  obtain ⟨node, status⟩ := item
  rw [Dict.mem_iff_get? _ (keys_statusMap_nodup f nodes), get?_statusMap]
  by_cases hnode : node ∈ nodes
  · simp [hnode, eq_comm]
  · simp [hnode]

theorem statusMap_eq_nil {f : String → NodeStatus} {nodes : List String} :
    statusMap f nodes = [] ↔ nodes = [] := by
  simp only [List.eq_nil_iff_forall_not_mem, mem_statusMap]
  constructor
  · exact fun h node hnode => h (node, f node) ⟨hnode, rfl⟩
  · exact fun h item hitem => h item.1 hitem.1

/-- Every node of the list has the status. -/
def AllHave (status : NodeStatus) (nodes : List String) (map : Dict String NodeStatus) : Prop :=
  ∀ node ∈ nodes, Dict.get? map node = some status

theorem all_statusMap_iff {f : String → NodeStatus} {nodes : List String} {status : NodeStatus} :
    ((statusMap f nodes).all (·.2 = status)) = true ↔ AllHave status nodes (statusMap f nodes) := by
  simp only [List.all_eq_true, decide_eq_true_eq, AllHave, get?_statusMap, mem_statusMap]
  constructor
  · intro h node hnode
    rw [if_pos hnode]
    exact congrArg some (h (node, f node) ⟨hnode, rfl⟩)
  · rintro h item ⟨hnode, hstatus⟩
    have hsome := h item.1 hnode
    rw [if_pos hnode] at hsome
    rw [hstatus]
    exact Option.some.inj hsome

/-! ## What an attempt scores -/

theorem detectInfraReason_ne {v : DockerReplayVerifier} {result : BenchmarkCommandResult}
    {statuses : Dict String NodeStatus} {reason : String}
    (h : detectInfraReason v result statuses = some reason) : reason ≠ "" := by
  unfold detectInfraReason at h
  split at h
  · cases h
    decide
  · split at h
    · cases h
      simp [toString]
    · split at h
      · cases h
      · simp only at h
        split at h
        next marker hfound =>
          cases h
          have hmarker := List.mem_of_find?_eq_some hfound
          intro hempty
          rw [hempty] at hmarker
          exact absurd hmarker (by decide)
        · split at h
          · cases h
            simp [toString]
          · cases h

/-- The statuses of a test command cover the nodes it was run for. -/
theorem runNodes_map {c : EvalContainer} {v : DockerReplayVerifier} {run : TestRun}
    {nodes : List String} {result : BenchmarkCommandResult} {statuses : Dict String NodeStatus}
    (h : c.runNodes v run nodes = .ok (result, statuses)) :
    ∃ f, statuses = statusMap f nodes := by
  unfold EvalContainer.runNodes at h
  obtain ⟨command, -, h⟩ := bind_eq_ok.1 h
  obtain ⟨result', -, h⟩ := bind_eq_ok.1 h
  split at h
  · cases h
    exact ⟨_, rfl⟩
  · obtain ⟨elements, -, h⟩ := bind_eq_ok.1 h
    simp only at h
    split at h
    · cases h
      exact ⟨_, rfl⟩
    · cases h
      exact ⟨_, rfl⟩

/-- What the score of an attempt rests on: the first map covers the tests to repair, and the
second the tests to keep, unless it is empty for a reason that is given or because no test was
collected. -/
structure Scored (v : DockerReplayVerifier) (s : SuiteScore) : Prop where
  ftp : ∃ f, s.ftpResults = statusMap f v.failToPass
  ptp : (∃ f, s.ptpResults = statusMap f v.passToPass) ∨ s.ptpResults = []
  uncovered : s.ptpResults = [] → v.passToPass ≠ [] →
    hasReason s.infraReason = true ∨ ∀ item ∈ s.ftpResults, item.2 = .missing

theorem unscored_scored (v : DockerReplayVerifier) (commands : List BenchmarkCommandResult)
    (reason : String) : Scored v (unscored v commands reason) :=
  ⟨⟨_, rfl⟩, .inr rfl, fun _ _ => .inr fun _ hitem => (mem_statusMap.1 hitem).2⟩

theorem runSuites_scored {c : EvalContainer} {v : DockerReplayVerifier}
    {commands commands' : List BenchmarkCommandResult} {s : SuiteScore}
    (h : c.runSuites v true commands = (commands', .ok s)) : Scored v s := by
  unfold EvalContainer.runSuites at h
  split at h
  next hcombined =>
    split at h
    · cases h
    next result statuses hrun =>
      cases h
      refine ⟨⟨_, rfl⟩, .inl ⟨_, rfl⟩, fun hnil hne => ?_⟩
      exact absurd (statusMap_eq_nil.1 hnil) hne
  · split at h
    · cases h
    next ftpResult ftpResults hftp =>
      obtain ⟨f, hf⟩ := runNodes_map hftp
      simp only at h
      split at h
      next hsecond =>
        split at h
        · cases h
        next ptpResult ptpResults hptp =>
          cases h
          obtain ⟨g, hg⟩ := runNodes_map hptp
          refine ⟨⟨f, hf⟩, .inl ⟨g, hg⟩, fun hnil hne => ?_⟩
          exact absurd (statusMap_eq_nil.1 (hg ▸ hnil)) hne
      next hfirst =>
        cases h
        refine ⟨⟨f, hf⟩, .inr rfl, fun _ hne => .inl ?_⟩
        cases hreason : detectInfraReason v ftpResult ftpResults with
        | none => exact absurd ⟨trivial, hne, hreason⟩ hfirst
        | some reason => simp [hasReason, detectInfraReason_ne hreason]

theorem scoreBody_scored {c : EvalContainer} {v : DockerReplayVerifier} {candidate : String}
    {commands : List BenchmarkCommandResult} {s : SuiteScore}
    (h : c.scoreBody v candidate true = (commands, .ok s)) : Scored v s := by
  unfold EvalContainer.scoreBody at h
  split at h
  · cases h
  · split at h
    · cases h
    · simp only at h
      split at h
      · exact runSuites_scored h
      · split at h
        · cases h
        · split at h
          · cases h
            exact unscored_scored v _ _
          · exact runSuites_scored h

theorem scoreOnce_scored {c : EvalContainer} {v : DockerReplayVerifier} {phase candidate : String}
    {s : SuiteScore} (h : c.scoreOnce v phase candidate true = .ok s) : Scored v s := by
  unfold EvalContainer.scoreOnce at h
  obtain ⟨-, -, h⟩ := bind_eq_ok.1 h
  obtain ⟨-, -, h⟩ := bind_eq_ok.1 h
  split at h
  next score hbody =>
    cases h
    exact scoreBody_scored (Prod.ext rfl hbody)
  next e hbody =>
    split at h
    · cases h
      exact unscored_scored v _ _
    · split at h
      · cases h
        exact unscored_scored v _ _
      · cases h

section Scores

variable {v : DockerReplayVerifier} {s : SuiteScore}

/-- The verdict asks for no more and no less than that every node has passed. -/
theorem scored_passes_iff (hne : v.failToPass ≠ []) (hs : Scored v s)
    (hreason : hasReason s.infraReason = false) :
    (s.allFtpPassed && s.allPtpPassed) = true ↔
      AllHave .passed v.failToPass s.ftpResults ∧ AllHave .passed v.passToPass s.ptpResults := by
  obtain ⟨f, hf⟩ := hs.ftp
  have hftp : s.allFtpPassed = true ↔ AllHave .passed v.failToPass s.ftpResults := by
    have hmap : statusMap f v.failToPass ≠ [] := fun hnil => hne (statusMap_eq_nil.1 hnil)
    rw [SuiteScore.allFtpPassed, hf, ← all_statusMap_iff]
    simp [hmap]
  rw [Bool.and_eq_true, hftp]
  refine and_congr_right fun hpassed => ?_
  rcases hs.ptp with ⟨g, hg⟩ | hnil
  · rw [SuiteScore.allPtpPassed, hg, all_statusMap_iff]
  · have hkeep : v.passToPass = [] := by
      by_contra hkeep
      rcases hs.uncovered hnil hkeep with hgiven | hmissing
      · rw [hreason] at hgiven
        cases hgiven
      · obtain ⟨node, hnode⟩ := List.exists_mem_of_ne_nil _ hne
        have hitem : (node, f node) ∈ s.ftpResults := by
          rw [hf]
          exact mem_statusMap.2 ⟨hnode, rfl⟩
        have hstatus := hpassed node hnode
        have hnot : f node = .missing := hmissing _ hitem
        rw [hf, get?_statusMap, if_pos hnode, hnot] at hstatus
        cases hstatus
    simp [SuiteScore.allPtpPassed, hnil, hkeep, AllHave]

/-- What a retry is made for: the repaired tests pass, and of the tests to keep some failed and
none came to anything else. -/
theorem shouldRetryPtp_spec (hs : Scored v s) (h : shouldRetryPtp s = true) :
    AllHave .passed v.failToPass s.ftpResults ∧
      (∃ node ∈ v.passToPass, Dict.get? s.ptpResults node = some .failed) ∧
      ∀ node ∈ v.passToPass, Dict.get? s.ptpResults node = some .passed ∨
        Dict.get? s.ptpResults node = some .failed := by
  obtain ⟨f, hf⟩ := hs.ftp
  unfold shouldRetryPtp at h
  split at h
  · cases h
  next hready =>
    simp only [Bool.or_eq_true, Bool.not_eq_true', decide_eq_true_eq, not_or] at hready
    obtain ⟨⟨-, hftp⟩, hptp⟩ := hready
    obtain ⟨g, hg⟩ := hs.ptp.resolve_right hptp
    split at h
    · cases h
    next hothers =>
      refine ⟨?_, ?_, fun node hnode => ?_⟩
      · have hall : (s.ftpResults ≠ [] && s.ftpResults.all (·.2 = .passed)) = true := by
          simpa [SuiteScore.allFtpPassed] using hftp
        rw [hf] at hall ⊢
        exact all_statusMap_iff.1 (Bool.and_eq_true _ _ |>.mp hall).2
      · obtain ⟨item, hitem, hfailed⟩ := List.any_eq_true.1 h
        rw [hg] at hitem ⊢
        obtain ⟨hnode, hstatus⟩ := mem_statusMap.1 hitem
        refine ⟨item.1, hnode, ?_⟩
        rw [get?_statusMap, if_pos hnode, ← hstatus]
        exact congrArg some (of_decide_eq_true hfailed)
      · rw [hg, get?_statusMap, if_pos hnode]
        have hitem : (node, g node) ∈ s.ptpResults := by
          rw [hg]
          exact mem_statusMap.2 ⟨hnode, rfl⟩
        have hallowed : g node ∈ [NodeStatus.passed, NodeStatus.failed] := by
          by_contra hother
          exact hothers (List.any_eq_true.2 ⟨_, hitem, by simpa using hother⟩)
        simpa using hallowed

end Scores

/-! ## The attempts of a score -/

/-- The attempts as they are recorded, numbered from `extra` on. -/
def attemptsOf (phase : String) : Nat → List SuiteScore → List EvalAttempt
  | _, [] => []
  | extra, s :: scores => s.asAttempt (phaseName phase extra) :: attemptsOf phase (extra + 1) scores

theorem attemptsOf_length (phase : String) (extra : Nat) (scores : List SuiteScore) :
    (attemptsOf phase extra scores).length = scores.length := by
  induction scores generalizing extra with
  | nil => rfl
  | cons s scores ih => rw [attemptsOf, List.length_cons, ih, List.length_cons]

theorem attemptsOf_append (phase : String) (extra : Nat) (scores more : List SuiteScore) :
    attemptsOf phase extra (scores ++ more) =
      attemptsOf phase extra scores ++ attemptsOf phase (extra + scores.length) more := by
  induction scores generalizing extra with
  | nil => simp [attemptsOf]
  | cons s scores ih =>
    rw [List.cons_append, attemptsOf, ih, attemptsOf, List.length_cons, List.cons_append,
      show extra + 1 + scores.length = extra + (scores.length + 1) by omega]

theorem attemptsOf_get (phase : String) (extra : Nat) (scores : List SuiteScore) (i : Nat) :
    (attemptsOf phase extra scores)[i]? =
      scores[i]?.map fun s => s.asAttempt (phaseName phase (extra + i)) := by
  induction scores generalizing extra i with
  | nil => simp [attemptsOf]
  | cons s scores ih =>
    cases i with
    | zero => simp [attemptsOf]
    | succ i =>
      rw [attemptsOf, List.getElem?_cons_succ, List.getElem?_cons_succ, ih,
        show extra + 1 + i = extra + (i + 1) by omega]

/-- `score_patches` is the loop of retries over attempts in fresh containers; the last score is
the one that is returned. -/
theorem scoreFrom_retrying (v : DockerReplayVerifier) (containers : Nat → EvalContainer)
    (phase candidate : String) (runPassToPass : Bool) (left extra : Nat)
    (commands : List BenchmarkCommandResult) (attempts : List EvalAttempt) :
    scoreFrom v containers phase candidate runPassToPass left extra commands attempts =
      (retrying (fun k => (containers k).scoreOnce v (phaseName phase k) candidate runPassToPass)
        shouldRetryPtp left extra).map fun tried =>
          { tried.2 with
            commands := commands ++ (tried.1 ++ [tried.2]).flatMap SuiteScore.commands
            attempts := attempts ++ attemptsOf phase extra (tried.1 ++ [tried.2]) } := by
  induction left generalizing extra commands attempts with
  | zero =>
    rw [scoreFrom, retrying]
    cases (containers extra).scoreOnce v (phaseName phase extra) candidate runPassToPass with
    | error e => rfl
    | ok last => simp [Except.map, attemptsOf]
  | succ left ih =>
    rw [scoreFrom, retrying]
    cases (containers extra).scoreOnce v (phaseName phase extra) candidate runPassToPass with
    | error e => rfl
    | ok last =>
      by_cases hagain : shouldRetryPtp last = true
      · simp only [hagain, if_true, ih]
        cases retrying (fun k => (containers k).scoreOnce v (phaseName phase k) candidate
          runPassToPass) shouldRetryPtp left (extra + 1) with
        | error e => rfl
        | ok tried => simp [Except.map, attemptsOf, SuiteScore.asAttempt]
      · simp [hagain, Except.map, attemptsOf]

/-- What scoring the final patch comes to: the attempts that were made again, and the last. -/
theorem scorePatches_ok {v : DockerReplayVerifier} {containers : Nat → EvalContainer}
    {phase candidate : String} {score : SuiteScore}
    (h : scorePatches v containers phase candidate true = .ok score) :
    ∃ before last,
      Retried (fun k => (containers k).scoreOnce v (phaseName phase k) candidate true)
        shouldRetryPtp v.ptpRetries 0 before last ∧
      score.ftpResults = last.ftpResults ∧ score.ptpResults = last.ptpResults ∧
      score.infraReason = last.infraReason ∧
      score.attempts = attemptsOf phase 0 (before ++ [last]) := by
  unfold scorePatches at h
  rw [scoreFrom_retrying] at h
  cases htried : retrying (fun k => (containers k).scoreOnce v (phaseName phase k) candidate true)
      shouldRetryPtp v.ptpRetries 0 with
  | error e =>
    rw [if_pos rfl, htried] at h
    cases h
  | ok tried =>
    rw [if_pos rfl, htried] at h
    cases h
    exact ⟨tried.1, tried.2, retrying_ok htried, rfl, rfl, rfl, by simp⟩

/-! ## The verdict -/

/-- What the verdict of a candidate promises: it is a pass exactly when the preflight was
reproduced, the patch was built and leaves the protected files alone, and in the last attempt no
infrastructure reason was found and every test passed. Every attempt is of a container of its
own, one is made again only for failed tests that should keep passing, and the feedback on the
candidate says the same. -/
structure VerdictExact (v : DockerReplayVerifier) (git : PatchGit) (c : Checkout)
    (pre : BenchmarkPreflightResult) (finals : Nat → EvalContainer)
    (r : BenchmarkVerificationResult) : Prop where
  passed_iff : r.status = .passed ↔
    pre.status = .reproduced ∧
    (∃ patch, buildCandidatePatch (git.answer c) v.protectedFiles = .ok patch) ∧
    ¬ TouchesProtected c.base c.staged v.protectedFiles ∧
    ∃ last, r.attempts.getLast? = some last ∧ hasReason last.infraReason = false ∧
      AllHave .passed v.failToPass last.ftpResults ∧ AllHave .passed v.passToPass last.ptpResults
  scored : ∀ i attempt, r.attempts[i]? = some attempt → ∃ patch score,
    buildCandidatePatch (git.answer c) v.protectedFiles = .ok patch ∧
      (finals i).scoreOnce v (phaseName "final" i) patch true = .ok score ∧
      attempt = score.asAttempt (phaseName "final" i)
  retried : ∀ attempt ∈ r.attempts.dropLast, AllHave .passed v.failToPass attempt.ftpResults ∧
    (∃ node ∈ v.passToPass, Dict.get? attempt.ptpResults node = some .failed) ∧
    ∀ node ∈ v.passToPass, Dict.get? attempt.ptpResults node = some .passed ∨
      Dict.get? attempt.ptpResults node = some .failed
  bounded : r.attempts.length ≤ v.ptpRetries + 1
  feedback : ∀ q, v.verifyCandidate (git.answer c) finals pre = .ok q →
    (q.passed = true ↔ r.status = .passed)

theorem scoreVerdict_passed {v : DockerReplayVerifier} (hne : v.failToPass ≠ [])
    {score last : SuiteScore} (hscored : Scored v last) (hftp : score.ftpResults = last.ftpResults)
    (hptp : score.ptpResults = last.ptpResults) (hreason : score.infraReason = last.infraReason) :
    (v.scoreVerdict score).status = .passed ↔ hasReason last.infraReason = false ∧
      AllHave .passed v.failToPass last.ftpResults ∧
      AllHave .passed v.passToPass last.ptpResults := by
  have hsame : (score.allFtpPassed && score.allPtpPassed) =
      (last.allFtpPassed && last.allPtpPassed) := by
    simp [SuiteScore.allFtpPassed, SuiteScore.allPtpPassed, hftp, hptp]
  unfold DockerReplayVerifier.scoreVerdict
  rw [hreason, hsame]
  split
  next hgiven => simp [hgiven]
  next hnone =>
    have hnone : hasReason last.infraReason = false := Bool.eq_false_iff.2 hnone
    rw [← scored_passes_iff hne hscored hnone]
    split
    next hpasses => simp [hnone, hpasses]
    next hfails => simp [hfails]

theorem preflight_reproduced {v : DockerReplayVerifier} {baseline : Nat → EvalContainer}
    {pre : BenchmarkPreflightResult} (h : v.preflight baseline = .ok pre)
    (hreproduced : pre.status = .reproduced) : v.failToPass ≠ [] := by
  intro hnil
  unfold DockerReplayVerifier.preflight at h
  rw [if_pos hnil] at h
  cases h
  cases hreproduced

theorem scoreVerdict_attempts (v : DockerReplayVerifier) (score : SuiteScore) :
    (v.scoreVerdict score).attempts = score.attempts := by
  unfold DockerReplayVerifier.scoreVerdict
  split
  · rfl
  · split
    · rfl
    · rfl

/-- Either nothing is scored and nothing passes, or the patch is built and scored. -/
theorem verify_ok {v : DockerReplayVerifier} {answer : GitAnswer} {pre : BenchmarkPreflightResult}
    {finals : Nat → EvalContainer} {r : BenchmarkVerificationResult}
    (h : v.verify answer finals pre = .ok r) :
    r.attempts = [] ∧ r.status ≠ .passed ∨
      pre.status = .reproduced ∧ ∃ patch score,
        buildCandidatePatch answer v.protectedFiles = .ok patch ∧
        scorePatches v finals "final" patch true = .ok score ∧ r = v.scoreVerdict score := by
  unfold DockerReplayVerifier.verify at h
  split at h
  · cases h
    exact .inl ⟨rfl, by simp⟩
  · cases h
    exact .inl ⟨rfl, by simp⟩
  · cases h
    exact .inl ⟨rfl, by simp⟩
  next hreproduced =>
    split at h
    · cases h
      exact .inl ⟨rfl, by simp⟩
    · cases h
      exact .inl ⟨rfl, by simp⟩
    next patch hpatch =>
      cases hscore : scorePatches v finals "final" patch true with
      | error e =>
        rw [hscore] at h
        cases h
      | ok score =>
        rw [hscore] at h
        exact .inr ⟨hreproduced, patch, score, hpatch, hscore, (Except.ok.inj h).symm⟩

theorem verifyCandidate_passed {v : DockerReplayVerifier} {answer : GitAnswer}
    {pre : BenchmarkPreflightResult} {finals : Nat → EvalContainer}
    {r : BenchmarkVerificationResult} (h : v.verify answer finals pre = .ok r)
    {q : VerificationResult} (hq : v.verifyCandidate answer finals pre = .ok q) :
    q.passed = true ↔ r.status = .passed := by
  unfold DockerReplayVerifier.verifyCandidate at hq
  rw [h] at hq
  cases hq
  exact decide_eq_true_iff

/-- Without attempts there is nothing to promise but that nothing passed. -/
theorem verdict_unscored {v : DockerReplayVerifier} {git : PatchGit} {c : Checkout}
    {pre : BenchmarkPreflightResult} {finals : Nat → EvalContainer}
    {r : BenchmarkVerificationResult} (h : v.verify (git.answer c) finals pre = .ok r)
    (hattempts : r.attempts = []) (hstatus : r.status ≠ .passed) :
    VerdictExact v git c pre finals r := by
  refine ⟨⟨fun hpassed => absurd hpassed hstatus, ?_⟩, fun i attempt hattempt => ?_,
    fun attempt hattempt => ?_, ?_, fun q => verifyCandidate_passed h⟩
  · rintro ⟨-, -, -, last, hlast, -⟩
    rw [hattempts] at hlast
    cases hlast
  · rw [hattempts] at hattempt
    cases hattempt
  · rw [hattempts] at hattempt
    cases hattempt
  · rw [hattempts]
    exact Nat.zero_le _

/-- The verdict keeps its promise where no patch is built that touches a protected file. -/
theorem verdict_folds {v : DockerReplayVerifier} {git : PatchGit} {c : Checkout}
    {pre : BenchmarkPreflightResult} {finals : Nat → EvalContainer}
    {r : BenchmarkVerificationResult} (h : v.verify (git.answer c) finals pre = .ok r)
    (hne : pre.status = .reproduced → v.failToPass ≠ [])
    (htouch : pre.status = .reproduced → ∀ patch,
      buildCandidatePatch (git.answer c) v.protectedFiles = .ok patch →
      ¬ TouchesProtected c.base c.staged v.protectedFiles) :
    VerdictExact v git c pre finals r := by
  rcases verify_ok h with ⟨hattempts, hstatus⟩ | ⟨hreproduced, patch, score, hpatch, hscore, hr⟩
  · exact verdict_unscored h hattempts hstatus
  obtain ⟨before, last, hretried, hftp, hptp, hreason, hattempts⟩ := scorePatches_ok hscore
  have hscored : Scored v last := scoreOnce_scored hretried.ended
  have hrecorded : r.attempts = attemptsOf "final" 0 (before ++ [last]) := by
    rw [hr, scoreVerdict_attempts, hattempts]
  have hlast : r.attempts.getLast? =
      some (last.asAttempt (phaseName "final" before.length)) := by
    rw [hrecorded, attemptsOf_append, attemptsOf, attemptsOf, List.getLast?_concat, Nat.zero_add]
  have hpassed : r.status = .passed ↔ hasReason last.infraReason = false ∧
      AllHave .passed v.failToPass last.ftpResults ∧
      AllHave .passed v.passToPass last.ptpResults := by
    rw [hr, scoreVerdict_passed (hne hreproduced) hscored hftp hptp hreason]
  refine ⟨⟨fun hstatus => ?_, ?_⟩, fun i attempt hattempt => ?_, fun attempt hattempt => ?_, ?_,
    fun q => verifyCandidate_passed h⟩
  · exact ⟨hreproduced, ⟨patch, hpatch⟩, htouch hreproduced patch hpatch, _, hlast,
      hpassed.1 hstatus⟩
  · rintro ⟨-, -, -, other, hother, hpasses⟩
    rw [hlast] at hother
    cases hother
    exact hpassed.2 hpasses
  · rw [hrecorded, attemptsOf_get] at hattempt
    obtain ⟨s, hs, rfl⟩ := Option.map_eq_some_iff.1 hattempt
    have hmade := hretried.attempted hs
    rw [Nat.zero_add] at hmade ⊢
    exact ⟨patch, s, hpatch, hmade, rfl⟩
  · rw [hrecorded, attemptsOf_append, attemptsOf, attemptsOf, List.dropLast_concat] at hattempt
    obtain ⟨i, hi⟩ := List.mem_iff_getElem?.1 hattempt
    rw [attemptsOf_get] at hi
    obtain ⟨s, hs, rfl⟩ := Option.map_eq_some_iff.1 hi
    obtain ⟨hs, hagain⟩ := hretried.followed i s hs
    exact shouldRetryPtp_spec (scoreOnce_scored hs) hagain
  · rw [hrecorded, attemptsOf_length, List.length_append]
    exact Nat.succ_le_succ hretried.bounded

/-! ## Containers in which every node has one status -/

/-- A command that succeeds and prints nothing. -/
def quiet : CompletedProcess := ⟨0, "", ""⟩

/-- Every command succeeds, and the log gives each node the status. -/
def uniform (v : DockerReplayVerifier) (status : NodeStatus) : EvalContainer where
  start := .ok quiet
  copy _ := .ok quiet
  exec _ _ := .ok quiet
  log _ := (v.failToPass ++ v.passToPass).map fun node => (node, status)
  junit _ := .ok none
  remove := .ok ()

section Uniform

variable {v : DockerReplayVerifier} {status : NodeStatus}

theorem uniform_log {run : TestRun} {node : String} (h : node ∈ v.failToPass ++ v.passToPass) :
    lookupNodeStatus ((uniform v status).log run) node = status := by
  have hget : ∀ nodes : List String, node ∈ nodes →
      Dict.get? (nodes.map fun n => (n, status)) node = some status := by
    intro nodes hnode
    induction nodes with
    | nil => cases hnode
    | cons first nodes ih =>
      rw [List.map_cons, Dict.get?_cons]
      split
      · rfl
      next hne => exact ih ((List.mem_cons.1 hnode).resolve_left fun heq => hne heq.symm)
  unfold lookupNodeStatus
  rw [uniform, hget _ h]

theorem statusMap_congr {f g : String → NodeStatus} {nodes : List String}
    (h : ∀ node ∈ nodes, f node = g node) : statusMap f nodes = statusMap g nodes := by
  unfold statusMap
  refine List.foldl_ext _ _ _ fun map node hnode => ?_
  rw [h node hnode]

theorem uniform_runNodes (status : NodeStatus) (run : TestRun) {nodes : List String}
    (hne : nodes ≠ []) (h : ∀ node ∈ nodes, node ∈ v.failToPass ++ v.passToPass) :
    ∃ command, (uniform v status).runNodes v run nodes =
      .ok (⟨command, 0, tailChars v.maxChars "", tailChars v.maxChars "", false⟩,
        statusMap (fun _ => status) nodes) := by
  have hmap : statusMap (lookupNodeStatus ((uniform v status).log run)) nodes =
      statusMap (fun _ => status) nodes :=
    statusMap_congr fun node hnode => uniform_log (h node hnode)
  have hbuilt : ∀ junitXml, ∃ command, buildTestCommand nodes junitXml = .ok command := by
    intro junitXml
    unfold buildTestCommand
    rw [if_neg hne]
    split
    · exact ⟨_, rfl⟩
    · exact ⟨_, rfl⟩
  obtain ⟨command, hcommand⟩ := hbuilt
    (if nodes ≠ [] ∧ nodes.all isDjangoNode = true then none else some "/tmp/evoci-junit.xml")
  refine ⟨command, ?_⟩
  unfold EvalContainer.runNodes
  rw [hmap]
  simp only [hcommand]
  change (if nodes ≠ [] ∧ nodes.all isDjangoNode = true then Except.ok (_, _)
    else Except.ok (_, _)) = _
  split
  · rfl
  · rfl

theorem detectInfraReason_none {command : List String} {stdout stderr : String}
    {nodes : List String} (hne : nodes ≠ []) (hstatus : status ≠ .missing) :
    detectInfraReason v ⟨command, 0, stdout, stderr, false⟩ (statusMap (fun _ => status) nodes) =
      none := by
  have hcollected : ((statusMap (fun _ => status) nodes).any (·.2 = .missing)) = false := by
    rw [List.any_eq_false]
    intro item hitem
    rw [(mem_statusMap.1 hitem).2]
    simpa using hstatus
  have hmap : statusMap (fun _ => status) nodes ≠ [] := fun hnil => hne (statusMap_eq_nil.1 hnil)
  simp [detectInfraReason, hcollected, hmap]

/-- The tests of such a container all have the status. -/
theorem uniform_runSuites (hne : v.failToPass ≠ []) (hstatus : status ≠ .missing)
    (runPassToPass : Bool) (commands : List BenchmarkCommandResult) :
    ∃ s, ((uniform v status).runSuites v runPassToPass commands).2 = .ok s ∧
      s.infraReason = none ∧ s.ftpResults = statusMap (fun _ => status) v.failToPass ∧
      (runPassToPass = true → s.ptpResults = statusMap (fun _ => status) v.passToPass) := by
  have hfirst : ∀ node ∈ v.failToPass, node ∈ v.failToPass ++ v.passToPass :=
    fun node hnode => List.mem_append_left _ hnode
  have hsecond : ∀ node ∈ v.passToPass, node ∈ v.failToPass ++ v.passToPass :=
    fun node hnode => List.mem_append_right _ hnode
  unfold EvalContainer.runSuites
  split
  next hcombined =>
    have hboth : v.failToPass ++ v.passToPass ≠ [] := by simp [hne]
    obtain ⟨command, hrun⟩ := uniform_runNodes status .first hboth fun node hnode => hnode
    rw [hrun]
    refine ⟨_, rfl, detectInfraReason_none hboth hstatus, ?_, fun _ => ?_⟩
    · refine statusMap_congr fun node hnode => ?_
      rw [get?_statusMap, if_pos (hfirst node hnode), Option.getD_some]
    · refine statusMap_congr fun node hnode => ?_
      rw [get?_statusMap, if_pos (hsecond node hnode), Option.getD_some]
  · obtain ⟨command, hrun⟩ := uniform_runNodes status .first hne hfirst
    rw [hrun]
    simp only [detectInfraReason_none hne hstatus, and_true]
    split
    next hkeep =>
      obtain ⟨command', hrun'⟩ := uniform_runNodes status .second hkeep.2 hsecond
      rw [hrun']
      exact ⟨_, rfl, detectInfraReason_none hkeep.2 hstatus, rfl, fun _ => rfl⟩
    next hkeep =>
      refine ⟨_, rfl, rfl, rfl, fun hrun => ?_⟩
      have hnil : v.passToPass = [] := by
        by_contra hne
        exact hkeep ⟨hrun, hne⟩
      rw [hnil]
      rfl

theorem uniform_scoreOnce (hne : v.failToPass ≠ []) (hstatus : status ≠ .missing)
    (phase candidate : String) (runPassToPass : Bool) :
    ∃ s, (uniform v status).scoreOnce v phase candidate runPassToPass = .ok s ∧
      s.infraReason = none ∧ s.ftpResults = statusMap (fun _ => status) v.failToPass ∧
      (runPassToPass = true → s.ptpResults = statusMap (fun _ => status) v.passToPass) := by
  have hgiven : ∀ content destination, ∃ commands,
      (uniform v status).applyGiven v content destination = .ok commands := by
    intro content destination
    unfold EvalContainer.applyGiven
    split
    · exact ⟨_, rfl⟩
    · exact ⟨_, rfl⟩
  obtain ⟨tested, htested⟩ := hgiven v.testPatch "/tmp/test.patch"
  obtain ⟨applied, happlied⟩ := hgiven candidate "/tmp/candidate.patch"
  have hbody : ∃ s, ((uniform v status).scoreBody v candidate runPassToPass).2 = .ok s ∧
      s.infraReason = none ∧ s.ftpResults = statusMap (fun _ => status) v.failToPass ∧
      (runPassToPass = true → s.ptpResults = statusMap (fun _ => status) v.passToPass) := by
    unfold EvalContainer.scoreBody
    rw [htested, happlied]
    simp only
    split
    · exact uniform_runSuites hne hstatus runPassToPass _
    · have hinstall : (uniform v status).reinstall v = .ok ⟨["python", "-m", "pip", "install",
          "--no-deps", "--no-build-isolation", "--disable-pip-version-check", "-e", "."], 0,
          tailChars v.maxChars "", tailChars v.maxChars "", false⟩ := rfl
      rw [hinstall]
      simp only [ne_eq, not_true_eq_false, Bool.false_eq_true, or_self, if_false]
      exact uniform_runSuites hne hstatus runPassToPass _
  obtain ⟨s, hs, hscore⟩ := hbody
  refine ⟨s, ?_, hscore⟩
  unfold EvalContainer.scoreOnce
  simp only [hs]
  rfl

end Uniform

/-! ## When the verdict keeps its promise -/

/-- Git fails, the diff is not UTF-8, or one of the paths that its lines show is refused. -/
def PatchUnbuilt (git : PatchGit) (c : Checkout) (protectedFiles : List String) : Prop :=
  c.failure ≠ none ∨ (∃ d ∈ git.diff c.base c.staged, d.undecodable ≠ none) ∨
    RefusesPath (git.diff c.base c.staged) protectedFiles

theorem patchUnbuilt_iff {git : PatchGit} {c : Checkout} {protectedFiles : List String} :
    PatchUnbuilt git c protectedFiles ↔
      ∀ patch, buildCandidatePatch (git.answer c) protectedFiles ≠ .ok patch := by
  unfold PatchUnbuilt PatchGit.answer
  cases hfailure : c.failure with
  | some failure => simp [buildCandidatePatch]
  | none =>
    simp only [ne_eq, not_true_eq_false, false_or]
    rw [buildCandidatePatch_printed]
    by_cases hbinary : ((git.diff c.base c.staged).any fun d => d.undecodable.isSome) = true
    · have hnot := mt decodable_iff.2 (by rw [hbinary]; decide)
      push Not at hnot
      simp only [hbinary, if_true, reduceCtorEq, not_false_eq_true, implies_true, iff_true]
      exact .inl hnot
    · have hnone := decodable_iff.1 (Bool.eq_false_iff.2 hbinary)
      have hno : ¬ ∃ d ∈ git.diff c.base c.staged, ¬ d.undecodable = none := by
        rintro ⟨d, hd, hsome⟩
        exact hsome (hnone d hd)
      rw [if_neg hbinary, or_iff_right hno]
      cases hfound : (git.diff c.base c.staged).flatMap FileDiff.readings |>.findSome?
          (refusedPath protectedFiles) with
      | none => simp [not_refusesPath_iff.2 hfound]
      | some refused =>
        have hrefuses : RefusesPath (git.diff c.base c.staged) protectedFiles := by
          by_contra hnot
          rw [not_refusesPath_iff.1 hnot] at hfound
          cases hfound
        simp [hrefuses]

section Uniform

variable {v : DockerReplayVerifier}

/-- Where every test to repair fails before the repair, the preflight is reproduced. -/
theorem uniform_preflight (hne : v.failToPass ≠ []) :
    ∃ pre, v.preflight (fun _ => uniform v .failed) = .ok pre ∧ pre.status = .reproduced := by
  obtain ⟨s, hs, hreason, hftp, -⟩ :=
    uniform_scoreOnce hne (by decide : NodeStatus.failed ≠ .missing) "baseline" "" false
  have hscore : ∃ score, scorePatches v (fun _ => uniform v .failed) "baseline" "" false =
      .ok score ∧ score.infraReason = none ∧
        score.ftpResults = statusMap (fun _ => .failed) v.failToPass := by
    unfold scorePatches scoreFrom
    rw [show phaseName "baseline" 0 = "baseline" from rfl, hs]
    exact ⟨_, rfl, hreason, hftp⟩
  obtain ⟨score, hscore, hreason, hftp⟩ := hscore
  have hmap : statusMap (fun _ => NodeStatus.failed) v.failToPass ≠ [] :=
    fun hnil => hne (statusMap_eq_nil.1 hnil)
  have hexecuted : score.ftpExecuted = true := by
    rw [SuiteScore.ftpExecuted, hftp]
    simp only [ne_eq, hmap, not_false_eq_true, decide_true, Bool.true_and, List.all_eq_true]
    intro item hitem
    rw [(mem_statusMap.1 hitem).2]
    decide
  have hfailed : score.anyFtpFailed = true := by
    obtain ⟨item, hitem⟩ := List.exists_mem_of_ne_nil _ hmap
    rw [SuiteScore.anyFtpFailed, hftp]
    refine List.any_eq_true.2 ⟨item, hitem, ?_⟩
    rw [(mem_statusMap.1 hitem).2]
    decide
  refine ⟨v.preflightVerdict score, ?_, ?_⟩
  · unfold DockerReplayVerifier.preflight
    rw [if_neg hne, hscore]
    rfl
  · simp [DockerReplayVerifier.preflightVerdict, hreason, hasReason, hexecuted, hfailed]

/-- Where every test passes after the repair, the verdict is a pass. -/
theorem uniform_verify (hne : v.failToPass ≠ []) {git : GitAnswer} {patch : String}
    (hpatch : buildCandidatePatch git v.protectedFiles = .ok patch)
    {pre : BenchmarkPreflightResult} (hpre : pre.status = .reproduced) :
    ∃ r, v.verify git (fun _ => uniform v .passed) pre = .ok r ∧ r.status = .passed := by
  obtain ⟨s, hs, hreason, hftp, hptp⟩ :=
    uniform_scoreOnce hne (by decide : NodeStatus.passed ≠ .missing) "final" patch true
  have hptp := hptp rfl
  have hpassed : ∀ nodes, AllHave .passed nodes (statusMap (fun _ => .passed) nodes) := by
    intro nodes node hnode
    rw [get?_statusMap, if_pos hnode]
  have hagain : shouldRetryPtp s = false := by
    have hnone : (s.ptpResults.any (·.2 = .failed)) = false := by
      rw [hptp, List.any_eq_false]
      intro item hitem
      rw [(mem_statusMap.1 hitem).2]
      decide
    unfold shouldRetryPtp
    split
    · rfl
    · split
      · rfl
      · exact hnone
  have hscore : ∃ score, scorePatches v (fun _ => uniform v .passed) "final" patch true =
      .ok score ∧ score.infraReason = s.infraReason ∧ score.ftpResults = s.ftpResults ∧
        score.ptpResults = s.ptpResults := by
    unfold scorePatches
    rw [if_pos rfl]
    cases v.ptpRetries with
    | zero =>
      unfold scoreFrom
      rw [show phaseName "final" 0 = "final" from rfl, hs]
      exact ⟨_, rfl, rfl, rfl, rfl⟩
    | succ retries =>
      unfold scoreFrom
      rw [show phaseName "final" 0 = "final" from rfl, hs]
      simp only [hagain, Bool.false_eq_true, if_false]
      exact ⟨_, rfl, rfl, rfl, rfl⟩
  obtain ⟨score, hscore, hsame, hsameFtp, hsamePtp⟩ := hscore
  refine ⟨v.scoreVerdict score, ?_, ?_⟩
  · unfold DockerReplayVerifier.verify
    rw [hpre, hpatch]
    change Except.map v.scoreVerdict (scorePatches v _ "final" patch true) = _
    rw [hscore]
    rfl
  · have hscored : Scored v s := scoreOnce_scored hs
    rw [scoreVerdict_passed hne hscored hsameFtp hsamePtp hsame, hreason, hftp, hptp]
    exact ⟨rfl, hpassed _, hpassed _⟩

end Uniform

/-- Over every behaviour of the containers the verdict keeps its promise, if and only if there
are no tests to repair, the patch of the candidate leaves the protected files alone, or it is not
built. -/
theorem verdict_exact_iff (v : DockerReplayVerifier) (git : PatchGit) (c : Checkout) :
    (∀ baseline finals pre r, v.preflight baseline = .ok pre →
        v.verify (git.answer c) finals pre = .ok r → VerdictExact v git c pre finals r) ↔
      v.failToPass = [] ∨ ¬ TouchesProtected c.base c.staged v.protectedFiles ∨
        PatchUnbuilt git c v.protectedFiles := by
  constructor
  · intro h
    by_contra hnot
    push Not at hnot
    obtain ⟨hne, htouches, hbuilt⟩ := hnot
    rw [patchUnbuilt_iff] at hbuilt
    push Not at hbuilt
    obtain ⟨patch, hpatch⟩ := hbuilt
    obtain ⟨pre, hpre, hreproduced⟩ := uniform_preflight hne
    obtain ⟨r, hr, hpassed⟩ := uniform_verify hne hpatch hreproduced
    exact ((h _ _ pre r hpre hr).passed_iff.1 hpassed).2.2.1 htouches
  · intro h baseline finals pre r hpre hr
    refine verdict_folds hr (preflight_reproduced hpre) fun hreproduced patch hpatch => ?_
    rcases h with hnil | hleaves | hunbuilt
    · exact absurd hnil (preflight_reproduced hpre hreproduced)
    · exact hleaves
    · exact absurd hpatch (patchUnbuilt_iff.1 hunbuilt patch)

namespace Sample

/-- One test to repair and one to keep. -/
def readVerifier : DockerReplayVerifier where
  failToPass := [unitRead.nodeId]
  passToPass := [liveRead.nodeId]
  testPatch := ""
  protectedFiles := ["tests/t.py"]
  maxChars := 500000
  ptpRetries := 1
  reprNodes _ := ""
  reprResults _ := ""

/-- The candidate that renamed a protected test gets a pass. -/
theorem renamed_test_passes :
    TouchesProtected renamedTest.base renamedTest.staged readVerifier.protectedFiles ∧
      ∃ pre r, readVerifier.preflight (fun _ => uniform readVerifier .failed) = .ok pre ∧
        readVerifier.verify (testRenamed.answer renamedTest)
          (fun _ => uniform readVerifier .passed) pre = .ok r ∧ r.status = .passed ∧
        ¬ VerdictExact readVerifier testRenamed renamedTest pre
          (fun _ => uniform readVerifier .passed) r := by
  have hne : readVerifier.failToPass ≠ [] := by simp [readVerifier]
  have hbuilt : buildCandidatePatch (.printed [renameDiff]) readVerifier.protectedFiles = .ok _ :=
    buildCandidatePatch_ok (by decide) (by decide +kernel)
  obtain ⟨pre, hpre, hreproduced⟩ := uniform_preflight hne
  obtain ⟨r, hr, hpassed⟩ := uniform_verify hne hbuilt hreproduced
  have htouches : TouchesProtected renamedTest.base renamedTest.staged
      readVerifier.protectedFiles := ⟨"tests/t.py", List.mem_singleton.2 rfl, by decide⟩
  exact ⟨htouches, pre, r, hpre, hr, hpassed,
    fun hexact => (hexact.passed_iff.1 hpassed).2.2.1 htouches⟩

end Sample

end EvoCI
