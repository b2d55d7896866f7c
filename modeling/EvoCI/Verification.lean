import EvoCI.Budget
import EvoCI.Domain
import EvoCI.Routing

/-! The local verifier: harness commands first, each charged to the run, and a
verdict that passes only when every planned command ran and succeeded. -/

namespace EvoCI

/-! ## The plan -/

structure PlannedCommand where
  command : List String
  source : VerificationCommandSource
  cwd : String
  deriving DecidableEq, Repr

/-- Adds a command unless the same arguments in the same directory are planned. -/
def planCommand (planned : List PlannedCommand) (source : VerificationCommandSource)
    (spec : VerificationCommandSpec) : List PlannedCommand :=
  if planned.any fun item => item.command = spec.argv ∧ item.cwd = spec.cwd then planned
  else planned ++ [⟨spec.argv, source, spec.cwd⟩]

def planMandatory (planned : List PlannedCommand) :
    List (List String) → Except PyError (List PlannedCommand)
  | [] => .ok planned
  | command :: commands =>
    match parseVerificationCommand command with
    | .error e => .error e
    | .ok spec => planMandatory (planCommand planned .mandatory spec) commands

/-- `build_verification_plan`. -/
def buildVerificationPlan (mandatory : List (List String))
    (supplementary : List VerificationCommandSpec) : Except PyError (List PlannedCommand) :=
  match planMandatory [] mandatory with
  | .error e => .error e
  | .ok planned =>
    .ok (supplementary.foldl (fun planned spec => planCommand planned .supplementary spec) planned)

def hasMandatory (planned : List PlannedCommand) : Bool :=
  planned.any fun item => item.source = .mandatory

/-! ## The verdict -/

def environmentMarkers : List String :=
  ["ERROR collecting", "ModuleNotFoundError", "ImportError", "InvalidVersion",
    "fixture not found", "recursive fixture", "INTERNALERROR", "no tests ran"]

def outputText (result : VerificationCommandResult) : String :=
  result.stdout ++ "\n" ++ result.stderr

/-- `environment_failure_reason`. -/
def environmentFailureReason (result : VerificationCommandResult) : Option String :=
  if result.executed = false then none
  else if result.timedOut then some "timeout"
  else environmentMarkers.find? fun marker => containsText marker (outputText result)

def isFailed (result : VerificationCommandResult) : Bool :=
  result.exitCode ≠ 0 || result.timedOut

/-- The commands that ran. -/
def executedCommands (commands : List VerificationCommandResult) :
    List VerificationCommandResult :=
  commands.filter fun item => item.executed

/-- An expected count of zero is replaced by the number of commands. -/
def normalizedCount (expectedCount : Nat) (commands : List VerificationCommandResult) : Nat :=
  if expectedCount = 0 then commands.length else expectedCount

/-- `evaluate_verification` without a baseline environment reason. -/
def evaluateVerification (commands : List VerificationCommandResult) (expectedCount : Nat)
    (hasHarnessOracle : Bool) (incompleteReason : Option String)
    (incompleteCause : Option IncompleteCause) : VerificationResult :=
  let executed := executedCommands commands
  let failed := executed.filter isFailed
  let count := normalizedCount expectedCount commands
  let ran := executed.length
  if hasHarnessOracle = false then
    { passed := false, status := .unavailable, commands, expectedCount := count
      executedCount := ran
      incompleteReason := some (incompleteReason.getD
        "no reliable original verification; agent checks cannot substitute")
      successContract := by simp }
  else if failed ≠ [] then
    match failed.findSome? environmentFailureReason with
    | some reason =>
      if failed.any fun item => containsText "BASELINE_ENVIRONMENT_ERROR=" (outputText item) then
        { passed := false, status := .inconclusive, commands, expectedCount := count
          executedCount := ran, incompleteReason := some reason, successContract := by simp }
      else
        { passed := false, status := .infraError, commands, expectedCount := count
          executedCount := ran, incompleteReason := some reason, successContract := by simp }
    | none =>
      { passed := false, status := .failed, commands, expectedCount := count
        executedCount := ran, successContract := by simp }
  else if incompleteReason.isSome ∨ ran < expectedCount then
    { passed := false, status := .incomplete, commands, expectedCount := count
      executedCount := ran
      incompleteReason := some (incompleteReason.getD
        s!"executed {ran} of {expectedCount} required checks")
      incompleteCause, successContract := by simp }
  else
    { passed := true, status := .passed, commands, expectedCount := count, executedCount := ran
      successContract := by simp }

/-! ## Running the plan -/

/-- What running one planned command comes to. -/
inductive CommandOutcome where
  | ran (exitCode : Int) (stdout stderr : String) (timedOut : Bool)
  /-- An exception of the runner that stands for a command that did not start. -/
  | notStarted (reason : String)
  /-- The working directory does not resolve. -/
  | noDirectory (reason : String)
  /-- Any other exception while the command is run or reported. -/
  | aborted (reason : String)
  deriving DecidableEq, Repr

def skippedResult (reason stderr : String) (item : PlannedCommand) : VerificationCommandResult :=
  { command := item.command, exitCode := -1, stdout := "", stderr, source := item.source,
    executed := false, skipReason := some reason, cwd := item.cwd }

structure Execution where
  ledger : Ledger
  results : List VerificationCommandResult := []
  incompleteReason : Option String := none
  incompleteCause : Option IncompleteCause := none

def Execution.start (ledger : Ledger) : Execution := { ledger := ledger }

@[simp] theorem Execution.start_results (ledger : Ledger) :
    (Execution.start ledger).results = [] := rfl

/-- `execute(root)` over the plan from `index` on; the second component is an
exception that leaves it. -/
def executePlan (toolCall : Nat → RunEvent) (outcome : Nat → CommandOutcome) :
    Nat → List PlannedCommand → Execution → Execution × Option String
  | _, [], x => (x, none)
  | index, item :: rest, x =>
    match outcome index with
    | .noDirectory reason => (x, some reason)
    | outcomeHere =>
      match x.ledger.consumeToolCall with
      | .error e =>
        ({ x with
            results := x.results ++ (item :: rest).map (skippedResult e.message "")
            incompleteReason := some e.message
            incompleteCause := some .budget }, none)
      | .ok ledger =>
        let started := { x with ledger := ledger.emit (toolCall index) }
        match outcomeHere with
        | .ran exitCode stdout stderr timedOut =>
          let result : VerificationCommandResult :=
            { command := item.command, exitCode, stdout, stderr, timedOut, source := item.source,
              cwd := item.cwd }
          let done := { started with results := x.results ++ [result] }
          if isFailed result then
            ({ done with
                results := done.results ++ rest.map (skippedResult "earlier check failed" "") },
              none)
          else executePlan toolCall outcome (index + 1) rest done
        | .notStarted reason =>
          ({ started with
              results := x.results ++ skippedResult reason reason item ::
                rest.map (skippedResult reason "")
              incompleteReason := some reason
              incompleteCause := some .execution }, none)
        | .noDirectory reason | .aborted reason => (started, some reason)

/-- `VerificationService.run`. `isolation` is the error of copying the workspace
aside, if that fails. -/
def runVerification (toolCall : Nat → RunEvent) (outcome : Nat → CommandOutcome)
    (isolation : Option String) (planned : List PlannedCommand) (ledger : Ledger) :
    VerificationResult × Ledger :=
  if hasMandatory planned = false then
    (evaluateVerification (planned.map (skippedResult "no harness oracle" "")) 0 false none none,
      ledger)
  else
    let (x, exception) :=
      match isolation with
      | some reason => (Execution.start ledger, some reason)
      | none => executePlan toolCall outcome 0 planned (Execution.start ledger)
    match exception with
    | none =>
      (evaluateVerification x.results planned.length true x.incompleteReason x.incompleteCause,
        x.ledger)
    | some reason =>
      let results :=
        if x.results = [] then planned.map (skippedResult reason reason) else x.results
      (evaluateVerification results planned.length true (some reason)
        (some (x.incompleteCause.getD .execution)), x.ledger)

/-- Every command is charged before it is recorded. -/
theorem executePlan_covered {toolCall : Nat → RunEvent} {outcome : Nat → CommandOutcome}
    {index : Nat} {planned : List PlannedCommand} {x : Execution} (h : x.ledger.Covered) :
    (executePlan toolCall outcome index planned x).1.ledger.Covered := by
  induction planned generalizing index x with
  | nil => exact h
  | cons item rest ih =>
    unfold executePlan
    split
    · exact h
    · split
      · exact h
      next ledger hledger =>
        have hcovered := Ledger.covered_emit h hledger (toolCall index)
        simp only
        split
        · split
          · exact hcovered
          · exact ih hcovered
        · exact hcovered
        · exact hcovered
        · exact hcovered

theorem runVerification_covered {toolCall : Nat → RunEvent} {outcome : Nat → CommandOutcome}
    {isolation : Option String} {planned : List PlannedCommand} {ledger : Ledger}
    (h : ledger.Covered) :
    (runVerification toolCall outcome isolation planned ledger).2.Covered := by
  unfold runVerification
  split
  · exact h
  · cases isolation with
    | some reason => exact h
    | none =>
      have hrun := @executePlan_covered toolCall outcome 0 planned (Execution.start ledger) h
      simp only
      split <;> exact hrun

/-! ## A passing verdict -/

/-- Every planned command ran, in order, with exit code 0 and no timeout. -/
def AllSucceeded (planned : List PlannedCommand) (commands : List VerificationCommandResult) :
    Prop :=
  List.Forall₂ (fun (item : PlannedCommand) (result : VerificationCommandResult) =>
    result.command = item.command ∧ result.cwd = item.cwd ∧ result.source = item.source ∧
      result.executed = true ∧ result.exitCode = 0 ∧ result.timedOut = false) planned commands

theorem evaluateVerification_passed {commands : List VerificationCommandResult}
    {expectedCount : Nat} {oracle : Bool} {reason : Option String} {cause : Option IncompleteCause}
    (h : (evaluateVerification commands expectedCount oracle reason cause).passed = true) :
    oracle = true ∧ (executedCommands commands).filter isFailed = [] ∧ reason = none ∧
      expectedCount ≤ (executedCommands commands).length ∧
      (evaluateVerification commands expectedCount oracle reason cause).commands = commands := by
  unfold evaluateVerification at h ⊢
  simp only at h ⊢
  split at h
  · cases h
  next horacle =>
    split at h
    · split at h
      · split at h <;> cases h
      · cases h
    next hfailed =>
      split at h
      · cases h
      next hcomplete =>
        simp only [not_or, Bool.not_eq_true, Option.isSome_eq_false_iff, Option.isNone_iff_eq_none,
          Nat.not_lt] at hcomplete
        have hnil := Decidable.not_not.mp hfailed
        refine ⟨by simpa using horacle, hnil, hcomplete.1, hcomplete.2, ?_⟩
        simp [horacle, hnil, hcomplete.1, Nat.not_lt.mpr hcomplete.2]

/-- An execution without a reason to be incomplete ran the commands until one
failed. -/
theorem executePlan_ran {toolCall : Nat → RunEvent} {outcome : Nat → CommandOutcome} {index : Nat}
    {planned : List PlannedCommand} {x x' : Execution}
    (h : executePlan toolCall outcome index planned x = (x', none))
    (hreason : x'.incompleteReason = none) :
    ∃ results, x'.results = x.results ++ results ∧
      ((executedCommands results).filter isFailed = [] → AllSucceeded planned results) := by
  induction planned generalizing index x with
  | nil =>
    cases h
    exact ⟨[], by simp, fun _ => List.Forall₂.nil⟩
  | cons item rest ih =>
    unfold executePlan at h
    split at h
    · cases h
    · split at h
      · cases h
        cases hreason
      · simp only at h
        split at h
        next exitCode stdout stderr timedOut _ =>
          split at h
          next hfailed =>
            cases h
            refine ⟨_, by rw [List.append_assoc], fun hnone => ?_⟩
            simp [executedCommands, hfailed] at hnone
          next hpassed =>
            obtain ⟨results, hresults, hall⟩ := ih h
            refine ⟨_, by rw [hresults, List.append_assoc], fun hnone => ?_⟩
            have hrest : (executedCommands results).filter isFailed = [] := by
              simpa [executedCommands, hpassed] using hnone
            refine List.Forall₂.cons ⟨rfl, rfl, rfl, rfl, ?_, ?_⟩ (hall hrest)
            · simpa [isFailed] using (by simpa [isFailed] using hpassed : _ ∧ _).1
            · simpa [isFailed] using (by simpa [isFailed] using hpassed : _ ∧ _).2
        · cases h
          cases hreason
        · cases h
        · cases h

/-- A passing verdict of the local verifier: some command is the harness's own,
and every planned command ran and succeeded. -/
theorem runVerification_passed {toolCall : Nat → RunEvent} {outcome : Nat → CommandOutcome}
    {isolation : Option String} {planned : List PlannedCommand} {ledger : Ledger}
    (h : (runVerification toolCall outcome isolation planned ledger).1.passed = true) :
    hasMandatory planned = true ∧
      AllSucceeded planned
        (runVerification toolCall outcome isolation planned ledger).1.commands := by
  unfold runVerification at h ⊢
  split at h
  next hnone =>
    have horacle := (evaluateVerification_passed h).1
    cases horacle
  next hsome =>
    refine ⟨by simpa using hsome, ?_⟩
    rw [if_neg hsome]
    cases isolation with
    | some reason =>
      have := (evaluateVerification_passed h).2.2.1
      cases this
    | none =>
      simp only at h ⊢
      cases hx : executePlan toolCall outcome 0 planned (Execution.start ledger) with
      | mk x exception =>
        rw [hx] at h
        simp only at h ⊢
        cases exception with
        | some reason =>
          have := (evaluateVerification_passed h).2.2.1
          cases this
        | none =>
          simp only at h ⊢
          obtain ⟨-, hfailed, hreason, -, hcommands⟩ := evaluateVerification_passed h
          obtain ⟨results, hresults, hall⟩ := executePlan_ran hx hreason
          rw [Execution.start_results, List.nil_append] at hresults
          rw [hcommands, hresults]
          exact hall (hresults ▸ hfailed)

end EvoCI
