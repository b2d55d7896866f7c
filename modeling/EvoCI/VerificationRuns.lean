import EvoCI.Verification

/-! The local verifier over any commands and any workspace they change: when its verdict
passes, which results it reports, and what the supplementary commands can do to the
harness's own. -/

namespace EvoCI

/-! ## Plans of any commands -/

/-- What a command list may hold: a parsed command, an argument list, a dictionary (with what
its validation comes to) or something else. -/
inductive RawCommand where
  | parsed (spec : VerificationCommandSpec)
  | argv (items : List String)
  | mapping (validated : Except PyError VerificationCommandSpec)
  | other (repr : String)

/-- `parse_verification_command`. -/
def RawCommand.parse : RawCommand → Except PyError VerificationCommandSpec
  | .parsed spec => .ok spec
  | .argv items => parseVerificationCommand items
  | .mapping validated => validated
  | .other repr => .error (.valueError ("invalid verification command: " ++ repr))

def planRaw (source : VerificationCommandSource) (planned : List PlannedCommand) :
    List RawCommand → Except PyError (List PlannedCommand)
  | [] => .ok planned
  | command :: commands =>
    match command.parse with
    | .error e => .error e
    | .ok spec => planRaw source (planCommand planned source spec) commands

/-- `build_verification_plan` of any two lists. -/
def buildPlan (mandatory supplementary : List RawCommand) :
    Except PyError (List PlannedCommand) :=
  match planRaw .mandatory [] mandatory with
  | .error e => .error e
  | .ok planned => planRaw .supplementary planned supplementary

/-- What tells two planned commands apart. -/
def PlannedCommand.key (item : PlannedCommand) : List String × String := (item.command, item.cwd)

/-! ## Runs over a workspace -/

section

variable {σ : Type}

/-- The workspace before the command at `index`, when the earlier ones ran. -/
def workspaceBefore (run : σ → PlannedCommand → CommandOutcome × σ) (planned : List PlannedCommand)
    (start : σ) (index : Nat) : σ :=
  (planned.take index).foldl (fun workspace item => (run workspace item).2) start

/-- What the command at `index` comes to in that workspace. -/
def outcomeAt (run : σ → PlannedCommand → CommandOutcome × σ) (planned : List PlannedCommand)
    (start : σ) (index : Nat) : CommandOutcome :=
  match planned[index]? with
  | some item => (run (workspaceBefore run planned start index) item).1
  | none => .aborted ""

end

/-- The calls that are left; a run without a budget has one for each command. -/
def verificationLedger (planned : List PlannedCommand) : Option Ledger → Ledger
  | some ledger => ledger
  | none => { budget := { maxModelCalls := 0, maxToolCalls := planned.length } }

/-- The result of `VerificationService.run` on a plan. -/
def verificationResult {σ : Type} (run : σ → PlannedCommand → CommandOutcome × σ) (start : σ)
    (toolCall : Nat → RunEvent) (isolation : Option String) (budget : Option Ledger)
    (planned : List PlannedCommand) : VerificationResult :=
  (runVerification toolCall (outcomeAt run planned start) isolation planned
    (verificationLedger planned budget)).1

/-- A command that ends with exit code 0 in time. -/
def CommandOutcome.Passes (outcome : CommandOutcome) : Prop :=
  ∃ stdout stderr, outcome = .ran 0 stdout stderr false

/-- One result for each planned command, in order. -/
def Aligned (planned : List PlannedCommand) (commands : List VerificationCommandResult) : Prop :=
  List.Forall₂ (fun (item : PlannedCommand) (result : VerificationCommandResult) =>
    result.command = item.command ∧ result.cwd = item.cwd ∧ result.source = item.source)
    planned commands

/-- The execution reaches the command `count` places on, and an exception leaves it there: the
directory does not resolve, or running the command raises one that is not handled. -/
def InterruptedAt (outcome : Nat → CommandOutcome) (room index count : Nat) : Prop :=
  (∀ earlier < count, (outcome (index + earlier)).Passes) ∧
    ((count ≤ room ∧ ∃ reason, outcome (index + count) = .noDirectory reason) ∨
      (count < room ∧ ∃ reason, outcome (index + count) = .aborted reason))

section

variable {toolCall : Nat → RunEvent} {outcome : Nat → CommandOutcome}

theorem aligned_skipped (reason stderr : String) (planned : List PlannedCommand) :
    Aligned planned (planned.map (skippedResult reason stderr)) := by
  induction planned with
  | nil => exact List.Forall₂.nil
  | cons item rest ih => exact List.Forall₂.cons ⟨rfl, rfl, rfl⟩ ih

theorem ledger_full {ledger : Ledger} {e : PyError} (h : ledger.consumeToolCall = .error e) :
    ledger.room = 0 := by
  by_contra hroom
  obtain ⟨ledger', hok⟩ := Ledger.consumeToolCall_of_room (Nat.pos_of_ne_zero hroom)
  rw [hok] at h
  cases h

theorem passes_iff {exitCode : Int} {stdout stderr : String} {timedOut : Bool} :
    (CommandOutcome.ran exitCode stdout stderr timedOut).Passes ↔
      exitCode = 0 ∧ timedOut = false := by
  constructor
  · rintro ⟨stdout', stderr', h⟩
    cases h
    exact ⟨rfl, rfl⟩
  · rintro ⟨rfl, rfl⟩
    exact ⟨stdout, stderr, rfl⟩

theorem isFailed_iff {result : VerificationCommandResult} :
    isFailed result = false ↔ result.exitCode = 0 ∧ result.timedOut = false := by
  simp [isFailed]

/-- An interruption lies behind commands that pass. -/
theorem interruptedAt_succ {room index count : Nat} :
    InterruptedAt outcome (room + 1) index (count + 1) ↔
      (outcome index).Passes ∧ InterruptedAt outcome room (index + 1) count := by
  have hshift : ∀ n, index + (n + 1) = index + 1 + n := fun n => by omega
  unfold InterruptedAt
  rw [hshift count, Nat.add_le_add_iff_right, Nat.add_lt_add_iff_right]
  constructor
  · rintro ⟨hpass, hat⟩
    refine ⟨hpass 0 (by omega), fun earlier hearlier => ?_, hat⟩
    rw [← hshift]
    exact hpass (earlier + 1) (by omega)
  · rintro ⟨hfirst, hpass, hat⟩
    refine ⟨fun earlier hearlier => ?_, hat⟩
    cases earlier with
    | zero => exact hfirst
    | succ earlier =>
      rw [hshift]
      exact hpass earlier (by omega)

/-- A command that does not pass, or is not paid for, is the last that is reached. -/
theorem not_interruptedAt {room index count : Nat}
    (hdirectory : ∀ reason, outcome index ≠ .noDirectory reason)
    (habort : room = 0 ∨ ∀ reason, outcome index ≠ .aborted reason)
    (hlast : room = 0 ∨ ¬ (outcome index).Passes) : ¬ InterruptedAt outcome room index count := by
  rintro ⟨hpass, hat⟩
  cases count with
  | zero =>
    rcases hat with ⟨-, reason, hreason⟩ | ⟨hroom, reason, hreason⟩
    · exact hdirectory reason hreason
    · rcases habort with hfull | habort
      · omega
      · exact habort reason hreason
  | succ count =>
    rcases hlast with hfull | hlast
    · rcases hat with ⟨hroom, -⟩ | ⟨hroom, -⟩ <;> omega
    · exact hlast (hpass 0 (by omega))

/-- The command that the budget refuses is the last that is reached. -/
theorem executePlan_refused {index : Nat} {item : PlannedCommand} {rest : List PlannedCommand}
    {x : Execution} {e : PyError} (hdirectory : ∀ reason, outcome index ≠ .noDirectory reason)
    (hconsume : x.ledger.consumeToolCall = .error e) :
    executePlan toolCall outcome index (item :: rest) x =
      ({ x with
          results := x.results ++ (item :: rest).map (skippedResult e.message "")
          incompleteReason := some e.message
          incompleteCause := some .budget }, none) := by
  unfold executePlan
  split
  next reason hreason => exact absurd hreason (hdirectory reason)
  · simp only [hconsume]

/-- The command ran in time with exit code 0. -/
def Succeeded (item : PlannedCommand) (result : VerificationCommandResult) : Prop :=
  result.command = item.command ∧ result.cwd = item.cwd ∧ result.source = item.source ∧
    result.executed = true ∧ result.exitCode = 0 ∧ result.timedOut = false

/-- What the execution does with the next command: an exception leaves it, the command is the
last that is reached, or the execution goes on. -/
theorem executePlan_cons (index : Nat) (item : PlannedCommand) (rest : List PlannedCommand)
    (x : Execution) :
    (∃ x' reason, executePlan toolCall outcome index (item :: rest) x = (x', some reason) ∧
      x'.results = x.results ∧ ¬ (outcome index).Passes ∧
      InterruptedAt outcome x.ledger.room index 0) ∨
    (∃ x' first reason, executePlan toolCall outcome index (item :: rest) x = (x', none) ∧
      x'.results = x.results ++ first :: rest.map (skippedResult reason "") ∧
      Aligned [item] [first] ∧ ¬ Succeeded item first ∧
      (x.ledger.room = 0 ∨ ¬ (outcome index).Passes) ∧
      ∀ count, ¬ InterruptedAt outcome x.ledger.room index count) ∨
    ∃ x' result, executePlan toolCall outcome index (item :: rest) x =
        executePlan toolCall outcome (index + 1) rest x' ∧
      x'.results = x.results ++ [result] ∧ Succeeded item result ∧
      x'.incompleteReason = x.incompleteReason ∧ (outcome index).Passes ∧
      x.ledger.room = x'.ledger.room + 1 := by
  by_cases hdirectory : ∃ reason, outcome index = .noDirectory reason
  · obtain ⟨reason, houtcome⟩ := hdirectory
    refine .inl ⟨x, reason, by simp [executePlan, houtcome], rfl, ?_,
      fun earlier hearlier => by simp at hearlier, .inl ⟨Nat.zero_le _, reason, houtcome⟩⟩
    rintro ⟨stdout, stderr, hpass⟩
    simp [houtcome] at hpass
  · have hresolved : ∀ reason, outcome index ≠ .noDirectory reason :=
      fun reason h => hdirectory ⟨reason, h⟩
    cases hconsume : x.ledger.consumeToolCall with
    | error e =>
      have hfull := ledger_full hconsume
      refine .inr (.inl ⟨_, skippedResult e.message "" item, e.message,
        executePlan_refused hresolved hconsume, rfl, aligned_skipped e.message "" [item], ?_,
        .inl hfull, fun count => not_interruptedAt hresolved (.inl hfull) (.inl hfull)⟩)
      rintro ⟨-, -, -, hexecuted, -⟩
      cases hexecuted
    | ok ledger =>
      obtain ⟨hroom, hspent, -⟩ := Ledger.consumeToolCall_ok hconsume
      cases houtcome : outcome index with
      | noDirectory reason => exact absurd houtcome (hresolved reason)
      | aborted reason =>
        refine .inl ⟨{ x with ledger := ledger.emit (toolCall index) }, reason,
          by simp [executePlan, houtcome, hconsume], rfl, ?_,
          fun earlier hearlier => by simp at hearlier, .inr ⟨hroom, reason, houtcome⟩⟩
        rintro ⟨stdout, stderr, hpass⟩
        cases hpass
      | notStarted reason =>
        have hfails : ¬ (outcome index).Passes := by
          rintro ⟨stdout, stderr, hpass⟩
          simp [houtcome] at hpass
        refine .inr (.inl ⟨_, skippedResult reason reason item, reason, by
          simp only [executePlan, houtcome, hconsume]; rfl, rfl,
          aligned_skipped reason reason [item], ?_, .inr (houtcome ▸ hfails),
          fun count => not_interruptedAt hresolved (.inr (by simp [houtcome])) (.inr hfails)⟩)
        rintro ⟨-, -, -, hexecuted, -⟩
        cases hexecuted
      | ran exitCode stdout stderr timedOut =>
        let result : VerificationCommandResult :=
          { command := item.command, exitCode, stdout, stderr, timedOut, source := item.source,
            cwd := item.cwd }
        let done : Execution :=
          { x with ledger := ledger.emit (toolCall index), results := x.results ++ [result] }
        by_cases hfailed : isFailed result = true
        · have hfails : ¬ (outcome index).Passes := by
            rw [houtcome, passes_iff]
            intro hpass
            rw [(@isFailed_iff result).2 hpass] at hfailed
            cases hfailed
          let failed : Execution := { done with
            results := done.results ++ rest.map (skippedResult "earlier check failed" "") }
          refine .inr (.inl ⟨failed, result, "earlier check failed", ?_, by simp [failed, done],
            List.Forall₂.cons ⟨rfl, rfl, rfl⟩ .nil, ?_, .inr (houtcome ▸ hfails),
            fun count => not_interruptedAt hresolved (.inr (by simp [houtcome])) (.inr hfails)⟩)
          · simp [executePlan, houtcome, hconsume, failed, done, result, hfailed]
          · rintro ⟨-, -, -, -, hcode⟩
            rw [(@isFailed_iff result).2 hcode] at hfailed
            cases hfailed
        · have hcode := (@isFailed_iff result).1 (Bool.eq_false_iff.2 hfailed)
          refine .inr (.inr ⟨done, result, ?_, rfl, ⟨rfl, rfl, rfl, rfl, hcode⟩, rfl,
            passes_iff.2 hcode, ?_⟩)
          · rw [executePlan]
            simp [houtcome, hconsume, result, hfailed, done]
          · simp only [done, Ledger.room_emit]
            omega

/-- What the execution of the rest of a plan reports, and where it is interrupted. -/
theorem executePlan_reports (index : Nat) (planned : List PlannedCommand) (x : Execution) :
    ∃ results, (executePlan toolCall outcome index planned x).1.results = x.results ++ results ∧
      (((executePlan toolCall outcome index planned x).2 = none ∧ Aligned planned results ∧
          ∀ count, count < planned.length → ¬ InterruptedAt outcome x.ledger.room index count) ∨
        ((∃ reason, (executePlan toolCall outcome index planned x).2 = some reason) ∧
          results.length < planned.length ∧
          InterruptedAt outcome x.ledger.room index results.length)) := by
  induction planned generalizing index x with
  | nil => exact ⟨[], by simp [executePlan], .inl ⟨rfl, List.Forall₂.nil, by simp⟩⟩
  | cons item rest ih =>
    rcases @executePlan_cons toolCall outcome index item rest x with
      ⟨x', reason, hrun, hresults, -, hat⟩ |
      ⟨x', first, reason, hrun, hresults, hfirst, -, -, hnot⟩ |
      ⟨x', result, hrun, hresults, hsucceeded, -, hpasses, hroom⟩
    · rw [hrun]
      exact ⟨[], by simp [hresults], .inr ⟨⟨reason, rfl⟩, by simp, hat⟩⟩
    · rw [hrun]
      exact ⟨_, hresults, .inl ⟨rfl, List.Forall₂.cons (List.forall₂_cons.1 hfirst).1
        (aligned_skipped reason "" rest), fun count _ => hnot count⟩⟩
    · obtain ⟨results, hrest, hcase⟩ := ih (index + 1) x'
      rw [hrun, hroom]
      refine ⟨result :: results, by rw [hrest, hresults, List.append_assoc]; rfl, ?_⟩
      rcases hcase with ⟨hnone, haligned, hnot⟩ | ⟨hsome, hlength, hat⟩
      · refine .inl ⟨hnone, List.Forall₂.cons ⟨hsucceeded.1, hsucceeded.2.1, hsucceeded.2.2.1⟩
          haligned, fun count hcount => ?_⟩
        cases count with
        | zero =>
          obtain ⟨stdout, stderr, hpass⟩ := hpasses
          rintro ⟨-, ⟨-, reason, hreason⟩ | ⟨-, reason, hreason⟩⟩ <;>
            simp [hpass] at hreason
        | succ count =>
          rw [interruptedAt_succ]
          exact fun h => hnot count (by simpa using hcount) h.2
      · exact .inr ⟨hsome, by simpa using hlength, interruptedAt_succ.2 ⟨hpasses, hat⟩⟩

/-- Every command of the plan is reached, paid for, and passes. -/
def CleanFrom (outcome : Nat → CommandOutcome) (room index count : Nat) : Prop :=
  count ≤ room ∧ ∀ earlier < count, (outcome (index + earlier)).Passes

theorem cleanFrom_succ {room index count : Nat} :
    CleanFrom outcome (room + 1) index (count + 1) ↔
      (outcome index).Passes ∧ CleanFrom outcome room (index + 1) count := by
  have hshift : ∀ n, index + (n + 1) = index + 1 + n := fun n => by omega
  unfold CleanFrom
  rw [Nat.add_le_add_iff_right]
  constructor
  · rintro ⟨hroom, hpass⟩
    refine ⟨hpass 0 (by omega), hroom, fun earlier hearlier => ?_⟩
    rw [← hshift]
    exact hpass (earlier + 1) (by omega)
  · rintro ⟨hfirst, hroom, hpass⟩
    refine ⟨hroom, fun earlier hearlier => ?_⟩
    cases earlier with
    | zero => exact hfirst
    | succ earlier =>
      rw [hshift]
      exact hpass earlier (by omega)

/-- A clean execution reports a success for each command, and only a clean one does. -/
theorem executePlan_clean (index : Nat) (planned : List PlannedCommand) (x : Execution) :
    ∃ results, (executePlan toolCall outcome index planned x).1.results = x.results ++ results ∧
      (AllSucceeded planned results → CleanFrom outcome x.ledger.room index planned.length) ∧
      (CleanFrom outcome x.ledger.room index planned.length →
        AllSucceeded planned results ∧
          (executePlan toolCall outcome index planned x).2 = none ∧
          (executePlan toolCall outcome index planned x).1.incompleteReason =
            x.incompleteReason) := by
  induction planned generalizing index x with
  | nil =>
    exact ⟨[], by simp [executePlan], fun _ => ⟨Nat.zero_le _, by simp⟩,
      fun _ => ⟨List.Forall₂.nil, rfl, rfl⟩⟩
  | cons item rest ih =>
    rcases @executePlan_cons toolCall outcome index item rest x with
      ⟨x', reason, hrun, hresults, hfails, -⟩ |
      ⟨x', first, reason, hrun, hresults, -, hfirst, hlast, -⟩ |
      ⟨x', result, hrun, hresults, hsucceeded, hreason, hpasses, hroom⟩
    · rw [hrun]
      refine ⟨[], by simp [hresults], fun h => ?_, fun hclean => ?_⟩
      · cases h
      · exact absurd (hclean.2 0 (Nat.succ_pos _)) hfails
    · rw [hrun]
      refine ⟨_, hresults, fun h => absurd (List.forall₂_cons.1 h).1 hfirst, fun hclean => ?_⟩
      rcases hlast with hfull | hfails
      · have := hclean.1
        rw [hfull] at this
        simp at this
      · exact absurd (hclean.2 0 (Nat.succ_pos _)) hfails
    · obtain ⟨results, hrest, hback, hclean⟩ := ih (index + 1) x'
      rw [hrun, hroom, List.length_cons]
      refine ⟨result :: results, by rw [hrest, hresults, List.append_assoc]; rfl, fun h => ?_,
        fun h => ?_⟩
      · exact cleanFrom_succ.2 ⟨hpasses, hback (List.forall₂_cons.1 h).2⟩
      · obtain ⟨hall, hnone, hkept⟩ := hclean (cleanFrom_succ.1 h).2
        exact ⟨List.Forall₂.cons hsucceeded hall, hnone, hkept.trans hreason⟩

/-! ## Verdict and results of a run -/

@[simp] theorem evaluateVerification_commands (commands : List VerificationCommandResult)
    (expectedCount : Nat) (oracle : Bool) (reason : Option String)
    (cause : Option IncompleteCause) :
    (evaluateVerification commands expectedCount oracle reason cause).commands = commands := by
  unfold evaluateVerification
  simp only
  split
  · rfl
  · split
    · split
      · split <;> rfl
      · rfl
    · split <;> rfl

theorem evaluateVerification_incomplete (commands : List VerificationCommandResult)
    (expectedCount : Nat) (oracle : Bool) (reason : String) (cause : Option IncompleteCause) :
    (evaluateVerification commands expectedCount oracle (some reason) cause).passed = false := by
  by_contra h
  have hnone := (evaluateVerification_passed (Bool.eq_true_of_not_eq_false h)).2.2.1
  cases hnone

/-- Commands that all succeeded are all executed, and none of them failed. -/
theorem executed_of_succeeded {planned : List PlannedCommand}
    {commands : List VerificationCommandResult} (h : AllSucceeded planned commands) :
    (executedCommands commands).length = planned.length ∧
      (executedCommands commands).filter isFailed = [] := by
  induction h with
  | nil => exact ⟨rfl, rfl⟩
  | cons hfirst _ ih =>
    obtain ⟨-, -, -, hexecuted, hcode⟩ := hfirst
    have hfine := isFailed_iff.2 hcode
    constructor
    · simp [executedCommands, hexecuted] at ih ⊢
      exact ih.1
    · simp only [executedCommands, List.filter_cons, hexecuted, if_true, hfine] at ih ⊢
      simpa using ih.2

theorem evaluateVerification_succeeded {planned : List PlannedCommand}
    {commands : List VerificationCommandResult} (h : AllSucceeded planned commands)
    (cause : Option IncompleteCause) :
    (evaluateVerification commands planned.length true none cause).passed = true := by
  obtain ⟨hlength, hnone⟩ := executed_of_succeeded h
  simp [evaluateVerification, hnone, hlength]

/-- Results with a skipped command are no successes. -/
theorem not_succeeded_skipped {planned : List PlannedCommand} (hplanned : planned ≠ [])
    (reason stderr : String) :
    ¬ AllSucceeded planned (planned.map (skippedResult reason stderr)) := by
  cases planned with
  | nil => exact absurd rfl hplanned
  | cons item rest =>
    intro h
    have hexecuted := (List.forall₂_cons.1 h).1.2.2.2.1
    cases hexecuted

theorem planned_of_mandatory {planned : List PlannedCommand} (h : hasMandatory planned = true) :
    planned ≠ [] := by
  rintro rfl
  cases h

variable {isolation : Option String} {planned : List PlannedCommand} {ledger : Ledger}

/-- The verdict passes when the harness has a command and the whole plan is clean, and only
then. -/
theorem runVerification_passed_iff :
    (runVerification toolCall outcome isolation planned ledger).1.passed = true ↔
      hasMandatory planned = true ∧ isolation = none ∧
        CleanFrom outcome ledger.room 0 planned.length := by
  obtain ⟨results, hresults, hback, hclean⟩ :=
    @executePlan_clean toolCall outcome 0 planned (Execution.start ledger)
  rw [Execution.start_results, List.nil_append] at hresults
  by_cases hmandatory : hasMandatory planned = false
  · simp [runVerification, hmandatory, evaluateVerification]
  · cases isolation with
    | some reason => simp [runVerification, hmandatory, evaluateVerification_incomplete]
    | none =>
      have horacle : hasMandatory planned = true := by simpa using hmandatory
      refine ⟨fun hpassed => ⟨horacle, rfl, ?_⟩, fun h => ?_⟩
      · have hall := (runVerification_passed hpassed).2
        simp only [runVerification, if_neg hmandatory] at hall hpassed
        rcases hrun : executePlan toolCall outcome 0 planned (Execution.start ledger) with
          ⟨x, exception⟩
        rw [hrun] at hall hpassed hresults
        cases exception with
        | some reason => simp [evaluateVerification_incomplete] at hpassed
        | none =>
          simp only [evaluateVerification_commands] at hall
          exact hback (hresults ▸ hall)
      · obtain ⟨hall, hnone, hreason⟩ := hclean h.2.2
        simp only [runVerification, if_neg hmandatory]
        rcases hrun : executePlan toolCall outcome 0 planned (Execution.start ledger) with
          ⟨x, exception⟩
        rw [hrun] at hresults hnone hreason
        subst hnone
        have hcomplete : x.incompleteReason = none := hreason
        simp only at hresults ⊢
        rw [hresults, hcomplete]
        exact evaluateVerification_succeeded hall _

/-- Where the results of a run come from. -/
theorem runVerification_commands (horacle : hasMandatory planned = true) :
    let executed := executePlan toolCall outcome 0 planned (Execution.start ledger)
    let commands := (runVerification toolCall outcome none planned ledger).1.commands
    (executed.2 = none ∧ commands = executed.1.results) ∨
      ∃ reason, executed.2 = some reason ∧
        ((executed.1.results = [] ∧ commands = planned.map (skippedResult reason reason)) ∨
          (executed.1.results ≠ [] ∧ commands = executed.1.results)) := by
  have hmandatory : ¬ hasMandatory planned = false := by simp [horacle]
  simp only [runVerification, if_neg hmandatory]
  rcases executePlan toolCall outcome 0 planned (Execution.start ledger) with ⟨x, exception⟩
  cases exception with
  | none => exact .inl ⟨rfl, evaluateVerification_commands ..⟩
  | some reason =>
    refine .inr ⟨reason, rfl, ?_⟩
    by_cases hnil : x.results = []
    · exact .inl ⟨hnil, by simp [hnil]⟩
    · exact .inr ⟨hnil, by simp [hnil]⟩

/-- The results show it: the verdict passes when they hold a success for each command. -/
theorem runVerification_passed_iff_succeeded :
    (runVerification toolCall outcome isolation planned ledger).1.passed = true ↔
      hasMandatory planned = true ∧
        AllSucceeded planned
          (runVerification toolCall outcome isolation planned ledger).1.commands := by
  refine ⟨runVerification_passed, fun ⟨horacle, hall⟩ => ?_⟩
  have hplanned := planned_of_mandatory horacle
  cases isolation with
  | some reason =>
    have hmandatory : ¬ hasMandatory planned = false := by simp [horacle]
    simp only [runVerification, if_neg hmandatory, evaluateVerification_commands,
      Execution.start_results, if_true] at hall
    exact absurd hall (not_succeeded_skipped hplanned reason reason)
  | none =>
    obtain ⟨results, hresults, hback, -⟩ :=
      @executePlan_clean toolCall outcome 0 planned (Execution.start ledger)
    rw [Execution.start_results, List.nil_append] at hresults
    have hshown : AllSucceeded planned results := by
      rcases @runVerification_commands toolCall outcome planned ledger horacle with
        ⟨-, hcommands⟩ | ⟨reason, -, ⟨-, hcommands⟩ | ⟨-, hcommands⟩⟩
      · rwa [hcommands, hresults] at hall
      · rw [hcommands] at hall
        exact absurd hall (not_succeeded_skipped hplanned reason reason)
      · rwa [hcommands, hresults] at hall
    exact runVerification_passed_iff.2 ⟨horacle, rfl, hback hshown⟩

/-- At most one place is the one of an interruption. -/
theorem interruptedAt_unique {room index count count' : Nat}
    (h : InterruptedAt outcome room index count) (h' : InterruptedAt outcome room index count') :
    count ≤ count' := by
  by_contra hlt
  obtain ⟨stdout, stderr, hpass⟩ := h.1 count' (by omega)
  rcases h'.2 with ⟨-, reason, hreason⟩ | ⟨-, reason, hreason⟩ <;> simp [hpass] at hreason

/-- The results are aligned unless an exception leaves the execution after its first command. -/
theorem runVerification_aligned_iff :
    Aligned planned (runVerification toolCall outcome isolation planned ledger).1.commands ↔
      ¬ (hasMandatory planned = true ∧ isolation = none ∧ ∃ count, 0 < count ∧
        count < planned.length ∧ InterruptedAt outcome ledger.room 0 count) := by
  by_cases hmandatory : hasMandatory planned = false
  · simp [runVerification, hmandatory, aligned_skipped]
  · have horacle : hasMandatory planned = true := by simpa using hmandatory
    cases isolation with
    | some reason =>
      simp [runVerification, hmandatory, aligned_skipped]
    | none =>
      obtain ⟨results, hresults, hcase⟩ :=
        @executePlan_reports toolCall outcome 0 planned (Execution.start ledger)
      rw [Execution.start_results, List.nil_append] at hresults
      have hcommands := @runVerification_commands toolCall outcome planned ledger horacle
      simp only [hresults] at hcommands
      rcases hcase with ⟨hnone, haligned, hnot⟩ | ⟨⟨reason, hsome⟩, hlength, hat⟩
      · rw [hnone] at hcommands
        have hshown : (runVerification toolCall outcome none planned ledger).1.commands =
            results := by
          rcases hcommands with ⟨-, h⟩ | ⟨reason, h, -⟩
          · exact h
          · cases h
        rw [hshown]
        exact ⟨fun _ ⟨_, _, count, _, hcount, h⟩ => hnot count hcount h, fun _ => haligned⟩
      · rw [hsome] at hcommands
        rcases hcommands with ⟨h, -⟩ | ⟨reason', -, ⟨hnil, h⟩ | ⟨hsomeResults, h⟩⟩
        · cases h
        · rw [h]
          refine ⟨fun _ ⟨_, _, count, hpos, _, hcount⟩ => ?_, fun _ => aligned_skipped _ _ planned⟩
          have hle := interruptedAt_unique hcount hat
          rw [hnil] at hle
          exact absurd hle (by simp; omega)
        · rw [h]
          refine ⟨fun haligned => ?_, fun hno => ?_⟩
          · exact absurd (List.Forall₂.length_eq haligned) (by omega)
          · exact absurd ⟨horacle, rfl, results.length, List.length_pos_iff.2 hsomeResults,
              hlength, hat⟩ hno

/-! ## Plans -/

/-- A plan of commands from one source: earlier ones stay, new ones are of that source, and no
two have one key. -/
theorem planCommand_extends {planned : List PlannedCommand} {source : VerificationCommandSource}
    (spec : VerificationCommandSpec) (hdistinct : (planned.map (·.key)).Nodup) :
    ∃ extra, planCommand planned source spec = planned ++ extra ∧
      (∀ item ∈ extra, item.source = source) ∧
      ((planCommand planned source spec).map (·.key)).Nodup ∧
      (spec.argv, spec.cwd) ∈ (planCommand planned source spec).map (·.key) := by
  unfold planCommand
  split
  next hseen =>
    refine ⟨[], by simp, by simp, hdistinct, ?_⟩
    obtain ⟨item, hitem, hkey⟩ := List.any_eq_true.1 hseen
    simp only [decide_eq_true_eq] at hkey
    exact List.mem_map.2 ⟨item, hitem, by rw [PlannedCommand.key, hkey.1, hkey.2]⟩
  next hnew =>
    refine ⟨[⟨spec.argv, source, spec.cwd⟩], rfl, by simp, ?_, by simp [PlannedCommand.key]⟩
    rw [List.map_append, List.nodup_append]
    refine ⟨hdistinct, by simp, ?_⟩
    intro key hkey key' hkey' heq
    obtain ⟨item, hitem, hitemKey⟩ := List.mem_map.1 hkey
    simp only [List.map_cons, List.map_nil, List.mem_singleton] at hkey'
    apply hnew
    rw [heq, hkey'] at hitemKey
    simp only [PlannedCommand.key, Prod.mk.injEq] at hitemKey
    exact List.any_eq_true.2 ⟨item, hitem, by simpa using hitemKey⟩

theorem planRaw_extends {planned planned' : List PlannedCommand}
    {source : VerificationCommandSource} {commands : List RawCommand}
    (h : planRaw source planned commands = .ok planned')
    (hdistinct : (planned.map (·.key)).Nodup) :
    ∃ extra, planned' = planned ++ extra ∧ (∀ item ∈ extra, item.source = source) ∧
      (planned'.map (·.key)).Nodup ∧
      ∀ command ∈ commands, ∃ spec, command.parse = .ok spec ∧
        (spec.argv, spec.cwd) ∈ planned'.map (·.key) := by
  induction commands generalizing planned with
  | nil =>
    cases h
    exact ⟨[], by simp, by simp, hdistinct, by simp⟩
  | cons command rest ih =>
    unfold planRaw at h
    cases hparse : command.parse with
    | error e => rw [hparse] at h; cases h
    | ok spec =>
      rw [hparse] at h
      obtain ⟨first, hfirst, hsource, hnodup, hmem⟩ :=
        @planCommand_extends planned source spec hdistinct
      obtain ⟨extra, hextra, hsources, hnodup', hall⟩ := ih h hnodup
      refine ⟨first ++ extra, by rw [hextra, hfirst, List.append_assoc], ?_, hnodup', ?_⟩
      · intro item hitem
        rcases List.mem_append.1 hitem with h | h
        · exact hsource item h
        · exact hsources item h
      · intro command' hcommand'
        rcases List.mem_cons.1 hcommand' with rfl | hrest
        · refine ⟨spec, hparse, ?_⟩
          rw [hextra, List.map_append]
          exact List.mem_append_left _ hmem
        · exact hall command' hrest

/-- The plan of two lists is the plan of the mandatory one, and commands of the other. -/
theorem buildPlan_split {mandatory supplementary : List RawCommand}
    {planned : List PlannedCommand} (h : buildPlan mandatory supplementary = .ok planned) :
    ∃ own extra, buildPlan mandatory [] = .ok own ∧ planned = own ++ extra ∧
      (∀ item ∈ own, item.source = .mandatory) ∧ (∀ item ∈ extra, item.source = .supplementary) ∧
      (planned.map (·.key)).Nodup ∧
      ∀ command ∈ mandatory ++ supplementary, ∃ spec, command.parse = .ok spec ∧
        (spec.argv, spec.cwd) ∈ planned.map (·.key) := by
  unfold buildPlan at h
  cases hown : planRaw .mandatory [] mandatory with
  | error e => rw [hown] at h; cases h
  | ok own =>
    rw [hown] at h
    obtain ⟨own', hown', hsource, hnodup, hall⟩ := planRaw_extends hown (by simp)
    rw [List.nil_append] at hown'
    subst hown'
    obtain ⟨extra, hextra, hsources, hnodup', hall'⟩ := planRaw_extends h hnodup
    refine ⟨own, extra, by simp [buildPlan, hown, planRaw], hextra, hsource, hsources, hnodup', ?_⟩
    intro command hcommand
    rcases List.mem_append.1 hcommand with hmem | hmem
    · obtain ⟨spec, hparse, hkey⟩ := hall command hmem
      refine ⟨spec, hparse, ?_⟩
      rw [hextra, List.map_append]
      exact List.mem_append_left _ hkey
    · exact hall' command hmem

/-! ## The mandatory commands -/

section

variable {σ : Type} {run : σ → PlannedCommand → CommandOutcome × σ} {start : σ}

theorem workspaceBefore_append {own extra : List PlannedCommand} {index : Nat}
    (h : index ≤ own.length) :
    workspaceBefore run (own ++ extra) start index = workspaceBefore run own start index := by
  unfold workspaceBefore
  rw [List.take_append_of_le_length h]

theorem outcomeAt_append {own extra : List PlannedCommand} {index : Nat}
    (h : index < own.length) :
    outcomeAt run (own ++ extra) start index = outcomeAt run own start index := by
  unfold outcomeAt
  rw [List.getElem?_append_left h, workspaceBefore_append (by omega)]

end

end

/-- The contract of a run: its verdict passes exactly when the harness has a command and the
whole plan ran and passed, as the results and the runs themselves tell; the results are aligned
with the plan; the plan names each command once; and the harness's own commands come first, in
the workspaces in which they run without any other, which cannot make a run pass. -/
structure VerificationContract {σ : Type} (run : σ → PlannedCommand → CommandOutcome × σ)
    (start : σ) (toolCall : Nat → RunEvent) (isolation : Option String) (budget : Option Ledger)
    (mandatory : List RawCommand) (planned : List PlannedCommand) : Prop where
  succeeded : (verificationResult run start toolCall isolation budget planned).passed = true ↔
    hasMandatory planned = true ∧
      AllSucceeded planned (verificationResult run start toolCall isolation budget planned).commands
  passed : (verificationResult run start toolCall isolation budget planned).passed = true ↔
    hasMandatory planned = true ∧ isolation = none ∧
      CleanFrom (outcomeAt run planned start) (verificationLedger planned budget).room 0
        planned.length
  aligned : Aligned planned
    (verificationResult run start toolCall isolation budget planned).commands
  distinct : (planned.map (·.key)).Nodup
  ownFirst : ∃ own extra, buildPlan mandatory [] = .ok own ∧ planned = own ++ extra ∧
    (∀ item ∈ own, item.source = .mandatory) ∧ (∀ item ∈ extra, item.source = .supplementary) ∧
    (∀ index < own.length,
      workspaceBefore run planned start index = workspaceBefore run own start index ∧
        outcomeAt run planned start index = outcomeAt run own start index) ∧
    ((verificationResult run start toolCall isolation budget planned).passed = true →
      (verificationResult run start toolCall isolation budget own).passed = true)

/-- A run keeps its contract unless an exception leaves the execution once a result is there
and a command is left: the directory of a later command does not resolve, or running it raises
an exception that is not handled. -/
theorem contract_iff_uninterrupted {σ : Type} (run : σ → PlannedCommand → CommandOutcome × σ)
    (start : σ) (toolCall : Nat → RunEvent) (isolation : Option String) (budget : Option Ledger)
    (mandatory supplementary : List RawCommand) (planned : List PlannedCommand)
    (hplan : buildPlan mandatory supplementary = .ok planned) :
    VerificationContract run start toolCall isolation budget mandatory planned ↔
      ¬ (hasMandatory planned = true ∧ isolation = none ∧ ∃ count, 0 < count ∧
        count < planned.length ∧ InterruptedAt (outcomeAt run planned start)
          (verificationLedger planned budget).room 0 count) := by
  refine ⟨fun h => runVerification_aligned_iff.1 h.aligned, fun h => ?_⟩
  obtain ⟨own, extra, hown, hsplit, hsource, hsources, hdistinct, -⟩ := buildPlan_split hplan
  refine {
    succeeded := runVerification_passed_iff_succeeded
    passed := runVerification_passed_iff
    aligned := runVerification_aligned_iff.2 h
    distinct := hdistinct
    ownFirst := ⟨own, extra, hown, hsplit, hsource, hsources, fun index hindex => ?_,
      fun hpassed => ?_⟩ }
  · rw [hsplit]
    exact ⟨workspaceBefore_append (by omega), outcomeAt_append hindex⟩
  · obtain ⟨horacle, hisolation, hroom, hpasses⟩ := runVerification_passed_iff.1 hpassed
    have hlength : own.length ≤ planned.length := by simp [hsplit]
    refine runVerification_passed_iff.2 ⟨?_, hisolation, ?_, fun earlier hearlier => ?_⟩
    · obtain ⟨item, hitem, hitemSource⟩ := List.any_eq_true.1 horacle
      rw [hsplit] at hitem
      rcases List.mem_append.1 hitem with hmem | hmem
      · exact List.any_eq_true.2 ⟨item, hmem, hitemSource⟩
      · simp [hsources item hmem] at hitemSource
    · cases budget with
      | none => exact Nat.le_refl _
      | some ledger => exact Nat.le_trans hlength hroom
    · have hpass := hpasses earlier (by omega)
      rw [hsplit, Nat.zero_add, outcomeAt_append hearlier] at hpass
      rwa [Nat.zero_add]

namespace Sample

theorem pytest_cwd : ∃ raw, normalizeRepoCwd raw = .ok "." := ⟨".", by decide⟩

def pytestCommand : VerificationCommandSpec where
  argv := ["python", "-m", "pytest"]
  cwd := "."
  argvLength := by decide
  argvNonempty := by decide
  cwdNormal := pytest_cwd

/-- A candidate's own check, in a directory that is not there. -/
def strayCommand : VerificationCommandSpec where
  argv := ["python", "check.py"]
  cwd := "tools"
  argvLength := by decide
  argvNonempty := by decide
  cwdNormal := ⟨"tools", by decide⟩

/-- Commands pass in the workspace itself; no other directory is there. -/
def runAtRoot (workspace : Unit) (item : PlannedCommand) : CommandOutcome × Unit :=
  (if item.cwd = "." then .ran 0 "" "" false
    else .noDirectory "PolicyViolation: path does not exist", workspace)

/-- Every command that starts fails. -/
def runFailing (workspace : Unit) (item : PlannedCommand) : CommandOutcome × Unit :=
  (if item.cwd = "." then .ran 1 "" "" false
    else .noDirectory "PolicyViolation: path does not exist", workspace)

/-- The same check in the workspace itself. -/
def rootCommand : VerificationCommandSpec where
  argv := ["python", "check.py"]
  cwd := "."
  argvLength := by decide
  argvNonempty := by decide
  cwdNormal := pytest_cwd

def rootPlan : List PlannedCommand :=
  [⟨["python", "-m", "pytest"], .mandatory, "."⟩, ⟨["python", "check.py"], .supplementary, "."⟩]

def strayPlan : List PlannedCommand :=
  [⟨["python", "-m", "pytest"], .mandatory, "."⟩, ⟨["python", "check.py"], .supplementary, "tools"⟩]

end Sample

/-- The second command's directory is missing: there is one result for two commands. -/
theorem stray_directory_unreported :
    buildPlan [.parsed Sample.pytestCommand] [.parsed Sample.strayCommand] =
        .ok Sample.strayPlan ∧
      ¬ VerificationContract Sample.runAtRoot () (fun _ => ⟨"", .toolCall, .repair⟩) none none
        [.parsed Sample.pytestCommand] Sample.strayPlan := by
  refine ⟨by decide, fun h => ?_⟩
  have hlength := List.Forall₂.length_eq h.aligned
  revert hlength
  decide +kernel

/-- With its directory there, the plan of both commands keeps its contract. So does the stray one
when the first command fails: the second is reported as skipped. -/
theorem contract_of_pair :
    VerificationContract Sample.runAtRoot () (fun _ => ⟨"", .toolCall, .repair⟩) none none
        [.parsed Sample.pytestCommand] Sample.rootPlan ∧
      VerificationContract Sample.runFailing () (fun _ => ⟨"", .toolCall, .repair⟩) none none
        [.parsed Sample.pytestCommand] Sample.strayPlan := by
  constructor
  · refine (contract_iff_uninterrupted Sample.runAtRoot () (fun _ => ⟨"", .toolCall, .repair⟩) none
      none [.parsed Sample.pytestCommand] [.parsed Sample.rootCommand] Sample.rootPlan
      (by decide)).2 ?_
    rintro ⟨-, -, count, hpos, hlt, -, hstops⟩
    have hcount : count = 1 := by
      simp only [Sample.rootPlan, List.length_cons, List.length_nil] at hlt
      omega
    subst hcount
    rcases hstops with ⟨-, reason, hreason⟩ | ⟨-, reason, hreason⟩ <;> cases hreason
  · refine (contract_iff_uninterrupted Sample.runFailing () (fun _ => ⟨"", .toolCall, .repair⟩) none
      none [.parsed Sample.pytestCommand] [.parsed Sample.strayCommand] Sample.strayPlan
      (by decide)).2 ?_
    rintro ⟨-, -, count, hpos, -, hpasses, -⟩
    obtain ⟨stdout, stderr, hpassed⟩ := hpasses 0 hpos
    cases hpassed

end EvoCI
