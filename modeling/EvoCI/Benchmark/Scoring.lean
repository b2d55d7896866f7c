import EvoCI.Library.Retry
import EvoCI.Memory.Store
import EvoCI.Routing
import EvoCI.Benchmark.Junit

/-! Scoring a patch in fresh containers of the official image: patches go in, the package is
reinstalled, one or two test commands run, and an attempt whose only trouble is a failed
assertion of a test that should keep passing is made again. -/

namespace EvoCI

open Library

/-! ## Commands in a container -/

structure CompletedProcess where
  returncode : Int
  stdout : String
  stderr : String
  deriving DecidableEq, Repr

structure BenchmarkCommandResult where
  command : List String
  exitCode : Int
  stdout : String := ""
  stderr : String := ""
  timedOut : Bool := false
  deriving DecidableEq, Repr

/-- Which of the two test commands of an attempt. -/
inductive TestRun where
  | first
  | second
  deriving DecidableEq, Repr

inductive ExecStep where
  | gitApply (destination : String)
  | patch (destination : String)
  | reinstall
  | tests (run : TestRun)
  deriving DecidableEq, Repr

/-- What one container answers: to starting and removing it, to copying a file into it, to the
commands run in it, and what the log of a test command and its JUnit file tell. No elements are
read of a file that cannot be copied or parsed. -/
structure EvalContainer where
  start : Except Raised CompletedProcess
  copy : String → Except Raised CompletedProcess
  exec : ExecStep → List String → Except Raised CompletedProcess
  log : TestRun → Dict String NodeStatus
  junit : TestRun → Except Raised (Option (List TestcaseElement))
  remove : Except Raised Unit

/-- The task and the bounds of a verifier; `reprNodes` and `reprResults` are Python's `repr` of a
list of nodes and of a status map. -/
structure DockerReplayVerifier where
  failToPass : List String
  passToPass : List String
  testPatch : String
  protectedFiles : List String
  maxChars : Nat
  ptpRetries : Nat
  reprNodes : List String → String
  reprResults : Dict String NodeStatus → String

/-- `text[-n:]`. -/
def tailChars (n : Nat) (text : String) : String :=
  if n = 0 then text else String.ofList (text.toList.drop (text.toList.length - n))

/-- The detail of a failed command. -/
def commandDetail (result : CompletedProcess) : String :=
  let detail := strip (if result.stderr = "" then result.stdout else result.stderr)
  if detail = "" then s!"exit {result.returncode}" else detail

/-- `_checked`. -/
def checkedCommand (answer : Except Raised CompletedProcess) (operation : String) :
    Except Raised CompletedProcess := do
  let result ← answer
  if result.returncode ≠ 0 then
    .error ⟨"DockerError", s!"{operation} failed: {commandDetail result}"⟩
  else .ok result

/-- `_exec`. -/
def EvalContainer.run (c : EvalContainer) (v : DockerReplayVerifier) (step : ExecStep)
    (command : List String) : Except Raised BenchmarkCommandResult := do
  let completed ← c.exec step command
  .ok ⟨command, completed.returncode, tailChars v.maxChars completed.stdout,
    tailChars v.maxChars completed.stderr, completed.returncode = 124⟩

/-! ## Test nodes -/

/-- `^(\S+)\s+\(([^)]+)\)`: the name, what stands in the brackets and what follows. -/
def djangoMatch (text : List Char) : Option (List Char × List Char × List Char) :=
  let name := text.takeWhile (!isSpace ·)
  let rest := text.drop name.length
  let gap := rest.takeWhile isSpace
  match rest.drop gap.length with
  | '(' :: cs =>
    let inside := cs.takeWhile (· ≠ ')')
    match cs.drop inside.length with
    | ')' :: after =>
      if name ≠ [] ∧ gap ≠ [] ∧ inside ≠ [] then some (name, inside, after) else none
    | _ => none
  | _ => none

/-- `_DJANGO_NODE.match`; `$` also stands before a newline at the end. -/
def djangoNode (node : String) : Option (List Char × List Char) :=
  match djangoMatch node.toList with
  | some (name, inside, after) => if after = [] ∨ after = ['\n'] then some (name, inside) else none
  | none => none

def isDjangoNode (node : String) : Bool := (djangoNode node).isSome

def canonicalDjangoId (text : String) : Option String :=
  let stripped := strip text
  let shown := fun name inside : List Char => String.ofList (name ++ " (".toList ++ inside ++ [')'])
  match djangoNode stripped with
  | some (name, inside) => some (shown name inside)
  | none =>
    match djangoMatch stripped.toList with
    | some (name, inside, _) =>
      if "test".toList <+: name ∧ 4 < name.length then some (shown name inside) else none
    | none => none

/-- `text.rsplit(".", 1)[0]`. -/
def beforeLastDot (text : List Char) : List Char :=
  if '.' ∈ text then
    text.take (text.length - (text.reverse.takeWhile (· ≠ '.')).length - 1)
  else text

/-- `django_modules`. -/
def djangoModules (nodes : List String) : List String :=
  nodes.foldl (fun modules node =>
    match djangoNode node with
    | none => modules
    | some (_, inside) =>
      let module := String.ofList (beforeLastDot inside)
      if module ≠ "" ∧ module ∉ modules then modules ++ [module] else modules) []

/-- `build_test_command`. -/
def buildTestCommand (nodes : List String) (junitXml : Option String) :
    Except Raised (List String) :=
  if nodes = [] then .error ⟨"ValueError", "test command requires at least one node id"⟩
  else if nodes.all isDjangoNode then
    .ok (["python", "tests/runtests.py", "--verbosity", "2", "--settings=test_sqlite",
      "--parallel", "1"] ++ djangoModules nodes)
  else
    .ok (["python", "-m", "pytest", "-rA", "--tb=short", "-v"] ++
      junitXml.elim [] (fun path => ["--junitxml", path]) ++ nodes)

/-- `lookup_node_status`. -/
def lookupNodeStatus (parsed : Dict String NodeStatus) (node : String) : NodeStatus :=
  match Dict.get? parsed node with
  | some status => status
  | none =>
    match (canonicalDjangoId node).bind (Dict.get? parsed) with
    | some status => status
    | none => .missing

/-- `{node: f(node) for node in nodes}`. -/
def statusMap (f : String → NodeStatus) (nodes : List String) : Dict String NodeStatus :=
  nodes.foldl (fun map node => Dict.set map node (f node)) []

def infraMarkers : List String :=
  ["ERROR collecting", "ModuleNotFoundError", "ImportError", "InvalidVersion",
    "fixture not found", "recursive fixture", "INTERNALERROR", "no tests ran"]

/-- `detect_infra_reason`. -/
def detectInfraReason (v : DockerReplayVerifier) (result : BenchmarkCommandResult)
    (statuses : Dict String NodeStatus) : Option String :=
  if result.timedOut ∨ result.exitCode = 124 then some "timeout"
  else if statuses.any (·.2 = .missing) then
    let missing := (statuses.filter (·.2 = .missing)).map Prod.fst
    some s!"pytest did not collect target nodes: {v.reprNodes (missing.take 5)}"
  else if statuses ≠ [] then none
  else
    let text := result.stdout ++ "\n" ++ result.stderr
    match infraMarkers.find? fun marker => containsText marker text with
    | some marker => some marker
    | none =>
      if result.exitCode ∈ [2, 3, 4, 5] then some s!"test runner exit {result.exitCode}" else none

/-- `_run_nodes`: the JUnit file, where there is one with cases, outweighs the log. -/
def EvalContainer.runNodes (c : EvalContainer) (v : DockerReplayVerifier) (run : TestRun)
    (nodes : List String) : Except Raised (BenchmarkCommandResult × Dict String NodeStatus) := do
  let django := nodes ≠ [] ∧ nodes.all isDjangoNode
  let command ← buildTestCommand nodes (if django then none else some "/tmp/evoci-junit.xml")
  let result ← c.run v (.tests run) command
  let statuses := statusMap (lookupNodeStatus (c.log run)) nodes
  if django then .ok (result, statuses)
  else
    let elements ← c.junit run
    let cases := parseJunitXml (elements.getD [])
    if cases = [] then .ok (result, statuses)
    else .ok (result, statusMap (fun node => matchJunitStatus node cases) nodes)

/-! ## One attempt -/

/-- One attempt as it is recorded. -/
structure EvalAttempt where
  phase : String
  ftpResults : Dict String NodeStatus
  ptpResults : Dict String NodeStatus
  infraReason : Option String
  deriving DecidableEq, Repr

structure SuiteScore where
  commands : List BenchmarkCommandResult
  ftpResults : Dict String NodeStatus
  ptpResults : Dict String NodeStatus
  infraReason : Option String
  attempts : List EvalAttempt := []
  deriving DecidableEq, Repr

/-- A reason counts when it is not empty. -/
def hasReason (reason : Option String) : Bool := reason.any (· ≠ "")

namespace SuiteScore

def allFtpPassed (s : SuiteScore) : Bool :=
  s.ftpResults ≠ [] && s.ftpResults.all (·.2 = .passed)

def ftpExecuted (s : SuiteScore) : Bool :=
  s.ftpResults ≠ [] && s.ftpResults.all fun item => item.2 ∈ [.passed, .failed, .error]

def anyFtpFailed (s : SuiteScore) : Bool :=
  s.ftpResults.any fun item => item.2 ∈ [.failed, .error]

def allPtpPassed (s : SuiteScore) : Bool := s.ptpResults.all (·.2 = .passed)

def asAttempt (s : SuiteScore) (phase : String) : EvalAttempt :=
  ⟨phase, s.ftpResults, s.ptpResults, s.infraReason⟩

end SuiteScore

/-- `_apply_patch`. -/
def EvalContainer.applyPatch (c : EvalContainer) (v : DockerReplayVerifier)
    (destination : String) : Except Raised BenchmarkCommandResult := do
  let _ ← checkedCommand (c.copy destination) s!"copy {destination}"
  let applied ← c.run v (.gitApply destination)
    ["git", "-C", "/testbed", "apply", "--binary", "--whitespace=nowarn", destination]
  if applied.exitCode = 0 then .ok applied
  else
    let fallback ← c.run v (.patch destination)
      ["patch", "--batch", "--forward", "-p1", "-d", "/testbed", "-i", destination]
    if fallback.exitCode = 0 then .ok fallback
    else
      let shown := [fallback.stderr, fallback.stdout, applied.stderr].find? (· ≠ "")
      .error ⟨"PatchApplyError",
        s!"patch apply failed for {destination}: {strip (shown.getD applied.stdout)}"⟩

/-- A patch that is not blank is applied. -/
def EvalContainer.applyGiven (c : EvalContainer) (v : DockerReplayVerifier)
    (content destination : String) : Except Raised (List BenchmarkCommandResult) :=
  if strip content = "" then .ok [] else (c.applyPatch v destination).map fun result => [result]

/-- `_reinstall`. -/
def EvalContainer.reinstall (c : EvalContainer) (v : DockerReplayVerifier) :
    Except Raised BenchmarkCommandResult :=
  c.run v .reinstall ["python", "-m", "pip", "install", "--no-deps", "--no-build-isolation",
    "--disable-pip-version-check", "-e", "."]

/-- The score of an attempt that did not come to its tests. -/
def unscored (v : DockerReplayVerifier) (commands : List BenchmarkCommandResult)
    (reason : String) : SuiteScore :=
  ⟨commands, statusMap (fun _ => .missing) v.failToPass, [], some reason, []⟩

/-- The test commands of an attempt and what they come to. -/
def EvalContainer.runSuites (c : EvalContainer) (v : DockerReplayVerifier) (runPassToPass : Bool)
    (commands : List BenchmarkCommandResult) :
    List BenchmarkCommandResult × Except Raised SuiteScore :=
  if v.failToPass.all isDjangoNode ∧ runPassToPass ∧ v.passToPass ≠ [] then
    match c.runNodes v .first (v.failToPass ++ v.passToPass) with
    | .error e => (commands, .error e)
    | .ok (result, statuses) =>
      let commands := commands ++ [result]
      -- every node is a key of the map
      let status := fun node => (Dict.get? statuses node).getD .missing
      (commands, .ok ⟨commands, statusMap status v.failToPass, statusMap status v.passToPass,
        detectInfraReason v result statuses, []⟩)
  else
    match c.runNodes v .first v.failToPass with
    | .error e => (commands, .error e)
    | .ok (ftpResult, ftpResults) =>
      let commands := commands ++ [ftpResult]
      let infra := detectInfraReason v ftpResult ftpResults
      if runPassToPass ∧ v.passToPass ≠ [] ∧ infra = none then
        match c.runNodes v .second v.passToPass with
        | .error e => (commands, .error e)
        | .ok (ptpResult, ptpResults) =>
          let commands := commands ++ [ptpResult]
          (commands, .ok ⟨commands, ftpResults, ptpResults,
            detectInfraReason v ptpResult ptpResults, []⟩)
      else (commands, .ok ⟨commands, ftpResults, [], infra, []⟩)

/-- The body of `_score_once` in its container: the commands so far, and the score or what was
raised. -/
def EvalContainer.scoreBody (c : EvalContainer) (v : DockerReplayVerifier) (candidate : String)
    (runPassToPass : Bool) : List BenchmarkCommandResult × Except Raised SuiteScore :=
  match c.applyGiven v v.testPatch "/tmp/test.patch" with
  | .error e => ([], .error e)
  | .ok tested =>
    match c.applyGiven v candidate "/tmp/candidate.patch" with
    | .error e => (tested, .error e)
    | .ok applied =>
      let commands := tested ++ applied
      if strip candidate = "" ∨ v.failToPass.all isDjangoNode then
        c.runSuites v runPassToPass commands
      else
        match c.reinstall v with
        | .error e => (commands, .error e)
        | .ok install =>
          let commands := commands ++ [install]
          if install.exitCode ≠ 0 ∨ install.timedOut then
            (commands, .ok (unscored v commands "editable reinstall failed"))
          else c.runSuites v runPassToPass commands

/-- `_score_once` in a container: what Docker raises once it is started is a score too. -/
def EvalContainer.scoreOnce (c : EvalContainer) (v : DockerReplayVerifier) (phase : String)
    (candidate : String) (runPassToPass : Bool) : Except Raised SuiteScore := do
  let _ ← checkedCommand c.start s!"start {phase} eval container"
  let (commands, outcome) := c.scoreBody v candidate runPassToPass
  let score : Except Raised SuiteScore :=
    match outcome with
    | .ok score => .ok score
    | .error e =>
      if e.kind = "PatchApplyError" then
        .ok (unscored v commands s!"patch apply failed: {e.message}")
      else if e.kind = "DockerError" then .ok (unscored v commands e.message)
      else .error e
  c.remove
  score

/-! ## Attempts -/

/-- `_should_retry_ptp`. -/
def shouldRetryPtp (score : SuiteScore) : Bool :=
  if hasReason score.infraReason || !score.allFtpPassed || score.ptpResults = [] then false
  else if score.ptpResults.any fun item => item.2 ∉ [.passed, .failed] then false
  else score.ptpResults.any (·.2 = .failed)

def phaseName (phase : String) (extra : Nat) : String :=
  if extra = 0 then phase else s!"{phase}-ptp-retry-{extra}"

/-- The loop of `score_patches` with `left` of its retries, behind `extra` attempts. -/
def scoreFrom (v : DockerReplayVerifier) (containers : Nat → EvalContainer) (phase : String)
    (candidate : String) (runPassToPass : Bool) :
    Nat → Nat → List BenchmarkCommandResult → List EvalAttempt → Except Raised SuiteScore
  | left, extra, commands, attempts =>
    match (containers extra).scoreOnce v (phaseName phase extra) candidate runPassToPass with
    | .error e => .error e
    | .ok last =>
      let commands := commands ++ last.commands
      let attempts := attempts ++ [last.asAttempt (phaseName phase extra)]
      match left with
      | 0 => .ok { last with commands, attempts }
      | left + 1 =>
        if shouldRetryPtp last then
          scoreFrom v containers phase candidate runPassToPass left (extra + 1) commands attempts
        else .ok { last with commands, attempts }

/-- `score_patches`. -/
def scorePatches (v : DockerReplayVerifier) (containers : Nat → EvalContainer) (phase : String)
    (candidate : String) (runPassToPass : Bool) : Except Raised SuiteScore :=
  scoreFrom v containers phase candidate runPassToPass (if runPassToPass then v.ptpRetries else 0)
    0 [] []

end EvoCI
