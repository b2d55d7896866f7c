import EvoCI.Library.Run
import EvoCI.Benchmark.Manifest
import EvoCI.Benchmark.Replay

/-! The runner of a benchmark: tasks run side by side, each result is appended to `runs.jsonl`
as it comes in, the file is rewritten in manifest order at the end, and a resumed run starts
from the lines it finds. A crash may fall between any two steps, or inside a write. -/

namespace EvoCI

open Library

/-! ## Results -/

inductive BenchmarkVariant where
  | single
  | multi
  | multiMemory
  | evo
  deriving DecidableEq, Repr

inductive BenchmarkTaskStatus where
  | resolved
  | unresolved
  | notEvaluable
  | skipped
  | error
  | infraError
  deriving DecidableEq, Repr

/-- A result; `μ` are the metrics of a run. -/
structure BenchmarkResult (μ : Type) where
  taskId : String
  variant : BenchmarkVariant
  status : BenchmarkTaskStatus
  category : Option String := none
  metrics : Option μ := none
  skipped : Bool := false
  skipReason : Option String := none
  errorType : Option String := none
  errorMessage : Option String := none
  deriving DecidableEq

/-- The results that a resumed run does not take over. -/
def BenchmarkResult.isError {μ : Type} (r : BenchmarkResult μ) : Bool :=
  r.status = .error || r.status = .infraError

/-- Manifest, variant and parallelism of a run that is not refused, what of the metrics is the
verdict, and the JSON of a result with its validation. -/
structure BenchmarkRunner (μ : Type) where
  entries : List BenchmarkManifestEntry
  distinct : (entries.map BenchmarkManifestEntry.taskId).Nodup
  variant : BenchmarkVariant
  parallelism : Nat
  positive : 1 ≤ parallelism
  verdict : μ → BenchmarkVerificationStatus
  modelDumpJson : BenchmarkResult μ → String
  modelValidateJson : String → Option (BenchmarkResult μ)

/-! ## The state of a run -/

/-- What a run holds in memory: tasks that wait for the semaphore, tasks that run, results that
no one has taken up yet in the order they came in, and `results_by_id`. -/
structure RunState (μ : Type) where
  waiting : List BenchmarkManifestEntry := []
  running : List BenchmarkManifestEntry := []
  finished : List (BenchmarkResult μ) := []
  resultsById : Dict String (BenchmarkResult μ) := []

/-- What happened to the tasks: one was started, a result was written to `runs.jsonl`. -/
inductive RunnerEvent (μ : Type) where
  | executed (taskId : String)
  | wrote (r : BenchmarkResult μ)
  deriving DecidableEq

/-- The process, with what had happened when it was launched. -/
inductive RunnerProcess (μ : Type) where
  | down
  | executing (begun : List (RunnerEvent μ)) (st : RunState μ)
  | rewritten (begun : List (RunnerEvent μ)) (results : List (BenchmarkResult μ))
  | returned (begun : List (RunnerEvent μ)) (results : List (BenchmarkResult μ))
  | raised (e : Raised)

/-- `runs.jsonl`, the process that works on it and all that happened. -/
structure Bench (μ : Type) where
  file : Option String
  process : RunnerProcess μ
  events : List (RunnerEvent μ)

namespace BenchmarkRunner

variable {μ : Type} (R : BenchmarkRunner μ)

/-! ## Reading and writing results -/

/-- One line of `runs.jsonl`. -/
def line (r : BenchmarkResult μ) : String := R.modelDumpJson r ++ "\n"

/-- The text of `runs.jsonl` for these results. -/
def text (results : List (BenchmarkResult μ)) : List Char :=
  results.flatMap fun r => (R.line r).toList

def validateLines : List String → Except Raised (List (BenchmarkResult μ))
  | [] => .ok []
  | row :: rows =>
    if strip row = "" then validateLines rows
    else
      match R.modelValidateJson row with
      | none => .error ⟨"ValidationError", row⟩
      | some r => (validateLines rows).map (r :: ·)

/-- The results read back from the text of `runs.jsonl`. -/
def readRuns (contents : String) : Except Raised (List (BenchmarkResult μ)) :=
  R.validateLines (splitLines (String.ofList (universalNewlines contents.toList)))

/-- The results a resumed run takes over. -/
def priorResults (results : List (BenchmarkResult μ)) : Dict String (BenchmarkResult μ) :=
  results.foldl (fun prior r => if r.isError then prior else prior.set r.taskId r) []

def skippedResult (entry : BenchmarkManifestEntry) : BenchmarkResult μ where
  taskId := entry.taskId
  variant := R.variant
  status := .skipped
  category := some entry.category
  skipped := true
  skipReason := entry.skipReason

def verdictStatus : BenchmarkVerificationStatus → BenchmarkTaskStatus
  | .passed => .resolved
  | .failed => .unresolved
  | .notAvailable => .notEvaluable
  | .infraError => .infraError

/-- What `execute` makes of the metrics of a task, or of what its run raised. -/
def executedResult (entry : BenchmarkManifestEntry) : Except Raised μ → BenchmarkResult μ
  | .ok metrics =>
    { taskId := entry.taskId
      variant := R.variant
      status := verdictStatus (R.verdict metrics)
      category := some entry.category
      metrics := some metrics }
  | .error e =>
    { taskId := entry.taskId
      variant := R.variant
      status := .error
      category := some entry.category
      errorType := some e.kind
      errorMessage := some (if e.message = "" then e.kind else e.message) }

/-! ## Starting a run -/

/-- An entry is taken over, skipped, or left to be executed. -/
def place (prior : Dict String (BenchmarkResult μ)) (st : RunState μ)
    (entry : BenchmarkManifestEntry) : RunState μ :=
  match Dict.get? prior entry.taskId with
  | some r => { st with resultsById := st.resultsById.set entry.taskId r }
  | none =>
    if entry.skipped then
      { st with resultsById := st.resultsById.set entry.taskId (R.skippedResult entry) }
    else { st with waiting := st.waiting ++ [entry] }

/-- The process of a run with the results it takes over. -/
def begin (events : List (RunnerEvent μ)) (prior : Dict String (BenchmarkResult μ)) :
    RunnerProcess μ :=
  .executing events (R.entries.foldl (R.place prior) {})

/-- A run is launched, to resume what the file has or to begin with an empty one. -/
def launch (resume : Bool) (s : Bench μ) : Bench μ :=
  match resume, s.file with
  | true, some contents =>
    match R.readRuns contents with
    | .error e => { s with process := .raised e }
    | .ok results => { s with process := R.begin s.events (priorResults results) }
  | _, _ => { s with file := some "", process := R.begin s.events [] }

/-- The first run, whatever file it finds. -/
def fresh (file : Option String) : Bench μ := R.launch false ⟨file, .down, []⟩

/-! ## Steps -/

/-- What may happen next: a resumed run, a task that gets the semaphore, one that ends, its result
taken up, the file rewritten, the reports written behind it, and a crash, which may cut the write
of a result or of the whole file short after some characters. -/
inductive RunnerAction (μ : Type) where
  | resume
  | start (i : Nat)
  | finish (i : Nat) (answer : Except Raised μ)
  | append
  | rewrite
  | report
  | crash
  | crashAppending (n : Nat)
  | crashRewriting (n : Nat)

/-- `[results_by_id[entry.task_id] for entry in entries]`. -/
def collect (st : RunState μ) : Except Raised (List (BenchmarkResult μ)) :=
  R.entries.mapM fun entry =>
    match Dict.get? st.resultsById entry.taskId with
    | some r => .ok r
    | none => .error ⟨"KeyError", entry.taskId⟩

/-- The results that are written when every task is done. -/
def toRewrite (st : RunState μ) : Option (Except Raised (List (BenchmarkResult μ))) :=
  if st.waiting = [] ∧ st.running = [] ∧ st.finished.isEmpty then some (R.collect st) else none

def appended (file : Option String) (written : List Char) : Option String :=
  some (String.ofList ((file.getD "").toList ++ written))

/-- One step; one that is not possible changes nothing. -/
def step : RunnerAction μ → Bench μ → Bench μ
  | .resume, s =>
    match s.process with
    | .executing _ _ | .rewritten _ _ => s
    | .down | .returned _ _ | .raised _ => R.launch true s
  | .start i, s =>
    match s.process with
    | .executing begun st =>
      match st.waiting[i]? with
      | some entry =>
        if st.running.length < R.parallelism then
          { s with
            process := .executing begun
              { st with waiting := st.waiting.eraseIdx i, running := st.running ++ [entry] }
            events := s.events ++ [.executed entry.taskId] }
        else s
      | none => s
    | _ => s
  | .finish i answer, s =>
    match s.process with
    | .executing begun st =>
      match st.running[i]? with
      | some entry =>
        { s with
          process := .executing begun
            { st with
              running := st.running.eraseIdx i
              finished := st.finished ++ [R.executedResult entry answer] } }
      | none => s
    | _ => s
  | .append, s =>
    match s.process with
    | .executing begun st =>
      match st.finished with
      | r :: finished =>
        { file := appended s.file (R.line r).toList
          process := .executing begun
            { st with finished, resultsById := st.resultsById.set r.taskId r }
          events := s.events ++ [.wrote r] }
      | [] => s
    | _ => s
  | .rewrite, s =>
    match s.process with
    | .executing begun st =>
      match R.toRewrite st with
      | some (.ok results) =>
        { file := some (String.ofList (R.text results))
          process := .rewritten begun results
          events := s.events ++ results.map .wrote }
      | some (.error e) => { s with process := .raised e }
      | none => s
    | _ => s
  | .report, s =>
    match s.process with
    | .rewritten begun results => { s with process := .returned begun results }
    | _ => s
  | .crash, s =>
    match s.process with
    | .executing _ _ | .rewritten _ _ => { s with process := .down }
    | _ => s
  | .crashAppending n, s =>
    match s.process with
    | .executing _ st =>
      match st.finished with
      | r :: _ =>
        { file := appended s.file ((R.line r).toList.take n)
          process := .down
          events := s.events ++ if (R.line r).toList.length ≤ n then [.wrote r] else [] }
      | [] => s
    | _ => s
  | .crashRewriting n, s =>
    match s.process with
    | .executing _ st =>
      match R.toRewrite st with
      | some (.ok results) =>
        { s with file := some (String.ofList ((R.text results).take n)), process := .down }
      | _ => s
    | _ => s

end BenchmarkRunner

end EvoCI
