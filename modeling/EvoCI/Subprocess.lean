import EvoCI.Library.Utf8
import Mathlib.Algebra.Order.Ring.Rat
import Mathlib.Data.List.TakeWhile
import Mathlib.Logic.Function.Basic

/-! Running a command: its two pipes are drained while it runs, a bounded tail of each is kept, and
the process group is killed however the run ends. -/

namespace EvoCI

open Library

/-! ## The loop -/

inductive OutputStream where
  | stdout
  | stderr
  deriving DecidableEq, Repr

/-- What one pass of the loop finds: whether the process has ended, the run was cancelled and the
deadline is past, and what the ready streams bring. An empty chunk is the end of a stream. -/
structure Pass where
  exited : Bool
  cancelled : Bool
  expired : Bool
  ready : List (OutputStream × List UInt8)

structure Pipes where
  tails : OutputStream → List UInt8
  registered : OutputStream → Bool
  truncated : Bool

def Pipes.opened : Pipes := ⟨fun _ => [], fun _ => true, false⟩

/-- The last bytes, at most so many. -/
def lastBytes (count : Nat) (bytes : List UInt8) : List UInt8 := bytes.drop (bytes.length - count)

/-- One chunk; a stream that is not registered is not reported. -/
def Pipes.read (maxChars : Nat) (pipes : Pipes) (event : OutputStream × List UInt8) : Pipes :=
  let (stream, chunk) := event
  if pipes.registered stream = false then pipes
  else if chunk = [] then
    { pipes with registered := Function.update pipes.registered stream false }
  else
    let tail := pipes.tails stream ++ chunk
    if maxChars < tail.length then
      { pipes with
        tails := Function.update pipes.tails stream (lastBytes maxChars tail)
        truncated := true }
    else { pipes with tails := Function.update pipes.tails stream tail }

inductive Ending where
  | finished
  | timedOut
  | cancelled
  deriving DecidableEq, Repr

/-- Whether the loop ends before it selects. -/
def Pipes.ending (pipes : Pipes) (pass : Pass) : Option Ending :=
  if pipes.registered .stdout = false ∧ pipes.registered .stderr = false ∧ pass.exited then
    some .finished
  else if pass.cancelled then some .cancelled
  else if pass.expired then some .timedOut
  else none

/-- The loop; `none` is a loop that has not ended yet. -/
def drain (maxChars : Nat) : Pipes → List Pass → Option (Ending × Pipes)
  | _, [] => none
  | pipes, pass :: passes =>
    match pipes.ending pass with
    | some ending => some (ending, pipes)
    | none => drain maxChars (pass.ready.foldl (Pipes.read maxChars) pipes) passes

/-! ## The call -/

structure CommandResult where
  argv : List String
  cwd : String
  exitCode : Int
  stdout : String
  stderr : String
  timedOut : Bool
  truncated : Bool
  deriving DecidableEq, Repr

structure CommandRequest where
  argv : List String
  cwd : String
  timeout : Rat
  maxChars : Int

inductive SubprocessError where
  | valueError (message : String)
  | cancelled
  /-- `Popen` fails. -/
  | notStarted (message : String)
  /-- The killed process is not reaped in time. -/
  | timeoutExpired
  deriving DecidableEq, Repr

/-- What a run meets: a cancellation before it, whether the process starts, the passes of the loop
and the exit code once the process group is killed. -/
structure SubprocessHost where
  cancelledBefore : Bool
  notStarted : Option String
  passes : List Pass
  returncode : Option Int

/-- `tail.decode(errors="replace")`. -/
def decodeTail (bytes : List UInt8) : String := String.ofList (Utf8.decodeReplace bytes)

/-- `run_grouped_subprocess`. -/
def runGroupedSubprocess (request : CommandRequest) (host : SubprocessHost) :
    Option (Except SubprocessError CommandResult) :=
  if request.maxChars < 1 ∨ request.timeout ≤ 0 then
    some (.error (.valueError "timeout and max_chars must be positive"))
  else if host.cancelledBefore then some (.error .cancelled)
  else
    match host.notStarted with
    | some message => some (.error (.notStarted message))
    | none =>
      match drain request.maxChars.toNat Pipes.opened host.passes with
      | none => none
      | some (ending, pipes) =>
        match host.returncode with
        | none => some (.error .timeoutExpired)
        | some exitCode =>
          if ending = .cancelled then some (.error .cancelled)
          else some (.ok {
            argv := request.argv, cwd := request.cwd, exitCode
            stdout := decodeTail (pipes.tails .stdout)
            stderr := decodeTail (pipes.tails .stderr)
            timedOut := ending = .timedOut
            truncated := pipes.truncated })

/-! ## What is read of a stream -/

def chunksOf (stream : OutputStream) (ready : List (OutputStream × List UInt8)) :
    List (List UInt8) := (ready.filter fun event => event.1 = stream).map Prod.snd

/-- The bytes that a stream brings up to its end. -/
def received (stream : OutputStream) (ready : List (OutputStream × List UInt8)) : List UInt8 :=
  ((chunksOf stream ready).takeWhile fun chunk => chunk ≠ []).flatten

def Ended (stream : OutputStream) (ready : List (OutputStream × List UInt8)) : Prop :=
  [] ∈ chunksOf stream ready

theorem chunksOf_append (stream : OutputStream) (ready more : List (OutputStream × List UInt8)) :
    chunksOf stream (ready ++ more) = chunksOf stream ready ++ chunksOf stream more := by
  simp [chunksOf]

/-- Nothing is read behind the end of a stream. -/
theorem received_ended {stream : OutputStream} {ready : List (OutputStream × List UInt8)}
    (h : Ended stream ready) (more : List (OutputStream × List UInt8)) :
    received stream (ready ++ more) = received stream ready := by
  rw [received, received, chunksOf_append, List.takeWhile_append, if_neg]
  intro hall
  have hwhole := (List.takeWhile_prefix _).eq_of_length hall
  have hnonempty := List.takeWhile_eq_self_iff.mp hwhole [] h
  simp at hnonempty

theorem received_open {stream : OutputStream} {ready : List (OutputStream × List UInt8)}
    (h : ¬ Ended stream ready) (more : List (OutputStream × List UInt8)) :
    received stream (ready ++ more) = received stream ready ++ received stream more := by
  have hwhole : (chunksOf stream ready).takeWhile (fun chunk => chunk ≠ []) =
      chunksOf stream ready := List.takeWhile_eq_self_iff.mpr fun chunk hchunk =>
    decide_eq_true fun hnil => h (by rwa [hnil] at hchunk)
  rw [received, received, received, chunksOf_append, List.takeWhile_append, if_pos (by rw [hwhole]),
    List.flatten_append, hwhole]

theorem received_prefix (stream : OutputStream) (ready more : List (OutputStream × List UInt8)) :
    received stream ready <+: received stream (ready ++ more) := by
  by_cases h : Ended stream ready
  · exact ⟨[], by rw [List.append_nil, received_ended h]⟩
  · exact received_open h more ▸ List.prefix_append _ _

theorem received_other {other stream : OutputStream} (h : other ≠ stream) (chunk : List UInt8)
    (ready : List (OutputStream × List UInt8)) :
    received other (ready ++ [(stream, chunk)]) = received other ready := by
  rw [received, received, chunksOf_append]
  simp [chunksOf, Ne.symm h]

theorem received_next {stream : OutputStream} {ready : List (OutputStream × List UInt8)}
    (h : ¬ Ended stream ready) (chunk : List UInt8) :
    received stream (ready ++ [(stream, chunk)]) = received stream ready ++ chunk := by
  rw [received_open h]
  cases chunk <;> simp [received, chunksOf]

theorem ended_next (other stream : OutputStream) (chunk : List UInt8)
    (ready : List (OutputStream × List UInt8)) :
    Ended other (ready ++ [(stream, chunk)]) ↔ Ended other ready ∨ other = stream ∧ chunk = [] := by
  rw [Ended, chunksOf_append, List.mem_append]
  refine or_congr_right ?_
  by_cases h : other = stream
  · simp [chunksOf, h, eq_comm]
  · simp [chunksOf, h, Ne.symm h]

theorem lastBytes_append (count : Nat) (bytes more : List UInt8) :
    lastBytes count (lastBytes count bytes ++ more) = lastBytes count (bytes ++ more) := by
  simp only [lastBytes, List.length_append, List.length_drop]
  rw [List.drop_append, List.drop_append, List.drop_drop, List.length_drop]
  congr 2 <;> omega

theorem lastBytes_eq_self {count : Nat} {bytes : List UInt8} (h : bytes.length ≤ count) :
    lastBytes count bytes = bytes := by
  rw [lastBytes, Nat.sub_eq_zero_of_le h, List.drop_zero]

theorem length_lastBytes (count : Nat) (bytes : List UInt8) :
    (lastBytes count bytes).length = min bytes.length count := by
  rw [lastBytes, List.length_drop]
  omega

/-! ## The pipes behind a number of chunks -/

/-- Of each stream the tail of what came before its end is kept, whatever came in between. -/
structure Pipes.Holds (maxChars : Nat) (ready : List (OutputStream × List UInt8))
    (pipes : Pipes) : Prop where
  tails : ∀ stream, pipes.tails stream = lastBytes maxChars (received stream ready)
  registered : ∀ stream, pipes.registered stream = false ↔ Ended stream ready
  truncated : pipes.truncated = true ↔ ∃ stream, maxChars < (received stream ready).length

variable {maxChars : Nat} {ready : List (OutputStream × List UInt8)} {pipes : Pipes}

theorem Pipes.Holds.opened (maxChars : Nat) : Pipes.opened.Holds maxChars [] where
  tails _ := List.drop_nil.symm
  registered _ := ⟨Bool.noConfusion, fun h => absurd h List.not_mem_nil⟩
  truncated := ⟨Bool.noConfusion, fun ⟨_, h⟩ => absurd h (Nat.not_lt_zero maxChars)⟩

/-- A chunk of a stream that is open. -/
theorem Pipes.read_chunk {stream : OutputStream} {chunk : List UInt8}
    (hopen : pipes.registered stream ≠ false) (hchunk : chunk ≠ []) :
    pipes.read maxChars (stream, chunk) =
      { pipes with
        tails := Function.update pipes.tails stream
          (lastBytes maxChars (pipes.tails stream ++ chunk))
        truncated := pipes.truncated || maxChars < (pipes.tails stream ++ chunk).length } := by
  rw [Pipes.read, if_neg hopen, if_neg hchunk]
  by_cases h : maxChars < (pipes.tails stream ++ chunk).length
  · simp only [if_pos h, decide_eq_true h, Bool.or_true]
  · simp only [if_neg h, decide_eq_false h, Bool.or_false,
      lastBytes_eq_self (Nat.le_of_not_lt h)]

theorem Pipes.Holds.read (h : pipes.Holds maxChars ready) (event : OutputStream × List UInt8) :
    (pipes.read maxChars event).Holds maxChars (ready ++ [event]) := by
  obtain ⟨stream, chunk⟩ := event
  obtain ⟨htails, hregistered, htruncated⟩ := h
  by_cases hclosed : pipes.registered stream = false
  · -- The end of the stream was read before.
    have hended := (hregistered stream).mp hclosed
    have hsame : ∀ other, received other (ready ++ [(stream, chunk)]) = received other ready := by
      intro other
      by_cases hne : other = stream
      · rw [hne, received_ended hended]
      · exact received_other hne chunk ready
    rw [Pipes.read, if_pos hclosed]
    refine ⟨fun other => by rw [hsame, htails], fun other => ?_, by simp only [hsame, htruncated]⟩
    rw [hregistered, ended_next]
    refine ⟨Or.inl, fun h => h.elim id fun ⟨hother, _⟩ => hother ▸ hended⟩
  · have hrunning : ¬ Ended stream ready := fun hended => hclosed ((hregistered stream).mpr hended)
    have hreceived := received_next hrunning chunk
    by_cases hnil : chunk = []
    · have hsame : ∀ other, received other (ready ++ [(stream, chunk)]) = received other ready := by
        intro other
        by_cases hne : other = stream
        · rw [hne, hreceived, hnil, List.append_nil]
        · exact received_other hne chunk ready
      rw [Pipes.read, if_neg hclosed, if_pos hnil]
      refine ⟨fun other => by rw [hsame, htails], fun other => ?_, by simp only [hsame, htruncated]⟩
      rw [ended_next, ← hregistered]
      by_cases hne : other = stream
      · simp [hne, hnil]
      · simp [hne]
    · have hlength := length_lastBytes maxChars (received stream ready)
      rw [Pipes.read_chunk hclosed hnil]
      refine ⟨fun other => ?_, fun other => ?_, ?_⟩
      · show Function.update _ _ _ other = _
        by_cases hne : other = stream
        · rw [hne, Function.update_self, htails, hreceived, lastBytes_append]
        · rw [Function.update_of_ne hne, htails, received_other hne]
      · rw [hregistered, ended_next]
        simp [hnil]
      · have hlonger : maxChars < (pipes.tails stream ++ chunk).length ∨
            maxChars < (received stream ready).length ↔
              maxChars < (received stream ready ++ chunk).length := by
          have hpositive := List.length_pos_of_ne_nil hnil
          rw [htails, List.length_append, List.length_append, hlength]
          omega
        rw [Bool.or_eq_true, decide_eq_true_eq, htruncated]
        constructor
        · rintro (⟨other, hother⟩ | hown)
          · by_cases hne : other = stream
            · exact ⟨stream, hreceived ▸ hlonger.mp (.inr (hne ▸ hother))⟩
            · exact ⟨other, by rwa [received_other hne]⟩
          · exact ⟨stream, hreceived ▸ hlonger.mp (.inl hown)⟩
        · rintro ⟨other, hother⟩
          by_cases hne : other = stream
          · rw [hne, hreceived] at hother
            exact (hlonger.mpr hother).elim .inr fun hown => .inl ⟨stream, hown⟩
          · exact .inl ⟨other, by rwa [received_other hne] at hother⟩

/-- However the streams take turns and their bytes are cut into chunks. -/
theorem Pipes.Holds.readAll (h : pipes.Holds maxChars ready)
    (more : List (OutputStream × List UInt8)) :
    (more.foldl (Pipes.read maxChars) pipes).Holds maxChars (ready ++ more) := by
  induction more generalizing pipes ready with
  | nil => rwa [List.append_nil]
  | cons event more ih =>
    rw [List.append_cons]
    exact ih (h.read event)

/-! ## The loop as a whole -/

/-- The loop reads what some passes bring, and ends at the next one. -/
theorem drain_eq_some {passes : List Pass} {ending : Ending} {pipes' : Pipes}
    (h : drain maxChars pipes passes = some (ending, pipes')) :
    ∃ before last rest, passes = before ++ last :: rest ∧
      pipes' = (before.flatMap Pass.ready).foldl (Pipes.read maxChars) pipes ∧
      pipes'.ending last = some ending := by
  induction passes generalizing pipes with
  | nil => cases h
  | cons pass passes ih =>
    rw [drain] at h
    cases hending : pipes.ending pass with
    | some found =>
      rw [hending] at h
      cases h
      exact ⟨[], pass, passes, rfl, rfl, hending⟩
    | none =>
      rw [hending] at h
      obtain ⟨before, last, rest, rfl, rfl, hlast⟩ := ih h
      refine ⟨pass :: before, last, rest, rfl, ?_, ?_⟩
      · rw [List.flatMap_cons, List.foldl_append]
      · exact hlast

/-- A loop whose deadline passes ends. -/
theorem drain_ends {passes : List Pass} (h : ∃ pass ∈ passes, pass.expired = true) :
    (drain maxChars pipes passes).isSome = true := by
  induction passes generalizing pipes with
  | nil =>
    obtain ⟨pass, hpass, -⟩ := h
    cases hpass
  | cons pass passes ih =>
    rw [drain]
    cases hending : pipes.ending pass with
    | some ending => rfl
    | none =>
      refine ih ?_
      obtain ⟨other, hother, hexpired⟩ := h
      rcases List.mem_cons.mp hother with rfl | hother
      · rw [Pipes.ending, hexpired] at hending
        split_ifs at hending with h1 h2 h3
        exact absurd rfl h3
      · exact ⟨other, hother, hexpired⟩

/-! ## The result -/

/-- The text of a stream in a result. -/
def CommandResult.text (result : CommandResult) : OutputStream → String
  | .stdout => result.stdout
  | .stderr => result.stderr

/-- What a stream brings up to its end. -/
def SubprocessHost.output (host : SubprocessHost) (stream : OutputStream) : List UInt8 :=
  received stream (host.passes.flatMap Pass.ready)

/-- What is shown of bytes of which the last ones are kept. -/
theorem length_decodeTail (count : Nat) (bytes : List UInt8) :
    (decodeTail (lastBytes count bytes)).length ≤ count := by
  have hlength := Utf8.length_decodeReplace (lastBytes count bytes)
  rw [length_lastBytes] at hlength
  rw [decodeTail, String.length_ofList]
  omega

/-- Of a text the last characters are shown, behind what is left of one that is cut. -/
theorem decodeTail_text (count : Nat) (cs : List Char) :
    ∃ k j, k ≤ 3 ∧ (decodeTail (lastBytes count (cs.flatMap String.utf8EncodeChar))).toList =
      List.replicate k Utf8.replacement ++ cs.drop j := by
  rw [decodeTail, String.toList_ofList, lastBytes]
  exact Utf8.decodeReplace_drop cs _

theorem runGroupedSubprocess_ok {request : CommandRequest} {host : SubprocessHost}
    {result : CommandResult} (h : runGroupedSubprocess request host = some (.ok result)) :
    ∃ ending pipes, drain request.maxChars.toNat Pipes.opened host.passes = some (ending, pipes) ∧
      ending ≠ .cancelled ∧ (result.timedOut = true ↔ ending = .timedOut) ∧
      (∀ stream, result.text stream = decodeTail (pipes.tails stream)) ∧
      result.truncated = pipes.truncated := by
  rw [runGroupedSubprocess] at h
  by_cases hrefused : request.maxChars < 1 ∨ request.timeout ≤ 0
  · rw [if_pos hrefused] at h
    cases h
  by_cases hbefore : host.cancelledBefore = true
  · rw [if_neg hrefused, if_pos hbefore] at h
    cases h
  rw [if_neg hrefused, if_neg hbefore] at h
  cases hstarted : host.notStarted with
  | some message =>
    rw [hstarted] at h
    cases h
  | none =>
    rw [hstarted] at h
    cases hdrain : drain request.maxChars.toNat Pipes.opened host.passes with
    | none =>
      rw [hdrain] at h
      cases h
    | some run =>
      obtain ⟨ending, pipes⟩ := run
      rw [hdrain] at h
      cases hcode : host.returncode with
      | none =>
        rw [hcode] at h
        cases h
      | some exitCode =>
        rw [hcode] at h
        by_cases hcancelled : ending = .cancelled
        · subst hcancelled
          cases h
        simp only [if_neg hcancelled, Option.some.injEq, Except.ok.injEq] at h
        subst h
        refine ⟨ending, pipes, rfl, hcancelled, decide_eq_true_iff, fun stream => ?_, rfl⟩
        cases stream <;> rfl

/-- A run whose deadline passes comes to an end. -/
theorem runGroupedSubprocess_ends (request : CommandRequest) {host : SubprocessHost}
    (h : ∃ pass ∈ host.passes, pass.expired = true) :
    (runGroupedSubprocess request host).isSome = true := by
  rw [runGroupedSubprocess]
  split_ifs
  · rfl
  · rfl
  · cases host.notStarted with
    | some message => rfl
    | none =>
      have hdrain : (drain request.maxChars.toNat Pipes.opened host.passes).isSome = true :=
        drain_ends h
      obtain ⟨run, hrun⟩ := Option.isSome_iff_exists.mp hdrain
      rw [hrun]
      cases host.returncode with
      | none => rfl
      | some exitCode =>
        simp only
        split_ifs <;> rfl

/-- A run comes to an end once its deadline is past. A command that is not timed out shows of each
stream the end of all that it brings, one that is shows the end of what came in time: the order and
the pieces in which the output comes do not matter. -/
theorem grouped_output (request : CommandRequest) {host : SubprocessHost}
    (hdeadline : ∃ pass ∈ host.passes, pass.expired = true) :
    ∃ outcome, runGroupedSubprocess request host = some outcome ∧
      ∀ result, outcome = .ok result →
        ∃ read : OutputStream → List UInt8,
          (∀ stream, read stream <+: host.output stream) ∧
          (result.timedOut = false → read = host.output) ∧
          (∀ stream, result.text stream =
              decodeTail (lastBytes request.maxChars.toNat (read stream)) ∧
            (result.text stream).length ≤ request.maxChars.toNat) ∧
          (result.truncated = true ↔ ∃ stream, request.maxChars.toNat < (read stream).length) ∧
          ∀ stream (cs : List Char), read stream = cs.flatMap String.utf8EncodeChar →
            ∃ k j, k ≤ 3 ∧ (result.text stream).toList =
              List.replicate k Utf8.replacement ++ cs.drop j := by
  obtain ⟨outcome, houtcome⟩ := Option.isSome_iff_exists.mp
    (runGroupedSubprocess_ends request hdeadline)
  refine ⟨outcome, houtcome, ?_⟩
  rintro result rfl
  obtain ⟨ending, pipes, hdrain, hcancelled, htimedOut, htext, htruncated⟩ :=
    runGroupedSubprocess_ok houtcome
  obtain ⟨before, last, rest, hpasses, rfl, hending⟩ := drain_eq_some hdrain
  have hholds := (Pipes.Holds.opened request.maxChars.toNat).readAll (before.flatMap Pass.ready)
  rw [List.nil_append] at hholds
  have hwhole : host.passes.flatMap Pass.ready =
      before.flatMap Pass.ready ++ (last :: rest).flatMap Pass.ready := by
    rw [hpasses, List.flatMap_append]
  have hshown : ∀ stream, result.text stream = decodeTail (lastBytes request.maxChars.toNat
      (received stream (before.flatMap Pass.ready))) := fun stream => by
    rw [htext, hholds.tails]
  refine ⟨fun stream => received stream (before.flatMap Pass.ready), fun stream => ?_,
    fun hfinished => ?_, fun stream => ⟨hshown stream, ?_⟩, ?_, fun stream cs hcs => ?_⟩
  · rw [SubprocessHost.output, hwhole]
    exact received_prefix _ _ _
  · -- The loop ended because both streams had.
    have hclosed : ∀ stream, Ended stream (before.flatMap Pass.ready) := by
      rw [Pipes.ending] at hending
      split_ifs at hending with hdone hcancel hexpired
      · intro stream
        refine (hholds.registered stream).mp ?_
        cases stream with
        | stdout => exact hdone.1
        | stderr => exact hdone.2.1
      · exact absurd (Option.some.inj hending).symm hcancelled
      · rw [htimedOut.mpr (Option.some.inj hending).symm] at hfinished
        cases hfinished
    funext stream
    rw [SubprocessHost.output, hwhole, received_ended (hclosed stream)]
  · rw [hshown]
    exact length_decodeTail _ _
  · rw [htruncated, hholds.truncated]
  · have hread : received stream (before.flatMap Pass.ready) =
        cs.flatMap String.utf8EncodeChar := hcs
    rw [hshown, hread]
    exact decodeTail_text request.maxChars.toNat cs

namespace Sample

def testCommand : CommandRequest := ⟨["pytest", "-q"], ".", 5, 4⟩

/-- Both streams bring their bytes in turns; the first characters of the output are lost, one of
them in the middle. -/
def interleaved : SubprocessHost where
  cancelledBefore := false
  notStarted := none
  passes :=
    [⟨false, false, false, [(.stdout, [0x61, 0xc3]), (.stderr, [0x62])]⟩,
      ⟨false, false, false, [(.stderr, []), (.stdout, [0xa9, 0x63])]⟩,
      ⟨true, false, false, [(.stdout, [0x64, 0x65])]⟩,
      ⟨true, false, false, [(.stdout, [])]⟩, ⟨true, false, true, []⟩]
  returncode := some 1

theorem tail_kept :
    runGroupedSubprocess testCommand interleaved = some (.ok {
      argv := ["pytest", "-q"], cwd := ".", exitCode := 1, stdout := "\uFFFDcde", stderr := "b"
      timedOut := false, truncated := true }) ∧
    ∃ outcome, runGroupedSubprocess testCommand interleaved = some outcome ∧
      ∀ result, outcome = .ok result → ∀ stream, (result.text stream).length ≤ 4 := by
  refine ⟨by decide +kernel, ?_⟩
  obtain ⟨outcome, hrun, hresult⟩ := grouped_output testCommand
    (⟨⟨true, false, true, []⟩, by simp [interleaved], rfl⟩ :
      ∃ pass ∈ interleaved.passes, pass.expired = true)
  refine ⟨outcome, hrun, fun result hok stream => ?_⟩
  obtain ⟨read, -, -, htext, -⟩ := hresult result hok
  exact (htext stream).2

end Sample

end EvoCI
