import EvoCI.JsonExtraction
import EvoCI.Memory.Store

/-! The gateway to the model: requests are made again after transient errors, an answer that does
not fit its schema is corrected, and the usage of every answer is observed. -/

namespace EvoCI

open Library
open Library.JsonText (Value)

/-! ## Requests -/

/-- What a request ends with. -/
inductive Reply (M : Type) where
  | message (m : M)
  /-- A timeout, a lost connection, a rate limit or an error of the server. -/
  | transient (e : Raised)
  /-- A validation, decoding or parser error, a `TypeError` or a `ValueError`, and the raw message
  that it may carry. -/
  | content (e : Raised) (raw : Option M)
  /-- Any other exception, a cancellation among them. -/
  | other (e : Raised)

inductive RequestKind where
  | structured
  | plainJsonCorrection
  | toolAction
  | structuredFinalize
  deriving DecidableEq, Repr

inductive GatewayEffect (M : Type) where
  /-- A request, and what the prompt says of the previous output. -/
  | request (correction : Option String)
  | sleep (seconds : Nat)
  | observe (kind : RequestKind) (m : M)
  deriving Repr

inductive GatewayFailure (M : Type) where
  /-- `ModelGatewayError`. -/
  | gateway (message : String)
  | content (e : Raised) (raw : Option M)
  | other (e : Raised)

structure GatewayRun (M α : Type) where
  effects : List (GatewayEffect M)
  result : Except (GatewayFailure M) α

/-- At least one attempt is made. -/
structure Gateway where
  maxAttempts : Nat
  positive : 0 < maxAttempts

/-- `max_attempts or int(os.environ.get(...))`, and at least one. -/
def Gateway.ofSettings (maxAttempts : Option Int) (environment : Int) : Gateway :=
  let configured :=
    match maxAttempts with
    | some attempts => if attempts = 0 then environment else attempts
    | none => environment
  ⟨(max 1 configured).toNat, by omega⟩

example : (Gateway.ofSettings (some 0) 3).maxAttempts = 3 ∧
    (Gateway.ofSettings (some (-2)) 3).maxAttempts = 1 := ⟨rfl, rfl⟩

def exceptionDetail (e : Raised) : String :=
  let kind := e.kind
  let message := strip e.message
  if message = "" then kind else s!"{kind}: {message}"

def Gateway.exhaustedMessage (g : Gateway) (e : Raised) : String :=
  let attempts := g.maxAttempts
  let detail := exceptionDetail e
  s!"model call failed after {attempts} attempts: {detail}"

section Calls

variable {M V P : Type} (g : Gateway) (provider : Nat → Reply M)

/-- The body of the loop of `_retry` with this many attempts left behind it; `made` requests were
made before. -/
def retryFrom (correction : Option String) : Nat → Nat → Nat → GatewayRun M M
  | left, attempt, made =>
    match provider made with
    | .message m => ⟨[.request correction], .ok m⟩
    | .content e raw => ⟨[.request correction], .error (.content e raw)⟩
    | .other e => ⟨[.request correction], .error (.other e)⟩
    | .transient e =>
      match left with
      | 0 => ⟨[.request correction], .error (.gateway (g.exhaustedMessage e))⟩
      | left + 1 =>
        let rest := retryFrom correction left (attempt + 1) (made + 1)
        ⟨.request correction :: .sleep (2 * 2 ^ (attempt - 1)) :: rest.effects, rest.result⟩

/-- `_retry`. -/
def retry (correction : Option String) (made : Nat) : GatewayRun M M :=
  retryFrom g provider correction (g.maxAttempts - 1) 1 made

/-! ## Answers -/

/-- How an answer is read as a value of the response model. -/
structure ResponseModel (M V P : Type) where
  /-- What the parser makes of the message: `parsed` and `parsing_error`. -/
  parse : M → Option P × Option Raised
  /-- The value, where what was parsed is one already. -/
  asInstance : P → Option V
  /-- `model_validate`. -/
  validate : P → Except Raised V
  text : M → String
  readFloat : List Char → String
  /-- The digits that `int` reads at most. -/
  digits : Option Nat
  validatePayload : Payload → Except Raised V

variable (r : ResponseModel M V P)

def ResponseModel.structured (m : M) : Except Raised V :=
  match r.parse m with
  | (some parsed, _) =>
    match r.asInstance parsed with
    | some v => .ok v
    | none => r.validate parsed
  | (none, some e) => .error e
  | (none, none) => .error ⟨"ValueError", "structured output returned no parsed result"⟩

def payloadKey (text : String) : List Nat := text.toList.map Char.toNat

/-- A task plan without a summary gets one. -/
def withSummary (payload : Payload) : Payload :=
  let keys := payload.map Prod.fst
  if keys.contains (payloadKey "tasks") ∧ ¬ keys.contains (payloadKey "reasoning_summary") then
    payload ++ [(payloadKey "reasoning_summary",
      .str (payloadKey "Model returned an investigation task plan."))]
  else payload

/-- `str` of the error. -/
def ExtractError.raised : ExtractError → Raised
  | .decode e =>
    let message := e.msg
    ⟨"JSONDecodeError", s!"{message}: line 1 column 1 (char 0)"⟩
  | .overrun (.digits most found) =>
    ⟨"ValueError", s!"Exceeds the limit ({most} digits) for integer string conversion: " ++
      s!"value has {found} digits; use sys.set_int_max_str_digits() to increase the limit"⟩
  | .overrun .depth => ⟨"RecursionError", "maximum recursion depth exceeded"⟩

/-- `_plain_json` from the answer on; the stack is deep enough for it. -/
def ResponseModel.plainJson (m : M) : Except Raised V :=
  match extractJsonObject r.readFloat { digits := r.digits } (r.text m) with
  | .error e => .error e.raised
  | .ok payload => r.validatePayload (withSummary payload)

/-! ## A structured call -/

def GatewayEffect.isRequest : GatewayEffect M → Bool
  | .request _ => true
  | _ => false

def GatewayRun.requests {α : Type} (run : GatewayRun M α) : Nat :=
  run.effects.countP GatewayEffect.isRequest

def correctionsLeft : Nat := 2

/-- What the prompt says of the previous output: an empty text is left out. -/
def shownCorrection (e : Raised) : Option String :=
  if e.message = "" then none else some e.message

/-- The loop of corrections with this many left. -/
def correct (agentId : String) : Nat → Raised → Nat → GatewayRun M V
  | 0, e, _ =>
    let kind := e.kind
    let message := e.message
    ⟨[], .error (.gateway
      s!"{agentId} structured output failed after bounded correction: {kind}: {message}")⟩
  | left + 1, e, made =>
    let asked := retry g provider (shownCorrection e) made
    match asked.result with
    | .error (.content e _) =>
      let rest := correct agentId left e (made + asked.requests)
      ⟨asked.effects ++ rest.effects, rest.result⟩
    | .error (.gateway message) => ⟨asked.effects, .error (.gateway message)⟩
    | .error (.other e) => ⟨asked.effects, .error (.other e)⟩
    | .ok m =>
      let seen := asked.effects ++ [.observe .plainJsonCorrection m]
      match r.plainJson m with
      | .ok v => ⟨seen, .ok v⟩
      | .error e =>
        let rest := correct agentId left e (made + asked.requests)
        ⟨seen ++ rest.effects, rest.result⟩

/-- `_structured_or_correct`; `complete` and `finalize` differ in the kind of their request. -/
def structuredOrCorrect (agentId : String) (kind : RequestKind) (made : Nat) : GatewayRun M V :=
  let asked := retry g provider none made
  match asked.result with
  | .error (.content e raw) =>
    let seen := asked.effects ++ (raw.map (GatewayEffect.observe kind)).toList
    let rest := correct g provider r agentId correctionsLeft e (made + asked.requests)
    ⟨seen ++ rest.effects, rest.result⟩
  | .error (.gateway message) => ⟨asked.effects, .error (.gateway message)⟩
  | .error (.other e) => ⟨asked.effects, .error (.other e)⟩
  | .ok m =>
    let seen := asked.effects ++ [.observe kind m]
    match r.structured m with
    | .ok v => ⟨seen, .ok v⟩
    | .error e =>
      let rest := correct g provider r agentId correctionsLeft e (made + asked.requests)
      ⟨seen ++ rest.effects, rest.result⟩

def Gateway.complete (agentId : String) (made : Nat) : GatewayRun M V :=
  structuredOrCorrect g provider r agentId .structured made

def Gateway.finalize (agentId : String) (made : Nat) : GatewayRun M V :=
  structuredOrCorrect g provider r agentId .structuredFinalize made

/-- `next_action`; an answer whose tool calls cannot be read is an error of the gateway. -/
def Gateway.nextAction {A : Type} (read : M → Except Raised A) (agentId : String) (made : Nat) :
    GatewayRun M A :=
  let asked := retry g provider none made
  match asked.result with
  | .error e => ⟨asked.effects, .error e⟩
  | .ok m =>
    let seen := asked.effects ++ [.observe .toolAction m]
    match read m with
    | .ok action => ⟨seen, .ok action⟩
    | .error e =>
      let kind := e.kind
      let message := e.message
      ⟨seen, .error (.gateway
        s!"{agentId} returned invalid tool-call response: {kind}: {message}")⟩

end Calls

/-! ## What a call does -/

section Spec

variable {M V P : Type} {g : Gateway} {provider : Nat → Reply M} {r : ResponseModel M V P}

def GatewayEffect.observed? : GatewayEffect M → Option (RequestKind × M)
  | .observe kind m => some (kind, m)
  | _ => none

def GatewayEffect.seconds : GatewayEffect M → Nat
  | .sleep seconds => seconds
  | _ => 0

/-- The usage that is observed, in this order. -/
def GatewayRun.observed {α : Type} (run : GatewayRun M α) : List (RequestKind × M) :=
  run.effects.filterMap GatewayEffect.observed?

/-- The seconds that are slept. -/
def GatewayRun.waited {α : Type} (run : GatewayRun M α) : Nat :=
  (run.effects.map GatewayEffect.seconds).sum

def Reply.isTransient : Reply M → Bool
  | .transient _ => true
  | _ => false

/-- What `_retry` makes of its last reply. -/
def Reply.outcome (g : Gateway) : Reply M → Except (GatewayFailure M) M
  | .message m => .ok m
  | .content e raw => .error (.content e raw)
  | .other e => .error (.other e)
  | .transient e => .error (.gateway (g.exhaustedMessage e))

/-- Requests were made until one did not end with a transient error, or no attempt was left; before
each of them but the first twice as long was slept as before. -/
structure RetriedFrom (g : Gateway) (provider : Nat → Reply M) (left attempt made : Nat)
    (run : GatewayRun M M) : Prop where
  some : 0 < run.requests
  bounded : run.requests ≤ left + 1
  failed : ∀ k, k + 1 < run.requests → (provider (made + k)).isTransient = true
  outcome : run.result = (provider (made + (run.requests - 1))).outcome g
  spent : (provider (made + (run.requests - 1))).isTransient = true → run.requests = left + 1
  silent : run.observed = []
  waited : run.waited + 2 ^ attempt = 2 ^ (attempt + (run.requests - 1))

theorem RetriedFrom.once {left attempt made : Nat} (correction : Option String)
    (hspent : (provider made).isTransient = true → left = 0) :
    RetriedFrom g provider left attempt made
      ⟨[.request correction], (provider made).outcome g⟩ where
  some := Nat.one_pos
  bounded := Nat.le_add_left 1 left
  failed k hk := absurd hk (Nat.not_lt_zero k ∘ Nat.lt_of_succ_lt_succ)
  outcome := rfl
  spent h := by rw [hspent h]; rfl
  silent := rfl
  waited := Nat.zero_add _

theorem RetriedFrom.again {left attempt made : Nat} {rest : GatewayRun M M}
    (correction : Option String) (hattempt : 0 < attempt)
    (hreply : (provider made).isTransient = true)
    (h : RetriedFrom g provider left (attempt + 1) (made + 1) rest) :
    RetriedFrom g provider (left + 1) attempt made
      ⟨.request correction :: .sleep (2 * 2 ^ (attempt - 1)) :: rest.effects, rest.result⟩ := by
  obtain ⟨hsome, hbounded, hfailed, houtcome, hspent, hsilent, hwaited⟩ := h
  have hrequests : GatewayRun.requests (⟨.request correction ::
      .sleep (2 * 2 ^ (attempt - 1)) :: rest.effects, rest.result⟩ : GatewayRun M M) =
        rest.requests + 1 := by
    rw [GatewayRun.requests, List.countP_cons_of_pos rfl,
      List.countP_cons_of_neg Bool.false_ne_true]
    rfl
  have hlast : made + (rest.requests + 1 - 1) = made + 1 + (rest.requests - 1) := by omega
  have hpower : 2 * 2 ^ (attempt - 1) = 2 ^ attempt := by
    cases attempt with
    | zero => cases hattempt
    | succ attempt => rw [Nat.add_sub_cancel, Nat.pow_succ, Nat.mul_comm]
  refine ⟨?_, ?_, fun k hk => ?_, ?_, fun hlastFailed => ?_, hsilent, ?_⟩
  · omega
  · omega
  · rw [hrequests] at hk
    cases k with
    | zero => exact hreply
    | succ k =>
      have hnext := hfailed k (by omega)
      rwa [show made + 1 + k = made + (k + 1) by omega] at hnext
  · rw [hrequests, hlast]
    exact houtcome
  · rw [hrequests, hlast] at hlastFailed
    rw [hrequests, hspent hlastFailed]
  · have hsum : GatewayRun.waited (⟨.request correction ::
        .sleep (2 * 2 ^ (attempt - 1)) :: rest.effects, rest.result⟩ : GatewayRun M M) =
          2 * 2 ^ (attempt - 1) + rest.waited := by
      simp [GatewayRun.waited, GatewayEffect.seconds]
    rw [hsum, hrequests, hpower,
      show attempt + (rest.requests + 1 - 1) = attempt + 1 + (rest.requests - 1) by omega,
      ← hwaited, Nat.pow_succ]
    omega

theorem retryFrom_once {correction : Option String} {left attempt made : Nat}
    (hspent : (provider made).isTransient = true → left = 0) :
    retryFrom g provider correction left attempt made =
      ⟨[.request correction], (provider made).outcome g⟩ := by
  rw [retryFrom]
  cases hreply : provider made with
  | message m => rfl
  | content e raw => rfl
  | other e => rfl
  | transient e =>
    rw [hreply] at hspent
    rw [hspent rfl]
    rfl

theorem retryFrom_spec (correction : Option String) (left attempt made : Nat)
    (hattempt : 0 < attempt) :
    RetriedFrom g provider left attempt made
      (retryFrom g provider correction left attempt made) := by
  induction left generalizing attempt made with
  | zero =>
    rw [retryFrom_once fun _ => rfl]
    exact .once correction fun _ => rfl
  | succ left ih =>
    by_cases hreply : (provider made).isTransient = true
    · obtain ⟨e, he⟩ : ∃ e, provider made = .transient e := by
        cases hmade : provider made with
        | transient e => exact ⟨e, rfl⟩
        | message m => simp [hmade, Reply.isTransient] at hreply
        | content e raw => simp [hmade, Reply.isTransient] at hreply
        | other e => simp [hmade, Reply.isTransient] at hreply
      rw [retryFrom, he]
      exact .again correction hattempt hreply (ih (attempt + 1) (made + 1) (Nat.succ_pos attempt))
    · rw [retryFrom_once fun h => absurd h hreply]
      exact .once correction fun h => absurd h hreply

theorem retry_spec (g : Gateway) (provider : Nat → Reply M) (correction : Option String)
    (made : Nat) : RetriedFrom g provider (g.maxAttempts - 1) 1 made
      (retry g provider correction made) :=
  retryFrom_spec correction _ 1 made Nat.one_pos

/-! ### Answers -/

def Reply.message? : Reply M → Option M
  | .message m => some m
  | _ => none

/-- The message that a reply brings, be it with an error. -/
def Reply.answer? : Reply M → Option M
  | .message m => some m
  | .content _ raw => raw
  | _ => none

/-- What is read off the replies to this many requests. -/
def answersFrom (read : Reply M → Option M) (provider : Nat → Reply M) (made count : Nat) :
    List M := (List.range count).filterMap fun k => read (provider (made + k))

theorem answersFrom_add (read : Reply M → Option M) (provider : Nat → Reply M)
    (made count more : Nat) :
    answersFrom read provider made (count + more) =
      answersFrom read provider made count ++ answersFrom read provider (made + count) more := by
  simp only [answersFrom, List.range_add, List.filterMap_append, List.filterMap_map,
    Function.comp_def, Nat.add_assoc]

/-- Of the replies to a request that is made again, only the last can bring anything. -/
theorem RetriedFrom.answers {left attempt made : Nat} {run : GatewayRun M M}
    (h : RetriedFrom g provider left attempt made run) {read : Reply M → Option M}
    (hread : ∀ e, read (.transient e) = none) :
    answersFrom read provider made run.requests =
      (read (provider (made + (run.requests - 1)))).toList := by
  obtain ⟨before, hbefore⟩ := Nat.exists_eq_add_of_lt h.some
  rw [Nat.zero_add] at hbefore
  have hnone : answersFrom read provider made before = [] := by
    refine List.filterMap_eq_nil_iff.mpr fun k hk => ?_
    have hfailed := h.failed k (by rw [hbefore]; have := List.mem_range.mp hk; omega)
    cases hreply : provider (made + k) with
    | transient e => exact hread e
    | message m => simp [hreply, Reply.isTransient] at hfailed
    | content e raw => simp [hreply, Reply.isTransient] at hfailed
    | other e => simp [hreply, Reply.isTransient] at hfailed
  rw [hbefore, answersFrom_add, hnone, List.nil_append, Nat.add_sub_cancel]
  simp only [answersFrom, List.range_one, List.filterMap_cons, List.filterMap_nil, Nat.add_zero]
  cases read (provider (made + before)) <;> rfl

/-! ### Phases -/

/-- The note that is taken of an answer. -/
def noted (kind : RequestKind) (answer : Option M) : List (GatewayEffect M) :=
  (answer.map (GatewayEffect.observe kind)).toList

@[simp] theorem countP_noted (kind : RequestKind) (answer : Option M) :
    (noted kind answer).countP GatewayEffect.isRequest = 0 := by
  cases answer <;> rfl

@[simp] theorem seconds_noted (kind : RequestKind) (answer : Option M) :
    ((noted kind answer).map GatewayEffect.seconds).sum = 0 := by
  cases answer <;> rfl

@[simp] theorem observed_noted (kind : RequestKind) (answer : Option M) :
    (noted kind answer).filterMap GatewayEffect.observed? = (answer.map (Prod.mk kind)).toList := by
  cases answer <;> rfl

/-- A phase of a call: the kind of its requests, how their answers are read as values, and which
replies it takes note of. -/
structure Phase (M V : Type) where
  kind : RequestKind
  source : M → Except Raised V
  answer : Reply M → Option M
  /-- No note is taken of a transient error. -/
  quiet : ∀ e, answer (.transient e) = none

/-- A reply with which the call ends. -/
inductive Ends (source : M → Except Raised V) :
    Reply M → Except (GatewayFailure M) V → Prop where
  | value {m : M} {v : V} (h : source m = .ok v) : Ends source (.message m) (.ok v)
  | exhausted (e : Raised) (message : String) :
      Ends source (.transient e) (.error (.gateway message))
  | other (e : Raised) : Ends source (.other e) (.error (.other e))

/-- A reply behind which the next phase begins. -/
inductive Misses (source : M → Except Raised V) : Reply M → Prop where
  | message {m : M} {e : Raised} (h : source m = .error e) : Misses source (.message m)
  | content (e : Raised) (raw : Option M) : Misses source (.content e raw)

/-- Phase behind phase, until a reply ends the call or no phase is left. -/
inductive Called (g : Gateway) (provider : Nat → Reply M) :
    List (Phase M V) → Nat → GatewayRun M V → Prop where
  | spent (made : Nat) (message : String) :
      Called g provider [] made ⟨[], .error (.gateway message)⟩
  | ended {phase : Phase M V} {phases : List (Phase M V)} {made : Nat} {asked : GatewayRun M M}
      {result : Except (GatewayFailure M) V}
      (h : RetriedFrom g provider (g.maxAttempts - 1) 1 made asked)
      (hend : Ends phase.source (provider (made + (asked.requests - 1))) result) :
      Called g provider (phase :: phases) made ⟨asked.effects ++
        noted phase.kind (phase.answer (provider (made + (asked.requests - 1)))), result⟩
  | again {phase : Phase M V} {phases : List (Phase M V)} {made : Nat} {asked : GatewayRun M M}
      {rest : GatewayRun M V} (h : RetriedFrom g provider (g.maxAttempts - 1) 1 made asked)
      (hmiss : Misses phase.source (provider (made + (asked.requests - 1))))
      (hrest : Called g provider phases (made + asked.requests) rest) :
      Called g provider (phase :: phases) made ⟨asked.effects ++
        noted phase.kind (phase.answer (provider (made + (asked.requests - 1)))) ++ rest.effects,
          rest.result⟩

/-- A correction takes note of the messages that it gets. -/
def correctionPhase (r : ResponseModel M V P) : Phase M V where
  kind := .plainJsonCorrection
  source := r.plainJson
  answer := Reply.message?
  quiet _ := rfl

/-- The first phase also takes note of a message that comes with an error. -/
def firstPhase (r : ResponseModel M V P) (kind : RequestKind) : Phase M V where
  kind
  source := r.structured
  answer := Reply.answer?
  quiet _ := rfl

section LastReply

variable {phase : Phase M V} {phases : List (Phase M V)} {made : Nat} {asked : GatewayRun M M}
  {last : Reply M} {result : Except (GatewayFailure M) V} {rest : GatewayRun M V}

theorem Called.ended_by (h : RetriedFrom g provider (g.maxAttempts - 1) 1 made asked)
    (hlast : provider (made + (asked.requests - 1)) = last)
    (hend : Ends phase.source last result) :
    Called g provider (phase :: phases) made
      ⟨asked.effects ++ noted phase.kind (phase.answer last), result⟩ := by
  subst hlast
  exact .ended h hend

theorem Called.ended_silently (h : RetriedFrom g provider (g.maxAttempts - 1) 1 made asked)
    (hlast : provider (made + (asked.requests - 1)) = last)
    (hend : Ends phase.source last result) (hnone : phase.answer last = none) :
    Called g provider (phase :: phases) made ⟨asked.effects, result⟩ := by
  have hcalled : Called g provider (phase :: phases) made _ := .ended_by h hlast hend
  rw [hnone] at hcalled
  exact (List.append_nil asked.effects) ▸ hcalled

theorem Called.missed_by (h : RetriedFrom g provider (g.maxAttempts - 1) 1 made asked)
    (hlast : provider (made + (asked.requests - 1)) = last)
    (hmiss : Misses phase.source last)
    (hrest : Called g provider phases (made + asked.requests) rest) :
    Called g provider (phase :: phases) made
      ⟨asked.effects ++ noted phase.kind (phase.answer last) ++ rest.effects, rest.result⟩ := by
  subst hlast
  exact .again h hmiss hrest

theorem Called.missed_silently (h : RetriedFrom g provider (g.maxAttempts - 1) 1 made asked)
    (hlast : provider (made + (asked.requests - 1)) = last)
    (hmiss : Misses phase.source last) (hnone : phase.answer last = none)
    (hrest : Called g provider phases (made + asked.requests) rest) :
    Called g provider (phase :: phases) made
      ⟨asked.effects ++ rest.effects, rest.result⟩ := by
  have hcalled := Called.missed_by h hlast hmiss hrest
  rw [hnone] at hcalled
  exact (List.append_nil asked.effects) ▸ hcalled

end LastReply

theorem correct_called (agentId : String) (left : Nat) (e : Raised) (made : Nat) :
    Called g provider (List.replicate left (correctionPhase r)) made
      (correct g provider r agentId left e made) := by
  induction left generalizing e made with
  | zero => exact .spent made _
  | succ left ih =>
    have hasked := retry_spec g provider (shownCorrection e) made
    have houtcome := hasked.outcome
    rw [correct, List.replicate_succ]
    generalize retry g provider (shownCorrection e) made = asked at hasked houtcome
    cases hlast : provider (made + (asked.requests - 1)) with
    | message m =>
      rw [hlast] at houtcome
      simp only [houtcome, Reply.outcome]
      cases hread : r.plainJson m with
      | ok v => exact .ended_by hasked hlast (.value hread)
      | error e => exact .missed_by hasked hlast (.message hread) (ih e (made + asked.requests))
    | transient e =>
      rw [hlast] at houtcome
      simp only [houtcome, Reply.outcome]
      exact .ended_silently hasked hlast (.exhausted e _) rfl
    | content e raw =>
      rw [hlast] at houtcome
      simp only [houtcome, Reply.outcome]
      exact .missed_silently hasked hlast (.content e raw) rfl (ih e (made + asked.requests))
    | other e =>
      rw [hlast] at houtcome
      simp only [houtcome, Reply.outcome]
      exact .ended_silently hasked hlast (.other e) rfl

/-- The phases of a structured call. -/
def callPhases (r : ResponseModel M V P) (kind : RequestKind) : List (Phase M V) :=
  firstPhase r kind :: List.replicate correctionsLeft (correctionPhase r)

theorem structuredOrCorrect_called (agentId : String) (kind : RequestKind) (made : Nat) :
    Called g provider (callPhases r kind) made
      (structuredOrCorrect g provider r agentId kind made) := by
  have hasked := retry_spec g provider none made
  have houtcome := hasked.outcome
  rw [structuredOrCorrect, callPhases]
  generalize retry g provider none made = asked at hasked houtcome
  have hrest : ∀ e, Called g provider (List.replicate correctionsLeft (correctionPhase r))
      (made + asked.requests)
      (correct g provider r agentId correctionsLeft e (made + asked.requests)) := fun e =>
    correct_called agentId correctionsLeft e (made + asked.requests)
  cases hlast : provider (made + (asked.requests - 1)) with
  | message m =>
    rw [hlast] at houtcome
    simp only [houtcome, Reply.outcome]
    cases hread : r.structured m with
    | ok v => exact .ended_by hasked hlast (.value hread)
    | error e => exact .missed_by hasked hlast (.message hread) (hrest e)
  | transient e =>
    rw [hlast] at houtcome
    simp only [houtcome, Reply.outcome]
    exact .ended_silently hasked hlast (.exhausted e _) rfl
  | content e raw =>
    rw [hlast] at houtcome
    simp only [houtcome, Reply.outcome]
    exact .missed_by hasked hlast (.content e raw) (hrest e)
  | other e =>
    rw [hlast] at houtcome
    simp only [houtcome, Reply.outcome]
    exact .ended_silently hasked hlast (.other e) rfl

theorem RetriedFrom.waited_le {made : Nat} {asked : GatewayRun M M}
    (h : RetriedFrom g provider (g.maxAttempts - 1) 1 made asked) :
    asked.waited + 2 ≤ 2 ^ g.maxAttempts := by
  have hpositive := g.positive
  have hbounded := h.bounded
  have hwaited := h.waited
  have hsome := h.some
  have hle : 2 ^ (1 + (asked.requests - 1)) ≤ 2 ^ g.maxAttempts :=
    Nat.pow_le_pow_right (by decide) (by omega)
  omega

section Runs

variable {made : Nat} {asked : GatewayRun M M} {kind : RequestKind} {answer : Option M}
  (result : Except (GatewayFailure M) V) (rest : GatewayRun M V)

@[simp] theorem requests_ended :
    (⟨asked.effects ++ noted kind answer, result⟩ : GatewayRun M V).requests = asked.requests := by
  simp [GatewayRun.requests]

@[simp] theorem waited_ended :
    (⟨asked.effects ++ noted kind answer, result⟩ : GatewayRun M V).waited = asked.waited := by
  simp [GatewayRun.waited]

@[simp] theorem observed_ended :
    (⟨asked.effects ++ noted kind answer, result⟩ : GatewayRun M V).observed =
      asked.observed ++ (answer.map (Prod.mk kind)).toList := by
  simp [GatewayRun.observed]

@[simp] theorem requests_again :
    (⟨asked.effects ++ noted kind answer ++ rest.effects, result⟩ : GatewayRun M V).requests =
      asked.requests + rest.requests := by
  simp [GatewayRun.requests]

@[simp] theorem waited_again :
    (⟨asked.effects ++ noted kind answer ++ rest.effects, result⟩ : GatewayRun M V).waited =
      asked.waited + rest.waited := by
  simp [GatewayRun.waited]

@[simp] theorem observed_again :
    (⟨asked.effects ++ noted kind answer ++ rest.effects, result⟩ : GatewayRun M V).observed =
      asked.observed ++ (answer.map (Prod.mk kind)).toList ++ rest.observed := by
  simp [GatewayRun.observed]

end Runs

/-! ### Calls -/

variable {phases : List (Phase M V)} {made : Nat} {run : GatewayRun M V}

theorem Called.requests_le (h : Called g provider phases made run) :
    run.requests ≤ phases.length * g.maxAttempts := by
  have hpositive := g.positive
  induction h with
  | spent made message => exact Nat.zero_le _
  | ended h hend =>
    have hbounded := h.bounded
    rw [requests_ended, List.length_cons, Nat.succ_mul]
    omega
  | again h hmiss hrest ih =>
    have hbounded := h.bounded
    rw [requests_again, List.length_cons, Nat.succ_mul]
    omega

theorem Called.waited_le (h : Called g provider phases made run) :
    run.waited + 2 * phases.length ≤ phases.length * 2 ^ g.maxAttempts := by
  induction h with
  | spent made message => simp [GatewayRun.waited]
  | @ended phase phases made asked result h hend =>
    have hle := h.waited_le
    have htwo : 2 * phases.length ≤ phases.length * 2 ^ g.maxAttempts := by
      rw [Nat.mul_comm]
      exact Nat.mul_le_mul_left phases.length (by omega)
    rw [waited_ended, List.length_cons, Nat.succ_mul phases.length]
    omega
  | @again phase phases made asked rest h hmiss hrest ih =>
    have hle := h.waited_le
    rw [waited_again, List.length_cons, Nat.succ_mul phases.length]
    omega

theorem Called.some (h : Called g provider phases made run) (hne : phases ≠ []) :
    0 < run.requests := by
  cases h with
  | spent made message => exact absurd rfl hne
  | ended h hend =>
    rw [requests_ended]
    exact h.some
  | again h hmiss hrest =>
    have hsome := h.some
    rw [requests_again]
    omega

/-- What comes of a call, by its last reply. -/
def Accounted (phases : List (Phase M V)) (last : Reply M) :
    Except (GatewayFailure M) V → Prop
  | .ok v => ∃ phase ∈ phases, ∃ m, last = .message m ∧ phase.source m = .ok v
  | .error (.gateway _) => True
  | .error (.other e) => last = .other e
  | .error (.content _ _) => False

theorem Accounted.cons {phase : Phase M V} {last : Reply M}
    {result : Except (GatewayFailure M) V} (h : Accounted phases last result) :
    Accounted (phase :: phases) last result := by
  cases result with
  | ok v =>
    obtain ⟨other, hother, hsource⟩ := h
    exact ⟨other, List.mem_cons_of_mem phase hother, hsource⟩
  | error e =>
    cases e with
    | gateway message => trivial
    | other e => exact h
    | content e raw => exact h

theorem Called.accounted (h : Called g provider phases made run) :
    Accounted phases (provider (made + (run.requests - 1))) run.result := by
  induction h with
  | spent made message => trivial
  | @ended phase phases made asked result h hend =>
    rw [requests_ended]
    generalize provider (made + (asked.requests - 1)) = last at hend
    cases hend with
    | @value m v hsource => exact ⟨phase, List.mem_cons_self, m, rfl, hsource⟩
    | exhausted e message => trivial
    | other e => rfl
  | @again phase phases made asked rest h hmiss hrest ih =>
    rw [requests_again]
    refine Accounted.cons ?_
    cases phases with
    | nil =>
      cases hrest
      trivial
    | cons next phases =>
      have hsome := hrest.some (List.cons_ne_nil next phases)
      rwa [show made + (asked.requests + rest.requests - 1) =
        made + asked.requests + (rest.requests - 1) by omega]

/-- Where all phases take note of the same replies, note is taken of all of them. -/
theorem Called.observed (h : Called g provider phases made run) {kind : RequestKind}
    {read : Reply M → Option M} (hphases : ∀ phase ∈ phases, phase.kind = kind ∧
      phase.answer = read) :
    run.observed = (answersFrom read provider made run.requests).map (Prod.mk kind) := by
  induction h with
  | spent made message => rfl
  | @ended phase phases made asked result h hend =>
    obtain ⟨hkind, hanswer⟩ := hphases phase List.mem_cons_self
    rw [observed_ended, requests_ended, ← hanswer, h.answers phase.quiet, h.silent, hkind]
    cases phase.answer (provider (made + (asked.requests - 1))) <;> rfl
  | @again phase phases made asked rest h hmiss hrest ih =>
    obtain ⟨hkind, hanswer⟩ := hphases phase List.mem_cons_self
    have hlater := ih fun other hother => hphases other (List.mem_cons_of_mem phase hother)
    rw [observed_again, requests_again, answersFrom_add, List.map_append, ← hlater, ← hanswer,
      h.answers phase.quiet, h.silent, hkind]
    cases phase.answer (provider (made + (asked.requests - 1))) <;> rfl

/-- A call of the gateway makes at most so many requests and waits at most so long, and what comes
of it comes of its last reply: a value is one that the schema accepts, and no content error is left
to the caller. -/
theorem structured_call (g : Gateway) (provider : Nat → Reply M) (r : ResponseModel M V P)
    (agentId : String) (kind : RequestKind) (made : Nat) :
    let run := structuredOrCorrect g provider r agentId kind made
    (0 < run.requests ∧ run.requests ≤ 3 * g.maxAttempts) ∧
      run.waited + 6 ≤ 3 * 2 ^ g.maxAttempts ∧
      (∀ v, run.result = .ok v → ∃ m, provider (made + (run.requests - 1)) = .message m ∧
        (r.structured m = .ok v ∨ r.plainJson m = .ok v)) ∧
      (∀ e, run.result = .error (.other e) →
        provider (made + (run.requests - 1)) = .other e) ∧
      ∀ e raw, run.result ≠ .error (.content e raw) := by
  intro run
  have hcalled : Called g provider (callPhases r kind) made run :=
    structuredOrCorrect_called agentId kind made
  have haccounted := hcalled.accounted
  refine ⟨⟨hcalled.some (List.cons_ne_nil _ _), hcalled.requests_le⟩, hcalled.waited_le, ?_, ?_, ?_⟩
  · intro v hv
    rw [hv] at haccounted
    obtain ⟨phase, hphase, m, hlast, hsource⟩ := haccounted
    refine ⟨m, hlast, ?_⟩
    rcases List.mem_cons.mp hphase with rfl | hphase
    · exact .inl hsource
    · rw [List.eq_of_mem_replicate hphase] at hsource
      exact .inr hsource
  · intro e he
    rw [he] at haccounted
    exact haccounted
  · intro e raw he
    rw [he] at haccounted
    exact haccounted

/-! ### Usage -/

theorem filterMap_eq_iff {α β : Type} {f f' : α → Option β} (h : ∀ a, f a = none ∨ f a = f' a)
    (items : List α) : items.filterMap f = items.filterMap f' ↔ ∀ a ∈ items, f a = f' a := by
  have hle : ∀ items : List α, (items.filterMap f).length ≤ (items.filterMap f').length := by
    intro items
    induction items with
    | nil => exact Nat.le_refl 0
    | cons a items ih =>
      rcases h a with hnone | hsame
      · rw [List.filterMap_cons_none hnone, List.filterMap_cons]
        cases f' a with
        | none => exact ih
        | some b => exact Nat.le_succ_of_le ih
      · rw [List.filterMap_cons, List.filterMap_cons, hsame]
        cases f' a with
        | none => exact ih
        | some b => exact Nat.succ_le_succ ih
  induction items with
  | nil => simp
  | cons a items ih =>
    rw [List.forall_mem_cons]
    refine Iff.trans ?_ (and_congr_right fun _ => ih)
    by_cases hsame : f a = f' a
    · rw [List.filterMap_cons, List.filterMap_cons, hsame]
      cases f' a with
      | none => simp
      | some b => simp
    · have hnone : f a = none := (h a).resolve_right hsame
      refine ⟨fun heq => ?_, fun h => absurd h.1 hsame⟩
      cases hb : f' a with
      | none => exact absurd (hnone.trans hb.symm) hsame
      | some b =>
        have hlength := congrArg List.length heq
        rw [List.filterMap_cons_none hnone, List.filterMap_cons_some hb, List.length_cons]
          at hlength
        have := hle items
        omega

/-- No message is overlooked but one that comes with an error. -/
theorem messages_eq_answers_iff {count : Nat} :
    answersFrom Reply.message? provider made count =
        answersFrom Reply.answer? provider made count ↔
      ∀ k < count, ∀ e m, provider (made + k) ≠ .content e (some m) := by
  have hread : ∀ reply : Reply M, reply.message? = none ∨ reply.message? = reply.answer? := by
    intro reply
    cases reply with
    | message m => exact .inr rfl
    | transient e => exact .inl rfl
    | content e raw => exact .inl rfl
    | other e => exact .inl rfl
  rw [answersFrom, answersFrom, filterMap_eq_iff fun k => hread (provider (made + k))]
  refine forall_congr' fun k => ?_
  rw [List.mem_range]
  refine imp_congr_right fun _ => ?_
  cases provider (made + k) with
  | message m => simp [Reply.message?, Reply.answer?]
  | transient e => simp [Reply.message?, Reply.answer?]
  | content e raw =>
    cases raw with
    | none => simp [Reply.message?, Reply.answer?]
    | some m => simp [Reply.message?, Reply.answer?]
  | other e => simp [Reply.message?, Reply.answer?]

/-- A call takes note of each message that it is answered with, once and in order, just when no
request behind the first reply that is not transient brings its message with an error. -/
theorem usage_observed_iff (g : Gateway) (provider : Nat → Reply M) (r : ResponseModel M V P)
    (agentId : String) (kind : RequestKind) (made : Nat) :
    let run := structuredOrCorrect g provider r agentId kind made
    run.observed.map Prod.snd = answersFrom Reply.answer? provider made run.requests ↔
      ∀ k < run.requests, (∃ j < k, (provider (made + j)).isTransient = false) →
        ∀ e m, provider (made + k) ≠ .content e (some m) := by
  intro run
  have hcalled : Called g provider (callPhases r kind) made run :=
    structuredOrCorrect_called agentId kind made
  have hbefore : ∀ {asked : GatewayRun M M},
      RetriedFrom g provider (g.maxAttempts - 1) 1 made asked → ∀ k < asked.requests,
        ¬ ∃ j < k, (provider (made + j)).isTransient = false := by
    rintro asked h k hk ⟨j, hj, hplain⟩
    rw [h.failed j (by omega)] at hplain
    cases hplain
  generalize run = run at hcalled
  cases hcalled with
  | @ended _ _ _ asked result h hend =>
    rw [observed_ended, requests_ended, h.silent, h.answers (fun _ => rfl)]
    refine iff_of_true ?_ fun k hk hplain => absurd hplain (hbefore h k hk)
    cases hanswer : (provider (made + (asked.requests - 1))).answer? with
    | none => simp [firstPhase, hanswer]
    | some m => simp [firstPhase, hanswer]
  | @again _ _ _ asked rest h hmiss hrest =>
    have hkinds : ∀ phase ∈ List.replicate correctionsLeft (correctionPhase r),
        phase.kind = .plainJsonCorrection ∧ phase.answer = Reply.message? := by
      intro phase hphase
      rw [List.eq_of_mem_replicate hphase]
      exact ⟨rfl, rfl⟩
    have hlater : rest.observed.map Prod.snd =
        answersFrom Reply.message? provider (made + asked.requests) rest.requests := by
      rw [hrest.observed hkinds, List.map_map]
      exact List.map_id _
    have hfirst : (((firstPhase r kind).answer (provider (made + (asked.requests - 1)))).map
        (Prod.mk (firstPhase r kind).kind)).toList.map Prod.snd =
          answersFrom Reply.answer? provider made asked.requests := by
      have hanswers : answersFrom Reply.answer? provider made asked.requests =
          (provider (made + (asked.requests - 1))).answer?.toList := h.answers fun _ => rfl
      rw [hanswers]
      change (((provider (made + (asked.requests - 1))).answer?).map _).toList.map _ = _
      cases (provider (made + (asked.requests - 1))).answer? <;> rfl
    rw [observed_again, requests_again, h.silent, List.nil_append, List.map_append, hlater, hfirst,
      answersFrom_add, List.append_cancel_left_eq, messages_eq_answers_iff]
    have hmissed : (provider (made + (asked.requests - 1))).isTransient = false := by
      generalize provider (made + (asked.requests - 1)) = last at hmiss
      cases hmiss with
      | message hread => rfl
      | content e raw => rfl
    have hsome := h.some
    constructor
    · intro hrestAnswers k hk hplain
      have hbehind : asked.requests ≤ k := by
        by_contra hlt
        exact hbefore h k (by omega) hplain
      have hnot := hrestAnswers (k - asked.requests) (by omega)
      rwa [show made + asked.requests + (k - asked.requests) = made + k by omega] at hnot
    · intro hall k hk
      have hnot := hall (asked.requests + k) (by omega)
        ⟨asked.requests - 1, by omega, hmissed⟩
      rwa [← Nat.add_assoc] at hnot

end Spec

end EvoCI
