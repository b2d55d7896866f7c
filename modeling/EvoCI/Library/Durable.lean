import Mathlib.Data.List.Basic

/-! Programs over a durable store: each effect is atomic and labelled, and a run keeps the
store after every effect, so that a crash leaves the store as it was at one of them.
Nothing here depends on what is stored. -/

namespace Library

/-- What a run passes through, how it ends and what it leaves. -/
structure DurableRun (ℓ σ ε α : Type) where
  passed : List (ℓ × σ)
  result : Except ε α
  state : σ

namespace DurableRun

variable {ℓ σ ε α : Type}

/-- A run without its value. -/
def void (r : DurableRun ℓ σ ε α) : DurableRun ℓ σ ε Unit :=
  ⟨r.passed, r.result.map fun _ => (), r.state⟩

/-- The last effect before a crash behind the first `n`. -/
def lastOf (r : DurableRun ℓ σ ε α) (n : Nat) : Option (ℓ × σ) := (r.passed.take n).getLast?

/-- The store after a crash behind the first `n` effects of a run from `s`. -/
def crashed (r : DurableRun ℓ σ ε α) (n : Nat) (s : σ) : σ := ((r.lastOf n).map Prod.snd).getD s

theorem mem_of_lastOf {r : DurableRun ℓ σ ε α} {n : Nat} {p : ℓ × σ} (h : r.lastOf n = some p) :
    p ∈ r.passed :=
  List.mem_of_mem_take (List.mem_of_getLast? h)

/-- A crash leaves the store as it was before the run or behind one of its effects. -/
theorem crashed_cases (r : DurableRun ℓ σ ε α) (n : Nat) (s : σ) :
    r.crashed n s = s ∨ ∃ p, r.lastOf n = some p ∧ p ∈ r.passed ∧ r.crashed n s = p.2 := by
  unfold crashed
  cases h : r.lastOf n with
  | none => exact Or.inl rfl
  | some p => exact Or.inr ⟨p, rfl, mem_of_lastOf h, rfl⟩

end DurableRun

/-- A program over a store of type `σ`; its effects are labelled in `ℓ`. -/
def Durable (ℓ σ ε α : Type) : Type := σ → DurableRun ℓ σ ε α

namespace Durable

variable {ℓ σ τ ε α β : Type}

/-- The rest of a program behind the first part of its run. -/
def DurableRun.andThen (r : DurableRun ℓ σ ε α) (f : α → Durable ℓ σ ε β) : DurableRun ℓ σ ε β :=
  match r.result with
  | .error e => ⟨r.passed, .error e, r.state⟩
  | .ok a => ⟨r.passed ++ (f a r.state).passed, (f a r.state).result, (f a r.state).state⟩

instance : Monad (Durable ℓ σ ε) where
  pure a := fun s => ⟨[], .ok a, s⟩
  bind m f := fun s => DurableRun.andThen (m s) f

def raise (e : ε) : Durable ℓ σ ε α := fun s => ⟨[], .error e, s⟩

/-- A look at the store. -/
def look (f : σ → Except ε α) : Durable ℓ σ ε α := fun s => ⟨[], f s, s⟩

/-- One atomic effect: it fails and changes nothing, or is done. -/
def effect (label : ℓ) (f : σ → Except ε (α × σ)) : Durable ℓ σ ε α := fun s =>
  match f s with
  | .error e => ⟨[], .error e, s⟩
  | .ok (a, t) => ⟨[(label, t)], .ok a, t⟩

/-- One atomic effect that may leave something where it fails, but nothing durable. -/
def statement (label : ℓ) (f : σ → Except ε α × σ) : Durable ℓ σ ε α := fun s =>
  match f s with
  | (.error e, t) => ⟨[], .error e, t⟩
  | (.ok a, t) => ⟨[(label, t)], .ok a, t⟩

/-- `except: handler; raise`. -/
def onError (m : Durable ℓ σ ε α) (handler : Durable ℓ σ ε Unit) : Durable ℓ σ ε α := fun s =>
  match (m s).result with
  | .ok a => ⟨(m s).passed, .ok a, (m s).state⟩
  | .error e =>
    let h := handler (m s).state
    ⟨(m s).passed ++ h.passed, .error e, h.state⟩

/-- `try: m`, with what it comes to as the value. -/
def attempt (m : Durable ℓ σ ε α) : Durable ℓ σ ε (Except ε α) := fun s =>
  ⟨(m s).passed, .ok (m s).result, (m s).state⟩

/-- A program over a part of the store. -/
def within {ℓ' τ ε' : Type} (label : ℓ' → ℓ) (get : σ → τ) (set : τ → σ → σ) (error : ε' → ε)
    (m : Durable ℓ' τ ε' α) : Durable ℓ σ ε α := fun s =>
  ⟨(m (get s)).passed.map fun p => (label p.1, set p.2 s), (m (get s)).result.mapError error,
    set (m (get s)).state s⟩

/-- `if condition: m`. -/
def onlyIf (condition : σ → Bool) (m : Durable ℓ σ ε Unit) : Durable ℓ σ ε Unit := fun s =>
  if condition s then m s else ⟨[], .ok (), s⟩

/-! ## Runs -/

@[simp] theorem pure_run (a : α) (s : σ) :
    (pure a : Durable ℓ σ ε α) s = ⟨[], .ok a, s⟩ := rfl

@[simp] theorem raise_run (e : ε) (s : σ) :
    (raise e : Durable ℓ σ ε α) s = ⟨[], .error e, s⟩ := rfl

@[simp] theorem look_run (f : σ → Except ε α) (s : σ) :
    (look f : Durable ℓ σ ε α) s = ⟨[], f s, s⟩ := rfl

theorem bind_run (m : Durable ℓ σ ε α) (f : α → Durable ℓ σ ε β) (s : σ) :
    (m >>= f) s = DurableRun.andThen (m s) f := rfl

@[simp] theorem andThen_ok (passed : List (ℓ × σ)) (a : α) (t : σ) (f : α → Durable ℓ σ ε β) :
    DurableRun.andThen ⟨passed, .ok a, t⟩ f =
      ⟨passed ++ (f a t).passed, (f a t).result, (f a t).state⟩ := rfl

@[simp] theorem andThen_error (passed : List (ℓ × σ)) (e : ε) (t : σ) (f : α → Durable ℓ σ ε β) :
    DurableRun.andThen (⟨passed, .error e, t⟩ : DurableRun ℓ σ ε α) f = ⟨passed, .error e, t⟩ :=
  rfl

theorem onlyIf_true {condition : σ → Bool} (m : Durable ℓ σ ε Unit) {s : σ}
    (h : condition s = true) : onlyIf condition m s = m s := by
  unfold onlyIf
  rw [if_pos h]

theorem onlyIf_false {condition : σ → Bool} (m : Durable ℓ σ ε Unit) {s : σ}
    (h : condition s = false) : onlyIf condition m s = ⟨[], .ok (), s⟩ := by
  unfold onlyIf
  rw [if_neg (Bool.eq_false_iff.mp h)]

theorem bind_ok {m : Durable ℓ σ ε α} {f : α → Durable ℓ σ ε β} {s t : σ}
    {passed : List (ℓ × σ)} {a : α} (h : m s = ⟨passed, .ok a, t⟩) :
    (m >>= f) s = ⟨passed ++ (f a t).passed, (f a t).result, (f a t).state⟩ := by
  rw [bind_run, h]
  rfl

theorem bind_error {m : Durable ℓ σ ε α} {f : α → Durable ℓ σ ε β} {s t : σ}
    {passed : List (ℓ × σ)} {e : ε} (h : m s = ⟨passed, .error e, t⟩) :
    (m >>= f) s = ⟨passed, .error e, t⟩ := by
  rw [bind_run, h]
  rfl

theorem effect_ok {label : ℓ} {f : σ → Except ε (α × σ)} {s t : σ} {a : α}
    (h : f s = .ok (a, t)) : effect label f s = ⟨[(label, t)], .ok a, t⟩ := by
  unfold effect
  rw [h]

theorem effect_error {label : ℓ} {f : σ → Except ε (α × σ)} {s : σ} {e : ε}
    (h : f s = .error e) : effect label f s = ⟨[], .error e, s⟩ := by
  unfold effect
  rw [h]

theorem statement_error {label : ℓ} {f : σ → Except ε α × σ} {s t : σ} {e : ε}
    (h : f s = (.error e, t)) : statement label f s = ⟨[], .error e, t⟩ := by
  unfold statement
  rw [h]

theorem statement_ok {label : ℓ} {f : σ → Except ε α × σ} {s t : σ} {a : α}
    (h : f s = (.ok a, t)) : statement label f s = ⟨[(label, t)], .ok a, t⟩ := by
  unfold statement
  rw [h]

theorem onError_ok {m : Durable ℓ σ ε α} {handler : Durable ℓ σ ε Unit} {s t : σ}
    {passed : List (ℓ × σ)} {a : α} (h : m s = ⟨passed, .ok a, t⟩) :
    onError m handler s = ⟨passed, .ok a, t⟩ := by
  unfold onError
  rw [h]

theorem onError_error {m : Durable ℓ σ ε α} {handler : Durable ℓ σ ε Unit} {s t : σ}
    {passed : List (ℓ × σ)} {e : ε} (h : m s = ⟨passed, .error e, t⟩) :
    onError m handler s = ⟨passed ++ (handler t).passed, .error e, (handler t).state⟩ := by
  unfold onError
  rw [h]

/-! ## Results -/

/-- What the two parts of a program come to that returns, and what it leaves. -/
theorem bind_result {m : Durable ℓ σ ε α} {f : α → Durable ℓ σ ε β} {s : σ} {b : β}
    (h : ((m >>= f) s).result = .ok b) :
    ∃ a, (m s).result = .ok a ∧ (f a (m s).state).result = .ok b ∧
      ((m >>= f) s).state = (f a (m s).state).state := by
  cases hrun : m s with
  | mk passed result t =>
    cases result with
    | error e =>
      rw [bind_error hrun] at h
      cases h
    | ok a =>
      rw [bind_ok hrun] at h ⊢
      exact ⟨a, rfl, h, rfl⟩

theorem onError_result {m : Durable ℓ σ ε α} {handler : Durable ℓ σ ε Unit} {s : σ} {a : α}
    (h : (onError m handler s).result = .ok a) : (m s).result = .ok a := by
  cases hrun : m s with
  | mk passed result t =>
    cases result with
    | error e =>
      rw [onError_error hrun] at h
      cases h
    | ok b =>
      rw [onError_ok hrun] at h
      exact h

theorem onError_state {m : Durable ℓ σ ε α} {handler : Durable ℓ σ ε Unit} {s : σ} {a : α}
    (h : (m s).result = .ok a) : (onError m handler s).state = (m s).state := by
  cases hrun : m s with
  | mk passed result t =>
    rw [hrun] at h
    change result = .ok a at h
    subst h
    rw [onError_ok hrun]

/-- An effect that returns is done. -/
theorem effect_result {label : ℓ} {f : σ → Except ε (α × σ)} {s : σ} {a : α}
    (h : (effect label f s).result = .ok a) : f s = .ok (a, (effect label f s).state) := by
  cases hf : f s with
  | error e =>
    rw [effect_error hf] at h
    cases h
  | ok p =>
    obtain ⟨b, t⟩ := p
    rw [effect_ok hf] at h ⊢
    cases h
    rfl

/-- Whatever the program returns satisfies the predicate. -/
def Yields (Q : α → Prop) (m : Durable ℓ σ ε α) : Prop := ∀ s a, (m s).result = .ok a → Q a

theorem yields_pure {Q : α → Prop} {a : α} (h : Q a) : Yields Q (pure a : Durable ℓ σ ε α) := by
  intro s b hb
  cases hb
  exact h

theorem yields_raise {Q : α → Prop} (e : ε) : Yields Q (raise e : Durable ℓ σ ε α) := by
  intro s a ha
  cases ha

theorem yields_bind {Q : β → Prop} {m : Durable ℓ σ ε α} {f : α → Durable ℓ σ ε β}
    (hf : ∀ a, Yields Q (f a)) : Yields Q (m >>= f) := by
  intro s b hb
  obtain ⟨a, -, hrest, -⟩ := bind_result hb
  exact hf a _ b hrest

theorem Yields.bind {Q : α → Prop} {R : β → Prop} {m : Durable ℓ σ ε α}
    {f : α → Durable ℓ σ ε β} (hm : Yields Q m) (hf : ∀ a, Q a → Yields R (f a)) :
    Yields R (m >>= f) := by
  intro s b hb
  obtain ⟨a, ha, hrest, -⟩ := bind_result hb
  exact hf a (hm s a ha) _ b hrest

/-! ## Invariants -/

/-- Every store the program passes through or leaves satisfies the invariant. -/
def Keeps (inv : σ → Prop) (m : Durable ℓ σ ε α) : Prop :=
  ∀ s, inv s → (∀ p ∈ (m s).passed, inv p.2) ∧ inv (m s).state

variable {inv : σ → Prop}

theorem keeps_pure (a : α) : Keeps inv (pure a : Durable ℓ σ ε α) :=
  fun _ hs => ⟨by simp, hs⟩

theorem keeps_raise (e : ε) : Keeps inv (raise e : Durable ℓ σ ε α) :=
  fun _ hs => ⟨by simp, hs⟩

theorem keeps_look (f : σ → Except ε α) : Keeps inv (look f : Durable ℓ σ ε α) :=
  fun _ hs => ⟨by simp, hs⟩

theorem keeps_effect {label : ℓ} {f : σ → Except ε (α × σ)}
    (h : ∀ s a t, f s = .ok (a, t) → inv s → inv t) : Keeps inv (effect label f) := by
  intro s hs
  cases hf : f s with
  | error e =>
    rw [effect_error hf]
    exact ⟨by simp, hs⟩
  | ok p =>
    obtain ⟨a, t⟩ := p
    rw [effect_ok hf]
    have ht := h s a t hf hs
    exact ⟨by simpa using ht, ht⟩

theorem keeps_bind {m : Durable ℓ σ ε α} {f : α → Durable ℓ σ ε β} (hm : Keeps inv m)
    (hf : ∀ a, Keeps inv (f a)) : Keeps inv (m >>= f) := by
  intro s hs
  obtain ⟨hpassed, hstate⟩ := hm s hs
  cases hrun : m s with
  | mk passed result t =>
    rw [hrun] at hpassed hstate
    cases result with
    | error e =>
      rw [bind_error hrun]
      exact ⟨hpassed, hstate⟩
    | ok a =>
      rw [bind_ok hrun]
      obtain ⟨hrest, hlast⟩ := hf a t hstate
      refine ⟨fun p hp => ?_, hlast⟩
      rcases List.mem_append.mp hp with hp | hp
      · exact hpassed p hp
      · exact hrest p hp

theorem keeps_onlyIf {condition : σ → Bool} {m : Durable ℓ σ ε Unit} (hm : Keeps inv m) :
    Keeps inv (onlyIf condition m) := by
  intro s hs
  unfold onlyIf
  split
  · exact hm s hs
  · exact ⟨by simp, hs⟩

theorem keeps_onError {m : Durable ℓ σ ε α} {handler : Durable ℓ σ ε Unit} (hm : Keeps inv m)
    (hh : Keeps inv handler) : Keeps inv (onError m handler) := by
  intro s hs
  obtain ⟨hpassed, hstate⟩ := hm s hs
  cases hrun : m s with
  | mk passed result t =>
    rw [hrun] at hpassed hstate
    cases result with
    | ok a =>
      rw [onError_ok hrun]
      exact ⟨hpassed, hstate⟩
    | error e =>
      rw [onError_error hrun]
      obtain ⟨hrest, hlast⟩ := hh t hstate
      refine ⟨fun p hp => ?_, hlast⟩
      rcases List.mem_append.mp hp with hp | hp
      · exact hpassed p hp
      · exact hrest p hp

theorem keeps_attempt {m : Durable ℓ σ ε α} (hm : Keeps inv m) : Keeps inv (attempt m) := hm

/-! ## Runs from one store -/

/-- Every store that the run from `s` passes through or leaves satisfies the predicate. -/
def Stays (P : σ → Prop) (m : Durable ℓ σ ε α) (s : σ) : Prop :=
  (∀ p ∈ (m s).passed, P p.2) ∧ P (m s).state

theorem Keeps.stays {m : Durable ℓ σ ε α} (h : Keeps inv m) {s : σ} (hs : inv s) :
    Stays inv m s := h s hs

theorem Stays.mono {P Q : σ → Prop} {m : Durable ℓ σ ε α} {s : σ} (h : Stays P m s)
    (hpq : ∀ t, P t → Q t) : Stays Q m s :=
  ⟨fun p hp => hpq _ (h.1 p hp), hpq _ h.2⟩

variable {P : σ → Prop} {s : σ}

theorem stays_pure (a : α) (h : P s) : Stays P (pure a : Durable ℓ σ ε α) s := ⟨by simp, h⟩

theorem stays_raise (e : ε) (h : P s) : Stays P (raise e : Durable ℓ σ ε α) s := ⟨by simp, h⟩

theorem stays_attempt {m : Durable ℓ σ ε α} (h : Stays P m s) : Stays P (attempt m) s := h

/-- The rest of a program runs from the store and with the value that the first part left. -/
theorem stays_bind {m : Durable ℓ σ ε α} {f : α → Durable ℓ σ ε β} (hm : Stays P m s)
    (hf : ∀ a, (m s).result = .ok a → P (m s).state → Stays P (f a) (m s).state) :
    Stays P (m >>= f) s := by
  obtain ⟨hpassed, hstate⟩ := hm
  cases hrun : m s with
  | mk passed result t =>
    rw [hrun] at hpassed hstate hf
    unfold Stays
    cases result with
    | error e =>
      rw [bind_error hrun]
      exact ⟨hpassed, hstate⟩
    | ok a =>
      rw [bind_ok hrun]
      obtain ⟨hrest, hlast⟩ := hf a rfl hstate
      refine ⟨fun p hp => ?_, hlast⟩
      rcases List.mem_append.mp hp with hp | hp
      · exact hpassed p hp
      · exact hrest p hp

theorem stays_look (f : σ → Except ε α) (hs : P s) : Stays P (look f : Durable ℓ σ ε α) s :=
  ⟨by simp, hs⟩

theorem stays_effect {label : ℓ} {f : σ → Except ε (α × σ)} (hs : P s)
    (h : ∀ a t, f s = .ok (a, t) → P t) : Stays P (effect label f) s := by
  cases hf : f s with
  | error e =>
    unfold Stays
    rw [effect_error hf]
    exact ⟨by simp, hs⟩
  | ok p =>
    obtain ⟨a, t⟩ := p
    unfold Stays
    rw [effect_ok hf]
    have ht := h a t hf
    exact ⟨by simpa using ht, ht⟩

theorem stays_statement {label : ℓ} {f : σ → Except ε α × σ} (h : P (f s).2) :
    Stays P (statement label f) s := by
  cases hf : f s with
  | mk result t =>
    rw [hf] at h
    unfold Stays
    cases result with
    | error e =>
      rw [statement_error hf]
      exact ⟨by simp, h⟩
    | ok a =>
      rw [statement_ok hf]
      exact ⟨by simpa using h, h⟩

/-- A look tells the rest of the program what the store holds. -/
theorem stays_look_bind {f : σ → Except ε α} {rest : α → Durable ℓ σ ε β} (hs : P s)
    (hrest : ∀ a, f s = .ok a → Stays P (rest a) s) : Stays P (look f >>= rest) s :=
  stays_bind (stays_look f hs) fun a ha _ => hrest a ha

/-- A store of the whole satisfies the predicate when its part satisfies the part's. -/
theorem stays_within {ℓ' τ ε' : Type} {label : ℓ' → ℓ} {get : σ → τ} {set : τ → σ → σ}
    {error : ε' → ε} {m : Durable ℓ' τ ε' α} (h : Stays (fun t => P (set t s)) m (get s)) :
    Stays P (within label get set error m) s := by
  refine ⟨fun p hp => ?_, h.2⟩
  obtain ⟨q, hq, rfl⟩ := List.mem_map.mp hp
  exact h.1 q hq

/-! ## Programs that fail -/

/-- Where the program fails, it leaves a store that satisfies the invariant. -/
def KeepsFailing (inv : σ → Prop) (m : Durable ℓ σ ε α) : Prop :=
  ∀ s e, inv s → (m s).result = .error e → inv (m s).state

theorem Keeps.failing {m : Durable ℓ σ ε α} (h : Keeps inv m) : KeepsFailing inv m :=
  fun s _ hs _ => (h s hs).2

theorem failing_bind {m : Durable ℓ σ ε α} {f : α → Durable ℓ σ ε β} (hm : Keeps inv m)
    (hf : ∀ a, KeepsFailing inv (f a)) : KeepsFailing inv (m >>= f) := by
  intro s e hs he
  have hstate := (hm s hs).2
  cases hrun : m s with
  | mk passed result t =>
    rw [hrun] at hstate
    cases result with
    | error d =>
      rw [bind_error hrun]
      exact hstate
    | ok a =>
      rw [bind_ok hrun] at he ⊢
      exact hf a t e hstate he

/-- Behind the part that may fail comes nothing else that fails. -/
theorem failing_last {m : Durable ℓ σ ε α} {f : α → Durable ℓ σ ε β} (hm : KeepsFailing inv m)
    (hf : ∀ a t e, (f a t).result ≠ .error e) : KeepsFailing inv (m >>= f) := by
  intro s e hs he
  cases hrun : m s with
  | mk passed result t =>
    cases result with
    | error d =>
      have hstate := hm s d hs (by rw [hrun])
      rw [hrun] at hstate
      rw [bind_error hrun]
      exact hstate
    | ok a =>
      rw [bind_ok hrun] at he
      exact absurd he (hf a t e)

/-- A handler runs from what the failure left. -/
theorem failing_onError {m : Durable ℓ σ ε α} {handler : Durable ℓ σ ε Unit}
    (hm : KeepsFailing inv m) (hh : Keeps inv handler) :
    KeepsFailing inv (onError m handler) := by
  intro s e hs he
  cases hrun : m s with
  | mk passed result t =>
    cases result with
    | ok a =>
      rw [onError_ok hrun] at he
      cases he
    | error d =>
      have hstate := hm s d hs (by rw [hrun])
      rw [hrun] at hstate
      rw [onError_error hrun]
      exact (hh t hstate).2

/-- An effect that fails changes nothing. -/
theorem failing_effect {label : ℓ} {f : σ → Except ε (α × σ)} :
    KeepsFailing inv (effect label f) := by
  intro s e hs he
  cases hf : f s with
  | error d =>
    rw [effect_error hf]
    exact hs
  | ok p =>
    obtain ⟨a, t⟩ := p
    rw [effect_ok hf] at he
    cases he

/-- What a program leaves: its first part where that fails, else the rest of it. -/
theorem ends_bind {m : Durable ℓ σ ε α} {f : α → Durable ℓ σ ε β}
    (hm : ∀ e, (m s).result = .error e → P (m s).state)
    (hf : ∀ a, (m s).result = .ok a → P (f a (m s).state).state) : P ((m >>= f) s).state := by
  cases hrun : m s with
  | mk passed result t =>
    cases result with
    | error d =>
      have hstate := hm d (by rw [hrun])
      rw [hrun] at hstate
      rw [bind_error hrun]
      exact hstate
    | ok a =>
      have hrest := hf a (by rw [hrun])
      rw [hrun] at hrest
      rw [bind_ok hrun]
      exact hrest

/-! ## Programs that return -/

/-- The run from `s` returns, with this value and store. -/
def Returns (Q : α → σ → Prop) (m : Durable ℓ σ ε α) (s : σ) : Prop :=
  ∃ a, (m s).result = .ok a ∧ Q a (m s).state

theorem Returns.mono {Q R : α → σ → Prop} {m : Durable ℓ σ ε α} (h : Returns Q m s)
    (hqr : ∀ a t, Q a t → R a t) : Returns R m s := by
  obtain ⟨a, ha, hq⟩ := h
  exact ⟨a, ha, hqr _ _ hq⟩

theorem returns_pure {Q : α → σ → Prop} (a : α) (h : Q a s) :
    Returns Q (pure a : Durable ℓ σ ε α) s := ⟨a, rfl, h⟩

theorem returns_bind {R : α → σ → Prop} {Q : β → σ → Prop} {m : Durable ℓ σ ε α}
    {f : α → Durable ℓ σ ε β} (hm : Returns R m s)
    (hf : ∀ a t, R a t → Returns Q (f a) t) : Returns Q (m >>= f) s := by
  obtain ⟨a, ha, hr⟩ := hm
  obtain ⟨b, hb, hq⟩ := hf a _ hr
  cases hrun : m s with
  | mk passed result t =>
    rw [hrun] at ha hb hq
    change result = .ok a at ha
    subst ha
    unfold Returns
    rw [bind_ok hrun]
    exact ⟨b, hb, hq⟩

/-- What the rest of a program leaves behind a part that returns. -/
theorem leaves_bind {R : α → σ → Prop} {m : Durable ℓ σ ε α} {f : α → Durable ℓ σ ε β}
    (hm : Returns R m s) (hf : ∀ a t, R a t → P (f a t).state) : P ((m >>= f) s).state := by
  obtain ⟨a, ha, hr⟩ := hm
  have hrest := hf a _ hr
  cases hrun : m s with
  | mk passed result t =>
    rw [hrun] at ha hrest
    change result = .ok a at ha
    subst ha
    rw [bind_ok hrun]
    exact hrest

theorem returns_attempt {Q : α → σ → Prop} {m : Durable ℓ σ ε α} (h : Returns Q m s) :
    Returns (fun result t => ∃ a, result = .ok a ∧ Q a t) (attempt m) s := by
  obtain ⟨a, ha, hq⟩ := h
  exact ⟨(m s).result, rfl, a, ha, hq⟩

theorem returns_effect {Q : α → σ → Prop} {label : ℓ} {f : σ → Except ε (α × σ)} {a : α} {t : σ}
    (hf : f s = .ok (a, t)) (h : Q a t) : Returns Q (effect label f) s := by
  unfold Returns
  rw [effect_ok hf]
  exact ⟨a, rfl, h⟩

theorem returns_statement {Q : α → σ → Prop} {label : ℓ} {f : σ → Except ε α × σ} {a : α} {t : σ}
    (hf : f s = (.ok a, t)) (h : Q a t) : Returns Q (statement label f) s := by
  unfold Returns
  rw [statement_ok hf]
  exact ⟨a, rfl, h⟩

theorem returns_look {Q : α → σ → Prop} {f : σ → Except ε α} {a : α} (hf : f s = .ok a)
    (h : Q a s) : Returns Q (look f : Durable ℓ σ ε α) s := ⟨a, hf, h⟩

theorem returns_within {ℓ' τ ε' : Type} {Q : α → σ → Prop} {label : ℓ' → ℓ} {get : σ → τ}
    {set : τ → σ → σ} {error : ε' → ε} {m : Durable ℓ' τ ε' α}
    (h : Returns (fun a t => Q a (set t s)) m (get s)) :
    Returns Q (within label get set error m) s := by
  obtain ⟨a, ha, hq⟩ := h
  refine ⟨a, ?_, hq⟩
  change (m (get s)).result.mapError error = .ok a
  rw [ha]
  rfl

end Durable

end Library
