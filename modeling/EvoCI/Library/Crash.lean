import EvoCI.Library.Durable
import EvoCI.Library.Run

/-! Programs that are run one after another, each of which may be cut short by a crash. Some
effects expose the store: a crash behind one of them damages it for good. Nothing here depends
on what is stored. -/

namespace Library.Durable

variable {ℓ σ ε α β ι : Type}

/-! ## One program -/

/-- What a program leaves, cut short by a crash behind its first effects or not. -/
def leaves (m : Durable ℓ σ ε α) (crash : Option Nat) (s : σ) : σ :=
  match crash with
  | none => (m s).state
  | some n => (m s).crashed n s

/-- The crash falls behind an effect with such a label. -/
def CrashesBehind (m : Durable ℓ σ ε α) (exposed : ℓ → Bool) (crash : Option Nat) (s : σ) :
    Prop :=
  ∃ n p, crash = some n ∧ (m s).lastOf n = some p ∧ exposed p.1 = true

instance (m : Durable ℓ σ ε α) (exposed : ℓ → Bool) (crash : Option Nat) (s : σ) :
    Decidable (m.CrashesBehind exposed crash s) :=
  match crash with
  | none => .isFalse fun ⟨_, _, hnone, _⟩ => nomatch hnone
  | some n =>
    match hlast : (m s).lastOf n with
    | none => .isFalse fun ⟨_, _, hn, hsome, _⟩ => by cases hn; rw [hlast] at hsome; cases hsome
    | some p =>
      decidable_of_iff (exposed p.1 = true)
        ⟨fun h => ⟨n, p, rfl, hlast, h⟩, fun ⟨_, _, hn, hsome, h⟩ => by
          cases hn
          rw [hlast] at hsome
          cases hsome
          exact h⟩

/-- The run keeps the invariant at every store that it passes through. With a store that is damaged
at the beginning all of them are damaged, and otherwise just those behind exposed effects; behind
the whole run the store is as it was. -/
structure Steady (inv damaged : σ → Prop) (exposed : ℓ → Bool) (before : Prop)
    (m : Durable ℓ σ ε α) (s : σ) : Prop where
  stays : Stays inv m s
  passed : ∀ p ∈ (m s).passed, damaged p.2 ↔ before ∨ exposed p.1 = true
  last : damaged (m s).state ↔ before

variable {inv damaged : σ → Prop} {exposed : ℓ → Bool} {before : Prop} {s : σ}

theorem steady_of_run {m : Durable ℓ σ ε α} {result : Except ε α}
    (hrun : m s = ⟨[], result, s⟩) (hs : inv s) (hbefore : damaged s ↔ before) :
    Steady inv damaged exposed before m s := by
  refine ⟨⟨?_, ?_⟩, ?_, ?_⟩ <;> simp [hrun, hs, hbefore]

theorem steady_pure (a : α) (hs : inv s) (hbefore : damaged s ↔ before) :
    Steady inv damaged exposed before (pure a : Durable ℓ σ ε α) s := steady_of_run rfl hs hbefore

theorem steady_raise (e : ε) (hs : inv s) (hbefore : damaged s ↔ before) :
    Steady inv damaged exposed before (raise e : Durable ℓ σ ε α) s :=
  steady_of_run rfl hs hbefore

theorem steady_attempt {m : Durable ℓ σ ε α} (h : Steady inv damaged exposed before m s) :
    Steady inv damaged exposed before (attempt m) s := ⟨stays_attempt h.stays, h.passed, h.last⟩

theorem steady_bind {m : Durable ℓ σ ε α} {f : α → Durable ℓ σ ε β}
    (hm : Steady inv damaged exposed before m s)
    (hf : ∀ a, (m s).result = .ok a → inv (m s).state → (damaged (m s).state ↔ before) →
      Steady inv damaged exposed before (f a) (m s).state) :
    Steady inv damaged exposed before (m >>= f) s := by
  obtain ⟨hstays, hpassed, hlast⟩ := hm
  refine ⟨stays_bind hstays fun a ha hstate => (hf a ha hstate hlast).stays, ?_, ?_⟩
  · cases hrun : m s with
    | mk passed result t =>
      have hstate := hstays.2
      rw [hrun] at hf hstate hpassed hlast
      cases result with
      | error e =>
        rw [bind_error hrun]
        exact hpassed
      | ok a =>
        rw [bind_ok hrun]
        intro p hp
        rcases List.mem_append.mp hp with hp | hp
        · exact hpassed p hp
        · exact (hf a rfl hstate hlast).passed p hp
  · cases hrun : m s with
    | mk passed result t =>
      have hstate := hstays.2
      rw [hrun] at hf hstate hlast
      cases result with
      | error e =>
        rw [bind_error hrun]
        exact hlast
      | ok a =>
        rw [bind_ok hrun]
        exact (hf a rfl hstate hlast).last

/-- A look tells the rest of the program what the store holds; where it fails, the store is left. -/
theorem steady_look_bind {f : σ → Except ε α} {rest : α → Durable ℓ σ ε β} (hs : inv s)
    (herror : ∀ e, f s = .error e → (damaged s ↔ before))
    (hrest : ∀ a, f s = .ok a → Steady inv damaged exposed before (rest a) s) :
    Steady inv damaged exposed before (look f >>= rest) s := by
  cases hf : f s with
  | error e =>
    have hrun : look f s = (⟨[], .error e, s⟩ : DurableRun ℓ σ ε α) := by rw [look_run, hf]
    exact steady_of_run (bind_error hrun) hs (herror e hf)
  | ok a =>
    have hrun : look f s = (⟨[], .ok a, s⟩ : DurableRun ℓ σ ε α) := by rw [look_run, hf]
    obtain ⟨hstays, hpassed, hlast⟩ := hrest a hf
    have hsame : (look f >>= rest) s = rest a s := bind_ok hrun
    refine ⟨?_, ?_, ?_⟩
    · rw [Stays, hsame]
      exact hstays
    · rw [hsame]
      exact hpassed
    · rw [hsame]
      exact hlast

/-- An effect that leaves the store damaged just when it was before or the effect is exposed. -/
theorem steady_effect_bind {label : ℓ} {f : σ → Except ε (α × σ)} {rest : α → Durable ℓ σ ε β}
    (hs : inv s) (herror : ∀ e, f s = .error e → (damaged s ↔ before))
    (h : ∀ a t, f s = .ok (a, t) → inv t ∧ (damaged t ↔ before ∨ exposed label = true) ∧
      Steady inv damaged exposed before (rest a) t) :
    Steady inv damaged exposed before (effect label f >>= rest) s := by
  cases hf : f s with
  | error e => exact steady_of_run (bind_error (effect_error hf)) hs (herror e hf)
  | ok p =>
    obtain ⟨a, t⟩ := p
    obtain ⟨hinv, hdamaged, hstays, hpassed, hlast⟩ := h a t hf
    have heffect : effect label f s = ⟨[(label, t)], .ok a, t⟩ := effect_ok hf
    have hrun := bind_ok (f := rest) heffect
    refine ⟨⟨?_, ?_⟩, ?_, ?_⟩
    · rw [hrun]
      intro p hp
      rcases List.mem_cons.mp hp with rfl | hp
      · exact hinv
      · exact hstays.1 p hp
    · rw [hrun]
      exact hstays.2
    · rw [hrun]
      intro p hp
      rcases List.mem_cons.mp hp with rfl | hp
      · exact hdamaged
      · exact hpassed p hp
    · rw [hrun]
      exact hlast

/-- An effect that neither damages the store nor mends it. -/
theorem steady_effect {label : ℓ} {f : σ → Except ε (α × σ)} (hs : inv s)
    (hbefore : damaged s ↔ before) (hlabel : exposed label = false)
    (h : ∀ a t, f s = .ok (a, t) → inv t ∧ (damaged t ↔ damaged s)) :
    Steady inv damaged exposed before (effect label f) s := by
  cases hf : f s with
  | error e => exact steady_of_run (effect_error hf) hs hbefore
  | ok p =>
    obtain ⟨a, t⟩ := p
    obtain ⟨hinv, hsame⟩ := h a t hf
    have hrun : effect label f s = ⟨[(label, t)], .ok a, t⟩ := effect_ok hf
    refine ⟨⟨?_, ?_⟩, ?_, ?_⟩ <;> simp [hrun, hinv, hsame, hbefore, hlabel]

theorem Stays.leaves {m : Durable ℓ σ ε α} (h : Stays inv m s) (hs : inv s)
    (crash : Option Nat) : inv (m.leaves crash s) := by
  cases crash with
  | none => exact h.2
  | some n =>
    change inv ((m s).crashed n s)
    rcases DurableRun.crashed_cases (m s) n s with heq | ⟨p, -, hp, heq⟩
    · rw [heq]
      exact hs
    · rw [heq]
      exact h.1 p hp

/-- A run damages the store just when it is cut short behind an exposed effect. -/
theorem Steady.leaves_damaged {m : Durable ℓ σ ε α}
    (h : Steady inv damaged exposed (damaged s) m s) (crash : Option Nat) :
    damaged (m.leaves crash s) ↔ damaged s ∨ m.CrashesBehind exposed crash s := by
  cases crash with
  | none =>
    refine h.last.trans ⟨.inl, ?_⟩
    rintro (hs | ⟨n, p, hnone, -⟩)
    · exact hs
    · cases hnone
  | some n =>
    rcases DurableRun.crashed_cases (m s) n s with heq | ⟨p, hlast, hp, heq⟩
    · simp only [leaves, heq]
      refine ⟨.inl, ?_⟩
      rintro (hs | ⟨k, p, hk, hlast, hlabel⟩)
      · exact hs
      · cases hk
        have hthere : (m s).crashed n s = p.2 := by simp [DurableRun.crashed, hlast]
        rw [← heq, hthere, h.passed p (DurableRun.mem_of_lastOf hlast)]
        exact .inr hlabel
    · simp only [leaves, heq]
      rw [h.passed p hp]
      refine or_congr_right ⟨fun hlabel => ⟨n, p, rfl, hlast, hlabel⟩, ?_⟩
      rintro ⟨k, q, hk, hq, hlabel⟩
      cases hk
      obtain rfl : p = q := Option.some.inj (hlast.symm.trans hq)
      exact hlabel

/-! ## Histories -/

/-- The store behind a history of programs, each with its crash. -/
def behind (program : ι → Durable ℓ σ ε α) (crash : ι → Option Nat) (s : σ) (history : List ι) :
    σ :=
  Run.run (fun i s => (program i).leaves (crash i) s) s history

variable {program : ι → Durable ℓ σ ε α} {crash : ι → Option Nat}

/-- One of the history's programs is cut short behind an exposed effect. -/
def Exposed (program : ι → Durable ℓ σ ε α) (crash : ι → Option Nat) (exposed : ℓ → Bool) (s : σ)
    (history : List ι) : Prop :=
  ∃ before i after, history = before ++ i :: after ∧
    (program i).CrashesBehind exposed (crash i) (behind program crash s before)

theorem exposed_cons {i : ι} {history : List ι} :
    Exposed program crash exposed s (i :: history) ↔
      (program i).CrashesBehind exposed (crash i) s ∨
        Exposed program crash exposed ((program i).leaves (crash i) s) history := by
  constructor
  · rintro ⟨before, j, after, hsplit, hcrash⟩
    cases before with
    | nil =>
      cases hsplit
      exact .inl hcrash
    | cons first before =>
      cases hsplit
      exact .inr ⟨before, j, after, rfl, hcrash⟩
  · rintro (hcrash | ⟨before, j, after, rfl, hcrash⟩)
    · exact ⟨[], i, history, rfl, hcrash⟩
    · exact ⟨i :: before, j, after, rfl, hcrash⟩

instance decidableExposed (program : ι → Durable ℓ σ ε α) (crash : ι → Option Nat)
    (exposed : ℓ → Bool) : ∀ s history, Decidable (Exposed program crash exposed s history)
  | _, [] => .isFalse fun ⟨before, _, _, hnil, _⟩ => by cases before <;> cases hnil
  | s, i :: history =>
    have := decidableExposed program crash exposed ((program i).leaves (crash i) s) history
    decidable_of_iff (_ ∨ _) exposed_cons.symm

theorem behind_inv (hsteady : ∀ i s, inv s → Steady inv damaged exposed (damaged s) (program i) s)
    (hs : inv s) (history : List ι) : inv (behind program crash s history) :=
  Run.invariant (fun s i hs => (hsteady i s hs).stays.leaves hs (crash i)) hs history

/-- Steady programs damage the store just when one of them is cut short behind an exposed
effect. -/
theorem behind_damaged
    (hsteady : ∀ i s, inv s → Steady inv damaged exposed (damaged s) (program i) s)
    (hs : inv s) (history : List ι) :
    damaged (behind program crash s history) ↔
      damaged s ∨ Exposed program crash exposed s history := by
  induction history generalizing s with
  | nil =>
    refine ⟨.inl, ?_⟩
    rintro (hdamaged | ⟨before, i, after, hnil, -⟩)
    · exact hdamaged
    · cases before <;> cases hnil
  | cons i history ih =>
    have hnext := (hsteady i s hs).stays.leaves hs (crash i)
    exact (ih hnext).trans (by rw [(hsteady i s hs).leaves_damaged, exposed_cons, or_assoc])

theorem behind_append (history more : List ι) :
    behind program crash s (history ++ more) =
      behind program crash (behind program crash s history) more := by
  simp only [behind, Run.run_append]

theorem exposed_append {history more : List ι} :
    Exposed program crash exposed s (history ++ more) ↔
      Exposed program crash exposed s history ∨
        Exposed program crash exposed (behind program crash s history) more := by
  induction history generalizing s with
  | nil =>
    refine ⟨.inr, ?_⟩
    rintro (⟨before, i, after, hnil, -⟩ | hmore)
    · cases before <;> cases hnil
    · exact hmore
  | cons i history ih =>
    rw [List.cons_append, exposed_cons, ih, exposed_cons, or_assoc]
    rfl

/-- Programs that are steady on a store that is not damaged keep it so, as long as none of them
is cut short behind an exposed effect. -/
theorem behind_sound {history : List ι}
    (hsteady : ∀ i ∈ history, ∀ s, inv s → ¬ damaged s →
      Steady inv damaged exposed False (program i) s)
    (hs : inv s) (hsound : ¬ damaged s) (hcrash : ¬ Exposed program crash exposed s history) :
    inv (behind program crash s history) ∧ ¬ damaged (behind program crash s history) := by
  induction history generalizing s with
  | nil => exact ⟨hs, hsound⟩
  | cons i history ih =>
    rw [exposed_cons, not_or] at hcrash
    have h := hsteady i List.mem_cons_self s hs hsound
    have hnext : ¬ damaged ((program i).leaves (crash i) s) := by
      rw [← eq_false hsound] at h
      rw [h.leaves_damaged, not_or]
      exact ⟨hsound, hcrash.1⟩
    exact ih (fun j hj => hsteady j (List.mem_cons_of_mem i hj)) (h.stays.leaves hs (crash i)) hnext
      hcrash.2

end Library.Durable
