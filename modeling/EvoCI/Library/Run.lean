import Mathlib.Data.List.Basic

/-! Runs of a total step function over a list of actions: invariants, invariants
under a condition on the steps taken, and a rank that bounds how many steps do
work before the system is at rest. -/

namespace Library

namespace Run

variable {σ α : Type}

/-- The state after performing `actions` in order. -/
def run (step : α → σ → σ) (s : σ) (actions : List α) : σ :=
  actions.foldl (fun s a => step a s) s

@[simp] theorem run_nil (step : α → σ → σ) (s : σ) : run step s [] = s := rfl

@[simp] theorem run_cons (step : α → σ → σ) (s : σ) (a : α) (actions : List α) :
    run step s (a :: actions) = run step (step a s) actions := rfl

@[simp] theorem run_append (step : α → σ → σ) (s : σ) (before after : List α) :
    run step s (before ++ after) = run step (run step s before) after := by
  simp [run]

/-- Every step of the run, taken in the state it is taken in, satisfies `ok`. -/
def Every (step : α → σ → σ) (ok : α → σ → Prop) : σ → List α → Prop
  | _, [] => True
  | s, a :: actions => ok a s ∧ Every step ok (step a s) actions

instance decidableEvery (step : α → σ → σ) (ok : α → σ → Prop) [∀ a s, Decidable (ok a s)] :
    ∀ s actions, Decidable (Every step ok s actions)
  | _, [] => .isTrue trivial
  | s, a :: actions =>
    have := decidableEvery step ok (step a s) actions
    inferInstanceAs (Decidable (ok a s ∧ Every step ok (step a s) actions))

theorem every_mono {step : α → σ → σ} {ok ok' : α → σ → Prop} (h : ∀ a s, ok a s → ok' a s)
    {s : σ} {actions : List α} (hok : Every step ok s actions) : Every step ok' s actions := by
  induction actions generalizing s with
  | nil => trivial
  | cons a actions ih => exact ⟨h a s hok.1, ih hok.2⟩

theorem every_append (step : α → σ → σ) (ok : α → σ → Prop) (s : σ) (before after : List α) :
    Every step ok s (before ++ after) ↔
      Every step ok s before ∧ Every step ok (run step s before) after := by
  induction before generalizing s with
  | nil => simp [Every]
  | cons a before ih => simp [Every, ih, and_assoc]

/-- An invariant kept by every step that satisfies `ok` holds after every run
whose steps all satisfy `ok`. -/
theorem invariant_of_every {step : α → σ → σ} {ok : α → σ → Prop} {inv : σ → Prop}
    (kept : ∀ s a, ok a s → inv s → inv (step a s)) {s : σ} (hs : inv s) {actions : List α}
    (hok : Every step ok s actions) : inv (run step s actions) := by
  induction actions generalizing s with
  | nil => exact hs
  | cons a actions ih => exact ih (kept s a hok.1 hs) hok.2

/-- An invariant kept by every step holds after every run. -/
theorem invariant {step : α → σ → σ} {inv : σ → Prop} (kept : ∀ s a, inv s → inv (step a s))
    {s : σ} (hs : inv s) (actions : List α) : inv (run step s actions) := by
  induction actions generalizing s with
  | nil => exact hs
  | cons a actions ih => exact ih (kept s a hs)

/-- The steps of a run may be assumed to start where an invariant holds. -/
theorem every_and_invariant {step : α → σ → σ} {ok : α → σ → Prop} {inv : σ → Prop}
    (kept : ∀ s a, inv s → inv (step a s)) {s : σ} (hs : inv s) {actions : List α}
    (hok : Every step ok s actions) : Every step (fun a s => ok a s ∧ inv s) s actions := by
  induction actions generalizing s with
  | nil => trivial
  | cons a actions ih => exact ⟨⟨hok.1, hs⟩, ih (kept s a hs) hok.2⟩

/-- Where an invariant is kept by just the steps that satisfy `ok`, it holds all along a run just
when every step of the run does. -/
theorem always_iff_every {step : α → σ → σ} {ok : α → σ → Prop} {inv : σ → Prop}
    (hstep : ∀ s a, inv s → (inv (step a s) ↔ ok a s)) {s : σ} (hs : inv s) (actions : List α) :
    (∀ before after, actions = before ++ after → inv (run step s before)) ↔
      Every step ok s actions := by
  induction actions generalizing s with
  | nil =>
    refine iff_of_true (fun before after h => ?_) trivial
    rw [(List.append_eq_nil_iff.mp h.symm).1]
    exact hs
  | cons a actions ih =>
    constructor
    · intro h
      have hnext : inv (step a s) := h [a] actions rfl
      exact ⟨(hstep s a hs).mp hnext, (ih hnext).mp fun before after heq =>
        h (a :: before) after (congrArg (a :: ·) heq)⟩
    · rintro ⟨hok, hrest⟩ before after heq
      cases before with
      | nil => exact hs
      | cons b before =>
        obtain ⟨rfl, htail⟩ := List.cons.inj heq
        exact (ih ((hstep s a hs).mpr hok)).mpr hrest before after htail

/-! ## Histories -/

/-- Each entry of a history is related to the entries before it. -/
def Preceded (related : List α → α → Prop) (history : List α) : Prop :=
  ∀ before entry after, history = before ++ entry :: after → related before entry

theorem preceded_nil (related : List α → α → Prop) : Preceded related [] := by
  intro before entry after h
  simp at h

theorem preceded_concat (related : List α → α → Prop) (history : List α) (entry : α) :
    Preceded related (history ++ [entry]) ↔ Preceded related history ∧ related history entry := by
  constructor
  · intro h
    refine ⟨fun before e after heq => h before e (after ++ [entry]) ?_, h history entry [] rfl⟩
    rw [heq]
    simp
  · rintro ⟨h, hentry⟩ before e after heq
    rcases List.eq_nil_or_concat after with rfl | ⟨rest, last, rfl⟩
    · obtain ⟨rfl, hlast⟩ := List.append_inj' heq rfl
      cases hlast
      exact hentry
    · have hsplit : history ++ [entry] = (before ++ e :: rest) ++ [last] := by
        rw [heq]
        simp
      exact h before e rest (List.append_inj hsplit (by
        have hlen := congrArg List.length hsplit
        simp only [List.length_append, List.length_singleton] at hlen
        simp only [List.length_append]
        omega)).1

end Run

end Library
