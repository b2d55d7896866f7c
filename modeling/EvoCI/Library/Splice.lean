import Mathlib.Data.List.Count

/-! Replacing a number of occurrences of one list in another. -/

namespace Library

/-- `after` is `before` with that many occurrences of `old`, none overlapping, replaced by
`new`, and nothing else changed. -/
def Spliced {α : Type} (old new : List α) : Nat → List α → List α → Prop
  | 0, before, after => after = before
  | count + 1, before, after =>
    ∃ kept rest rest', before = kept ++ old ++ rest ∧ after = kept ++ new ++ rest' ∧
      Spliced old new count rest rest'

section

variable {α β : Type} {old new : List α}

theorem Spliced.cons {count : Nat} {before after : List α} (h : Spliced old new count before after)
    (a : α) : Spliced old new count (a :: before) (a :: after) := by
  cases count with
  | zero =>
    have heq : after = before := h
    rw [heq]
    rfl
  | succ count =>
    obtain ⟨kept, rest, rest', rfl, rfl, hrest⟩ := h
    exact ⟨a :: kept, rest, rest', rfl, rfl, hrest⟩

/-- A function of each element carries replacements over. -/
theorem Spliced.flatMap {count : Nat} {before after : List α}
    (h : Spliced old new count before after) (f : α → List β) :
    Spliced (old.flatMap f) (new.flatMap f) count (before.flatMap f) (after.flatMap f) := by
  induction count generalizing before after with
  | zero =>
    have heq : after = before := h
    rw [heq]
    rfl
  | succ count ih =>
    obtain ⟨kept, rest, rest', rfl, rfl, hrest⟩ := h
    exact ⟨kept.flatMap f, rest.flatMap f, rest'.flatMap f, by simp, by simp, ih hrest⟩

/-- What replacements do to the number of an element. -/
theorem Spliced.count [DecidableEq α] {count : Nat} {before after : List α}
    (h : Spliced old new count before after) (a : α) :
    after.count a + count * old.count a = before.count a + count * new.count a := by
  induction count generalizing before after with
  | zero =>
    have heq : after = before := h
    simp [heq]
  | succ count ih =>
    obtain ⟨kept, rest, rest', rfl, rfl, hrest⟩ := h
    have hcount := ih hrest
    simp only [List.count_append, Nat.succ_mul]
    omega

end

end Library
