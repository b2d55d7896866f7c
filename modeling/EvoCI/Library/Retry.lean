import Mathlib.Data.List.Basic

/-! A fallible attempt that is made again while it asks for it and retries are left. What the
attempts do, and what an attempt yields, is left open. -/

namespace Library

variable {ε α : Type}

/-- The attempts made from number `k` on, with `left` retries: those that were followed by
another, and the last one. -/
def retrying (attempt : Nat → Except ε α) (again : α → Bool) : Nat → Nat → Except ε (List α × α)
  | 0, k =>
    match attempt k with
    | .error e => .error e
    | .ok a => .ok ([], a)
  | left + 1, k =>
    match attempt k with
    | .error e => .error e
    | .ok a =>
      if again a then
        match retrying attempt again left (k + 1) with
        | .error e => .error e
        | .ok (before, last) => .ok (a :: before, last)
      else .ok ([], a)

/-- What a loop of retries did: every attempt but the last asked for another, and the last asks
for none or has used the retries up. -/
structure Retried (attempt : Nat → Except ε α) (again : α → Bool) (left k : Nat)
    (before : List α) (last : α) : Prop where
  followed : ∀ i a, before[i]? = some a → attempt (k + i) = .ok a ∧ again a = true
  ended : attempt (k + before.length) = .ok last
  bounded : before.length ≤ left
  stopped : again last = true → before.length = left

/-- Each of the attempts that were made came to what is recorded of it. -/
theorem Retried.attempted {attempt : Nat → Except ε α} {again : α → Bool} {left k : Nat}
    {before : List α} {last : α} (h : Retried attempt again left k before last) {i : Nat} {a : α}
    (hi : (before ++ [last])[i]? = some a) : attempt (k + i) = .ok a := by
  rcases Nat.lt_or_ge i before.length with hlt | hge
  · rw [List.getElem?_append_left hlt] at hi
    exact (h.followed i a hi).1
  · rw [List.getElem?_append_right hge, List.getElem?_singleton] at hi
    split at hi
    next hzero =>
      cases hi
      obtain rfl : i = before.length := by omega
      exact h.ended
    · cases hi

/-- The loop does what it is described to do. -/
theorem retrying_ok {attempt : Nat → Except ε α} {again : α → Bool} {left k : Nat}
    {before : List α} {last : α} (h : retrying attempt again left k = .ok (before, last)) :
    Retried attempt again left k before last := by
  induction left generalizing k before last with
  | zero =>
    unfold retrying at h
    split at h
    · cases h
    next a ha =>
      cases h
      exact ⟨by simp, ha, Nat.le_refl 0, fun _ => rfl⟩
  | succ left ih =>
    unfold retrying at h
    split at h
    · cases h
    next a ha =>
      split at h
      next hagain =>
        split at h
        · cases h
        next before' last' hrest =>
          cases h
          obtain ⟨hfollowed, hended, hbounded, hstopped⟩ := ih hrest
          refine ⟨fun i b hb => ?_, ?_, ?_, fun hlast => ?_⟩
          · cases i with
            | zero =>
              obtain rfl : a = b := by simpa using hb
              exact ⟨ha, hagain⟩
            | succ i =>
              rw [show k + (i + 1) = k + 1 + i by omega]
              exact hfollowed i b (by simpa using hb)
          · rw [List.length_cons, show k + (before'.length + 1) = k + 1 + before'.length by omega]
            exact hended
          · rw [List.length_cons]
            omega
          · rw [List.length_cons, hstopped hlast]
      next hagain =>
        cases h
        exact ⟨by simp, ha, Nat.zero_le _, fun hlast => absurd hlast hagain⟩

end Library
