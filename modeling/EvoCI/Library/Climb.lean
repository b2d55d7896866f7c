import Mathlib.Data.List.Basic

/-! Walking down and up a tree by components, one of which leads to the parent: when the walk
never leaves the place where it starts, it ends below it wherever that place is, and otherwise
it leads out of some. -/

namespace Library

section

variable {α : Type} [DecidableEq α]

/-- Where a walk from `base` ends; above the root there is nothing. -/
def descend (up : α) (base parts : List α) : List α :=
  parts.foldl (fun l part => if part = up then l.dropLast else l ++ [part]) base

/-- The end of a walk relative to its start, while it does not climb above it; `walked` is the
way it has come. -/
def wayBelow (up : α) : List α → List α → Option (List α)
  | walked, [] => some walked
  | walked, part :: parts =>
    if part = up then
      if walked = [] then none else wayBelow up walked.dropLast parts
    else wayBelow up (walked ++ [part]) parts

variable {up : α}

theorem descend_of_wayBelow {walked parts form : List α} (h : wayBelow up walked parts = some form)
    (base : List α) : descend up (base ++ walked) parts = base ++ form := by
  induction parts generalizing walked with
  | nil =>
    cases h
    rfl
  | cons part parts ih =>
    unfold wayBelow at h
    unfold descend
    rw [List.foldl_cons]
    split at h
    next hup =>
      split at h
      · cases h
      next hwalked =>
        rw [if_pos hup, List.dropLast_append_of_ne_nil hwalked]
        exact ih h
    next hup =>
      rw [if_neg hup, List.append_assoc]
      exact ih h

/-- Outside a place whose name the walk does not use, it stays outside. -/
theorem descend_outside {base : List α} {name : α} {l parts : List α}
    (hout : ¬ base ++ [name] <+: l) (hname : name ∉ parts) :
    ¬ base ++ [name] <+: descend up l parts := by
  induction parts generalizing l with
  | nil => exact hout
  | cons part parts ih =>
    simp only [List.mem_cons, not_or] at hname
    unfold descend
    rw [List.foldl_cons]
    refine ih ?_ hname.2
    split
    · exact fun hin => hout (hin.trans (List.dropLast_prefix l))
    · intro hin
      rcases List.prefix_concat_iff.1 hin with heq | hin
      · exact hname.1 (List.append_inj_right' heq rfl |> List.singleton_inj.1)
      · exact hout hin

/-- A walk that climbs above its start leads out of a place whose name it does not use. -/
theorem descend_escapes {walked parts : List α} (h : wayBelow up walked parts = none)
    {base : List α} {name : α} (hname : name ∉ parts) :
    ¬ base ++ [name] <+: descend up (base ++ [name] ++ walked) parts := by
  induction parts generalizing walked with
  | nil => cases h
  | cons part parts ih =>
    simp only [List.mem_cons, not_or] at hname
    unfold wayBelow at h
    split at h
    next hup =>
      have hstep : ∀ l, descend up l (part :: parts) = descend up l.dropLast parts := by
        intro l
        simp [descend, hup]
      rw [hstep]
      split at h
      next hwalked =>
        subst hwalked
        refine descend_outside ?_ hname.2
        intro hin
        have hlength := hin.length_le
        simp only [List.append_nil, List.length_append, List.length_dropLast,
          List.length_singleton] at hlength
        omega
      next hwalked =>
        rw [List.dropLast_append_of_ne_nil hwalked]
        exact ih h hname.2
    next hup =>
      have hstep : ∀ l, descend up l (part :: parts) = descend up (l ++ [part]) parts := by
        intro l
        simp [descend, hup]
      rw [hstep, List.append_assoc]
      exact ih h hname.2

end

end Library
