import EvoCI.Library.Dict
import EvoCI.Library.Indexed

/-! Folds over keyed items: what is seen under a key depends on the item of that key alone, and
over several such folds on the items of that key, fold by fold. -/

namespace Library

namespace Keyed

variable {σ α κ ν : Type}

/-- A step that changes what is seen under the key of its item, from what was seen there. -/
structure Local (key : α → κ) (view : σ → κ → ν) (step : σ → α → σ) (own : α → ν → ν) : Prop where
  here : ∀ s a, view (step s a) (key a) = own a (view s (key a))
  elsewhere : ∀ s a k, k ≠ key a → view (step s a) k = view s k

namespace Local

variable {key : α → κ} {view : σ → κ → ν} {step : σ → α → σ} {own : α → ν → ν}

theorem foldl_of_notMem (h : Local key view step own) {items : List α} {k : κ}
    (hk : k ∉ items.map key) (s : σ) : view (items.foldl step s) k = view s k := by
  induction items generalizing s with
  | nil => rfl
  | cons a items ih =>
    rw [List.map_cons, List.mem_cons, not_or] at hk
    rw [List.foldl_cons, ih hk.2, h.elsewhere s a k hk.1]

/-- Among items with distinct keys the one with the key decides. -/
theorem foldl_of_mem (h : Local key view step own) {items : List α}
    (hnodup : (items.map key).Nodup) {a : α} (ha : a ∈ items) (s : σ) :
    view (items.foldl step s) (key a) = own a (view s (key a)) := by
  induction items generalizing s with
  | nil => cases ha
  | cons b items ih =>
    rw [List.map_cons, List.nodup_cons] at hnodup
    rw [List.foldl_cons]
    rcases List.mem_cons.mp ha with rfl | ha
    · rw [h.foldl_of_notMem hnodup.1, h.here]
    · have hne : key a ≠ key b := fun heq => hnodup.1 (heq ▸ List.mem_map_of_mem ha)
      rw [ih hnodup.2 ha, h.elsewhere s b _ hne]

end Local

/-- A fold over a table, as it is seen under one key. -/
theorem foldl_find [DecidableEq κ] {key : α → κ} {view : σ → κ → ν} {step : σ → α → σ}
    {own : α → ν → ν} (h : Local key view step own) {items : List α}
    (hnodup : (items.map key).Nodup) (s : σ) (k : κ) :
    view (items.foldl step s) k =
      match items.find? fun a => key a = k with
      | none => view s k
      | some a => own a (view s k) := by
  cases hfind : items.find? fun a => key a = k with
  | none =>
    refine h.foldl_of_notMem (fun hmem => ?_) s
    obtain ⟨a, ha, heq⟩ := List.mem_map.mp hmem
    exact List.find?_eq_none.mp hfind a ha (decide_eq_true heq)
  | some a =>
    have hkey : key a = k := by simpa using List.find?_some hfind
    rw [← hkey]
    exact h.foldl_of_mem hnodup (List.mem_of_find?_eq_some hfind) s

/-- Putting in a row is seen under its key alone. -/
theorem upsert_local [DecidableEq κ] {ρ : Type} (key : ρ → κ) (update : ρ → ρ → ρ)
    (hkey : ∀ current row, key (update current row) = key row) :
    Local key (fun (base : List ρ) k => base.find? fun row => key row = k) (upsert key update)
      (fun row seen => some (seen.elim row fun current => update current row)) where
  here base row := by
    unfold upsert
    split
    · next hmem =>
      obtain ⟨current, hcurrent, heq⟩ := List.mem_map.mp hmem
      have hsame : ((fun found => decide (key found = key row)) ∘ fun current =>
          if key current = key row then update current row else current) =
          fun current => decide (key current = key row) := by
        funext current
        by_cases h : key current = key row
        · simp [h, hkey]
        · simp [h]
      rw [List.find?_map, hsame]
      cases hfind : base.find? fun current => key current = key row with
      | none => exact absurd (decide_eq_true heq) (List.find?_eq_none.mp hfind current hcurrent)
      | some found =>
        have hfound : key found = key row := by simpa using List.find?_some hfind
        simp [hfound]
    · next hnew =>
      have hnone : base.find? (fun current => key current = key row) = none :=
        List.find?_eq_none.mpr fun current hcurrent heq =>
          hnew (List.mem_map.mpr ⟨current, hcurrent, of_decide_eq_true heq⟩)
      rw [List.find?_append, hnone]
      simp
  elsewhere base row k hne := by
    unfold upsert
    split
    · have hsame : ((fun found => decide (key found = k)) ∘ fun current =>
          if key current = key row then update current row else current) =
          fun current => decide (key current = k) := by
        funext current
        by_cases h : key current = key row
        · simp [h, hkey, Ne.symm hne]
        · simp [h]
      rw [List.find?_map, hsame]
      cases hfind : base.find? fun current => key current = k with
      | none => rfl
      | some found =>
        have hfound : key found = k := by simpa using List.find?_some hfind
        have hother : key found ≠ key row := fun heq => hne (hfound.symm.trans heq)
        simp [hother]
    · rw [List.find?_append]
      simp [Ne.symm hne]

/-- A fold over a dictionary, as it is seen under one key. -/
theorem foldl_dict {ω : Type} [DecidableEq κ] {view : σ → κ → ν} {step : σ → κ × ω → σ}
    {own : κ × ω → ν → ν} (h : Local Prod.fst view step own)
    {d : Dict κ ω} (hnodup : (Dict.keys d).Nodup) (s : σ)
    (k : κ) :
    view (d.foldl step s) k =
      match d.get? k with
      | none => view s k
      | some w => own (k, w) (view s k) := by
  cases hget : d.get? k with
  | none =>
    refine h.foldl_of_notMem (fun hmem => ?_) s
    obtain ⟨p, hp, rfl⟩ := List.mem_map.mp hmem
    rw [(Dict.mem_iff_get? d hnodup p.1 p.2).mp hp] at hget
    cases hget
  | some w =>
    exact h.foldl_of_mem hnodup ((Dict.mem_iff_get? d hnodup k w).mpr hget) s

end Keyed

end Library
