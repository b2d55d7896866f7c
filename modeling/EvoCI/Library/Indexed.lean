import Mathlib.Data.List.Nodup
import Mathlib.Data.List.Perm.Basic

/-! A table with a key and an index beside it, which holds for each row its key and what is to be
found of it. -/

namespace Library

variable {ρ κ γ : Type} (key : ρ → κ) (content : ρ → γ)

/-- No two rows have a key in common, and the index has one entry for each row. -/
structure Indexed (base : List ρ) (index : List (κ × γ)) : Prop where
  keys : (base.map key).Nodup
  entries : index.Perm (base.map fun row => (key row, content row))

namespace Indexed

variable {key content} {base : List ρ} {index : List (κ × γ)}

theorem nil : Indexed key content [] [] := ⟨List.nodup_nil, .nil⟩

/-- A new row goes with its entry. -/
theorem concat (h : Indexed key content base index) {row : ρ} (hnew : key row ∉ base.map key) :
    Indexed key content (base ++ [row]) (index ++ [(key row, content row)]) := by
  constructor
  · rw [List.map_append, List.map_singleton]
    exact List.nodup_append.mpr ⟨h.keys, List.nodup_singleton _, fun a ha b hb heq =>
      hnew (List.mem_singleton.mp hb ▸ heq ▸ ha)⟩
  · rw [List.map_append, List.map_singleton]
    exact h.entries.append_right _

/-- A change of the rows that the index does not see. -/
theorem congr (h : Indexed key content base index) {base' : List ρ}
    (heq : (base'.map fun row => (key row, content row)) =
      base.map fun row => (key row, content row)) : Indexed key content base' index := by
  have hkeys : base'.map key = base.map key := by
    have hfst := congrArg (List.map Prod.fst) heq
    rw [List.map_map, List.map_map] at hfst
    exact hfst
  exact ⟨hkeys ▸ h.keys, heq ▸ h.entries⟩

/-- The index written anew. -/
theorem rebuild (h : (base.map key).Nodup) :
    Indexed key content base (base.map fun row => (key row, content row)) := ⟨h, .refl _⟩

end Indexed

/-! ## Putting rows into a table -/

variable {key}

/-- `INSERT OR IGNORE`: a row that clashes with one that is there is left out. -/
def insertNew (clash : ρ → ρ → Bool) (base : List ρ) (row : ρ) : List ρ :=
  if base.any (clash row) then base else base ++ [row]

theorem nodup_insertNew {clash : ρ → ρ → Bool}
    (hclash : ∀ row current, key row = key current → clash row current = true) {base : List ρ}
    (h : (base.map key).Nodup) (row : ρ) : ((insertNew clash base row).map key).Nodup := by
  unfold insertNew
  split
  · exact h
  · next hfree =>
    rw [List.map_append, List.map_singleton]
    refine List.nodup_append.mpr ⟨h, List.nodup_singleton _, fun a ha b hb heq => hfree ?_⟩
    obtain ⟨current, hmem, rfl⟩ := List.mem_map.mp ha
    exact List.any_eq_true.mpr ⟨current, hmem, hclash _ _ ((List.mem_singleton.mp hb) ▸ heq.symm)⟩

/-- What a table holds after rows were put in, and what became of each of them. -/
theorem insertNews_spec {clash : ρ → ρ → Bool}
    (hclash : ∀ row current, key row = key current → clash row current = true) {base : List ρ}
    (h : (base.map key).Nodup) (rows : List ρ) :
    ((rows.foldl (insertNew clash) base).map key).Nodup ∧
      base ⊆ rows.foldl (insertNew clash) base ∧
      (∀ row ∈ rows.foldl (insertNew clash) base, row ∈ base ∨ row ∈ rows) ∧
      ∀ row ∈ rows, ∃ kept ∈ rows.foldl (insertNew clash) base, clash row kept = true := by
  induction rows generalizing base with
  | nil => exact ⟨h, fun _ hmem => hmem, fun _ hmem => .inl hmem, fun _ hmem => nomatch hmem⟩
  | cons row rows ih =>
    obtain ⟨hnodup, hsub, hfrom, hkept⟩ := ih (nodup_insertNew hclash h row)
    have hbase : base ⊆ insertNew clash base row := by
      unfold insertNew
      split
      · exact fun _ hmem => hmem
      · exact List.subset_append_left _ _
    refine ⟨hnodup, fun _ hmem => hsub (hbase hmem), fun other hother => ?_, fun other hother => ?_⟩
    · rcases hfrom other hother with hold | hnew
      · unfold insertNew at hold
        split at hold
        · exact .inl hold
        · rcases List.mem_append.mp hold with hold | hsame
          · exact .inl hold
          · exact .inr (List.mem_singleton.mp hsame ▸ List.mem_cons_self)
      · exact .inr (List.mem_cons_of_mem _ hnew)
    · rcases List.mem_cons.mp hother with rfl | hother
      · have hthere : ∃ kept ∈ insertNew clash base other, clash other kept = true := by
          unfold insertNew
          split
          · next hany => exact List.any_eq_true.mp hany
          · exact ⟨other, List.mem_append_right _ List.mem_cons_self, hclash _ _ rfl⟩
        obtain ⟨kept, hmem, hk⟩ := hthere
        exact ⟨kept, hsub hmem, hk⟩
      · exact hkept other hother

variable [DecidableEq κ]

variable (key) in
/-- A row of a new key is added, one of a known key changes the row that is there. -/
def upsert (update : ρ → ρ → ρ) (base : List ρ) (row : ρ) : List ρ :=
  if key row ∈ base.map key then
    base.map fun current => if key current = key row then update current row else current
  else base ++ [row]

theorem upsert_keys {update : ρ → ρ → ρ} (hkey : ∀ current row, key (update current row) = key row)
    (base : List ρ) (row : ρ) :
    (upsert key update base row).map key =
      if key row ∈ base.map key then base.map key else base.map key ++ [key row] := by
  unfold upsert
  split
  · rw [List.map_map]
    refine List.map_congr_left fun current _ => ?_
    simp only [Function.comp_apply]
    split
    · next heq => rw [hkey, heq]
    · rfl
  · rw [List.map_append, List.map_singleton]

theorem nodup_upsert {update : ρ → ρ → ρ}
    (hkey : ∀ current row, key (update current row) = key row) {base : List ρ}
    (h : (base.map key).Nodup) (row : ρ) : ((upsert key update base row).map key).Nodup := by
  rw [upsert_keys hkey]
  split
  · exact h
  · next hnew =>
    exact List.nodup_append.mpr ⟨h, List.nodup_singleton _, fun a ha b hb heq =>
      hnew (List.mem_singleton.mp hb ▸ heq ▸ ha)⟩

theorem nodup_upserts {update : ρ → ρ → ρ}
    (hkey : ∀ current row, key (update current row) = key row) {base : List ρ}
    (h : (base.map key).Nodup) (rows : List ρ) :
    ((rows.foldl (upsert key update) base).map key).Nodup := by
  induction rows generalizing base with
  | nil => exact h
  | cons row rows ih => exact ih (nodup_upsert hkey h row)

theorem mem_upserts {update : ρ → ρ → ρ}
    (hkey : ∀ current row, key (update current row) = key row) {base : List ρ} (rows : List ρ)
    (k : κ) : k ∈ (rows.foldl (upsert key update) base).map key ↔
      k ∈ base.map key ∨ k ∈ rows.map key := by
  induction rows generalizing base with
  | nil => simp
  | cons row rows ih =>
    rw [List.foldl_cons, ih, upsert_keys hkey, List.map_cons, List.mem_cons]
    split
    · next hold =>
      constructor
      · exact fun h => h.imp_right .inr
      · rintro (h | rfl | h)
        · exact .inl h
        · exact .inl hold
        · exact .inr h
    · rw [List.mem_append, List.mem_singleton, or_assoc]

/-- What holds of the rows that are there and of those that come holds of all behind them. -/
theorem forall_upserts {update : ρ → ρ → ρ} {P : ρ → Prop}
    (hupdate : ∀ current row, P current → P row → P (update current row)) {base rows : List ρ}
    (hbase : ∀ row ∈ base, P row) (hrows : ∀ row ∈ rows, P row) :
    ∀ row ∈ rows.foldl (upsert key update) base, P row := by
  induction rows generalizing base with
  | nil => exact hbase
  | cons first rows ih =>
    have hfirst := hrows first List.mem_cons_self
    refine ih (fun row hrow => ?_) fun row hrow => hrows row (List.mem_cons_of_mem first hrow)
    unfold upsert at hrow
    split at hrow
    · obtain ⟨current, hcurrent, rfl⟩ := List.mem_map.mp hrow
      have hold := hbase current hcurrent
      split
      · exact hupdate current first hold hfirst
      · exact hold
    · rcases List.mem_append.mp hrow with hrow | hrow
      · exact hbase row hrow
      · exact List.mem_singleton.mp hrow ▸ hfirst

end Library
