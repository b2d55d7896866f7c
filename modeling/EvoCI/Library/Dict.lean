import Mathlib.Data.List.Basic
import Mathlib.Data.List.Nodup

/-! Insertion-ordered dictionaries. A dictionary is the list of its items in
the order their keys were first inserted; assigning to a present key keeps the
key's place. Nothing here depends on what is stored. -/

namespace Library

abbrev Dict (κ ν : Type) := List (κ × ν)

namespace Dict

variable {κ ν : Type} [DecidableEq κ]

def get? : Dict κ ν → κ → Option ν
  | [], _ => none
  | (k, v) :: d, key => if k = key then some v else get? d key

/-- `d[key] = value`. -/
def set : Dict κ ν → κ → ν → Dict κ ν
  | [], key, value => [(key, value)]
  | (k, v) :: d, key, value =>
    if k = key then (k, value) :: d else (k, v) :: set d key value

def keys (d : Dict κ ν) : List κ := d.map Prod.fst

omit [DecidableEq κ] in
@[simp] theorem keys_nil : keys ([] : Dict κ ν) = [] := rfl

omit [DecidableEq κ] in
@[simp] theorem keys_cons (p : κ × ν) (d : Dict κ ν) : keys (p :: d) = p.1 :: keys d := rfl

omit [DecidableEq κ] in
theorem fst_mem_keys {d : Dict κ ν} {p : κ × ν} (h : p ∈ d) : p.1 ∈ keys d :=
  List.mem_map_of_mem h

@[simp] theorem get?_nil (key : κ) : get? ([] : Dict κ ν) key = none := rfl

theorem get?_cons (k : κ) (v : ν) (d : Dict κ ν) (key : κ) :
    get? ((k, v) :: d) key = if k = key then some v else get? d key := rfl

@[simp] theorem get?_set_self (d : Dict κ ν) (key : κ) (value : ν) :
    get? (set d key value) key = some value := by
  induction d with
  | nil => simp [set, get?]
  | cons p d ih =>
    obtain ⟨k, v⟩ := p
    by_cases h : k = key
    · simp [set, get?, h]
    · simp [set, get?, h, ih]

theorem get?_set_of_ne (d : Dict κ ν) {key other : κ} (value : ν) (h : other ≠ key) :
    get? (set d key value) other = get? d other := by
  induction d with
  | nil => simp [set, get?, Ne.symm h]
  | cons p d ih =>
    obtain ⟨k, v⟩ := p
    by_cases hk : k = key
    · subst hk
      simp [set, get?, Ne.symm h]
    · simp [set, get?, hk, ih]

theorem get?_set (d : Dict κ ν) (key other : κ) (value : ν) :
    get? (set d key value) other = if other = key then some value else get? d other := by
  by_cases h : other = key
  · subst h
    simp
  · simp [h, get?_set_of_ne d value h]

theorem mem_keys_set (d : Dict κ ν) (key other : κ) (value : ν) :
    other ∈ keys (set d key value) ↔ other = key ∨ other ∈ keys d := by
  induction d with
  | nil => simp [set]
  | cons p d ih =>
    obtain ⟨k, v⟩ := p
    by_cases h : k = key
    · subst h
      simp [set]
    · simp [set, h, ih]
      tauto

theorem set_of_notMem {d : Dict κ ν} {key : κ} (h : key ∉ keys d) (value : ν) :
    set d key value = d ++ [(key, value)] := by
  induction d with
  | nil => rfl
  | cons p d ih =>
    obtain ⟨k, v⟩ := p
    obtain ⟨hk, hd⟩ := not_or.mp (List.mem_cons.not.mp h)
    rw [set, if_neg fun heq => hk heq.symm, ih hd, List.cons_append]

theorem keys_set_nodup (d : Dict κ ν) (key : κ) (value : ν) (h : (keys d).Nodup) :
    (keys (set d key value)).Nodup := by
  induction d with
  | nil => simp [set]
  | cons p d ih =>
    obtain ⟨k, v⟩ := p
    obtain ⟨hk, hd⟩ := List.nodup_cons.mp h
    by_cases hkey : k = key
    · subst hkey
      simp only [set, ↓reduceIte, keys_cons, List.nodup_cons]
      exact ⟨hk, hd⟩
    · simp only [set, if_neg hkey, keys_cons, List.nodup_cons, mem_keys_set, not_or]
      exact ⟨⟨hkey, hk⟩, ih hd⟩

theorem mem_keys_of_get? {d : Dict κ ν} {key : κ} {value : ν} (h : get? d key = some value) :
    key ∈ keys d := by
  induction d with
  | nil => cases h
  | cons p d ih =>
    obtain ⟨k, v⟩ := p
    by_cases hk : k = key
    · simp [hk]
    · rw [get?_cons, if_neg hk] at h
      exact List.mem_cons_of_mem _ (ih h)

/-- With distinct keys the items are exactly what lookups return. -/
theorem mem_iff_get? (d : Dict κ ν) (h : (keys d).Nodup) (key : κ) (value : ν) :
    (key, value) ∈ d ↔ get? d key = some value := by
  induction d with
  | nil => simp
  | cons p d ih =>
    obtain ⟨k, v⟩ := p
    obtain ⟨hk, hd⟩ := List.nodup_cons.mp h
    by_cases hkey : k = key
    · subst hkey
      have hnot : (k, value) ∉ d := fun hm => hk (List.mem_map.mpr ⟨_, hm, rfl⟩)
      simp [get?, hnot, eq_comm]
    · simp [get?, hkey, ih hd, Ne.symm hkey]

end Dict

end Library
