import Mathlib.Data.List.Basic

/-! Streams of records, each a name, a separator and a body, written one behind the other
without lengths, and streams of pieces without separators. Two lists have the same stream only
when they are the same or, behind what they have in common, one of them goes on inside a body
with what the other says next. -/

namespace Library

namespace Records

variable {α : Type} {sep : α}

def stream (sep : α) (records : List (List α × List α)) : List α :=
  records.flatMap fun r => r.1 ++ sep :: r.2

@[simp] theorem stream_nil : stream sep [] = [] := rfl

@[simp] theorem stream_cons (r : List α × List α) (records : List (List α × List α)) :
    stream sep (r :: records) = r.1 ++ sep :: (r.2 ++ stream sep records) := by
  simp [stream]

theorem stream_append (before after : List (List α × List α)) :
    stream sep (before ++ after) = stream sep before ++ stream sep after := by
  simp [stream]

/-- The second list has a longer body where the lists part, and what is more in it is what
the first list goes on with. -/
def Absorbed (sep : α) (xs ys : List (List α × List α)) : Prop :=
  ∃ common name body more rest rest', more ≠ [] ∧
    xs = common ++ (name, body) :: rest ∧ ys = common ++ (name, body ++ more) :: rest' ∧
    stream sep rest = more ++ stream sep rest'

theorem Absorbed.cons {xs ys : List (List α × List α)} (h : Absorbed sep xs ys)
    (r : List α × List α) : Absorbed sep (r :: xs) (r :: ys) := by
  obtain ⟨common, name, body, more, rest, rest', hmore, rfl, rfl, hrest⟩ := h
  exact ⟨r :: common, name, body, more, rest, rest', hmore, rfl, rfl, hrest⟩

theorem Absorbed.ne {xs ys : List (List α × List α)} (h : Absorbed sep xs ys) : xs ≠ ys := by
  obtain ⟨common, name, body, more, rest, rest', hmore, rfl, rfl, -⟩ := h
  intro heq
  simp only [List.append_cancel_left_eq, List.cons.injEq, Prod.mk.injEq, true_and] at heq
  exact hmore (by simpa using heq.1)

theorem Absorbed.stream_eq {xs ys : List (List α × List α)} (h : Absorbed sep xs ys) :
    stream sep xs = stream sep ys := by
  obtain ⟨common, name, body, more, rest, rest', -, rfl, rfl, hrest⟩ := h
  simp [stream_append, hrest]

/-- The first separator ends the name. -/
theorem name_unique {name name' rest rest' : List α} (hname : sep ∉ name) (hname' : sep ∉ name')
    (h : name ++ sep :: rest = name' ++ sep :: rest') : name = name' ∧ rest = rest' := by
  induction name generalizing name' with
  | nil =>
    cases name' with
    | nil => exact ⟨rfl, (List.cons.inj h).2⟩
    | cons c name' =>
      obtain ⟨rfl, -⟩ := List.cons.inj h
      exact absurd List.mem_cons_self hname'
  | cons c name ih =>
    cases name' with
    | nil =>
      obtain ⟨rfl, -⟩ := List.cons.inj h
      exact absurd List.mem_cons_self hname
    | cons c' name' =>
      obtain ⟨rfl, htail⟩ := List.cons.inj h
      obtain ⟨rfl, hrest⟩ := ih (fun hc => hname (List.mem_cons_of_mem _ hc))
        (fun hc => hname' (List.mem_cons_of_mem _ hc)) htail
      exact ⟨rfl, hrest⟩

theorem stream_eq_iff {xs ys : List (List α × List α)} (hxs : ∀ r ∈ xs, sep ∉ r.1)
    (hys : ∀ r ∈ ys, sep ∉ r.1) :
    stream sep xs = stream sep ys ↔ xs = ys ∨ Absorbed sep xs ys ∨ Absorbed sep ys xs := by
  constructor
  · intro h
    induction xs generalizing ys with
    | nil =>
      cases ys with
      | nil => exact Or.inl rfl
      | cons r ys => simp at h
    | cons r xs ih =>
      cases ys with
      | nil => simp at h
      | cons r' ys =>
        obtain ⟨name, body⟩ := r
        obtain ⟨name', body'⟩ := r'
        simp only [stream_cons] at h
        obtain ⟨rfl, htail⟩ := name_unique (hxs _ List.mem_cons_self) (hys _ List.mem_cons_self) h
        have hrest := @ih ys (fun r hr => hxs r (List.mem_cons_of_mem _ hr))
          (fun r hr => hys r (List.mem_cons_of_mem _ hr))
        rcases List.append_eq_append_iff.mp htail with ⟨more, rfl, hmore⟩ | ⟨more, rfl, hmore⟩
        · by_cases hnil : more = []
          · subst hnil
            rw [List.append_nil]
            rcases hrest hmore with rfl | habsorbed | habsorbed
            · exact Or.inl rfl
            · exact Or.inr (Or.inl (habsorbed.cons _))
            · exact Or.inr (Or.inr (habsorbed.cons _))
          · exact Or.inr (Or.inl ⟨[], name, body, more, xs, ys, hnil, rfl, rfl, hmore⟩)
        · by_cases hnil : more = []
          · subst hnil
            rw [List.append_nil]
            rcases hrest hmore.symm with rfl | habsorbed | habsorbed
            · exact Or.inl rfl
            · exact Or.inr (Or.inl (habsorbed.cons _))
            · exact Or.inr (Or.inr (habsorbed.cons _))
          · exact Or.inr (Or.inr ⟨[], name, body', more, ys, xs, hnil, rfl, rfl, hmore⟩)
  · rintro (rfl | h | h)
    · rfl
    · exact h.stream_eq
    · exact h.stream_eq.symm

/-! ## Pieces without separators -/

/-- The second list has a longer piece where the lists part. -/
def RunsOn (xs ys : List (List α)) : Prop :=
  ∃ common piece more rest rest', more ≠ [] ∧ xs = common ++ piece :: rest ∧
    ys = common ++ (piece ++ more) :: rest' ∧ rest.flatten = more ++ rest'.flatten

theorem RunsOn.cons {xs ys : List (List α)} (h : RunsOn xs ys) (piece : List α) :
    RunsOn (piece :: xs) (piece :: ys) := by
  obtain ⟨common, other, more, rest, rest', hmore, rfl, rfl, hrest⟩ := h
  exact ⟨piece :: common, other, more, rest, rest', hmore, rfl, rfl, hrest⟩

theorem RunsOn.flatten_eq {xs ys : List (List α)} (h : RunsOn xs ys) :
    xs.flatten = ys.flatten := by
  obtain ⟨common, piece, more, rest, rest', -, rfl, rfl, hrest⟩ := h
  simp [hrest]

/-- Behind its first `xs.length` pieces the second list has only empty ones. -/
def Trails (xs ys : List (List α)) : Prop := ∃ rest, ys = xs ++ rest ∧ rest.flatten = []

theorem Trails.cons {xs ys : List (List α)} (h : Trails xs ys) (piece : List α) :
    Trails (piece :: xs) (piece :: ys) := by
  obtain ⟨rest, rfl, hrest⟩ := h
  exact ⟨rest, rfl, hrest⟩

theorem flatten_cases {xs ys : List (List α)} (h : xs.flatten = ys.flatten) :
    Trails xs ys ∨ Trails ys xs ∨ RunsOn xs ys ∨ RunsOn ys xs := by
  induction xs generalizing ys with
  | nil => exact Or.inl ⟨ys, rfl, h.symm⟩
  | cons x xs ih =>
    cases ys with
    | nil => exact Or.inr (Or.inl ⟨x :: xs, rfl, h⟩)
    | cons y ys =>
      have hcons {zs : List (List α)} (hrest : xs.flatten = zs.flatten) :
          Trails (x :: xs) (x :: zs) ∨ Trails (x :: zs) (x :: xs) ∨ RunsOn (x :: xs) (x :: zs) ∨
            RunsOn (x :: zs) (x :: xs) := by
        rcases ih hrest with h | h | h | h
        · exact Or.inl (h.cons x)
        · exact Or.inr (Or.inl (h.cons x))
        · exact Or.inr (Or.inr (Or.inl (h.cons x)))
        · exact Or.inr (Or.inr (Or.inr (h.cons x)))
      rw [List.flatten_cons, List.flatten_cons] at h
      rcases List.append_eq_append_iff.mp h with ⟨more, rfl, hmore⟩ | ⟨more, rfl, hmore⟩
      · by_cases hnil : more = []
        · subst hnil
          rw [List.append_nil]
          exact hcons hmore
        · exact Or.inr (Or.inr (Or.inl ⟨[], x, more, xs, ys, hnil, rfl, rfl, hmore⟩))
      · by_cases hnil : more = []
        · subst hnil
          rw [List.append_nil] at hcons ⊢
          exact hcons hmore.symm
        · exact Or.inr (Or.inr (Or.inr ⟨[], y, more, ys, xs, hnil, rfl, rfl, hmore⟩))

/-- Names that are not empty, each with what is seen behind it. -/
def named {β : Type} (write seen : β → List α) (names : List β) : List (List α) :=
  names.flatMap fun name => [write name, seen name]

theorem named_flatten {β : Type} (write seen : β → List α) (names : List β) :
    (named write seen names).flatten = names.flatMap fun name => write name ++ seen name := by
  induction names with
  | nil => rfl
  | cons name names ih =>
    rw [List.flatMap_cons, ← ih]
    simp [named]

theorem named_trails {β : Type} {write seen seen' : β → List α} {names names' : List β}
    (hnames : ∀ name ∈ names', write name ≠ [])
    (h : Trails (named write seen names) (named write seen' names')) :
    named write seen names = named write seen' names' := by
  obtain ⟨rest, heq, hempty⟩ := h
  suffices hrest : rest = [] by rw [heq, hrest, List.append_nil]
  induction names generalizing names' with
  | nil =>
    cases names' with
    | nil => simpa [named] using heq.symm
    | cons name names' =>
      have hfirst : rest = write name :: seen' name :: named write seen' names' := by
        simpa [named] using heq.symm
      rw [hfirst, List.flatten_cons, List.append_eq_nil_iff] at hempty
      exact absurd hempty.1 (hnames name List.mem_cons_self)
  | cons name names ih =>
    cases names' with
    | nil => simp [named] at heq
    | cons name' names' =>
      simp only [named, List.flatMap_cons, List.cons_append, List.nil_append,
        List.cons.injEq] at heq
      exact ih (fun other hother => hnames other (List.mem_cons_of_mem _ hother)) heq.2.2

theorem named_inj {β : Type} {write seen seen' : β → List α} {names names' : List β}
    (hwrite : Function.Injective write) :
    named write seen names = named write seen' names' ↔
      names = names' ∧ ∀ name ∈ names, seen name = seen' name := by
  induction names generalizing names' with
  | nil => cases names' <;> simp [named]
  | cons name names ih =>
    cases names' with
    | nil => simp [named]
    | cons name' names' =>
      have hcons : named write seen (name :: names) = named write seen' (name' :: names') ↔
          write name = write name' ∧ seen name = seen' name' ∧
            named write seen names = named write seen' names' := by
        simp [named]
      rw [hcons, ih, hwrite.eq_iff]
      constructor
      · rintro ⟨rfl, hseen, rfl, hrest⟩
        exact ⟨rfl, List.forall_mem_cons.mpr ⟨hseen, hrest⟩⟩
      · rintro ⟨heq, hall⟩
        obtain ⟨rfl, rfl⟩ := List.cons.inj heq
        exact ⟨rfl, (List.forall_mem_cons.mp hall).1, rfl, (List.forall_mem_cons.mp hall).2⟩

/-- A heading and named pieces behind it. -/
theorem headed_flatten_eq_iff {β : Type} {write seen seen' : β → List α} {head head' : List α}
    {names names' : List β} (hnames : ∀ name ∈ names, write name ≠ [])
    (hnames' : ∀ name ∈ names', write name ≠ []) :
    (head :: named write seen names).flatten = (head' :: named write seen' names').flatten ↔
      head :: named write seen names = head' :: named write seen' names' ∨
        RunsOn (head :: named write seen names) (head' :: named write seen' names') ∨
        RunsOn (head' :: named write seen' names') (head :: named write seen names) := by
  constructor
  · intro h
    rcases flatten_cases h with ⟨rest, heq, hrest⟩ | ⟨rest, heq, hrest⟩ | hruns | hruns
    · rw [List.cons_append] at heq
      obtain ⟨rfl, htail⟩ := List.cons.inj heq
      exact Or.inl (by rw [named_trails hnames' ⟨rest, htail, hrest⟩])
    · rw [List.cons_append] at heq
      obtain ⟨rfl, htail⟩ := List.cons.inj heq
      exact Or.inl (by rw [named_trails hnames ⟨rest, htail, hrest⟩])
    · exact Or.inr (Or.inl hruns)
    · exact Or.inr (Or.inr hruns)
  · rintro (h | h | h)
    · rw [h]
    · exact h.flatten_eq
    · exact h.flatten_eq.symm

end Records

end Library
