import Mathlib.Data.List.Infix

/-! Texts cut at a pattern: the first place where a matcher succeeds, and the parts that begin with
a mark. A mark whose first letter comes in it once cannot overlap itself. -/

namespace Library

namespace Cut

variable {α β : Type} [DecidableEq α]

/-- The rest of a text behind a word it begins with. -/
def expect (word cs : List α) : Option (List α) :=
  if word.isPrefixOf cs then some (cs.drop word.length) else none

@[simp] theorem expect_append (word rest : List α) : expect word (word ++ rest) = some rest := by
  rw [expect, if_pos (List.isPrefixOf_iff_prefix.mpr (List.prefix_append word rest)),
    List.drop_left]

theorem expect_prefix {word cs rest : List α} (h : expect word cs = some rest) : word <+: cs := by
  unfold expect at h
  split at h
  · next hleads => exact List.isPrefixOf_iff_prefix.mp hleads
  · cases h

theorem expect_none {word cs : List α} (h : ¬ word <+: cs) : expect word cs = none := by
  rw [expect, if_neg]
  exact fun hleads => h (List.isPrefixOf_iff_prefix.mp hleads)

/-- The first place where the matcher succeeds: the text in front of it and the match. -/
def firstMatch (matcher : List α → Option β) : List α → Option (List α × β)
  | [] => (matcher []).map fun found => ([], found)
  | c :: cs =>
    match matcher (c :: cs) with
    | some found => some ([], found)
    | none => (firstMatch matcher cs).map fun cut => (c :: cut.1, cut.2)

omit [DecidableEq α] in
theorem firstMatch_here {matcher : List α → Option β} {cs : List α} {found : β}
    (h : matcher cs = some found) : firstMatch matcher cs = some ([], found) := by
  cases cs with
  | nil => rw [firstMatch, h]; rfl
  | cons c cs => rw [firstMatch, h]

omit [DecidableEq α] in
theorem firstMatch_append {matcher : List α → Option β} {cs rest : List α} {found : β}
    (hnone : ∀ tail, tail ≠ [] → tail <:+ cs → matcher (tail ++ rest) = none)
    (h : matcher rest = some found) : firstMatch matcher (cs ++ rest) = some (cs, found) := by
  induction cs with
  | nil => exact firstMatch_here h
  | cons c cs ih =>
    have hhere := hnone (c :: cs) (List.cons_ne_nil _ _) (List.suffix_refl _)
    rw [List.cons_append] at hhere ⊢
    rw [firstMatch, hhere]
    simp only [ih fun tail hne hsuffix => hnone tail hne (hsuffix.trans (List.suffix_cons c cs)),
      Option.map_some]

omit [DecidableEq α] in
/-- A pattern whose first letter comes in it once begins at no place from which it would reach that
letter again. -/
theorem prefix_of_overlap {d : α} {q tail rest : List α} (hd : d ∉ q) (hne : tail ≠ [])
    (h : d :: q <+: tail ++ d :: rest) : d :: q <+: tail := by
  by_cases hlength : (d :: q).length ≤ tail.length
  · exact List.prefix_of_prefix_length_le h (List.prefix_append tail _) hlength
  · exfalso
    have hlong : tail ++ [d] <+: d :: q := by
      refine List.prefix_of_prefix_length_le ⟨rest, by simp⟩ h ?_
      rw [List.length_append, List.length_singleton]
      omega
    obtain ⟨c, tail, rfl⟩ := List.exists_cons_of_ne_nil hne
    rw [List.cons_append, List.cons_prefix_cons] at hlong
    exact hd (hlong.2.subset (List.mem_append_right _ List.mem_cons_self))

/-- The pattern is found where it was put, unless the text in front has it. -/
theorem firstMatch_expect {d : α} {q cs : List α} (hd : d ∉ q) (hnone : ¬ d :: q <:+: cs)
    (rest : List α) :
    firstMatch (expect (d :: q)) (cs ++ (d :: q) ++ rest) = some (cs, rest) := by
  rw [List.append_assoc]
  refine firstMatch_append (fun tail hne hsuffix => expect_none fun hleads => ?_)
    (expect_append _ rest)
  rw [List.cons_append] at hleads
  exact hnone ((prefix_of_overlap hd hne hleads).isInfix.trans hsuffix.isInfix)

/-! ## Parts -/

/-- The text cut in front of every place where the mark begins. -/
def cutBefore (mark : List α) : List α → List (List α)
  | [] => [[]]
  | c :: cs =>
    let parts := cutBefore mark cs
    if mark.isPrefixOf (c :: cs) then [] :: (c :: parts.headD []) :: parts.tail
    else (c :: parts.headD []) :: parts.tail

/-- A text of parts that begin with the mark and have it nowhere else. -/
inductive Parts (mark : List α) : List α → List (List α) → Prop where
  | nil : Parts mark [] []
  | cons {part rest : List α} {parts : List (List α)} (hstart : mark <+: part)
      (honce : ¬ mark <:+: part.tail) (h : Parts mark rest parts) :
      Parts mark (part ++ rest) (part :: parts)

variable {d : α} {q : List α}

omit [DecidableEq α] in
theorem Parts.start {text : List α} {parts : List (List α)} (h : Parts (d :: q) text parts) :
    text = [] ∨ ∃ rest, text = d :: rest := by
  cases h with
  | nil => exact .inl rfl
  | cons hstart _ _ =>
    obtain ⟨rest, rfl⟩ := hstart
    exact .inr ⟨_, rfl⟩

omit [DecidableEq α] in
/-- In front of further parts the mark does not begin inside a part either. -/
theorem Parts.inside {text : List α} {parts : List (List α)} (h : Parts (d :: q) text parts)
    (hd : d ∉ q) {inner tail : List α} (honce : ¬ d :: q <:+: inner) (hne : tail ≠ [])
    (hsuffix : tail <:+ inner) : ¬ d :: q <+: tail ++ text := by
  intro hleads
  rcases h.start with rfl | ⟨rest, rfl⟩
  · rw [List.append_nil] at hleads
    exact honce (hleads.isInfix.trans hsuffix.isInfix)
  · exact honce ((prefix_of_overlap hd hne hleads).isInfix.trans hsuffix.isInfix)

theorem cutBefore_inside {mark cs rest : List α}
    (hnone : ∀ tail, tail ≠ [] → tail <:+ cs → ¬ mark <+: tail ++ rest) :
    cutBefore mark (cs ++ rest) =
      (cs ++ (cutBefore mark rest).headD []) :: (cutBefore mark rest).tail := by
  induction cs with
  | nil =>
    have hparts : cutBefore mark rest ≠ [] := by
      cases rest with
      | nil => exact List.cons_ne_nil _ _
      | cons c cs => rw [cutBefore]; split <;> exact List.cons_ne_nil _ _
    obtain ⟨first, parts, heq⟩ := List.exists_cons_of_ne_nil hparts
    rw [List.nil_append, List.nil_append, heq]
    rfl
  | cons c cs ih =>
    have hhere := hnone (c :: cs) (List.cons_ne_nil _ _) (List.suffix_refl _)
    rw [List.cons_append] at hhere ⊢
    rw [cutBefore, if_neg fun hleads => hhere (List.isPrefixOf_iff_prefix.mp hleads),
      ih fun tail hne hsuffix => hnone tail hne (hsuffix.trans (List.suffix_cons c cs))]
    rfl

/-- Cutting gives the parts back, behind the nothing in front of the first one. -/
theorem Parts.cut {text : List α} {parts : List (List α)} (h : Parts (d :: q) text parts)
    (hd : d ∉ q) : cutBefore (d :: q) text = [] :: parts := by
  induction h with
  | nil => rfl
  | @cons part rest parts hstart honce h ih =>
    obtain ⟨inner, rfl⟩ := hstart
    have hinside := cutBefore_inside fun tail hne hsuffix => h.inside hd honce hne hsuffix
    simp only [List.cons_append, List.tail_cons] at hinside ⊢
    rw [cutBefore, if_pos (List.isPrefixOf_iff_prefix.mpr ⟨inner ++ rest, by simp⟩), hinside, ih]
    simp

omit [DecidableEq α] in
/-- Where the mark begins, a part begins. -/
theorem Parts.at_start {text : List α} {parts : List (List α)} (h : Parts (d :: q) text parts)
    (hd : d ∉ q) {tail : List α} (hsuffix : tail <:+ text) (hmark : d :: q <+: tail) :
    ∃ part ∈ parts, part <+: tail := by
  induction h with
  | nil =>
    rw [List.suffix_nil.mp hsuffix] at hmark
    exact absurd (List.prefix_nil.mp hmark) (List.cons_ne_nil _ _)
  | @cons part rest parts hstart honce h ih =>
    rcases Nat.lt_or_ge rest.length tail.length with hlong | hshort
    · obtain ⟨front, heq⟩ := hsuffix
      obtain ⟨inner, hinner⟩ : ∃ inner, part = front ++ inner ∧ tail = inner ++ rest := by
        rcases List.append_eq_append_iff.mp heq with ⟨inner, h₁, h₂⟩ | ⟨inner, h₁, h₂⟩
        · exact ⟨inner, h₁, h₂⟩
        · have hlen := congrArg List.length h₂
          rw [List.length_append] at hlen
          omega
      obtain ⟨rfl, rfl⟩ := hinner
      cases front with
      | nil => exact ⟨_, List.mem_cons_self, List.prefix_append _ _⟩
      | cons c front =>
        have hne : inner ≠ [] := by
          rintro rfl
          simp at hlong
        exact absurd hmark (h.inside hd honce hne (List.suffix_append front inner))
    · have hsub : tail <:+ rest :=
        List.suffix_of_suffix_length_le hsuffix (List.suffix_append part rest) hshort
      obtain ⟨found, hmem, hfound⟩ := ih hsub
      exact ⟨found, List.mem_cons_of_mem _ hmem, hfound⟩

omit [DecidableEq α] in
theorem Parts.append {text text' : List α} {parts parts' : List (List α)} {mark : List α}
    (h : Parts mark text parts) (h' : Parts mark text' parts') :
    Parts mark (text ++ text') (parts ++ parts') := by
  induction h with
  | nil => exact h'
  | cons hstart honce _ ih =>
    rw [List.append_assoc, List.cons_append]
    exact .cons hstart honce ih

end Cut

end Library
