import Mathlib.Data.List.Basic
import Mathlib.Data.List.Count
import Mathlib.Data.List.Induction

/-! Append-only journals that record each key once: an entry whose key is there
already is ignored, an entry without a key is always recorded. -/

namespace Library

namespace Journal

variable {ε κ : Type} [DecidableEq κ]

/-- The journal holds an entry under the key of `e`. -/
def Holds (key : ε → Option κ) (log : List ε) (e : ε) : Prop :=
  (key e).isSome ∧ ∃ old ∈ log, key old = key e

instance (key : ε → Option κ) (log : List ε) (e : ε) : Decidable (Holds key log e) :=
  inferInstanceAs (Decidable (_ ∧ _))

def record (key : ε → Option κ) (log : List ε) (e : ε) : List ε :=
  if Holds key log e then log else log ++ [e]

def recordAll (key : ε → Option κ) (log entries : List ε) : List ε :=
  entries.foldl (record key) log

/-- The entries of `entries` that recording them adds to the journal. -/
def added (key : ε → Option κ) : List ε → List ε → List ε
  | _, [] => []
  | log, e :: entries =>
    if Holds key log e then added key log entries else e :: added key (log ++ [e]) entries

section

variable {key : ε → Option κ}

@[simp] theorem recordAll_nil (log : List ε) : recordAll key log [] = log := rfl

@[simp] theorem recordAll_cons (log : List ε) (e : ε) (entries : List ε) :
    recordAll key log (e :: entries) = recordAll key (record key log e) entries := rfl

theorem recordAll_append (log first second : List ε) :
    recordAll key log (first ++ second) = recordAll key (recordAll key log first) second := by
  simp [recordAll]

theorem recordAll_eq (log entries : List ε) :
    recordAll key log entries = log ++ added key log entries := by
  induction entries generalizing log with
  | nil => simp [added]
  | cons e entries ih =>
    rw [recordAll_cons, ih]
    by_cases h : Holds key log e
    · simp [record, added, h]
    · simp [record, added, h]

theorem added_append (log first second : List ε) :
    added key log (first ++ second) =
      added key log first ++ added key (log ++ added key log first) second := by
  induction first generalizing log with
  | nil => simp [added]
  | cons e first ih =>
    by_cases h : Holds key log e
    · simp [added, h, ih]
    · simp [added, h, ih]

theorem added_sublist (log entries : List ε) : (added key log entries).Sublist entries := by
  induction entries generalizing log with
  | nil => exact List.Sublist.refl []
  | cons e entries ih =>
    by_cases h : Holds key log e
    · simp only [added, if_pos h]
      exact (ih log).cons e
    · simp only [added, if_neg h]
      exact (ih (log ++ [e])).cons_cons e

omit [DecidableEq κ] in
theorem holds_append {log more : List ε} {e : ε} :
    Holds key (log ++ more) e ↔ Holds key log e ∨ Holds key more e := by
  simp only [Holds, List.mem_append]
  constructor
  · rintro ⟨hkey, old, hold | hold, heq⟩
    · exact .inl ⟨hkey, old, hold, heq⟩
    · exact .inr ⟨hkey, old, hold, heq⟩
  · rintro (⟨hkey, old, hold, heq⟩ | ⟨hkey, old, hold, heq⟩)
    · exact ⟨hkey, old, .inl hold, heq⟩
    · exact ⟨hkey, old, .inr hold, heq⟩

omit [DecidableEq κ] in
theorem holds_singleton {a e : ε} : Holds key [a] e ↔ (key e).isSome ∧ key a = key e := by
  simp [Holds]

/-- The entries satisfying `p` are all added exactly when none has a key of the
journal or of an entry before it. -/
theorem filter_added_iff {p : ε → Bool} {log entries : List ε} :
    (added key log entries).filter p = entries.filter p ↔
      (∀ e ∈ entries, p e → ¬ Holds key log e) ∧
        entries.Pairwise fun a b => p b → ¬ Holds key [a] b := by
  induction entries generalizing log with
  | nil => simp [added]
  | cons e entries ih =>
    rw [List.pairwise_cons]
    by_cases hholds : Holds key log e
    · simp only [added, if_pos hholds]
      by_cases hp : p e = true
      · -- `e` itself is missing
        constructor
        · intro h
          have hlen := ((@added_sublist ε κ _ key log entries).filter p).length_le
          rw [h, List.filter_cons_of_pos hp, List.length_cons] at hlen
          omega
        · rintro ⟨h, -⟩
          exact absurd hholds (h e List.mem_cons_self hp)
      · rw [List.filter_cons_of_neg hp, ih]
        constructor
        · rintro ⟨hlog, hpairs⟩
          refine ⟨?_, ?_, hpairs⟩
          · intro b hb hpb
            rcases List.mem_cons.mp hb with rfl | hb
            · exact absurd hpb hp
            · exact hlog b hb hpb
          · intro b hb hpb hsame
            obtain ⟨hkey, hsame⟩ := holds_singleton.mp hsame
            obtain ⟨-, old, hold, heq⟩ := hholds
            exact hlog b hb hpb ⟨hkey, old, hold, heq.trans hsame⟩
        · rintro ⟨hlog, -, hpairs⟩
          exact ⟨fun b hb => hlog b (List.mem_cons_of_mem _ hb), hpairs⟩
    · simp only [added, if_neg hholds]
      have hstep : (∀ b ∈ entries, p b → ¬ Holds key (log ++ [e]) b) ↔
          (∀ b ∈ entries, p b → ¬ Holds key log b) ∧
            ∀ b ∈ entries, p b → ¬ Holds key [e] b := by
        simp only [holds_append, not_or]
        exact ⟨fun h => ⟨fun b hb hpb => (h b hb hpb).1, fun b hb hpb => (h b hb hpb).2⟩,
          fun h b hb hpb => ⟨h.1 b hb hpb, h.2 b hb hpb⟩⟩
      have hcons : (e :: added key (log ++ [e]) entries).filter p = (e :: entries).filter p ↔
          (added key (log ++ [e]) entries).filter p = entries.filter p := by
        by_cases hp : p e = true
        · rw [List.filter_cons_of_pos hp, List.filter_cons_of_pos hp, List.cons.injEq]
          exact ⟨And.right, fun h => ⟨rfl, h⟩⟩
        · rw [List.filter_cons_of_neg hp, List.filter_cons_of_neg hp]
      rw [hcons, ih, hstep]
      constructor
      · rintro ⟨⟨hlog, hfirst⟩, hpairs⟩
        refine ⟨?_, hfirst, hpairs⟩
        intro b hb hpb
        rcases List.mem_cons.mp hb with rfl | hb
        · exact hholds
        · exact hlog b hb hpb
      · rintro ⟨hlog, hfirst, hpairs⟩
        exact ⟨⟨fun b hb => hlog b (List.mem_cons_of_mem _ hb), hfirst⟩, hpairs⟩

end

/-! ## Journals of several groups -/

section Groups

variable {γ : Type} [DecidableEq γ] {key : ε → Option κ} {group : ε → γ} {g : γ}

theorem holds_recordAll {entries : List ε} {e : ε} :
    Holds key (recordAll key [] entries) e ↔ Holds key entries e := by
  induction entries using List.reverseRecOn with
  | nil => rfl
  | append_singleton entries last ih =>
    rw [recordAll_append, recordAll_cons, recordAll_nil, record]
    split
    next hholds =>
      obtain ⟨hkey, old, hold, heq⟩ := hholds
      rw [ih, holds_append, holds_singleton]
      refine ⟨.inl, fun h => h.elim id fun ⟨hsome, hsame⟩ => ?_⟩
      rw [← ih]
      exact ⟨hsome, old, hold, heq.trans hsame⟩
    · rw [holds_append, holds_append, ih]

/-- Where an entry of the group comes under a key that was used before, the group used
it first. -/
def OwnKeys (key : ε → Option κ) (group : ε → γ) (g : γ) (entries : List ε) : Prop :=
  ∀ before e after, entries = before ++ e :: after → group e = g → Holds key before e →
    Holds key (before.filter fun old => group old = g) e

omit [DecidableEq κ] in
theorem ownKeys_concat {entries : List ε} {last : ε} :
    OwnKeys key group g (entries ++ [last]) ↔ OwnKeys key group g entries ∧
      (group last = g → Holds key entries last →
        Holds key (entries.filter fun old => group old = g) last) := by
  constructor
  · intro h
    refine ⟨fun before e after heq => ?_, h entries last [] rfl⟩
    exact h before e (after ++ [last]) (by rw [heq]; simp)
  · rintro ⟨h, hlast⟩ before e after heq
    rcases List.eq_nil_or_concat after with rfl | ⟨rest, other, rfl⟩
    · obtain ⟨rfl, hsame⟩ := List.append_inj' heq rfl
      cases hsame
      exact hlast
    · have heq : entries ++ [last] = (before ++ e :: rest) ++ [other] := by
        rw [heq]
        simp
      exact h before e rest (List.append_inj' heq rfl).1

/-- A journal of several groups holds no more of a group than a journal of its own
would, and as much exactly when no other group uses its keys first. -/
theorem filter_recordAll (entries : List ε) :
    ((recordAll key [] entries).filter fun e => group e = g).length ≤
        (recordAll key [] (entries.filter fun e => group e = g)).length ∧
      (OwnKeys key group g entries → (recordAll key [] entries).filter (fun e => group e = g) =
        recordAll key [] (entries.filter fun e => group e = g)) ∧
      (¬ OwnKeys key group g entries →
        ((recordAll key [] entries).filter fun e => group e = g).length
        < (recordAll key [] (entries.filter fun e => group e = g)).length) := by
  induction entries using List.reverseRecOn with
  | nil =>
    refine ⟨Nat.le_refl _, fun _ => rfl, fun hnot => absurd (fun before e after heq => ?_) hnot⟩
    simp at heq
  | append_singleton entries last ih =>
    obtain ⟨hle, hown, hother⟩ := ih
    rw [ownKeys_concat, recordAll_append, recordAll_cons, recordAll_nil, record,
      List.filter_append]
    by_cases hgroup : group last = g
    · have hsingle : [last].filter (fun e => group e = g) = [last] := by simp [hgroup]
      rw [hsingle, recordAll_append, recordAll_cons, recordAll_nil, record]
      by_cases hheld : Holds key (entries.filter fun old => group old = g) last
      · -- the group has the key already, so the shared journal has it too
        have hshared : Holds key entries last := by
          obtain ⟨hkey, old, hold, heq⟩ := hheld
          exact ⟨hkey, old, (List.mem_filter.mp hold).1, heq⟩
        rw [if_pos (holds_recordAll.mpr hshared), if_pos (holds_recordAll.mpr hheld)]
        refine ⟨hle, fun h => hown h.1, fun hnot => hother fun h => hnot ⟨h, fun _ _ => hheld⟩⟩
      · have hownHeld : ¬ Holds key (recordAll key [] (entries.filter fun e => group e = g)) last :=
          fun h => hheld (holds_recordAll.mp h)
        rw [if_neg hownHeld]
        by_cases hshared : Holds key entries last
        · rw [if_pos (holds_recordAll.mpr hshared), List.length_append, List.length_singleton]
          exact ⟨by omega, fun h => absurd (h.2 hgroup hshared) hheld, fun _ => by omega⟩
        · rw [if_neg fun h => hshared (holds_recordAll.mp h), List.filter_append, hsingle,
            List.length_append, List.length_append]
          refine ⟨by omega, fun h => by rw [hown h.1], fun hnot => ?_⟩
          have hlt := hother fun h => hnot ⟨h, fun _ hin => absurd hin hshared⟩
          omega
    · have hnone : [last].filter (fun e => group e = g) = [] := by simp [hgroup]
      rw [hnone, List.append_nil]
      have hsame : (if Holds key (recordAll key [] entries) last then recordAll key [] entries
          else recordAll key [] entries ++ [last]).filter (fun e => group e = g) =
          (recordAll key [] entries).filter fun e => group e = g := by
        split
        · rfl
        · rw [List.filter_append, hnone, List.append_nil]
      rw [hsame]
      exact ⟨hle, fun h => hown h.1,
        fun hnot => hother fun h => hnot ⟨h, fun hin => absurd hin hgroup⟩⟩

end Groups

end Journal

end Library
