import Mathlib.Data.List.Induction

/-! The order of a chat with tool calls: what an assistant asks for is answered at once, in
order, and nothing else is answered. -/

namespace Library

/-- A message, as far as the order of the chat goes. -/
inductive ChatTurn (ι : Type) where
  | plain
  | calls (ids : List ι)
  | answer (id : ι)

section

variable {ι : Type} [DecidableEq ι]

/-- The calls still open after one more message, while each message has its place. -/
def ChatTurn.reads : List ι → ChatTurn ι → Option (List ι)
  | [], .plain => some []
  | [], .calls ids => some ids
  | id :: rest, .answer id' => if id = id' then some rest else none
  | _, _ => none

/-- The calls that a chat leaves open. -/
def openCalls (turns : List (ChatTurn ι)) : Option (List ι) := turns.foldlM ChatTurn.reads []

/-- Calls are answered at once, one by one and in order, and there is no other answer. -/
structure WellFormedChat (turns : List (ChatTurn ι)) : Prop where
  answered : ∀ before ids after, turns = before ++ .calls ids :: after →
    ∃ rest, after = ids.map .answer ++ rest ∧ ∀ id, rest.head? ≠ some (.answer id)
  inPlace : ∀ before id after, turns = before ++ .answer id :: after →
    ∃ earlier ids given, before = earlier ++ .calls ids :: given.map .answer ∧
      given ++ [id] <+: ids

@[simp] theorem openCalls_nil : openCalls ([] : List (ChatTurn ι)) = some [] := rfl

theorem openCalls_append (turns more : List (ChatTurn ι)) :
    openCalls (turns ++ more) = (openCalls turns).bind fun ids => more.foldlM ChatTurn.reads ids :=
  List.foldlM_append

theorem openCalls_concat {turns : List (ChatTurn ι)} {ids : List ι} (h : openCalls turns = some ids)
    (turn : ChatTurn ι) : openCalls (turns ++ [turn]) = turn.reads ids := by
  rw [openCalls_append, h]
  simp

/-- All open calls are answered by their answers in order. -/
theorem openCalls_answers {turns : List (ChatTurn ι)} {ids : List ι}
    (h : openCalls turns = some ids) : openCalls (turns ++ ids.map .answer) = some [] := by
  rw [openCalls_append, h]
  induction ids generalizing turns with
  | nil => rfl
  | cons id rest ih =>
    have hread : openCalls (turns ++ [.answer id]) = some rest := by
      rw [openCalls_concat h]
      simp [ChatTurn.reads]
    have hrest := ih hread
    simpa [ChatTurn.reads] using hrest

/-- What closes the open calls starts with their answers. -/
theorem answers_of_closed {ids : List ι} {after : List (ChatTurn ι)}
    (h : after.foldlM ChatTurn.reads ids = some []) :
    ∃ rest, after = ids.map .answer ++ rest ∧ rest.foldlM ChatTurn.reads [] = some [] := by
  induction ids generalizing after with
  | nil => exact ⟨after, rfl, h⟩
  | cons id rest ih =>
    cases after with
    | nil => simp at h
    | cons turn after =>
      cases turn with
      | plain => simp [ChatTurn.reads] at h
      | calls ids => simp [ChatTurn.reads] at h
      | answer id' =>
        by_cases hid : id = id'
        · subst hid
          simp only [List.foldlM_cons, ChatTurn.reads, if_true] at h
          obtain ⟨last, rfl, hlast⟩ := ih h
          exact ⟨last, rfl, hlast⟩
        · simp [ChatTurn.reads, hid] at h

/-- Open calls are the end of what the last assistant message asked for. -/
theorem calls_of_open {turns : List (ChatTurn ι)} {left : List ι}
    (h : openCalls turns = some left) (hleft : left ≠ []) :
    ∃ earlier ids given, turns = earlier ++ .calls ids :: given.map .answer ∧
      ids = given ++ left := by
  induction turns using List.reverseRecOn generalizing left with
  | nil =>
    cases h
    exact absurd rfl hleft
  | append_singleton turns turn ih =>
    rw [openCalls_append] at h
    obtain ⟨before, hbefore, hread⟩ := Option.bind_eq_some_iff.1 h
    have hread : turn.reads before = some left := by simpa using hread
    cases before with
    | nil =>
      cases turn with
      | plain =>
        cases hread
        exact absurd rfl hleft
      | calls ids =>
        cases hread
        exact ⟨turns, left, [], rfl, rfl⟩
      | answer id => cases hread
    | cons id rest =>
      cases turn with
      | plain => cases hread
      | calls ids => cases hread
      | answer id' =>
        by_cases hid : id = id'
        · subst hid
          simp only [ChatTurn.reads, if_true] at hread
          cases hread
          obtain ⟨earlier, ids, given, rfl, rfl⟩ := ih hbefore (by simp)
          exact ⟨earlier, given ++ id :: left, given ++ [id], by simp, by simp⟩
        · simp [ChatTurn.reads, hid] at hread

theorem wellFormedChat_of_closed {turns : List (ChatTurn ι)} (h : openCalls turns = some []) :
    WellFormedChat turns := by
  constructor
  · rintro before ids after rfl
    rw [openCalls_append] at h
    obtain ⟨left, -, hread⟩ := Option.bind_eq_some_iff.1 h
    cases left with
    | nil =>
      simp only [List.foldlM_cons, ChatTurn.reads] at hread
      obtain ⟨rest, rfl, hrest⟩ := answers_of_closed hread
      refine ⟨rest, rfl, fun id hhead => ?_⟩
      cases rest with
      | nil => simp at hhead
      | cons turn rest =>
        simp only [List.head?_cons, Option.some.injEq] at hhead
        subst hhead
        simp [ChatTurn.reads] at hrest
    | cons id left => simp [ChatTurn.reads] at hread
  · rintro before id after rfl
    rw [openCalls_append] at h
    obtain ⟨left, hbefore, hread⟩ := Option.bind_eq_some_iff.1 h
    cases left with
    | nil => simp [ChatTurn.reads] at hread
    | cons id' left =>
      by_cases hid : id' = id
      · subst hid
        obtain ⟨earlier, ids, given, rfl, rfl⟩ := calls_of_open hbefore (by simp)
        exact ⟨earlier, _, given, rfl, ⟨left, by simp⟩⟩
      · simp [ChatTurn.reads, hid] at hread

end

end Library
