import EvoCI.Library.JsonLimits
import EvoCI.Text

/-! The object in an answer of the model: fenced blocks are searched before the whole text, and
every opening brace may begin an object. What the decoder raises at a limit of the interpreter is
not caught. -/

namespace EvoCI

open Library
open Library.JsonText (Value Denotes Limits Overrun limitedDecode overrun rawDecode_complete
  rawDecode_sound)

abbrev Payload := List (List Nat × Value)

/-- `json.JSONDecodeError`. -/
structure JSONDecodeError where
  msg : String
  doc : String
  pos : Nat
  deriving DecidableEq, Repr

/-! ## Fenced blocks -/

/-- The text up to the first fence mark, and what stands behind the mark. -/
def cutFence : List Char → Option (List Char × List Char)
  | '\x60' :: '\x60' :: '\x60' :: rest => some ([], rest)
  | c :: cs => (cutFence cs).map fun (segment, rest) => (c :: segment, rest)
  | [] => none

/-- Behind an opening mark: the word `json` and blanks are no part of the block. Without regard to
case the long s is an s. -/
def dropTag : List Char → List Char
  | j :: s :: o :: n :: cs =>
    if (j = 'j' ∨ j = 'J') ∧ (s = 's' ∨ s = 'S' ∨ s = 'ſ') ∧ (o = 'o' ∨ o = 'O') ∧
        (n = 'n' ∨ n = 'N') then
      cs.dropWhile isSpace
    else (j :: s :: o :: n :: cs).dropWhile isSpace
  | cs => cs.dropWhile isSpace

/-- The blocks found so far as fuel goes; each of them takes two marks from the text. -/
def fencedFrom : Nat → List Char → List (List Char)
  | 0, _ => []
  | fuel + 1, cs =>
    match cutFence cs with
    | none => []
    | some (_, rest) =>
      match cutFence (dropTag rest) with
      | none => []
      | some (segment, rest) => segment :: fencedFrom fuel rest

/-- The blocks that the pattern finds in a text. -/
def fenced (cs : List Char) : List (List Char) := fencedFrom cs.length cs

/-! ## The object -/

section

variable (readFloat : List Char → String) (limits : Limits)

/-- The first object that can be decoded from an opening brace on. -/
def firstObject : List Char → Except Overrun (Option Payload)
  | [] => .ok none
  | c :: cs =>
    if c = '\x7b' then
      match limitedDecode readFloat limits (c :: cs) with
      | .ok (.mapping payload, _) => .ok (some payload)
      | .error (.overrun limit) => .error limit
      | _ => firstObject cs
    else firstObject cs

/-- The first object of the candidates. -/
def firstCandidate : List (List Char) → Except Overrun (Option Payload)
  | [] => .ok none
  | candidate :: rest =>
    match firstObject readFloat limits candidate with
    | .ok none => firstCandidate rest
    | result => result

/-- A `ValueError` for the digits, a `RecursionError` for the depth. -/
inductive ExtractError where
  | decode (error : JSONDecodeError)
  | overrun (limit : Overrun)
  deriving DecidableEq, Repr

/-- The texts that are searched. -/
def candidates (text : String) : List (List Char) := fenced text.toList ++ [text.toList]

/-- `_extract_json_object`. -/
def extractJsonObject (text : String) : Except ExtractError Payload :=
  match firstCandidate readFloat limits (candidates text) with
  | .ok (some payload) => .ok payload
  | .ok none => .error (.decode
      ⟨"model response did not contain a complete JSON object", text, 0⟩)
  | .error limit => .error (.overrun limit)

end

/-! ## What the blocks are -/

theorem cutFence_split {cs segment rest : List Char} (h : cutFence cs = some (segment, rest)) :
    cs = segment ++ '\x60' :: '\x60' :: '\x60' :: rest := by
  fun_induction cutFence cs generalizing segment with
  | case1 tail =>
    cases h
    rfl
  | case2 c cs _ ih =>
    obtain ⟨⟨segment', rest'⟩, hcut, heq⟩ := Option.map_eq_some_iff.mp h
    cases heq
    rw [ih hcut, List.cons_append]
  | case3 => cases h

theorem dropTag_suffix (cs : List Char) : dropTag cs <:+ cs := by
  fun_cases dropTag cs with
  | case1 j s o n cs =>
    exact (List.dropWhile_suffix _).trans ⟨[j, s, o, n], rfl⟩
  | case2 => exact List.dropWhile_suffix _
  | case3 => exact List.dropWhile_suffix _

theorem fencedFrom_infix {fuel : Nat} {cs segment : List Char}
    (h : segment ∈ fencedFrom fuel cs) : segment <:+: cs := by
  induction fuel generalizing cs with
  | zero => cases h
  | succ fuel ih =>
    rw [fencedFrom] at h
    split at h
    · cases h
    · next before opened hopen =>
      split at h
      · cases h
      · next segment' rest hclose =>
        have hdrop : dropTag opened <:+: cs := by
          refine (dropTag_suffix opened).isInfix.trans ?_
          exact ⟨before ++ ['\x60', '\x60', '\x60'], [], by simp [cutFence_split hopen]⟩
        have hsplit := cutFence_split hclose
        rcases List.mem_cons.mp h with rfl | h
        · refine List.IsInfix.trans ?_ hdrop
          exact ⟨[], '\x60' :: '\x60' :: '\x60' :: rest, by rw [hsplit, List.nil_append]⟩
        · refine ((ih h).trans ?_).trans hdrop
          exact ⟨segment' ++ ['\x60', '\x60', '\x60'], [], by simp [hsplit]⟩

/-! ## The first object of a text -/

section

variable {readFloat : List Char → String} {limits : Limits} {cs : List Char} {payload : Payload}

/-- An object stands at the front of the text. -/
def Begins (readFloat : List Char → String) (cs : List Char) (payload : Payload) : Prop :=
  ∃ text rest, cs = text ++ rest ∧ Denotes readFloat text (.value (.mapping payload))

/-- The object that begins first in a text, of all that are complete. -/
inductive Leads (readFloat : List Char → String) : List Char → Payload → Prop where
  | here {cs : List Char} {payload : Payload} (h : Begins readFloat cs payload) :
      Leads readFloat cs payload
  | later {c : Char} {cs : List Char} {payload : Payload}
      (hnone : ∀ found, ¬ Begins readFloat (c :: cs) found) (h : Leads readFloat cs payload) :
      Leads readFloat (c :: cs) payload

/-- At an opening brace up to the object that begins first the decoder runs over this limit. -/
inductive Overruns (readFloat : List Char → String) (limits : Limits) :
    List Char → Overrun → Prop where
  | here {cs : List Char} {limit : Overrun}
      (h : overrun readFloat limits ('\x7b' :: cs) = some limit) :
      Overruns readFloat limits ('\x7b' :: cs) limit
  | later {c : Char} {cs : List Char} {limit : Overrun}
      (hwithin : c = '\x7b' → overrun readFloat limits (c :: cs) = none)
      (hnone : ∀ found, ¬ Begins readFloat (c :: cs) found)
      (h : Overruns readFloat limits cs limit) : Overruns readFloat limits (c :: cs) limit

theorem Begins.brace (h : Begins readFloat cs payload) : ∃ tail, cs = '\x7b' :: tail := by
  obtain ⟨text, rest, rfl, hdenotes⟩ := h
  obtain ⟨tail, rfl⟩ := hdenotes.brace
  exact ⟨tail ++ rest, rfl⟩

/-- Within the limits the decoder reads what the grammar says. -/
theorem limitedDecode_object (hwithin : overrun readFloat limits cs = none) :
    (∃ rest, limitedDecode readFloat limits cs = .ok (.mapping payload, rest)) ↔
      Begins readFloat cs payload := by
  unfold limitedDecode
  rw [hwithin]
  constructor
  · rintro ⟨rest, hdecode⟩
    cases hread : JsonText.rawDecode readFloat cs with
    | none =>
      rw [hread] at hdecode
      cases hdecode
    | some found =>
      rw [hread] at hdecode
      cases hdecode
      obtain ⟨text, heq, hdenotes⟩ := rawDecode_sound hread
      exact ⟨text, rest, heq, hdenotes⟩
  · rintro ⟨text, rest, rfl, hdenotes⟩
    rw [rawDecode_complete hdenotes rest]
    exact ⟨rest, rfl⟩

theorem limitedDecode_overrun {limit : Overrun} :
    limitedDecode readFloat limits cs = .error (.overrun limit) ↔
      overrun readFloat limits cs = some limit := by
  unfold limitedDecode
  cases overrun readFloat limits cs with
  | some limit' => simp
  | none => cases JsonText.rawDecode readFloat cs <;> simp

/-- What the search of a text comes to. -/
inductive Searched (readFloat : List Char → String) (limits : Limits) (cs : List Char) :
    Except Overrun (Option Payload) → Prop where
  | found {payload : Payload} (h : Leads readFloat cs payload)
      (hwithin : ∀ limit, ¬ Overruns readFloat limits cs limit) :
      Searched readFloat limits cs (.ok (some payload))
  | nothing (h : ∀ payload, ¬ Leads readFloat cs payload)
      (hwithin : ∀ limit, ¬ Overruns readFloat limits cs limit) :
      Searched readFloat limits cs (.ok none)
  | overran {limit : Overrun} (h : Overruns readFloat limits cs limit) :
      Searched readFloat limits cs (.error limit)

/-- Behind a character at which no object begins and no limit is reached. -/
theorem Searched.behind {c : Char} {result : Except Overrun (Option Payload)}
    (hwithin : c = '\x7b' → overrun readFloat limits (c :: cs) = none)
    (hnone : ∀ found, ¬ Begins readFloat (c :: cs) found)
    (h : Searched readFloat limits cs result) : Searched readFloat limits (c :: cs) result := by
  have hclear : ∀ {limit}, Overruns readFloat limits (c :: cs) limit →
      Overruns readFloat limits cs limit := by
    intro limit hover
    cases hover with
    | here h =>
      rw [hwithin rfl] at h
      cases h
    | later _ _ h => exact h
  have hleads : ∀ {payload}, Leads readFloat (c :: cs) payload → Leads readFloat cs payload := by
    intro payload hlead
    cases hlead with
    | here h => exact absurd h (hnone _)
    | later _ h => exact h
  cases h with
  | found h hclean => exact .found (.later hnone h) fun limit hover => hclean limit (hclear hover)
  | nothing h hclean =>
    exact .nothing (fun payload hlead => h payload (hleads hlead))
      fun limit hover => hclean limit (hclear hover)
  | overran h => exact .overran (.later hwithin hnone h)

theorem firstObject_searched (readFloat : List Char → String) (limits : Limits) (cs : List Char) :
    Searched readFloat limits cs (firstObject readFloat limits cs) := by
  fun_induction firstObject readFloat limits cs with
  | case1 =>
    refine .nothing (fun payload h => ?_) fun limit h => nomatch h
    cases h with
    | here h =>
      obtain ⟨_, htail⟩ := h.brace
      cases htail
  | case2 cs found rest hdecode =>
    have hwithin : overrun readFloat limits ('\x7b' :: cs) = none := by
      rw [Option.eq_none_iff_forall_ne_some]
      intro limit hover
      rw [limitedDecode_overrun.mpr hover] at hdecode
      cases hdecode
    have hbegins := (limitedDecode_object hwithin).mp ⟨rest, hdecode⟩
    refine .found (.here hbegins) fun limit hover => ?_
    cases hover with
    | here h =>
      rw [hwithin] at h
      cases h
    | later _ hnone _ => exact hnone _ hbegins
  | case3 cs limit hdecode => exact .overran (.here (limitedDecode_overrun.mp hdecode))
  | case4 cs hobject hover ih =>
    have hwithin : overrun readFloat limits ('\x7b' :: cs) = none := by
      rw [Option.eq_none_iff_forall_ne_some]
      exact fun limit h => hover limit (limitedDecode_overrun.mpr h)
    refine ih.behind (fun _ => hwithin) fun found hbegins => ?_
    obtain ⟨rest, hdecode⟩ := (limitedDecode_object hwithin).mpr hbegins
    exact hobject found rest hdecode
  | case5 c cs hc ih =>
    refine ih.behind (fun h => absurd h hc) fun found hbegins => ?_
    obtain ⟨_, htail⟩ := hbegins.brace
    exact hc (List.cons.inj htail).1

/-- Of the objects of a text one begins first. -/
theorem Leads.unique {payload' : Payload} (h : Leads readFloat cs payload)
    (h' : Leads readFloat cs payload') : payload = payload' := by
  have hbegins : ∀ {cs first second}, Begins readFloat cs first → Begins readFloat cs second →
      first = second := by
    rintro cs first second ⟨text, rest, rfl, hdenotes⟩ ⟨text', rest', heq, hdenotes'⟩
    have hdecode := rawDecode_complete hdenotes rest
    rw [heq, rawDecode_complete hdenotes' rest'] at hdecode
    cases hdecode
    rfl
  induction h with
  | here h =>
    cases h' with
    | here h' => exact hbegins h h'
    | later hnone _ => exact absurd h (hnone _)
  | later hnone _ ih =>
    cases h' with
    | here h' => exact absurd h' (hnone _)
    | later _ h' => exact ih h'

theorem Leads.contains (h : Leads readFloat cs payload) :
    ∃ text, text <:+: cs ∧ Denotes readFloat text (.value (.mapping payload)) := by
  induction h with
  | here h =>
    obtain ⟨text, rest, rfl, hdenotes⟩ := h
    exact ⟨text, (List.prefix_append text rest).isInfix, hdenotes⟩
  | @later c cs payload _ _ ih =>
    obtain ⟨text, hin, hdenotes⟩ := ih
    exact ⟨text, hin.trans (List.suffix_cons c cs).isInfix, hdenotes⟩

/-- Text without an opening brace in front of an object is passed over. -/
theorem leads_behind {lead text rest : List Char} (hlead : '\x7b' ∉ lead)
    (h : Denotes readFloat text (.value (.mapping payload))) :
    Leads readFloat (lead ++ text ++ rest) payload := by
  induction lead with
  | nil => exact .here ⟨text, rest, rfl, h⟩
  | cons c lead ih =>
    rw [List.mem_cons, not_or] at hlead
    refine .later (fun found hbegins => ?_) (ih hlead.2)
    obtain ⟨_, htail⟩ := hbegins.brace
    exact hlead.1 (List.cons.inj htail).1.symm

/-! ## What is extracted -/

/-- Nothing ends the search in this candidate. -/
def Passed (readFloat : List Char → String) (limits : Limits) (cs : List Char) : Prop :=
  (∀ payload, ¬ Leads readFloat cs payload) ∧ ∀ limit, ¬ Overruns readFloat limits cs limit

/-- The first of the candidates, the fenced blocks and then the text, in which the search ends
begins with this object, and the decoder does not run over a limit in it. -/
def FencesAgree (readFloat : List Char → String) (limits : Limits) (text : String)
    (payload : Payload) : Prop :=
  ∀ earlier candidate later, candidates text = earlier ++ candidate :: later →
    (∀ other ∈ earlier, Passed readFloat limits other) →
    (∀ found, Leads readFloat candidate found → found = payload) ∧
      ∀ limit, ¬ Overruns readFloat limits candidate limit

theorem firstObject_passed {cs : List Char} (h : Passed readFloat limits cs) :
    firstObject readFloat limits cs = .ok none := by
  have hsearched := firstObject_searched readFloat limits cs
  cases hresult : firstObject readFloat limits cs with
  | error limit =>
    rw [hresult] at hsearched
    cases hsearched with
    | overran hover => exact absurd hover (h.2 limit)
  | ok found =>
    rw [hresult] at hsearched
    cases hsearched with
    | nothing => rfl
    | found hleads _ => exact absurd hleads (h.1 _)

/-- A candidate in which the search ends decides. -/
theorem firstCandidate_decides {candidate : List Char} {rest : List (List Char)}
    (hends : ¬ Passed readFloat limits candidate) :
    firstCandidate readFloat limits (candidate :: rest) = .ok (some payload) ↔
      (∀ found, Leads readFloat candidate found → found = payload) ∧
        ∀ limit, ¬ Overruns readFloat limits candidate limit := by
  have hsearched := firstObject_searched readFloat limits candidate
  rw [firstCandidate]
  cases hresult : firstObject readFloat limits candidate with
  | error limit =>
    rw [hresult] at hsearched
    cases hsearched with
    | overran h => exact ⟨fun heq => (by cases heq), fun hall => absurd h (hall.2 limit)⟩
  | ok found =>
    rw [hresult] at hsearched
    cases hsearched with
    | nothing h hwithin => exact absurd ⟨h, hwithin⟩ hends
    | @found found h hwithin =>
      refine ⟨fun heq => ⟨fun other hother => ?_, hwithin⟩, fun hall => ?_⟩
      · cases heq
        exact hother.unique h
      · rw [hall.1 found h]

/-- What holds of the first item that is not passed: of the head, or behind it. -/
theorem forall_first_cons {α : Type} {passed good : α → Prop} {x : α} {xs : List α} :
    (∀ earlier item later, x :: xs = earlier ++ item :: later →
        (∀ other ∈ earlier, passed other) → good item) ↔
      good x ∧ (passed x → ∀ earlier item later, xs = earlier ++ item :: later →
        (∀ other ∈ earlier, passed other) → good item) := by
  constructor
  · refine fun h => ⟨h [] x xs rfl (fun _ hmem => nomatch hmem), fun hx earlier item later hsplit
      hearlier => h (x :: earlier) item later (by rw [hsplit, List.cons_append]) ?_⟩
    intro other hother
    rcases List.mem_cons.mp hother with rfl | hother
    · exact hx
    · exact hearlier other hother
  · rintro ⟨hx, hrest⟩ earlier item later hsplit hearlier
    cases earlier with
    | nil =>
      obtain ⟨rfl, -⟩ := List.cons.inj hsplit
      exact hx
    | cons first earlier =>
      obtain ⟨rfl, htail⟩ := List.cons.inj hsplit
      exact hrest (hearlier x List.mem_cons_self) earlier item later htail
        fun other hother => hearlier other (List.mem_cons_of_mem _ hother)

theorem firstCandidate_agrees {blocks : List (List Char)} {text : List Char}
    (htext : Leads readFloat text payload) :
    firstCandidate readFloat limits (blocks ++ [text]) = .ok (some payload) ↔
      ∀ earlier candidate later, blocks ++ [text] = earlier ++ candidate :: later →
        (∀ other ∈ earlier, Passed readFloat limits other) →
        (∀ found, Leads readFloat candidate found → found = payload) ∧
          ∀ limit, ¬ Overruns readFloat limits candidate limit := by
  induction blocks with
  | nil =>
    have hends : ¬ Passed readFloat limits text := fun h => h.1 payload htext
    rw [List.nil_append, firstCandidate_decides hends, forall_first_cons]
    exact ⟨fun h => ⟨h, fun hpassed => absurd hpassed hends⟩, And.left⟩
  | cons first blocks ih =>
    rw [List.cons_append, forall_first_cons]
    by_cases hpassed : Passed readFloat limits first
    · rw [firstCandidate, firstObject_passed hpassed]
      refine Iff.trans ih ⟨fun h => ⟨⟨fun found hleads => ?_, hpassed.2⟩, fun _ => h⟩,
        fun h => h.2 hpassed⟩
      exact absurd hleads (hpassed.1 found)
    · rw [firstCandidate_decides hpassed]
      exact ⟨fun h => ⟨h, fun hp => absurd hp hpassed⟩, And.left⟩

theorem extractJsonObject_ok {text : String} :
    extractJsonObject readFloat limits text = .ok payload ↔
      firstCandidate readFloat limits (candidates text) = .ok (some payload) := by
  unfold extractJsonObject
  cases firstCandidate readFloat limits (candidates text) with
  | error limit => simp
  | ok found => cases found <;> simp

/-- The first object of a text is extracted exactly when the fenced blocks agree with it. -/
theorem extractJsonObject_agrees {text : String} (h : Leads readFloat text.toList payload) :
    extractJsonObject readFloat limits text = .ok payload ↔
      FencesAgree readFloat limits text payload :=
  extractJsonObject_ok.trans (firstCandidate_agrees h)

/-- Whatever a search finds stands in one of the candidates. -/
theorem firstCandidate_found {texts : List (List Char)}
    (h : firstCandidate readFloat limits texts = .ok (some payload)) :
    ∃ candidate ∈ texts, Leads readFloat candidate payload := by
  induction texts with
  | nil => cases h
  | cons first texts ih =>
    have hsearched := firstObject_searched readFloat limits first
    rw [firstCandidate] at h
    cases hresult : firstObject readFloat limits first with
    | error limit =>
      rw [hresult] at h
      cases h
    | ok found =>
      rw [hresult] at h hsearched
      cases hsearched with
      | nothing =>
        obtain ⟨candidate, hmem, hleads⟩ := ih h
        exact ⟨candidate, List.mem_cons_of_mem _ hmem, hleads⟩
      | found hleads _ =>
        cases h
        exact ⟨first, List.mem_cons_self, hleads⟩

theorem firstCandidate_overrun {texts : List (List Char)} {limit : Overrun}
    (h : firstCandidate readFloat limits texts = .error limit) :
    ∃ candidate ∈ texts, Overruns readFloat limits candidate limit := by
  induction texts with
  | nil => cases h
  | cons first texts ih =>
    have hsearched := firstObject_searched readFloat limits first
    rw [firstCandidate] at h
    cases hresult : firstObject readFloat limits first with
    | error limit' =>
      rw [hresult] at h hsearched
      cases h
      cases hsearched with
      | overran hover => exact ⟨first, List.mem_cons_self, hover⟩
    | ok found =>
      rw [hresult] at h hsearched
      cases hsearched with
      | nothing =>
        obtain ⟨candidate, hmem, hover⟩ := ih h
        exact ⟨candidate, List.mem_cons_of_mem _ hmem, hover⟩
      | found => cases h

/-- Whatever is extracted stands in the text. -/
theorem extractJsonObject_contains {text : String}
    (h : extractJsonObject readFloat limits text = .ok payload) :
    ∃ cs, cs <:+: text.toList ∧ Denotes readFloat cs (.value (.mapping payload)) := by
  obtain ⟨candidate, hmem, hleads⟩ := firstCandidate_found (extractJsonObject_ok.mp h)
  obtain ⟨cs, hin, hdenotes⟩ := hleads.contains
  refine ⟨cs, hin.trans ?_, hdenotes⟩
  rcases List.mem_append.mp hmem with hblock | htext
  · exact fencedFrom_infix hblock
  · rw [List.mem_singleton.mp htext]

end

def BraceFree (cs : List Char) : Prop := '\x7b' ∉ cs ∧ '\x7d' ∉ cs

/-- An object alone, with blanks around it. -/
def Alone (readFloat : List Char → String) (text : List Char) (payload : Payload) : Prop :=
  ∃ lead cs trail, text = lead ++ cs ++ trail ∧ (∀ c ∈ lead, isSpace c = true) ∧
    (∀ c ∈ trail, isSpace c = true) ∧ Denotes readFloat cs (.value (.mapping payload))

/-- An object inside a code fence, with prose around the fence. -/
def InFence (readFloat : List Char → String) (text : List Char) (payload : Payload) : Prop :=
  ∃ before info cs gap after,
    text = before ++ ['\x60', '\x60', '\x60'] ++ info ++ cs ++ gap ++
      ['\x60', '\x60', '\x60'] ++ after ∧
    BraceFree before ∧ BraceFree info ∧ BraceFree gap ∧ BraceFree after ∧
    Denotes readFloat cs (.value (.mapping payload))

theorem Alone.leads {readFloat : List Char → String} {text : List Char} {payload : Payload}
    (h : Alone readFloat text payload) : Leads readFloat text payload := by
  obtain ⟨lead, cs, trail, rfl, hlead, -, hdenotes⟩ := h
  refine leads_behind (fun hmem => ?_) hdenotes
  exact absurd (hlead _ hmem) (by decide)

theorem InFence.leads {readFloat : List Char → String} {text : List Char} {payload : Payload}
    (h : InFence readFloat text payload) : Leads readFloat text payload := by
  obtain ⟨before, info, cs, gap, after, rfl, hbefore, hinfo, -, -, hdenotes⟩ := h
  have hlead : '\x7b' ∉ before ++ ['\x60', '\x60', '\x60'] ++ info := by
    simp only [List.mem_append, not_or]
    exact ⟨⟨hbefore.1, by decide⟩, hinfo.1⟩
  have hleads : Leads readFloat (before ++ ['\x60', '\x60', '\x60'] ++ info ++ cs ++
      (gap ++ ['\x60', '\x60', '\x60'] ++ after)) payload := leads_behind hlead hdenotes
  simpa only [List.append_assoc] using hleads

namespace Sample

theorem one_denotes : Denotes String.ofList ['1'] (.value (.int 1)) :=
  @Denotes.number String.ofList [] ['1'] [] []
    ⟨.inl rfl, .inr ⟨'1', [], rfl, by decide, by decide⟩, .inl rfl, .inl rfl⟩

/-- The text of an object with one member. -/
def member (value : List Char) : List Char := ['\x7b', '"', 'a', '"', ':'] ++ value ++ ['\x7d']

theorem member_denotes {value : List Char} {v : Value}
    (h : Denotes String.ofList value (.value v)) :
    Denotes String.ofList (member value) (.value (.mapping [([97], v)])) := by
  have hmembers := @Denotes.lastMember String.ofList ['a'] value [] [] [] [97] v
    (.plain (by decide) .nil) h (fun _ hc => nomatch hc) (fun _ hc => nomatch hc)
    (fun _ hc => nomatch hc)
  have hobject := @Denotes.mapping String.ofList [] _ _ (fun _ hc => nomatch hc) hmembers
  simpa [member, JsonText.joinSurrogates, JsonText.toDict, Dict.set] using hobject

/-- The digits that `int` reads, and the room that a call of the decoder has. -/
def limits : Limits where
  digits := some 4300
  depth := some 900

/-- An answer as models write it. -/
def fencedAnswer : String := "The plan:\n```json\n\x7b\"a\":1\x7d\n```\nDone."

/-- A string inside the object holds a fence with an object. -/
def fenceInString : String := "\x7b\"a\":\"```\x7b\x7d```\"\x7d"

end Sample

end EvoCI
