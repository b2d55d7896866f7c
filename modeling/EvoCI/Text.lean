import Mathlib.Algebra.GroupWithZero.Nat
import Mathlib.Data.List.Basic

/-! Python strings, the bytes of regular files and POSIX path strings, as far as
the tools read and write them. A `String` is a `str` without lone surrogates. -/

namespace EvoCI

/-! ## Errors -/

/-- Exceptions raised by the modelled code, by class and message. -/
inductive PyError where
  | policyViolation (message : String)
  | patchError (message : String)
  | patchConflict (message : String)
  | patchPrecheckError (message : String)
  | integrationError (message : String)
  | repairBudgetExhausted (message : String)
  | taskScheduleError (message : String)
  | osError (message : String)
  | unicodeDecodeError
  | symlinkLoop (message : String)
  | valueError (message : String)
  | runtimeError (message : String)
  | typeError (message : String)
  | modelGatewayError (message : String)
  /-- An exception outside `Exception`: a cancellation or a keyboard interrupt. -/
  | cancelled
  deriving DecidableEq, Repr

/-- `str(exc)`. -/
def PyError.message : PyError → String
  | .policyViolation m | .patchError m | .patchConflict m | .patchPrecheckError m
  | .integrationError m | .repairBudgetExhausted m | .taskScheduleError m | .osError m
  | .symlinkLoop m | .valueError m | .runtimeError m | .typeError m | .modelGatewayError m => m
  | .cancelled => ""
  | .unicodeDecodeError => "'utf-8' codec can't decode bytes"

/-- A text is decided on by its own characters, not by all there are. -/
instance (priority := high) decidableForallMem (text : List Char) (p : Char → Prop)
    [DecidablePred p] : Decidable (∀ c ∈ text, p c) :=
  List.decidableBAll p text

theorem bind_eq_ok {ε α β : Type} {m : Except ε α} {f : α → Except ε β} {result : β} :
    (m >>= f) = .ok result ↔ ∃ value, m = .ok value ∧ f value = .ok result := by
  cases m with
  | error e =>
    constructor
    · intro h
      cases h
    · rintro ⟨_, h, _⟩
      cases h
  | ok value =>
    constructor
    · intro h
      exact ⟨value, rfl, h⟩
    · rintro ⟨other, hother, h⟩
      cases hother
      exact h

/-! ## Strings with lone surrogates -/

/-- The code points of a `str`. -/
abbrev PyText := List Nat

def isSurrogate (point : Nat) : Bool := 0xd800 ≤ point ∧ point ≤ 0xdfff

/-- A parameter of a statement is encoded as UTF-8. -/
def Bindable (text : PyText) : Prop := ∀ point ∈ text, isSurrogate point = false

instance : DecidablePred Bindable := fun text =>
  inferInstanceAs (Decidable (∀ point ∈ text, isSurrogate point = false))

def pyText (text : String) : PyText := text.toList.map Char.toNat

/-! ## File contents -/

/-- Universal-newline translation of text-mode reads. -/
def universalNewlines : List Char → List Char
  | [] => []
  | '\r' :: '\n' :: cs => '\n' :: universalNewlines cs
  | '\r' :: cs => '\n' :: universalNewlines cs
  | c :: cs => c :: universalNewlines cs

theorem universalNewlines_cr {c : Char} (hc : c ≠ '\n') (cs : List Char) :
    universalNewlines ('\r' :: c :: cs) = '\n' :: universalNewlines (c :: cs) := by
  rw [universalNewlines]
  simpa using hc

theorem universalNewlines_other {c : Char} (hc : c ≠ '\r') (cs : List Char) :
    universalNewlines (c :: cs) = c :: universalNewlines cs := by
  rw [universalNewlines]
  · exact fun _ h => absurd h hc
  · exact hc

theorem universalNewlines_append {c : Char} (hc : c ≠ '\n') (cs rest : List Char) :
    universalNewlines (cs ++ c :: rest) =
      universalNewlines cs ++ universalNewlines (c :: rest) := by
  fun_induction universalNewlines cs with
  | case1 => rfl
  | case2 cs ih =>
    rw [List.cons_append, List.cons_append, universalNewlines, ih, List.cons_append]
  | case3 cs hne ih =>
    cases cs with
    | nil =>
      rw [List.singleton_append, universalNewlines_cr hc]
      rfl
    | cons d cs =>
      have hd : d ≠ '\n' := fun h => hne cs (by rw [h])
      rw [List.cons_append, List.cons_append, universalNewlines_cr hd, ← List.cons_append, ih,
        List.cons_append]
  | case4 d cs _ hd ih =>
    have hcr : d ≠ '\r' := fun h => hd h
    rw [List.cons_append, universalNewlines_other hcr, ih, List.cons_append]

/-- A text without a carriage return is read as it is written. -/
theorem universalNewlines_plain {text : List Char} (h : '\r' ∉ text) (cs : List Char) :
    universalNewlines (text ++ cs) = text ++ universalNewlines cs := by
  induction text with
  | nil => rfl
  | cons c text ih =>
    rw [List.mem_cons, not_or] at h
    rw [List.cons_append, universalNewlines_other (Ne.symm h.1), ih h.2, List.cons_append]

/-- The bytes of a regular file: the UTF-8 encoding of a text, or bytes that are
not valid UTF-8. -/
inductive Content where
  | utf8 (text : String)
  | binary (raw : List UInt8)
  deriving DecidableEq, Repr

def Content.bytes : Content → List UInt8
  | .utf8 text => text.toUTF8.toList
  | .binary raw => raw

/-- `text.encode()`. -/
def encode (text : String) : List UInt8 := (Content.utf8 text).bytes

theorem toList_loop (bytes : ByteArray) (i : Nat) (read : List UInt8) :
    ByteArray.toList.loop bytes i read = read.reverse ++ bytes.data.toList.drop i := by
  fun_induction ByteArray.toList.loop bytes i read with
  | case1 i read hi ih =>
    have hlen : i < bytes.data.toList.length := by simpa using hi
    have hget : bytes.get! i = bytes.data.toList[i] := by
      rw [Array.getElem_toList]
      exact getElem!_pos bytes.data i (by simpa using hi)
    rw [ih, List.drop_eq_getElem_cons hlen, hget]
    simp
  | case2 i read hi =>
    have hlen : bytes.data.toList.length ≤ i := by simpa using hi
    simp [List.drop_eq_nil_of_le hlen]

theorem encode_injective {first second : String} (h : encode first = encode second) :
    first = second := by
  have hlist : ∀ bytes : ByteArray, bytes.toList = bytes.data.toList := by
    intro bytes
    simp [ByteArray.toList, toList_loop]
  have hbytes : first.toByteArray.toList = second.toByteArray.toList := h
  rw [hlist, hlist] at hbytes
  exact String.toByteArray_inj.mp (ByteArray.ext (Array.toList_inj.mp hbytes))

/-- `Path.read_text(encoding="utf-8")`. -/
def Content.readText : Content → Except PyError String
  | .utf8 text => .ok (String.ofList (universalNewlines text.toList))
  | .binary _ => .error .unicodeDecodeError

/-- The text reads back as written: text mode changes nothing in it. -/
def Stable (text : String) : Prop := universalNewlines text.toList = text.toList

instance (text : String) : Decidable (Stable text) :=
  inferInstanceAs (Decidable (universalNewlines text.toList = text.toList))

theorem cr_notMem_universalNewlines (cs : List Char) : '\r' ∉ universalNewlines cs := by
  fun_induction universalNewlines cs with
  | case1 => simp
  | case2 cs ih => simpa using ih
  | case3 cs _ ih => simpa using ih
  | case4 c cs _ hc ih =>
    simp only [List.mem_cons, not_or]
    exact ⟨fun h => hc h.symm, ih⟩

theorem universalNewlines_of_notMem (cs : List Char) (h : '\r' ∉ cs) :
    universalNewlines cs = cs := by
  fun_induction universalNewlines cs with
  | case1 => rfl
  | case2 cs ih => simp at h
  | case3 cs _ ih => simp at h
  | case4 c cs _ _ ih =>
    simp only [List.mem_cons, not_or] at h
    rw [ih h.2]

/-- Text mode loses exactly the carriage returns. -/
theorem stable_iff (text : String) : Stable text ↔ '\r' ∉ text.toList := by
  constructor
  · intro h hmem
    rw [← h] at hmem
    exact cr_notMem_universalNewlines _ hmem
  · exact universalNewlines_of_notMem _

theorem universalNewlines_idem (cs : List Char) :
    universalNewlines (universalNewlines cs) = universalNewlines cs :=
  universalNewlines_of_notMem _ (cr_notMem_universalNewlines cs)

theorem readText_eq_iff (text read : String) :
    (Content.utf8 text).readText = .ok read ↔
      universalNewlines text.toList = read.toList := by
  simp only [Content.readText, Except.ok.injEq]
  constructor
  · rintro rfl
    simp
  · intro h
    rw [h]
    simp

theorem readText_stable {text : String} (h : Stable text) :
    (Content.utf8 text).readText = .ok text :=
  (readText_eq_iff text text).mpr h

/-- What a text-mode read returns never contains a carriage return. -/
theorem stable_of_readText {content : Content} {text : String}
    (h : content.readText = .ok text) : Stable text := by
  cases content with
  | binary raw => simp [Content.readText] at h
  | utf8 written =>
    have := (readText_eq_iff written text).mp h
    unfold Stable
    rw [← this, universalNewlines_idem]

/-- What a read of `text`, written as it is, returns. -/
def readBack (text : Option String) : Option String :=
  text.map fun t => String.ofList (universalNewlines t.toList)

/-- A text survives being written and read again. -/
def StableText (text : Option String) : Prop := readBack text = text

instance (text : Option String) : Decidable (StableText text) :=
  inferInstanceAs (Decidable (readBack text = text))

theorem stableText_some {text : String} : StableText (some text) ↔ Stable text := by
  unfold StableText readBack Stable
  simp only [Option.map_some, Option.some.injEq]
  constructor
  · intro h
    rw [← h]
    simp [universalNewlines_idem]
  · intro h
    rw [h]
    simp

/-! ## Path strings -/

/-- The pieces of a path string between its slashes. -/
def splitSlash : List Char → List (List Char)
  | [] => [[]]
  | '/' :: cs => [] :: splitSlash cs
  | c :: cs =>
    match splitSlash cs with
    | [] => [[c]]
    | piece :: pieces => (c :: piece) :: pieces

/-- Components of `PurePosixPath(path)`, the root of an absolute one left out:
empty pieces and `.` vanish, `..` stays. -/
def pathParts (path : String) : List String :=
  ((splitSlash path.toList).filter fun piece => piece ≠ [] ∧ piece ≠ ['.']).map String.ofList

def isAbsolute (path : String) : Bool := path.toList.head? = some '/'

/-- `"/".join(parts)`. -/
def joinParts : List String → String
  | [] => ""
  | [part] => part
  | part :: parts => part ++ "/" ++ joinParts parts

/-- The characters `str.strip` removes. -/
def isSpace (c : Char) : Bool :=
  ('\t' ≤ c ∧ c ≤ '\r') ∨ ('\x1c' ≤ c ∧ c ≤ ' ') ∨ c = '\u0085' ∨ c = '\u00a0' ∨ c = '\u1680' ∨
    ('\u2000' ≤ c ∧ c ≤ '\u200a') ∨ c = '\u2028' ∨ c = '\u2029' ∨ c = '\u202f' ∨ c = '\u205f' ∨
    c = '\u3000'

def strip (text : String) : String :=
  String.ofList ((text.toList.dropWhile isSpace).reverse.dropWhile isSpace).reverse

/-! ## Components of a path -/

theorem splitSlash_ne_nil (cs : List Char) : splitSlash cs ≠ [] := by
  induction cs with
  | nil => simp [splitSlash]
  | cons c cs ih =>
    by_cases h : c = '/'
    · subst h; simp [splitSlash]
    · cases hs : splitSlash cs with
      | nil => exact absurd hs ih
      | cons piece pieces => simp [splitSlash, hs]

/-- A piece without slash before a slash is the first piece. -/
theorem splitSlash_append (piece rest : List Char) (h : '/' ∉ piece) :
    splitSlash (piece ++ '/' :: rest) = piece :: splitSlash rest := by
  induction piece with
  | nil => simp [splitSlash]
  | cons c piece ih =>
    obtain ⟨hc, hpiece⟩ := not_or.mp (List.mem_cons.not.mp h)
    rw [List.cons_append, splitSlash]
    · rw [ih hpiece]
    · exact fun heq => hc heq.symm

theorem splitSlash_single (piece : List Char) (h : '/' ∉ piece) : splitSlash piece = [piece] := by
  induction piece with
  | nil => rfl
  | cons c piece ih =>
    obtain ⟨hc, hpiece⟩ := not_or.mp (List.mem_cons.not.mp h)
    rw [splitSlash, ih hpiece]
    exact fun heq => hc heq.symm

theorem splitSlash_pieces (cs : List Char) : ∀ piece ∈ splitSlash cs, '/' ∉ piece := by
  induction cs with
  | nil => simp [splitSlash]
  | cons c cs ih =>
    by_cases h : c = '/'
    · subst h
      simpa [splitSlash] using ih
    · cases hs : splitSlash cs with
      | nil => exact absurd hs (splitSlash_ne_nil cs)
      | cons piece pieces =>
        rw [hs] at ih
        have hsplit : splitSlash (c :: cs) = (c :: piece) :: pieces := by simp [splitSlash, hs]
        rw [hsplit]
        intro other hother
        rcases List.mem_cons.mp hother with rfl | hother
        · exact fun hin => (List.mem_cons.mp hin).elim (fun heq => h heq.symm)
            (ih piece List.mem_cons_self)
        · exact ih other (List.mem_cons_of_mem _ hother)

/-- A component of a path. -/
def IsPart (part : String) : Prop := '/' ∉ part.toList ∧ part ≠ "" ∧ part ≠ "."

instance (part : String) : Decidable (IsPart part) := inferInstanceAs (Decidable (_ ∧ _ ∧ _))

theorem pathParts_isPart (path : String) : ∀ part ∈ pathParts path, IsPart part := by
  intro part hpart
  obtain ⟨piece, hpiece, rfl⟩ := List.mem_map.mp hpart
  obtain ⟨hin, hkept⟩ := List.mem_filter.mp hpiece
  have hkept := of_decide_eq_true hkept
  refine ⟨by simpa using splitSlash_pieces _ piece hin, fun h => hkept.1 ?_, fun h => hkept.2 ?_⟩
  · simpa using congrArg String.toList h
  · simpa using congrArg String.toList h

theorem pathParts_joinParts (parts : List String) (h : ∀ part ∈ parts, IsPart part) :
    pathParts (joinParts parts) = parts := by
  induction parts with
  | nil => rfl
  | cons part parts ih =>
    obtain ⟨hslash, hempty, hdot⟩ := h part List.mem_cons_self
    have hpart : part.toList ≠ [] ∧ part.toList ≠ ['.'] := by
      refine ⟨fun heq => hempty (String.ext (by simpa using heq)), fun heq => hdot (String.ext ?_)⟩
      simpa using heq
    have hrest := ih fun other hother => h other (List.mem_cons_of_mem _ hother)
    cases parts with
    | nil =>
      simp [joinParts, pathParts, splitSlash_single _ hslash, hpart]
    | cons next parts =>
      unfold pathParts at hrest ⊢
      rw [joinParts, String.toList_append, String.toList_append]
      · rw [show part.toList ++ "/".toList ++ (joinParts (next :: parts)).toList =
          part.toList ++ '/' :: (joinParts (next :: parts)).toList by simp]
        rw [splitSlash_append _ _ hslash, List.filter_cons_of_pos (by simpa using hpart),
          List.map_cons, hrest, String.ofList_toList]
      · simp

theorem isAbsolute_joinParts (parts : List String) (h : ∀ part ∈ parts, IsPart part) :
    isAbsolute (joinParts parts) = false := by
  cases parts with
  | nil => rfl
  | cons part parts =>
    obtain ⟨hslash, hempty, -⟩ := h part List.mem_cons_self
    have hhead : ∃ c cs, part.toList = c :: cs ∧ c ≠ '/' := by
      cases hpart : part.toList with
      | nil => exact absurd (String.ext (by simpa using hpart)) hempty
      | cons c cs =>
        refine ⟨c, cs, rfl, fun heq => hslash ?_⟩
        rw [hpart, heq]
        exact List.mem_cons_self
    obtain ⟨c, cs, hpart, hc⟩ := hhead
    cases parts with
    | nil => simp [isAbsolute, joinParts, hpart, hc]
    | cons next parts => simp [isAbsolute, joinParts, hpart, hc]

theorem mem_joinParts {parts : List String} {c : Char} (h : c ∈ (joinParts parts).toList) :
    c = '/' ∨ ∃ part ∈ parts, c ∈ part.toList := by
  induction parts with
  | nil => simp [joinParts] at h
  | cons part parts ih =>
    cases parts with
    | nil => exact Or.inr ⟨part, List.mem_cons_self, h⟩
    | cons next parts =>
      rw [joinParts, String.toList_append, String.toList_append, List.mem_append,
        List.mem_append] at h
      · rcases h with (h | h) | h
        · exact Or.inr ⟨part, List.mem_cons_self, h⟩
        · exact Or.inl (by simpa using h)
        · rcases ih h with rfl | ⟨other, hother, hc⟩
          · exact Or.inl rfl
          · exact Or.inr ⟨other, List.mem_cons_of_mem _ hother, hc⟩
      · simp

theorem mem_splitSlash {cs piece : List Char} {c : Char} (hpiece : piece ∈ splitSlash cs)
    (hc : c ∈ piece) : c ∈ cs := by
  induction cs generalizing piece with
  | nil =>
    rw [List.mem_singleton.mp hpiece] at hc
    cases hc
  | cons d cs ih =>
    by_cases hd : d = '/'
    · subst hd
      rw [splitSlash] at hpiece
      rcases List.mem_cons.mp hpiece with rfl | hpiece
      · cases hc
      · exact List.mem_cons_of_mem _ (ih hpiece hc)
    · cases hs : splitSlash cs with
      | nil => exact absurd hs (splitSlash_ne_nil cs)
      | cons first pieces =>
        have hsplit : splitSlash (d :: cs) = (d :: first) :: pieces := by simp [splitSlash, hs]
        rw [hsplit] at hpiece
        rcases List.mem_cons.mp hpiece with rfl | hpiece
        · rcases List.mem_cons.mp hc with rfl | hc
          · exact List.mem_cons_self
          · exact List.mem_cons_of_mem _ (ih (hs ▸ List.mem_cons_self) hc)
        · exact List.mem_cons_of_mem _ (ih (hs ▸ List.mem_cons_of_mem _ hpiece) hc)

/-- Joining the components puts nothing but slashes between them. -/
theorem mem_joinParts_pathParts {path : String} {c : Char}
    (h : c ∈ (joinParts (pathParts path)).toList) : c = '/' ∨ c ∈ path.toList := by
  rcases mem_joinParts h with rfl | ⟨part, hpart, hc⟩
  · exact .inl rfl
  · obtain ⟨piece, hpiece, rfl⟩ := List.mem_map.mp hpart
    rw [String.toList_ofList] at hc
    exact .inr (mem_splitSlash (List.mem_filter.mp hpiece).1 hc)

theorem length_splitSlash (cs : List Char) :
    ((splitSlash cs).map fun piece => piece.length + 1).sum = cs.length + 1 := by
  induction cs with
  | nil => rfl
  | cons c cs ih =>
    by_cases h : c = '/'
    · subst h
      simp only [splitSlash, List.map_cons, List.sum_cons, ih, List.length_nil, List.length_cons]
      omega
    · cases hs : splitSlash cs with
      | nil => exact absurd hs (splitSlash_ne_nil cs)
      | cons piece pieces =>
        have hsplit : splitSlash (c :: cs) = (c :: piece) :: pieces := by simp [splitSlash, hs]
        rw [hs] at ih
        simp only [hsplit, List.map_cons, List.sum_cons, List.length_cons] at ih ⊢
        omega

theorem length_joinParts {parts : List String} (h : parts ≠ []) :
    (joinParts parts).length + 1 = (parts.map fun part => part.length + 1).sum := by
  induction parts with
  | nil => exact absurd rfl h
  | cons part parts ih =>
    cases parts with
    | nil => simp [joinParts]
    | cons next parts =>
      have hrest := ih (by simp)
      rw [joinParts, String.length_append, String.length_append]
      · simp only [List.map_cons, List.sum_cons] at hrest ⊢
        have hslash : "/".length = 1 := rfl
        omega
      · simp

theorem sum_filter_le {α : Type} (p : α → Bool) (f : α → Nat) (xs : List α) :
    ((xs.filter p).map f).sum ≤ (xs.map f).sum := by
  induction xs with
  | nil => exact Nat.le_refl _
  | cons x xs ih =>
    rw [List.filter_cons]
    split
    · simp only [List.map_cons, List.sum_cons]
      omega
    · simp only [List.map_cons, List.sum_cons]
      omega

/-- Dropping components makes no path longer. -/
theorem length_joinParts_pathParts (path : String) :
    (joinParts (pathParts path)).length ≤ path.length := by
  by_cases h : pathParts path = []
  · rw [h]
    exact Nat.zero_le _
  · have hjoined := length_joinParts h
    have hall := length_splitSlash path.toList
    have hkept : ((pathParts path).map fun part => part.length + 1).sum ≤
        ((splitSlash path.toList).map fun piece => piece.length + 1).sum := by
      rw [pathParts, List.map_map]
      simpa [Function.comp_def] using sum_filter_le (fun piece => piece ≠ [] ∧ piece ≠ ['.'])
        (fun piece => piece.length + 1) (splitSlash path.toList)
    rw [String.length_toList] at hall
    omega

/-! ## Stripped strings -/

theorem strip_sublist (text : String) : (strip text).toList.Sublist text.toList := by
  rw [strip, String.toList_ofList]
  have hfront := List.dropWhile_sublist isSpace (l := text.toList)
  have hback := (List.dropWhile_sublist isSpace
    (l := (text.toList.dropWhile isSpace).reverse)).reverse
  rw [List.reverse_reverse] at hback
  exact hback.trans hfront

theorem strip_of_length {text : String} (h : text.length ≤ (strip text).length) :
    strip text = text :=
  String.toList_inj.mp ((strip_sublist text).eq_of_length_le
    (by simpa only [String.length_toList] using h))

theorem dropWhile_eq_self {p : Char → Bool} {cs : List Char} :
    cs.dropWhile p = cs ↔ ∀ c ∈ cs.head?, p c = false := by
  cases cs with
  | nil => simp
  | cons c cs =>
    rw [List.head?_cons, List.dropWhile_cons]
    constructor
    · intro h d hd
      cases hd
      split at h
      · have := congrArg List.length h
        have hle := (List.dropWhile_sublist p (l := cs)).length_le
        simp only [List.length_cons] at this
        omega
      · next hc => exact Bool.not_eq_true _ ▸ hc
    · intro h
      rw [if_neg (by simp [h c rfl])]

/-- A text is stripped when it neither begins nor ends with a space. -/
theorem strip_eq_self_iff {text : String} : strip text = text ↔
    (∀ c ∈ text.toList.head?, isSpace c = false) ∧
      ∀ c ∈ text.toList.getLast?, isSpace c = false := by
  rw [← dropWhile_eq_self, ← List.head?_reverse, ← dropWhile_eq_self]
  constructor
  · intro h
    have hchars : ((text.toList.dropWhile isSpace).reverse.dropWhile isSpace).reverse =
        text.toList := by
      simpa [strip] using congrArg String.toList h
    have hback := (List.dropWhile_sublist isSpace
      (l := (text.toList.dropWhile isSpace).reverse)).length_le
    have hlength := congrArg List.length hchars
    have hfront : text.toList.dropWhile isSpace = text.toList := by
      refine (List.dropWhile_sublist isSpace).eq_of_length_le ?_
      simp only [List.length_reverse] at hback hlength
      omega
    rw [hfront] at hchars
    exact ⟨hfront, List.reverse_inj.mp (by rw [hchars, List.reverse_reverse])⟩
  · rintro ⟨hfront, hback⟩
    rw [strip, hfront, hback, List.reverse_reverse, String.ofList_toList]

end EvoCI
