import Mathlib.Data.List.Basic
import Mathlib.Data.List.Infix
import Mathlib.Data.List.TakeWhile
import EvoCI.Library.Dict

/-! The text of JSON values, as a grammar and as a decoder that reads one value off the front of
a text. Beside the standard values the words for infinities and for what is no number are read.
Decoded strings are lists of code points, since an escape can stand for a lone surrogate. -/

namespace Library

namespace JsonText

/-! ## Values -/

/-- A float is known by what `readFloat` makes of its literal. -/
inductive Value where
  | null
  | bool (value : Bool)
  | int (value : Int)
  | float (repr : String)
  | str (points : List Nat)
  | list (items : List Value)
  | mapping (items : List (List Nat × Value))

/-- Of members with the same key the last one counts, at the place of the first. -/
def toDict (items : List (List Nat × Value)) : List (List Nat × Value) :=
  items.foldl (fun d item => Dict.set d item.1 item.2) []

/-! ## Lexemes -/

def isBlank (c : Char) : Bool := c = ' ' ∨ c = '\t' ∨ c = '\n' ∨ c = '\r'

def skip (cs : List Char) : List Char := cs.dropWhile isBlank

def isDigit (c : Char) : Bool := '0' ≤ c ∧ c ≤ '9'

def hexValue (c : Char) : Option Nat :=
  if '0' ≤ c ∧ c ≤ '9' then some (c.toNat - 48)
  else if 'a' ≤ c ∧ c ≤ 'f' then some (c.toNat - 87)
  else if 'A' ≤ c ∧ c ≤ 'F' then some (c.toNat - 55)
  else none

def hexFour (a b c d : Char) : Option Nat :=
  match hexValue a, hexValue b, hexValue c, hexValue d with
  | some a, some b, some c, some d => some (((a * 16 + b) * 16 + c) * 16 + d)
  | _, _, _, _ => none

def simpleEscape : Char → Option Nat
  | '"' => some 34
  | '\\' => some 92
  | '/' => some 47
  | 'b' => some 8
  | 'f' => some 12
  | 'n' => some 10
  | 'r' => some 13
  | 't' => some 9
  | _ => none

/-- A character that stands for itself in a string. -/
def isPlain (c : Char) : Bool := 32 ≤ c.toNat ∧ c ≠ '"' ∧ c ≠ '\\'

/-- Two surrogates that belong together are one code point. -/
def joinSurrogates : List Nat → List Nat
  | high :: low :: units =>
    if 0xd800 ≤ high ∧ high ≤ 0xdbff ∧ 0xdc00 ≤ low ∧ low ≤ 0xdfff then
      (0x10000 + (high - 0xd800) * 1024 + (low - 0xdc00)) :: joinSurrogates units
    else high :: joinSurrogates (low :: units)
  | units => units

/-- The units of a string, behind its opening quote and up to the closing one. -/
def scanString : List Char → Option (List Nat × List Char)
  | '"' :: rest => some ([], rest)
  | '\\' :: 'u' :: a :: b :: c :: d :: cs =>
    (hexFour a b c d).bind fun unit =>
      (scanString cs).map fun (units, rest) => (unit :: units, rest)
  | '\\' :: e :: cs =>
    (simpleEscape e).bind fun unit => (scanString cs).map fun (units, rest) => (unit :: units, rest)
  | c :: cs =>
    if isPlain c then (scanString cs).map fun (units, rest) => (c.toNat :: units, rest) else none
  | [] => none

def words : List (List Char × Value) :=
  [(['n', 'u', 'l', 'l'], .null), (['t', 'r', 'u', 'e'], .bool true),
    (['f', 'a', 'l', 's', 'e'], .bool false), (['N', 'a', 'N'], .float "nan"),
    (['I', 'n', 'f', 'i', 'n', 'i', 't', 'y'], .float "inf"),
    (['-', 'I', 'n', 'f', 'i', 'n', 'i', 't', 'y'], .float "-inf")]

def scanWord (cs : List Char) : Option (Value × List Char) :=
  (words.find? fun word => word.1.isPrefixOf cs).map fun word =>
    (word.2, cs.drop word.1.length)

/-! ## Numbers -/

def signOf : List Char → List Char
  | '-' :: _ => ['-']
  | _ => []

/-- The digits before the point. -/
def wholeOf (cs : List Char) : List Char :=
  match cs with
  | '0' :: _ => ['0']
  | cs => cs.takeWhile isDigit

def fractionOf : List Char → List Char
  | '.' :: cs => if cs.takeWhile isDigit = [] then [] else '.' :: cs.takeWhile isDigit
  | _ => []

def exponentSign : List Char → List Char
  | '-' :: _ => ['-']
  | '+' :: _ => ['+']
  | _ => []

def exponentOf : List Char → List Char
  | e :: cs =>
    if e = 'e' ∨ e = 'E' then
      let digits := (cs.drop (exponentSign cs).length).takeWhile isDigit
      if digits = [] then [] else e :: exponentSign cs ++ digits
    else []
  | [] => []

def natOf (digits : List Char) : Nat := digits.foldl (fun n c => n * 10 + (c.toNat - 48)) 0

/-- The value of a number with the given parts. -/
def numberOf (readFloat : List Char → String) (sign whole fraction exponent : List Char) :
    Value :=
  if fraction = [] ∧ exponent = [] then
    .int (if sign = [] then natOf whole else -(natOf whole : Int))
  else .float (readFloat (sign ++ whole ++ fraction ++ exponent))

def scanNumber (readFloat : List Char → String) (cs : List Char) : Option (Value × List Char) :=
  let sign := signOf cs
  let cs := cs.drop sign.length
  let whole := wholeOf cs
  let cs := cs.drop whole.length
  let fraction := fractionOf cs
  let cs := cs.drop fraction.length
  let exponent := exponentOf cs
  if whole = [] then none
  else some (numberOf readFloat sign whole fraction exponent, cs.drop exponent.length)

/-! ## The decoder -/

mutual

/-- One value at the front of a text; every call spends fuel. -/
def scanValue (readFloat : List Char → String) : Nat → List Char → Option (Value × List Char)
  | 0, _ => none
  | fuel + 1, cs =>
    match cs with
    | '"' :: cs => (scanString cs).map fun (units, rest) => (.str (joinSurrogates units), rest)
    | '\x7b' :: cs =>
      match skip cs with
      | '\x7d' :: rest => some (.mapping [], rest)
      | cs => (scanMembers readFloat fuel cs).map fun (items, rest) =>
        (.mapping (toDict items), rest)
    | '[' :: cs =>
      match skip cs with
      | ']' :: rest => some (.list [], rest)
      | cs => (scanElements readFloat fuel cs).map fun (items, rest) => (.list items, rest)
    | cs => (scanWord cs).or (scanNumber readFloat cs)

/-- The members of an object up to its closing brace. -/
def scanMembers (readFloat : List Char → String) :
    Nat → List Char → Option (List (List Nat × Value) × List Char)
  | 0, _ => none
  | fuel + 1, cs =>
    match cs with
    | '"' :: cs =>
      (scanString cs).bind fun (units, cs) =>
        match skip cs with
        | ':' :: cs =>
          (scanValue readFloat fuel (skip cs)).bind fun (value, cs) =>
            match skip cs with
            | '\x7d' :: rest => some ([(joinSurrogates units, value)], rest)
            | ',' :: cs => (scanMembers readFloat fuel (skip cs)).map fun (items, rest) =>
              ((joinSurrogates units, value) :: items, rest)
            | _ => none
        | _ => none
    | _ => none

/-- The elements of an array up to its closing bracket. -/
def scanElements (readFloat : List Char → String) :
    Nat → List Char → Option (List Value × List Char)
  | 0, _ => none
  | fuel + 1, cs =>
    (scanValue readFloat fuel cs).bind fun (value, cs) =>
      match skip cs with
      | ']' :: rest => some ([value], rest)
      | ',' :: cs => (scanElements readFloat fuel (skip cs)).map fun (items, rest) =>
        (value :: items, rest)
      | _ => none

end

/-- `JSONDecoder().raw_decode`: a value and what stands behind it. -/
def rawDecode (readFloat : List Char → String) (cs : List Char) : Option (Value × List Char) :=
  scanValue readFloat (cs.length + 1) cs

/-! ## The grammar -/

/-- The text between the quotes of a string, and its units. -/
inductive StringText : List Char → List Nat → Prop where
  | nil : StringText [] []
  | plain {c : Char} {cs : List Char} {units : List Nat} (hc : isPlain c = true)
      (h : StringText cs units) : StringText (c :: cs) (c.toNat :: units)
  | escape {e : Char} {unit : Nat} {cs : List Char} {units : List Nat}
      (he : simpleEscape e = some unit) (h : StringText cs units) :
      StringText ('\\' :: e :: cs) (unit :: units)
  | unicode {a b c d : Char} {unit : Nat} {cs : List Char} {units : List Nat}
      (hunit : hexFour a b c d = some unit) (h : StringText cs units) :
      StringText ('\\' :: 'u' :: a :: b :: c :: d :: cs) (unit :: units)

/-- The parts of a number. -/
structure NumberText (sign whole fraction exponent : List Char) : Prop where
  sign : sign = [] ∨ sign = ['-']
  whole : whole = ['0'] ∨ ∃ c cs, whole = c :: cs ∧ c ≠ '0' ∧ ∀ d ∈ whole, isDigit d = true
  fraction : fraction = [] ∨ ∃ digits, digits ≠ [] ∧ fraction = '.' :: digits ∧
    ∀ d ∈ digits, isDigit d = true
  exponent : exponent = [] ∨ ∃ e mark digits, (e = 'e' ∨ e = 'E') ∧
    (mark = [] ∨ mark = ['-'] ∨ mark = ['+']) ∧ digits ≠ [] ∧
    exponent = e :: mark ++ digits ∧ ∀ d ∈ digits, isDigit d = true

def Blank (cs : List Char) : Prop := ∀ c ∈ cs, isBlank c = true

/-- A value, the members of an object or the elements of an array. -/
inductive Phrase where
  | value (value : Value)
  | members (items : List (List Nat × Value))
  | elements (items : List Value)

/-- The texts of values, without blanks around them; members and elements may have blanks behind
each of them. -/
inductive Denotes (readFloat : List Char → String) : List Char → Phrase → Prop where
  | word {word : List Char × Value} (h : word ∈ words) :
      Denotes readFloat word.1 (.value word.2)
  | number {sign whole fraction exponent : List Char}
      (h : NumberText sign whole fraction exponent) :
      Denotes readFloat (sign ++ whole ++ fraction ++ exponent)
        (.value (numberOf readFloat sign whole fraction exponent))
  | str {cs : List Char} {units : List Nat} (h : StringText cs units) :
      Denotes readFloat ('"' :: cs ++ ['"']) (.value (.str (joinSurrogates units)))
  | emptyList {gap : List Char} (hgap : Blank gap) :
      Denotes readFloat ('[' :: gap ++ [']']) (.value (.list []))
  | list {gap cs : List Char} {items : List Value} (hgap : Blank gap)
      (h : Denotes readFloat cs (.elements items)) :
      Denotes readFloat ('[' :: gap ++ cs ++ [']']) (.value (.list items))
  | emptyMapping {gap : List Char} (hgap : Blank gap) :
      Denotes readFloat ('\x7b' :: gap ++ ['\x7d']) (.value (.mapping []))
  | mapping {gap cs : List Char} {items : List (List Nat × Value)} (hgap : Blank gap)
      (h : Denotes readFloat cs (.members items)) :
      Denotes readFloat ('\x7b' :: gap ++ cs ++ ['\x7d']) (.value (.mapping (toDict items)))
  | lastElement {cs gap : List Char} {value : Value} (h : Denotes readFloat cs (.value value))
      (hgap : Blank gap) : Denotes readFloat (cs ++ gap) (.elements [value])
  | element {cs gap gap' rest : List Char} {value : Value} {items : List Value}
      (h : Denotes readFloat cs (.value value)) (hgap : Blank gap) (hgap' : Blank gap')
      (hrest : Denotes readFloat rest (.elements items)) :
      Denotes readFloat (cs ++ gap ++ ',' :: gap' ++ rest) (.elements (value :: items))
  | lastMember {key cs gap₁ gap₂ gap₃ : List Char} {units : List Nat} {value : Value}
      (hkey : StringText key units) (h : Denotes readFloat cs (.value value))
      (h₁ : Blank gap₁) (h₂ : Blank gap₂) (h₃ : Blank gap₃) :
      Denotes readFloat ('"' :: key ++ '"' :: gap₁ ++ ':' :: gap₂ ++ cs ++ gap₃)
        (.members [(joinSurrogates units, value)])
  | member {key cs gap₁ gap₂ gap₃ gap₄ rest : List Char} {units : List Nat} {value : Value}
      {items : List (List Nat × Value)} (hkey : StringText key units)
      (h : Denotes readFloat cs (.value value)) (h₁ : Blank gap₁) (h₂ : Blank gap₂)
      (h₃ : Blank gap₃) (h₄ : Blank gap₄) (hrest : Denotes readFloat rest (.members items)) :
      Denotes readFloat
        ('"' :: key ++ '"' :: gap₁ ++ ':' :: gap₂ ++ cs ++ gap₃ ++ ',' :: gap₄ ++ rest)
        (.members ((joinSurrogates units, value) :: items))

/-! ## Blanks -/

theorem skip_append {gap : List Char} (h : Blank gap) (cs : List Char) :
    skip (gap ++ cs) = skip cs := by
  induction gap with
  | nil => rfl
  | cons c gap ih =>
    rw [List.cons_append, skip, List.dropWhile_cons_of_pos (h c List.mem_cons_self)]
    exact ih fun d hd => h d (List.mem_cons_of_mem _ hd)

theorem skip_cons {c : Char} (h : isBlank c = false) (cs : List Char) :
    skip (c :: cs) = c :: cs := by
  rw [skip, List.dropWhile_cons_of_neg (by simp [h])]

theorem skip_split (cs : List Char) : ∃ gap, Blank gap ∧ cs = gap ++ skip cs :=
  ⟨cs.takeWhile isBlank, fun _ hc => List.mem_takeWhile_imp hc,
    List.takeWhile_append_dropWhile.symm⟩

/-! ## Strings -/

theorem scanString_plain {c : Char} (hc : isPlain c = true) (cs : List Char) :
    scanString (c :: cs) = (scanString cs).map fun (units, rest) => (c.toNat :: units, rest) := by
  have hne : c ≠ '"' ∧ c ≠ '\\' := by
    simp only [isPlain, decide_eq_true_eq] at hc
    exact hc.2
  rw [scanString]
  · simp [hc]
  · exact hne.1
  · exact fun _ _ _ _ _ h => absurd h hne.2
  · exact fun _ _ h => absurd h hne.2

theorem scanString_escape {e : Char} {unit : Nat} (he : simpleEscape e = some unit)
    (cs : List Char) :
    scanString ('\\' :: e :: cs) =
      (scanString cs).map fun (units, rest) => (unit :: units, rest) := by
  have hu : e ≠ 'u' := by
    rintro rfl
    cases he
  rw [scanString]
  · simp [he]
  · exact fun _ _ _ _ _ h => absurd h hu

theorem scanString_complete {cs : List Char} {units : List Nat} (h : StringText cs units)
    (rest : List Char) : scanString (cs ++ '"' :: rest) = some (units, rest) := by
  induction h with
  | nil => simp [scanString]
  | plain hc _ ih => rw [List.cons_append, scanString_plain hc, ih]; rfl
  | escape he _ ih =>
    rw [List.cons_append, List.cons_append, scanString_escape he, ih]
    rfl
  | unicode hunit _ ih =>
    simp only [List.cons_append]
    rw [scanString, hunit, ih]
    rfl

/-- A text without escapes. -/
theorem stringText_plain {cs : List Char} (h : ∀ c ∈ cs, isPlain c = true) :
    StringText cs (cs.map Char.toNat) := by
  induction cs with
  | nil => exact .nil
  | cons c cs ih =>
    exact .plain (h c List.mem_cons_self) (ih fun d hd => h d (List.mem_cons_of_mem _ hd))

theorem scanString_sound {cs : List Char} {units : List Nat} {rest : List Char}
    (h : scanString cs = some (units, rest)) :
    ∃ text, cs = text ++ '"' :: rest ∧ StringText text units := by
  fun_induction scanString cs generalizing units rest with
  | case1 tail =>
    cases h
    exact ⟨[], rfl, .nil⟩
  | case2 a b c d cs ih =>
    obtain ⟨unit, hunit, h⟩ := Option.bind_eq_some_iff.mp h
    obtain ⟨⟨units', rest'⟩, hrest, heq⟩ := Option.map_eq_some_iff.mp h
    cases heq
    obtain ⟨text, rfl, htext⟩ := ih hrest
    exact ⟨'\\' :: 'u' :: a :: b :: c :: d :: text, rfl, .unicode hunit htext⟩
  | case3 e cs _ ih =>
    obtain ⟨unit, hunit, h⟩ := Option.bind_eq_some_iff.mp h
    obtain ⟨⟨units', rest'⟩, hrest, heq⟩ := Option.map_eq_some_iff.mp h
    cases heq
    obtain ⟨text, rfl, htext⟩ := ih hrest
    exact ⟨'\\' :: e :: text, rfl, .escape hunit htext⟩
  | case4 c cs _ _ _ hc ih =>
    obtain ⟨⟨units', rest'⟩, hrest, heq⟩ := Option.map_eq_some_iff.mp h
    cases heq
    obtain ⟨text, rfl, htext⟩ := ih hrest
    exact ⟨c :: text, rfl, .plain hc htext⟩
  | case5 => cases h
  | case6 => cases h

/-! ## Words and numbers -/

/-- The text does not go on with a character of a number. -/
def Stops (rest : List Char) : Prop :=
  ∀ c cs, rest = c :: cs → isDigit c = false ∧ c ≠ '.' ∧ c ≠ 'e' ∧ c ≠ 'E'

theorem scanWord_sound {cs : List Char} {value : Value} {rest : List Char}
    (h : scanWord cs = some (value, rest)) :
    ∃ word ∈ words, word.2 = value ∧ cs = word.1 ++ rest := by
  obtain ⟨word, hfind, heq⟩ := Option.map_eq_some_iff.mp h
  cases heq
  have hleads := List.find?_some hfind
  refine ⟨word, List.mem_of_find?_eq_some hfind, rfl, ?_⟩
  obtain ⟨tail, rfl⟩ := List.isPrefixOf_iff_prefix.mp hleads
  rw [List.drop_left]

theorem takeWhile_digits {digits rest : List Char} (hdigits : ∀ d ∈ digits, isDigit d = true)
    (hrest : ∀ c cs, rest = c :: cs → isDigit c = false) :
    (digits ++ rest).takeWhile isDigit = digits := by
  rw [List.takeWhile_append_of_pos hdigits]
  cases rest with
  | nil => simp
  | cons c cs => rw [List.takeWhile_cons_of_neg (by simp [hrest c cs rfl]), List.append_nil]

theorem exponentOf_append {exponent rest : List Char}
    (h : exponent = [] ∨ ∃ e mark digits, (e = 'e' ∨ e = 'E') ∧
      (mark = [] ∨ mark = ['-'] ∨ mark = ['+']) ∧ digits ≠ [] ∧
      exponent = e :: mark ++ digits ∧ ∀ d ∈ digits, isDigit d = true)
    (hrest : Stops rest) : exponentOf (exponent ++ rest) = exponent := by
  rcases h with rfl | ⟨e, mark, digits, he, hmark, hne, rfl, hdigits⟩
  · cases rest with
    | nil => rfl
    | cons c cs =>
      obtain ⟨-, -, h1, h2⟩ := hrest c cs rfl
      simp [exponentOf, h1, h2]
  · have htake : (digits ++ rest).takeWhile isDigit = digits :=
      takeWhile_digits hdigits fun c cs hc => (hrest c cs hc).1
    have hsign : exponentSign (mark ++ (digits ++ rest)) = mark := by
      rcases hmark with rfl | rfl | rfl
      · obtain ⟨d, ds, rfl⟩ := List.exists_cons_of_ne_nil hne
        have hd := hdigits d List.mem_cons_self
        rw [List.nil_append, List.cons_append, exponentSign]
        · intro tail heq
          obtain ⟨rfl, -⟩ := List.cons.inj heq
          exact absurd hd (by decide)
        · intro tail heq
          obtain ⟨rfl, -⟩ := List.cons.inj heq
          exact absurd hd (by decide)
      · rfl
      · rfl
    rw [List.cons_append, List.cons_append, List.append_assoc, exponentOf, if_pos he]
    simp only [hsign, List.drop_left, htake, if_neg hne, List.cons_append]

theorem fractionOf_append {fraction rest : List Char}
    (h : fraction = [] ∨ ∃ digits, digits ≠ [] ∧ fraction = '.' :: digits ∧
      ∀ d ∈ digits, isDigit d = true)
    (hpoint : ∀ c cs, rest = c :: cs → isDigit c = false ∧ c ≠ '.') :
    fractionOf (fraction ++ rest) = fraction := by
  rcases h with rfl | ⟨digits, hne, rfl, hdigits⟩
  · cases rest with
    | nil => rfl
    | cons c cs =>
      rw [List.nil_append, fractionOf]
      exact fun _ h => (hpoint c cs rfl).2 (List.cons.inj h).1
  · rw [List.cons_append, fractionOf, takeWhile_digits hdigits fun c cs hc => (hpoint c cs hc).1,
      if_neg hne]

theorem wholeOf_append {whole rest : List Char}
    (h : whole = ['0'] ∨ ∃ c cs, whole = c :: cs ∧ c ≠ '0' ∧ ∀ d ∈ whole, isDigit d = true)
    (hrest : ∀ c cs, rest = c :: cs → isDigit c = false) : wholeOf (whole ++ rest) = whole := by
  rcases h with rfl | ⟨c, cs, rfl, hc, hdigits⟩
  · rfl
  · rw [List.cons_append, wholeOf]
    · rw [← List.cons_append, takeWhile_digits hdigits hrest]
    · exact fun _ h => hc (List.cons.inj h).1

theorem signOf_append {sign rest : List Char} (h : sign = [] ∨ sign = ['-'])
    (hrest : ∀ c cs, rest = c :: cs → c ≠ '-') : signOf (sign ++ rest) = sign := by
  rcases h with rfl | rfl
  · cases rest with
    | nil => rfl
    | cons c cs =>
      rw [List.nil_append, signOf]
      exact fun _ h => hrest c cs rfl (List.cons.inj h).1
  · rfl

theorem stops_cons {c : Char} (h : isDigit c = false ∧ c ≠ '.' ∧ c ≠ 'e' ∧ c ≠ 'E')
    (cs : List Char) : Stops (c :: cs) := by
  intro d ds heq
  obtain ⟨rfl, -⟩ := List.cons.inj heq
  exact h

theorem stops_gap {gap rest : List Char} (hgap : Blank gap) (hrest : Stops rest) :
    Stops (gap ++ rest) := by
  cases gap with
  | nil => exact hrest
  | cons c gap =>
    have hblank := hgap c List.mem_cons_self
    simp only [isBlank, decide_eq_true_eq] at hblank
    apply stops_cons
    rcases hblank with rfl | rfl | rfl | rfl <;> decide

/-- How the part behind another one begins, when that one may be empty. -/
theorem head_append {part rest : List Char} {p : Char → Prop}
    (hpart : ∀ c cs, part = c :: cs → p c) (hrest : ∀ c cs, rest = c :: cs → p c) :
    ∀ c cs, part ++ rest = c :: cs → p c := by
  intro c cs h
  cases part with
  | nil => exact hrest c cs h
  | cons d part =>
    obtain ⟨rfl, -⟩ := List.cons.inj h
    exact hpart d part rfl

namespace NumberText

variable {sign whole fraction exponent : List Char}

theorem whole_head (h : NumberText sign whole fraction exponent) :
    ∃ c cs, whole = c :: cs ∧ isDigit c = true := by
  rcases h.whole with rfl | ⟨c, cs, rfl, -, hdigits⟩
  · exact ⟨'0', [], rfl, by decide⟩
  · exact ⟨c, cs, rfl, hdigits c List.mem_cons_self⟩

theorem exponent_head (h : NumberText sign whole fraction exponent) :
    ∀ c cs, exponent = c :: cs → isDigit c = false ∧ c ≠ '.' := by
  intro c cs heq
  rcases h.exponent with rfl | ⟨e, mark, digits, he, -, -, rfl, -⟩
  · cases heq
  · obtain ⟨rfl, -⟩ := List.cons.inj heq
    rcases he with rfl | rfl <;> decide

theorem fraction_head (h : NumberText sign whole fraction exponent) :
    ∀ c cs, fraction = c :: cs → isDigit c = false := by
  intro c cs heq
  rcases h.fraction with rfl | ⟨digits, -, rfl, -⟩
  · cases heq
  · obtain ⟨rfl, -⟩ := List.cons.inj heq
    decide

/-- The scanner takes the parts of a number apart again. -/
theorem complete (readFloat : List Char → String)
    (h : NumberText sign whole fraction exponent) {rest : List Char} (hrest : Stops rest) :
    scanNumber readFloat (sign ++ whole ++ fraction ++ exponent ++ rest) =
      some (numberOf readFloat sign whole fraction exponent, rest) := by
  have hpoint : ∀ c cs, exponent ++ rest = c :: cs → isDigit c = false ∧ c ≠ '.' :=
    head_append h.exponent_head fun c cs hc => ⟨(hrest c cs hc).1, (hrest c cs hc).2.1⟩
  have hdigit : ∀ c cs, fraction ++ (exponent ++ rest) = c :: cs → isDigit c = false :=
    head_append h.fraction_head fun c cs hc => (hpoint c cs hc).1
  have hminus : ∀ c cs, whole ++ (fraction ++ (exponent ++ rest)) = c :: cs → c ≠ '-' := by
    obtain ⟨d, ds, rfl, hd⟩ := h.whole_head
    rintro c cs heq rfl
    obtain ⟨rfl, -⟩ := List.cons.inj heq
    exact absurd hd (by decide)
  have hwhole : whole ≠ [] := by
    obtain ⟨d, ds, rfl, -⟩ := h.whole_head
    exact List.cons_ne_nil d ds
  simp only [scanNumber, List.append_assoc, signOf_append h.sign hminus,
    wholeOf_append h.whole hdigit, fractionOf_append h.fraction hpoint,
    exponentOf_append h.exponent hrest, List.drop_left, if_neg hwhole]

end NumberText

theorem drop_part {part tail cs : List Char} (h : part ++ tail = cs) :
    cs.drop part.length = tail := by
  rw [← h, List.drop_left]

theorem signOf_cases (cs : List Char) :
    (signOf cs = [] ∨ signOf cs = ['-']) ∧ signOf cs <+: cs := by
  unfold signOf
  split
  · exact ⟨.inr rfl, ⟨_, rfl⟩⟩
  · exact ⟨.inl rfl, List.nil_prefix⟩

theorem wholeOf_cases {cs : List Char} (h : wholeOf cs ≠ []) :
    (wholeOf cs = ['0'] ∨
      ∃ c ds, wholeOf cs = c :: ds ∧ c ≠ '0' ∧ ∀ d ∈ wholeOf cs, isDigit d = true) ∧
      wholeOf cs <+: cs := by
  unfold wholeOf at h ⊢
  split at h
  · exact ⟨.inl rfl, ⟨_, rfl⟩⟩
  · next hzero =>
    refine ⟨.inr ?_, List.takeWhile_prefix isDigit⟩
    obtain ⟨c, ds, heq⟩ := List.exists_cons_of_ne_nil h
    refine ⟨c, ds, heq, ?_, fun d hd => List.mem_takeWhile_imp hd⟩
    rintro rfl
    obtain ⟨tail, htail⟩ := List.takeWhile_prefix (l := cs) isDigit
    rw [heq] at htail
    exact hzero _ htail.symm

theorem fractionOf_cases (cs : List Char) :
    (fractionOf cs = [] ∨ ∃ digits, digits ≠ [] ∧ fractionOf cs = '.' :: digits ∧
      ∀ d ∈ digits, isDigit d = true) ∧ fractionOf cs <+: cs := by
  unfold fractionOf
  split
  · next tail =>
    split
    · exact ⟨.inl rfl, List.nil_prefix⟩
    · next hne =>
      refine ⟨.inr ⟨_, hne, rfl, fun d hd => List.mem_takeWhile_imp hd⟩, ?_⟩
      exact List.cons_prefix_cons.mpr ⟨rfl, List.takeWhile_prefix isDigit⟩
  · exact ⟨.inl rfl, List.nil_prefix⟩

theorem exponentSign_cases (cs : List Char) :
    (exponentSign cs = [] ∨ exponentSign cs = ['-'] ∨ exponentSign cs = ['+']) ∧
      exponentSign cs <+: cs := by
  unfold exponentSign
  split
  · exact ⟨.inr (.inl rfl), ⟨_, rfl⟩⟩
  · exact ⟨.inr (.inr rfl), ⟨_, rfl⟩⟩
  · exact ⟨.inl rfl, List.nil_prefix⟩

theorem exponentOf_cases (cs : List Char) :
    (exponentOf cs = [] ∨ ∃ e mark digits, (e = 'e' ∨ e = 'E') ∧
      (mark = [] ∨ mark = ['-'] ∨ mark = ['+']) ∧ digits ≠ [] ∧
      exponentOf cs = e :: mark ++ digits ∧ ∀ d ∈ digits, isDigit d = true) ∧
      exponentOf cs <+: cs := by
  cases cs with
  | nil => exact ⟨.inl rfl, List.nil_prefix⟩
  | cons e cs =>
    obtain ⟨hmark, tail, htail⟩ := exponentSign_cases cs
    have hdrop : cs.drop (exponentSign cs).length = tail := drop_part htail
    simp only [exponentOf, hdrop]
    split
    · next he =>
      split
      · exact ⟨.inl rfl, List.nil_prefix⟩
      · next hne =>
        refine ⟨.inr ⟨e, _, _, he, hmark, hne, rfl, fun d hd => List.mem_takeWhile_imp hd⟩, ?_⟩
        obtain ⟨rest, hrest⟩ := List.takeWhile_prefix (l := tail) isDigit
        refine ⟨rest, ?_⟩
        rw [List.append_assoc, hrest, List.cons_append, htail]
    · exact ⟨.inl rfl, List.nil_prefix⟩

theorem scanNumber_sound {readFloat : List Char → String} {cs : List Char} {value : Value}
    {rest : List Char} (h : scanNumber readFloat cs = some (value, rest)) :
    ∃ sign whole fraction exponent, NumberText sign whole fraction exponent ∧
      cs = sign ++ whole ++ fraction ++ exponent ++ rest ∧
      value = numberOf readFloat sign whole fraction exponent := by
  obtain ⟨hsign, tail, htail⟩ := signOf_cases cs
  have hcs : cs.drop (signOf cs).length = tail := drop_part htail
  simp only [scanNumber, hcs] at h
  split at h
  · cases h
  · next hne =>
    obtain ⟨hwhole, tail₂, htail₂⟩ := wholeOf_cases hne
    have hcs₂ : tail.drop (wholeOf tail).length = tail₂ := drop_part htail₂
    obtain ⟨hfraction, tail₃, htail₃⟩ := fractionOf_cases tail₂
    have hcs₃ : tail₂.drop (fractionOf tail₂).length = tail₃ := drop_part htail₃
    obtain ⟨hexponent, tail₄, htail₄⟩ := exponentOf_cases tail₃
    have hcs₄ : tail₃.drop (exponentOf tail₃).length = tail₄ := drop_part htail₄
    simp only [hcs₂, hcs₃, hcs₄] at h
    cases h
    refine ⟨_, _, _, _, ⟨hsign, hwhole, hfraction, hexponent⟩, ?_, rfl⟩
    simp only [List.append_assoc, htail₄, htail₃, htail₂, htail]

/-! ## Completeness -/

/-- What stands behind a value: an object ends by itself. -/
def Follows (value : Value) (rest : List Char) : Prop :=
  (∃ items, value = .mapping items) ∨ Stops rest

/-- The scanners read what the grammar derives, whatever stands behind it. -/
def Read (readFloat : List Char → String) (cs : List Char) : Phrase → Prop
  | .value value => ∀ rest fuel, Follows value rest → cs.length < fuel →
      scanValue readFloat fuel (cs ++ rest) = some (value, rest)
  | .members items => ∀ rest fuel, cs.length < fuel →
      scanMembers readFloat fuel (cs ++ '\x7d' :: rest) = some (items, rest)
  | .elements items => ∀ rest fuel, cs.length + 1 < fuel →
      scanElements readFloat fuel (cs ++ ']' :: rest) = some (items, rest)

/-- No phrase begins with a blank or with a closing bracket. -/
theorem Denotes.head {readFloat : List Char → String} {cs : List Char} {phrase : Phrase}
    (h : Denotes readFloat cs phrase) :
    ∃ c tail, cs = c :: tail ∧ isBlank c = false ∧ c ≠ ']' ∧ c ≠ '\x7d' := by
  induction h with
  | word h =>
    simp only [words, List.mem_cons, List.not_mem_nil, or_false] at h
    rcases h with rfl | rfl | rfl | rfl | rfl | rfl <;> exact ⟨_, _, rfl, by decide⟩
  | number h =>
    rcases h.sign with rfl | rfl
    · obtain ⟨c, tail, rfl, hc⟩ := h.whole_head
      refine ⟨c, _, by simp only [List.nil_append, List.cons_append]; rfl, ?_⟩
      refine ⟨?_, ?_, ?_⟩
      · rw [isBlank, decide_eq_false_iff_not]
        rintro (rfl | rfl | rfl | rfl) <;> exact absurd hc (by decide)
      · rintro rfl
        exact absurd hc (by decide)
      · rintro rfl
        exact absurd hc (by decide)
    · exact ⟨'-', _, rfl, by decide⟩
  | str => exact ⟨'"', _, rfl, by decide⟩
  | emptyList => exact ⟨'[', _, rfl, by decide⟩
  | list => exact ⟨'[', _, rfl, by decide⟩
  | emptyMapping => exact ⟨'\x7b', _, rfl, by decide⟩
  | mapping => exact ⟨'\x7b', _, rfl, by decide⟩
  | lastElement _ _ ih =>
    obtain ⟨c, tail, rfl, hc⟩ := ih
    exact ⟨c, _, rfl, hc⟩
  | element _ _ _ _ ih =>
    obtain ⟨c, tail, rfl, hc⟩ := ih
    exact ⟨c, _, rfl, hc⟩
  | lastMember => exact ⟨'"', _, rfl, by decide⟩
  | member => exact ⟨'"', _, rfl, by decide⟩

theorem Denotes.skip_gap {readFloat : List Char → String} {cs gap : List Char} {phrase : Phrase}
    (h : Denotes readFloat cs phrase) (hgap : Blank gap) (rest : List Char) :
    skip (gap ++ (cs ++ rest)) = cs ++ rest := by
  obtain ⟨c, tail, rfl, hc, -⟩ := h.head
  rw [skip_append hgap, List.cons_append, skip_cons hc]

/-- A value that is no string, array or object is a word or a number. -/
theorem scanValue_scalar (readFloat : List Char → String) (fuel : Nat) {c : Char}
    (hc : c ≠ '"' ∧ c ≠ '\x7b' ∧ c ≠ '[') (cs : List Char) :
    scanValue readFloat (fuel + 1) (c :: cs) =
      (scanWord (c :: cs)).or (scanNumber readFloat (c :: cs)) := by
  rw [scanValue]
  · exact fun _ h => hc.1 (List.cons.inj h).1
  · exact fun _ h => hc.2.1 (List.cons.inj h).1
  · exact fun _ h => hc.2.2 (List.cons.inj h).1

/-- A number is not taken for a word. -/
theorem NumberText.scanWord_none {sign whole fraction exponent : List Char}
    (h : NumberText sign whole fraction exponent) (rest : List Char) :
    scanWord (sign ++ whole ++ fraction ++ exponent ++ rest) = none := by
  obtain ⟨c, cs, rfl, hc⟩ := h.whole_head
  have hne : ∀ d, isDigit d = false → d ≠ c := by
    rintro d hd rfl
    exact absurd hc (by simp [hd])
  rw [scanWord, Option.map_eq_none_iff, List.find?_eq_none]
  intro word hword hleads
  simp only [words, List.mem_cons, List.not_mem_nil, or_false] at hword
  rcases h.sign with rfl | rfl
  · rcases hword with rfl | rfl | rfl | rfl | rfl | rfl <;>
      exact hne _ (by decide) (List.cons_prefix_cons.mp (List.isPrefixOf_iff_prefix.mp hleads)).1
  · rcases hword with rfl | rfl | rfl | rfl | rfl | rfl
    · exact absurd (List.cons_prefix_cons.mp (List.isPrefixOf_iff_prefix.mp hleads)).1 (by decide)
    · exact absurd (List.cons_prefix_cons.mp (List.isPrefixOf_iff_prefix.mp hleads)).1 (by decide)
    · exact absurd (List.cons_prefix_cons.mp (List.isPrefixOf_iff_prefix.mp hleads)).1 (by decide)
    · exact absurd (List.cons_prefix_cons.mp (List.isPrefixOf_iff_prefix.mp hleads)).1 (by decide)
    · exact absurd (List.cons_prefix_cons.mp (List.isPrefixOf_iff_prefix.mp hleads)).1 (by decide)
    · have htail := (List.cons_prefix_cons.mp (List.isPrefixOf_iff_prefix.mp hleads)).2
      exact hne _ (by decide) (List.cons_prefix_cons.mp htail).1

theorem Denotes.read {readFloat : List Char → String} {cs : List Char} {phrase : Phrase}
    (h : Denotes readFloat cs phrase) : Read readFloat cs phrase := by
  induction h with
  | @word word h =>
    intro rest fuel _ hfuel
    obtain ⟨fuel, rfl⟩ := Nat.exists_eq_add_one_of_ne_zero (Nat.ne_zero_of_lt hfuel)
    simp only [words, List.mem_cons, List.not_mem_nil, or_false] at h
    rcases h with rfl | rfl | rfl | rfl | rfl | rfl <;>
      exact (scanValue_scalar readFloat fuel (by decide) _).trans rfl
  | @number sign whole fraction exponent h =>
    intro rest fuel hfollows hfuel
    obtain ⟨fuel, rfl⟩ := Nat.exists_eq_add_one_of_ne_zero (Nat.ne_zero_of_lt hfuel)
    have hstops : Stops rest := by
      rcases hfollows with ⟨items, heq⟩ | hstops
      · unfold numberOf at heq
        split at heq <;> cases heq
      · exact hstops
    have hhead : ∃ c tail, sign ++ whole ++ fraction ++ exponent ++ rest = c :: tail ∧
        c ≠ '"' ∧ c ≠ '\x7b' ∧ c ≠ '[' := by
      obtain ⟨c, tail, rfl, hc⟩ := h.whole_head
      rcases h.sign with rfl | rfl
      · refine ⟨c, _, rfl, ?_, ?_, ?_⟩ <;>
          · rintro rfl
            exact absurd hc (by decide)
      · exact ⟨'-', _, rfl, by decide⟩
    obtain ⟨c, tail, heq, hc⟩ := hhead
    have hnone := h.scanWord_none rest
    have hsome := h.complete readFloat hstops
    rw [heq] at hnone hsome ⊢
    rw [scanValue_scalar readFloat fuel hc, hnone, hsome]
    rfl
  | str h =>
    intro rest fuel _ hfuel
    obtain ⟨fuel, rfl⟩ := Nat.exists_eq_add_one_of_ne_zero (Nat.ne_zero_of_lt hfuel)
    simp only [List.cons_append, List.append_assoc, List.nil_append]
    rw [scanValue, scanString_complete h]
    rfl
  | emptyList hgap =>
    intro rest fuel _ hfuel
    obtain ⟨fuel, rfl⟩ := Nat.exists_eq_add_one_of_ne_zero (Nat.ne_zero_of_lt hfuel)
    simp only [List.cons_append, List.append_assoc, List.nil_append]
    rw [scanValue, skip_append hgap, skip_cons (by decide)]
    rfl
  | list hgap h ih =>
    intro rest fuel _ hfuel
    obtain ⟨fuel, rfl⟩ := Nat.exists_eq_add_one_of_ne_zero (Nat.ne_zero_of_lt hfuel)
    simp only [List.cons_append, List.append_assoc, List.nil_append, List.length_append,
      List.length_cons, List.length_nil] at hfuel ⊢
    have hbody := ih rest fuel (by omega)
    obtain ⟨c, tail, rfl, -, hc, -⟩ := h.head
    rw [scanValue, h.skip_gap hgap]
    simp only [List.cons_append] at hbody ⊢
    split
    · next heq => exact absurd (List.cons.inj heq).1 hc
    · rw [hbody]
      rfl
  | emptyMapping hgap =>
    intro rest fuel _ hfuel
    obtain ⟨fuel, rfl⟩ := Nat.exists_eq_add_one_of_ne_zero (Nat.ne_zero_of_lt hfuel)
    simp only [List.cons_append, List.append_assoc, List.nil_append]
    rw [scanValue, skip_append hgap, skip_cons (by decide)]
    rfl
  | mapping hgap h ih =>
    intro rest fuel _ hfuel
    obtain ⟨fuel, rfl⟩ := Nat.exists_eq_add_one_of_ne_zero (Nat.ne_zero_of_lt hfuel)
    simp only [List.cons_append, List.append_assoc, List.nil_append, List.length_append,
      List.length_cons, List.length_nil] at hfuel ⊢
    have hbody := ih rest fuel (by omega)
    obtain ⟨c, tail, rfl, -, -, hc⟩ := h.head
    rw [scanValue, h.skip_gap hgap]
    simp only [List.cons_append] at hbody ⊢
    split
    · next heq => exact absurd (List.cons.inj heq).1 hc
    · rw [hbody]
      rfl
  | lastElement h hgap ih =>
    intro rest fuel hfuel
    obtain ⟨fuel, rfl⟩ := Nat.exists_eq_add_one_of_ne_zero (Nat.ne_zero_of_lt hfuel)
    simp only [List.append_assoc, List.length_append] at hfuel ⊢
    have hstops := stops_gap hgap (stops_cons (by decide) rest : Stops (']' :: rest))
    rw [scanElements, ih _ fuel (.inr hstops) (by omega)]
    simp only [Option.bind_some, skip_append hgap, skip_cons (by decide : isBlank ']' = false)]
  | @element cs gap gap' rest value items h hgap hgap' hrest ih ihrest =>
    intro tail fuel hfuel
    obtain ⟨fuel, rfl⟩ := Nat.exists_eq_add_one_of_ne_zero (Nat.ne_zero_of_lt hfuel)
    simp only [List.append_assoc, List.cons_append, List.length_append, List.length_cons]
      at hfuel ⊢
    have hstops := stops_gap hgap
      (stops_cons (by decide) _ : Stops (',' :: (gap' ++ (rest ++ ']' :: tail))))
    rw [scanElements, ih _ fuel (.inr hstops) (by omega)]
    simp only [Option.bind_some, skip_append hgap, skip_cons (by decide : isBlank ',' = false),
      hrest.skip_gap hgap', ihrest tail fuel (by omega), Option.map_some]
  | lastMember hkey h h₁ h₂ h₃ ih =>
    intro rest fuel hfuel
    obtain ⟨fuel, rfl⟩ := Nat.exists_eq_add_one_of_ne_zero (Nat.ne_zero_of_lt hfuel)
    simp only [List.append_assoc, List.cons_append, List.length_append, List.length_cons]
      at hfuel ⊢
    have hstops := stops_gap h₃ (stops_cons (by decide) rest : Stops ('\x7d' :: rest))
    rw [scanMembers, scanString_complete hkey]
    simp only [Option.bind_some, skip_append h₁, skip_cons (by decide : isBlank ':' = false),
      h.skip_gap h₂, ih _ fuel (.inr hstops) (by omega), skip_append h₃,
      skip_cons (by decide : isBlank '\x7d' = false)]
  | @member key cs gap₁ gap₂ gap₃ gap₄ rest units value items hkey h h₁ h₂ h₃ h₄ hrest ih ihrest =>
    intro tail fuel hfuel
    obtain ⟨fuel, rfl⟩ := Nat.exists_eq_add_one_of_ne_zero (Nat.ne_zero_of_lt hfuel)
    simp only [List.append_assoc, List.cons_append, List.length_append, List.length_cons]
      at hfuel ⊢
    have hstops := stops_gap h₃
      (stops_cons (by decide) _ : Stops (',' :: (gap₄ ++ (rest ++ '\x7d' :: tail))))
    rw [scanMembers, scanString_complete hkey]
    simp only [Option.bind_some, skip_append h₁, skip_cons (by decide : isBlank ':' = false),
      h.skip_gap h₂, ih _ fuel (.inr hstops) (by omega), skip_append h₃,
      skip_cons (by decide : isBlank ',' = false), hrest.skip_gap h₄,
      ihrest tail fuel (by omega), Option.map_some]

/-- The decoder reads an object, whatever stands behind it. -/
theorem rawDecode_complete {readFloat : List Char → String} {cs : List Char}
    {items : List (List Nat × Value)} (h : Denotes readFloat cs (.value (.mapping items)))
    (rest : List Char) : rawDecode readFloat (cs ++ rest) = some (.mapping items, rest) := by
  refine h.read rest _ (.inl ⟨items, rfl⟩) ?_
  rw [List.length_append]
  omega

/-! ## Soundness -/

theorem scanValue_sound {readFloat : List Char → String} {fuel : Nat}
    (hmembers : ∀ cs items rest, scanMembers readFloat fuel cs = some (items, rest) →
      ∃ text, cs = text ++ '\x7d' :: rest ∧ Denotes readFloat text (.members items))
    (helements : ∀ cs items rest, scanElements readFloat fuel cs = some (items, rest) →
      ∃ text, cs = text ++ ']' :: rest ∧ Denotes readFloat text (.elements items))
    {cs : List Char} {value : Value} {rest : List Char}
    (h : scanValue readFloat (fuel + 1) cs = some (value, rest)) :
    ∃ text, cs = text ++ rest ∧ Denotes readFloat text (.value value) := by
  rw [scanValue.eq_def] at h
  simp only at h
  split at h
  · next tail =>
    obtain ⟨⟨units, rest'⟩, hscan, heq⟩ := Option.map_eq_some_iff.mp h
    cases heq
    obtain ⟨text, rfl, htext⟩ := scanString_sound hscan
    exact ⟨'"' :: text ++ ['"'], by simp, .str htext⟩
  · next tail =>
    obtain ⟨gap, hgap, hskip⟩ := skip_split tail
    split at h
    · next rest' heq =>
      cases h
      rw [hskip, heq]
      exact ⟨'\x7b' :: gap ++ ['\x7d'], by simp, .emptyMapping hgap⟩
    · obtain ⟨⟨items, rest'⟩, hscan, heq⟩ := Option.map_eq_some_iff.mp h
      cases heq
      obtain ⟨text, htext, hdenotes⟩ := hmembers _ _ _ hscan
      rw [hskip, htext]
      exact ⟨'\x7b' :: gap ++ text ++ ['\x7d'], by simp, .mapping hgap hdenotes⟩
  · next tail =>
    obtain ⟨gap, hgap, hskip⟩ := skip_split tail
    split at h
    · next rest' heq =>
      cases h
      rw [hskip, heq]
      exact ⟨'[' :: gap ++ [']'], by simp, .emptyList hgap⟩
    · obtain ⟨⟨items, rest'⟩, hscan, heq⟩ := Option.map_eq_some_iff.mp h
      cases heq
      obtain ⟨text, htext, hdenotes⟩ := helements _ _ _ hscan
      rw [hskip, htext]
      exact ⟨'[' :: gap ++ text ++ [']'], by simp, .list hgap hdenotes⟩
  · rcases Option.or_eq_some_iff.mp h with hword | ⟨-, hnumber⟩
    · obtain ⟨word, hmem, rfl, heq⟩ := scanWord_sound hword
      exact ⟨word.1, heq, .word hmem⟩
    · obtain ⟨sign, whole, fraction, exponent, hparts, heq, rfl⟩ := scanNumber_sound hnumber
      exact ⟨_, heq, .number hparts⟩

theorem scanMembers_sound {readFloat : List Char → String} {fuel : Nat}
    (hvalue : ∀ cs value rest, scanValue readFloat fuel cs = some (value, rest) →
      ∃ text, cs = text ++ rest ∧ Denotes readFloat text (.value value))
    (hmembers : ∀ cs items rest, scanMembers readFloat fuel cs = some (items, rest) →
      ∃ text, cs = text ++ '\x7d' :: rest ∧ Denotes readFloat text (.members items))
    {cs : List Char} {items : List (List Nat × Value)} {rest : List Char}
    (h : scanMembers readFloat (fuel + 1) cs = some (items, rest)) :
    ∃ text, cs = text ++ '\x7d' :: rest ∧ Denotes readFloat text (.members items) := by
  rw [scanMembers.eq_def] at h
  simp only at h
  split at h
  · obtain ⟨⟨units, cs₁⟩, hstring, hvalueNext⟩ := Option.bind_eq_some_iff.mp h
    obtain ⟨key, hkeyText, hkey⟩ := scanString_sound hstring
    obtain ⟨gap₁, h₁, hskip₁⟩ := skip_split cs₁
    simp only at hvalueNext
    split at hvalueNext
    · next cs₂ hcolon =>
      obtain ⟨⟨value, cs₃⟩, hscan, hnext⟩ := Option.bind_eq_some_iff.mp hvalueNext
      obtain ⟨gap₂, h₂, hskip₂⟩ := skip_split cs₂
      obtain ⟨text, htext, hdenotes⟩ := hvalue _ _ _ hscan
      obtain ⟨gap₃, h₃, hskip₃⟩ := skip_split cs₃
      simp only at hnext
      split at hnext
      · next rest' hbrace =>
        cases hnext
        rw [hkeyText, hskip₁, hcolon, hskip₂, htext, hskip₃, hbrace]
        exact ⟨_, by simp, .lastMember hkey hdenotes h₁ h₂ h₃⟩
      · next cs₄ hcomma =>
        obtain ⟨⟨items', rest'⟩, hrest, heq⟩ := Option.map_eq_some_iff.mp hnext
        cases heq
        obtain ⟨gap₄, h₄, hskip₄⟩ := skip_split cs₄
        obtain ⟨text', htext', hdenotes'⟩ := hmembers _ _ _ hrest
        rw [hkeyText, hskip₁, hcolon, hskip₂, htext, hskip₃, hcomma, hskip₄, htext']
        exact ⟨_, by simp, .member hkey hdenotes h₁ h₂ h₃ h₄ hdenotes'⟩
      · cases hnext
    · cases hvalueNext
  · cases h

theorem scanElements_sound {readFloat : List Char → String} {fuel : Nat}
    (hvalue : ∀ cs value rest, scanValue readFloat fuel cs = some (value, rest) →
      ∃ text, cs = text ++ rest ∧ Denotes readFloat text (.value value))
    (helements : ∀ cs items rest, scanElements readFloat fuel cs = some (items, rest) →
      ∃ text, cs = text ++ ']' :: rest ∧ Denotes readFloat text (.elements items))
    {cs : List Char} {items : List Value} {rest : List Char}
    (h : scanElements readFloat (fuel + 1) cs = some (items, rest)) :
    ∃ text, cs = text ++ ']' :: rest ∧ Denotes readFloat text (.elements items) := by
  rw [scanElements] at h
  obtain ⟨⟨value, cs₁⟩, hscan, hnext⟩ := Option.bind_eq_some_iff.mp h
  obtain ⟨text, htext, hdenotes⟩ := hvalue _ _ _ hscan
  obtain ⟨gap, hgap, hskip⟩ := skip_split cs₁
  simp only at hnext
  split at hnext
  · next rest' hbracket =>
    cases hnext
    rw [htext, hskip, hbracket]
    exact ⟨text ++ gap, by simp, .lastElement hdenotes hgap⟩
  · next cs₂ hcomma =>
    obtain ⟨⟨items', rest'⟩, hrest, heq⟩ := Option.map_eq_some_iff.mp hnext
    cases heq
    obtain ⟨gap', hgap', hskip'⟩ := skip_split cs₂
    obtain ⟨text', htext', hdenotes'⟩ := helements _ _ _ hrest
    rw [htext, hskip, hcomma, hskip', htext']
    exact ⟨_, by simp, .element hdenotes hgap hgap' hdenotes'⟩
  · cases hnext

/-- What any of the scanners reads is a phrase of the grammar. -/
theorem scan_sound (readFloat : List Char → String) (fuel : Nat) :
    (∀ cs value rest, scanValue readFloat fuel cs = some (value, rest) →
      ∃ text, cs = text ++ rest ∧ Denotes readFloat text (.value value)) ∧
    (∀ cs items rest, scanMembers readFloat fuel cs = some (items, rest) →
      ∃ text, cs = text ++ '\x7d' :: rest ∧ Denotes readFloat text (.members items)) ∧
    (∀ cs items rest, scanElements readFloat fuel cs = some (items, rest) →
      ∃ text, cs = text ++ ']' :: rest ∧ Denotes readFloat text (.elements items)) := by
  induction fuel with
  | zero =>
    refine ⟨fun _ _ _ h => ?_, fun _ _ _ h => ?_, fun _ _ _ h => ?_⟩
    · rw [scanValue] at h
      cases h
    · rw [scanMembers] at h
      cases h
    · rw [scanElements] at h
      cases h
  | succ fuel ih =>
    obtain ⟨hvalue, hmembers, helements⟩ := ih
    exact ⟨fun _ _ _ h => scanValue_sound hmembers helements h,
      fun _ _ _ h => scanMembers_sound hvalue hmembers h,
      fun _ _ _ h => scanElements_sound hvalue helements h⟩

theorem rawDecode_sound {readFloat : List Char → String} {cs : List Char} {value : Value}
    {rest : List Char} (h : rawDecode readFloat cs = some (value, rest)) :
    ∃ text, cs = text ++ rest ∧ Denotes readFloat text (.value value) :=
  (scan_sound readFloat _).1 _ _ _ h

/-- An object begins with a brace. -/
theorem Denotes.brace {readFloat : List Char → String} {cs : List Char}
    {payload : List (List Nat × Value)} (h : Denotes readFloat cs (.value (.mapping payload))) :
    ∃ tail, cs = '\x7b' :: tail := by
  generalize hphrase : Phrase.value (.mapping payload) = phrase at h
  cases h with
  | emptyMapping => exact ⟨_, rfl⟩
  | mapping => exact ⟨_, rfl⟩
  | word h =>
    simp only [words, List.mem_cons, List.not_mem_nil, or_false] at h
    rcases h with rfl | rfl | rfl | rfl | rfl | rfl <;> cases hphrase
  | number h =>
    unfold numberOf at hphrase
    split at hphrase <;> cases hphrase
  | str => cases hphrase
  | emptyList => cases hphrase
  | list => cases hphrase
  | lastElement => cases hphrase
  | element => cases hphrase
  | lastMember => cases hphrase
  | member => cases hphrase

/-- A text is the text of one object at most. -/
theorem Denotes.unique {readFloat : List Char → String} {cs : List Char}
    {items items' : List (List Nat × Value)} (h : Denotes readFloat cs (.value (.mapping items)))
    (h' : Denotes readFloat cs (.value (.mapping items'))) : items = items' := by
  have heq := (rawDecode_complete h []).symm.trans (rawDecode_complete h' [])
  injection Option.some.inj heq with hvalue
  exact Value.mapping.inj hvalue

end JsonText

end Library
