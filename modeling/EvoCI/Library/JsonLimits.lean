import EvoCI.Library.JsonText

/-! The limits under which an interpreter decodes: the digits of an integer and how deep lists and
objects stand in each other. The decoder reads from the left, so that it runs over a limit in front
of an error as well as inside a value. -/

namespace Library

namespace JsonText

/-- Without a number there is no limit. -/
structure Limits where
  digits : Option Nat := none
  depth : Option Nat := none

/-- One more list or object may be opened at this level. -/
def Limits.Opens (limits : Limits) (level : Nat) : Prop := ∀ most ∈ limits.depth, level < most

instance (limits : Limits) (level : Nat) : Decidable (limits.Opens level) :=
  inferInstanceAs (Decidable (∀ most ∈ limits.depth, level < most))

inductive Overrun where
  | digits (most found : Nat)
  | depth
  deriving DecidableEq, Repr

inductive DecodeFailure where
  | syntaxError
  | overrun (limit : Overrun)
  deriving DecidableEq, Repr

/-! ## Running over a limit -/

/-- Floats may have any number of digits. -/
def overrunNumber (limits : Limits) (cs : List Char) : Option Overrun :=
  let cs := cs.drop (signOf cs).length
  let whole := wholeOf cs
  let cs := cs.drop whole.length
  let fraction := fractionOf cs
  let exponent := exponentOf (cs.drop fraction.length)
  limits.digits.bind fun most =>
    if fraction = [] ∧ exponent = [] ∧ most < whole.length then some (.digits most whole.length)
    else none

section

variable (readFloat : List Char → String) (limits : Limits)

mutual

/-- Whether the decoder of one value runs over a limit before it returns or fails; the last number
is that of the lists and objects around the value. -/
def overrunValue : Nat → Nat → List Char → Option Overrun
  | 0, _, _ => none
  | fuel + 1, level, cs =>
    match cs with
    | '"' :: _ => none
    | '\x7b' :: cs =>
      if limits.Opens level then
        match skip cs with
        | '\x7d' :: _ => none
        | cs => overrunMembers fuel (level + 1) cs
      else some .depth
    | '[' :: cs =>
      if limits.Opens level then
        match skip cs with
        | ']' :: _ => none
        | cs => overrunElements fuel (level + 1) cs
      else some .depth
    | cs => if (scanWord cs).isSome then none else overrunNumber limits cs

/-- The same of the members of an object. -/
def overrunMembers : Nat → Nat → List Char → Option Overrun
  | 0, _, _ => none
  | fuel + 1, level, cs =>
    match cs with
    | '"' :: cs =>
      (scanString cs).bind fun (_, cs) =>
        match skip cs with
        | ':' :: cs =>
          (overrunValue fuel level (skip cs)).or <|
            (scanValue readFloat fuel (skip cs)).bind fun (_, cs) =>
              match skip cs with
              | ',' :: cs => overrunMembers fuel level (skip cs)
              | _ => none
        | _ => none
    | _ => none

/-- The same of the elements of a list. -/
def overrunElements : Nat → Nat → List Char → Option Overrun
  | 0, _, _ => none
  | fuel + 1, level, cs =>
    (overrunValue fuel level cs).or <|
      (scanValue readFloat fuel cs).bind fun (_, cs) =>
        match skip cs with
        | ',' :: cs => overrunElements fuel level (skip cs)
        | _ => none

end

/-- The same of `raw_decode`. -/
def overrun (cs : List Char) : Option Overrun := overrunValue readFloat limits (cs.length + 1) 0 cs

/-- `JSONDecoder().raw_decode` under the limits. -/
def limitedDecode (cs : List Char) : Except DecodeFailure (Value × List Char) :=
  match overrun readFloat limits cs with
  | some limit => .error (.overrun limit)
  | none =>
    match rawDecode readFloat cs with
    | some found => .ok found
    | none => .error .syntaxError

end

end JsonText

end Library
