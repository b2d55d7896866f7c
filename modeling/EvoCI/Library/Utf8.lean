import Mathlib.Data.List.Basic
import Mathlib.Tactic.SplitIfs

/-! Decoding of UTF-8 with replacement: every ill-formed sequence, taken as long as it is the
start of a well-formed one, is read as one replacement character. -/

namespace Library

namespace Utf8

/-- What is left of a character after its leading byte: how many bytes, the bounds of the next
one, and the value read so far. -/
structure Pending where
  left : Nat
  lower : Nat
  upper : Nat
  value : Nat
  deriving DecidableEq, Repr

/-- What a leading byte begins; `none` where no character begins with it. -/
def lead (b : Nat) : Option Pending :=
  if 0xc2 ≤ b ∧ b ≤ 0xdf then some ⟨0, 0x80, 0xbf, b - 0xc0⟩
  else if b = 0xe0 then some ⟨1, 0xa0, 0xbf, 0⟩
  else if b = 0xed then some ⟨1, 0x80, 0x9f, 0xd⟩
  else if 0xe1 ≤ b ∧ b ≤ 0xef then some ⟨1, 0x80, 0xbf, b - 0xe0⟩
  else if b = 0xf0 then some ⟨2, 0x90, 0xbf, 0⟩
  else if b = 0xf4 then some ⟨2, 0x80, 0x8f, 4⟩
  else if 0xf1 ≤ b ∧ b ≤ 0xf3 then some ⟨2, 0x80, 0xbf, b - 0xf0⟩
  else none

def replacement : Char := '\uFFFD'

/-- A byte where a character begins: the characters it completes and what it leaves open. -/
def first (b : Nat) : List Char × Option Pending :=
  if b < 0x80 then ([Char.ofNat b], none)
  else
    match lead b with
    | some pending => ([], some pending)
    | none => ([replacement], none)

/-- One byte; a byte that does not continue what is open begins anew. -/
def next (open? : Option Pending) (b : Nat) : List Char × Option Pending :=
  match open? with
  | none => first b
  | some p =>
    if p.lower ≤ b ∧ b ≤ p.upper then
      match p.left with
      | 0 => ([Char.ofNat (p.value * 64 + (b - 0x80))], none)
      | left + 1 => ([], some ⟨left, 0x80, 0xbf, p.value * 64 + (b - 0x80)⟩)
    else
      let (chars, open?) := first b
      (replacement :: chars, open?)

def decodeFrom : Option Pending → List UInt8 → List Char
  | none, [] => []
  | some _, [] => [replacement]
  | open?, b :: bytes =>
    (next open? b.toNat).1 ++ decodeFrom (next open? b.toNat).2 bytes

/-- `bytes.decode("utf-8", errors="replace")`. -/
def decodeReplace (bytes : List UInt8) : List Char := decodeFrom none bytes

theorem decodeFrom_cons (open? : Option Pending) (b : UInt8) (bytes : List UInt8) :
    decodeFrom open? (b :: bytes) =
      (next open? b.toNat).1 ++ decodeFrom (next open? b.toNat).2 bytes := by
  cases open? <;> rw [decodeFrom]

/-! ## Encoded text reads back -/

/-- What is open after a leading byte admits `y` next and has read the value `x`. -/
def Opens (b left x y : Nat) : Prop :=
  ∃ p, lead b = some p ∧ p.left = left ∧ p.value = x ∧ p.lower ≤ y + 0x80 ∧ y + 0x80 ≤ p.upper

theorem opens_two {x y : Nat} (hx : 2 ≤ x ∧ x < 32) (hy : y < 64) : Opens (x + 0xc0) 0 x y := by
  refine ⟨⟨0, 0x80, 0xbf, x + 0xc0 - 0xc0⟩, ?_, rfl, by simp, by simp, by simp; omega⟩
  rw [lead, if_pos (by omega)]

theorem opens_three {x y : Nat} (hx : x < 16) (hy : y < 64) (hlow : x = 0 → 32 ≤ y)
    (hhigh : x = 13 → y < 32) : Opens (x + 0xe0) 1 x y := by
  rw [Opens, lead, if_neg (by omega)]
  by_cases h0 : x = 0
  · rw [if_pos (by omega)]
    exact ⟨_, rfl, rfl, h0.symm, by simp; omega, by simp; omega⟩
  by_cases h13 : x = 13
  · rw [if_neg (by omega), if_pos (by omega)]
    exact ⟨_, rfl, rfl, h13.symm, by simp, by simp; omega⟩
  · rw [if_neg (by omega), if_neg (by omega), if_pos (by omega)]
    exact ⟨_, rfl, rfl, by simp, by simp, by simp; omega⟩

theorem opens_four {x y : Nat} (hx : x ≤ 4) (hy : y < 64) (hlow : x = 0 → 16 ≤ y)
    (hhigh : x = 4 → y < 16) : Opens (x + 0xf0) 2 x y := by
  rw [Opens, lead, if_neg (by omega), if_neg (by omega), if_neg (by omega), if_neg (by omega)]
  by_cases h0 : x = 0
  · rw [if_pos (by omega)]
    exact ⟨_, rfl, rfl, h0.symm, by simp; omega, by simp; omega⟩
  by_cases h4 : x = 4
  · rw [if_neg (by omega), if_pos (by omega)]
    exact ⟨_, rfl, rfl, h4.symm, by simp, by simp; omega⟩
  · rw [if_neg (by omega), if_neg (by omega), if_pos (by omega)]
    exact ⟨_, rfl, rfl, by simp, by simp, by simp; omega⟩

theorem next_lead {b : Nat} {p : Pending} (hb : 0x80 ≤ b) (h : lead b = some p) :
    next none b = ([], some p) := by
  rw [next, first, if_neg (by omega), h]

theorem next_last {p : Pending} {y : Nat} (hleft : p.left = 0) (hlow : p.lower ≤ y + 0x80)
    (hhigh : y + 0x80 ≤ p.upper) :
    next (some p) (y + 0x80) = ([Char.ofNat (p.value * 64 + y)], none) := by
  simp only [next]
  rw [if_pos ⟨hlow, hhigh⟩, hleft]
  simp

theorem next_more {p : Pending} {y left : Nat} (hleft : p.left = left + 1)
    (hlow : p.lower ≤ y + 0x80) (hhigh : y + 0x80 ≤ p.upper) :
    next (some p) (y + 0x80) = ([], some ⟨left, 0x80, 0xbf, p.value * 64 + y⟩) := by
  simp only [next]
  rw [if_pos ⟨hlow, hhigh⟩, hleft]
  simp

theorem toNat_ofNat {n : Nat} (h : n < 256) : (UInt8.ofNat n).toNat = n := by
  simp only [UInt8.toNat_ofNat']
  omega

/-- A character is read from its own bytes, whatever follows them. -/
theorem decodeFrom_utf8EncodeChar (c : Char) (rest : List UInt8) :
    decodeFrom none (String.utf8EncodeChar c ++ rest) = c :: decodeFrom none rest := by
  have hvalid : c.val.toNat < 0xd800 ∨ 0xdfff < c.val.toNat ∧ c.val.toNat < 0x110000 := c.valid
  have hc : Char.ofNat c.val.toNat = c := Char.ofNat_toNat c
  generalize hv : c.val.toNat = v at hvalid hc
  simp only [String.utf8EncodeChar, hv]
  split_ifs with h1 h2 h3
  · rw [List.singleton_append, decodeFrom_cons, toNat_ofNat (by omega), next, first,
      if_pos (by omega), hc]
    rfl
  · obtain ⟨p, hp, hleft, hvalue, hlow, hhigh⟩ :=
      opens_two (x := v / 64 % 32) (y := v % 64) (by omega) (by omega)
    have hwhole : v / 64 % 32 * 64 + v % 64 = v := by omega
    simp only [List.cons_append, List.nil_append, decodeFrom_cons]
    rw [toNat_ofNat (by omega), toNat_ofNat (by omega), next_lead (by omega) hp,
      next_last hleft hlow hhigh, hvalue, hwhole, hc]
    rfl
  · obtain ⟨p, hp, hleft, hvalue, hlow, hhigh⟩ :=
      opens_three (x := v / 4096 % 16) (y := v / 64 % 64) (by omega) (by omega) (by omega)
        (by omega)
    have hwhole : (v / 4096 % 16 * 64 + v / 64 % 64) * 64 + v % 64 = v := by omega
    simp only [List.cons_append, List.nil_append, decodeFrom_cons]
    rw [toNat_ofNat (by omega), toNat_ofNat (by omega), toNat_ofNat (by omega),
      next_lead (by omega) hp, next_more hleft hlow hhigh, hvalue,
      next_last rfl (by simp) (by simp; omega), hwhole, hc]
    rfl
  · obtain ⟨p, hp, hleft, hvalue, hlow, hhigh⟩ :=
      opens_four (x := v / 262144 % 8) (y := v / 4096 % 64) (by omega) (by omega) (by omega)
        (by omega)
    have hwhole : ((v / 262144 % 8 * 64 + v / 4096 % 64) * 64 + v / 64 % 64) * 64 + v % 64 = v := by
      omega
    simp only [List.cons_append, List.nil_append, decodeFrom_cons]
    rw [toNat_ofNat (by omega), toNat_ofNat (by omega), toNat_ofNat (by omega),
      toNat_ofNat (by omega), next_lead (by omega) hp, next_more hleft hlow hhigh, hvalue,
      next_more rfl (by simp) (by simp; omega), next_last rfl (by simp) (by simp; omega), hwhole,
      hc]
    rfl

/-- Encoded characters are read back. -/
theorem decodeReplace_encoded (cs : List Char) :
    decodeReplace (cs.flatMap String.utf8EncodeChar) = cs := by
  induction cs with
  | nil => rfl
  | cons c cs ih =>
    rw [List.flatMap_cons, decodeReplace, decodeFrom_utf8EncodeChar]
    exact congrArg (c :: ·) ih

/-! ## Bytes without their beginning -/

theorem length_first (b : Nat) :
    (first b).1.length + (if (first b).2.isSome then 1 else 0) = 1 := by
  rw [first]
  split
  · rfl
  · cases lead b <;> rfl

theorem length_next (open? : Option Pending) (b : Nat) :
    (next open? b).1.length + (if (next open? b).2.isSome then 1 else 0) ≤
      (if open?.isSome then 1 else 0) + 1 := by
  have hfirst := length_first b
  cases open? with
  | none => exact Nat.le_of_eq hfirst
  | some p =>
    simp only [next]
    split
    · cases p.left <;> simp
    · simp only [List.length_cons, Option.isSome_some, if_true]
      omega

theorem length_decodeFrom (open? : Option Pending) (bytes : List UInt8) :
    (decodeFrom open? bytes).length ≤ bytes.length + (if open?.isSome then 1 else 0) := by
  induction bytes generalizing open? with
  | nil => cases open? <;> simp [decodeFrom]
  | cons b bytes ih =>
    have hnext := length_next open? b.toNat
    have hrest := ih (next open? b.toNat).2
    rw [decodeFrom_cons, List.length_append, List.length_cons]
    omega

/-- No more characters are read than there are bytes. -/
theorem length_decodeReplace (bytes : List UInt8) :
    (decodeReplace bytes).length ≤ bytes.length := length_decodeFrom none bytes

/-- A byte that only continues a character. -/
def Continues (b : UInt8) : Prop := 0x80 ≤ b.toNat ∧ b.toNat < 0xc0

/-- A byte that continues nothing is read as a replacement. -/
theorem decodeFrom_continues {b : UInt8} (h : Continues b) (rest : List UInt8) :
    decodeFrom none (b :: rest) = replacement :: decodeFrom none rest := by
  have hlead : lead b.toNat = none := by
    obtain ⟨hlow, hhigh⟩ := h
    rw [lead]
    split_ifs <;> first | rfl | omega
  rw [decodeFrom_cons, next, first, if_neg (Nat.not_lt.mpr h.1), hlead]
  rfl

theorem decodeFrom_allContinue {bytes : List UInt8} (h : ∀ b ∈ bytes, Continues b)
    (rest : List UInt8) :
    decodeFrom none (bytes ++ rest) =
      List.replicate bytes.length replacement ++ decodeFrom none rest := by
  induction bytes with
  | nil => rfl
  | cons b bytes ih =>
    rw [List.cons_append, decodeFrom_continues (h b List.mem_cons_self),
      ih fun other hother => h other (List.mem_cons_of_mem b hother)]
    rfl

/-- What follows the first byte of a character: three bytes at most, which continue it. -/
theorem tail_utf8EncodeChar (c : Char) :
    (String.utf8EncodeChar c).tail.length ≤ 3 ∧
      ∀ b ∈ (String.utf8EncodeChar c).tail, Continues b := by
  have hcontinues (n : Nat) : Continues (UInt8.ofNat (n % 64 + 0x80)) := by
    rw [Continues, toNat_ofNat (by omega)]
    omega
  generalize hv : c.val.toNat = v
  simp only [String.utf8EncodeChar, hv]
  split_ifs
  · exact ⟨Nat.zero_le 3, fun b hb => absurd hb List.not_mem_nil⟩
  · exact ⟨by simp, List.forall_mem_singleton.mpr (hcontinues v)⟩
  · exact ⟨by simp, List.forall_mem_cons.mpr ⟨hcontinues (v / 64),
      List.forall_mem_singleton.mpr (hcontinues v)⟩⟩
  · exact ⟨by simp, List.forall_mem_cons.mpr ⟨hcontinues (v / 4096),
      List.forall_mem_cons.mpr ⟨hcontinues (v / 64),
        List.forall_mem_singleton.mpr (hcontinues v)⟩⟩⟩

/-- Encoded text whose first bytes are missing: three replacements at most, and what is left of
the characters. -/
theorem decodeReplace_drop (cs : List Char) (n : Nat) :
    ∃ k j, k ≤ 3 ∧ decodeReplace ((cs.flatMap String.utf8EncodeChar).drop n) =
      List.replicate k replacement ++ cs.drop j := by
  induction cs generalizing n with
  | nil => exact ⟨0, 0, Nat.zero_le 3, by simp [decodeReplace, decodeFrom]⟩
  | cons c cs ih =>
    cases n with
    | zero => exact ⟨0, 0, Nat.zero_le 3, decodeReplace_encoded (c :: cs)⟩
    | succ n =>
      obtain ⟨hlength, hcontinue⟩ := tail_utf8EncodeChar c
      obtain ⟨b, bytes, hbytes⟩ : ∃ b bytes, String.utf8EncodeChar c = b :: bytes :=
        List.exists_cons_of_ne_nil String.utf8EncodeChar_ne_nil
      rw [hbytes, List.tail_cons] at hlength hcontinue
      rw [List.flatMap_cons, hbytes, List.cons_append, List.drop_succ_cons]
      rcases Nat.le_total n bytes.length with hle | hle
      · refine ⟨(bytes.drop n).length, 1, by rw [List.length_drop]; omega, ?_⟩
        rw [List.drop_append_of_le_length hle, decodeReplace, decodeFrom_allContinue
          fun other hother => hcontinue other (List.mem_of_mem_drop hother)]
        exact congrArg _ (decodeReplace_encoded cs)
      · obtain ⟨k, j, hk, hdrop⟩ := ih (n - bytes.length)
        refine ⟨k, j + 1, hk, ?_⟩
        rw [List.drop_append, List.drop_eq_nil_of_le hle, List.nil_append, hdrop]
        rfl

end Utf8

end Library
