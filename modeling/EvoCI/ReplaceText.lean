import EvoCI.CarryOver
import EvoCI.Library.Splice

/-! What `replace_text` does to the bytes of a file: text mode reads carriage returns away
before the replacement, and the rewrite does not bring them back. -/

namespace EvoCI

open Library

/-! ## Bytes of a text -/

theorem encode_ofList (cs : List Char) :
    encode (String.ofList cs) = cs.flatMap String.utf8EncodeChar := by
  have hlist : ∀ bytes : ByteArray, bytes.toList = bytes.data.toList := by
    intro bytes
    simp [ByteArray.toList, toList_loop]
  show (String.ofList cs).toByteArray.toList = _
  rw [hlist, String.toByteArray_ofList, List.utf8Encode]
  simp

theorem encode_eq (text : String) : encode text = text.toList.flatMap String.utf8EncodeChar := by
  rw [← encode_ofList, String.ofList_toList]

/-- An ASCII byte stands for nothing but its character. -/
theorem ascii_of_mem_utf8EncodeChar {n : Nat} (hn : n < 128) {c : Char}
    (h : UInt8.ofNat n ∈ String.utf8EncodeChar c) : c = Char.ofNat n := by
  have hbyte : ∀ m : Nat, UInt8.ofNat n = UInt8.ofNat m → m % 256 = n := by
    intro m hm
    have hval := congrArg UInt8.toNat hm
    simp only [UInt8.toNat_ofNat'] at hval
    omega
  unfold String.utf8EncodeChar at h
  simp only at h
  split at h
  · have hval := hbyte _ (List.mem_singleton.1 h)
    have hchar : c.toNat = n := by
      simp only [Char.toNat]
      omega
    rw [← hchar, Char.ofNat_toNat]
  · split at h
    · simp only [List.mem_cons, List.not_mem_nil, or_false] at h
      rcases h with h | h <;> have := hbyte _ h <;> omega
    · split at h
      · simp only [List.mem_cons, List.not_mem_nil, or_false] at h
        rcases h with h | h | h <;> have := hbyte _ h <;> omega
      · simp only [List.mem_cons, List.not_mem_nil, or_false] at h
        rcases h with h | h | h | h <;> have := hbyte _ h <;> omega

theorem ascii_of_mem_encode {n : Nat} (hn : n < 128) {text : String}
    (h : UInt8.ofNat n ∈ encode text) : Char.ofNat n ∈ text.toList := by
  rw [encode_eq, List.mem_flatMap] at h
  obtain ⟨c, hc, hbyte⟩ := h
  rwa [ascii_of_mem_utf8EncodeChar hn hbyte] at hc

/-- The byte of a carriage return. -/
def crByte : UInt8 := 13

theorem cr_mem_encode (text : String) : crByte ∈ encode text ↔ '\r' ∈ text.toList := by
  constructor
  · intro h
    have hn : (13 : Nat) < 128 := by omega
    exact ascii_of_mem_encode hn h
  · intro h
    rw [encode_eq, List.mem_flatMap]
    exact ⟨'\r', h, by decide⟩

/-- Text mode changes a text exactly when its bytes hold a carriage return. -/
theorem stable_iff_count (text : String) : Stable text ↔ (encode text).count crByte = 0 := by
  rw [stable_iff, ← cr_mem_encode, List.count_eq_zero]

/-! ## Occurrences -/

/-- What is counted is what is replaced. -/
theorem replaceFrom_spliced {old new : List Char} (hold : old ≠ []) (skip : Nat)
    (cs : List Char) :
    Spliced old new (countFrom old skip cs) (cs.drop skip)
      (replaceFrom old new skip (countFrom old skip cs) cs) := by
  induction cs generalizing skip with
  | nil =>
    cases skip <;> simp [countFrom, replaceFrom, Spliced]
  | cons c cs ih =>
    cases skip with
    | succ skip => exact ih skip
    | zero =>
      by_cases hfound : old.isPrefixOf (c :: cs) = true
      · obtain ⟨rest, hrest⟩ := List.isPrefixOf_iff_prefix.1 hfound
        obtain ⟨first, others, rfl⟩ := List.exists_cons_of_ne_nil hold
        have hdrop : cs.drop others.length = rest := by
          have hcs := (List.cons.inj hrest).2
          rw [← hcs]
          simp
        have hnext := ih others.length
        simp only [countFrom, replaceFrom, hfound, if_true, List.length_cons, Nat.add_sub_cancel]
        rw [hdrop] at hnext
        exact ⟨[], rest, _, by simpa using hrest.symm, by simp, hnext⟩
      · have hnext := (ih 0).cons c
        simp only [countFrom, if_neg hfound]
        cases hcount : countFrom old 0 cs with
        | zero =>
          simp [replaceFrom, Spliced]
        | succ count =>
          rw [hcount] at hnext
          simp only [replaceFrom, if_neg hfound]
          exact hnext

/-- Replacing all occurrences of a text in another, in bytes. -/
theorem replaceText_spliced {old new text : String} (hold : old ≠ "") :
    Spliced (encode old) (encode new) (countText old text) (encode text)
      (encode (replaceText old new (countText old text) text)) := by
  have hne : old.toList ≠ [] := by simpa using hold
  have hchars := @replaceFrom_spliced old.toList new.toList hne 0 text.toList
  rw [replaceText, encode_ofList, encode_eq old, encode_eq new, encode_eq text]
  exact hchars.flatMap _

/-! ## The tool -/

/-- The text of a file as text mode reads it. -/
def textRead (text : String) : String := String.ofList (universalNewlines text.toList)

/-- A file's new bytes are its old ones with that many occurrences replaced, its mode is the
old one, and no other file is changed. -/
def ReplacedExactly (files files' : Files) (target : Loc) (oldText newText : String)
    (replacements : Int) (text : String) (mode : Nat) : Prop :=
  Files.Touches files files' (· = target) ∧
    ∃ content, files'.fileAt target = some (content, mode) ∧
      ∃ count : Nat, (count : Int) = replacements ∧
        Spliced (encode oldText) (encode newText) count (encode text) content.bytes

section

variable {files files' : Files} {denied : Loc → Bool} {root target : Loc} {text : String}
  {mode : Nat}

/-- What a call that succeeds leaves in the file. -/
theorem replaceText_ok {path oldText newText : String} {replacements : Int}
    {result : PatchApplicationResult} (htarget : files.boundaryResolve root path = .ok target)
    (hfile : files.fileAt target = some (.utf8 text, mode))
    (h : files.replaceText denied root path oldText newText replacements =
      .ok (files', result)) :
    oldText ≠ "" ∧ (countText oldText (textRead text) : Int) = replacements ∧
      Files.Touches files files' (· = target) ∧
      files'.fileAt target = some (.utf8 (replaceText oldText newText
        (countText oldText (textRead text)) (textRead text)), mode) := by
  unfold Files.replaceText at h
  split at h
  · cases h
  next hold =>
    split at h
    · cases h
    next target' hresolved =>
      have hsame : target' = target := by
        have hfound := (resolveRegularFile_ok hresolved).1
        rw [htarget] at hfound
        exact (Except.ok.inj hfound).symm
      subst hsame
      have hread : files.readTextOrNone target' = .ok (some (textRead text)) := by
        simp [Files.readTextOrNone, hfile, Content.readText, textRead, Except.map]
      rw [hread] at h
      simp only [Option.getD_some] at h
      split at h
      · cases h
      next hcount =>
        obtain ⟨written, hwritten, hpair⟩ : ∃ written, files.writeFile denied root path
            (replaceText oldText newText (countText oldText (textRead text)) (textRead text))
            none = .ok written ∧ written = files' := by
          revert h
          cases files.writeFile denied root path (replaceText oldText newText
            (countText oldText (textRead text)) (textRead text)) none with
          | error e => intro h; cases h
          | ok written =>
            intro h
            simp only [Except.map, Except.ok.injEq, Prod.mk.injEq] at h
            exact ⟨written, rfl, h.1⟩
        subst hpair
        obtain ⟨target'', htarget'', htouches, hnew⟩ := Files.writeFile_ok hwritten
        rw [htarget] at htarget''
        cases htarget''
        refine ⟨hold, Decidable.not_not.1 hcount, htouches, ?_⟩
        rw [hnew, hfile]
        rfl

end

/-- A call of `replace_text` on a regular file that is UTF-8 leaves all files as they are when
it raises. When it succeeds, it replaces the expected occurrences and changes no other byte
exactly when the file holds no carriage return. -/
theorem replaceText_exact_iff (registry : WriteRegistry) (files : Files)
    (path oldText newText : String) (replacements : Int) (target : Loc) (text : String)
    (mode : Nat) (htarget : files.boundaryResolve registry.root path = .ok target)
    (hfile : files.fileAt target = some (.utf8 text, mode)) :
    (∀ files' e, (WriteCall.replaceText path oldText newText replacements).perform registry files =
        (files', .error e) → files' = files) ∧
      ∀ files' result,
        (WriteCall.replaceText path oldText newText replacements).perform registry files =
            (files', .ok result) →
          (ReplacedExactly files files' target oldText newText replacements text mode ↔
            crByte ∉ encode text) := by
  simp only [WriteCall.perform]
  constructor
  · intro files' e h
    split at h
    · exact (Prod.mk.inj h).1.symm
    · unfold performed at h
      split at h
      · exact (Prod.mk.inj h).1.symm
      · cases (Prod.mk.inj h).2
  · intro files' result h
    split at h
    · cases (Prod.mk.inj h).2
    · unfold performed at h
      split at h
      · cases (Prod.mk.inj h).2
      next written result' hreplaced =>
        cases h
        obtain ⟨hold, hcount, htouches, hnew⟩ := replaceText_ok htarget hfile hreplaced
        have hspliced := @replaceText_spliced _ newText (textRead text) hold
        have hstable : Stable (textRead text) := @stable_of_readText (.utf8 text) _ rfl
        rw [cr_mem_encode, ← stable_iff]
        constructor
        · rintro ⟨-, content, hcontent, count, hsame, hexact⟩
          -- the carriage returns of the file would have to be in the result
          rw [hnew] at hcontent
          cases hcontent
          have hcounts : count = countText oldText (textRead text) := by omega
          subst hcounts
          have hbefore := hexact.count crByte
          have hafter := hspliced.count crByte
          rw [(stable_iff_count _).1 hstable] at hafter
          refine (stable_iff_count text).2 ?_
          simp only [encode] at hbefore hafter ⊢
          omega
        · intro h
          have hsame : textRead text = text := by
            unfold textRead
            rw [h, String.ofList_toList]
          rw [hsame] at hcount hnew hspliced
          exact ⟨htouches, _, hnew, _, hcount, hspliced⟩

namespace Sample

def textFiles (text : String) : Files := fun l =>
  if l = ["w"] then some (.dir 0o755)
  else if l = ["w", "a.txt"] then some (.file (.utf8 text) 0o644)
  else none

def textRegistry : WriteRegistry := { root := ["w"], allowedWrites := ["a.txt"] }

def textCall : WriteCall := .replaceText "a.txt" "b" "c" 1

theorem textCall_ok :
    textCall.perform textRegistry (textFiles "a\nb\n") =
      ((textCall.perform textRegistry (textFiles "a\nb\n")).1,
        .ok { modifiedFiles := ["a.txt"] }) :=
  Prod.ext rfl (by decide +kernel)

end Sample

/-- One letter of the second line is replaced, and both lines lose their carriage returns. -/
theorem crlf_lost :
    (Sample.textCall.perform Sample.textRegistry (Sample.textFiles "a\r\nb\r\n")).2 =
        .ok { modifiedFiles := ["a.txt"] } ∧
      ¬ ReplacedExactly (Sample.textFiles "a\r\nb\r\n")
        (Sample.textCall.perform Sample.textRegistry (Sample.textFiles "a\r\nb\r\n")).1
        ["w", "a.txt"] "b" "c" 1 "a\r\nb\r\n" 0o644 := by
  refine ⟨by decide +kernel, ?_⟩
  rintro ⟨-, content, hcontent, count, -, hexact⟩
  have hnew : (Sample.textCall.perform Sample.textRegistry
      (Sample.textFiles "a\r\nb\r\n")).1.fileAt ["w", "a.txt"] =
        some (.utf8 "a\nc\n", 0o644) := by decide +kernel
  rw [hnew] at hcontent
  cases hcontent
  have hcount := hexact.count crByte
  have hafter : (Content.utf8 "a\nc\n").bytes.count crByte = 0 := by decide +kernel
  have hbefore : (encode "a\r\nb\r\n").count crByte = 2 := by decide +kernel
  have hold : (encode "b").count crByte = 0 := by decide +kernel
  rw [hafter, hbefore, hold] at hcount
  omega

/-- The same call on a file without carriage returns. -/
theorem replaceText_exact_lf :
    ReplacedExactly (Sample.textFiles "a\nb\n")
      (Sample.textCall.perform Sample.textRegistry (Sample.textFiles "a\nb\n")).1
      ["w", "a.txt"] "b" "c" 1 "a\nb\n" 0o644 :=
  ((replaceText_exact_iff Sample.textRegistry (Sample.textFiles "a\nb\n") "a.txt" "b" "c" 1
    ["w", "a.txt"] "a\nb\n" 0o644 (by decide +kernel) (by decide +kernel)).2 _
    { modifiedFiles := ["a.txt"] } Sample.textCall_ok).2 (by decide +kernel)

end EvoCI
