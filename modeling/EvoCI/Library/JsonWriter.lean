import EvoCI.Library.JsonText

/-! Writing a JSON value as ASCII text, each member and element on a line of its own. What is
written denotes the value as long as no string holds two lone surrogates that belong together. -/

namespace Library

namespace JsonText

/-! ## Strings -/

/-- The UTF-16 units of a text. -/
def units : List Nat → List Nat
  | [] => []
  | point :: points =>
    if point < 0x10000 then point :: units points
    else (0xd800 + (point - 0x10000) / 1024) :: (0xdc00 + (point - 0x10000) % 1024) :: units points

def hexDigit (n : Nat) : Char := if n < 10 then Char.ofNat (48 + n) else Char.ofNat (87 + n)

/-- A unit inside a string. -/
def writeUnit (unit : Nat) : List Char :=
  match unit with
  | 34 => ['\\', '"']
  | 92 => ['\\', '\\']
  | 10 => ['\\', 'n']
  | 13 => ['\\', 'r']
  | 9 => ['\\', 't']
  | 8 => ['\\', 'b']
  | 12 => ['\\', 'f']
  | unit =>
    if 0x20 ≤ unit ∧ unit ≤ 0x7e then [Char.ofNat unit]
    else
      ['\\', 'u', hexDigit (unit / 4096 % 16), hexDigit (unit / 256 % 16),
        hexDigit (unit / 16 % 16), hexDigit (unit % 16)]

def writeString (points : List Nat) : List Char :=
  '"' :: (units points).flatMap writeUnit ++ ['"']

/-! ## Values -/

/-- A new line at the given depth, two blanks for each level. -/
def newline (depth : Nat) : List Char := '\n' :: List.replicate (2 * depth) ' '

mutual

def write (depth : Nat) : Value → List Char
  | .null => ['n', 'u', 'l', 'l']
  | .bool true => ['t', 'r', 'u', 'e']
  | .bool false => ['f', 'a', 'l', 's', 'e']
  | .int value => (toString value).toList
  | .float repr => repr.toList
  | .str points => writeString points
  | .list items =>
    if items = [] then ['[', ']']
    else
      '[' :: newline (depth + 1) ++
        (',' :: newline (depth + 1)).intercalate (writeElements (depth + 1) items) ++
        newline depth ++ [']']
  | .mapping items =>
    if items = [] then ['\x7b', '\x7d']
    else
      '\x7b' :: newline (depth + 1) ++
        (',' :: newline (depth + 1)).intercalate (writeMembers (depth + 1) items) ++
        newline depth ++ ['\x7d']

def writeElements (depth : Nat) : List Value → List (List Char)
  | [] => []
  | item :: items => write depth item :: writeElements depth items

def writeMembers (depth : Nat) : List (List Nat × Value) → List (List Char)
  | [] => []
  | (key, value) :: items =>
    (writeString key ++ ':' :: ' ' :: write depth value) :: writeMembers depth items

end

theorem writeElements_eq (depth : Nat) (items : List Value) :
    writeElements depth items = items.map (write depth) := by
  induction items with
  | nil => rfl
  | cons item items ih => rw [writeElements, ih, List.map_cons]

theorem writeMembers_eq (depth : Nat) (items : List (List Nat × Value)) :
    writeMembers depth items =
      items.map fun item => writeString item.1 ++ ':' :: ' ' :: write depth item.2 := by
  induction items with
  | nil => rfl
  | cons item items ih => rw [writeMembers, ih, List.map_cons]

/-! ## Strings that are read as they were written -/

/-- Decoding the units gives the text back: no surrogate stands in front of its partner. -/
structure Joined (points : List Nat) : Prop where
  valid : ∀ point ∈ points, point < 0x110000
  join : joinSurrogates (units points) = points

/-- Values without numbers, whose strings are joined and whose keys differ. -/
inductive Writable : Value → Prop where
  | null : Writable .null
  | bool (value : Bool) : Writable (.bool value)
  | str {points : List Nat} (h : Joined points) : Writable (.str points)
  | list {items : List Value} (h : ∀ item ∈ items, Writable item) : Writable (.list items)
  | mapping {items : List (List Nat × Value)} (hkeys : (Dict.keys items).Nodup)
      (hjoined : ∀ item ∈ items, Joined item.1) (h : ∀ item ∈ items, Writable item.2) :
      Writable (.mapping items)

theorem joinSurrogates_cons {unit : Nat} (h : ¬ (0xd800 ≤ unit ∧ unit ≤ 0xdbff))
    (rest : List Nat) : joinSurrogates (unit :: rest) = unit :: joinSurrogates rest := by
  cases rest with
  | nil => rfl
  | cons low rest =>
    rw [joinSurrogates, if_neg]
    rintro ⟨h1, h2, -⟩
    exact h ⟨h1, h2⟩

theorem joinSurrogates_pair {high low : Nat} (hhigh : 0xd800 ≤ high ∧ high ≤ 0xdbff)
    (hlow : 0xdc00 ≤ low ∧ low ≤ 0xdfff) (rest : List Nat) :
    joinSurrogates (high :: low :: rest) =
      (0x10000 + (high - 0xd800) * 1024 + (low - 0xdc00)) :: joinSurrogates rest := by
  rw [joinSurrogates, if_pos ⟨hhigh.1, hhigh.2, hlow.1, hlow.2⟩]

/-- A text without surrogates is joined. -/
theorem joined_of_scalar {points : List Nat} (hvalid : ∀ point ∈ points, point < 0x110000)
    (hscalar : ∀ point ∈ points, ¬ (0xd800 ≤ point ∧ point ≤ 0xdfff)) : Joined points := by
  refine ⟨hvalid, ?_⟩
  induction points with
  | nil => rfl
  | cons point points ih =>
    have hpoint := hvalid point List.mem_cons_self
    have hself := hscalar point List.mem_cons_self
    have hrest := ih (fun other h => hvalid other (List.mem_cons_of_mem _ h))
      fun other h => hscalar other (List.mem_cons_of_mem _ h)
    rw [units]
    split
    · have hhigh : ¬ (0xd800 ≤ point ∧ point ≤ 0xdbff) := by omega
      rw [joinSurrogates_cons hhigh, hrest]
    · have hpoint : 0x10000 + (0xd800 + (point - 0x10000) / 1024 - 0xd800) * 1024 +
          (0xdc00 + (point - 0x10000) % 1024 - 0xdc00) = point := by omega
      rw [joinSurrogates_pair (by omega) (by omega), hpoint, hrest]

theorem units_lt {points : List Nat} (h : ∀ point ∈ points, point < 0x110000) :
    ∀ unit ∈ units points, unit < 0x10000 := by
  induction points with
  | nil =>
    intro unit hunit
    cases hunit
  | cons point points ih =>
    have hpoint := h point List.mem_cons_self
    have hrest := ih fun other hother => h other (List.mem_cons_of_mem _ hother)
    intro unit hunit
    rw [units] at hunit
    split at hunit
    · rcases List.mem_cons.mp hunit with rfl | hunit
      · assumption
      · exact hrest unit hunit
    · rcases List.mem_cons.mp hunit with heq | hunit
      · omega
      · rcases List.mem_cons.mp hunit with heq | hunit
        · omega
        · exact hrest unit hunit

theorem hexValue_hexDigit {n : Nat} (h : n < 16) : hexValue (hexDigit n) = some n := by
  have hall : ∀ n : Fin 16, hexValue (hexDigit n) = some n.val := by decide +kernel
  exact hall ⟨n, h⟩

theorem isPlain_ofNat {unit : Nat} (hlow : 0x20 ≤ unit) (hhigh : unit ≤ 0x7e) (hquote : unit ≠ 34)
    (hslash : unit ≠ 92) : isPlain (Char.ofNat unit) = true ∧ (Char.ofNat unit).toNat = unit := by
  have hall : ∀ n : Fin 127, 0x20 ≤ n.val → n.val ≠ 34 → n.val ≠ 92 →
      isPlain (Char.ofNat n) = true ∧ (Char.ofNat n).toNat = n.val := by decide +kernel
  exact hall ⟨unit, by omega⟩ hlow hquote hslash

/-- What stands for a unit is read as that unit. -/
theorem stringText_writeUnit {unit : Nat} (h : unit < 0x10000) {cs : List Char} {rest : List Nat}
    (hrest : StringText cs rest) : StringText (writeUnit unit ++ cs) (unit :: rest) := by
  unfold writeUnit
  split
  · exact .escape rfl hrest
  · exact .escape rfl hrest
  · exact .escape rfl hrest
  · exact .escape rfl hrest
  · exact .escape rfl hrest
  · exact .escape rfl hrest
  · exact .escape rfl hrest
  · next hquote hslash _ _ _ _ _ =>
    split
    next hplain =>
      obtain ⟨hchar, hnat⟩ := isPlain_ofNat hplain.1 hplain.2 hquote hslash
      have := StringText.plain hchar hrest
      rwa [hnat] at this
    next =>
      refine .unicode ?_ hrest
      rw [hexFour, hexValue_hexDigit (by omega), hexValue_hexDigit (by omega),
        hexValue_hexDigit (by omega), hexValue_hexDigit (by omega)]
      simp only [Option.some.injEq]
      omega

theorem stringText_units {us : List Nat} (h : ∀ unit ∈ us, unit < 0x10000) :
    StringText (us.flatMap writeUnit) us := by
  induction us with
  | nil => exact .nil
  | cons unit us ih =>
    rw [List.flatMap_cons]
    exact stringText_writeUnit (h unit List.mem_cons_self)
      (ih fun other hother => h other (List.mem_cons_of_mem _ hother))

theorem Joined.stringText {points : List Nat} (h : Joined points) :
    StringText ((units points).flatMap writeUnit) (units points) :=
  stringText_units (units_lt h.valid)

/-! ## What is written denotes the value -/

theorem blank_nil : Blank [] := by
  intro c hc
  cases hc

theorem blank_space : Blank [' '] := by
  intro c hc
  rw [List.mem_singleton.mp hc]
  rfl

theorem blank_newline (depth : Nat) : Blank (newline depth) := by
  intro c hc
  rcases List.mem_cons.mp hc with rfl | hc
  · rfl
  · rw [List.eq_of_mem_replicate hc]
    rfl

/-- Keys that differ make no member lose its place. -/
theorem toDict_of_nodup {items : List (List Nat × Value)} (h : (Dict.keys items).Nodup) :
    toDict items = items := by
  have hfold : ∀ (items d : List (List Nat × Value)), (Dict.keys (d ++ items)).Nodup →
      items.foldl (fun d item => Dict.set d item.1 item.2) d = d ++ items := by
    intro items
    induction items with
    | nil =>
      intro d _
      exact (List.append_nil d).symm
    | cons item items ih =>
      intro d hd
      have hfresh : item.1 ∉ Dict.keys d := by
        intro hin
        simp only [Dict.keys, List.map_append, List.map_cons] at hd hin
        exact (List.nodup_append.mp hd).2.2 _ hin _ List.mem_cons_self rfl
      rw [List.foldl_cons, Dict.set_of_notMem hfresh, ih]
      · simp
      · simpa using hd
  exact hfold items [] h

variable {readFloat : List Char → String}

theorem denotes_elements {depth : Nat} {items : List Value} (hne : items ≠ [])
    (h : ∀ item ∈ items, Denotes readFloat (write depth item) (.value item)) {gap : List Char}
    (hgap : Blank gap) :
    Denotes readFloat
      ((',' :: newline depth).intercalate (writeElements depth items) ++ gap)
      (.elements items) := by
  induction items with
  | nil => exact absurd rfl hne
  | cons item items ih =>
    have hitem := h item List.mem_cons_self
    cases items with
    | nil =>
      rw [writeElements, writeElements, List.intercalate_singleton]
      exact .lastElement hitem hgap
    | cons next items =>
      have hrest := ih (by simp) fun other hother => h other (List.mem_cons_of_mem _ hother)
      have helement := Denotes.element hitem blank_nil (blank_newline depth) hrest
      rw [writeElements, writeElements, List.intercalate_cons_cons, ← writeElements]
      simpa using helement

theorem denotes_members {depth : Nat} {items : List (List Nat × Value)} (hne : items ≠ [])
    (hkeys : ∀ item ∈ items, Joined item.1)
    (h : ∀ item ∈ items, Denotes readFloat (write depth item.2) (.value item.2))
    {gap : List Char} (hgap : Blank gap) :
    Denotes readFloat
      ((',' :: newline depth).intercalate (writeMembers depth items) ++ gap)
      (.members items) := by
  induction items with
  | nil => exact absurd rfl hne
  | cons item items ih =>
    obtain ⟨key, value⟩ := item
    have hkey := hkeys _ List.mem_cons_self
    have hvalue := h _ List.mem_cons_self
    cases items with
    | nil =>
      have hlast := Denotes.lastMember hkey.stringText hvalue blank_nil blank_space hgap
      rw [hkey.join] at hlast
      rw [writeMembers, writeMembers, List.intercalate_singleton]
      simpa [writeString] using hlast
    | cons next items =>
      have hrest := ih (by simp) (fun other hother => hkeys other (List.mem_cons_of_mem _ hother))
        fun other hother => h other (List.mem_cons_of_mem _ hother)
      have hmember := Denotes.member hkey.stringText hvalue blank_nil blank_space blank_nil
        (blank_newline depth) hrest
      rw [hkey.join] at hmember
      rw [writeMembers, writeMembers, List.intercalate_cons_cons, ← writeMembers]
      simpa [writeString] using hmember

theorem Writable.denotes {value : Value} (h : Writable value) (depth : Nat) :
    Denotes readFloat (write depth value) (.value value) := by
  induction h generalizing depth with
  | null => exact .word (by simp [words] : (['n', 'u', 'l', 'l'], Value.null) ∈ words)
  | bool value =>
    cases value with
    | true => exact .word (by simp [words] : (['t', 'r', 'u', 'e'], Value.bool true) ∈ words)
    | false =>
      exact .word (by simp [words] : (['f', 'a', 'l', 's', 'e'], Value.bool false) ∈ words)
  | str h =>
    have hstr : Denotes readFloat _ _ := .str h.stringText
    rwa [h.join] at hstr
  | @list items _ ih =>
    rw [write]
    split
    next hnil =>
      rw [hnil]
      exact .emptyList blank_nil
    next hne =>
      have := Denotes.list (blank_newline (depth + 1))
        (denotes_elements hne (fun item hitem => ih item hitem (depth + 1)) (blank_newline depth))
      simpa using this
  | @mapping items hkeys hjoined _ ih =>
    rw [write]
    split
    next hnil =>
      rw [hnil]
      exact .emptyMapping blank_nil
    next hne =>
      have := Denotes.mapping (blank_newline (depth + 1))
        (denotes_members hne hjoined (fun item hitem => ih item hitem (depth + 1))
          (blank_newline depth))
      rw [toDict_of_nodup hkeys] at this
      simpa using this

/-- A mapping that is written is read back, whatever stands behind it. -/
theorem rawDecode_write {items : List (List Nat × Value)} (h : Writable (.mapping items))
    (rest : List Char) :
    rawDecode readFloat (write 0 (.mapping items) ++ rest) = some (.mapping items, rest) :=
  rawDecode_complete (h.denotes 0) rest

/-! ## No carriage return is written -/

theorem return_notMem_writeUnit (unit : Nat) : '\r' ∉ writeUnit unit := by
  have hdigit : ∀ n, n < 16 → hexDigit n ≠ '\r' := by
    intro n hn
    have hall : ∀ n : Fin 16, hexDigit n ≠ '\r' := by decide +kernel
    exact hall ⟨n, hn⟩
  have hplain : ∀ n, 0x20 ≤ n ∧ n ≤ 0x7e → Char.ofNat n ≠ '\r' := by
    intro n hn
    have hall : ∀ n : Fin 127, 0x20 ≤ n.val → Char.ofNat n ≠ '\r' := by decide +kernel
    exact hall ⟨n, by omega⟩ hn.1
  unfold writeUnit
  split
  · decide
  · decide
  · decide
  · decide
  · decide
  · decide
  · decide
  · split
    next h => simpa using (hplain _ h).symm
    next =>
      have h1 := hdigit (unit / 4096 % 16) (by omega)
      have h2 := hdigit (unit / 256 % 16) (by omega)
      have h3 := hdigit (unit / 16 % 16) (by omega)
      have h4 := hdigit (unit % 16) (by omega)
      simp [h1.symm, h2.symm, h3.symm, h4.symm]

theorem return_notMem_writeString (points : List Nat) : '\r' ∉ writeString points := by
  have hbody : '\r' ∉ (units points).flatMap writeUnit := by
    rw [List.mem_flatMap]
    rintro ⟨unit, -, hunit⟩
    exact return_notMem_writeUnit unit hunit
  simp [writeString, hbody]

theorem return_notMem_newline (depth : Nat) : '\r' ∉ newline depth := by
  simp [newline]

theorem notMem_intercalate {c : Char} {separator : List Char} {pieces : List (List Char)}
    (hseparator : c ∉ separator) (h : ∀ piece ∈ pieces, c ∉ piece) :
    c ∉ separator.intercalate pieces := by
  induction pieces with
  | nil => simp
  | cons piece pieces ih =>
    have hrest := ih fun other hother => h other (List.mem_cons_of_mem _ hother)
    cases pieces with
    | nil => simpa using h piece List.mem_cons_self
    | cons next pieces =>
      rw [List.intercalate_cons_cons]
      simp only [List.mem_append, not_or]
      exact ⟨⟨h piece List.mem_cons_self, hseparator⟩, hrest⟩

theorem Writable.return_notMem {value : Value} (h : Writable value) (depth : Nat) :
    '\r' ∉ write depth value := by
  have hseparator : ∀ depth, '\r' ∉ ',' :: newline depth := by
    intro depth
    simpa using return_notMem_newline depth
  induction h generalizing depth with
  | null => simp [write]
  | bool value => cases value <;> simp [write]
  | str => exact return_notMem_writeString _
  | @list items _ ih =>
    rw [write]
    split
    · decide
    · have hpieces : ∀ piece ∈ writeElements (depth + 1) items, '\r' ∉ piece := by
        intro piece hpiece
        rw [writeElements_eq] at hpiece
        obtain ⟨item, hitem, rfl⟩ := List.mem_map.mp hpiece
        exact ih item hitem (depth + 1)
      have hitems := notMem_intercalate (hseparator (depth + 1)) hpieces
      simp [return_notMem_newline, hitems]
  | @mapping items _ _ _ ih =>
    rw [write]
    split
    · decide
    · have hpieces : ∀ piece ∈ writeMembers (depth + 1) items, '\r' ∉ piece := by
        intro piece hpiece
        rw [writeMembers_eq] at hpiece
        obtain ⟨item, hitem, rfl⟩ := List.mem_map.mp hpiece
        simp [return_notMem_writeString, ih item hitem (depth + 1)]
      have hitems := notMem_intercalate (hseparator (depth + 1)) hpieces
      simp [return_notMem_newline, hitems]

end JsonText

end Library
