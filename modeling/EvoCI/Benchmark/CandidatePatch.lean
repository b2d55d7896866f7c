import EvoCI.Text

/-! The patch of a candidate against its start commit: what `git diff` prints is read
through a text-mode pipe, and the changed paths are read back from its headers. -/

namespace EvoCI

/-! ## Trees and the diffs between them -/

inductive GitMode where
  | regular
  | executable
  | link
  deriving DecidableEq, Repr

structure GitFile where
  bytes : List UInt8
  mode : GitMode
  deriving DecidableEq, Repr

/-- The files of a commit, an index or a work tree, by their paths. -/
def GitTree := String → Option GitFile

/-- Characters that make Git quote a path. -/
def isQuoted (c : Char) : Bool :=
  c.toNat < 0x20 || c = '"' || c = '\\' || 0x7f ≤ c.toNat

def needsQuotes (path : String) : Bool := path.toList.any isQuoted

/-- One byte in octal. -/
def octal (byte : UInt8) : List Char :=
  let digit := fun n : Nat => Char.ofNat ('0'.toNat + n % 8)
  ['\\', digit (byte.toNat / 64), digit (byte.toNat / 8), digit byte.toNat]

/-- `quote_c_style` of one character. -/
def escapeChar (c : Char) : List Char :=
  if c = '"' then ['\\', '"']
  else if c = '\\' then ['\\', '\\']
  else if c = '\t' then ['\\', 't']
  else if c = '\n' then ['\\', 'n']
  else if c = '\r' then ['\\', 'r']
  else if c = '\x07' then ['\\', 'a']
  else if c = '\x08' then ['\\', 'b']
  else if c = '\x0b' then ['\\', 'v']
  else if c = '\x0c' then ['\\', 'f']
  else if isQuoted c then (encode (String.singleton c)).flatMap octal
  else [c]

/-- How Git writes names: what its settings put before the old and the new one
(`diff.noprefix`, `diff.mnemonicPrefix`), and whether they have it quote other letters than
those of ASCII (`core.quotePath`). -/
structure NameStyle where
  source : String := "a/"
  target : String := "b/"
  quotePath : Bool := true

def NameStyle.quotes (style : NameStyle) (c : Char) : Bool :=
  isQuoted c && (style.quotePath || c.toNat < 0x80)

/-- A path behind what stands before it, in quotes where it has to be. -/
def shownPath (style : NameStyle) (side path : String) : List Char :=
  let name := side.toList ++ path.toList
  if name.any style.quotes then
    '"' :: name.flatMap (fun c => if style.quotes c then escapeChar c else [c]) ++ ['"']
  else name

def headerStart : List Char := "diff --git ".toList

/-- The header of the diff of one file. -/
def diffHeader (style : NameStyle) (old new : String) : List Char :=
  headerStart ++ shownPath style style.source old ++ ' ' :: shownPath style style.target new

/-- The diff of one file below its header. Its lines tell what they are by how they
start, and none starts like a header. -/
structure DiffBody where
  lines : List (List Char)
  noNewline : ∀ line ∈ lines, '\n' ∉ line
  noHeader : ∀ line ∈ lines, ¬ headerStart <+: line

/-- The diff of one file; a renamed one has two names. `undecodable` are bytes that
are not UTF-8. -/
structure FileDiff where
  old : String
  new : String
  body : DiffBody
  undecodable : Option (List UInt8) := none
  style : NameStyle := {}

def FileDiff.lines (d : FileDiff) : List (List Char) :=
  diffHeader d.style d.old d.new :: d.body.lines

/-- Lines, each with its newline. -/
def joinLines (lines : List (List Char)) : List Char := lines.flatMap (· ++ ['\n'])

/-- What `git diff` prints. -/
def printedDiff (diffs : List FileDiff) : Content :=
  if diffs.any fun d => d.undecodable.isSome then
    .binary (diffs.flatMap fun d =>
      encode (String.ofList (joinLines d.lines)) ++ d.undecodable.getD [])
  else .utf8 (String.ofList (joinLines (diffs.flatMap FileDiff.lines)))

/-! ## Reading the paths back -/

/-- `(.+?) b/(.+?)$` after the start of a header: what follows the first ` b/`. -/
def afterMiddle : List Char → Option (List Char)
  | [] => none
  | _ :: cs =>
    match cs with
    | ' ' :: 'b' :: '/' :: c :: rest => some (c :: rest)
    | _ => afterMiddle cs

/-- `_DIFF_GIT` on one line. -/
def diffGitPath (line : List Char) : Option String :=
  if headerStart ++ ['a', '/'] <+: line then
    (afterMiddle (line.drop (headerStart.length + 2))).map String.ofList
  else none

/-- The lines that `^` and `$` see. -/
def patchLines : List Char → List (List Char)
  | [] => [[]]
  | '\n' :: cs => [] :: patchLines cs
  | c :: cs =>
    match patchLines cs with
    | [] => [[c]]
    | line :: lines => (c :: line) :: lines

/-- The list with the first of each entry. -/
def keepFirst (paths : List String) : List String :=
  paths.foldl (fun kept path => if path ∈ kept then kept else kept ++ [path]) []

def pathsFromUnifiedDiff (patch : String) : List String :=
  keepFirst ((patchLines patch.toList).filterMap diffGitPath)

/-! ## Building the patch -/

/-- Why no patch is built. The last two are `ValueError`s. -/
inductive PatchRefused where
  | unsafePatch (message : String)
  | protectedPatch (message : String)
  | gitFailed (message : String)
  | undecodable
  deriving DecidableEq, Repr

/-- `_assert_safe_patch_path`: what it raises. -/
def refusedPath (protectedFiles : List String) (path : String) : Option PatchRefused :=
  if isAbsolute path ∨ ".." ∈ pathParts path then
    some (.unsafePatch s!"unsafe candidate patch path: {path}")
  else if ".git" ∈ pathParts path ∨ path = ".git" ∨ ".git/".toList <+: path.toList then
    some (.unsafePatch s!"candidate patch must not touch .git: {path}")
  else if path ∈ protectedFiles then
    some (.protectedPatch s!"candidate patch modifies protected test file: {path}")
  else none

/-- The Git commands that building the patch runs. -/
inductive GitCommand where
  | revParse
  | add
  | diff
  deriving DecidableEq, Repr

/-- The message for a command that fails. -/
def GitCommand.message (command : GitCommand) (stderr : String) : String :=
  match command with
  | .revParse => s!"workspace is not a git repository: {strip stderr}"
  | .add => s!"git add failed: {strip stderr}"
  | .diff => s!"git diff failed: {strip stderr}"

/-- What the Git commands come to: one fails with this on its error output, or the diff
is printed. -/
inductive GitAnswer where
  | failed (command : GitCommand) (stderr : String)
  | printed (diffs : List FileDiff)

def buildCandidatePatch (git : GitAnswer) (protectedFiles : List String) :
    Except PatchRefused String :=
  match git with
  | .failed command stderr => .error (.gitFailed (command.message stderr))
  | .printed diffs =>
    match (printedDiff diffs).readText with
    | .error _ => .error .undecodable
    | .ok patch =>
      match (pathsFromUnifiedDiff patch).findSome? (refusedPath protectedFiles) with
      | some refused => .error refused
      | none => .ok patch

/-! ## The Git commands -/

/-- A work tree with its start commit. `staged` is what `git add -A` makes of a copy of the
index, as ignore rules, attributes, nested repositories and the marks in the index have it, and
`failure` a command that does not succeed. -/
structure Checkout where
  base : GitTree
  staged : GitTree
  workspace : GitTree
  failure : Option (GitCommand × String) := none

/-- `git diff --cached --binary` and `git apply --binary`. -/
structure PatchGit where
  diff : GitTree → GitTree → List FileDiff
  apply : GitTree → List UInt8 → Option GitTree

/-- The commands of `build_candidate_patch` in a checkout. -/
def PatchGit.answer (git : PatchGit) (c : Checkout) : GitAnswer :=
  match c.failure with
  | some (command, stderr) => .failed command stderr
  | none => .printed (git.diff c.base c.staged)

/-! ## Lines behind a text-mode pipe -/

/-- The lines that a carriage return makes of one line; one at its end goes with the
newline. -/
def crPieces : List Char → List (List Char)
  | [] => [[]]
  | ['\r'] => [[]]
  | '\r' :: cs => [] :: crPieces cs
  | c :: cs =>
    match crPieces cs with
    | [] => [[c]]
    | piece :: pieces => (c :: piece) :: pieces

theorem crPieces_cons (line : List Char) : ∃ piece pieces, crPieces line = piece :: pieces ∧
    piece <+: line := by
  fun_induction crPieces line with
  | case1 => exact ⟨[], [], rfl, List.nil_prefix⟩
  | case2 => exact ⟨[], [], rfl, List.nil_prefix⟩
  | case3 cs _ _ => exact ⟨[], _, rfl, List.nil_prefix⟩
  | case4 c cs _ _ hnil ih =>
    obtain ⟨piece, pieces, heq, -⟩ := ih
    rw [hnil] at heq
    cases heq
  | case5 c cs _ _ piece pieces hcons ih =>
    obtain ⟨piece', pieces', heq, hleads⟩ := ih
    rw [hcons] at heq
    cases heq
    exact ⟨c :: piece, pieces, rfl, by simpa using hleads⟩

theorem joinLines_cons (line : List Char) (lines : List (List Char)) :
    joinLines (line :: lines) = line ++ '\n' :: joinLines lines := by
  simp [joinLines]

theorem universalNewlines_line {line : List Char} (h : '\n' ∉ line) (rest : List Char) :
    universalNewlines (line ++ '\n' :: rest) =
      joinLines (crPieces line) ++ universalNewlines rest := by
  fun_induction crPieces line with
  | case1 => simp [joinLines, universalNewlines]
  | case2 => simp [joinLines, universalNewlines]
  | case3 cs hne ih =>
    have hcs : '\n' ∉ cs := fun hin => h (List.mem_cons_of_mem _ hin)
    cases cs with
    | nil => exact absurd rfl hne
    | cons c cs =>
      have hc : c ≠ '\n' := by
        rintro rfl
        exact hcs List.mem_cons_self
      calc
        universalNewlines ('\r' :: c :: (cs ++ '\n' :: rest)) =
            '\n' :: universalNewlines (c :: cs ++ '\n' :: rest) := universalNewlines_cr hc _
        _ = '\n' :: (joinLines (crPieces (c :: cs)) ++ universalNewlines rest) := by rw [ih hcs]
  | case4 c cs _ _ hnil _ =>
    obtain ⟨piece, pieces, heq, -⟩ := crPieces_cons cs
    rw [hnil] at heq
    cases heq
  | case5 c cs _ hc piece pieces hcons ih =>
    have hcs : '\n' ∉ cs := fun hin => h (List.mem_cons_of_mem _ hin)
    rw [List.cons_append, universalNewlines_other hc, ih hcs, hcons, joinLines_cons,
      joinLines_cons]
    simp

theorem universalNewlines_lines {lines : List (List Char)} (h : ∀ line ∈ lines, '\n' ∉ line) :
    universalNewlines (joinLines lines) = joinLines (lines.flatMap crPieces) := by
  induction lines with
  | nil => rfl
  | cons line lines ih =>
    rw [joinLines_cons, universalNewlines_line (h line List.mem_cons_self),
      ih fun l hl => h l (List.mem_cons_of_mem _ hl)]
    simp [joinLines]

theorem crPieces_noNewline {line : List Char} (h : '\n' ∉ line) :
    ∀ piece ∈ crPieces line, '\n' ∉ piece := by
  fun_induction crPieces line with
  | case1 => simp
  | case2 => simp
  | case3 cs hne ih =>
    intro piece hpiece
    rcases List.mem_cons.mp hpiece with rfl | hpiece
    · simp
    · exact ih (fun hin => h (List.mem_cons_of_mem _ hin)) piece hpiece
  | case4 c cs _ _ hnil _ =>
    obtain ⟨piece, pieces, heq, -⟩ := crPieces_cons cs
    rw [hnil] at heq
    cases heq
  | case5 c cs _ _ first pieces hcons ih =>
    have ih := ih fun hin => h (List.mem_cons_of_mem _ hin)
    rw [hcons] at ih
    intro piece hpiece
    rcases List.mem_cons.mp hpiece with rfl | hpiece
    · rw [List.mem_cons, not_or]
      exact ⟨fun heq => h (heq ▸ List.mem_cons_self), ih first List.mem_cons_self⟩
    · exact ih piece (List.mem_cons_of_mem _ hpiece)

theorem patchLines_other {c : Char} (hc : c ≠ '\n') {cs line : List Char}
    {lines : List (List Char)} (h : patchLines cs = line :: lines) :
    patchLines (c :: cs) = (c :: line) :: lines := by
  rw [patchLines, h]
  exact hc

theorem patchLines_line {line : List Char} (h : '\n' ∉ line) (rest : List Char) :
    patchLines (line ++ '\n' :: rest) = line :: patchLines rest := by
  induction line with
  | nil => rfl
  | cons c line ih =>
    have hc : c ≠ '\n' := fun heq => h (heq ▸ List.mem_cons_self)
    exact patchLines_other hc (ih fun hin => h (List.mem_cons_of_mem _ hin))

theorem patchLines_joinLines {lines : List (List Char)} (h : ∀ line ∈ lines, '\n' ∉ line) :
    patchLines (joinLines lines) = lines ++ [[]] := by
  induction lines with
  | nil => rfl
  | cons line lines ih =>
    rw [joinLines_cons, patchLines_line (h line List.mem_cons_self),
      ih fun l hl => h l (List.mem_cons_of_mem _ hl), List.cons_append]

/-! ## What is read of a diff -/

/-- The path that a line shows: what follows ` b/` at the first place that leaves an old name. -/
def Reads (line : List Char) (path : String) : Prop :=
  ∃ old, line = headerStart ++ 'a' :: '/' :: (old ++ ' ' :: 'b' :: '/' :: path.toList) ∧
    old ≠ [] ∧ path ≠ "" ∧ ∀ other rest, other ≠ [] → rest ≠ [] →
      old ++ ' ' :: 'b' :: '/' :: path.toList = other ++ ' ' :: 'b' :: '/' :: rest →
        old.length ≤ other.length

/-- The lines that may start like a header: the header itself, and text behind a carriage
return. -/
def FileDiff.seen (d : FileDiff) : List (List Char) :=
  diffHeader d.style d.old d.new :: d.body.lines.flatMap fun line => (crPieces line).tail

/-- All paths read from the diff of a file. -/
def FileDiff.readings (d : FileDiff) : List String := d.seen.filterMap diffGitPath

example : diffGitPath (diffHeader {} "tests/é.py" "tests/é.py") = none := by decide
example : diffGitPath (diffHeader {} "a b/t.py" "a b/t.py") = some "t.py b/a b/t.py" := by
  decide +kernel
example : diffGitPath (diffHeader { source := "c/", target := "i/" } "t.py" "t.py") = none := by
  decide

theorem afterMiddle_skip {cs : List Char}
    (h : ∀ c rest, cs ≠ ' ' :: 'b' :: '/' :: c :: rest) (c : Char) :
    afterMiddle (c :: cs) = afterMiddle cs := by
  rw [afterMiddle]
  exact h

/-- The first place at which the middle fits is the one that the pattern finds. -/
theorem afterMiddle_iff {cs new : List Char} : afterMiddle cs = some new ↔
    ∃ old, cs = old ++ ' ' :: 'b' :: '/' :: new ∧ old ≠ [] ∧ new ≠ [] ∧
      ∀ other rest, other ≠ [] → rest ≠ [] → cs = other ++ ' ' :: 'b' :: '/' :: rest →
        old.length ≤ other.length := by
  induction cs with
  | nil => simp [afterMiddle]
  | cons x cs ih =>
    by_cases hmiddle : ∃ c rest, cs = ' ' :: 'b' :: '/' :: c :: rest
    · obtain ⟨c, rest, rfl⟩ := hmiddle
      rw [afterMiddle, Option.some.injEq]
      constructor
      · rintro rfl
        refine ⟨[x], rfl, List.cons_ne_nil _ _, List.cons_ne_nil _ _, fun other _ hother _ _ => ?_⟩
        exact List.length_pos_of_ne_nil hother
      · rintro ⟨old, heq, hold, -, hfirst⟩
        have hlength := hfirst [x] (c :: rest) (List.cons_ne_nil _ _) (List.cons_ne_nil _ _) rfl
        obtain ⟨y, rfl⟩ := List.length_eq_one_iff.mp
          (Nat.le_antisymm hlength (List.length_pos_of_ne_nil hold))
        simp only [List.cons_append, List.nil_append, List.cons.injEq, true_and] at heq
        exact heq.2
    · push Not at hmiddle
      rw [afterMiddle_skip hmiddle, ih]
      constructor
      · rintro ⟨old, rfl, hold, hnew, hfirst⟩
        refine ⟨x :: old, rfl, List.cons_ne_nil _ _, hnew, fun other rest hother hrest heq => ?_⟩
        obtain ⟨y, other, rfl⟩ := List.exists_cons_of_ne_nil hother
        obtain ⟨rfl, htail⟩ := List.cons.inj heq
        by_cases hne : other = []
        · subst hne
          obtain ⟨d, rest, rfl⟩ := List.exists_cons_of_ne_nil hrest
          exact absurd htail (hmiddle d rest)
        · exact Nat.succ_le_succ (hfirst other rest hne hrest htail)
      · rintro ⟨old, heq, hold, hnew, hfirst⟩
        obtain ⟨y, old, rfl⟩ := List.exists_cons_of_ne_nil hold
        obtain ⟨rfl, rfl⟩ := List.cons.inj heq
        refine ⟨old, rfl, ?_, hnew, fun other rest hother hrest heq => ?_⟩
        · rintro rfl
          obtain ⟨d, rest, rfl⟩ := List.exists_cons_of_ne_nil hnew
          exact hmiddle d rest rfl
        · exact Nat.le_of_succ_le_succ
            (hfirst (x :: other) rest (List.cons_ne_nil _ _) hrest (congrArg (x :: ·) heq))

/-- The regular expression reads what the line shows. -/
theorem diffGitPath_iff {line : List Char} {path : String} :
    diffGitPath line = some path ↔ Reads line path := by
  have hlength : headerStart.length + 2 = (headerStart ++ ['a', '/']).length := by simp
  have hname : ∀ new : List Char, String.ofList new = path ↔ new = path.toList := fun new =>
    ⟨fun h => by rw [← h, String.toList_ofList], fun h => by rw [h, String.ofList_toList]⟩
  have hnew : path.toList ≠ [] ↔ path ≠ "" := not_congr String.toList_eq_nil_iff
  unfold diffGitPath
  constructor
  · intro h
    split at h
    next hheader =>
      obtain ⟨cs, rfl⟩ := hheader
      rw [hlength, List.drop_left] at h
      obtain ⟨new, hread, hpath⟩ := Option.map_eq_some_iff.mp h
      rw [hname] at hpath
      subst hpath
      obtain ⟨old, rfl, hold, hne, hfirst⟩ := afterMiddle_iff.mp hread
      exact ⟨old, by simp, hold, hnew.mp hne, hfirst⟩
    · cases h
  · rintro ⟨old, rfl, hold, hne, hfirst⟩
    have hsplit : headerStart ++ 'a' :: '/' :: (old ++ ' ' :: 'b' :: '/' :: path.toList) =
        headerStart ++ ['a', '/'] ++ (old ++ ' ' :: 'b' :: '/' :: path.toList) := by simp
    rw [hsplit, if_pos (List.prefix_append _ _), hlength, List.drop_left,
      afterMiddle_iff.mpr ⟨old, rfl, hold, hnew.mpr hne, hfirst⟩, Option.map_some,
      String.ofList_toList]

/-- The characters that a terminal shows: ASCII without the controls. -/
def Printable (c : Char) : Prop := 0x20 ≤ c.toNat ∧ c.toNat < 0x7f

instance (c : Char) : Decidable (Printable c) :=
  inferInstanceAs (Decidable (0x20 ≤ c.toNat ∧ c.toNat < 0x7f))

theorem printable_of_not_isQuoted {c : Char} (h : isQuoted c = false) : Printable c := by
  simp only [isQuoted, Bool.or_eq_false_iff, decide_eq_false_iff_not] at h
  unfold Printable
  omega

theorem printable_octal (byte : UInt8) : ∀ x ∈ octal byte, Printable x := by
  have hdigit : ∀ n : Nat, Printable (Char.ofNat ('0'.toNat + n % 8)) := by
    have hall : ∀ m < 8, Printable (Char.ofNat ('0'.toNat + m)) := by decide
    exact fun n => hall _ (Nat.mod_lt _ (by decide))
  intro x hx
  simp only [octal, List.mem_cons, List.not_mem_nil, or_false] at hx
  rcases hx with rfl | rfl | rfl | rfl
  · decide
  · exact hdigit _
  · exact hdigit _
  · exact hdigit _

/-- What stands for a character in quotes can be printed. -/
theorem printable_escapeChar (c : Char) : ∀ x ∈ escapeChar c, Printable x := by
  unfold escapeChar
  repeat' split
  all_goals first | decide | skip
  · intro x hx
    obtain ⟨byte, -, hin⟩ := List.mem_flatMap.mp hx
    exact printable_octal byte x hin
  next hplain =>
    intro x hx
    rw [List.mem_singleton.mp hx]
    exact printable_of_not_isQuoted (Bool.not_eq_true _ ▸ hplain)

/-- What is not quoted stands for itself, and all else can be printed. -/
theorem mem_shownPath {style : NameStyle} {side path : String} {c : Char}
    (hc : c ∈ shownPath style side path) : Printable c ∨ style.quotes c = false := by
  simp only [shownPath] at hc
  split at hc
  · simp only [List.cons_append, List.mem_cons, List.mem_append, List.mem_flatMap,
      List.not_mem_nil, or_false] at hc
    rcases hc with rfl | ⟨x, -, hx⟩ | rfl
    · exact .inl (by decide)
    · split at hx
      · exact .inl (printable_escapeChar x c hx)
      next hplain =>
        rw [List.mem_singleton.mp hx]
        exact .inr (Bool.not_eq_true _ ▸ hplain)
    · exact .inl (by decide)
  next hplain =>
    exact .inr (Bool.eq_false_iff.mpr fun hquoted => hplain (List.any_eq_true.mpr ⟨c, hc, hquoted⟩))

theorem printable_shownPath {style : NameStyle} (hquote : style.quotePath = true)
    (side path : String) : ∀ c ∈ shownPath style side path, Printable c := by
  intro c hc
  rcases mem_shownPath hc with hprintable | hplain
  · exact hprintable
  · rw [NameStyle.quotes, hquote, Bool.true_or, Bool.and_true] at hplain
    exact printable_of_not_isQuoted hplain

theorem printable_headerStart : ∀ c ∈ headerStart, Printable c := by decide

theorem printable_diffHeader {style : NameStyle} (hquote : style.quotePath = true)
    (old new : String) : ∀ c ∈ diffHeader style old new, Printable c := by
  intro c hc
  unfold diffHeader at hc
  simp only [List.mem_append, List.mem_cons] at hc
  rcases hc with (hc | hc) | rfl | hc
  · exact printable_headerStart c hc
  · exact printable_shownPath hquote _ old c hc
  · decide
  · exact printable_shownPath hquote _ new c hc

/-- No header has a line end of its own. -/
theorem diffHeader_plain (style : NameStyle) (old new : String) :
    ∀ c ∈ diffHeader style old new, c ≠ '\r' ∧ c ≠ '\n' := by
  have hprintable : ∀ c, Printable c → c ≠ '\r' ∧ c ≠ '\n' := by
    rintro c hc
    constructor
    · rintro rfl
      revert hc
      decide
    · rintro rfl
      revert hc
      decide
  have hshown : ∀ side path : String, ∀ c ∈ shownPath style side path, c ≠ '\r' ∧ c ≠ '\n' := by
    intro side path c hc
    rcases mem_shownPath hc with hc | hplain
    · exact hprintable c hc
    · constructor
      · rintro rfl
        simp [NameStyle.quotes, isQuoted] at hplain
      · rintro rfl
        simp [NameStyle.quotes, isQuoted] at hplain
  intro c hc
  unfold diffHeader at hc
  simp only [List.mem_append, List.mem_cons] at hc
  rcases hc with (hc | hc) | rfl | hc
  · exact hprintable c (printable_headerStart c hc)
  · exact hshown _ old c hc
  · decide
  · exact hshown _ new c hc

theorem crPieces_of_notMem {line : List Char} (h : '\r' ∉ line) : crPieces line = [line] := by
  fun_induction crPieces line with
  | case1 => rfl
  | case2 => simp at h
  | case3 cs _ _ => simp at h
  | case4 c cs _ _ hnil _ =>
    obtain ⟨piece, pieces, heq, -⟩ := crPieces_cons cs
    rw [hnil] at heq
    cases heq
  | case5 c cs _ _ piece pieces hcons ih =>
    rw [ih fun hin => h (List.mem_cons_of_mem _ hin)] at hcons
    cases hcons
    rfl

theorem filterMap_body {line : List Char} (h : ¬ headerStart <+: line) :
    (crPieces line).filterMap diffGitPath = (crPieces line).tail.filterMap diffGitPath := by
  obtain ⟨piece, pieces, heq, hleads⟩ := crPieces_cons line
  have hnone : diffGitPath piece = none := by
    unfold diffGitPath
    split
    next hheader => exact absurd (((List.prefix_append _ _).trans hheader).trans hleads) h
    · rfl
  rw [heq, List.filterMap_cons_none hnone, List.tail_cons]

/-- The paths that the regular expression finds are those of the file diffs. -/
theorem filterMap_printed (diffs : List FileDiff) :
    (patchLines (universalNewlines (joinLines (diffs.flatMap FileDiff.lines)))).filterMap
      diffGitPath = diffs.flatMap FileDiff.readings := by
  have hlines : ∀ line ∈ diffs.flatMap FileDiff.lines, '\n' ∉ line := by
    intro line hline
    obtain ⟨d, -, hin⟩ := List.mem_flatMap.mp hline
    rcases List.mem_cons.mp hin with rfl | hin
    · exact fun hin => (diffHeader_plain d.style d.old d.new _ hin).2 rfl
    · exact d.body.noNewline line hin
  have hpieces : ∀ piece ∈ (diffs.flatMap FileDiff.lines).flatMap crPieces, '\n' ∉ piece := by
    intro piece hpiece
    obtain ⟨line, hline, hin⟩ := List.mem_flatMap.mp hpiece
    exact crPieces_noNewline (hlines line hline) piece hin
  have hend : diffGitPath [] = none := by decide
  rw [universalNewlines_lines hlines, patchLines_joinLines hpieces, List.filterMap_append,
    List.filterMap_cons_none hend, List.filterMap_nil, List.append_nil]
  clear hlines hpieces
  induction diffs with
  | nil => rfl
  | cons d diffs ih =>
    rw [List.flatMap_cons, List.flatMap_append, List.filterMap_append, ih, List.flatMap_cons]
    congr 1
    unfold FileDiff.lines FileDiff.readings FileDiff.seen
    have hheader : '\r' ∉ diffHeader d.style d.old d.new :=
      fun hin => (diffHeader_plain d.style d.old d.new _ hin).1 rfl
    have hbody : d.body.lines.flatMap (fun line => (crPieces line).filterMap diffGitPath) =
        d.body.lines.flatMap fun line => (crPieces line).tail.filterMap diffGitPath :=
      List.flatMap_congr fun line hline => filterMap_body (d.body.noHeader line hline)
    rw [List.flatMap_cons, crPieces_of_notMem hheader, List.singleton_append, List.filterMap_cons,
      List.filterMap_cons, List.filterMap_flatMap, List.filterMap_flatMap, hbody]

/-- Keeping the first of each path keeps the first that is refused. -/
theorem findSome?_keepFirst (f : String → Option PatchRefused) (paths : List String) :
    (keepFirst paths).findSome? f = paths.findSome? f := by
  suffices hgeneral : ∀ kept : List String, (paths.foldl (fun kept path =>
      if path ∈ kept then kept else kept ++ [path]) kept).findSome? f =
      (kept ++ paths).findSome? f from hgeneral []
  induction paths with
  | nil => intro kept; simp
  | cons path paths ih =>
    intro kept
    rw [List.foldl_cons, ih]
    by_cases hin : path ∈ kept
    · rw [if_pos hin, List.findSome?_append, List.findSome?_append, List.findSome?_cons]
      cases hfound : kept.findSome? f with
      | some refused => rfl
      | none =>
        rw [List.findSome?_eq_none_iff.mp hfound path hin]
    · rw [if_neg hin, List.append_assoc, List.singleton_append]

theorem decodable_iff {diffs : List FileDiff} :
    (diffs.any fun d => d.undecodable.isSome) = false ↔ ∀ d ∈ diffs, d.undecodable = none := by
  rw [List.any_eq_false]
  exact forall_congr' fun d => forall_congr' fun _ => by simp

/-- What building the patch comes to, in terms of the file diffs. -/
theorem buildCandidatePatch_printed (diffs : List FileDiff) (protectedFiles : List String) :
    buildCandidatePatch (.printed diffs) protectedFiles =
      if diffs.any fun d => d.undecodable.isSome then .error .undecodable
      else
        match (diffs.flatMap FileDiff.readings).findSome? (refusedPath protectedFiles) with
        | some refused => .error refused
        | none => .ok (String.ofList
            (universalNewlines (joinLines (diffs.flatMap FileDiff.lines)))) := by
  unfold buildCandidatePatch printedDiff
  by_cases hbinary : (diffs.any fun d => d.undecodable.isSome) = true
  · simp [hbinary, Content.readText]
  · simp only [hbinary, Bool.false_eq_true, if_false, Content.readText, String.toList_ofList,
      pathsFromUnifiedDiff, findSome?_keepFirst, filterMap_printed]

theorem buildCandidatePatch_ok {diffs : List FileDiff} {protectedFiles : List String}
    (hdecodable : ∀ d ∈ diffs, d.undecodable = none)
    (hread : (diffs.flatMap FileDiff.readings).findSome? (refusedPath protectedFiles) = none) :
    buildCandidatePatch (.printed diffs) protectedFiles = .ok (String.ofList
      (universalNewlines (joinLines (diffs.flatMap FileDiff.lines)))) := by
  rw [buildCandidatePatch_printed, decodable_iff.mpr hdecodable, hread]
  rfl

/-! ## Protected test files -/

/-- Some protected file is not what it was in the start commit. -/
def TouchesProtected (base tree : GitTree) (protectedFiles : List String) : Prop :=
  ∃ path ∈ protectedFiles, base path ≠ tree path

/-- A path that no candidate may touch, protected or not. -/
def UnsafePath (path : String) : Prop :=
  (isAbsolute path ∨ ".." ∈ pathParts path) ∨
    ".git" ∈ pathParts path ∨ path = ".git" ∨ ".git/".toList <+: path.toList

theorem refusedPath_eq_none_iff {protectedFiles : List String} {path : String} :
    refusedPath protectedFiles path = none ↔ ¬ UnsafePath path ∧ path ∉ protectedFiles := by
  unfold refusedPath UnsafePath
  split
  next houtside => exact iff_of_false (by simp) fun h => h.1 (.inl houtside)
  next hinside =>
    split
    next hgit => exact iff_of_false (by simp) fun h => h.1 (.inr hgit)
    next hgit =>
      rw [and_iff_right (not_or.mpr ⟨hinside, hgit⟩)]
      simp

theorem refusedPath_protected_iff {protectedFiles : List String} {path : String} :
    (∃ message, refusedPath protectedFiles path = some (.protectedPatch message)) ↔
      ¬ UnsafePath path ∧ path ∈ protectedFiles := by
  unfold refusedPath UnsafePath
  split
  next houtside => exact iff_of_false (by simp) fun h => h.1 (.inl houtside)
  next hinside =>
    split
    next hgit => exact iff_of_false (by simp) fun h => h.1 (.inr hgit)
    next hgit =>
      rw [and_iff_right (not_or.mpr ⟨hinside, hgit⟩)]
      simp

/-- One of the lines shows the path, and none before it shows an unsafe one. -/
def ShownIn (lines : List (List Char)) (path : String) : Prop :=
  ∃ before line after, lines = before ++ line :: after ∧ Reads line path ∧ ¬ UnsafePath path ∧
    ∀ earlier ∈ before, ∀ other, Reads earlier other → ¬ UnsafePath other

theorem shownIn_cons {line : List Char} {lines : List (List Char)} {path : String} :
    ShownIn (line :: lines) path ↔ Reads line path ∧ ¬ UnsafePath path ∨
      (∀ other, Reads line other → ¬ UnsafePath other) ∧ ShownIn lines path := by
  constructor
  · rintro ⟨before, shown, after, heq, hreads, hsafe, hbefore⟩
    cases before with
    | nil =>
      obtain ⟨rfl, -⟩ := List.cons.inj heq
      exact .inl ⟨hreads, hsafe⟩
    | cons first before =>
      obtain ⟨rfl, rfl⟩ := List.cons.inj heq
      exact .inr ⟨hbefore line List.mem_cons_self, before, shown, after, rfl, hreads, hsafe,
        fun earlier hearlier => hbefore earlier (List.mem_cons_of_mem _ hearlier)⟩
  · rintro (⟨hreads, hsafe⟩ | ⟨hline, before, shown, after, rfl, hreads, hsafe, hbefore⟩)
    · exact ⟨[], line, lines, rfl, hreads, hsafe, by simp⟩
    · exact ⟨line :: before, shown, after, rfl, hreads, hsafe,
        List.forall_mem_cons.mpr ⟨hline, hbefore⟩⟩

/-- The path that is refused first is a protected one just when some protected path is shown. -/
theorem findSome?_protected_iff (lines : List (List Char)) (protectedFiles : List String) :
    (∃ message, (lines.filterMap diffGitPath).findSome? (refusedPath protectedFiles) =
        some (.protectedPatch message)) ↔
      ∃ path ∈ protectedFiles, ShownIn lines path := by
  induction lines with
  | nil => simp [ShownIn]
  | cons line lines ih =>
    simp only [shownIn_cons, ← diffGitPath_iff]
    cases hread : diffGitPath line with
    | none => simpa [List.filterMap_cons_none hread] using ih
    | some path =>
      rw [List.filterMap_cons_some hread, List.findSome?_cons]
      simp only [Option.some.injEq, forall_eq']
      cases hrefused : refusedPath protectedFiles path with
      | none =>
        obtain ⟨hsafe, hother⟩ := refusedPath_eq_none_iff.mp hrefused
        rw [ih]
        refine exists_congr fun shown => and_congr_right fun hshown => ?_
        have hne : path ≠ shown := fun heq => hother (heq ▸ hshown)
        simp [hne, hsafe]
      | some refused =>
        have hfirst : (∃ message, some refused = some (.protectedPatch message)) ↔
            ¬ UnsafePath path ∧ path ∈ protectedFiles := hrefused ▸ refusedPath_protected_iff
        rw [hfirst]
        constructor
        · rintro ⟨hsafe, hprotected⟩
          exact ⟨path, hprotected, .inl ⟨rfl, hsafe⟩⟩
        · rintro ⟨shown, hshown, ⟨rfl, hsafe⟩ | ⟨hsafe, -⟩⟩
          · exact ⟨hsafe, hshown⟩
          · refine ⟨hsafe, by_contra fun hother => ?_⟩
            rw [refusedPath_eq_none_iff.mpr ⟨hsafe, hother⟩] at hrefused
            cases hrefused

/-- The path is shown in what Git prints. -/
def Shown (diffs : List FileDiff) (path : String) : Prop :=
  ShownIn (diffs.flatMap FileDiff.seen) path

theorem readings_eq (diffs : List FileDiff) :
    diffs.flatMap FileDiff.readings = (diffs.flatMap FileDiff.seen).filterMap diffGitPath := by
  rw [List.filterMap_flatMap]
  rfl

theorem refused_protected_iff (git : GitAnswer) (protectedFiles : List String) :
    (∃ message, buildCandidatePatch git protectedFiles = .error (.protectedPatch message)) ↔
      ∃ diffs, git = .printed diffs ∧ (∀ d ∈ diffs, d.undecodable = none) ∧
        ∃ path ∈ protectedFiles, Shown diffs path := by
  cases git with
  | failed command stderr => simp [buildCandidatePatch]
  | printed diffs =>
    rw [buildCandidatePatch_printed]
    by_cases hbinary : (diffs.any fun d => d.undecodable.isSome) = true
    · rw [if_pos hbinary]
      obtain ⟨d, hd, hsome⟩ := List.any_eq_true.mp hbinary
      constructor
      · rintro ⟨message, h⟩
        cases h
      · rintro ⟨_, ⟨⟩, hnone, -⟩
        rw [hnone d hd] at hsome
        cases hsome
    · rw [if_neg hbinary]
      have hnone := decodable_iff.mp (Bool.eq_false_iff.mpr hbinary)
      have hfirst := findSome?_protected_iff (diffs.flatMap FileDiff.seen) protectedFiles
      rw [← readings_eq] at hfirst
      constructor
      · rintro ⟨message, h⟩
        refine ⟨diffs, rfl, hnone, hfirst.mp ⟨message, ?_⟩⟩
        split at h
        next refused hrefused =>
          cases h
          exact hrefused
        · cases h
      · rintro ⟨_, ⟨⟩, -, hshows⟩
        obtain ⟨message, hmessage⟩ := hfirst.mpr hshows
        exact ⟨message, by rw [hmessage]⟩

/-- Git's commands succeed, and all that is printed is UTF-8. -/
def PatchGit.Prints (git : PatchGit) (c : Checkout) : Prop :=
  c.failure = none ∧ ∀ d ∈ git.diff c.base c.staged, d.undecodable = none

theorem answer_refused_iff (git : PatchGit) (c : Checkout) (protectedFiles : List String) :
    (∃ message, buildCandidatePatch (git.answer c) protectedFiles =
        .error (.protectedPatch message)) ↔
      git.Prints c ∧ ∃ path ∈ protectedFiles, Shown (git.diff c.base c.staged) path := by
  rw [refused_protected_iff]
  unfold PatchGit.answer PatchGit.Prints
  cases hfailure : c.failure with
  | some failure => simp
  | none => simp

/-- A candidate that touches a protected file is refused for it exactly when Git prints a diff
that shows some protected path. Whatever files are protected, that is so exactly when the diff
shows each path at which the final tree is not the start commit. -/
theorem touched_refused_iff (git : PatchGit) (c : Checkout) :
    (∀ protectedFiles, (TouchesProtected c.base c.workspace protectedFiles →
        ∃ message, buildCandidatePatch (git.answer c) protectedFiles =
          .error (.protectedPatch message)) ↔
      (TouchesProtected c.base c.workspace protectedFiles → git.Prints c ∧
        ∃ path ∈ protectedFiles, Shown (git.diff c.base c.staged) path)) ∧
    ((∀ protectedFiles, TouchesProtected c.base c.workspace protectedFiles →
        ∃ message, buildCandidatePatch (git.answer c) protectedFiles =
          .error (.protectedPatch message)) ↔
      ∀ path, c.base path ≠ c.workspace path →
        git.Prints c ∧ Shown (git.diff c.base c.staged) path) := by
  simp only [answer_refused_iff, implies_true, true_and]
  constructor
  · intro h path hchanged
    obtain ⟨hprints, shown, hshown, hin⟩ := h [path] ⟨path, List.mem_singleton_self path, hchanged⟩
    rw [List.mem_singleton.mp hshown] at hin
    exact ⟨hprints, hin⟩
  · rintro h protectedFiles ⟨path, hprotected, hchanged⟩
    obtain ⟨hprints, hshown⟩ := h path hchanged
    exact ⟨hprints, path, hprotected, hshown⟩

/-! ## Applying the patch -/

/-- The patch that is built, applied to the start commit, gives the edited files as they
are in the workspace. Nothing is asked where the patch is refused or Git fails. -/
def Reproduced (git : PatchGit) (c : Checkout) (protectedFiles edited : List String) : Prop :=
  match buildCandidatePatch (git.answer c) protectedFiles with
  | .ok patch => ∃ tree, git.apply c.base (encode patch) = some tree ∧
      ∀ path ∈ edited, tree path = c.workspace path
  | .error .undecodable => False
  | .error _ => True

/-- No line of the diff has a carriage return. -/
def NoReturns (diffs : List FileDiff) : Prop :=
  ∀ d ∈ diffs, ∀ line ∈ d.body.lines, '\r' ∉ line

theorem universalNewlines_printed {diffs : List FileDiff} (h : NoReturns diffs) :
    universalNewlines (joinLines (diffs.flatMap FileDiff.lines)) =
      joinLines (diffs.flatMap FileDiff.lines) := by
  apply universalNewlines_of_notMem
  intro hin
  obtain ⟨line, hline, hin⟩ := List.mem_flatMap.mp hin
  obtain ⟨d, hd, hline⟩ := List.mem_flatMap.mp hline
  have hnot : '\r' ∉ line := by
    rcases List.mem_cons.mp hline with rfl | hline
    · exact fun hin => (diffHeader_plain d.style d.old d.new _ hin).1 rfl
    · exact h d hd line hline
  simp [hnot] at hin

/-- The patch is refused for one of the paths that its lines show. -/
def RefusesPath (diffs : List FileDiff) (protectedFiles : List String) : Prop :=
  ∃ line ∈ diffs.flatMap FileDiff.seen, ∃ path, Reads line path ∧
    (UnsafePath path ∨ path ∈ protectedFiles)

theorem not_refusesPath_iff {diffs : List FileDiff} {protectedFiles : List String} :
    ¬ RefusesPath diffs protectedFiles ↔
      (diffs.flatMap FileDiff.readings).findSome? (refusedPath protectedFiles) = none := by
  rw [readings_eq, List.findSome?_eq_none_iff]
  unfold RefusesPath
  simp only [List.mem_filterMap, diffGitPath_iff, refusedPath_eq_none_iff]
  push Not
  constructor
  · rintro h path ⟨line, hline, hreads⟩
    exact h line hline path hreads
  · intro h line hline path hreads
    exact h path ⟨line, hline, hreads⟩

/-- What `Reproduced` asks of a diff that is printed. -/
theorem reproduced_printed_iff {git : PatchGit} {c : Checkout} (hfailure : c.failure = none)
    {protectedFiles edited : List String} {diffs : List FileDiff}
    (hdiffs : git.diff c.base c.staged = diffs) :
    Reproduced git c protectedFiles edited ↔ (∀ d ∈ diffs, d.undecodable = none) ∧
      (RefusesPath diffs protectedFiles ∨
        ∃ tree, git.apply c.base (encode (String.ofList
            (universalNewlines (joinLines (diffs.flatMap FileDiff.lines))))) = some tree ∧
          ∀ path ∈ edited, tree path = c.workspace path) := by
  have hanswer : git.answer c = .printed diffs := by
    unfold PatchGit.answer
    rw [hfailure, ← hdiffs]
  unfold Reproduced
  rw [hanswer, buildCandidatePatch_printed]
  by_cases hbinary : (diffs.any fun d => d.undecodable.isSome) = true
  · have hnot : ¬ ∀ d ∈ diffs, d.undecodable = none := by
      rw [← decodable_iff, hbinary]
      decide
    simp [hbinary, hnot]
  · have hnone := decodable_iff.mp (Bool.eq_false_iff.mpr hbinary)
    rw [if_neg hbinary]
    cases hfound : (diffs.flatMap FileDiff.readings).findSome? (refusedPath protectedFiles) with
    | none => simp only [not_refusesPath_iff.mpr hfound, false_or, and_iff_right hnone]
    | some refused =>
      have hrefuses : RefusesPath diffs protectedFiles := by
        by_contra hnot
        rw [not_refusesPath_iff.mp hnot] at hfound
        cases hfound
      have hpath : refused ≠ .undecodable := by
        obtain ⟨_, path, _, _, hpath, _⟩ := List.findSome?_eq_some_iff.mp hfound
        rintro rfl
        unfold refusedPath at hpath
        split at hpath
        · cases hpath
        · split at hpath
          · cases hpath
          · split at hpath <;> cases hpath
      refine iff_of_true ?_ ⟨hnone, Or.inl hrefuses⟩
      cases refused with
      | undecodable => exact absurd rfl hpath
      | unsafePatch message | protectedPatch message | gitFailed message => trivial

/-- Behind the text-mode pipe the patch is about the code of the candidate when it is
UTF-8 without carriage returns, and every edited file is staged as it is in the workspace.
Without carriage returns that is also necessary. -/
theorem patch_reproduced (git : PatchGit) (c : Checkout) (protectedFiles edited : List String)
    (hexact : git.apply c.base (printedDiff (git.diff c.base c.staged)).bytes = some c.staged) :
    ((c.failure = none → (∀ d ∈ git.diff c.base c.staged, d.undecodable = none) ∧
        (RefusesPath (git.diff c.base c.staged) protectedFiles ∨
          NoReturns (git.diff c.base c.staged) ∧
            ∀ path ∈ edited, c.staged path = c.workspace path)) →
      Reproduced git c protectedFiles edited) ∧
    (NoReturns (git.diff c.base c.staged) → Reproduced git c protectedFiles edited →
      c.failure = none → (∀ d ∈ git.diff c.base c.staged, d.undecodable = none) ∧
        (RefusesPath (git.diff c.base c.staged) protectedFiles ∨
          ∀ path ∈ edited, c.staged path = c.workspace path)) := by
  have hreceived : NoReturns (git.diff c.base c.staged) →
      (∀ d ∈ git.diff c.base c.staged, d.undecodable = none) →
      git.apply c.base (encode (String.ofList (universalNewlines
        (joinLines ((git.diff c.base c.staged).flatMap FileDiff.lines))))) = some c.staged := by
    intro hreturns hnone
    rw [universalNewlines_printed hreturns, ← hexact]
    unfold printedDiff
    rw [decodable_iff.mpr hnone]
    rfl
  constructor
  · intro h
    cases hfailure : c.failure with
    | some failure =>
      unfold Reproduced PatchGit.answer
      rw [hfailure]
      trivial
    | none =>
      obtain ⟨hnone, hcases⟩ := h hfailure
      refine (reproduced_printed_iff hfailure rfl).mpr ⟨hnone, ?_⟩
      rcases hcases with hrefuses | ⟨hreturns, hkept⟩
      · exact Or.inl hrefuses
      · exact Or.inr ⟨c.staged, hreceived hreturns hnone, hkept⟩
  · intro hreturns h hfailure
    obtain ⟨hnone, hcases⟩ := (reproduced_printed_iff hfailure rfl).mp h
    refine ⟨hnone, ?_⟩
    rcases hcases with hrefuses | ⟨tree, happly, hagrees⟩
    · exact Or.inl hrefuses
    · rw [hreceived hreturns hnone] at happly
      cases happly
      exact Or.inr hagrees

/-! ## Two candidates -/

namespace Sample

def testFile : GitFile := ⟨[112, 97, 115, 115, 10], .regular⟩

/-- A protected test under another name. -/
def renamedTest : Checkout where
  base path := if path = "tests/t.py" then some testFile else none
  staged path := if path = "tests/old.py" then some testFile else none
  workspace path := if path = "tests/old.py" then some testFile else none

def renameDiff : FileDiff where
  old := "tests/t.py"
  new := "tests/old.py"
  body :=
    { lines := ["similarity index 100%".toList, "rename from tests/t.py".toList,
        "rename to tests/old.py".toList]
      noNewline := by decide
      noHeader := by decide }

def testRenamed : PatchGit where
  diff _ _ := [renameDiff]
  apply _ _ := some renamedTest.workspace

/-- The test is renamed in the patch, and the patch is accepted. -/
theorem renamed_test_accepted :
    TouchesProtected renamedTest.base renamedTest.workspace ["tests/t.py"] ∧
      ∃ patch, buildCandidatePatch (testRenamed.answer renamedTest) ["tests/t.py"] = .ok patch := by
  have hbuilt : buildCandidatePatch (.printed [renameDiff]) ["tests/t.py"] = .ok _ :=
    buildCandidatePatch_ok (by decide) (by decide +kernel)
  exact ⟨⟨"tests/t.py", by decide, by decide⟩, _, hbuilt⟩

def oneFile (bytes : List UInt8) : GitTree := fun path =>
  if path = "a.txt" then some ⟨bytes, .regular⟩ else none

/-- The start commit has the line `x\r\n`, the candidate leaves `y\n`. -/
def returnFile : Checkout where
  base := oneFile [120, 13, 10]
  staged := oneFile [121, 10]
  workspace := oneFile [121, 10]

def returnDiff : FileDiff where
  old := "a.txt"
  new := "a.txt"
  body :=
    { lines := ["index db127bf..975fbec 100644".toList, "--- a/a.txt".toList,
        "+++ b/a.txt".toList, "@@ -1 +1 @@".toList, "-x\r".toList, "+y".toList]
      noNewline := by decide
      noHeader := by decide }

/-- The line that goes is looked for with its carriage return. -/
def returnDropped : PatchGit where
  diff _ _ := [returnDiff]
  apply _ bytes :=
    if bytes = (printedDiff [returnDiff]).bytes then some (oneFile [121, 10]) else none

theorem return_applied :
    returnDropped.apply returnFile.base (printedDiff (returnDropped.diff returnFile.base
      returnFile.staged)).bytes = some returnFile.staged := if_pos rfl

/-- The carriage return is lost between Git and the patch, and the patch does not apply. -/
theorem return_lost :
    returnDropped.apply returnFile.base (printedDiff (returnDropped.diff returnFile.base
      returnFile.staged)).bytes = some returnFile.staged ∧
    ∃ patch, buildCandidatePatch (returnDropped.answer returnFile) [] = .ok patch ∧
      returnDropped.apply returnFile.base (encode patch) = none := by
  have hbuilt : buildCandidatePatch (.printed [returnDiff]) [] = .ok _ :=
    buildCandidatePatch_ok (by decide) (by decide +kernel)
  refine ⟨return_applied, _, hbuilt, if_neg fun hbytes => ?_⟩
  have hlists := congrArg String.toList (encode_injective hbytes)
  rw [String.toList_ofList, String.toList_ofList] at hlists
  exact absurd hlists (by decide +kernel)

/-- A file without carriage returns is reproduced. -/
def plainFile : Checkout where
  base _ := none
  staged := oneFile [120, 10]
  workspace := oneFile [120, 10]

def plainDiff : FileDiff where
  old := "a.txt"
  new := "a.txt"
  body :=
    { lines := ["new file mode 100644".toList, "index 0000000..587be6b".toList,
        "--- /dev/null".toList, "+++ b/a.txt".toList, "@@ -0,0 +1 @@".toList, "+x".toList]
      noNewline := by decide
      noHeader := by decide }

def plainAdded : PatchGit where
  diff _ _ := [plainDiff]
  apply _ bytes :=
    if bytes = (printedDiff [plainDiff]).bytes then some (oneFile [120, 10]) else none

theorem plain_file_reproduced : Reproduced plainAdded plainFile [] ["a.txt"] := by
  have hexact : plainAdded.apply plainFile.base (printedDiff (plainAdded.diff plainFile.base
      plainFile.staged)).bytes = some plainFile.staged := if_pos rfl
  have hreturns : NoReturns [plainDiff] := by
    unfold NoReturns
    decide +kernel
  have hsafe : ∀ d ∈ [plainDiff], d.undecodable = none := by decide
  have hdiff : plainAdded.diff plainFile.base plainFile.staged = [plainDiff] := rfl
  have h := patch_reproduced plainAdded plainFile [] ["a.txt"] hexact
  rw [hdiff] at h
  generalize Reproduced plainAdded plainFile [] ["a.txt"] = reproduced at h ⊢
  exact h.1 fun _ => ⟨hsafe, Or.inr ⟨hreturns, fun _ _ => rfl⟩⟩

end Sample

end EvoCI
