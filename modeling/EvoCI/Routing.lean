import Mathlib.Data.List.Dedup
import Mathlib.Data.List.Infix
import Mathlib.Data.List.Sort
import EvoCI.Domain

/-! Deterministic policy gates: which edits need a human, and which additions in
the final diff are refused. -/

namespace EvoCI

/-! ## Approval -/

/-- The root of an absolute path: two slashes, and no third, are a root of their own. -/
def posixRoot (path : String) : String :=
  if path.toList.take 2 = ['/', '/'] ∧ path.toList[2]? ≠ some '/' then "//" else "/"

/-- `str(PurePosixPath(path))`. -/
def posixPath (path : String) : String :=
  let parts := pathParts path
  if isAbsolute path then posixRoot path ++ joinParts parts
  else if parts = [] then "."
  else joinParts parts

/-- `str.lower` on one character, as far as the result can be ASCII: the Kelvin
sign is the one character outside ASCII that becomes an ASCII letter. -/
def lowerChar (c : Char) : Char := if c = '\u212a' then 'k' else c.toLower

def lower (text : String) : String := String.ofList (text.toList.map lowerChar)

/-- `PurePosixPath(path).name.lower()`. -/
def loweredName (path : String) : String := lower ((pathParts path).getLastD "")

def manifestNames : List String := ["pyproject.toml", "package.json", "cargo.toml", "go.mod"]

def lockNames : List String :=
  ["uv.lock", "poetry.lock", "package-lock.json", "pnpm-lock.yaml", "yarn.lock"]

def isWorkflowPath (path : String) : Bool :=
  ".github/workflows/".toList.isPrefixOf (posixPath path).toList

/-- `requires_approval`. -/
def requiresApproval (output : FixerOutput) : Bool :=
  let paths := output.proposal.changedFiles
  output.proposal.risk = .medium || output.proposal.risk = .high ||
    paths.any isWorkflowPath ||
    output.edits.any FileEdit.delete || 4 < (paths.map posixPath).dedup.length ||
    (paths.any (fun path => loweredName path ∈ manifestNames) &&
      paths.any (fun path => loweredName path ∈ lockNames))

/-! ## Review bypasses -/

def forbiddenTokens : List String :=
  ["pytest.skip(", "@pytest.mark.skip", "continue-on-error: true", "|| true", "# noqa",
    "eslint-disable"]

def containsText (token text : String) : Bool := token.toList <:+: text.toList

def isLineBreak (c : Char) : Bool :=
  ('\n' ≤ c ∧ c ≤ '\r') ∨ ('\x1c' ≤ c ∧ c ≤ '\x1e') ∨ c = '\u0085' ∨ c = '\u2028' ∨ c = '\u2029'

/-- `str.splitlines()`; the accumulator is the current line, reversed. -/
def splitLinesFrom : List Char → List Char → List String
  | [], [] => []
  | line, [] => [String.ofList line.reverse]
  | line, '\r' :: '\n' :: cs => String.ofList line.reverse :: splitLinesFrom [] cs
  | line, c :: cs =>
    if isLineBreak c then String.ofList line.reverse :: splitLinesFrom [] cs
    else splitLinesFrom (c :: line) cs

def splitLines (text : String) : List String := splitLinesFrom [] text.toList

def startsWith (line start : String) : Bool := start.toList.isPrefixOf line.toList

/-- The blockers in the output of `git diff`. -/
def diffBlockers (diff : String) : List String :=
  (splitLines diff).flatMap fun line =>
    if startsWith line "+" && !startsWith line "+++" then
      (forbiddenTokens.filter fun token => containsText token line).map fun token =>
        "possible test or CI bypass in final diff: " ++ token
    else []

/-- Text of an untracked file, read with `errors="replace"`. -/
def replacedText (decodeReplace : List UInt8 → String) : Content → String
  | .utf8 text => String.ofList (universalNewlines text.toList)
  | .binary raw => decodeReplace raw

/-- The blockers among the untracked files that `git status` reports. -/
def untrackedBlockers (decodeReplace : List UInt8 → String) (files : Files) (root : Loc)
    (status : String) : List String :=
  (splitLines status).flatMap fun row =>
    if startsWith row "?? " then
      let relative := String.ofList (row.toList.drop 3)
      if relative = ".evoci" ∨ startsWith relative ".evoci/" then []
      else
        match files.resolve root relative with
        | .error _ => []
        | .ok target =>
          match files.fileAt target with
          | some (content, _) =>
            if root <+: target ∧ root ≠ target ∧
                forbiddenTokens.any fun token =>
                  containsText token (replacedText decodeReplace content) then
              ["possible test or CI bypass in untracked file " ++ relative]
            else []
          | none => []
    else []

/-- `contains_workspace_review_bypass`, given what the two Git commands print,
`none` standing for a command that fails. -/
def containsWorkspaceReviewBypass (gitDiff gitStatus : Option String)
    (decodeReplace : List UInt8 → String) (files : Files) (root : Loc) : List String :=
  let blockers := gitDiff.elim [] diffBlockers ++
    gitStatus.elim [] (untrackedBlockers decodeReplace files root)
  blockers.dedup.insertionSort (· ≤ ·)

/-- `"; ".join(items)`. -/
def joinSemicolon : List String → String
  | [] => ""
  | [item] => item
  | item :: items => item ++ "; " ++ joinSemicolon items

/-! ## Lines and the reasons they give -/

theorem splitLinesFrom_other {c : Char} (h : isLineBreak c = false) (read cs : List Char) :
    splitLinesFrom read (c :: cs) = splitLinesFrom (c :: read) cs := by
  rw [splitLinesFrom]
  · rw [h]
    rfl
  · rintro rest rfl
    cases h

theorem splitLinesFrom_newline (read rest : List Char) :
    splitLinesFrom read ('\n' :: rest) = String.ofList read.reverse :: splitLinesFrom [] rest := by
  rw [splitLinesFrom]
  · rfl
  · exact fun _ hc => absurd hc (by decide)

/-- A line without breaks of its own ends at its newline. -/
theorem splitLinesFrom_line {cs : List Char} (h : ∀ c ∈ cs, isLineBreak c = false)
    (read rest : List Char) :
    splitLinesFrom read (cs ++ '\n' :: rest) =
      String.ofList (read.reverse ++ cs) :: splitLinesFrom [] rest := by
  induction cs generalizing read with
  | nil => rw [List.nil_append, splitLinesFrom_newline, List.append_nil]
  | cons c cs ih =>
    rw [List.cons_append, splitLinesFrom_other (h c List.mem_cons_self),
      ih fun d hd => h d (List.mem_cons_of_mem _ hd)]
    simp

/-- A line without boundaries of its own is read as it is. -/
theorem splitLinesFrom_whole {line : List Char} (h : ∀ c ∈ line, isLineBreak c = false)
    (read : List Char) (hne : read.reverse ++ line ≠ []) :
    splitLinesFrom read line = [String.ofList (read.reverse ++ line)] := by
  induction line generalizing read with
  | nil =>
    rw [List.append_nil] at hne
    rw [splitLinesFrom, List.append_nil]
    rintro rfl
    exact hne rfl
  | cons c line ih =>
    rw [splitLinesFrom_other (h c List.mem_cons_self),
      ih (fun d hd => h d (List.mem_cons_of_mem _ hd)) _ (by simp)]
    simp

/-- A line that ends at its newline gives its own pieces, and at most a blank one. -/
theorem splitLinesFrom_end (line read rest : List Char) :
    ∃ blank : List String, (∀ b ∈ blank, b = "") ∧
      splitLinesFrom read (line ++ '\n' :: rest) =
        splitLinesFrom read line ++ blank ++ splitLinesFrom [] rest := by
  fun_induction splitLinesFrom read line with
  | case1 => exact ⟨[""], by simp, by rw [List.nil_append, splitLinesFrom_newline]; rfl⟩
  | case2 read hread =>
    exact ⟨[], by simp, by rw [List.nil_append, splitLinesFrom_newline]; rfl⟩
  | case3 read cs ih =>
    obtain ⟨blank, hblank, heq⟩ := ih
    exact ⟨blank, hblank, by rw [List.cons_append, List.cons_append, splitLinesFrom, heq]; rfl⟩
  | case4 read c cs hne hbreak ih =>
    by_cases hlast : c = '\r' ∧ cs = []
    · obtain ⟨rfl, rfl⟩ := hlast
      refine ⟨[], by simp, ?_⟩
      rw [List.cons_append, List.nil_append, splitLinesFrom]
      simp [splitLinesFrom]
    · obtain ⟨blank, hblank, heq⟩ := ih
      refine ⟨blank, hblank, ?_⟩
      rw [List.cons_append, splitLinesFrom, if_pos hbreak, heq, List.cons_append, List.cons_append]
      intro cs' hc hcs
      cases cs with
      | nil => exact hlast ⟨hc, rfl⟩
      | cons d cs =>
        rw [List.cons_append] at hcs
        obtain ⟨rfl, -⟩ := List.cons.inj hcs
        exact hne cs hc rfl
  | case5 read c cs hne hbreak ih =>
    have hother : isLineBreak c = false := by simpa using hbreak
    obtain ⟨blank, hblank, heq⟩ := ih
    exact ⟨blank, hblank, by rw [List.cons_append, splitLinesFrom_other hother, heq]⟩

theorem diffBlockers_ne_empty {diff : String} : ∀ b ∈ diffBlockers diff, b ≠ "" := by
  intro b hb
  simp only [diffBlockers, List.mem_flatMap] at hb
  obtain ⟨line, -, hb⟩ := hb
  split at hb
  · obtain ⟨token, -, rfl⟩ := List.mem_map.mp hb
    intro h
    have hlen := congrArg String.length h
    simp [String.length_append] at hlen
  · cases hb

theorem untrackedBlockers_ne_empty {decode : List UInt8 → String} {files : Files} {root : Loc}
    {status : String} : ∀ b ∈ untrackedBlockers decode files root status, b ≠ "" := by
  intro b hb
  simp only [untrackedBlockers, List.mem_flatMap] at hb
  obtain ⟨row, -, hb⟩ := hb
  split at hb
  · split at hb
    · cases hb
    · split at hb
      · cases hb
      · split at hb
        · split at hb
          · rw [List.mem_singleton] at hb
            rw [hb]
            intro h
            have hlen := congrArg String.length h
            simp [String.length_append] at hlen
          · cases hb
        · cases hb
  · cases hb

theorem blocker_ne_empty {gitDiff gitStatus : Option String} {decode : List UInt8 → String}
    {files : Files} {root : Loc} :
    ∀ b ∈ containsWorkspaceReviewBypass gitDiff gitStatus decode files root, b ≠ "" := by
  intro b hb
  simp only [containsWorkspaceReviewBypass, List.mem_insertionSort, List.mem_dedup,
    List.mem_append] at hb
  rcases hb with hb | hb
  · cases gitDiff with
    | none => cases hb
    | some diff =>
      rw [Option.elim_some] at hb
      exact diffBlockers_ne_empty b hb
  · cases gitStatus with
    | none => cases hb
    | some status =>
      rw [Option.elim_some] at hb
      exact untrackedBlockers_ne_empty b hb

/-- The reason a review gives is never empty. -/
theorem joinSemicolon_ne_empty {items : List String} (hne : items ≠ [])
    (h : ∀ item ∈ items, item ≠ "") : joinSemicolon items ≠ "" := by
  cases items with
  | nil => exact absurd rfl hne
  | cons item items =>
    cases items with
    | nil => exact h item (by simp)
    | cons next items =>
      intro heq
      have hlen := congrArg String.length heq
      simp [joinSemicolon, String.length_append] at hlen

end EvoCI
