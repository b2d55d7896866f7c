import EvoCI.Benchmark.CandidatePatch
import EvoCI.Graph.State

/-! What Git prints about an applied candidate: the changes of tracked files as a diff without
context, and the other files as rows with their names, in quotes where they have other than plain
characters. The final review reads both reports back line by line. -/

namespace EvoCI

/-! ## The diff of the work tree -/

/-- Lines that the work tree has in the place of others, and the lines that stay behind them. A last
line without newline is marked. -/
structure Hunk where
  heading : List Char
  removed : List (List Char)
  removedOpen : Bool := false
  added : List (List Char)
  addedOpen : Bool := false
  kept : List (List Char) := []
  noNewline : ∀ line ∈ heading :: (removed ++ added), '\n' ∉ line

def openEnd (isOpen : Bool) : List (List Char) :=
  if isOpen then ["\\ No newline at end of file".toList] else []

/-- The lines of a hunk that are no additions. -/
def Hunk.others (h : Hunk) : List (List Char) := h.heading :: h.removed.map ('-' :: ·)

def Hunk.printed (h : Hunk) : List (List Char) :=
  h.others ++ openEnd h.removedOpen ++ h.added.map ('+' :: ·) ++ openEnd h.addedOpen

inductive ChangeKind where
  | modified
  | added
  | deleted
  deriving DecidableEq, Repr

/-- A tracked file that is not as in `HEAD`, where it may have had another name. `info` are the
lines about modes, indices and renaming. The hunks of a file that is not textual for Git are not
shown. -/
structure TrackedChange where
  path : String
  old : String := path
  kind : ChangeKind := .modified
  info : List (List Char)
  before : List (List Char) := []
  hunks : List Hunk
  textual : Bool := true
  infoPlain : ∀ line ∈ info, (∀ c ∈ line, Printable c) ∧ line.head? ≠ some '+'

/-- The lines of the file as it is now. -/
def TrackedChange.lines (d : TrackedChange) : List (List Char) :=
  d.before ++ d.hunks.flatMap fun h => h.added ++ h.kept

/-- What the change leaves at its path. The target of a link counts as its text, and a directory is
one of a repository of its own. -/
def TrackedChange.Left (d : TrackedChange) (entry : Option Entry) : Prop :=
  match d.kind with
  | .deleted => d.lines = []
  | .modified | .added =>
    match entry with
    | some (.file (.utf8 text) _) =>
      text.toList = joinLines d.lines ∨ text.toList ++ ['\n'] = joinLines d.lines
    | some (.file (.binary _) _) => d.textual = false
    | some (.link target) => target.toList ++ ['\n'] = joinLines d.lines
    | some (.dir _) => True
    | none => False

def nullName : List Char := "/dev/null".toList

/-- A tab stands behind a name with a space. -/
def tabbed (name path : List Char) : List Char := name ++ if ' ' ∈ path then ['\t'] else []

/-- The name that a header gives the file of the old side, and that of the new one. -/
def TrackedChange.oldName (style : NameStyle) (d : TrackedChange) : List Char :=
  if d.kind = .added then nullName else shownPath style style.source d.old

def TrackedChange.newName (style : NameStyle) (d : TrackedChange) : List Char :=
  if d.kind = .deleted then nullName else shownPath style style.target d.path

/-- The lines that Git prints above the hunks, or in their place. -/
def TrackedChange.header (style : NameStyle) (d : TrackedChange) : List (List Char) :=
  diffHeader style d.old d.path :: d.info ++
    if d.textual = false then
      ["Binary files ".toList ++ d.oldName style ++ " and ".toList ++ d.newName style ++
        " differ".toList]
    else if d.hunks = [] then []
    else ["--- ".toList ++ tabbed (d.oldName style) d.old.toList,
      "+++ ".toList ++ tabbed (d.newName style) d.path.toList]

def TrackedChange.printed (style : NameStyle) (d : TrackedChange) : List (List Char) :=
  d.header style ++ if d.textual then d.hunks.flatMap Hunk.printed else []

/-! ## The status of the work tree -/

/-- A name in a row of the status, where a space too makes quotes. -/
def shownName (path : String) : List Char :=
  if needsQuotes path ∨ ' ' ∈ path.toList then '"' :: path.toList.flatMap escapeChar ++ ['"']
  else path.toList

def untrackedRow (name : String) : List Char := "?? ".toList ++ shownName name

/-! ## An applied candidate -/

structure NewFile where
  path : String
  text : String

/-- A workspace with a candidate in it, at a location. `rows` are the rows of the status about
tracked files, and `untracked` the names that Git lists as untracked: of the new files those that
are not hidden from it, be it that they are ignored or in a repository of their own. -/
structure AppliedCandidate (root : Loc) where
  files : Files
  style : NameStyle := {}
  changes : List TrackedChange
  created : List NewFile
  rows : List (List Char)
  untracked : List String
  isHidden : String → Bool
  quotePath : style.quotePath = true
  changed : ∀ d ∈ changes, d.Left (files (root ++ pathParts d.path))
  present : ∀ f ∈ created, pathParts f.path ≠ [] ∧
    files.resolve root f.path = .ok (root ++ pathParts f.path) ∧
      ∃ mode, files.fileAt (root ++ pathParts f.path) = some (.utf8 f.text, mode)
  rowsPlain : ∀ row ∈ rows, (∀ c ∈ row, Printable c) ∧ ¬ "?? ".toList <+: row
  listed : ∀ f ∈ created, isHidden f.path = false → f.path ∈ untracked

namespace AppliedCandidate

variable {root : Loc}

def diff (c : AppliedCandidate root) : List Char :=
  joinLines (c.changes.flatMap (TrackedChange.printed c.style))

def status (c : AppliedCandidate root) : List Char :=
  joinLines (c.rows ++ c.untracked.map untrackedRow)

/-- A line contains one of the tokens. -/
def Forbidden (line : List Char) : Prop := ∃ token ∈ forbiddenTokens, token.toList <:+: line

/-- Some line that the candidate adds contains one of the tokens. -/
def AddsBypass (c : AppliedCandidate root) : Prop :=
  (∃ d ∈ c.changes, ∃ hunk ∈ d.hunks, ∃ line ∈ hunk.added, Forbidden line) ∨
    ∃ f ∈ c.created, ∃ line ∈ patchLines f.text.toList, Forbidden line

end AppliedCandidate

/-- The reports, each of them where its command succeeds, as a text-mode pipe reads them. -/
structure Reported (cfg : Config) (c : AppliedCandidate cfg.root) : Prop where
  diff : ∀ printed, gitOutput cfg ["diff", "--unified=0", "HEAD", "--"] c.files = some printed →
    printed = String.ofList (universalNewlines c.diff)
  status : ∀ printed,
    gitOutput cfg ["status", "--porcelain=v1", "--untracked-files=all"] c.files = some printed →
      printed = String.ofList (universalNewlines c.status)

/-! ## What the review sees -/

/-- What the review looks for in a line of the diff. -/
def isBypass (piece : String) : Bool :=
  startsWith piece "+" && !startsWith piece "+++" &&
    forbiddenTokens.any fun token => containsText token piece

/-- A printed line of which a piece between line boundaries is taken for a bypass. -/
def Flagged (line : List Char) : Prop :=
  ∃ piece ∈ splitLines (String.ofList line), isBypass piece = true

/-- A name of the internal artifacts. -/
def isInternal (relative : String) : Bool :=
  relative = ".evoci" || startsWith relative ".evoci/"

/-- The name leads to a file of the workspace that contains a token, and is not internal. -/
def NameSeen (cfg : Config) (files : Files) (relative : String) : Prop :=
  isInternal relative = false ∧ ∃ target content mode,
    files.resolve cfg.root relative = .ok target ∧ files.fileAt target = some (content, mode) ∧
      cfg.root <+: target ∧ cfg.root ≠ target ∧
      AppliedCandidate.Forbidden (replacedText cfg.decodeReplace content).toList

/-- Git's reports show the review a bypass: in an added line of a textual file, in a piece of
another line of its hunks, or in a file that has the very name that a row shows. -/
structure ShownBypass (cfg : Config) (c : AppliedCandidate cfg.root) : Prop where
  shown : (gitOutput cfg ["diff", "--unified=0", "HEAD", "--"] c.files ≠ none ∧
      ∃ d ∈ c.changes, d.textual = true ∧ ∃ hunk ∈ d.hunks,
        (∃ line ∈ hunk.added, Flagged ('+' :: line)) ∨ ∃ line ∈ hunk.others, Flagged line) ∨
    (gitOutput cfg ["status", "--porcelain=v1", "--untracked-files=all"] c.files ≠ none ∧
      ∃ name ∈ c.untracked, NameSeen cfg c.files (String.ofList (shownName name)))

end EvoCI
