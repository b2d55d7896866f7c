import Mathlib.Data.List.Dedup
import Mathlib.Data.String.Basic
import EvoCI.Graph.WorkspaceId
import EvoCI.Graph.ReviewBypass

/-! The files that a run has changed in the end, as the metrics count them: the paths of a status
with its records behind NULs, together with the lines of a list of names, where Git puts a name
that is not plain in quotes. -/

namespace EvoCI

open Library

/-! ## Reading Git's reports -/

/-- A command of Git: whether it succeeds, and the bytes it prints. -/
structure GitRun where
  succeeded : Bool
  stdout : Content

/-- The loop of `_status_paths`: the changed and the untracked paths. `skipped` tells that the
record belongs to the one before it. -/
def statusPathsFrom : Bool → List String → List String × List String
  | _, [] => ([], [])
  | true, _ :: records => statusPathsFrom false records
  | false, record :: records =>
    let chars := record.toList
    if chars = [] then statusPathsFrom false records
    else
      let status := chars.take 2
      let path := if 3 < chars.length then String.ofList (chars.drop 3) else ""
      let found := statusPathsFrom (decide ('R' ∈ status ∨ 'C' ∈ status)) records
      if path = "" then found
      else (path :: found.1, if status = ['?', '?'] then path :: found.2 else found.2)

/-- `_status_paths`; the lists stand for sets. -/
def statusPaths (output : String) : List String × List String :=
  statusPathsFrom false (splitNul output)

/-- `len(data.splitlines())` of bytes; `inLine` tells that a line has begun. -/
def countLines : Bool → List UInt8 → Nat
  | inLine, [] => if inLine then 1 else 0
  | _, 13 :: 10 :: bytes => 1 + countLines false bytes
  | _, byte :: bytes =>
    if byte = 10 ∨ byte = 13 then 1 + countLines false bytes else countLines true bytes

/-- What one file adds to `_untracked_lines`. -/
def linesOfFile (files : Files) (root target : Loc) : Nat :=
  match files.fileAt target with
  | some (content, _) =>
    if root <+: target ∧ target ≠ root ∧ 0 ∉ content.bytes then countLines false content.bytes
    else 0
  | none => 0

/-- `_untracked_lines`. -/
def untrackedLines (files : Files) (root : Loc) : List String → Except PyError Nat
  | [] => .ok 0
  | relative :: paths =>
    match files.resolve root relative with
    | .error e => .error e
    | .ok target => (untrackedLines files root paths).map (linesOfFile files root target + ·)

/-- `int(part)` where `part.isdigit()`, else nothing is counted. -/
def numstatCount (part : List Char) : Nat :=
  if part ≠ [] ∧ part.all Char.isDigit then
    part.foldl (fun n c => n * 10 + (c.toNat - 48)) 0
  else 0

/-- The lines added and deleted by the tracked files. -/
def numstatLines : List String → Nat × Nat
  | [] => (0, 0)
  | row :: rows =>
    let counted := numstatLines rows
    match row.toList.splitOn '\t' with
    | added :: deleted :: _ => (numstatCount added + counted.1, numstatCount deleted + counted.2)
    | _ => counted

structure FinalWorkspaceChanges where
  changedFiles : List String
  linesAdded : Nat := 0
  linesDeleted : Nat := 0

def statusArgs : List String := ["status", "--porcelain=v1", "-z", "--untracked-files=all"]

def namesArgs : List String := ["diff", "--name-only", "HEAD", "--"]

def numstatArgs : List String := ["diff", "--numstat", "HEAD", "--"]

/-- The lines that a successful command prints. -/
def GitRun.lines (run : GitRun) : Except PyError (List String) :=
  match run.stdout.readText with
  | .error e => .error e
  | .ok text => .ok (if run.succeeded then splitLines text else [])

/-- `collect_final_workspace_changes`. -/
def collectFinalWorkspaceChanges (git : List String → GitRun) (files : Files) (root : Loc) :
    Except PyError FinalWorkspaceChanges :=
  match (git statusArgs).stdout.readText with
  | .error e => .error e
  | .ok status =>
    if (git statusArgs).succeeded = false then .ok { changedFiles := [] }
    else
      let found := statusPaths status
      match (git namesArgs).lines, (git numstatArgs).lines with
      | .error e, _ => .error e
      | _, .error e => .error e
      | .ok names, .ok rows =>
        match untrackedLines files root found.2.dedup with
        | .error e => .error e
        | .ok untracked =>
          .ok {
            changedFiles :=
              (found.1 ++ names.filter (· ≠ "")).dedup.insertionSort (· ≤ ·)
            linesAdded := (numstatLines rows).1 + untracked
            linesDeleted := (numstatLines rows).2 }

/-- `files_changed` of `collect_metrics`. -/
def filesChanged (changes : FinalWorkspaceChanges) : Nat := changes.changedFiles.length

/-- `gold_file_overlap` of `collect_metrics`, as the two numbers that are divided. -/
def goldFileOverlap (truth : List String) (changes : FinalWorkspaceChanges) :
    Option (Nat × Nat) :=
  let expected := truth.dedup
  if expected = [] then none
  else some ((expected.filter (· ∈ changes.changedFiles)).length, expected.length)

/-! ## The final state of a workspace -/

/-- A file name: text, or bytes that are not UTF-8. -/
inductive GitName where
  | text (name : String)
  | raw (bytes : List UInt8)
  deriving DecidableEq, Repr

/-- The files of `HEAD`, those of the index, those of the work tree as Git would store them, and
the untracked ones that are not ignored. -/
structure FinalState where
  head : GitName → Option GitFile
  index : GitName → Option GitFile
  work : GitName → Option GitFile
  untracked : List GitName

namespace FinalState

/-- A file that Git knows and that is not as in `HEAD`. -/
def Differs (s : FinalState) (name : GitName) : Prop :=
  (s.head name ≠ none ∨ s.index name ≠ none) ∧ s.head name ≠ s.work name

def Changed (s : FinalState) (name : GitName) : Prop := s.Differs name ∨ name ∈ s.untracked

/-- Something else is staged than what the work tree has, which is as in `HEAD`. -/
def OnlyStaged (s : FinalState) (name : GitName) : Prop :=
  s.head name ≠ s.index name ∧ s.head name = s.work name ∧ name ∉ s.untracked

/-- What makes Git report a name in the status. -/
def InStatus (s : FinalState) (name : GitName) : Prop :=
  s.head name ≠ s.index name ∨ (s.index name ≠ none ∧ s.index name ≠ s.work name) ∨
    name ∈ s.untracked

/-- What makes Git list a name as different from `HEAD`: what is not in the index is gone. -/
def InDiff (s : FinalState) (name : GitName) : Prop :=
  (s.head name ≠ none ∨ s.index name ≠ none) ∧
    s.head name ≠ if s.index name = none then none else s.work name

end FinalState

/-- The metrics count each changed file once, under its name, and nothing else. -/
structure CountsOnce (s : FinalState) (changes : FinalWorkspaceChanges) : Prop where
  nodup : changes.changedFiles.Nodup
  exact : ∀ name, s.Changed name ↔ ∃ path ∈ changes.changedFiles, name = .text path
  counted : ∀ names : List GitName, names.Nodup → (∀ name, name ∈ names ↔ s.Changed name) →
    filesChanged changes = names.length
  overlap : ∀ truth hits : List String, truth ≠ [] → hits.Nodup →
    (∀ path, path ∈ hits ↔ path ∈ truth ∧ s.Changed (.text path)) →
      goldFileOverlap truth changes = some (hits.length, truth.dedup.length)

/-! ## What Git prints about it -/

/-- One byte of a name in quotes. -/
def shownByte (byte : UInt8) : List Char :=
  if byte < 0x80 then escapeChar (Char.ofNat byte.toNat) else octal byte

namespace GitName

/-- The name on a line of its own. -/
def shown : GitName → List Char
  | .text name => shownPath {} "" name
  | .raw bytes => '"' :: bytes.flatMap shownByte ++ ['"']

def isText : GitName → Bool
  | .text _ => true
  | .raw _ => false

def asText : GitName → String
  | .text name => name
  | .raw _ => ""

def bytes : GitName → List UInt8
  | .text name => encode name
  | .raw bytes => bytes

/-- The name is not shown as it is. -/
def Quoted (name : GitName) : Prop := name.shown ≠ name.asText.toList

/-- The name as it is read through a pipe in text mode. -/
def read (name : GitName) : String := textRead name.asText

end GitName

/-- A record of the status: its letters, the name, and the old name of a file that was renamed or
copied. -/
structure StatusEntry where
  staged : Char
  unstaged : Char
  path : GitName
  origin : Option GitName := none

def statusLetters : List Char := [' ', 'M', 'T', 'A', 'D', 'R', 'C', 'U', '?']

namespace StatusEntry

def names (e : StatusEntry) : List GitName := e.path :: e.origin.toList

def moved (e : StatusEntry) : Bool :=
  decide ('R' ∈ [e.staged, e.unstaged] ∨ 'C' ∈ [e.staged, e.unstaged])

def isUntracked (e : StatusEntry) : Bool := decide ([e.staged, e.unstaged] = ['?', '?'])

/-- The parts of the record that have a NUL behind them. -/
def fields (e : StatusEntry) : List String :=
  (String.ofList [e.staged, e.unstaged, ' '] ++ e.path.asText) ::
    e.origin.toList.map GitName.asText

def bytes (e : StatusEntry) : List UInt8 :=
  encode (String.ofList [e.staged, e.unstaged, ' ']) ++
    e.names.flatMap fun name => name.bytes ++ [0]

end StatusEntry

def printedStatus (entries : List StatusEntry) : Content :=
  if entries.all fun e => e.names.all GitName.isText then
    .utf8 (String.ofList ((entries.flatMap StatusEntry.fields).flatMap fun field =>
      field.toList ++ ['\x00']))
  else .binary (entries.flatMap StatusEntry.bytes)

/-- What Git reports of the state: a status that has each name it is about, if only as the old
name of another one, and the list of names. Both leave out the old name of what they take for
renamed. -/
structure GitReports (git : List String → GitRun) (s : FinalState) where
  entries : List StatusEntry
  names : List GitName
  letters : ∀ e ∈ entries, e.staged ∈ statusLetters ∧ e.unstaged ∈ statusLetters
  moved : ∀ e ∈ entries, e.moved = e.origin.isSome
  plain : ∀ e ∈ entries, ∀ text, .text text ∈ e.names → text ≠ "" ∧ '\x00' ∉ text.toList
  shown : ∀ text, .text text ∈ names → text ≠ ""
  complete : ∀ name, s.InStatus name →
    ∃ e ∈ entries, e.path = name ∨ e.origin = some name
  sound : ∀ e ∈ entries, s.InStatus e.path
  listed : ∀ name ∈ names, s.InDiff name
  printsStatus : git statusArgs = ⟨true, printedStatus entries⟩
  printsNames : git namesArgs =
    ⟨true, .utf8 (String.ofList (joinLines (names.map GitName.shown)))⟩
  printsNumstat : ∃ rows, git numstatArgs = ⟨true, .utf8 rows⟩

/-- When the reports can be read for what they are about. -/
structure ReadReports {git : List String → GitRun} {s : FinalState} (r : GitReports git s)
    (files : Files) (root : Loc) : Prop where
  decodable : ∀ e ∈ r.entries, ∀ name ∈ e.names, name.isText = true
  resolvable : ∀ e ∈ r.entries, e.isUntracked = true →
    ∃ target, files.resolve root e.path.read = .ok target
  returns : ∀ text, s.Changed (.text text) → '\r' ∉ text.toList
  staged : ∀ e ∈ r.entries, s.OnlyStaged e.path → s.Changed (.text e.path.read)
  quoted : ∀ name ∈ r.names, name.Quoted ∨ s.OnlyStaged name →
    s.Changed (.text (String.ofList name.shown))
  renamed : ∀ e ∈ r.entries, ∀ name, e.origin = some name → s.Changed name →
    (∃ other ∈ r.entries, name = .text other.path.read) ∨
      ∃ other ∈ r.names, name = .text (String.ofList other.shown)

/-! ## The status is read -/

theorem letter_ne_return {c : Char} (h : c ∈ statusLetters) : c ≠ '\r' := by
  rintro rfl
  exact absurd h (by decide)

theorem letter_ne_nul {c : Char} (h : c ∈ statusLetters) : c ≠ '\x00' := by
  rintro rfl
  exact absurd h (by decide)

theorem textRead_record {staged unstaged : Char} (hstaged : staged ∈ statusLetters)
    (hunstaged : unstaged ∈ statusLetters) (path : String) :
    (textRead (String.ofList [staged, unstaged, ' '] ++ path)).toList =
      staged :: unstaged :: ' ' :: (textRead path).toList := by
  rw [textRead, textRead, String.toList_ofList, String.toList_ofList, String.toList_append,
    String.toList_ofList]
  simp only [List.cons_append, List.nil_append]
  rw [universalNewlines_other (letter_ne_return hstaged),
    universalNewlines_other (letter_ne_return hunstaged), universalNewlines_other (by decide)]

/-- One record gives its path. -/
theorem statusPathsFrom_record {staged unstaged : Char} (hstaged : staged ∈ statusLetters)
    (hunstaged : unstaged ∈ statusLetters) {path : String} (hpath : path ≠ "")
    (records : List String) :
    statusPathsFrom false
        (textRead (String.ofList [staged, unstaged, ' '] ++ path) :: records) =
      let found := statusPathsFrom
        (decide ('R' ∈ [staged, unstaged] ∨ 'C' ∈ [staged, unstaged])) records
      (textRead path :: found.1,
        if [staged, unstaged] = ['?', '?'] then textRead path :: found.2 else found.2) := by
  have hread := textRead_ne_empty hpath
  have hchars : (textRead path).toList ≠ [] := fun h => hread (String.toList_eq_nil_iff.mp h)
  have hlength : 0 < (textRead path).toList.length := List.length_pos_of_ne_nil hchars
  have hlong : 3 < (textRead path).toList.length + 1 + 1 + 1 := by omega
  rw [statusPathsFrom]
  simp only [textRead_record hstaged hunstaged, List.take_succ_cons, List.take_zero,
    List.drop_succ_cons, List.drop_zero, List.length_cons, String.ofList_toList, reduceCtorEq,
    if_false, if_pos hlong, hread]

section

variable {git : List String → GitRun} {s : FinalState} (r : GitReports git s)

theorem statusPathsFrom_entries {entries : List StatusEntry}
    (hletters : ∀ e ∈ entries, e.staged ∈ statusLetters ∧ e.unstaged ∈ statusLetters)
    (hmoved : ∀ e ∈ entries, e.moved = e.origin.isSome)
    (hpaths : ∀ e ∈ entries, e.path.asText ≠ "") :
    statusPathsFrom false ((entries.flatMap StatusEntry.fields).map textRead ++ [""]) =
      (entries.map fun e => e.path.read,
        (entries.filter StatusEntry.isUntracked).map fun e => e.path.read) := by
  induction entries with
  | nil => rfl
  | cons e entries ih =>
    have hrest := ih (fun other h => hletters other (List.mem_cons_of_mem _ h))
      (fun other h => hmoved other (List.mem_cons_of_mem _ h))
      fun other h => hpaths other (List.mem_cons_of_mem _ h)
    obtain ⟨hstaged, hunstaged⟩ := hletters e List.mem_cons_self
    have hskip := hmoved e List.mem_cons_self
    have hfields : ((e :: entries).flatMap StatusEntry.fields).map textRead ++ [""] =
        textRead (String.ofList [e.staged, e.unstaged, ' '] ++ e.path.asText) ::
          (e.origin.toList.map fun name => name.read) ++
            ((entries.flatMap StatusEntry.fields).map textRead ++ [""]) := by
      simp [StatusEntry.fields, GitName.read, Function.comp_def]
    have hfound : statusPathsFrom e.moved ((e.origin.toList.map fun name => name.read) ++
        ((entries.flatMap StatusEntry.fields).map textRead ++ [""])) =
          statusPathsFrom false ((entries.flatMap StatusEntry.fields).map textRead ++ [""]) := by
      rw [hskip]
      cases e.origin with
      | none => rfl
      | some name => rfl
    rw [hfields, List.cons_append, statusPathsFrom_record hstaged hunstaged
      (hpaths e List.mem_cons_self)]
    rw [StatusEntry.moved] at hfound
    simp only [hfound, hrest, List.map_cons, List.filter_cons, StatusEntry.isUntracked,
      decide_eq_true_eq]
    split
    next => rfl
    next => rfl

/-- All names of the status are text. -/
def GitReports.Decodable : Prop := ∀ e ∈ r.entries, ∀ name ∈ e.names, name.isText = true

theorem GitReports.asText_ne_empty (hdecodable : r.Decodable) {e : StatusEntry}
    (he : e ∈ r.entries) : e.path.asText ≠ "" := by
  have htext := hdecodable e he e.path List.mem_cons_self
  have hplain := r.plain e he
  cases hpath : e.path with
  | raw bytes =>
    rw [hpath] at htext
    cases htext
  | text name => exact (hplain name (hpath ▸ List.mem_cons_self)).1

theorem GitReports.fields_plain (hdecodable : r.Decodable) :
    ∀ field ∈ r.entries.flatMap StatusEntry.fields, '\x00' ∉ field.toList := by
  intro field hfield
  obtain ⟨e, he, hfield⟩ := List.mem_flatMap.mp hfield
  have hname : ∀ name ∈ e.names, '\x00' ∉ name.asText.toList := by
    intro name hname
    cases name with
    | raw bytes => cases hdecodable e he _ hname
    | text text => exact (r.plain e he text hname).2
  obtain ⟨hstaged, hunstaged⟩ := r.letters e he
  rcases List.mem_cons.mp hfield with rfl | hfield
  · rw [String.toList_append, String.toList_ofList]
    simp only [List.cons_append, List.nil_append, List.mem_cons, not_or]
    exact ⟨(letter_ne_nul hstaged).symm, (letter_ne_nul hunstaged).symm, by decide,
      hname e.path List.mem_cons_self⟩
  · obtain ⟨name, horigin, rfl⟩ := List.mem_map.mp hfield
    exact hname name (List.mem_cons_of_mem _ horigin)

theorem GitReports.statusPaths_read (hdecodable : r.Decodable) :
    ∃ status, (git statusArgs).stdout.readText = .ok status ∧
      statusPaths status = (r.entries.map fun e => e.path.read,
        (r.entries.filter StatusEntry.isUntracked).map fun e => e.path.read) := by
  have hall : (r.entries.all fun e => e.names.all GitName.isText) = true := by
    rw [List.all_eq_true]
    intro e he
    rw [List.all_eq_true]
    exact hdecodable e he
  refine ⟨_, by rw [r.printsStatus, printedStatus, if_pos hall]; rfl, ?_⟩
  rw [statusPaths]
  exact (congrArg _ (splitNul_names (r.fields_plain hdecodable))).trans
    (statusPathsFrom_entries r.letters r.moved fun e he => r.asText_ne_empty hdecodable he)

/-- A name that is not UTF-8 makes the status unreadable. -/
theorem GitReports.decodable_of_read {status : String}
    (h : (git statusArgs).stdout.readText = .ok status) : r.Decodable := by
  rw [r.printsStatus, printedStatus] at h
  split at h
  next hall =>
    intro e he name hname
    exact List.all_eq_true.mp (List.all_eq_true.mp hall e he) name hname
  next => cases h

/-! ## The list of names is read -/

theorem printable_shown (name : GitName) : ∀ c ∈ name.shown, Printable c := by
  intro c hc
  cases name with
  | text text => exact printable_shownPath rfl "" text c hc
  | raw bytes =>
    simp only [GitName.shown, List.cons_append, List.mem_cons, List.mem_append, List.mem_flatMap,
      List.not_mem_nil, or_false] at hc
    rcases hc with rfl | ⟨byte, -, hbyte⟩ | rfl
    · decide
    · rw [shownByte] at hbyte
      split at hbyte
      · exact printable_escapeChar _ c hbyte
      · exact printable_octal byte c hbyte
    · decide

theorem GitReports.shown_ne_nil {name : GitName} (h : name ∈ r.names) : name.shown ≠ [] := by
  cases name with
  | raw bytes => exact List.cons_ne_nil _ _
  | text text =>
    simp only [GitName.shown, shownPath, String.toList_empty, List.nil_append]
    split
    · exact List.cons_ne_nil _ _
    · exact fun hnil => r.shown text h (String.toList_eq_nil_iff.mp hnil)

theorem GitReports.mem_names_iff {path : String} :
    (∃ lines, (git namesArgs).lines = .ok lines ∧ path ∈ lines.filter (· ≠ "")) ↔
      ∃ name ∈ r.names, path = String.ofList name.shown := by
  have hlines : (git namesArgs).lines = .ok (splitLines (String.ofList (joinLines
      (r.names.map GitName.shown)))) := by
    rw [r.printsNames]
    simp only [GitRun.lines, Content.readText, if_true, splitLines, String.toList_ofList,
      splitLinesFrom_universalNewlines]
  have hpiece : ∀ name ∈ r.names, splitLines (String.ofList name.shown) =
      [String.ofList name.shown] := by
    intro name hname
    rw [splitLines, String.toList_ofList, splitLinesFrom_whole (fun c hc =>
      isLineBreak_of_printable (printable_shown name c hc)) []
      (by simpa using r.shown_ne_nil hname)]
    rfl
  rw [hlines]
  constructor
  · rintro ⟨lines, heq, hpath⟩
    cases heq
    obtain ⟨hin, hne⟩ := List.mem_filter.mp hpath
    obtain ⟨line, hline, hin⟩ := (mem_splitLines_joinLines _ (of_decide_eq_true hne)).mp hin
    obtain ⟨name, hname, rfl⟩ := List.mem_map.mp hline
    rw [hpiece name hname, List.mem_singleton] at hin
    exact ⟨name, hname, hin⟩
  · rintro ⟨name, hname, rfl⟩
    have hne : String.ofList name.shown ≠ "" := by
      intro hempty
      have := congrArg String.toList hempty
      rw [String.toList_ofList] at this
      exact r.shown_ne_nil hname this
    refine ⟨_, rfl, List.mem_filter.mpr ⟨?_, decide_eq_true hne⟩⟩
    rw [mem_splitLines_joinLines _ hne]
    exact ⟨name.shown, List.mem_map_of_mem hname, by rw [hpiece name hname]; exact
      List.mem_cons_self⟩

/-! ## What is collected -/

theorem untrackedLines_ok_iff (files : Files) (root : Loc) (paths : List String) :
    (∃ n, untrackedLines files root paths = .ok n) ↔
      ∀ path ∈ paths, ∃ target, files.resolve root path = .ok target := by
  induction paths with
  | nil => simp [untrackedLines]
  | cons path paths ih =>
    rw [List.forall_mem_cons, ← ih, untrackedLines]
    constructor
    · rintro ⟨n, h⟩
      split at h
      · cases h
      next target htarget =>
        cases hrest : untrackedLines files root paths with
        | error e =>
          rw [hrest] at h
          cases h
        | ok m => exact ⟨⟨target, htarget⟩, m, rfl⟩
    · rintro ⟨⟨target, htarget⟩, m, hrest⟩
      rw [htarget, hrest]
      exact ⟨_, rfl⟩

/-- The paths that the status calls untracked, as they are read. -/
def GitReports.untrackedRead : List String :=
  ((r.entries.filter StatusEntry.isUntracked).map fun e => e.path.read).dedup

/-- What is collected of a status that can be read. -/
theorem GitReports.collect_eq (hdecodable : r.Decodable) (files : Files) (root : Loc) :
    ∃ lines rows, (git namesArgs).lines = .ok lines ∧
      collectFinalWorkspaceChanges git files root =
        (untrackedLines files root r.untrackedRead).map fun untracked => {
          changedFiles := ((r.entries.map fun e => e.path.read) ++
            lines.filter (· ≠ "")).dedup.insertionSort (· ≤ ·)
          linesAdded := (numstatLines rows).1 + untracked
          linesDeleted := (numstatLines rows).2 } := by
  obtain ⟨status, hstatus, hpaths⟩ := r.statusPaths_read hdecodable
  obtain ⟨numstat, hnumstat⟩ := r.printsNumstat
  have hsucceeded : (git statusArgs).succeeded = true := by rw [r.printsStatus]
  have hnames : ∃ lines, (git namesArgs).lines = .ok lines := by
    rw [r.printsNames]
    exact ⟨_, rfl⟩
  have hrows : ∃ rows, (git numstatArgs).lines = .ok rows := by
    rw [hnumstat]
    exact ⟨_, rfl⟩
  obtain ⟨lines, hlines⟩ := hnames
  obtain ⟨rows, hrows⟩ := hrows
  refine ⟨lines, rows, hlines, ?_⟩
  simp only [collectFinalWorkspaceChanges, hstatus, hsucceeded, hpaths, hlines, hrows,
    Bool.true_eq_false, if_false]
  rw [← GitReports.untrackedRead]
  cases untrackedLines files root r.untrackedRead with
  | error e => rfl
  | ok untracked => rfl

theorem GitReports.decodable_of_collected {files : Files} {root : Loc}
    {changes : FinalWorkspaceChanges}
    (h : collectFinalWorkspaceChanges git files root = .ok changes) : r.Decodable := by
  cases hstatus : (git statusArgs).stdout.readText with
  | ok status => exact r.decodable_of_read hstatus
  | error e =>
    simp only [collectFinalWorkspaceChanges, hstatus] at h
    cases h

/-- When anything is collected at all. -/
theorem GitReports.collected_iff (files : Files) (root : Loc) :
    (∃ changes, collectFinalWorkspaceChanges git files root = .ok changes) ↔
      r.Decodable ∧ ∀ e ∈ r.entries, e.isUntracked = true →
        ∃ target, files.resolve root e.path.read = .ok target := by
  have hresolved : (∃ n, untrackedLines files root r.untrackedRead = .ok n) ↔
      ∀ e ∈ r.entries, e.isUntracked = true →
        ∃ target, files.resolve root e.path.read = .ok target := by
    simp only [untrackedLines_ok_iff, GitReports.untrackedRead, List.mem_dedup, List.mem_map,
      List.mem_filter]
    constructor
    · intro h e he huntracked
      exact h _ ⟨e, ⟨he, huntracked⟩, rfl⟩
    · rintro h path ⟨e, ⟨he, huntracked⟩, rfl⟩
      exact h e he huntracked
  rw [← hresolved]
  constructor
  · rintro ⟨changes, h⟩
    have hdecodable := r.decodable_of_collected h
    obtain ⟨lines, rows, -, heq⟩ := r.collect_eq hdecodable files root
    rw [heq] at h
    cases hlines : untrackedLines files root r.untrackedRead with
    | error e =>
      rw [hlines] at h
      cases h
    | ok n => exact ⟨hdecodable, n, rfl⟩
  · rintro ⟨hdecodable, n, hn⟩
    obtain ⟨lines, rows, -, heq⟩ := r.collect_eq hdecodable files root
    rw [heq, hn]
    exact ⟨_, rfl⟩

/-- The changed files are the paths of the status and the shown names, as they are read. -/
theorem GitReports.mem_changedFiles {files : Files} {root : Loc} {changes : FinalWorkspaceChanges}
    (h : collectFinalWorkspaceChanges git files root = .ok changes) :
    changes.changedFiles.Nodup ∧ ∀ path, path ∈ changes.changedFiles ↔
      (∃ e ∈ r.entries, path = e.path.read) ∨
        ∃ name ∈ r.names, path = String.ofList name.shown := by
  obtain ⟨lines, rows, hlines, heq⟩ :=
    r.collect_eq (r.decodable_of_collected h) files root
  rw [heq] at h
  cases huntracked : untrackedLines files root r.untrackedRead with
  | error e =>
    rw [huntracked] at h
    cases h
  | ok n =>
    rw [huntracked] at h
    rw [← Except.ok.inj h]
    refine ⟨((List.perm_insertionSort _ _).nodup_iff).mpr (List.nodup_dedup _), fun path => ?_⟩
    rw [← r.mem_names_iff, (List.perm_insertionSort _ _).mem_iff, List.mem_dedup, List.mem_append,
      List.mem_map]
    refine or_congr ⟨?_, ?_⟩ ⟨?_, ?_⟩
    · rintro ⟨e, he, heq⟩
      exact ⟨e, he, heq.symm⟩
    · rintro ⟨e, he, heq⟩
      exact ⟨e, he, heq.symm⟩
    · intro hpath
      exact ⟨lines, hlines, hpath⟩
    · rintro ⟨lines', hlines', hpath⟩
      rw [hlines] at hlines'
      cases hlines'
      exact hpath

/-! ## Each changed file once -/

theorem FinalState.onlyStaged_of_inStatus {name : GitName} (hstatus : s.InStatus name)
    (h : ¬ s.Changed name) : s.OnlyStaged name := by
  obtain ⟨hdiffers, huntracked⟩ := not_or.mp h
  have hknown : s.head name ≠ none ∨ s.index name ≠ none → s.head name = s.work name := by
    intro hknown
    by_contra hne
    exact hdiffers ⟨hknown, hne⟩
  rcases hstatus with hstaged | ⟨hindex, hwork⟩ | hin
  · have hsome : s.head name ≠ none ∨ s.index name ≠ none := by
      by_contra hnone
      obtain ⟨hhead, hindex⟩ := not_or.mp hnone
      exact hstaged ((not_not.mp hhead).trans (not_not.mp hindex).symm)
    exact ⟨hstaged, hknown hsome, huntracked⟩
  · have hhead := hknown (.inr hindex)
    exact ⟨fun heq => hwork (heq.symm.trans hhead), hhead, huntracked⟩
  · exact absurd hin huntracked

theorem FinalState.onlyStaged_of_inDiff {name : GitName} (hdiff : s.InDiff name)
    (h : ¬ s.Changed name) : s.OnlyStaged name := by
  obtain ⟨hknown, hne⟩ := hdiff
  obtain ⟨hdiffers, huntracked⟩ := not_or.mp h
  have hhead : s.head name = s.work name := by
    by_contra hne
    exact hdiffers ⟨hknown, hne⟩
  split at hne
  next hindex =>
    refine ⟨?_, hhead, huntracked⟩
    rw [hindex]
    exact hne
  next => exact absurd hhead hne

theorem FinalState.inStatus_of_changed {name : GitName} (h : s.Changed name) :
    s.InStatus name := by
  rcases h with ⟨hknown, hne⟩ | hin
  · by_cases hhead : s.head name = s.index name
    · have hindex : s.index name ≠ none := by
        rcases hknown with h | h
        · exact hhead ▸ h
        · exact h
      exact .inr (.inl ⟨hindex, fun heq => hne (hhead.trans heq)⟩)
    · exact .inl hhead
  · exact .inr (.inr hin)

theorem GitName.read_of_notMem {text : String} (h : '\r' ∉ text.toList) :
    (GitName.text text).read = text := by
  rw [GitName.read, GitName.asText, textRead, universalNewlines_of_notMem _ h, String.ofList_toList]

theorem return_notMem_read (name : GitName) : '\r' ∉ name.read.toList := by
  rw [GitName.read, textRead, String.toList_ofList]
  exact cr_notMem_universalNewlines _

theorem return_notMem_shown (name : GitName) : '\r' ∉ (String.ofList name.shown).toList := by
  rw [String.toList_ofList]
  intro h
  exact absurd (printable_shown name _ h) (by decide)

/-- The list is exact when the reports can be read for what they are about. -/
theorem GitReports.exact_iff {files : Files} {root : Loc} {changes : FinalWorkspaceChanges}
    (h : collectFinalWorkspaceChanges git files root = .ok changes) :
    (∀ name, s.Changed name ↔ ∃ path ∈ changes.changedFiles, name = .text path) ↔
      ReadReports r files root := by
  obtain ⟨hdecodable, hresolvable⟩ := (r.collected_iff files root).mp ⟨changes, h⟩
  obtain ⟨-, hmem⟩ := r.mem_changedFiles h
  constructor
  · intro hexact
    have hlisted : ∀ path, path ∈ changes.changedFiles → s.Changed (.text path) := fun path hpath =>
      (hexact _).mpr ⟨path, hpath, rfl⟩
    refine ⟨hdecodable, hresolvable, ?_, ?_, ?_, ?_⟩
    · intro text hchanged
      obtain ⟨path, hpath, heq⟩ := (hexact _).mp hchanged
      cases heq
      rcases (hmem text).mp hpath with ⟨e, -, rfl⟩ | ⟨name, -, rfl⟩
      · exact return_notMem_read e.path
      · exact return_notMem_shown name
    · intro e he _
      exact hlisted _ ((hmem _).mpr (.inl ⟨e, he, rfl⟩))
    · intro name hname _
      exact hlisted _ ((hmem _).mpr (.inr ⟨name, hname, rfl⟩))
    · intro e he name _ hchanged
      obtain ⟨path, hpath, rfl⟩ := (hexact _).mp hchanged
      rcases (hmem path).mp hpath with ⟨other, hother, rfl⟩ | ⟨other, hother, rfl⟩
      · exact .inl ⟨other, hother, rfl⟩
      · exact .inr ⟨other, hother, rfl⟩
  · intro hread name
    constructor
    · intro hchanged
      obtain ⟨e, he, hname⟩ := r.complete name (FinalState.inStatus_of_changed hchanged)
      rcases hname with rfl | horigin
      · have htext := hdecodable e he e.path List.mem_cons_self
        refine ⟨e.path.read, (hmem _).mpr (.inl ⟨e, he, rfl⟩), ?_⟩
        cases hpath : e.path with
        | raw bytes =>
          rw [hpath] at htext
          cases htext
        | text text =>
          rw [hpath] at hchanged
          rw [GitName.read_of_notMem (hread.returns text hchanged)]
      · rcases hread.renamed e he name horigin hchanged with
          ⟨other, hother, rfl⟩ | ⟨other, hother, rfl⟩
        · exact ⟨_, (hmem _).mpr (.inl ⟨other, hother, rfl⟩), rfl⟩
        · exact ⟨_, (hmem _).mpr (.inr ⟨other, hother, rfl⟩), rfl⟩
    · rintro ⟨path, hpath, rfl⟩
      rcases (hmem path).mp hpath with ⟨e, he, rfl⟩ | ⟨other, hother, rfl⟩
      · by_cases hchanged : s.Changed e.path
        · cases hpath : e.path with
          | raw bytes =>
            have htext := hdecodable e he e.path List.mem_cons_self
            rw [hpath] at htext
            cases htext
          | text text =>
            rw [hpath] at hchanged
            rw [GitName.read_of_notMem (hread.returns text hchanged)]
            exact hchanged
        · exact hread.staged e he (FinalState.onlyStaged_of_inStatus (r.sound e he) hchanged)
      · by_cases hplain : other.Quoted ∨ s.OnlyStaged other
        · exact hread.quoted other hother hplain
        · obtain ⟨hquoted, hstaged⟩ := not_or.mp hplain
          have hchanged : s.Changed other := by
            by_contra hchanged
            exact hstaged (FinalState.onlyStaged_of_inDiff (r.listed other hother) hchanged)
          cases other with
          | raw bytes => exact absurd (List.cons_ne_nil _ _) hquoted
          | text text =>
            rw [not_not.mp hquoted, GitName.asText, String.ofList_toList]
            exact hchanged

/-- An exact list without repetitions counts each changed file once. -/
theorem countsOnce_of_exact {changes : FinalWorkspaceChanges} (hnodup : changes.changedFiles.Nodup)
    (hexact : ∀ name, s.Changed name ↔ ∃ path ∈ changes.changedFiles, name = .text path) :
    CountsOnce s changes := by
  have hpath : ∀ path, s.Changed (.text path) ↔ path ∈ changes.changedFiles := by
    intro path
    rw [hexact]
    constructor
    · rintro ⟨other, hother, heq⟩
      cases heq
      exact hother
    · intro hin
      exact ⟨path, hin, rfl⟩
  refine ⟨hnodup, hexact, ?_, ?_⟩
  · intro names hnames hall
    have hmap : (changes.changedFiles.map GitName.text).Nodup :=
      hnodup.map fun _ _ heq => GitName.text.inj heq
    have hperm : names.Perm (changes.changedFiles.map GitName.text) := by
      refine (List.perm_ext_iff_of_nodup hnames hmap).mpr fun name => ?_
      rw [hall, hexact, List.mem_map]
      constructor
      · rintro ⟨path, hin, rfl⟩
        exact ⟨path, hin, rfl⟩
      · rintro ⟨path, hin, rfl⟩
        exact ⟨path, hin, rfl⟩
    rw [hperm.length_eq, List.length_map, filesChanged]
  · intro truth hits htruth hhits hall
    have hsome : truth.dedup ≠ [] := by
      intro hnil
      obtain ⟨path, rest, rfl⟩ := List.exists_cons_of_ne_nil htruth
      have hin : path ∈ (path :: rest).dedup := List.mem_dedup.mpr List.mem_cons_self
      rw [hnil] at hin
      cases hin
    have hperm : hits.Perm (truth.dedup.filter (· ∈ changes.changedFiles)) := by
      refine (List.perm_ext_iff_of_nodup hhits ((List.nodup_dedup _).filter _)).mpr fun path => ?_
      rw [hall, hpath, List.mem_filter, List.mem_dedup, decide_eq_true_eq]
    simp only [goldFileOverlap, if_neg hsome, hperm.length_eq]

/-- The final changes of a workspace name and count each changed file once, and nothing else,
exactly when Git's reports about it can be read for what they are about. -/
theorem finalChanges_countsOnce_iff (files : Files) (root : Loc) :
    (∃ changes, collectFinalWorkspaceChanges git files root = .ok changes ∧
      CountsOnce s changes) ↔ ReadReports r files root := by
  constructor
  · rintro ⟨changes, hcollected, hcounts⟩
    exact (r.exact_iff hcollected).mp hcounts.exact
  · intro hread
    obtain ⟨changes, hcollected⟩ :=
      (r.collected_iff files root).mpr ⟨hread.decodable, hread.resolvable⟩
    exact ⟨changes, hcollected, countsOnce_of_exact (r.mem_changedFiles hcollected).1
      ((r.exact_iff hcollected).mpr hread)⟩

end

namespace Sample

/-- One tracked file is modified. -/
def modified (path : String) : FinalState where
  head := fun name => if name = .text path then some ⟨[97], .regular⟩ else none
  index := fun name => if name = .text path then some ⟨[97], .regular⟩ else none
  work := fun name => if name = .text path then some ⟨[98], .regular⟩ else none
  untracked := []

def modifiedGit (path : String) (args : List String) : GitRun :=
  if args = statusArgs then ⟨true, printedStatus [⟨' ', 'M', .text path, none⟩]⟩
  else if args = namesArgs then
    ⟨true, .utf8 (String.ofList (joinLines ([GitName.text path].map GitName.shown)))⟩
  else ⟨true, .utf8 ""⟩

theorem modified_changed_iff {path : String} {name : GitName} :
    (modified path).Changed name ↔ name = .text path := by
  by_cases h : name = .text path
  · simp [FinalState.Changed, FinalState.Differs, modified, h]
  · simp [FinalState.Changed, FinalState.Differs, modified, h]

def modifiedReports (path : String) (hpath : path ≠ "" ∧ '\x00' ∉ path.toList) :
    GitReports (modifiedGit path) (modified path) where
  entries := [⟨' ', 'M', .text path, none⟩]
  names := [.text path]
  letters := by
    intro e he
    rw [List.mem_singleton.mp he]
    change ' ' ∈ statusLetters ∧ 'M' ∈ statusLetters
    decide
  moved := by
    intro e he
    rw [List.mem_singleton.mp he]
    rfl
  plain := by
    intro e he text htext
    rw [List.mem_singleton.mp he] at htext
    rw [GitName.text.inj (List.mem_singleton.mp htext)]
    exact hpath
  shown := by
    intro text htext
    rw [GitName.text.inj (List.mem_singleton.mp htext)]
    exact hpath.1
  complete := by
    intro name hname
    by_cases h : name = .text path
    · exact ⟨_, List.mem_cons_self, .inl h.symm⟩
    · simp [FinalState.InStatus, modified, h] at hname
  sound := by
    intro e he
    rw [List.mem_singleton.mp he]
    exact FinalState.inStatus_of_changed (modified_changed_iff.mpr rfl)
  listed := by
    intro name hname
    rw [List.mem_singleton.mp hname]
    simp [FinalState.InDiff, modified]
  printsStatus := rfl
  printsNames := rfl
  printsNumstat := ⟨"", rfl⟩

/-- A modified file with an accent in its name: it is listed a second time in quotes. -/
theorem accented_counted_twice :
    ∃ changes, collectFinalWorkspaceChanges (modifiedGit "é.txt") (fun _ => none) [] =
        .ok changes ∧
      "é.txt" ∈ changes.changedFiles ∧ "\"\\303\\251.txt\"" ∈ changes.changedFiles ∧
      2 ≤ filesChanged changes ∧ ¬ CountsOnce (modified "é.txt") changes := by
  have hpath : "é.txt" ≠ "" ∧ '\x00' ∉ "é.txt".toList := by decide +kernel
  let r := modifiedReports "é.txt" hpath
  have hread : (GitName.text "é.txt").read = "é.txt" := by decide +kernel
  have hshown : String.ofList (GitName.text "é.txt").shown = "\"\\303\\251.txt\"" := by
    decide +kernel
  have hne : "\"\\303\\251.txt\"" ≠ "é.txt" := by decide +kernel
  obtain ⟨changes, hcollected⟩ : ∃ changes, collectFinalWorkspaceChanges (modifiedGit "é.txt")
      (fun _ => none) [] = .ok changes := by
    refine (r.collected_iff _ _).mpr ⟨?_, ?_⟩
    · intro e he name hname
      rw [List.mem_singleton.mp he] at hname
      rw [List.mem_singleton.mp hname]
      rfl
    · intro e he huntracked
      rw [List.mem_singleton.mp he] at huntracked
      cases huntracked
  obtain ⟨hnodup, hmem⟩ := r.mem_changedFiles hcollected
  have hreal : "é.txt" ∈ changes.changedFiles :=
    (hmem _).mpr (.inl ⟨_, List.mem_cons_self, hread.symm⟩)
  have hquoted : "\"\\303\\251.txt\"" ∈ changes.changedFiles :=
    (hmem _).mpr (.inr ⟨_, List.mem_cons_self, hshown.symm⟩)
  refine ⟨changes, hcollected, hreal, hquoted, ?_, fun hcounts => ?_⟩
  · have hsub : ["\"\\303\\251.txt\"", "é.txt"].Subperm changes.changedFiles := by
      refine List.subperm_of_subset (by simp [hne]) fun path hpath => ?_
      rcases List.mem_cons.mp hpath with rfl | hpath
      · exact hquoted
      · rw [List.mem_singleton.mp hpath]
        exact hreal
    exact hsub.length_le
  · have hchanged := (hcounts.exact _).mpr ⟨_, hquoted, rfl⟩
    exact hne (GitName.text.inj (modified_changed_iff.mp hchanged))

/-- A modified file with a plain name is counted once. -/
theorem plain_name_counted_once :
    ∃ changes, collectFinalWorkspaceChanges (modifiedGit "app.py") (fun _ => none) [] =
        .ok changes ∧ CountsOnce (modified "app.py") changes := by
  have hpath : "app.py" ≠ "" ∧ '\x00' ∉ "app.py".toList := by decide +kernel
  refine (finalChanges_countsOnce_iff (modifiedReports "app.py" hpath) _ _).mpr ?_
  have hread : (GitName.text "app.py").read = "app.py" := by decide +kernel
  have hshown : String.ofList (GitName.text "app.py").shown = "app.py" := by decide +kernel
  refine ⟨?_, ?_, ?_, ?_, ?_, ?_⟩
  · intro e he name hname
    rw [List.mem_singleton.mp he] at hname
    rw [List.mem_singleton.mp hname]
    rfl
  · intro e he huntracked
    rw [List.mem_singleton.mp he] at huntracked
    cases huntracked
  · intro text hchanged
    rw [GitName.text.inj (modified_changed_iff.mp hchanged)]
    decide +kernel
  · intro e he _
    rw [List.mem_singleton.mp he, hread]
    exact modified_changed_iff.mpr rfl
  · intro name hname _
    rw [List.mem_singleton.mp hname, hshown]
    exact modified_changed_iff.mpr rfl
  · intro e he name horigin _
    rw [List.mem_singleton.mp he] at horigin
    cases horigin

end Sample

end EvoCI
