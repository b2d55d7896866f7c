import EvoCI.Memory.Store
import EvoCI.Routing

/-! The benchmark dataset: rows of an export, what the adapter normalizes out of them for
the agent, and the evaluator's view of the same rows. -/

namespace EvoCI

open Library

/-! ## Values of an export -/

/-- A value read by `json.loads`. A float is known by its `repr`. -/
inductive Json where
  | null
  | bool (value : Bool)
  | int (value : Int)
  | float (repr : String)
  | str (text : String)
  | list (items : List Json)
  | mapping (items : List (String × Json))

/-- A row of the dataset, by field. -/
abbrev Row := Dict String Json

def Json.typeName : Json → String
  | .null => "NoneType"
  | .bool _ => "bool"
  | .int _ => "int"
  | .float _ => "float"
  | .str _ => "str"
  | .list _ => "list"
  | .mapping _ => "dict"

/-- `bool(value)`. -/
def Json.truthy : Json → Bool
  | .null => false
  | .bool value => value
  | .int value => value != 0
  | .float repr => repr != "0.0" && repr != "-0.0"
  | .str text => text != ""
  | .list items => !items.isEmpty
  | .mapping items => !items.isEmpty

/-- The first of the keys that is present. -/
def firstKey (keys : List String) (items : List (String × Json)) : Option String :=
  keys.find? fun key => (Dict.get? items key).isSome

def valueError {α : Type} (message : String) : Except Raised α :=
  .error ⟨"ValueError", message⟩

/-- `row[field]`. -/
def Row.field (row : Row) (name : String) : Except Raised Json :=
  match Dict.get? row name with
  | some value => .ok value
  | none => .error ⟨"KeyError", s!"'{name}'"⟩

/-- `row.get(field)`. -/
def Row.getOrNull (row : Row) (name : String) : Json := (Dict.get? row name).getD .null

def requiredText (value : Json) (field : String) : Except Raised String :=
  match value with
  | .str text => .ok text
  | other => valueError s!"{field} must be text, got {other.typeName}"

def identifierText (value : Json) (field : String) : Except Raised String :=
  match value with
  | .str text => .ok text
  | .int n => .ok (toString n)
  | _ => valueError s!"{field} must be a string or integer identifier"

/-! ## Rendering -/

def hexDigit (n : Nat) : Char := if n < 10 then Char.ofNat (48 + n) else Char.ofNat (87 + n)

/-- A character inside a JSON string that keeps what is not ASCII. -/
def escapeJson (c : Char) : List Char :=
  match c with
  | '"' => ['\\', '"']
  | '\\' => ['\\', '\\']
  | '\n' => ['\\', 'n']
  | '\r' => ['\\', 'r']
  | '\t' => ['\\', 't']
  | '\x08' => ['\\', 'b']
  | '\x0c' => ['\\', 'f']
  | c =>
    if c.toNat < 32 then ['\\', 'u', '0', '0', hexDigit (c.toNat / 16), hexDigit (c.toNat % 16)]
    else [c]

def quoteJson (text : String) : String :=
  "\"" ++ String.ofList (text.toList.flatMap escapeJson) ++ "\""

mutual

/-- `json.dumps(value, ensure_ascii=False, sort_keys=True)`. -/
def dumps : Json → String
  | .null => "null"
  | .bool value => if value then "true" else "false"
  | .int value => toString value
  | .float repr => repr
  | .str text => quoteJson text
  | .list items => "[" ++ String.intercalate ", " (dumpsAll items) ++ "]"
  | .mapping items =>
    "\x7b" ++ String.intercalate ", " (((dumpsItems items).insertionSort fun first second =>
      first.1 ≤ second.1).map fun item => quoteJson item.1 ++ ": " ++ item.2) ++ "\x7d"

def dumpsAll : List Json → List String
  | [] => []
  | item :: items => dumps item :: dumpsAll items

def dumpsItems : List (String × Json) → List (String × String)
  | [] => []
  | (key, value) :: items => (key, dumps value) :: dumpsItems items

end

def optionalLabel : Json → Option String
  | .str text => if strip text = "" then none else some (strip text)
  | .bool value => some (dumps (.bool value))
  | .int value => some (dumps (.int value))
  | .float repr => some (dumps (.float repr))
  | _ => none

/-- `_normalize_workflow_yaml`, for the text `yaml.safe_dump` gives structured data. -/
def normalizeWorkflowYaml (safeDump : Json → String) : Json → Except Raised String
  | .str text => .ok text
  | .list items => .ok (safeDump (.list items))
  | .mapping items => .ok (safeDump (.mapping items))
  | other => valueError s!"workflow must be YAML text or structured data, got {other.typeName}"

def isBlank (text : String) : Bool := strip text == ""

mutual

def normalizeLogFragment : Json → String
  | .null => ""
  | .str text => text
  | .list items => String.intercalate "\n" (logFragments items)
  | .mapping items => dumps (.mapping items)
  | .bool value => dumps (.bool value)
  | .int value => dumps (.int value)
  | .float repr => dumps (.float repr)

/-- The fragments of a list that are not blank. -/
def logFragments : List Json → List String
  | [] => []
  | item :: items =>
    let fragment := normalizeLogFragment item
    if isBlank fragment then logFragments items else fragment :: logFragments items

end

/-! ## Commands -/

/-- Where the reader of `shlex` stands: between words, in a word, inside quotes, or behind
a backslash, which quotes may surround. -/
inductive ShlexState where
  | space
  | word
  | quote (mark : Char)
  | escape (quoted : Bool)
  deriving DecidableEq

def isShlexSpace (c : Char) : Bool := c = ' ' ∨ c = '\t' ∨ c = '\r' ∨ c = '\n'

/-- `shlex.split` in POSIX mode; the word read so far is reversed, and `quoted` tells
whether quotes were part of it. -/
def shlexFrom : ShlexState → Bool → List Char → List Char → Option (List String)
  | .space, _, _, [] => some []
  | .word, quoted, word, [] =>
    some (if quoted || !word.isEmpty then [String.ofList word.reverse] else [])
  | .quote _, _, _, [] => none
  | .escape _, _, _, [] => none
  | .space, quoted, word, c :: cs =>
    if isShlexSpace c then shlexFrom .space quoted word cs
    else if c = '\\' then shlexFrom (.escape false) quoted word cs
    else if c = '"' ∨ c = '\'' then shlexFrom (.quote c) quoted word cs
    else shlexFrom .word quoted [c] cs
  | .word, quoted, word, c :: cs =>
    if isShlexSpace c then
      if quoted || !word.isEmpty then
        (shlexFrom .space false [] cs).map (String.ofList word.reverse :: ·)
      else shlexFrom .space quoted word cs
    else if c = '"' ∨ c = '\'' then shlexFrom (.quote c) quoted word cs
    else if c = '\\' then shlexFrom (.escape false) quoted word cs
    else shlexFrom .word quoted (c :: word) cs
  | .quote mark, _, word, c :: cs =>
    if c = mark then shlexFrom .word true word cs
    else if c = '\\' ∧ mark = '"' then shlexFrom (.escape true) true word cs
    else shlexFrom (.quote mark) true (c :: word) cs
  | .escape false, quoted, word, c :: cs => shlexFrom .word quoted (c :: word) cs
  | .escape true, quoted, word, c :: cs =>
    -- Inside quotes a backslash escapes the quotes and itself only.
    if c = '\\' ∨ c = '"' then shlexFrom (.quote '"') quoted (c :: word) cs
    else shlexFrom (.quote '"') quoted (c :: '\\' :: word) cs

def shlexSplit (text : String) : Option (List String) :=
  shlexFrom .space false [] text.toList

/-- `_SHELL_META.search`. -/
def hasShellMeta (text : String) : Bool :=
  containsText "&&" text || containsText "||" text || containsText "$(" text ||
    containsText "$\x7b" text || text.toList.any fun c => c ∈ [';', '|', '<', '>', '\x60']

def commandText (text : String) : Option (List String) :=
  let raw := strip text
  if raw = "" || raw.toList.contains '\n' || 4096 < raw.length || hasShellMeta raw then none
  else
    match shlexSplit raw with
    | none | some [] => none
    | some (program :: arguments) =>
      if program ∈ ["cd", "export", "set", "source"] then none
      else if program.toList.contains '=' && !program.toList.contains '/' then none
      else some (program :: arguments)

/-- `list(value)` where every part is a text and none is empty. -/
def textParts : List Json → Option (List String)
  | [] => some []
  | .str part :: parts => if part = "" then none else (textParts parts).map (part :: ·)
  | _ :: _ => none

mutual

def parseCommand : Json → Option (List String)
  | .list parts => if parts.isEmpty then none else textParts parts
  | .mapping items =>
    match firstKey ["argv", "command", "run"] items with
    | some key => (Dict.get? (parseCommands items) key).join
    | none => none
  | .str text => commandText text
  | _ => none

def parseCommands : List (String × Json) → List (String × Option (List String))
  | [] => []
  | (key, value) :: items => (key, parseCommand value) :: parseCommands items

end

/-- The length of the `_ANSI_ESCAPE` match at the front of the text. -/
def ansiEscape : List Char → Nat
  | '\x1b' :: '[' :: cs =>
    let parameters := cs.takeWhile fun c => '0' ≤ c ∧ c ≤ '?'
    let rest := cs.drop parameters.length
    let between := rest.takeWhile fun c => ' ' ≤ c ∧ c ≤ '/'
    match rest.drop between.length with
    | c :: _ => if '@' ≤ c ∧ c ≤ '~' then parameters.length + between.length + 3 else 0
    | [] => 0
  | _ => 0

/-- `_ANSI_ESCAPE.sub("", line)`; the number counts what is left of a match. -/
def withoutAnsi : Nat → List Char → List Char
  | _, [] => []
  | skip + 1, _ :: cs => withoutAnsi skip cs
  | 0, c :: cs =>
    match ansiEscape (c :: cs) with
    | 0 => c :: withoutAnsi 0 cs
    | length + 1 => withoutAnsi length cs

/-- The code points of the digit zero in every script that has one. -/
def decimalZeros : List Nat :=
  [0x30, 0x660, 0x6f0, 0x7c0, 0x966, 0x9e6, 0xa66, 0xae6, 0xb66, 0xbe6, 0xc66, 0xce6, 0xd66,
    0xde6, 0xe50, 0xed0, 0xf20, 0x1040, 0x1090, 0x17e0, 0x1810, 0x1946, 0x19d0, 0x1a80, 0x1a90,
    0x1b50, 0x1bb0, 0x1c40, 0x1c50, 0xa620, 0xa8d0, 0xa900, 0xa9d0, 0xa9f0, 0xaa50, 0xabf0,
    0xff10, 0x104a0, 0x10d30, 0x11066, 0x110f0, 0x11136, 0x111d0, 0x112f0, 0x11450, 0x114d0,
    0x11650, 0x116c0, 0x11730, 0x118e0, 0x11950, 0x11c50, 0x11d50, 0x11da0, 0x11f50, 0x16a60,
    0x16ac0, 0x16b50, 0x1d7ce, 0x1d7d8, 0x1d7e2, 0x1d7ec, 0x1d7f6, 0x1e140, 0x1e2f0, 0x1e4f0,
    0x1e950, 0x1fbf0]

def isDecimal (c : Char) : Bool :=
  decimalZeros.any fun first => first ≤ c.toNat ∧ c.toNat < first + 10

/-- What follows a time stamp and its blanks, or the whole line without one. -/
def afterTimestamp (line : List Char) : List Char :=
  match line with
  | y1 :: y2 :: y3 :: y4 :: '-' :: m1 :: m2 :: '-' :: d1 :: d2 :: 'T' :: clock =>
    let blank := clock.dropWhile fun c => !isSpace c
    if [y1, y2, y3, y4, m1, m2, d1, d2].all isDecimal && !blank.isEmpty &&
        blank.length < clock.length then
      blank.dropWhile isSpace
    else line
  | _ => line

def withoutPrefix (start line : List Char) : List Char :=
  if start.isPrefixOf line then line.drop start.length else line

/-- The group of `_RUN_LINE.match` on a stripped line. -/
def runLine (line : List Char) : Option String :=
  match withoutPrefix "##[group]".toList (afterTimestamp line) with
  | 'R' :: 'u' :: 'n' :: c :: rest =>
    let command := rest.dropWhile isSpace
    if isSpace c && !command.isEmpty then some (String.ofList command) else none
  | _ => none

/-- `values` and then `value`, unless it is among them. -/
def appendNew {α : Type} [DecidableEq α] (values : List α) (value : α) : List α :=
  if value ∈ values then values else values ++ [value]

def commandsFromLog (log : String) : List (List String) :=
  (splitLines log).foldl (fun commands rawLine =>
    let line := (strip (String.ofList (withoutAnsi 0 rawLine.toList))).toList
    match (runLine line).bind fun group => parseCommand (.str group) with
    | some command => appendNew commands command
    | none => commands) []

/-! ## The failure the agent sees -/

structure FailedStep where
  name : Option String := none
  log : String
  command : Option (List String) := none
  deriving DecidableEq

structure NormalizedCIFailure where
  workflowYaml : String
  logText : String
  failedSteps : List FailedStep
  candidateFailedCommands : List (List String)
  deriving DecidableEq

def stepFromMapping (items : List (String × Json)) : Option FailedStep :=
  match firstKey ["log", "logs", "message", "output", "text"] items with
  | none => none
  | some logKey => some {
      name := (firstKey ["step_name", "name", "step"] items).bind fun key =>
        optionalLabel ((Dict.get? items key).getD .null)
      log := normalizeLogFragment ((Dict.get? items logKey).getD .null)
      command := (firstKey ["command", "failed_command", "run", "argv"] items).bind fun key =>
        parseCommand ((Dict.get? items key).getD .null) }

/-- The steps of a mapping that names each of them by a key. -/
def namedSteps (items : List (String × Json)) : List FailedStep :=
  items.filterMap fun item =>
    let log := normalizeLogFragment item.2
    if isBlank log then none else some { name := optionalLabel (.str item.1), log := log }

def loneStep (value : Json) : List FailedStep :=
  let log := normalizeLogFragment value
  if isBlank log then [] else [{ log := log }]

mutual

def normalizeFailedSteps : Json → List FailedStep
  | .null => []
  | .list items => failedStepsOfList items
  | .mapping items =>
    match stepFromMapping items with
    | some direct => [direct]
    | none =>
      match Dict.get? (failedStepsOfItems items) "steps" with
      | some steps => steps
      | none => namedSteps items
  | .bool value => loneStep (.bool value)
  | .int value => loneStep (.int value)
  | .float repr => loneStep (.float repr)
  | .str text => loneStep (.str text)

def failedStepsOfList : List Json → List FailedStep
  | [] => []
  | item :: items => normalizeFailedSteps item ++ failedStepsOfList items

def failedStepsOfItems : List (String × Json) → List (String × List FailedStep)
  | [] => []
  | (key, value) :: items => (key, normalizeFailedSteps value) :: failedStepsOfItems items

end

/-- A step with the one command its log names where it has none of its own. -/
def FailedStep.withCommand (step : FailedStep) : FailedStep :=
  match step.command, commandsFromLog step.log with
  -- An empty list counts as no command.
  | some (program :: arguments), _ => { step with command := some (program :: arguments) }
  | _, [command] => { step with command := some command }
  | _, _ => { step with command := none }

def FailedStep.candidates (step : FailedStep) : List (List String) :=
  step.command.toList ++ commandsFromLog step.log

def FailedStep.text (step : FailedStep) : String :=
  match step.name with
  | some name => if name = "" then step.log else "[" ++ name ++ "]\n" ++ step.log
  | none => step.log

def normalizeCiFailure (safeDump : Json → String) (row : Row) :
    Except Raised NormalizedCIFailure := do
  let workflowYaml ← normalizeWorkflowYaml safeDump ((Dict.get? row "workflow").getD (.str ""))
  let steps := normalizeFailedSteps (row.getOrNull "logs")
  let normalizedSteps := steps.map FailedStep.withCommand
  pure {
    workflowYaml := workflowYaml
    logText := String.intercalate "\n\n" (normalizedSteps.map FailedStep.text)
    failedSteps := normalizedSteps
    candidateFailedCommands := (steps.flatMap FailedStep.candidates).foldl appendNew [] }

/-! ## The evaluator's labels -/

/-- The labels in order, each once, without `Unknown`. -/
def joinLabels (labels : List String) : String :=
  match (labels.filter (· ≠ "Unknown")).foldl appendNew [] with
  | [] => "Unknown"
  | found => String.intercalate " / " found

mutual

def normalizeErrorType : Json → String
  | .str text => if strip text = "" then "Unknown" else strip text
  | .mapping items =>
    match firstKey ["category", "error_type", "type", "name"] items with
    | some key => (Dict.get? (errorTypesOfItems items) key).getD "Unknown"
    | none => "Unknown"
  | .list items => joinLabels (errorTypesOfList items)
  | _ => "Unknown"

def errorTypesOfList : List Json → List String
  | [] => []
  | item :: items => normalizeErrorType item :: errorTypesOfList items

def errorTypesOfItems : List (String × Json) → List (String × String)
  | [] => []
  | (key, value) :: items => (key, normalizeErrorType value) :: errorTypesOfItems items

end

def normalizeChangedFiles : Json → List String
  | .str path => [path]
  | .list items => items.filterMap fun
    | .str path => some path
    | _ => none
  | _ => []

end EvoCI
