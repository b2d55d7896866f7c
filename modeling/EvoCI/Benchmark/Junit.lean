import EvoCI.Text
import Mathlib.Data.List.Infix
import Mathlib.Data.List.TakeWhile

/-! The status of a test in the JUnit report of an execution. A test is looked up by its name,
one class and the stem of its file, and the first case that fits is taken: the status is its own
exactly where no other case before it fits. -/

namespace EvoCI

inductive NodeStatus where
  | passed
  | failed
  | error
  | skipped
  | missing
  deriving DecidableEq, Repr

/-- A `testcase` element of the report, with the tags of its children. -/
structure TestcaseElement where
  classname : Option String
  name : Option String
  children : List String

structure JUnitCase where
  classname : String
  name : String
  status : NodeStatus
  deriving DecidableEq, Repr

/-- The status by the first child there is of a failure, an error and a skip. -/
def childrenStatus (children : List String) : NodeStatus :=
  if "failure" ∈ children then .failed
  else if "error" ∈ children then .error
  else if "skipped" ∈ children then .skipped
  else .passed

/-- `parse_junit_xml` on the elements of the document. -/
def parseJunitXml (elements : List TestcaseElement) : List JUnitCase :=
  elements.map fun element =>
    ⟨element.classname.getD "", element.name.getD "", childrenStatus element.children⟩

/-! ## Looking a node up -/

/-- `text.split("::")`. -/
def splitColons : List Char → List (List Char)
  | [] => [[]]
  | ':' :: ':' :: cs => [] :: splitColons cs
  | c :: cs =>
    match splitColons cs with
    | [] => [[c]]
    | piece :: pieces => (c :: piece) :: pieces

/-- A file name without its last suffix. -/
def withoutSuffix (name : List Char) : List Char :=
  let suffix := (name.reverse.takeWhile (· ≠ '.')).reverse
  let before := name.take (name.length - suffix.length - 1)
  if '.' ∈ name ∧ before ≠ [] ∧ suffix ≠ [] then before else name

/-- `Path(path).stem`. -/
def pathStem (path : String) : String :=
  String.ofList (withoutSuffix ((pathParts path).getLastD "").toList)

/-- `text.split(".")`. -/
def splitDots (text : String) : List String := (text.toList.splitOn '.').map String.ofList

/-- The parts of a node id. -/
def nodeParts (node : String) : List String := (splitColons node.toList).map String.ofList

/-- The case is taken for the node. -/
def caseFits (node : String) (case : JUnitCase) : Bool :=
  let parts := nodeParts node
  let expectedName := parts.getLastD ""
  let expectedClass := if 3 ≤ parts.length then parts.dropLast.getLast? else none
  let stem := pathStem (parts.headD "")
  let classParts := splitDots case.classname
  case.name = expectedName &&
    expectedClass.all (fun expected => expected ∈ classParts) &&
    (stem = "" || stem ∈ classParts || stem.toList <:+: case.classname.toList)

def matchJunitStatus (node : String) (cases : List JUnitCase) : NodeStatus :=
  match cases.find? (caseFits node) with
  | some case => case.status
  | none => .missing

/-! ## Tests -/

/-- `sep.join(pieces)`. -/
def joinWith (sep : List Char) (pieces : List String) : List Char :=
  sep.intercalate (pieces.map String.toList)

/-- A test that pytest can collect: a function, with the parameters it runs on, in classes of a
file `stem.py`. Classes and functions have the names of identifiers. -/
structure PyTest where
  dirs : List String
  stem : String
  classes : List String
  function : String
  params : Option String
  isPart : ∀ dir ∈ dirs, IsPart dir
  stemNonempty : stem ≠ ""
  stemNoSlash : '/' ∉ stem.toList
  pathNoColons : ¬ [':', ':'] <:+: (joinParts (dirs ++ [stem ++ ".py"])).toList
  classNames : ∀ name ∈ classes, ':' ∉ name.toList ∧ '.' ∉ name.toList ∧ '[' ∉ name.toList
  functionName : ':' ∉ function.toList ∧ '[' ∉ function.toList
  deriving DecidableEq

namespace PyTest

def path (t : PyTest) : String := joinParts (t.dirs ++ [t.stem ++ ".py"])

/-- The last component of the node id. -/
def name (t : PyTest) : String := t.function ++ t.params.elim "" fun params => "[" ++ params ++ "]"

def nodeId (t : PyTest) : String :=
  String.ofList (joinWith [':', ':'] (t.path :: t.classes ++ [t.name]))

/-- The dotted path of the module, and the classes. -/
def classname (t : PyTest) : String :=
  String.ofList (joinWith ['.'] (t.dirs ++ t.stem :: t.classes))

/-- What pytest writes for the test. -/
def element (t : PyTest) (children : List String) : TestcaseElement :=
  ⟨some t.classname, some t.name, children⟩

/-- The parts of the node id: a parametrization may bring more than one. -/
def parts (t : PyTest) : List String :=
  t.path :: t.classes ++ (splitColons t.name.toList).map String.ofList

/-- The case of `other` fits the node id of the test. -/
def MistakenFor (other t : PyTest) : Prop :=
  other.name = t.parts.getLastD "" ∧
    (3 ≤ t.parts.length → t.parts.dropLast.getLastD "" ∈ splitDots other.classname) ∧
    t.stem.toList <:+: other.classname.toList

end PyTest

/-! ## The parts of a node id -/

theorem splitColons_ne_nil (cs : List Char) : splitColons cs ≠ [] := by
  fun_induction splitColons cs with
  | case1 => simp
  | case2 cs ih => simp
  | case3 c cs _ hnil ih => simp
  | case4 c cs _ piece pieces hcons ih => simp

theorem splitColons_other {c : Char} {cs piece : List Char} {pieces : List (List Char)}
    (hc : c ≠ ':' ∨ cs.head? ≠ some ':') (h : splitColons cs = piece :: pieces) :
    splitColons (c :: cs) = (c :: piece) :: pieces := by
  rw [splitColons, h]
  intro rest hcolon hrest
  subst hcolon
  subst hrest
  simp at hc

/-- What stands before a `::` and brings none along is the first part. -/
theorem splitColons_append {piece : List Char} (h : ¬ [':', ':'] <:+: piece ++ [':'])
    (rest : List Char) : splitColons (piece ++ ':' :: ':' :: rest) = piece :: splitColons rest := by
  induction piece with
  | nil => rfl
  | cons c piece ih =>
    have htail : ¬ [':', ':'] <:+: piece ++ [':'] :=
      fun hin => h (hin.trans (List.suffix_cons c _).isInfix)
    refine splitColons_other ?_ (ih htail)
    by_contra hcolons
    simp only [not_or, not_not] at hcolons
    obtain ⟨rfl, hhead⟩ := hcolons
    refine h (List.IsPrefix.isInfix ?_)
    cases piece with
    | nil => exact List.prefix_rfl
    | cons d piece =>
      obtain rfl : d = ':' := by simpa using hhead
      exact ⟨piece ++ [':'], by simp⟩

theorem splitColons_single {piece : List Char} (h : ¬ [':', ':'] <:+: piece) :
    splitColons piece = [piece] := by
  induction piece with
  | nil => rfl
  | cons c piece ih =>
    have htail : ¬ [':', ':'] <:+: piece :=
      fun hin => h (hin.trans (List.suffix_cons c _).isInfix)
    refine splitColons_other ?_ (ih htail)
    by_contra hcolons
    simp only [not_or, not_not] at hcolons
    obtain ⟨rfl, hhead⟩ := hcolons
    cases piece with
    | nil => simp at hhead
    | cons d piece =>
      obtain rfl : d = ':' := by simpa using hhead
      exact h ⟨[], piece, rfl⟩

theorem splitColons_prefix {cs first : List Char} {pieces : List (List Char)}
    (h : splitColons cs = first :: pieces) : first <+: cs := by
  fun_induction splitColons cs generalizing first pieces with
  | case1 =>
    cases h
    exact List.prefix_rfl
  | case2 cs ih =>
    cases h
    exact List.nil_prefix
  | case3 c cs _ hnil ih => exact absurd hnil (splitColons_ne_nil cs)
  | case4 c cs _ piece _ hcons ih =>
    cases h
    exact (List.prefix_cons_inj c).2 (ih hcons)

/-- No part has a `::` of its own. -/
theorem splitColons_pieces (cs : List Char) :
    ∀ piece ∈ splitColons cs, ¬ [':', ':'] <:+: piece := by
  fun_induction splitColons cs with
  | case1 => simp
  | case2 cs ih =>
    intro piece hpiece
    rcases List.mem_cons.1 hpiece with rfl | hpiece
    · simp
    · exact ih piece hpiece
  | case3 c cs _ hnil ih => exact absurd hnil (splitColons_ne_nil cs)
  | case4 c cs hother first pieces hcons ih =>
    rw [hcons] at ih
    intro piece hpiece
    rcases List.mem_cons.1 hpiece with rfl | hpiece
    · intro hin
      rcases List.infix_cons_iff.1 hin with ⟨rest, hleads⟩ | hin
      · -- the first part would begin with a colon behind a colon
        simp only [List.cons_append, List.nil_append, List.cons.injEq] at hleads
        obtain ⟨rfl, rfl⟩ := hleads
        obtain ⟨after, rfl⟩ := splitColons_prefix hcons
        exact hother _ rfl rfl
      · exact ih first List.mem_cons_self hin
    · exact ih piece (List.mem_cons_of_mem _ hpiece)

theorem not_infix_concat {piece : List Char} (h : ':' ∉ piece) :
    ¬ [':', ':'] <:+: piece ++ [':'] := by
  intro hin
  have hcount := hin.sublist.count_le ':'
  rw [List.count_append, List.count_eq_zero.2 h] at hcount
  simp at hcount

theorem joinWith_cons (sep : List Char) (piece : String) {pieces : List String}
    (h : pieces ≠ []) :
    joinWith sep (piece :: pieces) = piece.toList ++ sep ++ joinWith sep pieces := by
  obtain ⟨next, pieces, rfl⟩ := List.exists_cons_of_ne_nil h
  simp [joinWith, List.intercalate]

theorem splitColons_joinWith {pieces : List String}
    (h : ∀ piece ∈ pieces, ¬ [':', ':'] <:+: piece.toList ++ [':']) (last : String) :
    splitColons (joinWith [':', ':'] (pieces ++ [last])) =
      pieces.map String.toList ++ splitColons last.toList := by
  induction pieces with
  | nil => simp [joinWith, List.intercalate]
  | cons piece pieces ih =>
    have hrest := ih fun other hother => h other (List.mem_cons_of_mem _ hother)
    rw [List.cons_append, joinWith_cons _ _ (by simp), List.append_assoc]
    rw [show [':', ':'] ++ joinWith [':', ':'] (pieces ++ [last]) =
      ':' :: ':' :: joinWith [':', ':'] (pieces ++ [last]) from rfl]
    rw [splitColons_append (h piece List.mem_cons_self), hrest, List.map_cons, List.cons_append]

/-- Splitting at dots is splitting each of the pieces. -/
theorem splitOn_joinWith {pieces : List String} (h : pieces ≠ []) :
    (joinWith ['.'] pieces).splitOn '.' = pieces.flatMap fun piece => piece.toList.splitOn '.' := by
  induction pieces with
  | nil => exact absurd rfl h
  | cons piece pieces ih =>
    by_cases hnil : pieces = []
    · subst hnil
      simp [joinWith, List.intercalate]
    · rw [joinWith_cons _ _ hnil, List.append_assoc, List.singleton_append,
        List.splitOn_append_cons_self, ih hnil, List.flatMap_cons]

theorem infix_joinWith (sep : List Char) {piece : String} {pieces : List String}
    (h : piece ∈ pieces) : piece.toList <:+: joinWith sep pieces := by
  induction pieces with
  | nil => cases h
  | cons first pieces ih =>
    by_cases hnil : pieces = []
    · subst hnil
      obtain rfl : piece = first := by simpa using h
      simp [joinWith, List.intercalate]
    · rw [joinWith_cons _ _ hnil]
      rcases List.mem_cons.1 h with rfl | h
      · exact ⟨[], sep ++ joinWith sep pieces, by simp⟩
      · exact (ih h).trans (List.suffix_append _ _).isInfix

/-- A piece between dots is part of the text. -/
theorem infix_of_mem_splitDots {piece text : String} (h : piece ∈ splitDots text) :
    piece.toList <:+: text.toList := by
  have hjoined : joinWith ['.'] (splitDots text) = text.toList := by
    rw [joinWith, splitDots, List.map_map]
    rw [show String.toList ∘ String.ofList = id by
      funext cs
      simp]
    rw [List.map_id, List.intercalate_splitOn]
  rw [← hjoined]
  exact infix_joinWith _ h

theorem withoutSuffix_append {stem suffix : List Char} (hstem : stem ≠ []) (hsuffix : suffix ≠ [])
    (h : '.' ∉ suffix) : withoutSuffix (stem ++ '.' :: suffix) = stem := by
  have htaken : ((stem ++ '.' :: suffix).reverse.takeWhile (· ≠ '.')).reverse = suffix := by
    rw [List.reverse_append, List.reverse_cons, List.append_assoc,
      List.takeWhile_append_of_pos]
    · simp
    · intro c hc
      have hne : c ≠ '.' := fun heq => h (heq ▸ List.mem_reverse.1 hc)
      simpa using hne
  have hbefore : (stem ++ '.' :: suffix).take
      ((stem ++ '.' :: suffix).length - suffix.length - 1) = stem := by
    rw [List.length_append, List.length_cons]
    rw [show stem.length + (suffix.length + 1) - suffix.length - 1 = stem.length by omega]
    exact List.take_left
  simp only [withoutSuffix, htaken, hbefore]
  simp [hstem, hsuffix]

theorem joinParts_concat (parts : List String) (last : String) :
    ∃ start, (joinParts (parts ++ [last])).toList = start ++ last.toList := by
  induction parts with
  | nil => exact ⟨[], rfl⟩
  | cons part parts ih =>
    obtain ⟨start, hstart⟩ := ih
    refine ⟨part.toList ++ '/' :: start, ?_⟩
    rw [List.cons_append, joinParts]
    · simp [hstart]
    · simp

namespace PyTest

variable (t other : PyTest)

theorem nodeParts_nodeId : nodeParts t.nodeId = t.parts := by
  have hpath : ¬ [':', ':'] <:+: t.path.toList ++ [':'] := by
    intro hin
    rcases List.infix_concat_iff.1 hin with ⟨before, hends⟩ | hin
    · obtain ⟨start, hpath⟩ := joinParts_concat t.dirs (t.stem ++ ".py")
      have hlast : t.path.toList.getLast? = some 'y' := by
        rw [path, hpath]
        simp
      rw [show before ++ [':', ':'] = (before ++ [':']) ++ [':'] by simp] at hends
      rw [← List.append_cancel_right hends] at hlast
      simp at hlast
    · exact t.pathNoColons hin
  have hpieces : ∀ piece ∈ t.path :: t.classes, ¬ [':', ':'] <:+: piece.toList ++ [':'] := by
    intro piece hpiece
    rcases List.mem_cons.1 hpiece with rfl | hpiece
    · exact hpath
    · exact not_infix_concat (t.classNames piece hpiece).1
  unfold nodeParts nodeId parts
  rw [String.toList_ofList, splitColons_joinWith hpieces, List.map_append, List.map_map]
  simp

theorem pathParts_path : pathParts t.path = t.dirs ++ [t.stem ++ ".py"] := by
  refine pathParts_joinParts _ fun part hpart => ?_
  rcases List.mem_append.1 hpart with hdir | hfile
  · exact t.isPart part hdir
  · obtain rfl : part = t.stem ++ ".py" := by simpa using hfile
    have hlength : 3 ≤ (t.stem ++ ".py").toList.length := by simp
    refine ⟨?_, fun heq => ?_, fun heq => ?_⟩
    · simp [t.stemNoSlash]
    · rw [heq] at hlength
      exact absurd hlength (by decide)
    · rw [heq] at hlength
      exact absurd hlength (by decide)

theorem pathStem_path : pathStem t.path = t.stem := by
  unfold pathStem
  rw [pathParts_path, List.getLastD_concat]
  have hstem : t.stem.toList ≠ [] := fun hnil => t.stemNonempty (String.toList_eq_nil_iff.1 hnil)
  rw [String.toList_append]
  rw [show t.stem.toList ++ ".py".toList = t.stem.toList ++ '.' :: ['p', 'y'] from rfl]
  rw [withoutSuffix_append hstem (by simp) (by decide), String.ofList_toList]

/-- The case that pytest writes for `other` is taken for the node id of the test. -/
theorem caseFits_iff (children : List String) :
    caseFits t.nodeId ⟨other.classname, other.name, childrenStatus children⟩ = true ↔
      other.MistakenFor t := by
  have hhead : t.parts.headD "" = t.path := rfl
  have hstem : t.stem ∈ splitDots other.classname ∨ t.stem.toList <:+: other.classname.toList ↔
      t.stem.toList <:+: other.classname.toList :=
    or_iff_right_of_imp infix_of_mem_splitDots
  have hclass : ((if 3 ≤ t.parts.length then t.parts.dropLast.getLast? else none).all
      fun expected => decide (expected ∈ splitDots other.classname)) = true ↔
        (3 ≤ t.parts.length → t.parts.dropLast.getLastD "" ∈ splitDots other.classname) := by
    by_cases hlength : 3 ≤ t.parts.length
    · have hne : t.parts.dropLast ≠ [] := by
        intro hnil
        have hdrop := congrArg List.length hnil
        rw [List.length_dropLast, List.length_nil] at hdrop
        omega
      rw [if_pos hlength, List.getLast?_eq_some_getLast hne, List.getLastD_eq_getLast?,
        List.getLast?_eq_some_getLast hne]
      simp [hlength]
    · simp [hlength]
  unfold caseFits MistakenFor
  simp only [nodeParts_nodeId, hhead, pathStem_path, t.stemNonempty, decide_false, Bool.false_or,
    Bool.and_eq_true, decide_eq_true_eq, Bool.or_eq_true, hclass, hstem, and_assoc]

/-- A test is taken for itself unless its parameters bring a `::`. -/
theorem mistakenFor_self : t.MistakenFor t ↔ ¬ [':', ':'] <:+: t.name.toList := by
  constructor
  · rintro ⟨hname, -⟩ hin
    have hlast : t.name.toList ∈ splitColons t.name.toList := by
      have hmem : t.parts.getLastD "" ∈ (splitColons t.name.toList).map String.ofList := by
        have hne := splitColons_ne_nil t.name.toList
        rw [parts, List.getLastD_eq_getLast?, List.getLast?_append_of_ne_nil _ (by simpa using hne),
          List.getLast?_eq_some_getLast (by simpa using hne), Option.getD_some]
        exact List.getLast_mem _
      rw [← hname] at hmem
      obtain ⟨piece, hpiece, heq⟩ := List.mem_map.1 hmem
      have hchars : piece = t.name.toList := by rw [← heq, String.toList_ofList]
      exact hchars ▸ hpiece
    exact splitColons_pieces _ _ hlast hin
  · intro hno
    have hparts : t.parts = t.path :: t.classes ++ [t.name] := by
      simp [parts, splitColons_single hno]
    have hstem : t.stem.toList <:+: t.classname.toList := by
      rw [classname, String.toList_ofList]
      exact infix_joinWith _ (by simp)
    refine ⟨?_, fun hlength => ?_, hstem⟩
    · rw [hparts, List.getLastD_concat]
    · rw [hparts, List.dropLast_concat]
      rw [hparts] at hlength
      have hclasses : t.classes ≠ [] := by
        intro hnil
        simp [hnil] at hlength
      obtain ⟨before, name, hname⟩ := List.eq_nil_or_concat t.classes |>.resolve_left hclasses
      have hdot : '.' ∉ name.toList := (t.classNames name (by simp [hname])).2.1
      have hsplit : name.toList.splitOn '.' = [name.toList] := by
        have hall : ∀ cs ∈ [name.toList], '.' ∉ cs := by simpa using hdot
        simpa [List.intercalate] using List.splitOn_intercalate '.' hall (by simp)
      rw [hname, show t.path :: before.concat name = (t.path :: before) ++ [name] by simp,
        List.getLastD_concat]
      refine List.mem_map.2 ⟨name.toList, ?_, String.ofList_toList⟩
      rw [classname, String.toList_ofList, splitOn_joinWith (by simp)]
      refine List.mem_flatMap.2 ⟨name, by simp [hname], ?_⟩
      rw [hsplit]
      exact List.mem_singleton.2 rfl

end PyTest

/-! ## Node ids are distinct -/

/-- A word ends where the first character stands that no word has. -/
theorem word_unique {word : Char → Prop} {first second rest rest' : List Char}
    (hfirst : ∀ c ∈ first, word c) (hsecond : ∀ c ∈ second, word c)
    (hrest : ∀ c ∈ rest.head?, ¬ word c) (hrest' : ∀ c ∈ rest'.head?, ¬ word c)
    (h : first ++ rest = second ++ rest') : first = second ∧ rest = rest' := by
  induction first generalizing second with
  | nil =>
    cases second with
    | nil => exact ⟨rfl, h⟩
    | cons d second =>
      rw [List.nil_append] at h
      subst h
      exact absurd (hsecond d List.mem_cons_self) (hrest d rfl)
  | cons c first ih =>
    cases second with
    | nil =>
      rw [List.nil_append] at h
      subst h
      exact absurd (hfirst c List.mem_cons_self) (hrest' c rfl)
    | cons d second =>
      obtain ⟨rfl, htail⟩ := List.cons.inj h
      obtain ⟨rfl, hsame⟩ := ih (fun x hx => hfirst x (List.mem_cons_of_mem _ hx))
        (fun x hx => hsecond x (List.mem_cons_of_mem _ hx)) htail
      exact ⟨rfl, hsame⟩

namespace PyTest

/-- Characters of the names of classes and functions. -/
def NameChar (c : Char) : Prop := c ≠ ':' ∧ c ≠ '['

/-- The parameters as the name of the test shows them. -/
def bracket (params : Option String) : List Char :=
  params.elim [] fun params => '[' :: params.toList ++ [']']

theorem name_toList (t : PyTest) : t.name.toList = t.function.toList ++ bracket t.params := by
  cases h : t.params <;> simp [name, bracket, h]

theorem bracket_head (params : Option String) : ∀ c ∈ (bracket params).head?, ¬ NameChar c := by
  cases params <;> simp [bracket, NameChar]

theorem bracket_injective {params params' : Option String} (h : bracket params = bracket params') :
    params = params' := by
  cases params with
  | none =>
    cases params' with
    | none => rfl
    | some other => cases h
  | some text =>
    cases params' with
    | none => cases h
    | some other =>
      have hchars : text.toList ++ [']'] = other.toList ++ [']'] := (List.cons.inj h).2
      rw [String.ext (List.append_cancel_right hchars)]

/-- The classes and the name can be read back from what stands behind the path. -/
theorem joinWith_name_injective {classes classes' : List String} {function function' : String}
    {params params' : Option String}
    (hclasses : ∀ name ∈ classes, ∀ c ∈ name.toList, NameChar c)
    (hclasses' : ∀ name ∈ classes', ∀ c ∈ name.toList, NameChar c)
    (hfunction : ∀ c ∈ function.toList, NameChar c)
    (hfunction' : ∀ c ∈ function'.toList, NameChar c)
    (h : classes.flatMap (fun name => name.toList ++ [':', ':']) ++
        (function.toList ++ bracket params) =
      classes'.flatMap (fun name => name.toList ++ [':', ':']) ++
        (function'.toList ++ bracket params')) :
    classes = classes' ∧ function = function' ∧ params = params' := by
  have hcolon : ∀ rest : List Char, ∀ c ∈ (':' :: rest).head?, ¬ NameChar c := by
    intro rest c hc
    cases hc
    exact fun hname => hname.1 rfl
  induction classes generalizing classes' with
  | nil =>
    cases classes' with
    | nil =>
      obtain ⟨hsame, hbracket⟩ :=
        word_unique hfunction hfunction' (bracket_head _) (bracket_head _) h
      exact ⟨rfl, String.ext hsame, bracket_injective hbracket⟩
    | cons name classes' =>
      rw [List.flatMap_nil, List.nil_append, List.flatMap_cons, List.append_assoc,
        List.append_assoc] at h
      obtain ⟨-, hrest⟩ := word_unique hfunction (hclasses' name List.mem_cons_self)
        (bracket_head _) (hcolon _) h
      cases params <;> simp [bracket] at hrest
  | cons name classes ih =>
    rw [List.flatMap_cons, List.append_assoc, List.append_assoc] at h
    cases classes' with
    | nil =>
      obtain ⟨-, hrest⟩ := word_unique (hclasses name List.mem_cons_self) hfunction' (hcolon _)
        (bracket_head _) h
      cases params' <;> simp [bracket] at hrest
    | cons name' classes' =>
      rw [List.flatMap_cons, List.append_assoc, List.append_assoc] at h
      obtain ⟨hname, hrest⟩ := word_unique (hclasses name List.mem_cons_self)
        (hclasses' name' List.mem_cons_self) (hcolon _) (hcolon _) h
      obtain ⟨rfl, hsame⟩ := ih (fun other hother => hclasses other (List.mem_cons_of_mem _ hother))
        (fun other hother => hclasses' other (List.mem_cons_of_mem _ hother))
        (List.cons.inj (List.cons.inj hrest).2).2
      exact ⟨by rw [String.ext hname], hsame⟩

theorem joinWith_concat (pieces : List String) (last : String) :
    joinWith [':', ':'] (pieces ++ [last]) =
      pieces.flatMap (fun piece => piece.toList ++ [':', ':']) ++ last.toList := by
  induction pieces with
  | nil => simp [joinWith, List.intercalate]
  | cons piece pieces ih =>
    rw [List.cons_append, joinWith_cons _ _ (by simp), ih]
    simp

/-- Different tests have different node ids. -/
theorem nodeId_injective {t u : PyTest} (h : t.nodeId = u.nodeId) : t = u := by
  have hparts : t.parts = u.parts := by
    rw [← nodeParts_nodeId, ← nodeParts_nodeId, h]
  have hpath : t.path = u.path := (List.cons.inj hparts).1
  have hfile : t.dirs ++ [t.stem ++ ".py"] = u.dirs ++ [u.stem ++ ".py"] := by
    rw [← pathParts_path, ← pathParts_path, hpath]
  obtain ⟨hdirs, hstem⟩ := List.append_inj' hfile rfl
  have hstem : t.stem = u.stem := by
    have hchars : t.stem.toList ++ ".py".toList = u.stem.toList ++ ".py".toList := by
      simpa using congrArg String.toList (List.singleton_inj.1 hstem)
    exact String.ext (List.append_cancel_right hchars)
  have hchars : joinWith [':', ':'] (t.path :: t.classes ++ [t.name]) =
      joinWith [':', ':'] (u.path :: u.classes ++ [u.name]) := by
    simpa [nodeId] using congrArg String.toList h
  rw [joinWith_concat, joinWith_concat, List.flatMap_cons, List.flatMap_cons, hpath,
    List.append_assoc _ _ (t.name.toList), List.append_assoc _ _ (u.name.toList), name_toList,
    name_toList] at hchars
  have hnames : ∀ v : PyTest, ∀ name ∈ v.classes, ∀ c ∈ name.toList, NameChar c := by
    intro v name hname c hc
    obtain ⟨hcolon, -, hopen⟩ := v.classNames name hname
    exact ⟨fun heq => hcolon (heq ▸ hc), fun heq => hopen (heq ▸ hc)⟩
  have hfunctions : ∀ v : PyTest, ∀ c ∈ v.function.toList, NameChar c := fun v c hc =>
    ⟨fun heq => v.functionName.1 (heq ▸ hc), fun heq => v.functionName.2 (heq ▸ hc)⟩
  obtain ⟨hclasses, hfunction, hparams⟩ := joinWith_name_injective (hnames t) (hnames u)
    (hfunctions t) (hfunctions u) (List.append_cancel_left hchars)
  cases t
  cases u
  cases hdirs
  cases hstem
  cases hclasses
  cases hfunction
  cases hparams
  rfl

end PyTest

/-! ## Whose status a node gets -/

/-- The report of an execution, by the children that each test's element has. -/
def junitCases (executed : List PyTest) (children : PyTest → List String) : List JUnitCase :=
  parseJunitXml (executed.map fun t => t.element (children t))

/-- The status of the test's own case, `missing` where it was not executed. -/
def ownStatus (executed : List PyTest) (children : PyTest → List String) (t : PyTest) :
    NodeStatus :=
  if t ∈ executed then childrenStatus (children t) else .missing

/-- The node id leads to its own case: its parameters bring no `::`, and no test reported before
it, or none at all where it was not executed, fits. -/
def Unmistaken (executed : List PyTest) (t : PyTest) : Prop :=
  (t ∈ executed → ¬ [':', ':'] <:+: t.name.toList) ∧
    ∀ other ∈ executed.takeWhile (· ≠ t), ¬ other.MistakenFor t

instance (other t : PyTest) : Decidable (other.MistakenFor t) :=
  inferInstanceAs (Decidable (_ ∧ _ ∧ _))

theorem matchJunitStatus_junitCases (executed : List PyTest) (children : PyTest → List String)
    (t : PyTest) : matchJunitStatus t.nodeId (junitCases executed children) =
      (executed.find? fun other => other.MistakenFor t).elim .missing
        fun other => childrenStatus (children other) := by
  unfold matchJunitStatus junitCases parseJunitXml
  induction executed with
  | nil => rfl
  | cons other executed ih =>
    have hfits := PyTest.caseFits_iff t other (children other)
    simp only [List.map_cons, List.find?_cons, PyTest.element, Option.getD_some]
    by_cases hmistaken : other.MistakenFor t
    · simp [hfits.2 hmistaken, hmistaken]
    · rw [Bool.eq_false_iff.2 fun h => hmistaken (hfits.1 h), decide_eq_false hmistaken]
      exact ih

/-- The first test that fits is the test itself, where it was executed. -/
theorem find_iff_unmistaken (executed : List PyTest) (t : PyTest) :
    (executed.find? fun other => other.MistakenFor t) = (if t ∈ executed then some t else none) ↔
      Unmistaken executed t := by
  induction executed with
  | nil => simp [Unmistaken]
  | cons other executed ih =>
    by_cases hsame : other = t
    · subst hsame
      have hself := PyTest.mistakenFor_self other
      by_cases hmistaken : other.MistakenFor other
      · simp [Unmistaken, hmistaken, hself.1 hmistaken]
      · have hcolons : [':', ':'] <:+: other.name.toList := by
          by_contra hno
          exact hmistaken (hself.2 hno)
        simp only [List.find?_cons, hmistaken, decide_false, List.mem_cons_self, if_true,
          Unmistaken, hcolons, not_true_eq_false, forall_const, false_and, iff_false]
        intro hfound
        have hfits := List.find?_some hfound
        exact hmistaken (of_decide_eq_true hfits)
    · have hmem : t ∈ other :: executed ↔ t ∈ executed := by
        simp [Ne.symm hsame]
      have hunmistaken : Unmistaken (other :: executed) t ↔
          ¬ other.MistakenFor t ∧ Unmistaken executed t := by
        simp only [Unmistaken, hmem, List.takeWhile_cons, hsame, ne_eq, not_false_eq_true,
          decide_true, if_true, List.forall_mem_cons]
        tauto
      simp only [hunmistaken, List.find?_cons, hmem]
      by_cases hmistaken : other.MistakenFor t
      · simp only [hmistaken, decide_true, not_true_eq_false, false_and, iff_false]
        split
        · simpa using hsame
        · simp
      · simpa [hmistaken] using ih

/-- Whatever the tests come to, each requested node gets the status of its own case, and
`missing` only where it was not executed, if and only if no node id is mistaken. -/
theorem junit_exact_iff (executed requested : List PyTest) :
    (∀ children : PyTest → List String, ∀ t ∈ requested,
        matchJunitStatus t.nodeId (junitCases executed children) =
          ownStatus executed children t) ↔
      ∀ t ∈ requested, Unmistaken executed t := by
  have hnode : ∀ t, (∀ children : PyTest → List String,
      matchJunitStatus t.nodeId (junitCases executed children) = ownStatus executed children t) ↔
        Unmistaken executed t := by
    intro t
    rw [← find_iff_unmistaken]
    constructor
    · intro h
      -- an execution in which only the node itself failed tells whose case was taken
      have hfailed := h fun other => if other = t then ["failure"] else []
      rw [matchJunitStatus_junitCases, ownStatus] at hfailed
      cases hfound : executed.find? fun other => other.MistakenFor t with
      | none =>
        rw [hfound] at hfailed
        split
        next hin =>
          rw [if_pos hin] at hfailed
          simp [childrenStatus] at hfailed
        · rfl
      | some other =>
        rw [hfound] at hfailed
        by_cases hsame : other = t
        · subst hsame
          rw [if_pos (List.mem_of_find?_eq_some hfound)]
        · simp only [Option.elim_some, hsame, if_false] at hfailed
          split at hfailed
          · simp [childrenStatus] at hfailed
          · simp [childrenStatus] at hfailed
    · intro h children
      rw [matchJunitStatus_junitCases, h, ownStatus]
      split
      · rfl
      · rfl
  constructor
  · exact fun h t ht => (hnode t).1 fun children => h children t ht
  · exact fun h children t ht => (hnode t).2 (h t ht) children

/-! ## Two files of one name -/

def unitRead : PyTest where
  dirs := ["tests", "unit"]
  stem := "test_io"
  classes := []
  function := "test_read"
  params := none
  isPart := by decide
  stemNonempty := by decide
  stemNoSlash := by decide
  pathNoColons := by decide +kernel
  classNames := by decide
  functionName := by decide

def liveRead : PyTest where
  dirs := ["tests", "live"]
  stem := "test_io"
  classes := []
  function := "test_read"
  params := none
  isPart := by decide
  stemNonempty := by decide
  stemNoSlash := by decide
  pathNoColons := by decide +kernel
  classNames := by decide
  functionName := by decide

/-- The test that failed is reported as passed, since the one of the other directory did. -/
theorem failed_node_passed :
    let executed := [unitRead, liveRead]
    let children := fun t : PyTest => if t = liveRead then ["failure"] else []
    ownStatus executed children liveRead = .failed ∧
      matchJunitStatus liveRead.nodeId (junitCases executed children) = .passed := by
  decide +kernel

end EvoCI
