import EvoCI.Benchmark.CandidatePatch
import EvoCI.Memory.Selection

/-! What a preview reads back of the content of an episode: the content is lines of fields, and a
field may hold lines of its own that look like another field or like the summary. -/

namespace EvoCI

/-! ## Lines of joined parts -/

/-- The lines of a part that are not blank. -/
def partLines (part : String) : List String := (splitLines part).filter (· ≠ "")

/-- The characters before the first line boundary. -/
def firstLine (text : String) : String :=
  String.ofList (text.toList.takeWhile fun c => !isLineBreak c)

theorem partLines_empty : partLines "" = [] := rfl

/-- Joined parts give the lines of each part, but for blank ones. -/
theorem partLines_intercalate (parts : List String) :
    partLines ("\n".intercalate parts) = parts.flatMap partLines := by
  induction parts with
  | nil => rfl
  | cons part parts ih =>
    cases parts with
    | nil => rw [String.intercalate_singleton, List.flatMap_cons, List.flatMap_nil, List.append_nil]
    | cons next parts =>
      have htext : ("\n".intercalate (part :: next :: parts)).toList =
          part.toList ++ '\n' :: ("\n".intercalate (next :: parts)).toList := by
        rw [String.intercalate_cons_cons]
        simp
      obtain ⟨blank, hblank, hsplit⟩ :=
        splitLinesFrom_end part.toList [] ("\n".intercalate (next :: parts)).toList
      have hnone : blank.filter (· ≠ "") = [] := by
        rw [List.filter_eq_nil_iff]
        intro b hb
        simpa using hblank b hb
      rw [List.flatMap_cons, ← ih, partLines, splitLines, htext, hsplit, List.filter_append,
        List.filter_append, hnone, List.append_nil]
      rfl

theorem splitLinesFrom_cons (read cs : List Char) (hne : read ≠ [] ∨ cs ≠ []) :
    ∃ more, splitLinesFrom read cs =
      String.ofList (read.reverse ++ cs.takeWhile fun c => !isLineBreak c) :: more := by
  fun_induction splitLinesFrom read cs with
  | case1 => simp at hne
  | case2 read hread => exact ⟨[], by simp⟩
  | case3 read cs ih =>
    exact ⟨splitLinesFrom [] cs, by simp [show isLineBreak '\r' = true by decide]⟩
  | case4 read c cs hcr hbreak ih => exact ⟨splitLinesFrom [] cs, by simp [hbreak]⟩
  | case5 read c cs hcr hbreak ih =>
    obtain ⟨more, hmore⟩ := ih (.inl (by simp))
    exact ⟨more, by rw [hmore]; simp [hbreak]⟩

theorem splitLinesFrom_append {label : List Char} (h : ∀ c ∈ label, isLineBreak c = false)
    (read cs : List Char) :
    splitLinesFrom read (label ++ cs) = splitLinesFrom (label.reverse ++ read) cs := by
  induction label generalizing read with
  | nil => rfl
  | cons c label ih =>
    rw [List.cons_append, splitLinesFrom_other (h c List.mem_cons_self),
      ih fun d hd => h d (List.mem_cons_of_mem _ hd)]
    simp

/-- The first line of a labelled part is the label with the first line of its value. -/
theorem partLines_labelled {label : String} (h : ∀ c ∈ label.toList, isLineBreak c = false)
    (hne : label ≠ "") (value : String) :
    ∃ more, partLines (label ++ value) = (label ++ firstLine value) :: more := by
  have hread : label.toList.reverse ≠ [] := by simpa using hne
  obtain ⟨more, hmore⟩ := splitLinesFrom_cons (label.toList.reverse ++ []) value.toList
    (.inl (by simpa using hne))
  refine ⟨more.filter (· ≠ ""), ?_⟩
  have hfirst : String.ofList ((label.toList.reverse ++ []).reverse ++
      value.toList.takeWhile fun c => !isLineBreak c) = label ++ firstLine value := by
    rw [List.append_nil, List.reverse_reverse, String.ofList_append, String.ofList_toList]
    rfl
  have hkept : label ++ firstLine value ≠ "" := fun hempty =>
    hne (String.append_eq_empty_iff.1 hempty).1
  rw [partLines, splitLines, String.toList_append, splitLinesFrom_append h, hmore, hfirst,
    List.filter_cons_of_pos (by simp only [ne_eq, hkept, not_false_eq_true, decide_true])]

/-! ## Clipped texts -/

theorem wordsFrom_plain (word cs : List Char) (hword : ∀ c ∈ word, isSpace c = false) :
    ∀ w ∈ wordsFrom word cs, ∀ c ∈ w, isSpace c = false := by
  fun_induction wordsFrom word cs with
  | case1 => simp
  | case2 word hne =>
    intro w hw c hc
    rw [List.mem_singleton.1 hw] at hc
    exact hword c (List.mem_reverse.1 hc)
  | case3 c cs hspace ih => exact ih (by simp)
  | case4 word c cs hspace hne ih =>
    intro w hw d hd
    rcases List.mem_cons.1 hw with rfl | hw
    · exact hword d (List.mem_reverse.1 hd)
    · exact ih (by simp) w hw d hd
  | case5 word c cs hspace ih =>
    refine ih fun d hd => ?_
    rcases List.mem_cons.1 hd with rfl | hd
    · simpa using hspace
    · exact hword d hd

theorem newline_notMem_compactText (text : String) : '\n' ∉ (compactText text).toList := by
  have hjoin : ∀ words : List (List Char), (∀ w ∈ words, ∀ c ∈ w, isSpace c = false) →
      '\n' ∉ [' '].intercalate words := by
    intro words hwords
    have hword : ∀ w ∈ words, '\n' ∉ w := fun w hw hin =>
      absurd (hwords w hw _ hin) (by decide)
    clear hwords
    induction words with
    | nil => simp [List.intercalate]
    | cons word words ih =>
      cases words with
      | nil => simpa [List.intercalate] using hword
      | cons next words =>
        have hrest := ih fun w hw => hword w (List.mem_cons_of_mem _ hw)
        simp only [List.intercalate, List.intersperse_cons_cons, List.flatten_cons,
          List.mem_append, not_or] at hrest ⊢
        exact ⟨hword word List.mem_cons_self, by decide, hrest⟩
  rw [compactText, String.toList_ofList]
  exact hjoin _ (wordsFrom_plain [] text.toList (by simp))

/-- A clipped text is one line. -/
theorem newline_notMem_clip (text : String) (limit : Nat) : '\n' ∉ (clip text limit).toList := by
  have hcompact := newline_notMem_compactText text
  simp only [clip]
  split
  · exact hcompact
  · rw [String.toList_append, String.toList_ofList, List.mem_append, not_or]
    refine ⟨fun hin => hcompact ?_, by decide⟩
    unfold rstrip at hin
    have hkept := (List.dropWhile_suffix isSpace).subset (List.mem_reverse.1 hin)
    exact List.mem_of_mem_take (List.mem_reverse.1 hkept)

theorem patchLines_single {line : List Char} (h : '\n' ∉ line) : patchLines line = [line] := by
  induction line with
  | nil => rfl
  | cons c line ih =>
    have hc : c ≠ '\n' := fun heq => h (heq ▸ List.mem_cons_self)
    exact patchLines_other hc (ih fun hin => h (List.mem_cons_of_mem _ hin))

/-- Lines without newlines are known from their joined text. -/
theorem intercalate_injective {lines others : List String} (hne : lines ≠ []) (hother : others ≠ [])
    (hlines : ∀ line ∈ lines, '\n' ∉ line.toList) (hothers : ∀ line ∈ others, '\n' ∉ line.toList)
    (h : "\n".intercalate lines = "\n".intercalate others) : lines = others := by
  have hread : ∀ texts : List String, texts ≠ [] → (∀ line ∈ texts, '\n' ∉ line.toList) →
      patchLines ("\n".intercalate texts).toList = texts.map String.toList := by
    intro texts
    induction texts with
    | nil => exact fun hnil _ => absurd rfl hnil
    | cons text texts ih =>
      intro _ hplain
      cases texts with
      | nil =>
        rw [String.intercalate_singleton, patchLines_single (hplain text List.mem_cons_self)]
        rfl
      | cons next texts =>
        have htext : ("\n".intercalate (text :: next :: texts)).toList =
            text.toList ++ '\n' :: ("\n".intercalate (next :: texts)).toList := by
          rw [String.intercalate_cons_cons]
          simp
        rw [htext, patchLines_line (hplain text List.mem_cons_self),
          ih (by simp) fun line hline => hplain line (List.mem_cons_of_mem _ hline)]
        rfl
  have hmap := (hread lines hne hlines).symm.trans
    ((congrArg (fun s => patchLines s.toList) h).trans
    (hread others hother hothers))
  exact List.map_injective_iff.2 (fun a b hab => String.toList_inj.1 hab) hmap

/-! ## The preview of the fields -/

/-- A field of a preview, if there is a value to show. -/
def shownField (field : String × Nat) (value : String) : List String :=
  if value ≠ "" then [field.1 ++ clip value field.2] else []

/-- The parts of the content behind the line that tells the outcome. -/
def Episode.parts (lower : String → String) (e : Episode) : List String :=
  if e.success then
    [e.failureSummary] ++ contentLine "ROOT_CAUSE=" e.rootCause ++
      contentLine "SUCCESSFUL_FIX=" e.successfulFixSummary
  else
    ["FAILURE_CLASS=" ++ e.failureClass.text, e.failureSummary] ++
      contentLine "FAILURE_STAGE=" e.failureStage ++
      contentLine "FAILURE_REASON=" e.failureReason ++
      contentList "ATTEMPTED_FIXES=" (e.attemptedFixSummaries.map (markFix lower)) ++
      contentList "ATTEMPTED_FILES=" e.attemptedFiles ++
      contentList "VERIFICATION_FAILURES=" e.verificationFailures ++
      contentList "EXTERNAL_FAILURE_DETAILS=" e.externalFailureDetails ++
      contentLine "HYPOTHESIS (unverified): " e.rootCause ++
      contentList "HYPOTHESES_ATTEMPTED (unverified): " e.hypothesesAttempted

/-- The fields of a preview with the values that the episode has for them. -/
def Episode.shownFields (e : Episode) : List String :=
  if e.success then
    shownField ("ROOT_CAUSE=", 150) (e.rootCause.getD "") ++
      shownField ("SUCCESSFUL_FIX=", 180) (e.successfulFixSummary.getD "")
  else
    shownField ("FAILURE_CLASS=", 40) e.failureClass.text ++
      (shownField ("FAILURE_REASON=", 220) (e.failureReason.getD "") ++
        shownField ("ATTEMPTED_FILES=", 100) (joinItems e.attemptedFiles))

/-- The preview that shows the fields of the episode as they are. -/
def Episode.truePreview (e : Episode) : String :=
  "\n".intercalate ([outcomeText e.success, "SUMMARY=" ++ clip e.failureSummary 180] ++
    e.shownFields)

theorem content_eq (lower : String → String) (e : Episode) : e.content lower =
    "\n".intercalate (outcomeText e.success :: (e.parts lower).filter (· ≠ "")) := by
  have hkept : ∀ (line : String) (lines : List String), line ≠ "" →
      (line :: lines).filter (· ≠ "") = line :: lines.filter (· ≠ "") := fun line lines hline =>
    List.filter_cons_of_pos (by simpa using hline)
  unfold Episode.content Episode.parts
  cases hsuccess : e.success with
  | true =>
    simp only [if_true, List.cons_append, List.nil_append]
    rw [hkept "OUTCOME=success" _ (by decide)]
    rfl
  | false =>
    simp only [Bool.false_eq_true, if_false, List.cons_append, List.nil_append]
    rw [hkept "OUTCOME=failed" _ (by decide)]
    rfl

/-- The lines of the content: the outcome, and then what the other parts hold. -/
theorem content_lines (lower : String → String) (e : Episode) :
    ∃ lines, splitLines (e.content lower) = outcomeText e.success :: lines ∧
      lines.filter (· ≠ "") = (e.parts lower).flatMap partLines := by
  have hparts : ((e.parts lower).filter (· ≠ "")).flatMap partLines =
      (e.parts lower).flatMap partLines := by
    induction e.parts lower with
    | nil => rfl
    | cons part parts ih =>
      by_cases hpart : part = ""
      · subst hpart
        simpa [partLines_empty] using ih
      · rw [List.filter_cons_of_pos (by simpa using hpart), List.flatMap_cons,
          List.flatMap_cons, ih]
  rw [content_eq, ← hparts]
  have hne : (outcomeText e.success).toList ≠ [] := by cases e.success <;> decide
  cases (e.parts lower).filter (· ≠ "") with
  | nil =>
    refine ⟨[], ?_, rfl⟩
    rw [String.intercalate_singleton, splitLines,
      splitLinesFrom_whole (outcomeText_plain e.success) [] hne]
    simp
  | cons part parts =>
    have htext : ("\n".intercalate (outcomeText e.success :: part :: parts)).toList =
        (outcomeText e.success).toList ++ '\n' :: ("\n".intercalate (part :: parts)).toList := by
      rw [String.intercalate_cons_cons]
      simp
    refine ⟨splitLines ("\n".intercalate (part :: parts)), ?_, ?_⟩
    · rw [splitLines, htext, splitLinesFrom_line (outcomeText_plain e.success)]
      simp [splitLines]
    · exact partLines_intercalate (part :: parts)

/-! ## Reading the fields back -/

/-- The lines of a field as a line of it that starts with the label is looked for. -/
def labelledLine (label : String) (lines : List String) : Option String :=
  lines.find? fun line => startsWith line label

/-- What is shown for a label: the line of an earlier field that starts with it, else the first
line of the value, else the line of a later field. -/
def readValue (label : String) (before : List String) (value : Option String)
    (after : List String) : String :=
  match labelledLine label before, value with
  | some line, _ => String.ofList (line.toList.drop label.length)
  | none, some value => firstLine value
  | none, none => labelled label after

/-- The field is shown with the value it has. -/
def FieldKept (field : String × Nat) (before : List String) (value : Option String)
    (after : List String) : Prop :=
  shownField field (readValue field.1 before value after) = shownField field (value.getD "")

/-- The first line that looks like a summary shows the summary. -/
def SummaryKept (summary : String) (after : List String) : Prop :=
  clip (((partLines summary ++ after).find? isSummaryLine).getD "") 180 = clip summary 180

def givenText (value : Option String) : Option String := value.filter (· ≠ "")

def givenItems (items : List String) : Option String :=
  if items = [] then none else some (joinItems items)

/-- The part of the content for a field that has a value. -/
def fieldPart (label : String) (value : Option String) : List String :=
  value.elim [] fun text => [label ++ text]

/-- The parts of a failed episode between the reason and the files. -/
def Episode.fixParts (lower : String → String) (e : Episode) : List String :=
  contentList "ATTEMPTED_FIXES=" (e.attemptedFixSummaries.map (markFix lower))

/-- The parts of a failed episode behind the files. -/
def Episode.trailingParts (e : Episode) : List String :=
  contentList "VERIFICATION_FAILURES=" e.verificationFailures ++
    contentList "EXTERNAL_FAILURE_DETAILS=" e.externalFailureDetails ++
    contentLine "HYPOTHESIS (unverified): " e.rootCause ++
    contentList "HYPOTHESES_ATTEMPTED (unverified): " e.hypothesesAttempted

/-- The fields of a successful episode are read back from their lines as they are. -/
structure SolvedReadsBack (e : Episode) : Prop where
  summary : SummaryKept e.failureSummary
    ((fieldPart "ROOT_CAUSE=" (givenText e.rootCause) ++
      fieldPart "SUCCESSFUL_FIX=" (givenText e.successfulFixSummary)).flatMap partLines)
  cause : FieldKept ("ROOT_CAUSE=", 150) (partLines e.failureSummary) (givenText e.rootCause)
    ((fieldPart "SUCCESSFUL_FIX=" (givenText e.successfulFixSummary)).flatMap partLines)
  fix : FieldKept ("SUCCESSFUL_FIX=", 180)
    ((e.failureSummary :: fieldPart "ROOT_CAUSE=" (givenText e.rootCause)).flatMap partLines)
    (givenText e.successfulFixSummary) []

/-- The fields of a failed episode are read back from their lines as they are. -/
structure FailedReadsBack (lower : String → String) (e : Episode) : Prop where
  summary : SummaryKept e.failureSummary
    ((fieldPart "FAILURE_STAGE=" (givenText e.failureStage) ++
      fieldPart "FAILURE_REASON=" (givenText e.failureReason) ++ e.fixParts lower ++
      fieldPart "ATTEMPTED_FILES=" (givenItems e.attemptedFiles) ++
      e.trailingParts).flatMap partLines)
  reason : FieldKept ("FAILURE_REASON=", 220)
    ((e.failureSummary :: fieldPart "FAILURE_STAGE=" (givenText e.failureStage)).flatMap partLines)
    (givenText e.failureReason)
    ((e.fixParts lower ++ fieldPart "ATTEMPTED_FILES=" (givenItems e.attemptedFiles) ++
      e.trailingParts).flatMap partLines)
  files : FieldKept ("ATTEMPTED_FILES=", 100)
    ((e.failureSummary :: (fieldPart "FAILURE_STAGE=" (givenText e.failureStage) ++
      fieldPart "FAILURE_REASON=" (givenText e.failureReason) ++ e.fixParts lower)).flatMap
        partLines)
    (givenItems e.attemptedFiles) (e.trailingParts.flatMap partLines)

def ReadsBack (lower : String → String) (e : Episode) : Prop :=
  (e.success = true → SolvedReadsBack e) ∧ (e.success = false → FailedReadsBack lower e)

theorem contentLine_eq (label : String) (value : Option String) :
    contentLine label value = fieldPart label (givenText value) := by
  unfold contentLine fieldPart givenText
  cases value.filter (· ≠ "") <;> rfl

theorem contentList_eq (label : String) (items : List String) :
    contentList label items = fieldPart label (givenItems items) := by
  unfold contentList fieldPart givenItems
  split <;> rfl

theorem shownField_givenText (field : String × Nat) (value : Option String) :
    shownField field ((givenText value).getD "") = shownField field (value.getD "") := by
  cases value with
  | none => rfl
  | some text =>
    by_cases htext : text = ""
    · subst htext
      rfl
    · rw [givenText, Option.filter_some, if_pos (by simpa using htext)]

theorem shownField_givenItems (field : String × Nat) (items : List String) :
    shownField field ((givenItems items).getD "") = shownField field (joinItems items) := by
  unfold givenItems
  split
  next hitems =>
    subst hitems
    rfl
  · rfl

theorem startsWith_append (label text : String) : startsWith (label ++ text) label = true := by
  rw [startsWith, List.isPrefixOf_iff_prefix, String.toList_append]
  exact List.prefix_append _ _

theorem drop_label (label text : String) :
    String.ofList ((label ++ text).toList.drop label.length) = text := by
  rw [String.toList_append, ← String.length_toList, List.drop_left, String.ofList_toList]

theorem labelled_cons (label text : String) (lines : List String) :
    labelled label ((label ++ text) :: lines) = text := by
  have hfirst : ((label ++ text) :: lines).find? (fun line => startsWith line label) =
      some (label ++ text) := List.find?_cons_of_pos (startsWith_append _ _)
  rw [labelled, hfirst]
  exact drop_label label text

/-- The value that is read for a label from the lines of the parts. -/
theorem labelled_parts {label : String} (hplain : ∀ c ∈ label.toList, isLineBreak c = false)
    (hne : label ≠ "") (before : List String) (value : Option String) (after : List String) :
    labelled label (before ++ (fieldPart label value).flatMap partLines ++ after) =
      readValue label before value after := by
  have hskip : labelledLine label before = none → ∀ lines : List String,
      labelled label (before ++ lines) = labelled label lines := by
    intro hbefore lines
    rw [labelled, List.find?_append, show before.find? _ = none from hbefore, Option.none_or,
      labelled]
  rw [List.append_assoc]
  unfold readValue
  cases hbefore : labelledLine label before with
  | some line =>
    rw [labelled, List.find?_append, show before.find? _ = some line from hbefore, Option.some_or]
    rfl
  | none =>
    rw [hskip hbefore]
    cases value with
    | none => rfl
    | some text =>
      obtain ⟨more, hmore⟩ := partLines_labelled hplain hne text
      simp only [fieldPart, Option.elim_some, List.flatMap_cons, List.flatMap_nil,
        List.append_nil, hmore, List.cons_append, labelled_cons]

/-- Blank lines do not matter to what is looked for, nor does the outcome. -/
theorem find?_lines {p : String → Bool} (hblank : p "" = false) (lines : List String) :
    lines.find? p = (lines.filter (· ≠ "")).find? p := by
  induction lines with
  | nil => rfl
  | cons line lines ih =>
    by_cases hline : line = ""
    · subst hline
      rw [List.find?_cons_of_neg (by simp [hblank]), ih, List.filter_cons_of_neg (by simp)]
    · rw [List.filter_cons_of_pos (by simpa using hline), List.find?_cons, List.find?_cons, ih]

theorem labelled_content {lower : String → String} {e : Episode} {label : String}
    (hne : label ≠ "") (houtcome : startsWith (outcomeText e.success) label = false) :
    labelled label (splitLines (e.content lower)) =
      labelled label ((e.parts lower).flatMap partLines) := by
  have hblank : startsWith "" label = false := by
    rw [← Bool.not_eq_true, startsWith, List.isPrefixOf_iff_prefix]
    simpa using hne
  obtain ⟨lines, hsplit, hlines⟩ := content_lines lower e
  unfold labelled
  rw [hsplit, ← hlines, List.find?_cons_of_neg (by simp [houtcome]), find?_lines hblank]

theorem summaryLine_content (lower : String → String) (e : Episode) :
    (splitLines (e.content lower)).tail.find? isSummaryLine =
      ((e.parts lower).flatMap partLines).find? isSummaryLine := by
  obtain ⟨lines, hsplit, hlines⟩ := content_lines lower e
  rw [hsplit, List.tail_cons, ← hlines, find?_lines (by decide)]

/-- Two fields whose labels start differently are each known from the list of both. -/
theorem shownField_append {f g : String × Nat} {c d : Char} (hf : f.1.toList.head? = some c)
    (hg : g.1.toList.head? = some d) (hcd : c ≠ d) {x y u v : String} :
    shownField f x ++ shownField g u = shownField f y ++ shownField g v ↔
      shownField f x = shownField f y ∧ shownField g u = shownField g v := by
  have hcases : ∀ (field : String × Nat) (value : String), shownField field value = [] ∨
      ∃ text, shownField field value = [field.1 ++ text] := by
    intro field value
    unfold shownField
    split
    · exact .inr ⟨_, rfl⟩
    · exact .inl rfl
  have hdiffer : ∀ text other, f.1 ++ text ≠ g.1 ++ other := by
    intro text other heq
    have hhead := congrArg (fun s => s.toList.head?) heq
    simp only [String.toList_append, List.head?_append, hf, hg, Option.some_or,
      Option.some.injEq] at hhead
    exact hcd hhead
  refine ⟨fun h => ?_, fun h => by rw [h.1, h.2]⟩
  rcases hcases f x with hx | ⟨a, hx⟩ <;> rcases hcases f y with hy | ⟨b, hy⟩ <;>
    rw [hx, hy] at h ⊢
  · exact ⟨rfl, h⟩
  · rw [List.nil_append, List.singleton_append] at h
    rcases hcases g u with hu | ⟨t, hu⟩ <;> rw [hu] at h
    · cases h
    · exact absurd (List.cons.inj h).1.symm (hdiffer b t)
  · rw [List.nil_append, List.singleton_append] at h
    rcases hcases g v with hv | ⟨t, hv⟩ <;> rw [hv] at h
    · cases h
    · exact absurd (List.cons.inj h).1 (hdiffer a t)
  · rw [List.singleton_append, List.singleton_append] at h
    obtain ⟨hhead, htail⟩ := List.cons.inj h
    exact ⟨by rw [hhead], htail⟩

/-- A preview is known from its lines. -/
theorem previewText_iff {success : Bool} {summary other : String} {fields others : List String}
    (hfields : ∀ line ∈ fields, '\n' ∉ line.toList)
    (hothers : ∀ line ∈ others, '\n' ∉ line.toList) :
    "\n".intercalate ([outcomeText success, "SUMMARY=" ++ clip summary 180] ++ fields) =
        "\n".intercalate ([outcomeText success, "SUMMARY=" ++ clip other 180] ++ others) ↔
      clip summary 180 = clip other 180 ∧ fields = others := by
  have hlines : ∀ (text : String) (lines : List String), (∀ line ∈ lines, '\n' ∉ line.toList) →
      ∀ line ∈ [outcomeText success, "SUMMARY=" ++ clip text 180] ++ lines, '\n' ∉ line.toList := by
    intro text lines hrest line hline
    rcases List.mem_append.1 hline with hline | hline
    · rcases List.mem_cons.1 hline with rfl | hline
      · exact outcomeText_noNewline success
      · rw [List.mem_singleton.1 hline, String.toList_append, List.mem_append, not_or]
        exact ⟨by decide, newline_notMem_clip text 180⟩
    · exact hrest line hline
  constructor
  · intro h
    have hsame := intercalate_injective (by simp) (by simp) (hlines summary fields hfields)
      (hlines other others hothers) h
    simp only [List.cons_append, List.nil_append, List.cons.injEq, true_and] at hsame
    exact ⟨(String.append_right_inj _).1 hsame.1, hsame.2⟩
  · rintro ⟨hclip, rfl⟩
    rw [hclip]

theorem shownField_noNewline {field : String × Nat} (h : '\n' ∉ field.1.toList) (value : String) :
    ∀ line ∈ shownField field value, '\n' ∉ line.toList := by
  intro line hline
  unfold shownField at hline
  split at hline
  · rw [List.mem_singleton.1 hline, String.toList_append, List.mem_append, not_or]
    exact ⟨h, newline_notMem_clip value field.2⟩
  · cases hline

theorem previewEpisode_eq {lower : String → String} {e : Episode} :
    previewEpisode (e.content lower) = "\n".intercalate ([outcomeText e.success,
      "SUMMARY=" ++ clip ((((e.parts lower).flatMap partLines).find? isSummaryLine).getD "") 180] ++
        (if e.success then solvedFields else failedFields).flatMap fun field =>
          shownField field (labelled field.1 (splitLines (e.content lower)))) := by
  have hfields : (if outcomeText e.success = "OUTCOME=failed" then failedFields
      else solvedFields) = if e.success then solvedFields else failedFields := by
    cases e.success <;> decide
  have hhead := headD_splitLines (content_startsWith lower e) "OUTCOME=unknown"
  simp only [previewEpisode, hhead, summaryLine_content, hfields]
  rfl

theorem solved_readsBack_iff {lower : String → String} {e : Episode} (h : e.success = true) :
    previewEpisode (e.content lower) = e.truePreview ↔ SolvedReadsBack e := by
  have hparts : (e.parts lower).flatMap partLines = partLines e.failureSummary ++
      ((fieldPart "ROOT_CAUSE=" (givenText e.rootCause)).flatMap partLines ++
        (fieldPart "SUCCESSFUL_FIX=" (givenText e.successfulFixSummary)).flatMap partLines) := by
    simp [Episode.parts, h, contentLine_eq]
  have hcause : labelled "ROOT_CAUSE=" (splitLines (e.content lower)) =
      readValue "ROOT_CAUSE=" (partLines e.failureSummary) (givenText e.rootCause)
        ((fieldPart "SUCCESSFUL_FIX=" (givenText e.successfulFixSummary)).flatMap partLines) := by
    rw [labelled_content (by decide) (by rw [h]; decide), hparts, ← List.append_assoc,
      labelled_parts (by decide) (by decide)]
  have hfix : labelled "SUCCESSFUL_FIX=" (splitLines (e.content lower)) =
      readValue "SUCCESSFUL_FIX="
        ((e.failureSummary :: fieldPart "ROOT_CAUSE=" (givenText e.rootCause)).flatMap partLines)
        (givenText e.successfulFixSummary) [] := by
    rw [labelled_content (by decide) (by rw [h]; decide), hparts, ← List.append_assoc,
      ← labelled_parts (by decide) (by decide), List.append_nil, List.flatMap_cons]
  have hplain : ∀ field ∈ solvedFields, '\n' ∉ field.1.toList := by decide
  have hline : ∀ field ∈ solvedFields, ∀ value, ∀ line ∈ shownField field value,
      '\n' ∉ line.toList :=
    fun field hfield value => shownField_noNewline (hplain field hfield) value
  rw [previewEpisode_eq, Episode.truePreview, previewText_iff]
  · simp only [h, if_true, Episode.shownFields, solvedFields, List.flatMap_cons, List.flatMap_nil,
      List.append_nil]
    rw [shownField_append rfl rfl (by decide), hcause, hfix, hparts,
      ← shownField_givenText _ e.rootCause, ← shownField_givenText _ e.successfulFixSummary,
      ← List.flatMap_append]
    exact ⟨fun ⟨hs, hc, hf⟩ => ⟨hs, hc, hf⟩, fun hback => ⟨hback.summary, hback.cause, hback.fix⟩⟩
  · intro line hin
    rw [if_pos h] at hin
    obtain ⟨field, hfield, hin⟩ := List.mem_flatMap.1 hin
    exact hline field hfield _ line hin
  · intro line hin
    rw [Episode.shownFields, if_pos h] at hin
    rcases List.mem_append.1 hin with hin | hin
    · exact hline _ (by decide) _ line hin
    · exact hline _ (by decide) _ line hin

theorem failed_parts {lower : String → String} {e : Episode} (h : e.success = false) :
    (e.parts lower).flatMap partLines = ("FAILURE_CLASS=" ++ e.failureClass.text) ::
      (partLines e.failureSummary ++
        ((fieldPart "FAILURE_STAGE=" (givenText e.failureStage)).flatMap partLines ++
          ((fieldPart "FAILURE_REASON=" (givenText e.failureReason)).flatMap partLines ++
            ((e.fixParts lower).flatMap partLines ++
              ((fieldPart "ATTEMPTED_FILES=" (givenItems e.attemptedFiles)).flatMap partLines ++
                e.trailingParts.flatMap partLines))))) := by
  have hclass : partLines ("FAILURE_CLASS=" ++ e.failureClass.text) =
      ["FAILURE_CLASS=" ++ e.failureClass.text] := by
    cases e.failureClass <;> decide +kernel
  simp only [Episode.parts, h, Bool.false_eq_true, if_false, List.flatMap_append, List.flatMap_cons,
    hclass, contentLine_eq, ← contentList_eq, Episode.fixParts,
    Episode.trailingParts, List.append_assoc, List.cons_append, List.nil_append]

theorem failed_readsBack_iff {lower : String → String} {e : Episode} (h : e.success = false) :
    previewEpisode (e.content lower) = e.truePreview ↔ FailedReadsBack lower e := by
  have hparts := @failed_parts lower e h
  have hskip : ∀ {p : String → Bool} {lines : List String},
      (∀ text : FailureClass, p ("FAILURE_CLASS=" ++ text.text) = false) →
      (("FAILURE_CLASS=" ++ e.failureClass.text) :: lines).find? p = lines.find? p :=
    fun hp => List.find?_cons_of_neg (by rw [hp]; simp)
  have hclass : labelled "FAILURE_CLASS=" (splitLines (e.content lower)) = e.failureClass.text := by
    rw [labelled_content (by decide) (by rw [h]; decide), hparts, labelled_cons]
  have hreason : labelled "FAILURE_REASON=" (splitLines (e.content lower)) =
      readValue "FAILURE_REASON="
        ((e.failureSummary :: fieldPart "FAILURE_STAGE=" (givenText e.failureStage)).flatMap
          partLines) (givenText e.failureReason)
        ((e.fixParts lower ++ fieldPart "ATTEMPTED_FILES=" (givenItems e.attemptedFiles) ++
          e.trailingParts).flatMap partLines) := by
    rw [labelled_content (by decide) (by rw [h]; decide), hparts,
      ← labelled_parts (by decide) (by decide), labelled,
      hskip fun text => by cases text <;> decide +kernel]
    simp only [labelled, List.flatMap_append, List.flatMap_cons, List.append_assoc]
  have hfiles : labelled "ATTEMPTED_FILES=" (splitLines (e.content lower)) =
      readValue "ATTEMPTED_FILES="
        ((e.failureSummary :: (fieldPart "FAILURE_STAGE=" (givenText e.failureStage) ++
          fieldPart "FAILURE_REASON=" (givenText e.failureReason) ++ e.fixParts lower)).flatMap
            partLines)
        (givenItems e.attemptedFiles) (e.trailingParts.flatMap partLines) := by
    rw [labelled_content (by decide) (by rw [h]; decide), hparts,
      ← labelled_parts (by decide) (by decide), labelled,
      hskip fun text => by cases text <;> decide +kernel]
    simp only [labelled, List.flatMap_append, List.flatMap_cons, List.append_assoc]
  have hsummary : ((e.parts lower).flatMap partLines).find? isSummaryLine =
      (partLines e.failureSummary ++ (fieldPart "FAILURE_STAGE=" (givenText e.failureStage) ++
        fieldPart "FAILURE_REASON=" (givenText e.failureReason) ++ e.fixParts lower ++
        fieldPart "ATTEMPTED_FILES=" (givenItems e.attemptedFiles) ++
        e.trailingParts).flatMap partLines).find? isSummaryLine := by
    rw [hparts, hskip fun text => by cases text <;> decide +kernel]
    simp only [List.flatMap_append, List.append_assoc]
  have hplain : ∀ field ∈ failedFields, '\n' ∉ field.1.toList := by decide
  have hline : ∀ field ∈ failedFields, ∀ value, ∀ line ∈ shownField field value,
      '\n' ∉ line.toList :=
    fun field hfield value => shownField_noNewline (hplain field hfield) value
  rw [previewEpisode_eq, Episode.truePreview, previewText_iff]
  · simp only [h, Bool.false_eq_true, if_false, Episode.shownFields, failedFields,
      List.flatMap_cons, List.flatMap_nil, List.append_nil, hclass, hreason, hfiles, hsummary]
    rw [List.append_cancel_left_eq, shownField_append rfl rfl (by decide),
      ← shownField_givenText _ e.failureReason, ← shownField_givenItems _ e.attemptedFiles]
    exact ⟨fun ⟨hs, hr, hf⟩ => ⟨hs, hr, hf⟩,
      fun hback => ⟨hback.summary, hback.reason, hback.files⟩⟩
  · intro line hin
    rw [h] at hin
    obtain ⟨field, hfield, hin⟩ := List.mem_flatMap.1 hin
    exact hline field hfield _ line hin
  · intro line hin
    rw [Episode.shownFields, h] at hin
    rcases List.mem_append.1 hin with hin | hin
    · exact hline _ (by decide) _ line hin
    · rcases List.mem_append.1 hin with hin | hin
      · exact hline _ (by decide) _ line hin
      · exact hline _ (by decide) _ line hin

/-- The preview in the catalog of an episode shows its fields exactly when each is read back. -/
theorem preview_true_iff (lower : String → String) (e : Episode) (rank : Option Rat) :
    (preview (episodeHit lower e rank)).content = e.truePreview ↔ ReadsBack lower e := by
  have hepisode : startsWith (episodeHit lower e rank).namespace "episode:" = true :=
    startsWith_append "episode:" e.repo
  have hcontent : (preview (episodeHit lower e rank)).content =
      previewEpisode (e.content lower) := by
    rw [preview, if_pos hepisode, episodeHit]
  rw [hcontent, ReadsBack]
  cases h : e.success with
  | true =>
    rw [solved_readsBack_iff h]
    exact ⟨fun hback => ⟨fun _ => hback, fun hf => Bool.noConfusion hf⟩, fun hback => hback.1 rfl⟩
  | false =>
    rw [failed_readsBack_iff h]
    exact ⟨fun hback => ⟨fun hf => Bool.noConfusion hf, fun _ => hback⟩, fun hback => hback.2 rfl⟩

namespace Sample

/-- The summary of this failure has an equals sign near its start. -/
def assignmentEpisode : Episode :=
  { failedEpisode with failureSummary := "assert x=1 failed", failureReason := some "no patch" }

/-- Its preview has no summary. -/
theorem summary_dropped :
    (preview (episodeHit id assignmentEpisode none)).content ≠ assignmentEpisode.truePreview := by
  decide +kernel

example : (preview (episodeHit id assignmentEpisode none)).content =
    "OUTCOME=failed\nSUMMARY=\nFAILURE_CLASS=repair\nFAILURE_REASON=no patch" := by
  decide +kernel

end Sample

end EvoCI
