import EvoCI.Graph.GitReport
import EvoCI.Graph.Steps

/-! The review of what a candidate adds: it refuses a bypass exactly when one of Git's two reports
shows it, which an added line may miss by how it starts, and a new file by its name. -/

namespace EvoCI

/-! ## Lines read back -/

/-- Reading in text mode moves no line boundary. -/
theorem splitLinesFrom_universalNewlines (read cs : List Char) :
    splitLinesFrom read (universalNewlines cs) = splitLinesFrom read cs := by
  fun_induction splitLinesFrom read cs with
  | case1 => rfl
  | case2 read hread =>
    rw [universalNewlines, splitLinesFrom]
    exact hread
  | case3 read cs ih => rw [universalNewlines, splitLinesFrom_newline, ih]
  | case4 read c cs hne hbreak ih =>
    by_cases hc : c = '\r'
    · subst hc
      have hu : universalNewlines ('\r' :: cs) = '\n' :: universalNewlines cs := by
        cases cs with
        | nil => rfl
        | cons d cs => exact universalNewlines_cr (fun hd => hne cs rfl (by rw [hd])) cs
      rw [hu, splitLinesFrom_newline, ih]
    · rw [universalNewlines_other hc, splitLinesFrom, if_pos hbreak, ih]
      rintro rest rfl
      exact absurd rfl hc
  | case5 read c cs hne hbreak ih =>
    have hc : c ≠ '\r' := by
      rintro rfl
      exact hbreak (by decide)
    have hother : isLineBreak c = false := by simpa using hbreak
    rw [universalNewlines_other hc, splitLinesFrom_other hother, ih]

/-- What is read of a text of lines is what is read of its lines, but for blank pieces. -/
theorem mem_splitLines_joinLines (lines : List (List Char)) {piece : String} (hpiece : piece ≠ "") :
    piece ∈ splitLines (String.ofList (joinLines lines)) ↔
      ∃ line ∈ lines, piece ∈ splitLines (String.ofList line) := by
  simp only [splitLines, String.toList_ofList]
  induction lines with
  | nil => simp [joinLines, splitLinesFrom]
  | cons line lines ih =>
    obtain ⟨blank, hblank, heq⟩ := splitLinesFrom_end line [] (joinLines lines)
    have hno : piece ∉ blank := fun hin => hpiece (hblank piece hin)
    rw [joinLines_cons, heq, List.mem_append, List.mem_append, ih]
    simp [hno]

/-! ## The diff -/

theorem isLineBreak_of_printable {c : Char} (h : Printable c) : isLineBreak c = false := by
  obtain ⟨hlow, hhigh⟩ := h
  have hle : ∀ d : Char, c ≤ d ↔ c.toNat ≤ d.toNat := fun d => by
    rw [Char.le_def, UInt32.le_iff_toNat_le]
    rfl
  have hne : ∀ d : Char, 0x7f ≤ d.toNat → c ≠ d := by
    rintro d hd rfl
    omega
  simp only [isLineBreak, hle, decide_eq_false_iff_not]
  simp only [hne '\u0085' (by decide), hne '\u2028' (by decide), hne '\u2029' (by decide), or_false]
  rintro (⟨-, hreturn⟩ | ⟨-, hcontrol⟩)
  · exact absurd (hlow.trans hreturn) (by decide)
  · exact absurd (hlow.trans hcontrol) (by decide)

theorem isBypass_nonempty {piece : String} (h : isBypass piece = true) : piece ≠ "" := by
  rintro rfl
  revert h
  decide

theorem isBypass_iff {piece : String} : isBypass piece = true ↔
    startsWith piece "+" = true ∧ startsWith piece "+++" = false ∧
      AppliedCandidate.Forbidden piece.toList := by
  simp [isBypass, AppliedCandidate.Forbidden, containsText, and_assoc]

theorem diffBlockers_iff {diff : String} :
    diffBlockers diff ≠ [] ↔ ∃ piece ∈ splitLines diff, isBypass piece = true := by
  have hline : ∀ line : String, (if startsWith line "+" && !startsWith line "+++" then
      (forbiddenTokens.filter fun token => containsText token line).map fun token =>
        "possible test or CI bypass in final diff: " ++ token else []) = [] ↔
      ¬ isBypass line = true := by
    intro line
    unfold isBypass
    split
    next hstart => simp [hstart]
    next hstart => simp [hstart]
  unfold diffBlockers
  rw [Ne, List.flatMap_eq_nil_iff]
  simp only [hline]
  push Not
  rfl

/-- A line without boundaries that is no addition is never taken for a bypass. -/
theorem not_flagged_of_plain {line : List Char} (hplain : ∀ c ∈ line, isLineBreak c = false)
    (hstart : ['+'] <+: line → ['+', '+', '+'] <+: line) : ¬ Flagged line := by
  rintro ⟨piece, hpiece, hbypass⟩
  rw [splitLines, String.toList_ofList] at hpiece
  cases line with
  | nil => cases hpiece
  | cons c line =>
    rw [splitLinesFrom_whole hplain [] (by simp), List.mem_singleton] at hpiece
    obtain ⟨hplus, hthree, -⟩ := isBypass_iff.1 hbypass
    rw [hpiece, List.reverse_nil, List.nil_append] at hplus hthree
    simp only [startsWith, String.toList_ofList, List.isPrefixOf_iff_prefix] at hplus
    have hcontra := hstart hplus
    rw [← List.isPrefixOf_iff_prefix] at hcontra
    simp only [startsWith, String.toList_ofList] at hthree
    exact absurd (hcontra.symm.trans hthree) (by decide)

section Header

variable {style : NameStyle}

theorem printable_nullName : ∀ c ∈ nullName, Printable c := by decide

theorem printable_oldName (hquote : style.quotePath = true) (d : TrackedChange) :
    ∀ c ∈ d.oldName style, Printable c := by
  unfold TrackedChange.oldName
  split
  · exact printable_nullName
  · exact printable_shownPath hquote _ _

theorem printable_newName (hquote : style.quotePath = true) (d : TrackedChange) :
    ∀ c ∈ d.newName style, Printable c := by
  unfold TrackedChange.newName
  split
  · exact printable_nullName
  · exact printable_shownPath hquote _ _

theorem tabbed_plain {start name : List Char} (hstart : ∀ c ∈ start, Printable c)
    (hname : ∀ c ∈ name, Printable c) (path : List Char) :
    ∀ c ∈ start ++ tabbed name path, isLineBreak c = false := by
  intro c hc
  unfold tabbed at hc
  rcases List.mem_append.1 hc with hc | hc
  · exact isLineBreak_of_printable (hstart c hc)
  · rcases List.mem_append.1 hc with hc | hc
    · exact isLineBreak_of_printable (hname c hc)
    · split at hc
      · rw [List.mem_singleton.1 hc]
        decide
      · cases hc

theorem diffHeader_not_plus (old new : String) : ¬ ['+'] <+: diffHeader style old new := by
  rintro ⟨rest, h⟩
  have hhead : headerStart.head? = some 'd' := by decide
  have hstart := congrArg List.head? h
  rw [List.singleton_append, List.head?_cons, diffHeader, List.append_assoc, List.head?_append,
    hhead] at hstart
  cases hstart

/-- No line above the hunks has a boundary of its own. -/
theorem header_plain (hquote : style.quotePath = true) (d : TrackedChange) :
    ∀ line ∈ d.header style, ∀ c ∈ line, isLineBreak c = false := by
  have hwords : ∀ words ∈ ["Binary files ".toList, " and ".toList, " differ".toList],
      ∀ c ∈ words, isLineBreak c = false := by decide
  intro line hline
  unfold TrackedChange.header at hline
  rcases List.mem_append.1 hline with hline | hline
  · rcases List.mem_cons.1 hline with rfl | hline
    · intro c hc
      exact isLineBreak_of_printable (printable_diffHeader hquote d.old d.path c hc)
    · intro c hc
      exact isLineBreak_of_printable ((d.infoPlain line hline).1 c hc)
  · split at hline
    · rw [List.mem_singleton.1 hline]
      intro c hc
      simp only [List.mem_append] at hc
      rcases hc with (((hc | hc) | hc) | hc) | hc
      · exact hwords _ (by simp) c hc
      · exact isLineBreak_of_printable (printable_oldName hquote d c hc)
      · exact hwords _ (by simp) c hc
      · exact isLineBreak_of_printable (printable_newName hquote d c hc)
      · exact hwords _ (by simp) c hc
    · split at hline
      · cases hline
      · simp only [List.mem_cons, List.not_mem_nil, or_false] at hline
        rcases hline with rfl | rfl
        · exact tabbed_plain (by decide) (printable_oldName hquote d) _
        · exact tabbed_plain (by decide) (printable_newName hquote d) _

/-- The one line above the hunks that starts like an addition is the one with the new name. -/
theorem header_starts (d : TrackedChange) :
    ∀ line ∈ d.header style, ['+'] <+: line → ['+', '+', '+'] <+: line := by
  intro line hline hplus
  unfold TrackedChange.header at hline
  rcases List.mem_append.1 hline with hline | hline
  · rcases List.mem_cons.1 hline with rfl | hline
    · exact absurd hplus (diffHeader_not_plus d.old d.path)
    · obtain ⟨rest, rfl⟩ := hplus
      exact absurd rfl (d.infoPlain _ hline).2
  · split at hline
    · rw [List.mem_singleton.1 hline] at hplus
      simp at hplus
    · split at hline
      · cases hline
      · simp only [List.mem_cons, List.not_mem_nil, or_false] at hline
        rcases hline with rfl | rfl
        · simp at hplus
        · simp

end Header

theorem openEnd_plain {isOpen : Bool} :
    ∀ line ∈ openEnd isOpen, (∀ c ∈ line, isLineBreak c = false) ∧ ¬ ['+'] <+: line := by
  cases isOpen <;> decide

theorem openEnd_not_flagged {isOpen : Bool} : ∀ line ∈ openEnd isOpen, ¬ Flagged line :=
  fun line hline => not_flagged_of_plain (openEnd_plain line hline).1
    fun hplus => absurd hplus (openEnd_plain line hline).2

/-- What the review finds in the diff. -/
theorem diffBlockers_printed_iff {root : Loc} (c : AppliedCandidate root) :
    diffBlockers (String.ofList (universalNewlines c.diff)) ≠ [] ↔
      ∃ d ∈ c.changes, d.textual = true ∧ ∃ hunk ∈ d.hunks,
        (∃ line ∈ hunk.added, Flagged ('+' :: line)) ∨ ∃ line ∈ hunk.others, Flagged line := by
  have hlines : diffBlockers (String.ofList (universalNewlines c.diff)) ≠ [] ↔
      ∃ line ∈ c.changes.flatMap (TrackedChange.printed c.style), Flagged line := by
    rw [diffBlockers_iff]
    have hsame : splitLines (String.ofList (universalNewlines c.diff)) =
        splitLines (String.ofList c.diff) := by
      simp only [splitLines, String.toList_ofList, splitLinesFrom_universalNewlines]
    rw [hsame]
    constructor
    · rintro ⟨piece, hpiece, hbypass⟩
      obtain ⟨line, hline, hin⟩ :=
        (mem_splitLines_joinLines _ (isBypass_nonempty hbypass)).1 hpiece
      exact ⟨line, hline, piece, hin, hbypass⟩
    · rintro ⟨line, hline, piece, hin, hbypass⟩
      exact ⟨piece, (mem_splitLines_joinLines _ (isBypass_nonempty hbypass)).2
        ⟨line, hline, hin⟩, hbypass⟩
  rw [hlines]
  constructor
  · rintro ⟨line, hline, hflagged⟩
    obtain ⟨d, hd, hline⟩ := List.mem_flatMap.1 hline
    rcases List.mem_append.1 hline with hline | hline
    · exact absurd hflagged (not_flagged_of_plain (header_plain c.quotePath d line hline)
        (header_starts d line hline))
    · split at hline
      next htextual =>
        obtain ⟨hunk, hhunk, hline⟩ := List.mem_flatMap.1 hline
        refine ⟨d, hd, htextual, hunk, hhunk, ?_⟩
        rcases List.mem_append.1 hline with hline | hline
        · rcases List.mem_append.1 hline with hline | hline
          · rcases List.mem_append.1 hline with hline | hline
            · exact .inr ⟨line, hline, hflagged⟩
            · exact absurd hflagged (openEnd_not_flagged line hline)
          · obtain ⟨added, hadded, rfl⟩ := List.mem_map.1 hline
            exact .inl ⟨added, hadded, hflagged⟩
        · exact absurd hflagged (openEnd_not_flagged line hline)
      · cases hline
  · rintro ⟨d, hd, htextual, hunk, hhunk, hshown⟩
    have hprinted : ∀ line ∈ hunk.printed,
        line ∈ c.changes.flatMap (TrackedChange.printed c.style) := by
      intro line hline
      refine List.mem_flatMap.2 ⟨d, hd, List.mem_append_right _ ?_⟩
      rw [if_pos htextual]
      exact List.mem_flatMap.2 ⟨hunk, hhunk, hline⟩
    rcases hshown with ⟨line, hline, hflagged⟩ | ⟨line, hline, hflagged⟩
    · refine ⟨'+' :: line, hprinted _ ?_, hflagged⟩
      exact List.mem_append_left _ (List.mem_append_right _ (List.mem_map_of_mem hline))
    · refine ⟨line, hprinted _ ?_, hflagged⟩
      exact List.mem_append_left _ (List.mem_append_left _ (List.mem_append_left _ hline))

/-! ## The status -/

theorem printable_shownName (path : String) : ∀ c ∈ shownName path, Printable c := by
  intro c hc
  unfold shownName at hc
  split at hc
  · simp only [List.cons_append, List.mem_cons, List.mem_append, List.mem_flatMap,
      List.not_mem_nil, or_false] at hc
    rcases hc with rfl | ⟨x, -, hx⟩ | rfl
    · decide
    · exact printable_escapeChar x c hx
    · decide
  next hplain =>
    refine printable_of_not_isQuoted (Bool.not_eq_true _ ▸ fun hquoted => hplain (.inl ?_))
    exact List.any_eq_true.mpr ⟨c, hc, hquoted⟩

theorem printable_untrackedRow (name : String) : ∀ c ∈ untrackedRow name, Printable c := by
  intro c hc
  have hmark : ∀ c ∈ "?? ".toList, Printable c := by decide
  rcases List.mem_append.1 hc with hc | hc
  · exact hmark c hc
  · exact printable_shownName name c hc

theorem untrackedBlockers_iff {cfg : Config} {files : Files} {status : String} :
    untrackedBlockers cfg.decodeReplace files cfg.root status ≠ [] ↔
      ∃ row ∈ splitLines status, startsWith row "?? " = true ∧
        NameSeen cfg files (String.ofList (row.toList.drop 3)) := by
  unfold untrackedBlockers
  rw [Ne, List.flatMap_eq_nil_iff]
  push Not
  refine exists_congr fun row => and_congr_right fun _ => ?_
  by_cases hrow : startsWith row "?? " = true
  · rw [if_pos hrow]
    simp only [hrow, true_and]
    generalize String.ofList (row.toList.drop 3) = relative
    by_cases hinternal : relative = ".evoci" ∨ startsWith relative ".evoci/" = true
    · have hin : isInternal relative = true := by simpa [isInternal] using hinternal
      simp [hinternal, NameSeen, hin]
    · have hout : isInternal relative = false := by simpa [isInternal] using hinternal
      rw [if_neg hinternal]
      unfold NameSeen
      cases hresolve : files.resolve cfg.root relative with
      | error e => simp
      | ok target =>
        cases hfile : files.fileAt target with
        | none => simp [hfile]
        | some entry =>
          obtain ⟨content, mode⟩ := entry
          simp [hfile, hout, AppliedCandidate.Forbidden, containsText]
  · simp [hrow]

/-- What the review finds among the rows of the status. -/
theorem untrackedBlockers_printed_iff {cfg : Config} (c : AppliedCandidate cfg.root) :
    untrackedBlockers cfg.decodeReplace c.files cfg.root
        (String.ofList (universalNewlines c.status)) ≠ [] ↔
      ∃ name ∈ c.untracked, NameSeen cfg c.files (String.ofList (shownName name)) := by
  have hprintable : ∀ line ∈ c.rows ++ c.untracked.map untrackedRow, ∀ x ∈ line, Printable x := by
    intro line hline
    rcases List.mem_append.1 hline with hline | hline
    · exact (c.rowsPlain line hline).1
    · obtain ⟨name, -, rfl⟩ := List.mem_map.1 hline
      exact printable_untrackedRow name
  have hplain : ∀ line ∈ c.rows ++ c.untracked.map untrackedRow, ∀ x ∈ line,
      isLineBreak x = false := fun line hline x hx =>
    isLineBreak_of_printable (hprintable line hline x hx)
  have hrows : ∀ row : String, row ≠ "" →
      (row ∈ splitLines (String.ofList (universalNewlines c.status)) ↔
        row.toList ∈ c.rows ++ c.untracked.map untrackedRow) := by
    intro row hrow
    have hsame : splitLines (String.ofList (universalNewlines c.status)) =
        splitLines (String.ofList c.status) := by
      simp only [splitLines, String.toList_ofList, splitLinesFrom_universalNewlines]
    have hchars : row.toList ≠ [] := fun hnil => hrow (String.toList_eq_nil_iff.1 hnil)
    rw [hsame, AppliedCandidate.status,
      mem_splitLines_joinLines _ hrow]
    constructor
    · rintro ⟨line, hline, hin⟩
      have hne : line ≠ [] := by
        rintro rfl
        cases hin
      rw [splitLines, String.toList_ofList, splitLinesFrom_whole (hplain line hline) [] hne,
        List.mem_singleton] at hin
      rw [hin, String.toList_ofList]
      exact hline
    · intro hline
      refine ⟨row.toList, hline, ?_⟩
      rw [splitLines, String.toList_ofList, splitLinesFrom_whole (hplain _ hline) [] hchars,
        List.reverse_nil, List.nil_append, String.ofList_toList]
      exact List.mem_singleton.2 rfl
  have hmark : ∀ row : String, startsWith row "?? " = true → row ≠ "" := by
    rintro row hrow rfl
    revert hrow
    decide
  rw [untrackedBlockers_iff]
  constructor
  · rintro ⟨row, hrow, hstart, hseen⟩
    rcases List.mem_append.1 ((hrows row (hmark row hstart)).1 hrow) with hin | hin
    · exact absurd (List.isPrefixOf_iff_prefix.1 hstart) (c.rowsPlain _ hin).2
    · obtain ⟨name, hname, heq⟩ := List.mem_map.1 hin
      refine ⟨name, hname, ?_⟩
      rw [← heq] at hseen
      exact hseen
  · rintro ⟨name, hname, hseen⟩
    have hstart : startsWith (String.ofList (untrackedRow name)) "?? " = true := by
      have hchars : (String.ofList (untrackedRow name)).toList = untrackedRow name :=
        String.toList_ofList
      rw [startsWith, List.isPrefixOf_iff_prefix, hchars]
      exact List.prefix_append "?? ".toList (shownName name)
    refine ⟨String.ofList (untrackedRow name), ?_, hstart, ?_⟩
    · rw [hrows _ (hmark _ hstart), String.toList_ofList]
      exact List.mem_append_right _ (List.mem_map_of_mem hname)
    · rw [String.toList_ofList]
      exact hseen

/-! ## The verdict -/

/-- The node ends with an accepting review. -/
def Accepts (outcome : Outcome) : Prop :=
  ∃ s w, outcome = .done s w ∧ ∃ review, s.review = some review ∧ review.accepted = true

theorem containsWorkspaceReviewBypass_iff {gitDiff gitStatus : Option String}
    {decode : List UInt8 → String} {files : Files} {root : Loc} :
    containsWorkspaceReviewBypass gitDiff gitStatus decode files root ≠ [] ↔
      gitDiff.elim [] diffBlockers ≠ [] ∨
        gitStatus.elim [] (untrackedBlockers decode files root) ≠ [] := by
  have hmem : ∀ b, b ∈ containsWorkspaceReviewBypass gitDiff gitStatus decode files root ↔
      b ∈ gitDiff.elim [] diffBlockers ∨
        b ∈ gitStatus.elim [] (untrackedBlockers decode files root) := by
    intro b
    simp [containsWorkspaceReviewBypass]
  simp only [Ne, List.eq_nil_iff_forall_not_mem, hmem]
  push Not
  exact exists_or

theorem reviewBlockers_iff {cfg : Config} {c : AppliedCandidate cfg.root} (h : Reported cfg c) :
    reviewBlockers cfg c.files ≠ [] ↔ ShownBypass cfg c := by
  rw [reviewBlockers, containsWorkspaceReviewBypass_iff]
  have hdiff : (gitOutput cfg ["diff", "--unified=0", "HEAD", "--"] c.files).elim []
      diffBlockers ≠ [] ↔ gitOutput cfg ["diff", "--unified=0", "HEAD", "--"] c.files ≠ none ∧
        ∃ d ∈ c.changes, d.textual = true ∧ ∃ hunk ∈ d.hunks,
          (∃ line ∈ hunk.added, Flagged ('+' :: line)) ∨ ∃ line ∈ hunk.others, Flagged line := by
    cases hprinted : gitOutput cfg ["diff", "--unified=0", "HEAD", "--"] c.files with
    | none => simp
    | some printed =>
      rw [Option.elim_some, h.diff printed hprinted, diffBlockers_printed_iff]
      simp
  have hstatus : (gitOutput cfg ["status", "--porcelain=v1", "--untracked-files=all"]
      c.files).elim [] (untrackedBlockers cfg.decodeReplace c.files cfg.root) ≠ [] ↔
        gitOutput cfg ["status", "--porcelain=v1", "--untracked-files=all"] c.files ≠ none ∧
          ∃ name ∈ c.untracked, NameSeen cfg c.files (String.ofList (shownName name)) := by
    cases hprinted : gitOutput cfg ["status", "--porcelain=v1", "--untracked-files=all"]
        c.files with
    | none => simp
    | some printed =>
      rw [Option.elim_some, h.status printed hprinted, untrackedBlockers_printed_iff]
      simp
  rw [hdiff, hstatus]
  exact ⟨fun hshown => ⟨hshown⟩, fun hshown => hshown.shown⟩

theorem verifyCompleted_review {s : EvoCIState} {verification : VerificationResult}
    {snapshotId : String} (h : verification.passed = false) :
    (verifyCompleted s verification snapshotId).review = none := by
  unfold verifyCompleted
  split <;> simp [verifyFailed, verifyRecorded, h]

/-- A verification with blockers is not accepted, whatever its commands came to. -/
theorem verify_not_accepts {cfg : Config} {env : NodeEnv} {s : EvoCIState} {w : World}
    (h : reviewBlockers cfg w.files ≠ []) : ¬ Accepts (verify cfg env s w) := by
  rintro ⟨s', w', hdone, review, hreview, haccepted⟩
  obtain ⟨_, verification, _, _, _, _, hverdict⟩ := verify_done hdone
  rcases hverdict with ⟨-, -, rfl⟩ | ⟨hclean, rfl⟩
  · cases hreview
    cases haccepted
  · have hfailed : verification.passed = false := by
      cases hpassed : verification.passed with
      | true => exact absurd (hclean hpassed) h
      | false => rfl
    rw [verifyCompleted_review hfailed] at hreview
    cases hreview

/-- The review of the candidate finds something, and no verification of it is accepted. -/
def BypassRefused (cfg : Config) (c : AppliedCandidate cfg.root) : Prop :=
  reviewBlockers cfg c.files ≠ [] ∧
    ∀ env s w, w.files = c.files → ¬ Accepts (verify cfg env s w)

/-- Tokens have no line ends, and start like no addition. -/
theorem token_plain : ∀ token ∈ forbiddenTokens, token.toList ≠ [] ∧
    token.toList.head? ≠ some '+' ∧ ∀ c ∈ token.toList, c ≠ '\r' ∧ c ≠ '\n' := by
  decide +kernel

theorem forbidden_cons_plus {line : List Char} :
    AppliedCandidate.Forbidden ('+' :: line) ↔ AppliedCandidate.Forbidden line := by
  constructor
  · rintro ⟨token, htoken, hin⟩
    refine ⟨token, htoken, (List.infix_cons_iff.1 hin).resolve_left ?_⟩
    rintro ⟨rest, hleads⟩
    obtain ⟨hne, hhead, -⟩ := token_plain token htoken
    cases hchars : token.toList with
    | nil => exact hne hchars
    | cons t ts =>
      rw [hchars] at hleads hhead
      cases hleads
      exact hhead rfl
  · rintro ⟨token, htoken, hin⟩
    exact ⟨token, htoken, List.infix_cons hin⟩

/-- An added line without boundaries is seen unless it starts with two plus signs. -/
theorem flagged_added_iff {line : List Char} (hplain : ∀ c ∈ line, isLineBreak c = false) :
    Flagged ('+' :: line) ↔ ¬ ['+', '+'] <+: line ∧ AppliedCandidate.Forbidden line := by
  have hpieces : splitLines (String.ofList ('+' :: line)) = [String.ofList ('+' :: line)] := by
    rw [splitLines, String.toList_ofList]
    refine splitLinesFrom_whole (fun c hc => ?_) [] (by simp)
    rcases List.mem_cons.1 hc with rfl | hc
    · decide
    · exact hplain c hc
  have hstart : startsWith (String.ofList ('+' :: line)) "+" = true := by
    simp [startsWith]
  have hthree : startsWith (String.ofList ('+' :: line)) "+++" = false ↔
      ¬ ['+', '+'] <+: line := by
    rw [← Bool.not_eq_true, startsWith, List.isPrefixOf_iff_prefix]
    simp
  rw [Flagged, hpieces]
  simp only [List.mem_singleton, exists_eq_left]
  rw [isBypass_iff, hthree, String.toList_ofList, forbidden_cons_plus]
  exact and_iff_right hstart

/-- An added line of a tracked file is seen when Git shows the file and the line is one that starts
with no two plus signs. -/
theorem added_seen {cfg : Config} (c : AppliedCandidate cfg.root)
    (hdiff : gitOutput cfg ["diff", "--unified=0", "HEAD", "--"] c.files ≠ none)
    {d : TrackedChange} (hd : d ∈ c.changes) (htextual : d.textual = true) {hunk : Hunk}
    (hhunk : hunk ∈ d.hunks) {line : List Char} (hline : line ∈ hunk.added)
    (hplain : ∀ c ∈ line, isLineBreak c = false) (hstart : ¬ ['+', '+'] <+: line)
    (hforbidden : AppliedCandidate.Forbidden line) : ShownBypass cfg c :=
  ⟨.inl ⟨hdiff, d, hd, htextual, hunk, hhunk,
    .inl ⟨line, hline, (flagged_added_iff hplain).2 ⟨hstart, hforbidden⟩⟩⟩⟩

namespace Sample

theorem gaining_rows : ∀ row ∈ [" M a".toList],
    (∀ c ∈ row, Printable c) ∧ ¬ "?? ".toList <+: row := by
  decide +kernel

/-- The tracked file `a` gains one line at its end. -/
def gaining (line : String) (h : '\n' ∉ line.toList) : AppliedCandidate root where
  files := fun l =>
    if l = ["w", "a"] then some (.file (.utf8 ("old\n" ++ line ++ "\n")) 0o644) else files l
  changes := [{
    path := "a"
    info := ["index 3367afd..1bd6b34 100644".toList]
    before := ["old".toList]
    hunks := [{
      heading := "@@ -1,0 +2 @@".toList
      removed := []
      added := [line.toList]
      noNewline := by
        intro other hother
        simp only [List.nil_append, List.mem_cons, List.not_mem_nil, or_false] at hother
        rcases hother with rfl | rfl
        · decide
        · exact h }]
    infoPlain := by decide +kernel }]
  created := []
  rows := [" M a".toList]
  untracked := []
  isHidden _ := false
  quotePath := rfl
  changed := by
    intro d hd
    rw [List.mem_singleton.1 hd]
    have hparts : root ++ pathParts "a" = ["w", "a"] := by decide +kernel
    simp only [hparts, if_true, TrackedChange.Left]
    exact .inl (by simp [TrackedChange.lines, joinLines])
  present := by simp
  rowsPlain := gaining_rows
  listed := by simp

/-- Git as it reports the gained line. -/
def reporting (line : String) (h : '\n' ∉ line.toList) : Config :=
  { config 1 with
    git := fun arguments _ =>
      if arguments = ["diff", "--unified=0", "HEAD", "--"] then
        (0, String.ofList (universalNewlines (gaining line h).diff))
      else if arguments = ["status", "--porcelain=v1", "--untracked-files=all"] then
        (0, String.ofList (universalNewlines (gaining line h).status))
      else (1, "") }

theorem gaining_reported (line : String) (h : '\n' ∉ line.toList) :
    Reported (reporting line h) (gaining line h) where
  diff printed hprinted := by
    simp only [gitOutput, reporting, if_true, Option.some.injEq] at hprinted
    exact hprinted.symm
  status printed hprinted := by
    simp [gitOutput, reporting] at hprinted
    exact hprinted.symm

/-- The line that the file gains is an addition. -/
theorem gaining_addsBypass {line : String} (h : '\n' ∉ line.toList)
    (hforbidden : AppliedCandidate.Forbidden line.toList) : (gaining line h).AddsBypass :=
  .inl ⟨_, List.mem_singleton.2 rfl, _, List.mem_singleton.2 rfl, line.toList,
    List.mem_singleton.2 rfl, hforbidden⟩

end Sample

end EvoCI
