import Mathlib.Data.List.TakeWhile
import EvoCI.Capability.Usage
import EvoCI.Library.Cut
import EvoCI.Library.Run
import EvoCI.Memory.Retrieval

/-! The usage memory of a skill as a text: the blocks that are appended, what is read back from
them, and the merge of two memories. -/

namespace EvoCI

open Library
open Library.Cut (expect firstMatch cutBefore Parts)

/-! ## Reading -/

def memoryStart : List Char := '<' :: "!-- evoci-skill-memory:".toList

def stripChars (cs : List Char) : List Char :=
  ((cs.dropWhile isSpace).reverse.dropWhile isSpace).reverse

/-- `split_memory_blocks`. -/
def splitMemoryBlocks (text : String) : List (List Char) :=
  ((cutBefore memoryStart text.toList).map stripChars).filter memoryStart.isPrefixOf

/-- `<!-- evoci-skill-memory:([^:]+):(\S+) -->`: no shorter group can match, as none of them may
hold what follows it. -/
def readMarker (cs : List Char) : Option ((List Char × List Char) × List Char) :=
  (expect memoryStart cs).bind fun cs =>
    let run := cs.takeWhile fun c => c ≠ ':'
    (expect [':'] (cs.drop run.length)).bind fun cs =>
      let skill := cs.takeWhile fun c => !isSpace c
      if run = [] ∨ skill = [] then none
      else (expect " -->".toList (cs.drop skill.length)).map fun rest => ((run, skill), rest)

/-- `(\S+)\s*- Run: `: the group may give back a dash at its end. -/
def readStamp (cs : List Char) : Option (List Char × List Char) :=
  let stamp := cs.takeWhile fun c => !isSpace c
  let rest := cs.drop stamp.length
  if stamp = [] then none
  else
    match expect "- Run: ".toList (rest.dropWhile isSpace) with
    | some rest => some (stamp, rest)
    | none =>
      if stamp.getLast? = some '-' ∧ 2 ≤ stamp.length then
        (expect " Run: ".toList rest).map fun rest => (stamp.dropLast, rest)
      else none

def outcomeLine (outcome : String) : List Char :=
  '\n' :: ("- Outcome: ".toList ++ outcome.toList)

/-- `\n- Outcome: (success|failure)\n- Task: `. -/
def readOutcome (cs : List Char) : Option (String × List Char) :=
  ["success", "failure"].findSome? fun outcome =>
    ((expect (outcomeLine outcome) cs).bind (expect "\n- Task: ".toList)).map fun rest =>
      (outcome, rest)

/-- The pattern of a block. Each lazy group ends where what follows it first occurs: when the rest
of the pattern fails behind that place, it fails behind every later one. -/
def readBlock (cs : List Char) : Option SkillMemoryEntry :=
  (readMarker cs).bind fun ((run, _), cs) =>
    (expect "## ".toList (cs.dropWhile isSpace)).bind fun cs =>
      (readStamp cs).bind fun (createdAt, cs) =>
        (firstMatch (expect "\n- Repository: ".toList) cs).bind fun (_, cs) =>
          (firstMatch readOutcome cs).bind fun (repository, outcome, cs) =>
            (firstMatch (expect "\n- Lesson: ".toList) cs).map fun (task, lesson) =>
              { runId := strip (String.ofList run)
                repository := strip (String.ofList repository)
                taskSummary := strip (String.ofList task)
                outcome := outcome
                lesson := strip (String.ofList lesson)
                createdAt := String.ofList createdAt }

/-- `parse_skill_memory_entries`, with the time as the block has it. -/
def parseSkillMemoryEntries (text : String) : List SkillMemoryEntry :=
  (splitMemoryBlocks text).filterMap fun block => (firstMatch readBlock block).map Prod.snd

/-- By what a block is known in a merge: its marker, else all of it. -/
def blockKey (block : List Char) : List Char :=
  match firstMatch readMarker block with
  | some (_, (run, skill), _) => memoryStart ++ run ++ ':' :: skill ++ " -->".toList
  | none => block

/-- The blocks but those whose key was there already. -/
def distinctBlocks (blocks : List (List Char)) : List (List Char) :=
  blocks.foldl (fun kept block =>
    if blockKey block ∈ kept.map blockKey then kept else kept ++ [block]) []

/-- `merge_memory_texts`. -/
def mergeMemoryTexts (texts : List String) : String :=
  let blocks := distinctBlocks (texts.flatMap splitMemoryBlocks)
  if blocks = [] then "" else String.ofList ("\n\n".toList.intercalate blocks ++ ['\n'])

/-! ## Appending -/

/-- `append_skill_memory` of a skill with a package: whether the entry was appended, and the
file. -/
def appendToMemory (skillId memory : String) (entry : SkillMemoryEntry) : Bool × String :=
  let existing := readMemoryText memory
  if Contains existing (memoryMarker entry.runId skillId) then (false, memory)
  else (true, memory ++ memoryGap existing ++ formatSkillMemoryBlock skillId entry)

/-- A memory file, and the entries that were appended to it. -/
structure UsageMemory where
  text : String := ""
  stored : List SkillMemoryEntry := []

def UsageMemory.append (skillId : String) (entry : SkillMemoryEntry) (m : UsageMemory) :
    UsageMemory :=
  let (appended, text) := appendToMemory skillId m.text entry
  ⟨text, if appended then m.stored ++ [entry] else m.stored⟩

/-- A sequence of calls for one skill. -/
def appendAll (skillId : String) (entries : List SkillMemoryEntry) : UsageMemory :=
  Run.run (UsageMemory.append skillId) {} entries

/-! ## Entries that can be read back -/

/-- The id of a skill is a slug. -/
structure SkillSlug where
  text : String
  nonempty : text ≠ ""
  solid : ∀ c ∈ text.toList, isSpace c = false

/-- What the type of an entry promises: the literal outcomes, and a time as `strftime` prints it. -/
structure SkillMemoryEntry.WellTyped (entry : SkillMemoryEntry) : Prop where
  outcome : entry.outcome = "success" ∨ entry.outcome = "failure"
  stampNonempty : entry.createdAt ≠ ""
  stamp : ∀ c ∈ entry.createdAt.toList, isSpace c = false

/-- No field holds what the format says with: the start of a marker, the separator of the marker
in the run id, the lines that follow the repository and the task, a carriage return; and there is a
lesson. -/
structure SkillMemoryEntry.Plain (skillId : String) (entry : SkillMemoryEntry) : Prop where
  noReturn : '\r' ∉ (formatSkillMemoryBlock skillId entry).toList
  oneStart : ¬ memoryStart <:+: (formatSkillMemoryBlock skillId entry).toList.tail
  runNonempty : entry.runId ≠ ""
  runColon : ':' ∉ entry.runId.toList
  repositoryLine : ∀ outcome ∈ ["success", "failure"],
    ¬ outcomeLine outcome ++ "\n- Task: ".toList <:+: entry.repository.toList
  taskLine : ¬ "\n- Lesson: ".toList <:+: entry.taskSummary.toList
  lesson : strip entry.lesson ≠ ""

/-- The entry up to the blanks around its texts. -/
def SkillMemoryEntry.trimmed (entry : SkillMemoryEntry) : SkillMemoryEntry :=
  { entry with
    runId := strip entry.runId
    repository := strip entry.repository
    taskSummary := strip entry.taskSummary
    lesson := strip entry.lesson }

/-! ## Blanks -/

def Gap (cs : List Char) : Prop := ∀ c ∈ cs, isSpace c = true

instance : DecidablePred Gap := fun cs =>
  inferInstanceAs (Decidable (∀ c ∈ cs, isSpace c = true))

theorem dropWhile_gap {gap : List Char} (h : Gap gap) (cs : List Char) :
    (gap ++ cs).dropWhile isSpace = cs.dropWhile isSpace :=
  List.dropWhile_append_of_pos h

theorem gap_reverse {gap : List Char} (h : Gap gap) : Gap gap.reverse :=
  fun c hc => h c (List.mem_reverse.mp hc)

theorem stripChars_gap {gap : List Char} (h : Gap gap) (cs : List Char) :
    stripChars (cs ++ gap) = stripChars cs := by
  unfold stripChars
  rw [List.dropWhile_append]
  split
  · next hempty =>
    have hgap : gap.dropWhile isSpace = [] := List.dropWhile_eq_nil_iff.mpr h
    rw [hgap, List.isEmpty_iff.mp hempty]
  · rw [List.reverse_append, dropWhile_gap (gap_reverse h)]

/-- A text that begins and ends with other characters is kept by `strip`. -/
theorem stripChars_solid {c d : Char} {cs : List Char} (hc : isSpace c = false)
    (hd : isSpace d = false) {tail : List Char} (h : c :: cs = tail ++ [d]) :
    stripChars (c :: cs) = c :: cs := by
  unfold stripChars
  rw [List.dropWhile_cons_of_neg (by simp [hc]), h, List.reverse_append, List.reverse_singleton,
    List.singleton_append, List.dropWhile_cons_of_neg (by simp [hd])]
  simp

theorem rstrip_split (cs : List Char) : ∃ gap, Gap gap ∧ cs = rstrip cs ++ gap := by
  refine ⟨(cs.reverse.takeWhile isSpace).reverse,
    gap_reverse fun c hc => List.mem_takeWhile_imp hc, ?_⟩
  rw [rstrip, ← List.reverse_append, List.takeWhile_append_dropWhile, List.reverse_reverse]

theorem rstrip_last {text : String} (h : strip text ≠ "") :
    ∃ tail d, rstrip text.toList = tail ++ [d] ∧ isSpace d = false := by
  have hne : rstrip text.toList ≠ [] := by
    intro hnil
    obtain ⟨gap, hgap, heq⟩ := rstrip_split text.toList
    rw [hnil, List.nil_append] at heq
    apply h
    have hstrip := stripChars_gap hgap []
    rw [List.nil_append, ← heq] at hstrip
    exact congrArg String.ofList hstrip
  have hdrop : text.toList.reverse.dropWhile isSpace ≠ [] := by
    intro hnil
    exact hne (by rw [rstrip, hnil, List.reverse_nil])
  obtain ⟨d, rest, heq⟩ := List.exists_cons_of_ne_nil hdrop
  refine ⟨rest.reverse, d, by rw [rstrip, heq, List.reverse_cons], ?_⟩
  have hhead := List.head_dropWhile_not isSpace hdrop
  simpa [heq] using hhead

theorem strip_rstrip (text : String) : strip (String.ofList (rstrip text.toList)) = strip text := by
  obtain ⟨gap, hgap, heq⟩ := rstrip_split text.toList
  have hstrip := stripChars_gap hgap (rstrip text.toList)
  rw [← heq] at hstrip
  have hchars := congrArg String.ofList hstrip
  simp only [strip, String.toList_ofList]
  exact hchars.symm

/-! ## The text of a block -/

/-- A block behind its marker, up to its lesson. -/
def blockBody (entry : SkillMemoryEntry) : List Char :=
  "\n\n".toList ++ ("## ".toList ++ (entry.createdAt.toList ++ ("\n\n".toList ++
    ("- Run: ".toList ++ (entry.runId.toList ++ ("\n- Repository: ".toList ++
    (entry.repository.toList ++ (outcomeLine entry.outcome ++ ("\n- Task: ".toList ++
    (entry.taskSummary.toList ++ "\n- Lesson: ".toList))))))))))

/-- A block up to its lesson. -/
def blockHead (skillId : String) (entry : SkillMemoryEntry) : List Char :=
  memoryStart ++ (entry.runId.toList ++ ([':'] ++ (skillId.toList ++ (" -->".toList ++
    blockBody entry))))

/-- A block without the blanks behind it. -/
def blockCore (skillId : String) (entry : SkillMemoryEntry) : List Char :=
  blockHead skillId entry ++ rstrip entry.lesson.toList

/-- The letters of a formatted block, whatever its labels are. -/
theorem formatted_toList (start colon close stamp run line repository outcome task lesson : String)
    (runId skillId createdAt repositoryText outcomeText taskText lessonText : String) :
    (start ++ runId ++ colon ++ skillId ++ close ++ stamp ++ createdAt ++ run ++ runId ++ line ++
        (repository ++ repositoryText ++ outcome ++ outcomeText ++ line) ++
        (task ++ taskText ++ lesson ++ lessonText ++ line)).toList =
      start.toList ++ (runId.toList ++ (colon.toList ++ (skillId.toList ++ (close.toList ++
        (stamp.toList ++ (createdAt.toList ++ (run.toList ++ (runId.toList ++ (line.toList ++
        (repository.toList ++ (repositoryText.toList ++ (outcome.toList ++ (outcomeText.toList ++
        (line.toList ++ (task.toList ++ (taskText.toList ++ (lesson.toList ++
        (lessonText.toList ++ line.toList)))))))))))))))))) := by
  simp only [String.toList_append, List.append_assoc]

theorem block_toList (skillId : String) (entry : SkillMemoryEntry) :
    (formatSkillMemoryBlock skillId entry).toList =
      blockHead skillId entry ++ (entry.lesson.toList ++ ['\n']) := by
  have hstart : "<!-- evoci-skill-memory:".toList = memoryStart := by decide +kernel
  have hstamp : "\n\n## ".toList = "\n\n".toList ++ "## ".toList := by decide +kernel
  have hrun : "\n\n- Run: ".toList = "\n\n".toList ++ "- Run: ".toList := by decide +kernel
  have hrepository : "\n- Repository: ".toList = "\n".toList ++ "- Repository: ".toList := by
    decide +kernel
  have houtcome : "\n- Outcome: ".toList = '\n' :: "- Outcome: ".toList := by decide +kernel
  have htask : "\n- Task: ".toList = "\n".toList ++ "- Task: ".toList := by decide +kernel
  have hcolon : ":".toList = [':'] := by decide +kernel
  have hline : "\n".toList = ['\n'] := by decide +kernel
  refine (formatted_toList "<!-- evoci-skill-memory:" ":" " -->" "\n\n## " "\n\n- Run: " "\n"
    "- Repository: " "\n- Outcome: " "- Task: " "\n- Lesson: " entry.runId skillId
    entry.createdAt entry.repository entry.outcome entry.taskSummary entry.lesson).trans ?_
  rw [hstart, hstamp, hrun, houtcome, hcolon, blockHead, blockBody, outcomeLine, hrepository, htask,
    hline]
  simp only [List.append_assoc, List.cons_append, List.nil_append]

theorem takeWhile_run {p : Char → Bool} {cs rest : List Char} {c : Char}
    (h : ∀ d ∈ cs, p d = true) (hc : p c = false) :
    (cs ++ c :: rest).takeWhile p = cs := by
  rw [List.takeWhile_append_of_pos h, List.takeWhile_cons_of_neg (by simp [hc]), List.append_nil]

theorem readMarker_append {run skill : List Char} (hrun : run ≠ []) (hcolon : ':' ∉ run)
    (hskill : skill ≠ []) (hsolid : ∀ c ∈ skill, isSpace c = false) (rest : List Char) :
    readMarker (memoryStart ++ (run ++ ([':'] ++ (skill ++ (" -->".toList ++ rest))))) =
      some ((run, skill), rest) := by
  have htakeRun : (run ++ ([':'] ++ (skill ++ (" -->".toList ++ rest)))).takeWhile
      (fun c => decide (c ≠ ':')) = run :=
    takeWhile_run (fun d hd => decide_eq_true fun heq => hcolon (heq ▸ hd)) (by decide)
  have htakeSkill : (skill ++ (" -->".toList ++ rest)).takeWhile (fun c => !isSpace c) = skill :=
    takeWhile_run (fun d hd => by rw [hsolid d hd]; rfl) (by decide)
  simp only [readMarker, Cut.expect_append, Option.bind_some, htakeRun, List.drop_left,
    htakeSkill, if_neg (not_or.mpr ⟨hrun, hskill⟩), Option.map_some]

theorem readStamp_append {stamp : List Char} (hne : stamp ≠ [])
    (hsolid : ∀ c ∈ stamp, isSpace c = false) (rest : List Char) :
    readStamp (stamp ++ ("\n\n".toList ++ ("- Run: ".toList ++ rest))) = some (stamp, rest) := by
  have htake : (stamp ++ ("\n\n".toList ++ ("- Run: ".toList ++ rest))).takeWhile
      (fun c => !isSpace c) = stamp :=
    takeWhile_run (fun d hd => by rw [hsolid d hd]; rfl) (by decide)
  have hdrop : ("\n\n".toList ++ ("- Run: ".toList ++ rest)).dropWhile isSpace =
      "- Run: ".toList ++ rest := by
    rw [dropWhile_gap (by decide)]
    exact List.dropWhile_cons_of_neg (by decide)
  simp only [readStamp, htake, List.drop_left, if_neg hne, hdrop, Cut.expect_append]

/-- In front of the outcome of a block the lines of an outcome stand only where the text has
them. -/
theorem readOutcome_none {outcome : String} {cs rest tail : List Char}
    (hnone : ∀ other ∈ ["success", "failure"],
      ¬ outcomeLine other ++ "\n- Task: ".toList <:+: cs) (hne : tail ≠ [])
    (hsuffix : tail <:+ cs) : readOutcome (tail ++ (outcomeLine outcome ++ rest)) = none := by
  have htask : "\n- Task: ".toList = '\n' :: "- Task: ".toList := by decide +kernel
  rw [readOutcome, List.findSome?_eq_none_iff]
  intro other hother
  rw [Option.map_eq_none_iff, Option.bind_eq_none_iff]
  intro found hfound
  have hline : '\n' ∉ "- Outcome: ".toList ++ other.toList := by
    simp only [List.mem_cons, List.not_mem_nil, or_false] at hother
    rcases hother with rfl | rfl <;> decide +kernel
  obtain ⟨behind, rfl⟩ : outcomeLine other <+: tail :=
    Cut.prefix_of_overlap hline hne (Cut.expect_prefix hfound)
  rw [List.append_assoc, Cut.expect_append] at hfound
  obtain rfl := Option.some.inj hfound
  refine Cut.expect_none fun hleads => ?_
  rw [htask] at hleads
  cases behind with
  | nil =>
    have htail := (List.cons_prefix_cons.mp hleads).2
    have hword : "- Task: ".toList = ['-', ' ', 'T', 'a', 's', 'k', ':', ' '] := by decide +kernel
    have hout : "- Outcome: ".toList =
        ['-', ' ', 'O', 'u', 't', 'c', 'o', 'm', 'e', ':', ' '] := by decide +kernel
    rw [hword, hout] at htail
    simp [List.cons_prefix_cons] at htail
  | cons c behind =>
    have hinside := Cut.prefix_of_overlap (by decide +kernel) (List.cons_ne_nil c behind) hleads
    obtain ⟨last, hlast⟩ := hinside
    refine hnone other hother (List.IsInfix.trans ?_ hsuffix.isInfix)
    exact ⟨[], last, by rw [← hlast, htask, List.nil_append, List.append_assoc]⟩

theorem readOutcome_append {outcome : String} (h : outcome = "success" ∨ outcome = "failure")
    (rest : List Char) :
    readOutcome (outcomeLine outcome ++ ("\n- Task: ".toList ++ rest)) = some (outcome, rest) := by
  rcases h with rfl | rfl
  · rw [readOutcome, List.findSome?_cons, Cut.expect_append, Option.bind_some, Cut.expect_append]
    rfl
  · have hother : ¬ outcomeLine "success" <+:
        outcomeLine "failure" ++ ("\n- Task: ".toList ++ rest) := by
      intro hleads
      have hlength : (outcomeLine "success").length = (outcomeLine "failure").length := by
        decide +kernel
      have hshort := List.prefix_of_prefix_length_le hleads
        (List.prefix_append (outcomeLine "failure") _) hlength.le
      exact absurd (hshort.eq_of_length hlength) (by decide +kernel)
    rw [readOutcome, List.findSome?_cons, Cut.expect_none hother, Option.bind_none,
      Option.map_none, List.findSome?_cons, Cut.expect_append, Option.bind_some,
      Cut.expect_append]
    rfl

variable {skill : SkillSlug} {entry : SkillMemoryEntry}

/-- A block that can be read back is read back. -/
theorem readBlock_core (htype : entry.WellTyped) (hplain : entry.Plain skill.text) :
    readBlock (blockCore skill.text entry) = some entry.trimmed := by
  have hrepositoryWord : "\n- Repository: ".toList = '\n' :: "- Repository: ".toList := by
    decide +kernel
  have hlessonWord : "\n- Lesson: ".toList = '\n' :: "- Lesson: ".toList := by decide +kernel
  have hrun : entry.runId.toList ≠ [] := fun h => hplain.runNonempty (String.toList_eq_nil_iff.mp h)
  have hskill : skill.text.toList ≠ [] := fun h => skill.nonempty (String.toList_eq_nil_iff.mp h)
  have hstamp : entry.createdAt.toList ≠ [] :=
    fun h => htype.stampNonempty (String.toList_eq_nil_iff.mp h)
  have hdrop : ∀ rest, ("\n\n".toList ++ ("## ".toList ++ rest)).dropWhile isSpace =
      "## ".toList ++ rest := by
    intro rest
    rw [dropWhile_gap (by decide)]
    exact List.dropWhile_cons_of_neg (by decide)
  have hrunLine : ∀ rest, firstMatch (expect "\n- Repository: ".toList)
      (entry.runId.toList ++ ("\n- Repository: ".toList ++ rest)) =
        some (entry.runId.toList, rest) := by
    intro rest
    have hnone : ¬ "\n- Repository: ".toList <:+: entry.runId.toList :=
      fun hin => hplain.runColon (hin.subset (by decide +kernel))
    rw [hrepositoryWord] at hnone ⊢
    rw [← List.append_assoc]
    exact Cut.firstMatch_expect (by decide +kernel) hnone rest
  have hrepositoryLine : ∀ rest, firstMatch readOutcome (entry.repository.toList ++
      (outcomeLine entry.outcome ++ ("\n- Task: ".toList ++ rest))) =
        some (entry.repository.toList, entry.outcome, rest) := fun rest =>
    Cut.firstMatch_append (fun tail hne hsuffix =>
      readOutcome_none hplain.repositoryLine hne hsuffix) (readOutcome_append htype.outcome rest)
  have htaskLine : ∀ rest, firstMatch (expect "\n- Lesson: ".toList)
      (entry.taskSummary.toList ++ ("\n- Lesson: ".toList ++ rest)) =
        some (entry.taskSummary.toList, rest) := by
    intro rest
    have hnone := hplain.taskLine
    rw [hlessonWord] at hnone ⊢
    rw [← List.append_assoc]
    exact Cut.firstMatch_expect (by decide +kernel) hnone rest
  rw [readBlock, blockCore, blockHead]
  simp only [List.append_assoc]
  rw [readMarker_append hrun hplain.runColon hskill skill.solid, blockBody]
  simp only [Option.bind_some, List.append_assoc, hdrop, Cut.expect_append, readStamp_append hstamp
    htype.stamp,
    hrunLine, hrepositoryLine, htaskLine, Option.map_some, String.ofList_toList, strip_rstrip]
  rfl

/-! ## Memories -/

theorem memoryStart_single : '<' ∉ "!-- evoci-skill-memory:".toList := by decide +kernel

theorem blockCore_cons (skillId : String) (entry : SkillMemoryEntry) :
    ∃ inner, blockCore skillId entry = '<' :: inner :=
  ⟨_, by rw [blockCore, blockHead, memoryStart, List.cons_append, List.cons_append]⟩

theorem blockCore_strip {skillId : String} (hlesson : strip entry.lesson ≠ "") {gap : List Char}
    (hgap : Gap gap) :
    stripChars (blockCore skillId entry ++ gap) = blockCore skillId entry := by
  obtain ⟨tail, d, hlast, hd⟩ := rstrip_last hlesson
  obtain ⟨inner, hinner⟩ := blockCore_cons skillId entry
  have hend : '<' :: inner = (blockHead skillId entry ++ tail) ++ [d] := by
    rw [← hinner, blockCore, hlast, List.append_assoc]
  rw [stripChars_gap hgap, hinner]
  exact stripChars_solid (by decide) hd hend

theorem block_split (skillId : String) (entry : SkillMemoryEntry) :
    ∃ gap, Gap gap ∧
      (formatSkillMemoryBlock skillId entry).toList = blockCore skillId entry ++ gap := by
  obtain ⟨gap, hgap, heq⟩ := rstrip_split entry.lesson.toList
  refine ⟨gap ++ ['\n'], fun c hc => ?_, ?_⟩
  · rcases List.mem_append.mp hc with hc | hc
    · exact hgap c hc
    · rw [List.mem_singleton.mp hc]
      decide
  · rw [block_toList, blockCore, List.append_assoc, ← List.append_assoc (rstrip _), ← heq]

/-- Blanks behind a text do not complete a mark. -/
theorem memoryStart_infix_gap {cs gap : List Char} (hgap : Gap gap)
    (h : memoryStart <:+: cs ++ gap) : memoryStart <:+: cs := by
  have hsplit : memoryStart = "<!-- evoci-skill-memory".toList ++ [':'] := by decide +kernel
  obtain ⟨before, after, heq⟩ := h
  rw [hsplit] at heq ⊢
  rcases List.append_eq_append_iff.mp heq with ⟨inner, h₁, h₂⟩ | ⟨inner, h₁, h₂⟩
  · exact ⟨before, inner, h₁.symm⟩
  · rcases List.eq_nil_or_concat inner with rfl | ⟨front, last, rfl⟩
    · rw [List.append_nil] at h₁
      exact ⟨before, [], by rw [List.append_nil, h₁]⟩
    · exfalso
      rw [← List.append_assoc, List.concat_eq_append, ← List.append_assoc] at h₁
      obtain ⟨-, hlast⟩ := List.append_inj' h₁ rfl
      have hcolon : ':' ∈ gap := by
        rw [h₂, List.concat_eq_append, ← List.cons.inj hlast |>.1]
        simp
      exact absurd (hgap ':' hcolon) (by decide)

/-- The text of a memory that holds these entries: their blocks, with blanks behind each. -/
inductive Stores (skillId : String) : List Char → List SkillMemoryEntry → Prop where
  | nil : Stores skillId [] []
  | cons {entry : SkillMemoryEntry} {gap rest : List Char} {entries : List SkillMemoryEntry}
      (htype : entry.WellTyped) (hplain : entry.Plain skillId) (hgap : Gap gap)
      (hreturn : '\r' ∉ gap) (h : Stores skillId rest entries) :
      Stores skillId (blockCore skillId entry ++ gap ++ rest) (entry :: entries)

namespace Stores

variable {skillId : String} {text text' : List Char} {entries entries' : List SkillMemoryEntry}

theorem append (h : Stores skillId text entries) (h' : Stores skillId text' entries') :
    Stores skillId (text ++ text') (entries ++ entries') := by
  induction h with
  | nil => exact h'
  | cons htype hplain hgap hreturn _ ih =>
    rw [List.append_assoc, List.cons_append]
    exact .cons htype hplain hgap hreturn ih

/-- Blanks go with the last entry. -/
theorem append_gap (h : Stores skillId text entries) (hne : entries ≠ []) {gap : List Char}
    (hgap : Gap gap) (hreturn : '\r' ∉ gap) : Stores skillId (text ++ gap) entries := by
  induction h with
  | nil => exact absurd rfl hne
  | @cons entry own rest entries htype hplain hown hownReturn h ih =>
    cases entries with
    | nil =>
      cases h
      rw [List.append_nil, List.append_assoc, ← List.append_nil (_ ++ (own ++ gap))]
      refine .cons htype hplain (fun c hc => ?_) (fun hmem => ?_) .nil
      · exact (List.mem_append.mp hc).elim (hown c) (hgap c)
      · exact (List.mem_append.mp hmem).elim hownReturn hreturn
    | cons next entries =>
      rw [List.append_assoc]
      exact .cons htype hplain hown hownReturn (ih (List.cons_ne_nil _ _))

/-- The parts of a memory: each is the block of an entry and blanks. -/
theorem parts (h : Stores skillId text entries) :
    ∃ parts, Parts memoryStart text parts ∧
      parts.map stripChars = entries.map (blockCore skillId) ∧
      ∀ part ∈ parts, ∃ entry ∈ entries, blockCore skillId entry <+: part := by
  induction h with
  | nil => exact ⟨[], .nil, rfl, fun _ hmem => nomatch hmem⟩
  | @cons entry gap rest entries htype hplain hgap _ _ ih =>
    obtain ⟨parts, hparts, hstrip, hcores⟩ := ih
    obtain ⟨inner, hinner⟩ := blockCore_cons skillId entry
    obtain ⟨own, hown, hblock⟩ := block_split skillId entry
    have hstart : memoryStart <+: blockCore skillId entry :=
      ⟨_, by rw [blockCore, blockHead, List.append_assoc]⟩
    have honce : ¬ memoryStart <:+: (blockCore skillId entry ++ gap).tail := by
      intro hinfix
      have hblockOnce := hplain.oneStart
      rw [hinner, List.cons_append, List.tail_cons] at hinfix
      rw [hblock, hinner, List.cons_append, List.tail_cons] at hblockOnce
      exact hblockOnce ((memoryStart_infix_gap hgap hinfix).trans
        (List.prefix_append inner own).isInfix)
    refine ⟨_, .cons (hstart.trans (List.prefix_append _ gap)) honce hparts, ?_, ?_⟩
    · rw [List.map_cons, List.map_cons, blockCore_strip hplain.lesson hgap, hstrip]
    · intro part hpart
      rcases List.mem_cons.mp hpart with rfl | hpart
      · exact ⟨entry, List.mem_cons_self, List.prefix_append _ gap⟩
      · obtain ⟨other, hother, hcore⟩ := hcores part hpart
        exact ⟨other, List.mem_cons_of_mem _ hother, hcore⟩

theorem blockCore_start (skillId : String) (entry : SkillMemoryEntry) :
    memoryStart.isPrefixOf (blockCore skillId entry) = true :=
  List.isPrefixOf_iff_prefix.mpr ⟨_, by rw [blockCore, blockHead, List.append_assoc]⟩

/-- A memory is split into the blocks of its entries. -/
theorem split (h : Stores skillId text entries) :
    splitMemoryBlocks (String.ofList text) = entries.map (blockCore skillId) := by
  obtain ⟨parts, hparts, hstrip, -⟩ := h.parts
  have hcut : cutBefore memoryStart text = [] :: parts := hparts.cut memoryStart_single
  have hempty : ¬ memoryStart.isPrefixOf (stripChars []) = true := by decide +kernel
  rw [splitMemoryBlocks, String.toList_ofList, hcut, List.map_cons,
    List.filter_cons_of_neg hempty, hstrip, List.filter_eq_self]
  intro block hblock
  obtain ⟨entry, -, rfl⟩ := List.mem_map.mp hblock
  exact blockCore_start skillId entry

theorem plain (h : Stores skillId text entries) :
    ∀ entry ∈ entries, entry.WellTyped ∧ entry.Plain skillId := by
  induction h with
  | nil => exact fun _ hmem => nomatch hmem
  | cons htype hplain _ _ _ ih =>
    intro entry hentry
    rcases List.mem_cons.mp hentry with rfl | hentry
    · exact ⟨htype, hplain⟩
    · exact ih entry hentry

/-- What is read back of a memory are its entries. -/
theorem parse {skill : SkillSlug} (h : Stores skill.text text entries) :
    parseSkillMemoryEntries (String.ofList text) =
      entries.map SkillMemoryEntry.trimmed := by
  rw [parseSkillMemoryEntries, h.split, List.filterMap_map]
  have hread : ∀ entry ∈ entries, (firstMatch readBlock (blockCore skill.text entry)).map Prod.snd =
      some entry.trimmed := by
    intro entry hentry
    obtain ⟨htype, hplain⟩ := h.plain entry hentry
    rw [Cut.firstMatch_here (readBlock_core htype hplain)]
    rfl
  exact (List.filterMap_congr hread).trans (congrFun List.filterMap_eq_map entries)

/-- A memory has no carriage returns, so that it is read as it was written. -/
theorem readMemoryText_eq (h : Stores skillId text entries) :
    readMemoryText (String.ofList text) = String.ofList text := by
  have hreturn : '\r' ∉ text := by
    induction h with
    | nil => exact List.not_mem_nil
    | @cons entry gap rest entries _ hplain _ hgap _ ih =>
      obtain ⟨own, -, hblock⟩ := block_split skillId entry
      have hown := hplain.noReturn
      rw [hblock, List.mem_append, not_or] at hown
      simp only [List.mem_append, not_or]
      exact ⟨⟨hown.1, hgap⟩, ih⟩
  rw [readMemoryText, String.toList_ofList, universalNewlines_of_notMem _ hreturn]

theorem core_infix (h : Stores skillId text entries) :
    ∀ entry ∈ entries, blockCore skillId entry <:+: text := by
  induction h with
  | nil => exact fun _ hmem => nomatch hmem
  | @cons entry gap rest entries _ _ _ _ _ ih =>
    intro other hother
    rcases List.mem_cons.mp hother with rfl | hother
    · rw [List.append_assoc]
      exact (List.prefix_append _ _).isInfix
    · exact (ih other hother).trans (List.suffix_append _ rest).isInfix

end Stores

theorem memoryMarker_toList (runId skillId : String) :
    (memoryMarker runId skillId).toList =
      memoryStart ++ (runId.toList ++ ([':'] ++ (skillId.toList ++ " -->".toList))) := by
  have hmarker : ∀ start colon close : String,
      (start ++ runId ++ colon ++ skillId ++ close).toList = start.toList ++
        (runId.toList ++ (colon.toList ++ (skillId.toList ++ close.toList))) := by
    intro start colon close
    simp only [String.toList_append, List.append_assoc]
  have hstart : "<!-- evoci-skill-memory:".toList = memoryStart := by decide +kernel
  have hcolon : ":".toList = [':'] := by decide +kernel
  refine (hmarker "<!-- evoci-skill-memory:" ":" " -->").trans ?_
  rw [hstart, hcolon]

/-- Up to the first colon a text is determined. -/
theorem before_colon {run other rest rest' : List Char} (hrun : ':' ∉ run) (hother : ':' ∉ other)
    (h : run ++ ':' :: rest = other ++ ':' :: rest') : run = other := by
  have htake : ∀ {cs tail : List Char}, ':' ∉ cs →
      (cs ++ ':' :: tail).takeWhile (fun c => decide (c ≠ ':')) = cs := fun hcs =>
    takeWhile_run (fun d hd => decide_eq_true fun heq => hcs (heq ▸ hd)) (by decide)
  rw [← htake hrun, h, htake hother]

namespace Stores

variable {skillId : String} {text text' : List Char} {entries entries' : List SkillMemoryEntry}

/-- The marker of a run stands in a memory exactly when an entry of that run is stored. -/
theorem contains_iff (h : Stores skillId text entries) {runId : String}
    (hrun : ':' ∉ runId.toList) :
    Contains (String.ofList text) (memoryMarker runId skillId) ↔
      runId ∈ entries.map SkillMemoryEntry.runId := by
  rw [Contains, String.toList_ofList, memoryMarker_toList, List.mem_map]
  constructor
  · rintro ⟨before, after, heq⟩
    obtain ⟨parts, hparts, -, hcores⟩ := h.parts
    obtain ⟨part, hpart, hleads⟩ := hparts.at_start memoryStart_single
      (⟨before, by rw [← heq, List.append_assoc]⟩ : _ <:+ text)
      ⟨_, by rw [memoryStart, List.append_assoc]⟩
    obtain ⟨entry, hentry, hcore⟩ := hcores part hpart
    refine ⟨entry, hentry, String.toList_injective ?_⟩
    obtain ⟨rest, hrest⟩ := hcore.trans hleads
    simp only [blockCore, blockHead, List.append_assoc, List.append_cancel_left_eq] at hrest
    exact before_colon (h.plain entry hentry).2.runColon hrun hrest
  · rintro ⟨entry, hentry, rfl⟩
    refine List.IsInfix.trans ?_ (h.core_infix entry hentry)
    refine List.IsPrefix.isInfix ⟨blockBody entry ++ rstrip entry.lesson.toList, ?_⟩
    simp only [blockCore, blockHead, List.append_assoc]

/-- An entry that can be read back is appended, but for a run that has one already. -/
theorem appendTo (h : Stores skillId text entries) {entry : SkillMemoryEntry}
    (htype : entry.WellTyped) (hplain : entry.Plain skillId) :
    if entry.runId ∈ entries.map SkillMemoryEntry.runId then
      appendToMemory skillId (String.ofList text) entry = (false, String.ofList text)
    else ∃ text', appendToMemory skillId (String.ofList text) entry =
      (true, String.ofList text') ∧ Stores skillId text' (entries ++ [entry]) := by
  have hcontains := h.contains_iff hplain.runColon
  unfold appendToMemory
  simp only [h.readMemoryText_eq]
  split
  · next hthere => rw [if_pos (hcontains.mpr hthere)]
  · next hnew =>
    obtain ⟨own, hown, hblock⟩ := block_split skillId entry
    have hreturn : '\r' ∉ own := by
      have hall := hplain.noReturn
      rw [hblock, List.mem_append, not_or] at hall
      exact hall.2
    have hblockStores : Stores skillId (formatSkillMemoryBlock skillId entry).toList [entry] := by
      rw [hblock, ← List.append_nil (_ ++ own)]
      exact .cons htype hplain hown hreturn .nil
    have hgap : Stores skillId (text ++ (memoryGap (String.ofList text)).toList) entries := by
      cases h with
      | nil => exact .nil
      | cons htype' hplain' hgap' hreturn' h' =>
        refine (Stores.cons htype' hplain' hgap' hreturn' h').append_gap
          (List.cons_ne_nil _ _) ?_ ?_
        · unfold memoryGap
          split <;> split <;> decide
        · unfold memoryGap
          split <;> split <;> decide
    refine ⟨_, ?_, hgap.append hblockStores⟩
    rw [if_neg fun hthere => hnew (hcontains.mp hthere)]
    simp only [String.ofList_append, String.ofList_toList]

end Stores

/-! ## Merging -/

theorem blockKey_core (hplain : entry.Plain skill.text) :
    blockKey (blockCore skill.text entry) =
      memoryStart ++ entry.runId.toList ++ ':' :: skill.text.toList ++ " -->".toList := by
  have hrun : entry.runId.toList ≠ [] := fun h => hplain.runNonempty (String.toList_eq_nil_iff.mp h)
  have hskill : skill.text.toList ≠ [] := fun h => skill.nonempty (String.toList_eq_nil_iff.mp h)
  have hmarker : readMarker (blockCore skill.text entry) =
      some ((entry.runId.toList, skill.text.toList),
        blockBody entry ++ rstrip entry.lesson.toList) := by
    rw [blockCore, blockHead]
    simp only [List.append_assoc]
    exact readMarker_append hrun hplain.runColon hskill skill.solid _
  rw [blockKey, Cut.firstMatch_here hmarker]

theorem blockKey_inj {other : SkillMemoryEntry} (hplain : entry.Plain skill.text)
    (hother : other.Plain skill.text) :
    blockKey (blockCore skill.text entry) = blockKey (blockCore skill.text other) ↔
      entry.runId = other.runId := by
  rw [blockKey_core hplain, blockKey_core hother]
  constructor
  · intro h
    simp only [List.append_assoc, List.append_cancel_left_eq, List.cons_append] at h
    exact String.toList_injective (before_colon hplain.runColon hother.runColon h)
  · intro h
    rw [h]

/-- The entries but those of a run that has one already. -/
def distinctRuns (kept entries : List SkillMemoryEntry) : List SkillMemoryEntry :=
  entries.foldl (fun kept entry =>
    if entry.runId ∈ kept.map SkillMemoryEntry.runId then kept else kept ++ [entry]) kept

theorem distinctRuns_eq {kept entries : List SkillMemoryEntry}
    (h : (entries.map SkillMemoryEntry.runId).Nodup) :
    distinctRuns kept entries = kept ++ entries.filter fun entry =>
      entry.runId ∉ kept.map SkillMemoryEntry.runId := by
  induction entries generalizing kept with
  | nil => exact (List.append_nil kept).symm
  | cons entry entries ih =>
    rw [List.map_cons, List.nodup_cons] at h
    rw [distinctRuns, List.foldl_cons, ← distinctRuns, ih h.2]
    by_cases hthere : entry.runId ∈ kept.map SkillMemoryEntry.runId
    · rw [if_pos hthere, List.filter_cons_of_neg (by simpa using hthere)]
    · rw [if_neg hthere, List.filter_cons_of_pos (by simpa using hthere), List.append_assoc,
        List.singleton_append]
      congr 2
      refine List.filter_congr fun other hother => ?_
      have hne : other.runId ≠ entry.runId := fun heq =>
        h.1 (heq ▸ List.mem_map_of_mem hother)
      simp [hne]

theorem distinctBlocks_cores {kept entries : List SkillMemoryEntry}
    (hkept : ∀ entry ∈ kept, entry.Plain skill.text)
    (hentries : ∀ entry ∈ entries, entry.Plain skill.text) :
    (entries.map (blockCore skill.text)).foldl (fun kept block =>
      if blockKey block ∈ kept.map blockKey then kept else kept ++ [block])
      (kept.map (blockCore skill.text)) =
        (distinctRuns kept entries).map (blockCore skill.text) := by
  induction entries generalizing kept with
  | nil => rfl
  | cons entry entries ih =>
    have hentry := hentries entry List.mem_cons_self
    have hkey : blockKey (blockCore skill.text entry) ∈
        (kept.map (blockCore skill.text)).map blockKey ↔
          entry.runId ∈ kept.map SkillMemoryEntry.runId := by
      simp only [List.mem_map, exists_exists_and_eq_and]
      refine exists_congr fun other => and_congr_right fun hother => ?_
      exact blockKey_inj (hkept other hother) hentry
    have hrest := fun other hother => hentries other (List.mem_cons_of_mem entry hother)
    rw [List.map_cons, List.foldl_cons, distinctRuns, List.foldl_cons, ← distinctRuns]
    by_cases hthere : entry.runId ∈ kept.map SkillMemoryEntry.runId
    · rw [if_pos (hkey.mpr hthere), if_pos hthere]
      exact ih hkept hrest
    · rw [if_neg fun h => hthere (hkey.mp h), if_neg hthere, ← ih (fun other hother => ?_) hrest,
        List.map_append, List.map_singleton]
      rcases List.mem_append.mp hother with hother | hother
      · exact hkept other hother
      · exact List.mem_singleton.mp hother ▸ hentry

/-- The blocks of entries with an empty line between them are a memory again. -/
theorem Stores.joined {skillId : String} {entries : List SkillMemoryEntry} (hne : entries ≠ [])
    (h : ∀ entry ∈ entries, entry.WellTyped ∧ entry.Plain skillId) :
    Stores skillId ("\n\n".toList.intercalate (entries.map (blockCore skillId)) ++ ['\n'])
      entries := by
  induction entries with
  | nil => exact absurd rfl hne
  | cons entry entries ih =>
    obtain ⟨htype, hplain⟩ := h entry List.mem_cons_self
    cases entries with
    | nil =>
      rw [List.map_singleton, List.intercalate_singleton, ← List.append_nil (_ ++ _)]
      exact .cons htype hplain (by decide) (by decide) .nil
    | cons next entries =>
      have hrest := ih (List.cons_ne_nil _ _) fun other hother =>
        h other (List.mem_cons_of_mem _ hother)
      rw [List.map_cons, List.map_cons, List.intercalate_cons_cons, List.append_assoc,
        ← List.map_cons]
      exact .cons htype hplain (by decide) (by decide) hrest

/-- The merge of two memories holds the entries of both, one for each run. -/
theorem Stores.merge {text text' : List Char} {entries entries' : List SkillMemoryEntry}
    (h : Stores skill.text text entries) (h' : Stores skill.text text' entries')
    (hnodup : (entries.map SkillMemoryEntry.runId).Nodup)
    (hnodup' : (entries'.map SkillMemoryEntry.runId).Nodup) :
    ∃ merged, mergeMemoryTexts [String.ofList text, String.ofList text'] = String.ofList merged ∧
      Stores skill.text merged (entries ++ entries'.filter fun entry =>
        entry.runId ∉ entries.map SkillMemoryEntry.runId) := by
  have hall : ∀ entry ∈ entries ++ entries', entry.WellTyped ∧ entry.Plain skill.text := by
    intro entry hentry
    rcases List.mem_append.mp hentry with hentry | hentry
    · exact h.plain entry hentry
    · exact h'.plain entry hentry
  have hunion : distinctRuns [] (entries ++ entries') =
      entries ++ entries'.filter fun entry =>
        entry.runId ∉ entries.map SkillMemoryEntry.runId := by
    have hfirst : distinctRuns [] entries = entries := by
      rw [distinctRuns_eq hnodup, List.nil_append, List.filter_eq_self]
      simp
    rw [distinctRuns, List.foldl_append, ← distinctRuns, ← distinctRuns, hfirst,
      distinctRuns_eq hnodup']
  have hblocks : distinctBlocks ([String.ofList text, String.ofList text'].flatMap
      splitMemoryBlocks) = (distinctRuns [] (entries ++ entries')).map (blockCore skill.text) := by
    rw [List.flatMap_cons, List.flatMap_singleton, h.split, h'.split, ← List.map_append]
    have hnil : ∀ entry ∈ ([] : List SkillMemoryEntry), entry.Plain skill.text :=
      fun _ hmem => nomatch hmem
    exact distinctBlocks_cores hnil fun entry hentry => (hall entry hentry).2
  rw [mergeMemoryTexts, hblocks, hunion]
  split
  · next hempty =>
    rw [List.map_eq_nil_iff.mp hempty]
    exact ⟨[], rfl, .nil⟩
  · next hne =>
    refine ⟨_, rfl, .joined (fun hnil => hne (by rw [hnil, List.map_nil])) fun entry hentry => ?_⟩
    refine hall entry (List.mem_append.mpr ?_)
    exact (List.mem_append.mp hentry).imp_right fun hin => List.mem_of_mem_filter hin

/-! ## Sequences of calls -/

/-- The file is a memory of the entries that were appended, one for each run. -/
def UsageMemory.Faithful (skillId : String) (m : UsageMemory) : Prop :=
  (∃ text, m.text = String.ofList text ∧ Stores skillId text m.stored) ∧
    (m.stored.map SkillMemoryEntry.runId).Nodup

theorem append_faithful {skillId : String} {m : UsageMemory} (h : m.Faithful skillId)
    (htype : entry.WellTyped) (hplain : entry.Plain skillId) :
    (m.append skillId entry).Faithful skillId ∧
      ((appendToMemory skillId m.text entry).1 = false ↔
        entry.runId ∈ m.stored.map SkillMemoryEntry.runId) := by
  obtain ⟨⟨text, htext, hstores⟩, hnodup⟩ := h
  have happend := hstores.appendTo htype hplain
  rw [← htext] at happend
  split at happend
  · next hthere =>
    simp only [UsageMemory.append, happend, hthere, and_true]
    exact ⟨⟨text, htext, hstores⟩, hnodup⟩
  · next hnew =>
    obtain ⟨text', heq, hstores'⟩ := happend
    simp only [UsageMemory.append, heq, if_true, hnew, Bool.true_eq_false, and_true]
    refine ⟨⟨text', rfl, hstores'⟩, ?_⟩
    rw [List.map_append, List.map_singleton]
    exact List.nodup_append.mpr ⟨hnodup, List.nodup_singleton _, fun a ha b hb heq =>
      hnew (List.mem_singleton.mp hb ▸ heq ▸ ha)⟩

theorem appendAll_faithful {skillId : String} {entries : List SkillMemoryEntry}
    (h : ∀ entry ∈ entries, entry.WellTyped ∧ entry.Plain skillId) :
    (appendAll skillId entries).Faithful skillId := by
  induction entries using List.reverseRecOn with
  | nil => exact ⟨⟨[], rfl, .nil⟩, List.nodup_nil⟩
  | append_singleton entries entry ih =>
    obtain ⟨htype, hplain⟩ := h entry (List.mem_append_right _ List.mem_cons_self)
    have hbefore := ih fun other hother => h other (List.mem_append_left _ hother)
    rw [appendAll, Run.run_append, Run.run_cons, Run.run_nil]
    exact (append_faithful hbefore htype hplain).1

theorem append_stored (skillId : String) (entry : SkillMemoryEntry) (m : UsageMemory) :
    (m.append skillId entry).stored =
      if (appendToMemory skillId m.text entry).1 then m.stored ++ [entry] else m.stored := by
  unfold UsageMemory.append
  cases appendToMemory skillId m.text entry
  rfl

/-- The entries that are appended are the first ones of their runs. -/
theorem appendAll_stored {skillId : String} {entries : List SkillMemoryEntry}
    (h : ∀ entry ∈ entries, entry.WellTyped ∧ entry.Plain skillId) :
    (appendAll skillId entries).stored = distinctRuns [] entries := by
  induction entries using List.reverseRecOn with
  | nil => rfl
  | append_singleton entries entry ih =>
    obtain ⟨htype, hplain⟩ := h entry (List.mem_append_right _ List.mem_cons_self)
    have hbefore := fun other hother => h other (List.mem_append_left _ hother)
    have hskips := (append_faithful (appendAll_faithful hbefore) htype hplain).2
    rw [ih hbefore] at hskips
    have hlast : distinctRuns [] (entries ++ [entry]) =
        if entry.runId ∈ (distinctRuns [] entries).map SkillMemoryEntry.runId then
          distinctRuns [] entries else distinctRuns [] entries ++ [entry] := by
      unfold distinctRuns
      rw [List.foldl_append, List.foldl_cons, List.foldl_nil]
    rw [hlast, appendAll, Run.run_append, Run.run_cons, Run.run_nil, ← appendAll, append_stored,
      ih hbefore]
    by_cases hthere : entry.runId ∈ (distinctRuns [] entries).map SkillMemoryEntry.runId
    · rw [if_pos hthere, if_neg (Bool.eq_false_iff.mp (hskips.mpr hthere))]
    · rw [if_neg hthere, if_pos (Bool.not_eq_false _ ▸ mt hskips.mp hthere)]

/-- A sequence of calls with entries that can be read back appends the first entry of each run, what
is read of the file are the entries that were appended, and the merge of two files is read as their
union by run. -/
theorem usageMemory_faithful (skill : SkillSlug) {entries others : List SkillMemoryEntry}
    (htype : ∀ entry ∈ entries ++ others, entry.WellTyped)
    (hplain : ∀ entry ∈ entries ++ others, entry.Plain skill.text) :
    (∀ before entry after, entries = before ++ entry :: after →
      ((appendToMemory skill.text (appendAll skill.text before).text entry).1 = false ↔
        entry.runId ∈ (appendAll skill.text before).stored.map SkillMemoryEntry.runId)) ∧
    parseSkillMemoryEntries (readMemoryText (appendAll skill.text entries).text) =
      (appendAll skill.text entries).stored.map SkillMemoryEntry.trimmed ∧
    parseSkillMemoryEntries (mergeMemoryTexts
      [readMemoryText (appendAll skill.text entries).text,
        readMemoryText (appendAll skill.text others).text]) =
      ((appendAll skill.text entries).stored ++
        (appendAll skill.text others).stored.filter fun entry => entry.runId ∉
          (appendAll skill.text entries).stored.map SkillMemoryEntry.runId).map
        SkillMemoryEntry.trimmed := by
  have hall := fun entry hentry => And.intro (htype entry hentry) (hplain entry hentry)
  obtain ⟨⟨text, htext, hstores⟩, hnodup⟩ := appendAll_faithful fun entry hentry =>
    hall entry (List.mem_append_left others hentry)
  obtain ⟨⟨text', htext', hstores'⟩, hnodup'⟩ := appendAll_faithful fun entry hentry =>
    hall entry (List.mem_append_right entries hentry)
  refine ⟨?_, ?_, ?_⟩
  · rintro before entry after rfl
    obtain ⟨htype', hplain'⟩ := hall entry (by simp)
    exact (append_faithful (appendAll_faithful fun other hother => hall other (by simp [hother]))
      htype' hplain').2
  · rw [htext, hstores.readMemoryText_eq, hstores.parse]
  · rw [htext, htext', hstores.readMemoryText_eq, hstores'.readMemoryText_eq]
    obtain ⟨merged, hmerged, hunion⟩ := hstores.merge hstores' hnodup hnodup'
    rw [hmerged, hunion.parse]

namespace Sample

def usageSkill : SkillSlug := ⟨"pin", by decide, by decide +kernel⟩

def usageEntry (lesson : String) (runId : String := "run 1") : SkillMemoryEntry where
  runId := runId
  repository := "o/r"
  taskSummary := "fix it\n- Lesson ahead"
  outcome := "success"
  lesson := lesson
  createdAt := "2025-01-01T00:00:00Z"

theorem usageEntry_typed (lesson runId : String) : (usageEntry lesson runId).WellTyped := by
  have hsolid : ∀ c ∈ "2025-01-01T00:00:00Z".toList, isSpace c = false := by decide +kernel
  have hnonempty : "2025-01-01T00:00:00Z" ≠ "" := by decide
  exact ⟨.inl rfl, hnonempty, hsolid⟩

/-- Two runs, the first of them twice. -/
def usageEntries : List SkillMemoryEntry :=
  [usageEntry " pin it\n## and say why\n", usageEntry "look twice" "run 2", usageEntry "again"]

/-- Another file, which knows the second run too. -/
def otherEntries : List SkillMemoryEntry :=
  [usageEntry "look again" "run 2", usageEntry "ask first" "run 3"]

theorem usageEntries_typed : ∀ entry ∈ usageEntries ++ otherEntries, entry.WellTyped := by
  intro entry hentry
  simp only [usageEntries, otherEntries, List.cons_append, List.nil_append, List.mem_cons,
    List.not_mem_nil, or_false] at hentry
  rcases hentry with rfl | rfl | rfl | rfl | rfl <;> exact usageEntry_typed _ _

theorem usageEntries_plain : ∀ entry ∈ usageEntries ++ otherEntries, entry.Plain "pin" := by
  have hblocks : ∀ entry ∈ usageEntries ++ otherEntries,
      '\r' ∉ blockHead "pin" entry ++ (entry.lesson.toList ++ ['\n']) ∧
        ¬ memoryStart <:+: (blockHead "pin" entry ++ (entry.lesson.toList ++ ['\n'])).tail := by
    decide +kernel
  have hruns : ∀ entry ∈ usageEntries ++ otherEntries,
      entry.runId ≠ "" ∧ ':' ∉ entry.runId.toList := by
    decide +kernel
  have hlines : ∀ entry ∈ usageEntries ++ otherEntries,
      (∀ outcome ∈ ["success", "failure"],
        ¬ outcomeLine outcome ++ "\n- Task: ".toList <:+: entry.repository.toList) ∧
      ¬ "\n- Lesson: ".toList <:+: entry.taskSummary.toList ∧ strip entry.lesson ≠ "" := by
    decide +kernel
  intro entry hentry
  obtain ⟨hreturn, hstart⟩ := hblocks entry hentry
  rw [← block_toList] at hreturn hstart
  exact ⟨hreturn, hstart, (hruns entry hentry).1, (hruns entry hentry).2, (hlines entry hentry).1,
    (hlines entry hentry).2.1, (hlines entry hentry).2.2⟩

theorem usageEntries_stored :
    (appendAll "pin" usageEntries).stored = usageEntries.take 2 ∧
      (appendAll "pin" otherEntries).stored = otherEntries := by
  have hall := fun entry hentry => And.intro (usageEntries_typed entry hentry)
    (usageEntries_plain entry hentry)
  rw [appendAll_stored fun entry hentry => hall entry (List.mem_append_left _ hentry),
    appendAll_stored fun entry hentry => hall entry (List.mem_append_right _ hentry)]
  decide +kernel

theorem usage_read_back :
    parseSkillMemoryEntries (readMemoryText (appendAll "pin" usageEntries).text) =
        [usageEntry "pin it\n## and say why", usageEntry "look twice" "run 2"] ∧
      parseSkillMemoryEntries (mergeMemoryTexts
        [readMemoryText (appendAll "pin" usageEntries).text,
          readMemoryText (appendAll "pin" otherEntries).text]) =
        [usageEntry "pin it\n## and say why", usageEntry "look twice" "run 2",
          usageEntry "ask first" "run 3"] := by
  have hfaithful := usageMemory_faithful usageSkill usageEntries_typed usageEntries_plain
  have hskill : usageSkill.text = "pin" := rfl
  rw [hskill] at hfaithful
  obtain ⟨-, hread, hmerged⟩ := hfaithful
  rw [hread, hmerged, usageEntries_stored.1, usageEntries_stored.2]
  decide +kernel

/-- An entry without a lesson is stored, but its block ends with its blanks stripped and is not
recognised. -/
theorem empty_lesson_lost :
    ¬ ∀ entries : List SkillMemoryEntry, (∀ entry ∈ entries, entry.WellTyped) →
      parseSkillMemoryEntries (readMemoryText (appendAll "pin" entries).text) =
        (appendAll "pin" entries).stored.map SkillMemoryEntry.trimmed := by
  intro h
  have hread := h [usageEntry ""] fun entry hentry =>
    List.mem_singleton.mp hentry ▸ usageEntry_typed _ _
  have hstored : (appendAll "pin" [usageEntry ""]).stored ≠ [] := by decide +kernel
  have htext : (appendAll "pin" [usageEntry ""]).text =
      formatSkillMemoryBlock "pin" (usageEntry "") := by decide +kernel
  have hlost : parseSkillMemoryEntries (readMemoryText (appendAll "pin" [usageEntry ""]).text) =
      [] := by
    rw [htext, parseSkillMemoryEntries, splitMemoryBlocks, readMemoryText,
      String.toList_ofList, block_toList]
    decide +kernel
  rw [hlost] at hread
  exact hstored (List.map_eq_nil_iff.mp hread.symm)

end Sample

end EvoCI
