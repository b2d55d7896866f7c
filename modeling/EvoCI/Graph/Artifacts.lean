import Mathlib.Algebra.Order.BigOperators.Group.List
import Mathlib.Algebra.Order.Ring.Nat
import EvoCI.Library.Climb
import EvoCI.Scheduler
import EvoCI.Graph.Batch

/-! Where the patch artifact and the apply plan of a task are kept. The id of the task is free
text that becomes a component of both paths: whether they stay below the artifacts of the run,
and apart, is a matter of the components the id brings along. -/

namespace EvoCI

open Library

/-! ## Paths -/

/-- Where the system finds `base / path` when no symbolic link is on the way. -/
def joinLoc (base : Loc) (path : String) : Loc :=
  descend ".." (if isAbsolute path then [] else base) (pathParts path)

theorem walk_descend {links : Loc → Option String} (hlinks : ∀ loc, links loc = none) (base : Loc)
    (parts : List String) : Files.walk links base parts = .done (descend ".." base parts) := by
  induction parts generalizing base with
  | nil => rfl
  | cons part parts ih =>
    rw [Files.walk]
    split
    next hup =>
      rw [ih]
      simp [descend, hup]
    next hup =>
      rw [hlinks, ih]
      simp [descend, hup]

theorem resolve_joinLoc {files : Files} (hlinks : ∀ loc, files.linkAt loc = none) (base : Loc)
    (path : String) : files.resolve base path = .ok (joinLoc base path) := by
  simp [Files.resolve, Files.maxLinks, Files.realpath, walk_descend hlinks, joinLoc]

/-- The place of `start / path` below the directory `start` is relative to, while the path is
relative and never climbs above that directory. -/
def lexicalForm (start : List String) (path : String) : Option Loc :=
  if isAbsolute path then none else wayBelow ".." start (pathParts path)

theorem joinLoc_of_form {start form : List String} {path : String}
    (h : lexicalForm start path = some form) (base : Loc) :
    joinLoc (base ++ start) path = base ++ form := by
  unfold lexicalForm at h
  split at h
  · cases h
  next hrelative =>
    rw [joinLoc, if_neg hrelative]
    exact descend_of_wayBelow h base

theorem joinLoc_escapes {start : List String} {path : String} (h : lexicalForm start path = none)
    (base : Loc) {name : String} (hname : name ∉ pathParts path) :
    ¬ base ++ [name] <+: joinLoc (base ++ [name] ++ start) path := by
  unfold lexicalForm at h
  split at h
  next habsolute =>
    rw [joinLoc, if_pos habsolute]
    refine descend_outside (fun hin => ?_) hname
    have hnil := List.prefix_nil.1 hin
    simp at hnil
  next hrelative =>
    rw [joinLoc, if_neg hrelative]
    exact descend_escapes h hname

/-! ## Artifacts of a run -/

/-- `state_dir / "artifacts" / run_id`. -/
def runArtifacts (stateDir : Loc) (runId : String) : Loc := stateDir ++ ["artifacts", runId]

def batchName (batch : Nat) : String := s!"batch-{batch}"

/-- `artifact_dir(state_dir, run_id, batch, task_id)`. -/
def artifactDir (stateDir : Loc) (runId : String) (batch : Nat) (taskId : String) : Loc :=
  joinLoc (runArtifacts stateDir runId ++ [batchName batch]) taskId

/-- The file name `apply_plan_path` is given for the operation of a task. -/
def planName (batch : Nat) (taskId : String) : String := s!"{batch}:{taskId}" ++ ".json"

/-- `apply_plan_path(state_dir, run_id, operation_id)`. -/
def applyPlanPath (stateDir : Loc) (runId : String) (batch : Nat) (taskId : String) : Loc :=
  joinLoc (runArtifacts stateDir runId ++ ["apply"]) (planName batch taskId)

/-- A task of a run that passed the checks of the scheduler, with the batch it ran in. -/
structure Dispatched where
  batch : Nat
  task : WorkerTask
  accepted : ∃ raw known models tools, raw.Valid ∧
    validateSingleTask [raw] known models tools = .ok task

namespace Dispatched

def key (d : Dispatched) : Nat × String := (d.batch, d.task.taskId)

def artifactForm (d : Dispatched) : Option Loc := lexicalForm [batchName d.batch] d.task.taskId

def planForm (d : Dispatched) : Option Loc := lexicalForm ["apply"] (planName d.batch d.task.taskId)

end Dispatched

/-- Strictly inside a directory. -/
def Below (dir loc : Loc) : Prop := dir <+: loc ∧ loc ≠ dir

instance (dir loc : Loc) : Decidable (Below dir loc) := inferInstanceAs (Decidable (_ ∧ _))

theorem below_append_iff {dir form : Loc} : Below dir (dir ++ form) ↔ form ≠ [] := by
  simp [Below]

/-- What the artifacts of a run rely on: both places of every task are below the directory of
the run, and two tasks share neither. The two kinds are not compared: a plan of one batch may be
at a place of an artifact of another. -/
structure ArtifactsApart (stateDir : Loc) (runId : String) (tasks : List Dispatched) : Prop where
  artifact : ∀ d ∈ tasks,
    Below (runArtifacts stateDir runId) (artifactDir stateDir runId d.batch d.task.taskId)
  plan : ∀ d ∈ tasks,
    Below (runArtifacts stateDir runId) (applyPlanPath stateDir runId d.batch d.task.taskId)
  artifacts : ∀ d ∈ tasks, ∀ e ∈ tasks, d.key ≠ e.key →
    artifactDir stateDir runId d.batch d.task.taskId ≠
      artifactDir stateDir runId e.batch e.task.taskId
  plans : ∀ d ∈ tasks, ∀ e ∈ tasks, d.key ≠ e.key →
    applyPlanPath stateDir runId d.batch d.task.taskId ≠
      applyPlanPath stateDir runId e.batch e.task.taskId

/-- The forms of the ids: they stay below the directory of the run, strictly, and differ. -/
structure FormsApart (tasks : List Dispatched) : Prop where
  artifact : ∀ d ∈ tasks, ∃ form, d.artifactForm = some form ∧ form ≠ []
  plan : ∀ d ∈ tasks, ∃ form, d.planForm = some form ∧ form ≠ []
  artifacts : ∀ d ∈ tasks, ∀ e ∈ tasks, d.key ≠ e.key → d.artifactForm ≠ e.artifactForm
  plans : ∀ d ∈ tasks, ∀ e ∈ tasks, d.key ≠ e.key → d.planForm ≠ e.planForm

/-- There is always a run id that a path does not mention. -/
theorem exists_fresh (names : List String) :
    ∃ name, IsPart name ∧ name ≠ ".." ∧ name ∉ names := by
  let long := (names.map fun name => name.toList.length).sum
  refine ⟨String.ofList (List.replicate (long + 1) 'r'), ⟨?_, ?_, ?_⟩, ?_, ?_⟩
  · rw [String.toList_ofList]
    exact fun hin => absurd (List.eq_of_mem_replicate hin) (by decide)
  · intro heq
    simpa using congrArg String.toList heq
  · intro heq
    simpa [List.replicate_succ] using congrArg String.toList heq
  · intro heq
    simpa [List.replicate_succ] using congrArg String.toList heq
  · intro hin
    have hlength : (List.replicate (long + 1) 'r').length ≤ long := by
      exact List.le_sum_of_mem (List.mem_map.2 ⟨_, hin, by rw [String.toList_ofList]⟩)
    rw [List.length_replicate] at hlength
    omega

section Forms

variable {stateDir : Loc} {runId : String} {start form other : List String} {path path' : String}

theorem below_of_form (h : lexicalForm start path = some form) (hne : form ≠ []) :
    Below (runArtifacts stateDir runId) (joinLoc (runArtifacts stateDir runId ++ start) path) := by
  rw [joinLoc_of_form h]
  exact below_append_iff.2 hne

/-- Below the directory of every run is below it by its form. -/
theorem form_of_below
    (h : ∀ stateDir runId, IsPart runId → runId ≠ ".." →
      Below (runArtifacts stateDir runId) (joinLoc (runArtifacts stateDir runId ++ start) path)) :
    ∃ form, lexicalForm start path = some form ∧ form ≠ [] := by
  obtain ⟨runId, hpart, hup, hfresh⟩ := exists_fresh (pathParts path)
  have hbelow := h [] runId hpart hup
  cases hform : lexicalForm start path with
  | none =>
    exact absurd hbelow.1 (joinLoc_escapes hform ["artifacts"] hfresh)
  | some form =>
    rw [joinLoc_of_form hform] at hbelow
    exact ⟨form, rfl, below_append_iff.1 hbelow⟩

theorem joinLoc_eq_iff {start' : List String} (h : lexicalForm start path = some form)
    (h' : lexicalForm start' path' = some other) :
    joinLoc (runArtifacts stateDir runId ++ start) path =
        joinLoc (runArtifacts stateDir runId ++ start') path' ↔
      lexicalForm start path = lexicalForm start' path' := by
  rw [joinLoc_of_form h, joinLoc_of_form h', h, h']
  simp

end Forms

/-- In every run the tasks' artifacts and plans stay inside its directory and apart, if and only
if the ids stay below it by their components and no two have the same form. -/
theorem artifacts_apart_iff (tasks : List Dispatched) :
    (∀ stateDir runId, IsPart runId → runId ≠ ".." → ArtifactsApart stateDir runId tasks) ↔
      FormsApart tasks := by
  constructor
  · intro h
    have hartifact : ∀ d ∈ tasks, ∃ form, d.artifactForm = some form ∧ form ≠ [] :=
      fun d hd => form_of_below fun stateDir runId hpart hup =>
        (h stateDir runId hpart hup).artifact d hd
    have hplan : ∀ d ∈ tasks, ∃ form, d.planForm = some form ∧ form ≠ [] :=
      fun d hd => form_of_below fun stateDir runId hpart hup =>
        (h stateDir runId hpart hup).plan d hd
    have hrun : ArtifactsApart [] "r" tasks :=
      h [] "r" (by decide) (by decide)
    refine ⟨hartifact, hplan, fun d hd e he hkey heq => ?_, fun d hd e he hkey heq => ?_⟩
    · obtain ⟨form, hform, -⟩ := hartifact d hd
      obtain ⟨other, hother, -⟩ := hartifact e he
      exact hrun.artifacts d hd e he hkey ((joinLoc_eq_iff hform hother).2 heq)
    · obtain ⟨form, hform, -⟩ := hplan d hd
      obtain ⟨other, hother, -⟩ := hplan e he
      exact hrun.plans d hd e he hkey ((joinLoc_eq_iff hform hother).2 heq)
  · intro h stateDir runId _ _
    refine ⟨fun d hd => ?_, fun d hd => ?_, fun d hd e he hkey heq => ?_,
      fun d hd e he hkey heq => ?_⟩
    · obtain ⟨form, hform, hne⟩ := h.artifact d hd
      exact below_of_form hform hne
    · obtain ⟨form, hform, hne⟩ := h.plan d hd
      exact below_of_form hform hne
    · obtain ⟨form, hform, -⟩ := h.artifact d hd
      obtain ⟨other, hother, -⟩ := h.artifact e he
      exact h.artifacts d hd e he hkey ((joinLoc_eq_iff hform hother).1 heq)
    · obtain ⟨form, hform, -⟩ := h.plan d hd
      obtain ⟨other, hother, -⟩ := h.plan e he
      exact h.plans d hd e he hkey ((joinLoc_eq_iff hform hother).1 heq)

/-! ## Ids of one component -/

theorem batchName_injective {batch other : Nat} (h : batchName batch = batchName other) :
    batch = other := by
  have hchars : Nat.toDigits 10 batch = Nat.toDigits 10 other := by
    simpa [batchName, toString] using congrArg String.toList h
  calc
    batch = Nat.ofDigitChars 10 (Nat.toDigits 10 batch) 0 := Nat.ofDigitChars_ten_toDigits.symm
    _ = Nat.ofDigitChars 10 (Nat.toDigits 10 other) 0 := by rw [hchars]
    _ = other := Nat.ofDigitChars_ten_toDigits

theorem planName_injective {batch other : Nat} {taskId otherTask : String}
    (h : planName batch taskId = planName other otherTask) :
    batch = other ∧ taskId = otherTask := by
  have hid : s!"{batch}:{taskId}" = s!"{other}:{otherTask}" := by
    refine String.ext (@List.append_cancel_right _ _ ".json".toList _ ?_)
    simpa [planName] using congrArg String.toList h
  have hbatch := operation_batch hid
  subst hbatch
  refine ⟨rfl, String.ext ?_⟩
  simpa [toString] using congrArg String.toList hid

theorem lexicalForm_part {start : List String} {part : String} (h : IsPart part)
    (hup : part ≠ "..") : lexicalForm start part = some (start ++ [part]) := by
  have hall : ∀ other ∈ [part], IsPart other := by simpa using h
  have hparts : pathParts part = [part] := pathParts_joinParts [part] hall
  have hrelative : isAbsolute part = false := isAbsolute_joinParts [part] hall
  simp [lexicalForm, hrelative, hparts, wayBelow, hup]

theorem planName_isPart {batch : Nat} {taskId : String} (h : '/' ∉ taskId.toList) :
    IsPart (planName batch taskId) ∧ planName batch taskId ≠ ".." := by
  have hchars : (planName batch taskId).toList =
      Nat.toDigits 10 batch ++ ':' :: taskId.toList ++ ".json".toList := by
    simp [planName, toString]
  have hcolon : ':' ∈ (planName batch taskId).toList := by
    rw [hchars]
    simp
  refine ⟨⟨?_, ?_, ?_⟩, ?_⟩
  · rw [hchars]
    intro hin
    simp only [List.mem_append, List.mem_cons] at hin
    rcases hin with (hdigit | hslash | htask) | hjson
    · exact absurd (Nat.isDigit_of_mem_toDigits (by decide) (by decide) hdigit) (by decide)
    · exact absurd hslash (by decide)
    · exact h htask
    · exact absurd hjson (by decide)
  all_goals
    intro heq
    rw [heq] at hcolon
    exact absurd hcolon (by decide)

/-- Ids of one component other than `..` keep the artifacts of a run inside and apart. -/
theorem formsApart_of_parts {tasks : List Dispatched}
    (h : ∀ d ∈ tasks, IsPart d.task.taskId ∧ d.task.taskId ≠ "..") : FormsApart tasks := by
  have hartifact : ∀ d ∈ tasks, d.artifactForm = some [batchName d.batch, d.task.taskId] :=
    fun d hd => lexicalForm_part (h d hd).1 (h d hd).2
  have hplan : ∀ d ∈ tasks, d.planForm = some ["apply", planName d.batch d.task.taskId] := by
    intro d hd
    obtain ⟨hpart, hup⟩ := @planName_isPart d.batch _ (h d hd).1.1
    exact lexicalForm_part hpart hup
  refine ⟨fun d hd => ⟨_, hartifact d hd, by simp⟩, fun d hd => ⟨_, hplan d hd, by simp⟩,
    fun d hd e he hkey heq => hkey ?_, fun d hd e he hkey heq => hkey ?_⟩
  · rw [hartifact d hd, hartifact e he] at heq
    simp only [Option.some.injEq, List.cons.injEq, and_true] at heq
    exact Prod.ext (batchName_injective heq.1) heq.2
  · rw [hplan d hd, hplan e he] at heq
    simp only [Option.some.injEq, List.cons.injEq, and_true, true_and] at heq
    obtain ⟨hbatch, htask⟩ := planName_injective heq
    exact Prod.ext hbatch htask

/-! ## An id that climbs -/

def investigation (batch : Nat) (taskId : String) (h : strip taskId ≠ "") : Dispatched where
  batch
  task := { taskId, kind := .investigate }
  accepted := ⟨{ taskId, kind := .investigate }, [], 1, 1, ⟨h, fun _ => rfl, rfl⟩, rfl⟩

example : FormsApart [investigation 1 "fix" (by decide +kernel),
    investigation 2 "fix" (by decide +kernel)] :=
  formsApart_of_parts (by decide +kernel)

/-- The scheduler accepts ids that lead out of the artifacts of the run, and ids that lead into
the directory and to the plan of another batch. -/
theorem climbing_ids_share :
    ∃ outside first second : Dispatched,
      ¬ Below (runArtifacts ["state"] "run")
        (artifactDir ["state"] "run" outside.batch outside.task.taskId) ∧
      (∀ files : Files, (∀ loc, files.linkAt loc = none) →
        files.resolve (runArtifacts ["state"] "run" ++ [batchName outside.batch])
          outside.task.taskId =
            .ok (artifactDir ["state"] "run" outside.batch outside.task.taskId)) ∧
      first.key ≠ second.key ∧
      artifactDir ["state"] "run" first.batch first.task.taskId =
        artifactDir ["state"] "run" second.batch second.task.taskId ∧
      ¬ ∀ tasks stateDir runId, IsPart runId → runId ≠ ".." →
        ArtifactsApart stateDir runId tasks := by
  refine ⟨investigation 1 "../../../memory" (by decide +kernel),
    investigation 1 "../batch-2/fix" (by decide +kernel),
    investigation 2 "fix" (by decide +kernel), by decide +kernel,
    fun files hlinks => resolve_joinLoc hlinks _ _, by decide +kernel, by decide +kernel,
    fun h => ?_⟩
  have hrun := h [investigation 1 "../../../memory" (by decide +kernel)] ["state"] "run"
    (by decide) (by decide)
  exact absurd (hrun.artifact _ List.mem_cons_self) (by decide +kernel)

end EvoCI
