import EvoCI.Benchmark.Dataset

/-! The adapter over a dataset: the index of its rows, the task the agent gets and the
evaluator's view of the same row. What the agent gets does not depend on the fields that
only the evaluator reads. -/

namespace EvoCI

open Library

/-! ## Views of a task -/

structure TaskMeta where
  taskId : String
  repo : String
  taskFamily : Option String := none
  deriving DecidableEq

structure AgentTaskView where
  taskId : String
  repoOwner : String
  repoName : String
  workflowName : String
  workflowPath : String
  shaFail : String
  ciFailure : NormalizedCIFailure
  deriving DecidableEq

structure PreparedTask where
  agentView : AgentTaskView
  workspacePath : Option String := none
  deriving DecidableEq

structure GroundTruth where
  taskId : String
  shaSuccess : String
  diff : String
  changedFiles : List String
  errorType : String
  deriving DecidableEq

/-- The rows of the dataset by task id. -/
abbrev CIRepairBenchAdapter := Dict String Row

/-! ## Loading -/

def rowTaskId (index : Nat) (row : Row) : Except Raised String := do
  let owner ← requiredText (← row.field "repo_owner") "repo_owner"
  let name ← requiredText (← row.field "repo_name") "repo_name"
  match if (row.getOrNull "task_id").truthy then row.getOrNull "task_id"
    else row.getOrNull "id" with
  | .null => pure s!"{owner}-{name}-{index}"
  | rawTaskId => identifierText rawTaskId "task_id"

/-- Rows are indexed in order; a later row of the same task takes the place of an earlier
one. -/
def indexRows : Nat → CIRepairBenchAdapter → List Row → Except Raised CIRepairBenchAdapter
  | _, indexed, [] => .ok indexed
  | index, indexed, row :: rows => do
    let taskId ← rowTaskId index row
    indexRows (index + 1) (indexed.set taskId (Dict.set row "task_id" (.str taskId))) rows

/-- `_load`, of the rows the file holds. -/
def CIRepairBenchAdapter.load (rows : List Row) : Except Raised CIRepairBenchAdapter :=
  indexRows 0 [] rows

/-! ## Reading -/

namespace CIRepairBenchAdapter

/-- `self._rows[task_id]`. -/
def row (a : CIRepairBenchAdapter) (taskId : String) : Except Raised Row :=
  match Dict.get? a taskId with
  | some row => .ok row
  | none => .error ⟨"KeyError", s!"'{taskId}'"⟩

def taskMeta (item : String × Row) : Except Raised TaskMeta := do
  let owner ← requiredText (← item.2.field "repo_owner") "repo_owner"
  let name ← requiredText (← item.2.field "repo_name") "repo_name"
  pure {
    taskId := item.1
    repo := s!"{owner}/{name}"
    taskFamily := some (normalizeErrorType (item.2.getOrNull "error_type")) }

def listTasks (a : CIRepairBenchAdapter) : Except Raised (List TaskMeta) := a.mapM taskMeta

/-- `Path(path).stem`. -/
def pathStem (path : String) : String :=
  let name := (pathParts path).getLast?.getD ""
  let suffix := name.toList.reverse.takeWhile (· ≠ '.')
  -- A name without a dot, one that starts with its only dot, one that ends with a dot.
  if suffix.length + 1 < name.length ∧ suffix ≠ [] then
    String.ofList (name.toList.take (name.length - suffix.length - 1))
  else name

def workflowName (r : Row) (workflowPath : String) : Except Raised String :=
  if (r.getOrNull "workflow_name").truthy then
    requiredText (r.getOrNull "workflow_name") "workflow_name"
  else .ok (pathStem workflowPath)

def localWorkspace (r : Row) : Except Raised (Option String) :=
  if (r.getOrNull "workspace_path").truthy then
    (requiredText (r.getOrNull "workspace_path") "workspace_path").map some
  else .ok none

def prepareTask (safeDump : Json → String) (a : CIRepairBenchAdapter) (taskId : String) :
    Except Raised PreparedTask := do
  let r ← a.row taskId
  let workflowPath ← requiredText (← r.field "workflow_path") "workflow_path"
  let name ← workflowName r workflowPath
  let view : AgentTaskView := {
    taskId := taskId
    repoOwner := ← requiredText (← r.field "repo_owner") "repo_owner"
    repoName := ← requiredText (← r.field "repo_name") "repo_name"
    workflowName := name
    workflowPath := workflowPath
    shaFail := ← requiredText (← r.field "sha_fail") "sha_fail"
    ciFailure := ← normalizeCiFailure safeDump r }
  pure { agentView := view, workspacePath := ← localWorkspace r }

def groundTruth (a : CIRepairBenchAdapter) (taskId : String) : Except Raised GroundTruth := do
  let r ← a.row taskId
  pure {
    taskId := taskId
    shaSuccess := ← requiredText (← r.field "sha_success") "sha_success"
    diff := normalizeLogFragment (r.getOrNull "diff")
    changedFiles := normalizeChangedFiles (r.getOrNull "changed_files")
    errorType := normalizeErrorType (r.getOrNull "error_type") }

/-- The label of the task's row. -/
def errorLabel (a : CIRepairBenchAdapter) (taskId : String) : Option String :=
  (Dict.get? a taskId).map fun r => normalizeErrorType (r.getOrNull "error_type")

theorem groundTruth_errorLabel {a : CIRepairBenchAdapter} {taskId : String} {truth : GroundTruth}
    (h : a.groundTruth taskId = .ok truth) : a.errorLabel taskId = some truth.errorType := by
  unfold groundTruth row at h
  unfold errorLabel
  cases hrow : Dict.get? a taskId with
  | none =>
    rw [hrow] at h
    cases h
  | some r =>
    rw [hrow] at h
    simp only [bind, Except.bind] at h
    split at h
    · cases h
    · split at h
      · cases h
      · cases h
        rfl

end CIRepairBenchAdapter

/-! ## Datasets that differ in what the evaluator reads -/

/-- The fields `ground_truth` reads. -/
def evaluatorFields : List String := ["sha_success", "diff", "changed_files", "error_type"]

def SameRow (first second : Row) : Prop :=
  ∀ name, name ∉ evaluatorFields → Dict.get? first name = Dict.get? second name

/-- Row by row, two datasets agree in all other fields. -/
def SameOutside (first second : List Row) : Prop := List.Forall₂ SameRow first second

def SameAdapter (first second : CIRepairBenchAdapter) : Prop :=
  List.Forall₂ (fun item other => item.1 = other.1 ∧ SameRow item.2 other.2) first second

section

variable {r r' : Row}

theorem SameRow.field_eq (h : SameRow r r') (name : String) (hname : name ∉ evaluatorFields) :
    r.field name = r'.field name := by
  unfold Row.field
  rw [h name hname]

theorem SameRow.getOrNull_eq (h : SameRow r r') (name : String)
    (hname : name ∉ evaluatorFields) : r.getOrNull name = r'.getOrNull name := by
  unfold Row.getOrNull
  rw [h name hname]

theorem SameRow.set (h : SameRow r r') (name : String) (value : Json) :
    SameRow (Dict.set r name value) (Dict.set r' name value) := by
  intro other hother
  rw [Dict.get?_set, Dict.get?_set, h other hother]

theorem rowTaskId_congr (h : SameRow r r') (index : Nat) :
    rowTaskId index r = rowTaskId index r' := by
  unfold rowTaskId
  rw [h.field_eq "repo_owner" (by decide), h.field_eq "repo_name" (by decide),
    h.getOrNull_eq "task_id" (by decide), h.getOrNull_eq "id" (by decide)]

theorem normalizeCiFailure_congr (safeDump : Json → String) (h : SameRow r r') :
    normalizeCiFailure safeDump r = normalizeCiFailure safeDump r' := by
  unfold normalizeCiFailure
  rw [h "workflow" (by decide), h.getOrNull_eq "logs" (by decide)]

end

theorem SameAdapter.set {a a' : CIRepairBenchAdapter} (h : SameAdapter a a') (taskId : String)
    {r r' : Row} (hrow : SameRow r r') : SameAdapter (a.set taskId r) (a'.set taskId r') := by
  induction h with
  | nil => exact List.Forall₂.cons ⟨rfl, hrow⟩ List.Forall₂.nil
  | @cons item other rest rest' hitem hrest ih =>
    obtain ⟨key, value⟩ := item
    obtain ⟨key', value'⟩ := other
    obtain ⟨rfl, hvalue⟩ := hitem
    by_cases hkey : key = taskId
    · simp only [Dict.set, if_pos hkey]
      exact List.Forall₂.cons ⟨rfl, hrow⟩ hrest
    · simp only [Dict.set, if_neg hkey]
      exact List.Forall₂.cons ⟨rfl, hvalue⟩ ih

/-- A task has a row in both datasets or in neither. -/
theorem SameAdapter.row {a a' : CIRepairBenchAdapter} (h : SameAdapter a a') (taskId : String) :
    a.row taskId = a'.row taskId ∨
      ∃ r r', a.row taskId = .ok r ∧ a'.row taskId = .ok r' ∧ SameRow r r' := by
  induction h with
  | nil => exact .inl rfl
  | @cons item other rest rest' hitem _ ih =>
    obtain ⟨key, value⟩ := item
    obtain ⟨key', value'⟩ := other
    obtain ⟨rfl, hvalue⟩ := hitem
    by_cases hkey : key = taskId
    · exact .inr ⟨value, value', by simp [CIRepairBenchAdapter.row, Dict.get?_cons, hkey],
        by simp [CIRepairBenchAdapter.row, Dict.get?_cons, hkey], hvalue⟩
    · simpa [CIRepairBenchAdapter.row, Dict.get?_cons, hkey] using ih

/-- Indexing related rows ends the same way in both datasets. -/
theorem indexRows_same {rows rows' : List Row} (h : List.Forall₂ SameRow rows rows') :
    ∀ (index : Nat) {a a' indexed indexed' : CIRepairBenchAdapter}, SameAdapter a a' →
      indexRows index a rows = .ok indexed → indexRows index a' rows' = .ok indexed' →
      SameAdapter indexed indexed' := by
  induction h with
  | nil =>
    intro index a a' indexed indexed' hsame hload hload'
    cases hload
    cases hload'
    exact hsame
  | @cons r r' rest rest' hrow _ ih =>
    intro index a a' indexed indexed' hsame hload hload'
    unfold indexRows at hload hload'
    rw [← rowTaskId_congr hrow index] at hload'
    cases hid : rowTaskId index r with
    | error e =>
      rw [hid] at hload
      cases hload
    | ok taskId =>
      rw [hid] at hload hload'
      exact ih (index + 1) (hsame.set taskId (hrow.set "task_id" _)) hload hload'

theorem load_same {rows rows' : List Row} (h : SameOutside rows rows')
    {a a' : CIRepairBenchAdapter} (hload : CIRepairBenchAdapter.load rows = .ok a)
    (hload' : CIRepairBenchAdapter.load rows' = .ok a') : SameAdapter a a' :=
  indexRows_same h 0 List.Forall₂.nil hload hload'

/-- The task handed to the agent is the same in both datasets. -/
theorem SameAdapter.prepareTask_eq {a a' : CIRepairBenchAdapter} (h : SameAdapter a a')
    (safeDump : Json → String) (taskId : String) :
    a.prepareTask safeDump taskId = a'.prepareTask safeDump taskId := by
  unfold CIRepairBenchAdapter.prepareTask
  rcases h.row taskId with hsame | ⟨r, r', hr, hr', hrow⟩
  · rw [hsame]
  · rw [hr, hr']
    simp only [bind, Except.bind, CIRepairBenchAdapter.workflowName,
      CIRepairBenchAdapter.localWorkspace, normalizeCiFailure_congr safeDump hrow,
      hrow.field_eq "workflow_path" (by decide),
      hrow.field_eq "repo_owner" (by decide),
      hrow.field_eq "repo_name" (by decide),
      hrow.field_eq "sha_fail" (by decide),
      hrow.getOrNull_eq "workflow_name" (by decide),
      hrow.getOrNull_eq "workspace_path" (by decide)]

end EvoCI
