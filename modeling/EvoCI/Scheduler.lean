import EvoCI.Domain

/-! Exact write scopes, and the checks a dispatched task has to pass. -/

namespace EvoCI

open Library

/-! ## Scopes -/

/-- `normalize_write_path`. -/
def normalizeWritePath (path : String) : Except PyError String :=
  let raw := strip path
  if raw = "" ∨ raw = "." ∨ raw = "./" then
    .error (.policyViolation "write path must be a relative file path")
  else if isAbsolute raw then .error (.policyViolation s!"path escapes workspace: {path}")
  else
    let parts := pathParts raw
    if parts = [] ∨ ".." ∈ parts then .error (.policyViolation s!"path escapes workspace: {path}")
    else .ok (joinParts parts)

def normalizeWritePaths : List String → Except PyError (List String)
  | [] => .ok []
  | path :: paths =>
    match normalizeWritePath path with
    | .error e => .error e
    | .ok normalized =>
      match normalizeWritePaths paths with
      | .error e => .error e
      | .ok rest => .ok (normalized :: rest)

/-- `tuple(dict.fromkeys(items))`. -/
def fromKeys (items : List String) : List String :=
  Dict.keys (items.foldl (fun d item => Dict.set d item ()) [])

def normalizeWriteScope (paths : List String) : Except PyError (List String) :=
  match normalizeWritePaths paths with
  | .error e => .error e
  | .ok unique => .ok (fromKeys unique)

/-- `assert_write_path_allowed(path, write_scope)`. -/
def assertWritePathAllowed (path : String) (writeScope : List String) : Except PyError String :=
  match normalizeWritePath path with
  | .error e => .error e
  | .ok normalized =>
    if writeScope ≠ [] ∧ normalized ∉ writeScope then
      .error (.policyViolation s!"write outside task write_scope: {path}")
    else .ok normalized

def assertEditsAllowed (allowed : List String) : List FileEdit → Except PyError Unit
  | [] => .ok ()
  | edit :: edits =>
    match assertWritePathAllowed edit.path allowed with
    | .error e => .error e
    | .ok _ => assertEditsAllowed allowed edits

/-- `validate_edits_against_scope`. -/
def validateEditsAgainstScope (edits : List FileEdit) (writeScope : List String) :
    Except PyError Unit :=
  match normalizeWritePaths writeScope with
  | .error e => .error e
  | .ok allowed => assertEditsAllowed allowed edits

/-- A normalized path has the components of the stripped one. -/
theorem normalizeWritePath_ok {path normalized : String}
    (h : normalizeWritePath path = .ok normalized) :
    pathParts normalized = pathParts (strip path) ∧ isAbsolute normalized = false ∧
      isAbsolute (strip path) = false ∧ ".." ∉ pathParts (strip path) := by
  unfold normalizeWritePath at h
  simp only at h
  split at h
  · cases h
  · split at h
    · cases h
    next habsolute =>
      split at h
      · cases h
      next hparts =>
        have hjoin : joinParts (pathParts (strip path)) = normalized := Except.ok.inj h
        have hall := pathParts_isPart (strip path)
        rw [← hjoin, pathParts_joinParts _ hall, isAbsolute_joinParts _ hall]
        exact ⟨rfl, rfl, Bool.not_eq_true _ ▸ habsolute, fun hdots => hparts (.inr hdots)⟩

/-- A refused path is refused with a reason. -/
theorem normalizeWritePath_message {path : String} {e : PyError}
    (h : normalizeWritePath path = .error e) : ∃ m, e = .policyViolation m ∧ m ≠ "" := by
  simp only [normalizeWritePath] at h
  repeat' split at h
  all_goals cases h
  all_goals exact ⟨_, rfl, by simp [toString]⟩

theorem normalizeWritePaths_message {paths : List String} {e : PyError}
    (h : normalizeWritePaths paths = .error e) : ∃ m, e = .policyViolation m ∧ m ≠ "" := by
  induction paths with
  | nil => cases h
  | cons path paths ih =>
    unfold normalizeWritePaths at h
    split at h
    next hpath =>
      cases h
      exact normalizeWritePath_message hpath
    · split at h
      next hrest =>
        cases h
        exact ih hrest
      · cases h

theorem validateEditsAgainstScope_message {edits : List FileEdit} {scope : List String}
    {e : PyError} (h : validateEditsAgainstScope edits scope = .error e) :
    ∃ m, e = .policyViolation m ∧ m ≠ "" := by
  unfold validateEditsAgainstScope at h
  split at h
  next hscope =>
    cases h
    exact normalizeWritePaths_message hscope
  next allowed _ =>
    induction edits with
    | nil => cases h
    | cons edit edits ih =>
      unfold assertEditsAllowed at h
      split at h
      next hpath =>
        cases h
        unfold assertWritePathAllowed at hpath
        split at hpath
        next hnormal =>
          cases hpath
          exact normalizeWritePath_message hnormal
        · split at hpath
          · cases hpath
            exact ⟨_, rfl, by simp [toString]⟩
          · cases hpath
      · exact ih h

/-! ## Scheduling -/

def normalizeTask (task : WorkerTask) : Except PyError WorkerTask :=
  match normalizeWriteScope task.writeScope with
  | .error e => .error e
  | .ok writeScope =>
    match normalizeWriteScope task.readScope with
    | .error e => .error e
    | .ok readScope => .ok { task with writeScope, readScope }

/-- `validate_single_task`. The remaining calls are natural numbers: a budget
asks for at least one call, so a negative remainder refuses what zero does. -/
def validateSingleTask (tasks : List WorkerTask) (knownTaskIds : List String)
    (remainingModelCalls remainingToolCalls : Nat) : Except PyError WorkerTask :=
  match tasks with
  | [raw] =>
    match normalizeTask raw with
    | .error e => .error e
    | .ok task =>
      if task.taskId ∈ knownTaskIds then
        .error (.taskScheduleError s!"task_id already used in this run: {task.taskId}")
      else if task.dependsOn ≠ [] then .error (.taskScheduleError "depends_on is not supported")
      else if task.kind = .repair ∧ task.writeScope = [] then
        .error (.taskScheduleError
          s!"repair task {task.taskId} must declare exact write_scope paths")
      else if task.kind = .investigate ∧ task.writeScope ≠ [] then
        .error (.taskScheduleError s!"investigate task {task.taskId} cannot write")
      else
        match task.budget with
        | none => .ok task
        | some budget =>
          if remainingModelCalls < budget.maxModelCalls then
            .error (.taskScheduleError s!"task {task.taskId} exceeds remaining model-call budget")
          else if remainingToolCalls < budget.maxToolCalls then
            .error (.taskScheduleError s!"task {task.taskId} exceeds remaining tool-call budget")
          else .ok task
  | _ => .error (.taskScheduleError "dispatch requires exactly one task")

/-- The errors a dispatch is refused with; the others come from its scopes. -/
theorem validateSingleTask_error {tasks : List WorkerTask} {known : List String}
    {models tools : Nat} {e : PyError}
    (h : validateSingleTask tasks known models tools = .error e) :
    (∃ m, e = .taskScheduleError m) ∨ ∃ raw, tasks = [raw] ∧ normalizeTask raw = .error e := by
  unfold validateSingleTask at h
  split at h
  next raw =>
    split at h
    next hnorm =>
      cases h
      exact .inr ⟨raw, rfl, hnorm⟩
    · left
      repeat' split at h
      all_goals cases h
      all_goals exact ⟨_, rfl⟩
  · left
    cases h
    exact ⟨_, rfl⟩

end EvoCI
