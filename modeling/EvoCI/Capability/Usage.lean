import EvoCI.Capability.Registry

/-! What runs write beside the packages: the statistics, the applied operations and the
usage memory of a skill. -/

namespace EvoCI

open Library

/-! ## Operations -/

/-- `INSERT OR IGNORE INTO applied_operations`. -/
def SkillDatabase.record (db : SkillDatabase) (key : String) (result : OperationResult) :
    SkillDatabase :=
  { db with
    operations := Function.update db.operations key (some ((db.operations key).getD result)) }

/-- `record_operation`: whether a row was inserted. -/
def recordOperation (a : HostAnswers) (key : String) (result : OperationResult) :
    RegistryM Bool :=
  Durable.effect .writeRow fun r =>
    (a.check .writeRow).map fun _ =>
      ((r.db.operations key).isNone, { r with db := r.db.record key result })

/-- A transaction that its operation key lets happen once. -/
def onceFor (a : HostAnswers) (operationKey : Option String) (result : OperationResult)
    (write : SkillDatabase → SkillDatabase) : RegistryM Bool :=
  Durable.effect .writeRow fun r =>
    (a.check .writeRow).map fun _ =>
      match givenKey operationKey with
      | none => (true, { r with db := write r.db })
      | some key =>
        if (r.db.operations key).isSome then (false, r)
        else (true, { r with db := (write r.db).record key result })

/-- `UPDATE skill_stats`: without a row nothing is updated. -/
def SkillDatabase.updateStats (db : SkillDatabase) (skillId : String)
    (f : SkillStats → SkillStats) : SkillDatabase :=
  { db with stats := Function.update db.stats skillId ((db.stats skillId).map f) }

def recordRetrieval (a : HostAnswers) (skillIds : List String) (selected : Bool)
    (operationKey : Option String) : RegistryM Bool :=
  onceFor a operationKey (.retrieved skillIds.length selected) fun db =>
    skillIds.foldl (fun db skillId => db.updateStats skillId fun stats =>
      if selected then
        { stats with selectedCount := stats.selectedCount + 1, updatedAt := a.rowsNow }
      else { stats with retrievalCount := stats.retrievalCount + 1, updatedAt := a.rowsNow }) db

/-- One use, with its outcome. -/
def SkillStats.use (stats : SkillStats) (success patched : Bool) (now : Nat) : SkillStats :=
  { stats with
    useCount := stats.useCount + 1
    successCount := stats.successCount + success.toNat
    failureCount := stats.failureCount + (!success).toNat
    patchCount := stats.patchCount + patched.toNat
    lastUsedAt := some now
    updatedAt := now }

def recordUse (a : HostAnswers) (skillId : String) (success patched : Bool)
    (operationKey : Option String) : RegistryM Bool :=
  onceFor a operationKey .recorded fun db =>
    db.updateStats skillId fun stats => stats.use success patched a.rowsNow

/-! ## Usage memory -/

/-- A usage outcome of a skill; the time is the one `strftime` prints. -/
structure SkillMemoryEntry where
  runId : String
  repository : String
  taskSummary : String
  outcome : String
  lesson : String
  createdAt : String
  deriving DecidableEq, Repr

def memoryMarker (runId skillId : String) : String :=
  s!"<!-- evoci-skill-memory:{runId}:{skillId} -->"

def formatSkillMemoryBlock (skillId : String) (entry : SkillMemoryEntry) : String :=
  s!"{memoryMarker entry.runId skillId}\n\n## {entry.createdAt}\n\n- Run: {entry.runId}\n" ++
  s!"- Repository: {entry.repository}\n- Outcome: {entry.outcome}\n" ++
  s!"- Task: {entry.taskSummary}\n- Lesson: {entry.lesson}\n"

/-- `marker in existing`. -/
def Contains (text marker : String) : Prop := marker.toList <:+: text.toList

instance (text marker : String) : Decidable (Contains text marker) :=
  inferInstanceAs (Decidable (marker.toList <:+: text.toList))

/-- What is put before a block so that it starts behind an empty line. -/
def memoryGap (existing : String) : String :=
  (if existing ≠ "" ∧ existing.toList.getLast? ≠ some '\n' then "\n" else "") ++
  (if strip existing ≠ "" then "\n" else "")

/-- A read in text mode. -/
def readMemoryText (text : String) : String := String.ofList (universalNewlines text.toList)

/-- `append_skill_memory`, under its lock; nothing is appended without a package, nor where the
marker of the run is read. -/
def appendSkillMemory (a : HostAnswers) (skillId : String) (entry : SkillMemoryEntry) :
    RegistryM Bool :=
  Durable.effect .writeMemory fun r =>
    (a.check .writeMemory).map fun _ =>
      let text := (r.memory skillId).getD ""
      let existing := readMemoryText text
      if (r.dirs (.package skillId)).isNone then (false, r)
      else if Contains existing (memoryMarker entry.runId skillId) then (false, r)
      else
        (true, { r with
          memory := Function.update r.memory skillId
            (some (text ++ memoryGap existing ++ formatSkillMemoryBlock skillId entry)) })

end EvoCI
