import EvoCI.Campaign.TreeHash
import EvoCI.Library.Dict
import EvoCI.Library.Durable
import EvoCI.Memory.Store

/-! The rounds of a campaign: `initialize`, `prepare_round`, `task_config` and `finalize_round`, and
the command that runs them, effect by effect on the campaign's directory. Directories that are
written under a fresh temporary name are seen from the rename on. -/

namespace EvoCI

open Library

/-! ## The directory of a campaign -/

structure LineageEntry where
  generation : Nat
  parent : Option Nat
  round : Option Nat
  deriving DecidableEq, Repr

/-- What `campaign.json` keeps of a round. -/
structure RoundEntry where
  manifestSha256 : String
  datasetSha256 : String
  status : String
  taskIds : List String
  repoFailPairs : List (String × String) := []
  deriving DecidableEq, Repr

/-- `campaign.json`. -/
structure CampaignMetadata where
  variant : String
  currentGeneration : Nat
  lineage : List LineageEntry
  rounds : Dict Nat RoundEntry
  pendingRepoFailPairs : Option (List (String × String)) := none
  deriving DecidableEq, Repr

/-- The `metadata.json` of a generation. -/
structure GenerationRecord where
  generation : Nat
  parentGeneration : Option Nat
  sourceRound : Option Nat
  status : String
  manifestSha256 : Option String
  datasetSha256 : Option String
  mergedTaskIds : List String
  contentSha256 : String
  deriving DecidableEq, Repr

def GenerationRecord.read (g : GenerationRecord) : GenerationMetadata :=
  ⟨some g.status, some g.contentSha256⟩

/-- The `metadata.json` of a round. -/
structure RoundMetadata where
  parentGeneration : Nat
  status : String
  manifestSha256 : String
  datasetSha256 : String
  taskIds : List String
  warnings : List String
  config : String
  model : String
  deriving DecidableEq, Repr

/-- The `status.json` of a round. -/
structure RoundStatus where
  status : String
  completedTasks : List String
  deriving DecidableEq, Repr

variable {C : Type}

/-- A generation with the content of its `state` and `skills`. -/
structure Generation (C : Type) where
  record : GenerationRecord
  content : C

/-- A task's copy of a generation. Its registry records the packages where they are in the branch,
or where they are in the generation it was copied from. -/
structure Branch (C : Type) where
  content : C
  own : Bool

structure RoundDirectory (C : Type) where
  metadata : Option RoundMetadata := none
  status : Option RoundStatus := none
  /-- `learning-delta`. -/
  delta : Option (Dict String (Branch C)) := none

structure CampaignDisk (C : Type) where
  campaign : Option CampaignMetadata := none
  generations : Dict Nat (Generation C) := []
  rounds : Dict Nat (RoundDirectory C) := []

namespace CampaignDisk

def generation (d : CampaignDisk C) (n : Nat) : Option (Generation C) := d.generations.get? n

/-- The generation a round reads. -/
def parent (d : CampaignDisk C) (round : Nat) : Option (Generation C) :=
  match round with
  | 0 => none
  | n + 1 => d.generation n

def round (d : CampaignDisk C) (n : Nat) : RoundDirectory C := (d.rounds.get? n).getD {}

def branch (d : CampaignDisk C) (n : Nat) (taskId : String) : Option (Branch C) :=
  (d.round n).delta.bind fun delta => delta.get? taskId

def setGeneration (d : CampaignDisk C) (n : Nat) (g : Generation C) : CampaignDisk C :=
  { d with generations := d.generations.set n g }

def setRound (d : CampaignDisk C) (n : Nat) (r : RoundDirectory C) : CampaignDisk C :=
  { d with rounds := d.rounds.set n r }

def setMetadata (d : CampaignDisk C) (n : Nat) (metadata : RoundMetadata) : CampaignDisk C :=
  d.setRound n { d.round n with metadata := some metadata }

def setStatus (d : CampaignDisk C) (n : Nat) (status : RoundStatus) : CampaignDisk C :=
  d.setRound n { d.round n with status := some status }

def setBranch (d : CampaignDisk C) (n : Nat) (taskId : String) (b : Branch C) : CampaignDisk C :=
  d.setRound n { d.round n with delta := some (((d.round n).delta.getD []).set taskId b) }

def setCampaign (d : CampaignDisk C) (c : CampaignMetadata) : CampaignDisk C :=
  { d with campaign := some c }

end CampaignDisk

/-! ## Programs -/

/-- The effects on the directory that are seen. -/
inductive CampaignStep where
  | publishFirst
  | writeCampaign
  | writeWarnings
  | makeRound
  | writeRoundMetadata
  | writeRoundStatus
  | registerRound
  | placeBranch
  | relocateBranch
  | work
  | noteErrors
  | publish
  | completeMetadata
  | completeStatus
  | writeAggregate
  | recordGeneration
  | writeSummary
  deriving DecidableEq, Repr

abbrev CampaignProgram (C α : Type) := Durable CampaignStep (CampaignDisk C) Raised α

/-- A write that does not fail. -/
def writes (step : CampaignStep) (f : CampaignDisk C → CampaignDisk C) : CampaignProgram C Unit :=
  Durable.effect step fun d => .ok ((), f d)

def campaignError (message : String) : Raised := ⟨"CampaignError", message⟩

/-- Where the recorded paths of packages point. -/
inductive SkillPlace where
  | generation (n : Nat)
  | branch (round : Nat) (taskId : String)
  deriving DecidableEq, Repr

/-- What a campaign does to the content of generations and branches. -/
structure CampaignHost (C : Type) where
  sha256 : List UInt8 → String
  /-- `repr` of a task id. -/
  reprTask : String → String
  state : C → Option FileTree
  skills : C → Option FileTree
  /-- The empty stores of generation 0. -/
  empty : C
  /-- `_merge_memory` and `_merge_skills` of the branches, one after another, into a copy. -/
  merge : C → List C → Except Raised C
  /-- `_relocate_skill_paths`. -/
  relocate : SkillPlace → C → Except Raised C
  /-- `checkpoint_sqlite_state`. -/
  checkpoint : C → C
  /-- Whether `_skill_inventory` can read the registry. -/
  inventory : C → Except Raised Unit

/-- `tree_hash` of a generation. -/
def CampaignHost.hash (host : CampaignHost C) (content : C) : String :=
  treeHash host.sha256 [host.state content, host.skills content]

/-- The manager's settings: campaigns are refused for other variants. -/
structure CampaignManager where
  variant : String
  strict : Bool
  /-- `_config_summary`. -/
  config : String
  /-- `_model_summary`. -/
  model : String
  evo : variant = "evo"

/-- What a line of the dataset tells of a task: repository and failing commit. -/
structure DatasetTask where
  taskId : String
  repo : String
  fail : String
  deriving DecidableEq, Repr

/-- What a round is begun with. -/
structure RoundInput where
  round : Nat
  manifestSha256 : String
  datasetSha256 : String
  taskIds : List String
  /-- The lines of the dataset, as far as they can be read. -/
  rows : Except Raised (List DatasetTask)

/-! ## `initialize` -/

def initialGeneration (host : CampaignHost C) : Generation C where
  record := {
    generation := 0
    parentGeneration := none
    sourceRound := none
    status := "complete"
    manifestSha256 := none
    datasetSha256 := none
    mergedTaskIds := []
    contentSha256 := host.hash host.empty }
  content := host.empty

def initialCampaign (m : CampaignManager) : CampaignMetadata where
  variant := m.variant
  currentGeneration := 0
  lineage := [⟨0, none, none⟩]
  rounds := []

/-- `os.replace` refuses a directory that is there and not empty. -/
def publishFirst (host : CampaignHost C) : CampaignProgram C Unit :=
  Durable.effect .publishFirst fun d =>
    match d.generation 0 with
    | some _ => .error ⟨"OSError", "Directory not empty"⟩
    | none => .ok ((), d.setGeneration 0 (initialGeneration host))

def initializeCampaign (host : CampaignHost C) (m : CampaignManager) :
    CampaignProgram C CampaignMetadata := do
  match ← Durable.look fun d => .ok d.campaign with
  | some metadata =>
    if metadata.variant ≠ m.variant then
      Durable.raise (campaignError "campaign variant does not match this invocation")
    else pure metadata
  | none =>
    publishFirst host
    writes .writeCampaign fun d => d.setCampaign (initialCampaign m)
    pure (initialCampaign m)

/-! ## `prepare_round` -/

/-- The checks of `prepare_round` and `task_config` on task ids. -/
def checkTaskIds (host : CampaignHost C) (taskIds : List String) : Except Raised Unit :=
  match taskIds.find? unsafeTaskId with
  | some taskId =>
    let shown := host.reprTask taskId
    .error (campaignError s!"unsafe task_id for campaign staging: {shown}")
  | none => .ok ()

def checkRoundNumber (round : Nat) : Except Raised Unit :=
  if round < 1 then .error (campaignError "round must be >= 1") else .ok ()

/-- The checks on the parent generation. -/
def checkParentGeneration (host : CampaignHost C) (i : RoundInput) (campaign : CampaignMetadata)
    (d : CampaignDisk C) : Except Raised Unit :=
  let content := (d.parent i.round).map Generation.content
  (checkParent host.sha256 host.reprTask i.round i.taskIds
    ((d.parent i.round).map fun g => g.record.read) (content.bind host.state)
    (content.bind host.skills) campaign.currentGeneration).mapError
    fun e => campaignError e.message

/-- `sorted(set(texts))`. -/
def sortedTexts (texts : List String) : List String := texts.dedup.insertionSort (· ≤ ·)

/-- `sorted(set(pairs))`. -/
def sortedPairs (pairs : List (String × String)) : List (String × String) :=
  pairs.dedup.insertionSort fun pair other =>
    pair.1 < other.1 ∨ pair.1 = other.1 ∧ pair.2 ≤ other.2

/-- The repositories and failing commits of the round's tasks. -/
def repoFailPairs (taskIds : List String) (rows : List DatasetTask) : List (String × String) :=
  sortedPairs ((rows.filter fun row =>
    row.taskId ∈ taskIds ∧ row.repo ≠ "" ∧ row.fail ≠ "").map fun row => (row.repo, row.fail))

/-- `_task_overlap_warnings`, with the pairs that it leaves for later comparisons. -/
def taskOverlapWarnings (campaign : CampaignMetadata) (i : RoundInput) :
    Except Raised (List String × List (String × String)) :=
  let duplicates := sortedTexts (i.taskIds.filter fun task => 1 < i.taskIds.count task)
  if duplicates ≠ [] then
    .error (campaignError
      ("manifest contains duplicate task_id values: " ++ ", ".intercalate duplicates))
  else
    let previous := campaign.rounds.flatMap fun item => item.2.taskIds
    let prior := campaign.rounds.flatMap fun item => item.2.repoFailPairs
    i.rows.map fun rows =>
      let pairs := repoFailPairs i.taskIds rows
      ((sortedTexts (i.taskIds.filter fun task => task ∈ previous)).map
          (fun task => s!"duplicate task_id across rounds: {task}") ++
        (pairs.filter fun pair => pair ∈ prior).map fun (repo, sha) =>
          s!"duplicate repository + failing commit: {repo}@{sha}", pairs)

def resumeWarning : String :=
  "critical model budget or campaign configuration changed on resume"

/-- `prepare_round` where the round has its metadata. -/
def resumeRound (m : CampaignManager) (i : RoundInput) (existing : RoundMetadata) :
    CampaignProgram C (List String) :=
  if existing.manifestSha256 ≠ i.manifestSha256 ∨ existing.datasetSha256 ≠ i.datasetSha256 then
    Durable.raise
      (campaignError "manifest or dataset content changed while resuming the round")
  else if existing.parentGeneration ≠ i.round - 1 then
    Durable.raise (campaignError "round parent generation does not match campaign lineage")
  else if (existing.config ≠ m.config ∨ existing.model ≠ m.model) ∧
      resumeWarning ∉ existing.warnings then do
    let warned := { existing with warnings := existing.warnings ++ [resumeWarning] }
    writes .writeWarnings fun d => d.setMetadata i.round warned
    pure warned.warnings
  else pure existing.warnings

def newRound (m : CampaignManager) (i : RoundInput) (warnings : List String) : RoundMetadata where
  parentGeneration := i.round - 1
  status := "running"
  manifestSha256 := i.manifestSha256
  datasetSha256 := i.datasetSha256
  taskIds := i.taskIds
  warnings
  config := m.config
  model := m.model

def newEntry (i : RoundInput) : RoundEntry where
  manifestSha256 := i.manifestSha256
  datasetSha256 := i.datasetSha256
  status := "running"
  taskIds := i.taskIds

/-- `metadata["rounds"][str(round_number)] = ...`, with the pending pairs. -/
def CampaignMetadata.register (campaign : CampaignMetadata) (i : RoundInput)
    (pairs : List (String × String)) : CampaignMetadata :=
  { campaign with
    rounds := campaign.rounds.set i.round (newEntry i)
    pendingRepoFailPairs := some (campaign.pendingRepoFailPairs.getD pairs) }

/-- The writes of `prepare_round` for a round that it begins. -/
def beginRound (m : CampaignManager) (i : RoundInput) (campaign : CampaignMetadata)
    (warnings : List String) (pairs : List (String × String)) :
    CampaignProgram C (List String) := do
  writes .makeRound fun d =>
    d.setRound i.round { d.round i.round with delta := some ((d.round i.round).delta.getD []) }
  writes .writeRoundMetadata fun d => d.setMetadata i.round (newRound m i warnings)
  writes .writeRoundStatus fun d => d.setStatus i.round ⟨"running", []⟩
  writes .registerRound fun d => d.setCampaign (campaign.register i pairs)
  pure warnings

/-- What `prepare_round` finds out before it begins a round. -/
def checkNewRound (m : CampaignManager) (i : RoundInput) (campaign : CampaignMetadata) :
    Except Raised (List String × List (String × String)) :=
  let number := i.round
  if number ≤ campaign.currentGeneration then
    .error (campaignError s!"Round {number} is already finalized")
  else
    match taskOverlapWarnings campaign i with
    | .error e => .error e
    | .ok (warnings, pairs) =>
      if warnings ≠ [] ∧ m.strict = true then
        .error (campaignError ("strict task isolation failed: " ++ "; ".intercalate warnings))
      else .ok (warnings, pairs)

/-- `prepare_round` behind `initialize`. -/
def enterRound (host : CampaignHost C) (m : CampaignManager) (i : RoundInput)
    (campaign : CampaignMetadata) : CampaignProgram C (List String) := do
  Durable.look fun d => checkParentGeneration host i campaign d
  match ← Durable.look fun d => .ok (d.round i.round).metadata with
  | some existing => resumeRound m i existing
  | none =>
    let (warnings, pairs) ← Durable.look fun _ => checkNewRound m i campaign
    beginRound m i campaign warnings pairs

def prepareRound (host : CampaignHost C) (m : CampaignManager) (i : RoundInput) :
    CampaignProgram C (List String) := do
  Durable.look fun _ => checkRoundNumber i.round
  Durable.look fun _ => checkTaskIds host i.taskIds
  let campaign ← initializeCampaign host m
  enterRound host m i campaign

/-! ## `task_config` -/

/-- What `task_config` copies. -/
def branchSource (round : Nat) (d : CampaignDisk C) : Except Raised C :=
  match d.parent round with
  | none => .error ⟨"FileNotFoundError", "No such file or directory"⟩
  | some g =>
    match d.campaign with
    | none => .error ⟨"KeyError", "'campaign_id'"⟩
    | some _ => .ok g.content

def taskConfig (host : CampaignHost C) (round : Nat) (taskId : String) :
    CampaignProgram C Unit := do
  Durable.look fun _ => checkTaskIds host [taskId]
  match ← Durable.look fun d => .ok (d.branch round taskId) with
  | some _ => pure ()
  | none =>
    let content ← Durable.look (branchSource round)
    writes .placeBranch fun d => d.setBranch round taskId ⟨content, false⟩
    -- a branch that is found has its copy, and is not relocated again
    Durable.effect .relocateBranch fun d =>
      (host.relocate (.branch round taskId) content).map fun own =>
        ((), d.setBranch round taskId ⟨own, true⟩)

/-- A task has written to its branch. What it wrote through a recorded package path went where the
path points. -/
def CampaignDisk.worked (d : CampaignDisk C) (round : Nat) (taskId : String)
    (change stray : C → C) : CampaignDisk C :=
  match d.branch round taskId with
  | none => d
  | some b =>
    let worked := d.setBranch round taskId { b with content := change b.content }
    match b.own, round, d.parent round with
    | false, n + 1, some g => worked.setGeneration n { g with content := stray g.content }
    | _, _, _ => worked

def workTask (round : Nat) (taskId : String) (change stray : C → C) : CampaignProgram C Unit :=
  writes .work fun d => d.worked round taskId change stray

/-! ## `finalize_round` -/

/-- A result of the round: its task, and whether its status is an error. -/
structure TaskResult where
  taskId : String
  isError : Bool
  deriving DecidableEq, Repr

def errorTasks (results : List TaskResult) : List String :=
  (results.filter TaskResult.isError).map TaskResult.taskId

def errorWarning (errors : List String) : String :=
  let count := errors.length
  let names := ", ".intercalate (errors.insertionSort (· ≤ ·))
  s!"completed with {count} task error(s): {names}"

/-- The warning that results with errors leave in the metadata of the round. -/
def noteErrors (round : Nat) (metadata : Option RoundMetadata) (results : List TaskResult) :
    CampaignProgram C (Option RoundMetadata) :=
  match metadata, errorTasks results with
  | some metadata, error :: errors => do
    let noted := { metadata with warnings := metadata.warnings ++ [errorWarning (error :: errors)] }
    writes .noteErrors fun d => d.setMetadata round noted
    pure (some noted)
  | _, _ => pure metadata

def expectedTasks (metadata : Option RoundMetadata) : List String :=
  (metadata.map RoundMetadata.taskIds).getD []

def checkComplete (expected : List String) (results : List TaskResult) : Except Raised Unit :=
  if results.map TaskResult.taskId ⊆ expected ∧ expected ⊆ results.map TaskResult.taskId then
    .ok ()
  else .error (campaignError "round is incomplete; refusing to commit a generation")

/-- The tasks that `_merge_branches` goes through: of a round without tasks, the branches there. -/
def mergedTasks (d : CampaignDisk C) (round : Nat) : Except Raised (List String) :=
  match expectedTasks (d.round round).metadata with
  | [] =>
    match (d.round round).delta with
    | none => .error ⟨"FileNotFoundError", "No such file or directory"⟩
    | some delta => .ok (sortedTexts delta.keys)
  | taskIds => .ok taskIds

/-- The content of the next generation. -/
def nextContent (host : CampaignHost C) (round : Nat) (d : CampaignDisk C) : Except Raised C :=
  match d.parent round with
  | none => .error ⟨"FileNotFoundError", "No such file or directory"⟩
  | some g =>
    match mergedTasks d round with
    | .error e => .error e
    | .ok taskIds =>
      match host.merge g.content
          (taskIds.filterMap fun taskId => (d.branch round taskId).map Branch.content) with
      | .error e => .error e
      | .ok merged => (host.relocate (.generation round) merged).map host.checkpoint

def nextGeneration (host : CampaignHost C) (round : Nat) (metadata : RoundMetadata) (content : C) :
    Generation C where
  record := {
    generation := round
    parentGeneration := some (round - 1)
    sourceRound := some round
    status := "complete"
    manifestSha256 := some metadata.manifestSha256
    datasetSha256 := some metadata.datasetSha256
    mergedTaskIds := sortedTexts metadata.taskIds
    contentSha256 := host.hash content }
  content

/-- `campaign.json` as `finalize_round` writes it. -/
def recordedCampaign (round : Nat) (d : CampaignDisk C) : Except Raised CampaignMetadata :=
  match d.campaign with
  | none => .error ⟨"KeyError", "'lineage'"⟩
  | some campaign =>
    match campaign.rounds.get? round with
    | none => .error ⟨"KeyError", s!"'{round}'"⟩
    | some entry => .ok {
      campaign with
      currentGeneration := round
      lineage := campaign.lineage ++ [⟨round, some (round - 1), some round⟩]
      rounds := campaign.rounds.set round { entry with
        status := "complete"
        repoFailPairs := campaign.pendingRepoFailPairs.getD [] }
      pendingRepoFailPairs := none }

def readInventory (host : CampaignHost C) (generation : Option (Generation C)) :
    Except Raised Unit :=
  match generation with
  | none => .ok ()
  | some g => host.inventory g.content

/-- `finalize_round` from its look at `campaign.json` on. -/
def recordRound (host : CampaignHost C) (round : Nat) : CampaignProgram C Unit := do
  let campaign ← Durable.look (recordedCampaign round)
  Durable.look fun d => readInventory host (d.generation round)
  Durable.look fun d => readInventory host (d.parent round)
  writes .writeAggregate id
  writes .recordGeneration fun d => d.setCampaign campaign
  writes .writeSummary id

/-- `finalize_round` from the rename on. -/
def publishRound (host : CampaignHost C) (round : Nat) (metadata : RoundMetadata) (content : C) :
    CampaignProgram C Unit := do
  writes .publish fun d => d.setGeneration round (nextGeneration host round metadata content)
  writes .completeMetadata fun d => d.setMetadata round { metadata with status := "complete" }
  writes .completeStatus fun d => d.setStatus round ⟨"complete", sortedTexts metadata.taskIds⟩
  recordRound host round

def finalizeRound (host : CampaignHost C) (round : Nat) (results : List TaskResult) :
    CampaignProgram C Unit := do
  let metadata ← Durable.look fun d => .ok (d.round round).metadata
  Durable.look fun _ => checkComplete (expectedTasks metadata) results
  let metadata ← noteErrors round metadata results
  match ← Durable.look fun d => .ok (d.generation round) with
  | some destination =>
    if destination.record.status = "complete" then pure ()
    else Durable.raise (campaignError "destination generation exists but is incomplete")
  | none =>
    let content ← Durable.look (nextContent host round)
    match metadata with
    | none => Durable.raise ⟨"KeyError", "'manifest_sha256'"⟩
    | some metadata => publishRound host round metadata content

/-! ## The command -/

/-- What the tasks of a round do to the campaign's directory. -/
inductive RoundAction (C : Type) where
  | config (taskId : String)
  | work (taskId : String) (change stray : C → C)

/-- An exception of `task_config` is the result of its task. -/
def RoundAction.perform (host : CampaignHost C) (round : Nat) :
    RoundAction C → CampaignProgram C Unit
  | .config taskId => do
    let _ ← Durable.attempt (taskConfig host round taskId)
    pure ()
  | .work taskId change stray => workTask round taskId change stray

def performTasks (host : CampaignHost C) (round : Nat) :
    List (RoundAction C) → CampaignProgram C Unit
  | [] => pure ()
  | action :: actions => do
    action.perform host round
    performTasks host round actions

/-- One run of the command on a campaign, under the writer's lock. -/
structure RoundCommand (C : Type) where
  manager : CampaignManager
  input : RoundInput
  /-- What the tasks do, in the order in which they come to it. -/
  tasks : List (RoundAction C) := []
  results : List TaskResult
  /-- The process dies behind so many effects. -/
  crash : Option Nat := none

/-- `evoci benchmark run` with a campaign directory. -/
def benchmarkRun (host : CampaignHost C) (i : RoundCommand C) : CampaignProgram C Unit := do
  let _ ← prepareRound host i.manager i.input
  performTasks host i.input.round i.tasks
  finalizeRound host i.input.round i.results

end EvoCI
