import EvoCI.Benchmark.Manifest

/-! How a benchmark entry becomes the initial state of the graph, and what of the evaluator's
label is in it: the category of the entry, which is the label of its row. -/

namespace EvoCI

open Library

/-! ## Workspaces -/

/-- What the machine answers while an entry is prepared. -/
structure EntryHost where
  resolve : String → String
  isDir : String → Bool
  present : String → Bool
  mkdir : String → Except Raised Unit
  mkdirParent : String → Except Raised Unit
  copyWorkspace : String → String → Except Raised Unit
  /-- The return code and the error output of the command. -/
  git : List String → Except Raised (Int × String)
  truncateGit : String → String → String → Except Raised Unit
  /-- The configuration and the stores of the run. -/
  stage : String → String → Except Raised Unit
  /-- What the verifier does with the workspace before the graph starts. -/
  preflight : PreparedTask → String → Except Raised Unit

structure EntryDirs where
  worktreesDir : String
  repoCacheDir : String

/-- `str(root / name)` of a resolved root. -/
def joinPath (root name : String) : String :=
  if isAbsolute name then "/" ++ joinParts (pathParts name)
  else "/" ++ joinParts (pathParts root ++ pathParts name)

/-- Where the workspace of a run lies: beside the others as it is spelled when the row names
a workspace to copy, and behind all links otherwise. -/
def workspaceOf (resolve : String → String) (dirs : EntryDirs) (named : Bool) (runId : String) :
    String :=
  let destination := joinPath (resolve dirs.worktreesDir) runId
  if named then destination else resolve destination

def ensure (condition : Bool) (kind message : String) : Except Raised Unit :=
  if condition then .ok () else .error ⟨kind, message⟩

def copyPrepared (h : EntryHost) (source destination : String) : Except Raised String := do
  ensure (h.isDir source) "FileNotFoundError" s!"benchmark workspace does not exist: {source}"
  h.mkdirParent destination
  if h.present destination then
    ensure (h.isDir destination) "FileExistsError"
      s!"benchmark workspace path is not a directory: {destination}"
    pure destination
  else
    h.copyWorkspace source destination
    pure destination

/-- The mirror of the repository, cloned or brought up to date. -/
def refreshCache (h : EntryHost) (view : AgentTaskView) (cache : String) : Except Raised Unit := do
  h.mkdirParent cache
  if h.present cache then
    let (code, stderr) ← h.git ["-C", cache, "fetch", "--prune", "origin"]
    ensure (code = 0) "RuntimeError" s!"benchmark fetch failed: {strip stderr}"
  else
    let url := s!"https://github.com/{view.repoOwner}/{view.repoName}.git"
    let (code, stderr) ← h.git ["clone", "--mirror", url, cache]
    ensure (code = 0) "RuntimeError" s!"benchmark clone failed: {strip stderr}"

def runIdCharacters : List Char :=
  "abcdefghijklmnopqrstuvwxyzABCDEFGHIJKLMNOPQRSTUVWXYZ0123456789-_".toList

/-- `WorkspaceManager(worktrees_dir).create`. -/
def createWorkspace (h : EntryHost) (dirs : EntryDirs) (cache baseCommit runId : String) :
    Except Raised String := do
  let root := h.resolve dirs.worktreesDir
  h.mkdir root
  ensure (runId ≠ "" && runId.toList.all (· ∈ runIdCharacters)) "WorkspaceError"
    "run_id contains unsupported characters"
  let destination := workspaceOf h.resolve dirs false runId
  ensure ((pathParts root).isPrefixOf (pathParts destination)) "PolicyViolation"
    s!"path escapes workspace: {runId}"
  ensure (!h.present destination) "WorkspaceError" s!"workspace already exists: {runId}"
  h.truncateGit (h.resolve cache) destination baseCommit
  pure destination

def PreparedTask.at (prepared : PreparedTask) (workspace : String) : String × PreparedTask :=
  (workspace, { prepared with workspacePath := some workspace })

def prepareWorkspace (h : EntryHost) (safeDump : Json → String) (a : CIRepairBenchAdapter)
    (entry : BenchmarkManifestEntry) (dirs : EntryDirs) (runId : String) :
    Except Raised (String × PreparedTask) := do
  let prepared ← a.prepareTask safeDump entry.taskId
  match prepared.workspacePath with
  | some path =>
    let workspace ← copyPrepared h (h.resolve path) (workspaceOf h.resolve dirs true runId)
    pure (prepared.at workspace)
  | none =>
    let view := prepared.agentView
    let cache := joinPath (h.resolve dirs.repoCacheDir) s!"{view.repoOwner}-{view.repoName}.git"
    refreshCache h view cache
    let workspace ← createWorkspace h dirs cache view.shaFail runId
    pure (prepared.at workspace)

/-! ## The initial state -/

structure RepoSpec where
  owner : String := "local"
  name : String
  baseCommit : String := "HEAD"
  deriving DecidableEq

structure CampaignProvenance where
  campaignId : String
  round : Int
  taskId : String
  runId : String
  readGeneration : Int
  deriving DecidableEq

structure InitialState where
  runId : String
  taskId : String
  repo : RepoSpec
  ciFailure : CIFailure
  workspacePath : String
  campaignProvenance : Option CampaignProvenance := none
  deriving DecidableEq

/-- `campaign.root.name` and the round, of an entry that runs in a campaign. -/
structure CampaignRound where
  name : String
  round : Int

/-- The run id of an entry: a campaign's is determined, any other has a random part. -/
def entryRunId (campaign : Option CampaignRound) (taskIndex : Nat) (token : String)
    (entry : BenchmarkManifestEntry) : String :=
  match campaign with
  | some c => s!"campaign-{c.name}-r{c.round}-{entry.taskId}"
  | none => s!"bench-{taskIndex}-{token}"

def entryFailure (entry : BenchmarkManifestEntry) (view : AgentTaskView) : CIFailure where
  summary := entry.category ++ ": " ++ String.ofList (view.ciFailure.logText.toList.take 500)
  logExcerpt := view.ciFailure.logText
  failedCommands := view.ciFailure.candidateFailedCommands
  workflowYaml := view.ciFailure.workflowYaml
  workflowPath := some view.workflowPath
  taskFamily := entry.category

def entryInitial (campaign : Option CampaignRound) (entry : BenchmarkManifestEntry)
    (view : AgentTaskView) (runId workspace : String) : InitialState where
  runId := runId
  taskId := view.taskId
  repo := { owner := view.repoOwner, name := view.repoName, baseCommit := view.shaFail }
  ciFailure := entryFailure entry view
  workspacePath := workspace
  campaignProvenance := campaign.map fun c => {
    campaignId := c.name
    round := c.round
    taskId := entry.taskId
    runId := runId
    readGeneration := c.round - 1 }

/-- `execute_entry` up to the state it starts the graph with. -/
def executeEntry (h : EntryHost) (safeDump : Json → String) (a : CIRepairBenchAdapter)
    (dirs : EntryDirs) (campaign : Option CampaignRound) (taskIndex : Nat) (token : String)
    (entry : BenchmarkManifestEntry) : Except Raised InitialState := do
  let runId := entryRunId campaign taskIndex token entry
  h.stage entry.taskId runId
  let (workspace, prepared) ← prepareWorkspace h safeDump a entry dirs runId
  h.preflight prepared workspace
  pure (entryInitial campaign entry prepared.agentView runId workspace)

/-! ## What an entry starts from -/

theorem copyPrepared_ok {h : EntryHost} {source destination workspace : String}
    (hrun : copyPrepared h source destination = .ok workspace) : workspace = destination := by
  unfold copyPrepared at hrun
  obtain ⟨_, _, hrun⟩ := bind_eq_ok.mp hrun
  obtain ⟨_, _, hrun⟩ := bind_eq_ok.mp hrun
  split at hrun
  · obtain ⟨_, _, hrun⟩ := bind_eq_ok.mp hrun
    cases hrun
    rfl
  · obtain ⟨_, _, hrun⟩ := bind_eq_ok.mp hrun
    cases hrun
    rfl

theorem createWorkspace_ok {h : EntryHost} {dirs : EntryDirs}
    {cache baseCommit runId workspace : String}
    (hrun : createWorkspace h dirs cache baseCommit runId = .ok workspace) :
    workspace = workspaceOf h.resolve dirs false runId := by
  unfold createWorkspace at hrun
  obtain ⟨_, _, hrun⟩ := bind_eq_ok.mp hrun
  obtain ⟨_, _, hrun⟩ := bind_eq_ok.mp hrun
  obtain ⟨_, _, hrun⟩ := bind_eq_ok.mp hrun
  obtain ⟨_, _, hrun⟩ := bind_eq_ok.mp hrun
  obtain ⟨_, _, hrun⟩ := bind_eq_ok.mp hrun
  cases hrun
  rfl

/-- A prepared workspace shows the agent's view of the task, at the place of the run. -/
theorem prepareWorkspace_ok {h : EntryHost} {safeDump : Json → String}
    {a : CIRepairBenchAdapter} {entry : BenchmarkManifestEntry} {dirs : EntryDirs}
    {runId workspace : String} {shown : PreparedTask}
    (hrun : prepareWorkspace h safeDump a entry dirs runId = .ok (workspace, shown)) :
    ∃ prepared, a.prepareTask safeDump entry.taskId = .ok prepared ∧
      shown.agentView = prepared.agentView ∧
      workspace = workspaceOf h.resolve dirs prepared.workspacePath.isSome runId := by
  unfold prepareWorkspace at hrun
  obtain ⟨prepared, hprepared, hrun⟩ := bind_eq_ok.mp hrun
  refine ⟨prepared, hprepared, ?_⟩
  split at hrun
  · next path hpath =>
    obtain ⟨copied, hcopied, hrun⟩ := bind_eq_ok.mp hrun
    cases hrun
    rw [hpath]
    exact ⟨rfl, copyPrepared_ok hcopied⟩
  · next hpath =>
    obtain ⟨_, _, hrun⟩ := bind_eq_ok.mp hrun
    obtain ⟨created, hcreated, hrun⟩ := bind_eq_ok.mp hrun
    cases hrun
    rw [hpath]
    exact ⟨rfl, createWorkspace_ok hcreated⟩

theorem executeEntry_ok {h : EntryHost} {safeDump : Json → String} {a : CIRepairBenchAdapter}
    {dirs : EntryDirs} {campaign : Option CampaignRound} {taskIndex : Nat} {token : String}
    {entry : BenchmarkManifestEntry} {initial : InitialState}
    (hrun : executeEntry h safeDump a dirs campaign taskIndex token entry = .ok initial) :
    ∃ prepared, a.prepareTask safeDump entry.taskId = .ok prepared ∧
      initial = entryInitial campaign entry prepared.agentView
        (entryRunId campaign taskIndex token entry)
        (workspaceOf h.resolve dirs prepared.workspacePath.isSome
          (entryRunId campaign taskIndex token entry)) := by
  unfold executeEntry at hrun
  obtain ⟨_, _, hrun⟩ := bind_eq_ok.mp hrun
  obtain ⟨⟨workspace, shown⟩, hprepare, hrun⟩ := bind_eq_ok.mp hrun
  obtain ⟨_, _, hrun⟩ := bind_eq_ok.mp hrun
  obtain ⟨prepared, hprepared, hview, hplace⟩ := prepareWorkspace_ok hprepare
  cases hrun
  rw [hview, hplace]
  exact ⟨prepared, hprepared, rfl⟩

/-! ## Two datasets -/

/-- What the entries of a benchmark share, whatever the dataset. -/
structure BenchmarkSetting where
  safeDump : Json → String
  lower : String → String
  resolve : String → String
  dirs : EntryDirs
  campaign : Option CampaignRound

/-- A task selected in a manifest of a dataset, and the state its run started with. -/
structure StartedEntry (setting : BenchmarkSetting) where
  rows : List Row
  adapter : CIRepairBenchAdapter
  loaded : CIRepairBenchAdapter.load rows = .ok adapter
  categories : List String
  perCategory : Int
  entries : List BenchmarkManifestEntry
  generated : generateBalancedManifest setting.lower adapter categories perCategory = .ok entries
  entry : BenchmarkManifestEntry
  listed : entry ∈ entries
  selected : entry.skipped = false
  host : EntryHost
  resolves : host.resolve = setting.resolve
  taskIndex : Nat
  token : String
  initial : InitialState
  started : executeEntry host setting.safeDump adapter setting.dirs setting.campaign taskIndex
    token entry = .ok initial

/-- The initial states agree in what they tell the agents, up to the run id in the path. -/
structure SameStart (setting : BenchmarkSetting) (first second : InitialState) : Prop where
  repo : first.repo = second.repo
  ciFailure : first.ciFailure = second.ciFailure
  workspace : ∃ named, first.workspacePath =
      workspaceOf setting.resolve setting.dirs named first.runId ∧
    second.workspacePath = workspaceOf setting.resolve setting.dirs named second.runId

/-- The category is all of the evaluator's fields that an initial state depends on, and it
is the label of the row. -/
theorem label_decides_start {setting : BenchmarkSetting} (first second : StartedEntry setting)
    (hrows : SameOutside first.rows second.rows)
    (htask : first.entry.taskId = second.entry.taskId) :
    SameStart setting first.initial second.initial ↔
      first.adapter.errorLabel first.entry.taskId =
        second.adapter.errorLabel first.entry.taskId := by
  have hsame := load_same hrows first.loaded second.loaded
  obtain ⟨prepared, hprepared, hfirst⟩ := executeEntry_ok first.started
  obtain ⟨other, hother, hsecond⟩ := executeEntry_ok second.started
  have hview : prepared = other := by
    rw [← htask, ← hsame.prepareTask_eq, hprepared] at hother
    exact Except.ok.inj hother
  subst hview
  have hlabel := selected_category first.generated first.listed first.selected
  have hlabel' := selected_category second.generated second.listed second.selected
  rw [← htask] at hlabel'
  rw [hlabel, hlabel', Option.some.injEq]
  rw [first.resolves] at hfirst
  rw [second.resolves] at hsecond
  constructor
  · intro h
    have hfamily := congrArg CIFailure.taskFamily h.ciFailure
    rw [hfirst, hsecond] at hfamily
    exact hfamily
  · intro hcategory
    rw [hfirst, hsecond]
    exact {
      repo := rfl
      ciFailure := by simp only [entryInitial, entryFailure, hcategory]
      workspace := ⟨prepared.workspacePath.isSome, rfl, rfl⟩ }

namespace Sample

def plainHost : EntryHost where
  resolve path := path
  isDir _ := true
  present _ := false
  mkdir _ := .ok ()
  mkdirParent _ := .ok ()
  copyWorkspace _ _ := .ok ()
  git _ := .ok (0, "")
  truncateGit _ _ _ := .ok ()
  stage _ _ := .ok ()
  preflight _ _ := .ok ()

def plainSetting : BenchmarkSetting where
  safeDump _ := ""
  lower text := text
  resolve path := path
  dirs := { worktreesDir := "/out/worktrees", repoCacheDir := "/out/repo-cache" }
  campaign := none

/-- A row of one task, with the evaluator's label and commit. -/
def labelledRow (label commit : String) : Row :=
  [("repo_owner", .str "acme"), ("repo_name", .str "app"), ("task_id", .str "t1"),
    ("workflow_path", .str ".github/workflows/ci.yml"), ("sha_fail", .str "f0"),
    ("logs", .str "Run pytest -q"), ("sha_success", .str commit), ("error_type", .str label)]

theorem labelledRow_same (label label' commit commit' : String) :
    SameOutside [labelledRow label commit] [labelledRow label' commit'] := by
  refine List.Forall₂.cons (fun name hname => ?_) List.Forall₂.nil
  simp only [evaluatorFields, List.mem_cons, List.not_mem_nil, or_false, not_or] at hname
  simp [labelledRow, Dict.get?_cons, Ne.symm hname.1, Ne.symm hname.2.2.2]

def indexedRow (label commit : String) : CIRepairBenchAdapter := [("t1", labelledRow label commit)]

theorem labelledRow_loads (label commit : String) :
    CIRepairBenchAdapter.load [labelledRow label commit] = .ok (indexedRow label commit) := by
  simp [CIRepairBenchAdapter.load, indexRows, rowTaskId, Row.field, Row.getOrNull, labelledRow,
    indexedRow, Dict.get?_cons, Dict.set, requiredText, identifierText, Json.truthy, bind,
    Except.bind]

def labelledEntry (label : String) : BenchmarkManifestEntry :=
  { taskId := "t1", category := label }

def labelledEntries (label commit : String) : List BenchmarkManifestEntry :=
  ((generateBalancedManifest id (indexedRow label commit) defaultCategories 1).toOption).getD []

def labelledStart (label : String) : InitialState where
  runId := "bench-1-k"
  taskId := "t1"
  repo := { owner := "acme", name := "app", baseCommit := "f0" }
  ciFailure := {
    summary := label ++ ": Run pytest -q"
    logExcerpt := "Run pytest -q"
    failedCommands := [["pytest", "-q"]]
    workflowPath := some ".github/workflows/ci.yml"
    taskFamily := label }
  workspacePath := "/out/worktrees/bench-1-k"

def labelledRun (label commit : String)
    (generated : generateBalancedManifest id (indexedRow label commit) defaultCategories 1 =
      .ok (labelledEntries label commit))
    (listed : labelledEntry label ∈ labelledEntries label commit)
    (started : executeEntry plainHost plainSetting.safeDump (indexedRow label commit)
      plainSetting.dirs none 1 "k" (labelledEntry label) = .ok (labelledStart label)) :
    StartedEntry plainSetting where
  rows := [labelledRow label commit]
  adapter := indexedRow label commit
  loaded := labelledRow_loads label commit
  categories := defaultCategories
  perCategory := 1
  entries := labelledEntries label commit
  generated := generated
  entry := labelledEntry label
  listed := listed
  selected := rfl
  host := plainHost
  resolves := rfl
  taskIndex := 1
  token := "k"
  initial := labelledStart label
  started := started

def linting : StartedEntry plainSetting :=
  labelledRun "Linting" "a0" (by decide +kernel) (by decide +kernel) (by decide +kernel)

def lintingElsewhere : StartedEntry plainSetting :=
  labelledRun "Linting" "b0" (by decide +kernel) (by decide +kernel) (by decide +kernel)

def formatting : StartedEntry plainSetting :=
  labelledRun "Formatting" "a0" (by decide +kernel) (by decide +kernel) (by decide +kernel)

theorem success_commit_unseen : SameStart plainSetting linting.initial lintingElsewhere.initial :=
  (label_decides_start linting lintingElsewhere (labelledRow_same _ _ _ _) rfl).mpr
    (by decide +kernel)

/-- Two datasets that differ in the label of a task alone start it from two different
failures. -/
theorem label_enters_start :
    ∃ first second : StartedEntry plainSetting, SameOutside first.rows second.rows ∧
      first.entry.taskId = second.entry.taskId ∧
      ¬ SameStart plainSetting first.initial second.initial := by
  refine ⟨linting, formatting, labelledRow_same _ _ _ _, rfl, fun h => ?_⟩
  have hfailure : (labelledStart "Linting").ciFailure = (labelledStart "Formatting").ciFailure :=
    h.ciFailure
  revert hfailure
  decide +kernel

end Sample

end EvoCI
