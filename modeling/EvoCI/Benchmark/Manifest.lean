import EvoCI.Benchmark.Adapter

/-! The balanced manifest: for each category the first tasks of that label, and a skipped
entry for every slot left over. -/

namespace EvoCI

open Library

structure BenchmarkManifestEntry where
  taskId : String
  category : String
  source : String := "ci-repair-bench"
  skipped : Bool := false
  skipReason : Option String := none
  deriving DecidableEq

def defaultCategories : List String :=
  ["Formatting", "Linting", "Type Checking", "Test Failure", "Dependency", "Configuration"]

/-- `values[:count]`. -/
def sliceTo {α : Type} (count : Int) (values : List α) : List α :=
  if 0 ≤ count then values.take count.toNat else values.take (values.length + count).toNat

/-- The tasks of each label among the categories, in the order of the dataset. -/
def fillBuckets (a : CIRepairBenchAdapter) (categories : List String) :
    Dict String (List String) → List TaskMeta → Except Raised (Dict String (List String))
  | buckets, [] => .ok buckets
  | buckets, task :: tasks => do
    let truth ← a.groundTruth task.taskId
    let label := truth.errorType
    if label ∈ categories then
      fillBuckets a categories
        (buckets.set label ((Dict.get? buckets label).getD [] ++ [task.taskId])) tasks
    else fillBuckets a categories buckets tasks

def twoDigits (n : Nat) : String := if n < 10 then "0" ++ toString n else toString n

/-- `category.lower().replace(" ", "-")`. -/
def categorySlug (lower : String → String) (category : String) : String :=
  String.ofList ((lower category).toList.map fun c => if c = ' ' then '-' else c)

def emptySlot (lower : String → String) (category : String) (slot : Nat) :
    BenchmarkManifestEntry where
  taskId := "select-" ++ categorySlug lower category ++ "-" ++ twoDigits slot
  category := category
  skipped := true
  skipReason := some
    "No additional reproducible task of this category exists in the local export."

def categoryEntries (lower : String → String) (perCategory : Int)
    (buckets : Dict String (List String)) (category : String) : List BenchmarkManifestEntry :=
  let selected := sliceTo perCategory ((Dict.get? buckets category).getD [])
  selected.map (fun taskId => { taskId := taskId, category := category }) ++
    (List.range' (selected.length + 1) (perCategory.toNat - selected.length)).map
      (emptySlot lower category)

def generateBalancedManifest (lower : String → String) (a : CIRepairBenchAdapter)
    (categories : List String) (perCategory : Int) :
    Except Raised (List BenchmarkManifestEntry) := do
  let tasks ← a.listTasks
  let buckets ← fillBuckets a categories [] tasks
  pure (categories.flatMap (categoryEntries lower perCategory buckets))

/-! ## Selected tasks -/

/-- Every task in a bucket carries the label of the bucket. -/
def Labelled (a : CIRepairBenchAdapter) (buckets : Dict String (List String)) : Prop :=
  ∀ label taskId, taskId ∈ (Dict.get? buckets label).getD [] → a.errorLabel taskId = some label

theorem Labelled.append {a : CIRepairBenchAdapter} {buckets : Dict String (List String)}
    (h : Labelled a buckets) {label taskId : String} (hlabel : a.errorLabel taskId = some label) :
    Labelled a (buckets.set label ((Dict.get? buckets label).getD [] ++ [taskId])) := by
  intro other task hmem
  rw [Dict.get?_set] at hmem
  split at hmem
  · next hother =>
    subst hother
    rcases List.mem_append.mp hmem with hold | hnew
    · exact h other task hold
    · rw [List.mem_singleton.mp hnew]
      exact hlabel
  · exact h other task hmem

theorem fillBuckets_labelled {a : CIRepairBenchAdapter} {categories : List String}
    (tasks : List TaskMeta) {start buckets : Dict String (List String)}
    (h : fillBuckets a categories start tasks = .ok buckets) (hstart : Labelled a start) :
    Labelled a buckets := by
  induction tasks generalizing start with
  | nil =>
    cases h
    exact hstart
  | cons task tasks ih =>
    unfold fillBuckets at h
    cases htruth : a.groundTruth task.taskId with
    | error e =>
      rw [htruth] at h
      cases h
    | ok truth =>
      rw [htruth] at h
      simp only [bind, Except.bind] at h
      split at h
      · exact ih h (hstart.append (CIRepairBenchAdapter.groundTruth_errorLabel htruth))
      · exact ih h hstart

theorem mem_sliceTo {α : Type} {count : Int} {values : List α} {value : α}
    (h : value ∈ sliceTo count values) : value ∈ values := by
  unfold sliceTo at h
  split at h
  · exact List.mem_of_mem_take h
  · exact List.mem_of_mem_take h

/-- A selected task stands under its own label. -/
theorem selected_category {lower : String → String} {a : CIRepairBenchAdapter}
    {categories : List String} {perCategory : Int} {entries : List BenchmarkManifestEntry}
    (h : generateBalancedManifest lower a categories perCategory = .ok entries)
    {entry : BenchmarkManifestEntry} (hmem : entry ∈ entries) (hselected : entry.skipped = false) :
    a.errorLabel entry.taskId = some entry.category := by
  unfold generateBalancedManifest at h
  cases htasks : a.listTasks with
  | error e =>
    rw [htasks] at h
    cases h
  | ok tasks =>
    rw [htasks] at h
    simp only [bind, Except.bind] at h
    split at h
    · cases h
    next buckets hbuckets =>
    cases h
    have hlabelled : Labelled a buckets :=
      fillBuckets_labelled tasks hbuckets fun _ _ hnone => by simp at hnone
    obtain ⟨category, _, hentry⟩ := List.mem_flatMap.mp hmem
    unfold categoryEntries at hentry
    rcases List.mem_append.mp hentry with hchosen | hslot
    · obtain ⟨taskId, htask, rfl⟩ := List.mem_map.mp hchosen
      exact hlabelled category taskId (mem_sliceTo htask)
    · obtain ⟨slot, _, rfl⟩ := List.mem_map.mp hslot
      cases hselected

end EvoCI
