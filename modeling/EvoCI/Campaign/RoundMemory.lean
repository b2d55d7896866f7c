import EvoCI.Campaign.MemoryMerge
import EvoCI.Campaign.RoundGrowth
import EvoCI.Campaign.SkillMerge

/-! The campaign with the contents it has: every generation holds a memory and the skills, and both
are merged branch after branch. What is remembered stays remembered, through all rounds and
crashes. -/

namespace EvoCI

open Library

/-! ## Memories and skills -/

theorem mergeMemory_sound {lower : PyText → PyText} {source target merged : MemoryRows}
    (hsource : source.Sound) (htarget : target.Sound)
    (h : mergeMemory lower source target = .ok merged) : merged.Sound := by
  simp only [mergeMemory] at h
  split at h
  · cases h
    have hid : ∀ current row, (FactRow.replace current row).id = row.id := fun _ _ => rfl
    have hruns : ∀ current row, ReadBack current.sourceRunIds → ReadBack row.sourceRunIds →
        ReadBack (FactRow.replace current row).sourceRunIds := fun _ _ _ hrow => hrow
    exact ⟨nodup_upserts hid htarget.ids source.longTerm,
      forall_upserts hruns htarget.runs hsource.runs,
      insertNews_pairwise htarget.episodes source.episodes⟩
  · cases h

/-- The merge of a branch that goes on from the parent, as its target does. -/
theorem mergeMemory_extends {lower : PyText → PyText} {parent source target merged : MemoryRows}
    (hsource : source.Extends parent) (htarget : target.Extends parent)
    (h : mergeMemory lower source target = .ok merged) : merged.Extends parent := by
  refine ⟨mergeMemory_sound hsource.sound htarget.sound h, ?_, fun id row hrow => ?_⟩
  · have hclash : ∀ row current : EpisodeRow, row.id = current.id →
        episodeClash row current = true := by
      intro row current heq
      simp [episodeClash, heq]
    have hkept := (insertNews_spec hclash (MemoryRows.Sound.episode_ids htarget.sound.episodes)
      source.episodes).2.1
    simp only [mergeMemory] at h
    split at h
    · cases h
      exact fun _ hmem => hkept (htarget.episodes hmem)
    · cases h
  · obtain ⟨later, hlater, hcovers⟩ := hsource.facts id row hrow
    have hfact := mergeMemory_fact hsource.sound h id
    rw [hlater] at hfact
    refine ⟨_, hfact, ?_⟩
    cases target.fact id with
    | none => exact hcovers
    | some current => exact ⟨hcovers.runs, hcovers.confidence⟩

/-- The rows of a file as schema and store keep them. -/
abbrev SoundMemory := { rows : MemoryRows // rows.Sound }

def SoundMemory.merge (lower : PyText → PyText) (source target : SoundMemory) :
    Except StatementError SoundMemory :=
  match h : mergeMemory lower source.1 target.1 with
  | .error e => .error e
  | .ok merged => .ok ⟨merged, mergeMemory_sound source.2 target.2 h⟩

/-- What a task leaves of its copy. -/
def SoundMemory.work (lower : PyText → PyText) (memory : SoundMemory) (calls : List StoreCall) :
    SoundMemory :=
  ⟨branchMemory lower memory.1 calls, (branchMemory_extends memory.2 calls).sound⟩

def emptyMemory : SoundMemory := ⟨{}, ⟨.nil, nofun, .nil⟩⟩

theorem SoundMemory.merge_ok {lower : PyText → PyText} {source target merged : SoundMemory}
    (h : SoundMemory.merge lower source target = .ok merged) :
    mergeMemory lower source.1 target.1 = .ok merged.1 := by
  unfold SoundMemory.merge at h
  split at h
  · cases h
  · next rows hrows =>
    cases h
    exact hrows

/-- What a generation holds. -/
structure LearnedContent where
  memory : SoundMemory
  skills : SkillState

/-- What is not seen of the stores themselves: the files that they are, case folding, the clock and
where the campaign is. -/
structure StoreHost where
  sha256 : List UInt8 → String
  reprTask : String → String
  lower : PyText → PyText
  like : String → String → Bool
  now : Nat
  stateFiles : LearnedContent → FileTree
  skillFiles : LearnedContent → FileTree
  root : String
  /-- The skills of the directory in which the next generation is made. -/
  temporary : String
  /-- Whether the registry can be read. -/
  inventory : LearnedContent → Except Raised Unit

variable (s : StoreHost)

def StoreHost.mergeHost : MergeHost := ⟨s.sha256, s.like, s.now⟩

/-- The directory that is recorded for the skills. -/
def StoreHost.storedRoot : SkillPlace → String
  | .generation n =>
    let root := s.root
    s!"{root}/generations/generation-{n}/skills"
  | .branch round taskId =>
    let root := s.root
    s!"{root}/rounds/round-{round}/learning-delta/{taskId}/skills"

/-- The directory in which packages are looked for. -/
def StoreHost.validationRoot : SkillPlace → String
  | .generation _ => s.temporary
  | .branch round taskId => s.storedRoot (.branch round taskId)

def emptySkills : SkillState := ⟨[], ⟨[], [], [], []⟩⟩

def statementRaised : StatementError → Raised
  | .unicodeEncode => ⟨"UnicodeEncodeError", "surrogates not allowed"⟩
  | .inTransaction => ⟨"OperationalError", "cannot start a transaction within a transaction"⟩
  | .locked => ⟨"OperationalError", "database is locked"⟩

/-- The target of a merge, with the skills whose update is claimed. -/
structure MergedContent where
  memory : SoundMemory
  skills : MergedSkills

/-- The body of the loop of `_merge_branches`. -/
def mergeContent (parent : LearnedContent) (m : MergedContent) (branch : LearnedContent) :
    Except Raised MergedContent :=
  match SoundMemory.merge s.lower branch.memory m.memory with
  | .error e => .error (statementRaised e)
  | .ok memory =>
    match mergeSkills s.mergeHost s.temporary parent.skills m.skills
        ⟨branch.skills.dirs, some branch.skills.tables⟩ with
    | .error e => .error (campaignError e.message)
    | .ok skills => .ok ⟨memory, skills⟩

/-- `_merge_branches`, into a copy of the parent. -/
def mergeContents (parent : LearnedContent) (branches : List LearnedContent) :
    Except Raised LearnedContent :=
  (branches.foldlM (mergeContent s parent) ⟨parent.memory, ⟨parent.skills, []⟩⟩).map fun m =>
    ⟨m.memory, m.skills.state⟩

def relocateContent (place : SkillPlace) (content : LearnedContent) :
    Except Raised LearnedContent :=
  match relocateSkillPaths (s.storedRoot place) (s.validationRoot place) content.skills.dirs
      content.skills.tables with
  | .error e => .error (campaignError e.message)
  | .ok tables => .ok { content with skills := { content.skills with tables } }

/-- A campaign of memories and skills. -/
def learnedHost : CampaignHost LearnedContent where
  sha256 := s.sha256
  reprTask := s.reprTask
  state content := some (s.stateFiles content)
  skills content := some (s.skillFiles content)
  empty := ⟨emptyMemory, emptySkills⟩
  merge := mergeContents s
  relocate := relocateContent s
  checkpoint content := content
  inventory := s.inventory

/-! ## Packages stay where they can be recorded -/

variable {s}

theorem relocateContent_ok {place : SkillPlace} {content own : LearnedContent} :
    relocateContent s place content = .ok own ↔
      (∀ item ∈ content.skills.tables.skills,
        ((content.skills.dirs.get? item.1).bind SkillDir.package).isSome = true) ∧
      own = { content with skills := { content.skills with tables := { content.skills.tables with
        skills := content.skills.tables.skills.map fun item =>
          (item.1, item.2.moveTo (storedPackagePath (s.storedRoot place) item.1)) } } } := by
  unfold relocateContent
  cases hrun : relocateSkillPaths (s.storedRoot place) (s.validationRoot place)
      content.skills.dirs content.skills.tables with
  | error e =>
    refine ⟨nofun, fun ⟨hpackages, _⟩ => ?_⟩
    have hok : relocateSkillPaths (s.storedRoot place) (s.validationRoot place)
        content.skills.dirs content.skills.tables = .ok _ :=
      relocateSkillPaths_ok.mpr ⟨hpackages, rfl⟩
    rw [hrun] at hok
    cases hok
  | ok tables =>
    obtain ⟨hpackages, rfl⟩ := relocateSkillPaths_ok.mp hrun
    simp only [Except.ok.injEq]
    exact ⟨fun h => ⟨hpackages, h.symm⟩, fun h => h.2.symm⟩

/-- Packages that are there can be recorded wherever they are. -/
theorem learned_movable {content : LearnedContent}
    (h : ∀ item ∈ content.skills.tables.skills,
      ((content.skills.dirs.get? item.1).bind SkillDir.package).isSome = true) :
    (learnedHost s).Movable content := fun _ => ⟨_, relocateContent_ok.mpr ⟨h, rfl⟩⟩

theorem learned_relocates : (learnedHost s).Relocates where
  empty := learned_movable fun _ hitem => absurd hitem List.not_mem_nil
  again place content own hown := by
    obtain ⟨hpackages, rfl⟩ := relocateContent_ok.mp hown
    refine learned_movable fun item hitem => ?_
    obtain ⟨old, hold, rfl⟩ := List.mem_map.mp hitem
    exact hpackages old hold

/-- As long as the command does not die behind the placing of a branch, a generation is from its
publication on what it was published as. -/
theorem generations_kept (s : StoreHost) {history more : List (RoundCommand LearnedContent)}
    (hplaced : ¬ DiesBehind (learnedHost s) CampaignStep.strays (history ++ more)) {n : Nat}
    {g : Generation LearnedContent}
    (hg : (campaignAfter (learnedHost s) history).generation n = some g) :
    (campaignAfter (learnedHost s) (history ++ more)).generation n = some g ∧
      g.record.contentSha256 = (learnedHost s).hash g.content :=
  behind_kept learned_relocates hplaced hg

/-! ## Memories grow -/

/-- The memory goes on from that of the other content. -/
def MemoryGrows (content later : LearnedContent) : Prop := later.memory.1.Extends content.memory.1

theorem MemoryRows.Sound.extends_self {rows : MemoryRows} (h : rows.Sound) : rows.Extends rows :=
  ⟨h, fun _ hmem => hmem, fun _ row hrow => ⟨row, hrow, .refl row⟩⟩

theorem MemoryRows.Extends.trans {rows later last : MemoryRows} (h : later.Extends rows)
    (h' : last.Extends later) : last.Extends rows := by
  refine ⟨h'.sound, fun _ hmem => h'.episodes (h.episodes hmem), fun id row hrow => ?_⟩
  obtain ⟨middle, hmiddle, hcovers⟩ := h.facts id row hrow
  obtain ⟨final, hfinal, hcovers'⟩ := h'.facts id middle hmiddle
  exact ⟨final, hfinal, hcovers'.trans hcovers⟩

theorem mergeContents_extends {parent merged : LearnedContent} {branches : List LearnedContent}
    (hbranches : ∀ branch ∈ branches, MemoryGrows parent branch)
    (h : mergeContents s parent branches = .ok merged) : MemoryGrows parent merged := by
  unfold mergeContents at h
  have hstart : parent.memory.1.Extends parent.memory.1 := parent.memory.2.extends_self
  generalize hm : (⟨parent.memory, ⟨parent.skills, []⟩⟩ : MergedContent) = m at h
  have hmemory : m.memory.1.Extends parent.memory.1 := by
    subst hm
    exact hstart
  clear hm hstart
  induction branches generalizing m with
  | nil =>
    cases h
    exact hmemory
  | cons branch branches ih =>
    have hrest := fun other hother => hbranches other (List.mem_cons_of_mem branch hother)
    rw [List.foldlM_cons] at h
    unfold mergeContent at h
    cases hnext : SoundMemory.merge s.lower branch.memory m.memory with
    | error e =>
      rw [hnext] at h
      cases h
    | ok memory =>
      rw [hnext] at h
      cases hskills : mergeSkills s.mergeHost s.temporary parent.skills m.skills
          ⟨branch.skills.dirs, some branch.skills.tables⟩ with
      | error e =>
        rw [hskills] at h
        cases h
      | ok skills =>
        rw [hskills] at h
        exact ih hrest _ h (mergeMemory_extends (hbranches branch List.mem_cons_self) hmemory
          (SoundMemory.merge_ok hnext))

theorem learned_grows : (learnedHost s).Grows MemoryGrows where
  refl content := content.memory.2.extends_self
  trans _ _ _ h h' := h.trans h'
  merge _ _ _ hbranches h := mergeContents_extends hbranches h
  relocate place content own hown := by
    obtain ⟨-, rfl⟩ := relocateContent_ok.mp hown
    exact content.memory.2.extends_self
  checkpoint content := content.memory.2.extends_self

/-- A task writes to its memory by calls of the store, and through package paths it does not write
to memories. -/
def RoundAction.Remembers (lower : PyText → PyText) : RoundAction LearnedContent → Prop
  | .config _ => True
  | .work _ change stray => ∀ content : LearnedContent,
      (∃ calls, (change content).memory = content.memory.work lower calls) ∧
        (stray content).memory = content.memory

theorem RoundAction.Remembers.grows {action : RoundAction LearnedContent}
    (h : action.Remembers s.lower) : action.Grows MemoryGrows := by
  cases action with
  | config taskId => trivial
  | work taskId change stray =>
    intro content
    obtain ⟨⟨calls, hcalls⟩, hstray⟩ := h content
    refine ⟨?_, ?_, ?_⟩
    · rw [MemoryGrows, hcalls]
      exact branchMemory_extends content.memory.2 calls
    · rw [MemoryGrows, hstray]
      exact content.memory.2.extends_self
    · rw [MemoryGrows, hstray]
      exact content.memory.2.extends_self

/-- Whenever and wherever the command dies, a generation has at any time all episodes and all facts
with all their runs that it or an earlier generation had at any earlier time. -/
theorem generations_remember (s : StoreHost) {history more : List (RoundCommand LearnedContent)}
    (htasks : ∀ i ∈ history ++ more, ∀ action ∈ i.tasks, action.Remembers s.lower) {k n : Nat}
    (hk : k ≤ n) {g g' : Generation LearnedContent}
    (hg : (campaignAfter (learnedHost s) history).generation k = some g)
    (hg' : (campaignAfter (learnedHost s) (history ++ more)).generation n = some g') :
    g'.content.memory.1.Extends g.content.memory.1 :=
  generations_grow learned_grows (fun i hi action ha => (htasks i hi action ha).grows) hk hg hg'

namespace Sample

/-- A campaign whose files are not looked into. -/
def campaignStores : StoreHost where
  sha256 := byteText
  reprTask taskId := taskId
  lower := id
  like _ _ := false
  now := 7
  stateFiles _ := markedPackage 0
  skillFiles _ := markedPackage 0
  root := "campaign"
  temporary := "campaign/generations/new/skills"
  inventory _ := .ok ()

/-- A round whose one task makes these calls. -/
def rememberingRound (n : Nat) (calls : List StoreCall) (crash : Option Nat) :
    RoundCommand LearnedContent where
  manager := lenient "" ""
  input := plainInput n ["a"] "manifest" "dataset"
  tasks := [.config "a",
    .work "a" (fun content => { content with memory := content.memory.work id calls }) id]
  results := resolvedTasks ["a"]
  crash

theorem rememberingRound_remembers (n : Nat) (calls : List StoreCall) (crash : Option Nat) :
    ∀ action ∈ (rememberingRound n calls crash).tasks, action.Remembers id := by
  intro action haction
  simp only [rememberingRound, List.mem_cons, List.not_mem_nil, or_false] at haction
  rcases haction with rfl | rfl
  · trivial
  · exact fun content => ⟨⟨calls, rfl⟩, rfl⟩

def firstLesson : RoundCommand LearnedContent :=
  rememberingRound 1 [.addEpisode (branchEpisode "run-1" []),
    .addLongTerm pathFact (pyText "run-1") 1] none

def laterLessons : List (RoundCommand LearnedContent) :=
  [rememberingRound 2 [.archive pathFact.id] (some 4), rememberingRound 2 [] none]

theorem first_lesson_kept : ∃ g,
    (campaignAfter (learnedHost campaignStores) [firstLesson]).generation 1 = some g ∧
      (campaignAfter (learnedHost campaignStores) ([firstLesson] ++ laterLessons)).generation 1 =
        some g := by
  obtain ⟨g, hg⟩ : ∃ g,
      (campaignAfter (learnedHost campaignStores) [firstLesson]).generation 1 = some g :=
    Option.isSome_iff_exists.mp (by decide +kernel)
  exact ⟨g, hg, (generations_kept campaignStores (by decide +kernel) hg).1⟩

/-- The lesson of the first round is there behind a crash and a second round. -/
theorem first_lesson_remembered : ∃ g g',
    (campaignAfter (learnedHost campaignStores) [firstLesson]).generation 1 = some g ∧
      (campaignAfter (learnedHost campaignStores) ([firstLesson] ++ laterLessons)).generation 2 =
        some g' ∧ g.content.memory.1.episodes.length = 1 ∧
          g'.content.memory.1.Extends g.content.memory.1 := by
  have htasks : ∀ i ∈ [firstLesson] ++ laterLessons, ∀ action ∈ i.tasks,
      action.Remembers campaignStores.lower := by
    intro i hi
    simp only [firstLesson, laterLessons, List.mem_append, List.mem_cons, List.not_mem_nil,
      or_false] at hi
    rcases hi with rfl | rfl | rfl
    · exact rememberingRound_remembers _ _ _
    · exact rememberingRound_remembers _ _ _
    · exact rememberingRound_remembers _ _ _
  obtain ⟨g, hg⟩ : ∃ g,
      (campaignAfter (learnedHost campaignStores) [firstLesson]).generation 1 = some g :=
    Option.isSome_iff_exists.mp (by decide +kernel)
  obtain ⟨g', hg'⟩ : ∃ g', (campaignAfter (learnedHost campaignStores)
      ([firstLesson] ++ laterLessons)).generation 2 = some g' :=
    Option.isSome_iff_exists.mp (by decide +kernel)
  have hlength : ((campaignAfter (learnedHost campaignStores) [firstLesson]).generation 1).map
      (fun g => g.content.memory.1.episodes.length) = some 1 := by decide +kernel
  rw [hg] at hlength
  exact ⟨g, g', hg, hg', Option.some.inj hlength,
    generations_remember campaignStores htasks (by decide) hg hg'⟩

end Sample

end EvoCI
