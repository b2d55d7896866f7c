import Mathlib.Data.List.Pairwise
import EvoCI.Library.JsonWriter
import EvoCI.Library.Keyed
import EvoCI.Memory.FullText

/-! The merge of the memories of a round: every task works on a copy of the parent's file, and the
files go into the next generation one after another, rows that are told twice as the later branch
has them. -/

namespace EvoCI

open Library

/-! ## A task's copy -/

/-- The calls by which a task writes, and its process beginning anew. -/
inductive StoreCall where
  | addEpisode (episode : EpisodeRow)
  | addLongTerm (memory : FactRow) (operationKey : PyText) (now : Nat)
  | recordOperation (operationKey : PyText)
  | archive (memoryId : PyText)
  | access (found : List PyText) (now : Nat)
  | reopen

def StoreCall.perform (lower : PyText → PyText) (call : StoreCall) (f : MemoryFile) :
    MemoryFile :=
  match call with
  | .addEpisode episode => (f.addEpisode lower episode).2
  | .addLongTerm memory operationKey now => (f.addLongTerm memory operationKey now).2
  | .recordOperation operationKey => f.recordOperation operationKey
  | .archive memoryId => (f.archive memoryId).2
  | .access found now => f.access found now
  | .reopen => ⟨f.committed, none⟩

/-- `task_config` copies the parent's state; what a task leaves is what it committed. -/
def branchMemory (lower : PyText → PyText) (parent : MemoryRows) (calls : List StoreCall) :
    MemoryRows :=
  (Run.run (StoreCall.perform lower) ⟨parent, none⟩ calls).committed

/-- The memories of `_merge_branches`: a branch without a file gives nothing. -/
def mergeMemories (lower : PyText → PyText) (branches : List (Option MemoryRows))
    (parent : MemoryRows) : Except StatementError MemoryRows :=
  branches.foldlM (fun target branch =>
    match branch with
    | none => .ok target
    | some source => mergeMemory lower source target) parent

/-! ## What a copy keeps -/

theorem joinSurrogates_head (unit : Nat) (units : List Nat) :
    ∃ first rest, JsonText.joinSurrogates (unit :: units) = first :: rest ∧
      (first = unit ∨ 0x10000 ≤ first) := by
  cases units with
  | nil => exact ⟨unit, [], by simp [JsonText.joinSurrogates], .inl rfl⟩
  | cons low units =>
    rw [JsonText.joinSurrogates]
    split
    · exact ⟨_, _, rfl, .inr (by omega)⟩
    · exact ⟨_, _, rfl, .inl rfl⟩

/-- A text that was joined has no pair left. -/
theorem joinSurrogates_idem (text : PyText) :
    JsonText.joinSurrogates (JsonText.joinSurrogates text) = JsonText.joinSurrogates text := by
  fun_induction JsonText.joinSurrogates text with
  | case1 high low units hpair ih =>
    rw [JsonText.joinSurrogates_cons (by omega), ih]
  | case2 high low units hpair ih =>
    obtain ⟨first, rest, heq, hfirst⟩ := joinSurrogates_head low units
    rw [heq] at ih ⊢
    rw [JsonText.joinSurrogates, if_neg, ih]
    omega
  | case3 units hshort =>
    rw [JsonText.joinSurrogates]
    exact hshort

/-- A list that was read back. -/
def ReadBack (items : List PyText) : Prop := ∀ item ∈ items, JsonText.joinSurrogates item = item

theorem readBack_throughJson (items : List PyText) : ReadBack (throughJson items) := by
  intro item hitem
  obtain ⟨text, -, rfl⟩ := List.mem_map.mp hitem
  exact joinSurrogates_idem text

theorem mem_distinct {kept items : List PyText} {item : PyText} :
    item ∈ items.foldl (fun kept item => if item ∈ kept then kept else kept ++ [item]) kept ↔
      item ∈ kept ∨ item ∈ items := by
  induction items generalizing kept with
  | nil => simp
  | cons first items ih =>
    rw [List.foldl_cons, ih, List.mem_cons]
    split
    · next hthere =>
      constructor
      · exact fun h => h.imp_right .inr
      · rintro (h | rfl | h)
        · exact .inl h
        · exact .inl hthere
        · exact .inr h
    · rw [List.mem_append, List.mem_singleton, or_assoc]

def MemoryRows.fact (rows : MemoryRows) (id : PyText) : Option FactRow :=
  rows.longTerm.find? fun row => row.id = id

/-- The row tells at least the runs of the other, as surely at least. -/
structure FactRow.Covers (row other : FactRow) : Prop where
  runs : other.sourceRunIds ⊆ row.sourceRunIds
  confidence : other.confidence ≤ row.confidence

theorem FactRow.Covers.refl (row : FactRow) : row.Covers row := ⟨fun _ h => h, le_rfl⟩

theorem FactRow.Covers.trans {row other third : FactRow} (h : row.Covers other)
    (h' : other.Covers third) : row.Covers third :=
  ⟨fun _ hrun => h.runs (h'.runs hrun), h'.confidence.trans h.confidence⟩

/-- What the schema and the store promise of the rows of a file. -/
structure MemoryRows.Sound (rows : MemoryRows) : Prop where
  ids : (rows.longTerm.map FactRow.id).Nodup
  runs : ∀ row ∈ rows.longTerm, ReadBack row.sourceRunIds
  episodes : rows.episodes.Pairwise fun row other => episodeClash other row = false

/-- The rows go on from the parent's: no episode is lost, no fact, and none of its runs. -/
structure MemoryRows.Extends (rows parent : MemoryRows) : Prop where
  sound : rows.Sound
  episodes : parent.episodes ⊆ rows.episodes
  facts : ∀ id row, parent.fact id = some row → ∃ later, rows.fact id = some later ∧
    later.Covers row

theorem MemoryRows.fact_map {rows : MemoryRows} {change : FactRow → FactRow}
    (hid : ∀ row, (change row).id = row.id) (operations : List PyText) (id : PyText) :
    MemoryRows.fact
        { rows with longTerm := rows.longTerm.map change, operations := operations } id =
      (rows.fact id).map change := by
  simp only [MemoryRows.fact, List.find?_map, Function.comp_def, hid]

/-- A change of the facts that keeps what they tell. -/
theorem MemoryRows.Extends.change {rows parent : MemoryRows} (h : rows.Extends parent)
    {change : FactRow → FactRow} (hid : ∀ row, (change row).id = row.id)
    (hcovers : ∀ row ∈ rows.longTerm, (change row).Covers row)
    (hruns : ∀ row ∈ rows.longTerm, ReadBack (change row).sourceRunIds)
    (operations : List PyText) :
    MemoryRows.Extends { rows with longTerm := rows.longTerm.map change, operations := operations }
      parent := by
  refine ⟨⟨?_, ?_, h.sound.episodes⟩, h.episodes, fun id row hrow => ?_⟩
  · rw [List.map_map]
    have heq : FactRow.id ∘ change = FactRow.id := funext hid
    rw [heq]
    exact h.sound.ids
  · intro row hrow
    obtain ⟨old, hold, rfl⟩ := List.mem_map.mp hrow
    exact hruns old hold
  · obtain ⟨later, hlater, hcovered⟩ := h.facts id row hrow
    refine ⟨change later, ?_, (hcovers later (List.mem_of_find?_eq_some hlater)).trans hcovered⟩
    rw [MemoryRows.fact_map hid, hlater, Option.map_some]

section Extends

variable {lower : PyText → PyText} {rows parent : MemoryRows}

/-- Only the episodes and the facts count. -/
theorem MemoryRows.Extends.congr (h : rows.Extends parent) {other : MemoryRows}
    (hepisodes : other.episodes = rows.episodes) (hfacts : other.longTerm = rows.longTerm) :
    other.Extends parent := by
  refine ⟨⟨?_, ?_, ?_⟩, ?_, fun id row hrow => ?_⟩
  · exact hfacts ▸ h.sound.ids
  · exact hfacts ▸ h.sound.runs
  · exact hepisodes ▸ h.sound.episodes
  · exact hepisodes ▸ h.episodes
  · simp only [MemoryRows.fact, hfacts]
    exact h.facts id row hrow

theorem MemoryRows.Extends.addEpisode (h : rows.Extends parent) {e : EpisodeRow}
    (hfree : rows.episodes.any (episodeClash e) = false) :
    MemoryRows.Extends { rows with episodes := rows.episodes ++ [e.stored] } parent := by
  refine ⟨⟨h.sound.ids, h.sound.runs, ?_⟩,
    fun _ hmem => List.mem_append_left _ (h.episodes hmem), h.facts⟩
  refine List.pairwise_append.mpr ⟨h.sound.episodes, List.pairwise_singleton _ _, ?_⟩
  intro row hrow other hother
  rw [List.mem_singleton.mp hother]
  exact Bool.eq_false_iff.mpr (List.any_eq_false.mp hfree row hrow)

theorem MemoryRows.Extends.addFact (h : rows.Extends parent) {memory : FactRow}
    (hnew : memory.id ∉ rows.longTerm.map FactRow.id) (hruns : ReadBack memory.sourceRunIds) :
    MemoryRows.Extends { rows with longTerm := rows.longTerm ++ [memory] } parent := by
  refine ⟨⟨?_, ?_, h.sound.episodes⟩, h.episodes, fun id row hrow => ?_⟩
  · rw [List.map_append, List.map_singleton]
    refine List.nodup_append.mpr ⟨h.sound.ids, List.nodup_singleton _, fun a ha b hb heq => ?_⟩
    exact hnew (List.mem_singleton.mp hb ▸ heq ▸ ha)
  · intro row hrow
    rcases List.mem_append.mp hrow with hrow | hrow
    · exact h.sound.runs row hrow
    · exact List.mem_singleton.mp hrow ▸ hruns
  · obtain ⟨later, hlater, hcovered⟩ := h.facts id row hrow
    refine ⟨later, ?_, hcovered⟩
    simp only [MemoryRows.fact] at hlater ⊢
    rw [List.find?_append, hlater, Option.some_or]

theorem FactRow.merge_covers {current : FactRow} (hruns : ReadBack current.sourceRunIds)
    (now : Nat) (memory : FactRow) : (current.merge now memory).Covers current := by
  refine ⟨fun run hrun => ?_, le_max_left _ _⟩
  refine List.mem_map.mpr ⟨run, ?_, hruns run hrun⟩
  exact mem_distinct.mpr (.inr (List.mem_append_left _ hrun))

/-- What the file holds, and what its open transaction would leave. -/
structure MemoryFile.Extends (f : MemoryFile) (parent : MemoryRows) : Prop where
  committed : f.committed.Extends parent
  current : f.current.Extends parent

theorem MemoryFile.Extends.of_closed (h : rows.Extends parent) :
    MemoryFile.Extends ⟨rows, none⟩ parent := ⟨h, h⟩

theorem MemoryFile.Extends.of_open {f : MemoryFile} (h : f.Extends parent)
    (hrows : rows.Extends parent) : MemoryFile.Extends { f with pending := some rows } parent :=
  ⟨h.committed, hrows⟩

theorem addEpisode_extends {f : MemoryFile} (h : f.Extends parent) (e : EpisodeRow) :
    (f.addEpisode lower e).2.Extends parent := by
  simp only [MemoryFile.addEpisode]
  split
  · exact h.of_open h.current
  · split
    · exact .of_closed h.current
    · next hfree =>
      have hinserted := h.current.addEpisode (Bool.eq_false_iff.mpr hfree)
      split
      · exact .of_closed (hinserted.congr rfl rfl)
      · exact h.of_open hinserted

theorem addLongTerm_extends {f : MemoryFile} (h : f.Extends parent) (memory : FactRow)
    (operationKey : PyText) (now : Nat) :
    (f.addLongTerm memory operationKey now).2.Extends parent := by
  have hrows := h.committed
  simp only [MemoryFile.addLongTerm]
  split
  · exact .of_closed hrows
  · split
    · exact .of_closed hrows
    · split
      · exact .of_closed hrows
      · split
        · exact .of_closed hrows
        · split
          · refine .of_closed (hrows.change (fun row => ?_) (fun row hrow => ?_)
              (fun row hrow => ?_) _)
            · split <;> rfl
            · split
              · exact FactRow.merge_covers (hrows.sound.runs row hrow) now memory
              · exact .refl row
            · split
              · exact readBack_throughJson _
              · exact hrows.sound.runs row hrow
          · next hnew =>
            split
            · have hfact : MemoryRows.Extends { f.committed with longTerm :=
                  f.committed.longTerm ++ [{ memory with
                    sourceRunIds := throughJson memory.sourceRunIds, archived := false }] }
                  parent := hrows.addFact hnew (readBack_throughJson _)
              exact .of_closed (hfact.congr rfl rfl)
            · exact .of_closed hrows

/-- A mark on facts that tells nothing of their runs. -/
theorem MemoryRows.Extends.mark (h : rows.Extends parent) {change : FactRow → FactRow}
    (hid : ∀ row, (change row).id = row.id)
    (hruns : ∀ row, (change row).sourceRunIds = row.sourceRunIds)
    (hconfidence : ∀ row, (change row).confidence = row.confidence) :
    MemoryRows.Extends { rows with longTerm := rows.longTerm.map change } parent := by
  refine h.change hid (fun row _ => ⟨?_, ?_⟩) (fun row hrow => ?_) rows.operations
  · rw [hruns]
    exact fun _ hrun => hrun
  · rw [hconfidence]
  · rw [hruns]
    exact h.sound.runs row hrow

theorem archive_extends {f : MemoryFile} (h : f.Extends parent) (memoryId : PyText) :
    (f.archive memoryId).2.Extends parent := by
  simp only [MemoryFile.archive]
  split
  · refine .of_closed (h.current.mark (fun row => ?_) (fun row => ?_) fun row => ?_)
    · split <;> rfl
    · split <;> rfl
    · split <;> rfl
  · exact h.of_open h.current

theorem access_extends {f : MemoryFile} (h : f.Extends parent) (found : List PyText)
    (now : Nat) : (f.access found now).Extends parent := by
  refine .of_closed (h.current.mark (fun row => ?_) (fun row => ?_) fun row => ?_)
  · split <;> rfl
  · split <;> rfl
  · split <;> rfl

theorem recordOperation_extends {f : MemoryFile} (h : f.Extends parent)
    (operationKey : PyText) : (f.recordOperation operationKey).Extends parent := by
  simp only [MemoryFile.recordOperation]
  split
  · exact h.of_open h.current
  · split
    · exact .of_closed h.current
    · exact .of_closed (h.current.congr rfl rfl)

theorem storeCall_extends {f : MemoryFile} (h : f.Extends parent) (call : StoreCall) :
    (call.perform lower f).Extends parent := by
  cases call with
  | addEpisode episode => exact addEpisode_extends h episode
  | addLongTerm memory operationKey now => exact addLongTerm_extends h memory operationKey now
  | recordOperation operationKey => exact recordOperation_extends h operationKey
  | archive memoryId => exact archive_extends h memoryId
  | access found now => exact access_extends h found now
  | reopen => exact .of_closed h.committed

/-- A task's copy goes on from the parent, whatever calls it makes. -/
theorem branchMemory_extends (hparent : parent.Sound) (calls : List StoreCall) :
    (branchMemory lower parent calls).Extends parent := by
  have hstart : MemoryFile.Extends ⟨parent, none⟩ parent := .of_closed
    ⟨hparent, fun _ hmem => hmem, fun _ row hrow => ⟨row, hrow, .refl row⟩⟩
  have hkept : ∀ (f : MemoryFile) (call : StoreCall), f.Extends parent →
      (call.perform lower f).Extends parent := fun _ call h => storeCall_extends h call
  exact (Run.invariant hkept hstart calls).committed

end Extends

/-! ## Facts after a merge -/

/-- Of the rows of a fact, in the order in which they are merged, the last one, with the time of
creation of the first. -/
def settledFact : List FactRow → Option FactRow
  | [] => none
  | first :: rest => some (first.replace (rest.getLastD first))

theorem settledFact_concat (found : List FactRow) (row : FactRow) :
    settledFact (found ++ [row]) =
      some ((settledFact found).elim row fun current => current.replace row) := by
  cases found with
  | nil => rfl
  | cons first rest =>
    rw [List.cons_append, settledFact, List.getLastD_concat]
    rfl

/-- The contents of the episodes can be bound. -/
def MemoryRows.Told (lower : PyText → PyText) (rows : MemoryRows) : Prop :=
  ∀ row ∈ rows.episodes, Bindable (row.content lower)

section Merge

variable {lower : PyText → PyText} {parent : MemoryRows}

theorem mergeMemory_fact {source target merged : MemoryRows} (hsource : source.Sound)
    (h : mergeMemory lower source target = .ok merged) (id : PyText) :
    merged.fact id = match source.fact id with
      | none => target.fact id
      | some row => some ((target.fact id).elim row fun current => current.replace row) := by
  have hview := Keyed.foldl_find (Keyed.upsert_local FactRow.id FactRow.replace fun _ _ => rfl)
    hsource.ids target.longTerm id
  simp only [mergeMemory] at h
  split at h
  · cases h
    cases hfact : source.fact id with
    | none =>
      rw [MemoryRows.fact] at hfact
      rw [hfact] at hview
      exact hview
    | some row =>
      rw [MemoryRows.fact] at hfact
      rw [hfact] at hview
      exact hview
  · cases h

/-- The merge of branches, as it is seen of one fact. -/
theorem mergeMemories_fact {branches : List (Option MemoryRows)}
    (hbranches : ∀ branch ∈ branches, ∀ source ∈ branch, source.Sound)
    {target merged : MemoryRows} (h : mergeMemories lower branches target = .ok merged)
    {id : PyText} {found : List FactRow} (htarget : target.fact id = settledFact found) :
    merged.fact id = settledFact
      (found ++ branches.filterMap fun branch => branch.bind fun source => source.fact id) := by
  induction branches generalizing target found with
  | nil =>
    obtain rfl := Except.ok.inj h
    rw [List.filterMap_nil, List.append_nil, htarget]
  | cons branch branches ih =>
    have hrest := fun other hother => hbranches other (List.mem_cons_of_mem branch hother)
    obtain ⟨next, hnext, hlast⟩ := bind_eq_ok.mp h
    cases branch with
    | none =>
      obtain rfl := Except.ok.inj hnext
      exact ih hrest hlast htarget
    | some source =>
      have hfact := mergeMemory_fact (hbranches _ List.mem_cons_self source rfl) hnext id
      rw [List.filterMap_cons, Option.bind_some]
      cases hsource : source.fact id with
      | none =>
        rw [hsource] at hfact
        exact ih hrest hlast (hfact.trans htarget)
      | some row =>
        rw [hsource, htarget] at hfact
        have hconcat := ih hrest hlast (hfact.trans (settledFact_concat found row).symm)
        rwa [List.append_assoc, List.singleton_append] at hconcat

/-! ## Episodes after a merge -/

theorem MemoryRows.Sound.episode_ids {rows : MemoryRows}
    (h : rows.episodes.Pairwise fun row other => episodeClash other row = false) :
    (rows.episodes.map EpisodeRow.id).Nodup := by
  rw [List.Nodup, List.pairwise_map]
  refine h.imp fun {row other} hfree heq => ?_
  simp [episodeClash, heq] at hfree

theorem insertNews_pairwise {ρ : Type} {clash : ρ → ρ → Bool} {base : List ρ}
    (h : base.Pairwise fun row other => clash other row = false) (rows : List ρ) :
    (rows.foldl (insertNew clash) base).Pairwise fun row other => clash other row = false := by
  induction rows generalizing base with
  | nil => exact h
  | cons row rows ih =>
    apply ih
    unfold insertNew
    split
    · exact h
    · next hfree =>
      refine List.pairwise_append.mpr ⟨h, List.pairwise_singleton _ _, fun old hold new hnew => ?_⟩
      rw [List.mem_singleton.mp hnew]
      exact Bool.eq_false_iff.mpr fun hclash => hfree (List.any_eq_true.mpr ⟨old, hold, hclash⟩)

/-- The episodes of a merge, of the rows that it began with and of those that were put in. -/
structure EpisodesMerged (rows : MemoryRows) (base : List EpisodeRow)
    (added : List EpisodeRow) : Prop where
  apart : rows.episodes.Pairwise fun row other => episodeClash other row = false
  kept : base ⊆ rows.episodes
  from_either : ∀ row ∈ rows.episodes, row ∈ base ∨ row ∈ added
  represented : ∀ row ∈ added, ∃ kept ∈ rows.episodes, episodeClash row kept = true

theorem mergeMemory_episodes {source target : MemoryRows} {base added : List EpisodeRow}
    (h : EpisodesMerged target base added)
    (htold : ∀ row ∈ base ++ added ++ source.episodes, Bindable (row.content lower)) :
    ∃ merged, mergeMemory lower source target = .ok merged ∧
      EpisodesMerged merged base (added ++ source.episodes) := by
  have hclash : ∀ row current : EpisodeRow, row.id = current.id →
      episodeClash row current = true := by
    intro row current heq
    simp [episodeClash, heq]
  obtain ⟨-, hsub, hfrom, hthere⟩ :=
    insertNews_spec hclash (MemoryRows.Sound.episode_ids h.apart) source.episodes
  have hall : ∀ row ∈ source.episodes.foldl (insertNew episodeClash) target.episodes,
      row ∈ base ∨ row ∈ added ++ source.episodes := by
    intro row hrow
    rcases hfrom row hrow with hold | hnew
    · exact (h.from_either row hold).imp_right (List.mem_append_left _)
    · exact .inr (List.mem_append_right _ hnew)
  refine ⟨_, if_pos fun row hrow => ?_, ⟨insertNews_pairwise h.apart _,
    fun _ hmem => hsub (h.kept hmem), hall, fun row hrow => ?_⟩⟩
  · rcases hall row hrow with hrow | hrow
    · exact htold row (List.mem_append_left _ (List.mem_append_left _ hrow))
    · rw [List.append_assoc] at htold
      exact htold row (List.mem_append_right _ hrow)
  · rcases List.mem_append.mp hrow with hold | hnew
    · obtain ⟨kept, hkept, hsame⟩ := h.represented row hold
      exact ⟨kept, hsub hkept, hsame⟩
    · exact hthere row hnew

theorem mergeMemories_episodes {branches : List (Option MemoryRows)} {target : MemoryRows}
    {base added : List EpisodeRow} (h : EpisodesMerged target base added)
    (htold : ∀ row ∈ base ++ added, Bindable (row.content lower))
    (hbranches : ∀ branch ∈ branches, ∀ source ∈ branch, source.Told lower) :
    ∃ merged, mergeMemories lower branches target = .ok merged ∧
      EpisodesMerged merged base
        (added ++ branches.flatMap fun branch => (branch.map MemoryRows.episodes).getD []) := by
  induction branches generalizing target added with
  | nil =>
    rw [List.flatMap_nil, List.append_nil]
    exact ⟨target, rfl, h⟩
  | cons branch branches ih =>
    have hrest := fun other hother => hbranches other (List.mem_cons_of_mem branch hother)
    rw [List.flatMap_cons, ← List.append_assoc]
    cases branch with
    | none =>
      rw [Option.map_none, Option.getD_none, List.append_nil]
      exact ih h htold hrest
    | some source =>
      rw [Option.map_some, Option.getD_some]
      have hsource : ∀ row ∈ base ++ added ++ source.episodes, Bindable (row.content lower) := by
        intro row hrow
        rcases List.mem_append.mp hrow with hold | hnew
        · exact htold row hold
        · exact hbranches _ List.mem_cons_self source rfl row hnew
      obtain ⟨next, hnext, hmerged⟩ := mergeMemory_episodes h hsource
      rw [List.append_assoc] at hsource
      obtain ⟨merged, hok, hlast⟩ := ih hmerged hsource hrest
      exact ⟨merged, bind_eq_ok.mpr ⟨next, hnext, hok⟩, hlast⟩

/-- The merge goes through where the index takes all episodes. -/
theorem mergeMemories_told (hparent : parent.Sound) (htold : parent.Told lower)
    {branches : List (Option MemoryRows)}
    (hbranches : ∀ branch ∈ branches, ∀ source ∈ branch, source.Told lower) :
    ∃ merged, mergeMemories lower branches parent = .ok merged ∧
      EpisodesMerged merged parent.episodes
        (branches.flatMap fun branch => (branch.map MemoryRows.episodes).getD []) := by
  have hstart : EpisodesMerged parent parent.episodes [] :=
    ⟨hparent.episodes, fun _ hmem => hmem, fun _ hmem => .inl hmem, fun _ hmem => nomatch hmem⟩
  rw [MemoryRows.Told, ← List.append_nil parent.episodes] at htold
  obtain ⟨merged, hok, hmerged⟩ := mergeMemories_episodes hstart htold hbranches
  rw [List.nil_append] at hmerged
  exact ⟨merged, hok, hmerged⟩

theorem mem_branchEpisodes {branches : List (Option MemoryRows)} {e : EpisodeRow} :
    e ∈ branches.flatMap (fun branch => (branch.map MemoryRows.episodes).getD []) ↔
      ∃ branch ∈ branches, ∃ source ∈ branch, e ∈ source.episodes := by
  rw [List.mem_flatMap]
  refine exists_congr fun branch => and_congr_right fun _ => ?_
  cases branch with
  | none => simp
  | some source => simp

/-! ## Rounds -/

variable (lower parent) in
/-- What the tasks of a round leave; one whose file is missing leaves none. -/
def branchMemories (tasks : List (Option (List StoreCall))) : List (Option MemoryRows) :=
  tasks.map (Option.map (branchMemory lower parent))

theorem branchMemories_perm {order tasks : List (Option (List StoreCall))}
    (h : order.Perm tasks) :
    (branchMemories lower parent order).Perm (branchMemories lower parent tasks) := h.map _

theorem branchMemories_extends (hparent : parent.Sound)
    {tasks : List (Option (List StoreCall))} {branch : Option MemoryRows} {source : MemoryRows}
    (h : branch ∈ branchMemories lower parent tasks) (hsource : source ∈ branch) :
    source.Extends parent := by
  obtain ⟨task, -, rfl⟩ := List.mem_map.mp h
  obtain ⟨calls, -, rfl⟩ := Option.map_eq_some_iff.mp hsource
  exact branchMemory_extends hparent calls

/-- The rows that parent and branches have of a fact. -/
def tellers (parent : MemoryRows) (branches : List (Option MemoryRows)) (id : PyText) :
    List FactRow :=
  (parent.fact id).toList ++
    branches.filterMap fun branch => branch.bind fun source => source.fact id

/-- The row has the runs of all rows and their greatest confidence. -/
structure FactRow.Unites (row : FactRow) (found : List FactRow) : Prop where
  runs : ∀ run, run ∈ row.sourceRunIds ↔ ∃ other ∈ found, run ∈ other.sourceRunIds
  bound : ∀ other ∈ found, other.confidence ≤ row.confidence
  attained : ∃ other ∈ found, other.confidence = row.confidence

theorem FactRow.Unites.covers {row : FactRow} {found : List FactRow} (h : row.Unites found)
    {other : FactRow} (hother : other ∈ found) : row.Covers other :=
  ⟨fun run hrun => (h.runs run).mpr ⟨other, hother, hrun⟩, h.bound other hother⟩

/-- The settled row unites those of which the last covers all. -/
theorem unites_of_last {found : List FactRow} {last : FactRow} (hlast : last ∈ found)
    (hcovers : ∀ other ∈ found, last.Covers other) (first : FactRow) :
    (first.replace last).Unites found where
  runs _ := ⟨fun hrun => ⟨last, hlast, hrun⟩,
    fun ⟨other, hother, hrun⟩ => (hcovers other hother).runs hrun⟩
  bound other hother := (hcovers other hother).confidence
  attained := ⟨last, hlast, rfl⟩

theorem settledFact_last (found : List FactRow) (row : FactRow) :
    ∃ first : FactRow, settledFact (found ++ [row]) = some (first.replace row) := by
  rw [settledFact_concat]
  cases settledFact found with
  | none => exact ⟨row, rfl⟩
  | some first => exact ⟨first, rfl⟩

theorem mem_tellers {branches : List (Option MemoryRows)} {id : PyText} {row : FactRow} :
    row ∈ tellers parent branches id ↔ parent.fact id = some row ∨
      ∃ branch ∈ branches, ∃ source ∈ branch, source.fact id = some row := by
  simp only [tellers, List.mem_append, Option.mem_toList, Option.mem_def, List.mem_filterMap,
    Option.bind_eq_some_iff]

/-- The row of a fact in the last branch comes last. -/
theorem tellers_concat {tasks : List (Option (List StoreCall))} {task : Option (List StoreCall)}
    {source : MemoryRows} (hsource : source ∈ task.map (branchMemory lower parent)) {id : PyText}
    {row : FactRow} (hrow : source.fact id = some row) :
    tellers parent (branchMemories lower parent (tasks ++ [task])) id =
      tellers parent (branchMemories lower parent tasks) id ++ [row] := by
  have hbind : ((task.map (branchMemory lower parent)).bind fun source => source.fact id) =
      some row := by
    rw [Option.mem_def.mp hsource, Option.bind_some, hrow]
  simp only [tellers, branchMemories, List.map_append, List.filterMap_append, List.map_cons,
    List.map_nil, List.filterMap_cons, hbind, List.filterMap_nil, List.append_assoc]

/-- Where the branches cover each other, the last row covers all: it is a branch's, unless there is
the parent's alone. -/
theorem tellers_covered (hparent : parent.Sound) {tasks : List (Option (List StoreCall))}
    (h : ∀ branch ∈ branchMemories lower parent tasks,
      ∀ other ∈ branchMemories lower parent tasks, ∀ source ∈ branch, ∀ source' ∈ other,
        ∀ id row row', source.fact id = some row → source'.fact id = some row' → row.Covers row')
    {id : PyText} (hne : tellers parent (branchMemories lower parent tasks) id ≠ []) :
    ∃ front last, tellers parent (branchMemories lower parent tasks) id = front ++ [last] ∧
      ∀ other ∈ tellers parent (branchMemories lower parent tasks) id, last.Covers other := by
  rcases List.eq_nil_or_concat ((branchMemories lower parent tasks).filterMap fun branch =>
      branch.bind fun source => source.fact id) with hnone | ⟨front, last, hlast⟩
  · have hparentOnly : tellers parent (branchMemories lower parent tasks) id =
        (parent.fact id).toList := by rw [tellers, hnone, List.append_nil]
    rw [hparentOnly] at hne ⊢
    cases hfact : parent.fact id with
    | none => exact absurd (by rw [hfact, Option.toList_none]) hne
    | some row =>
      refine ⟨[], row, rfl, fun other hother => ?_⟩
      rw [Option.toList_some, List.mem_singleton] at hother
      rw [hother]
      exact .refl row
  · rw [List.concat_eq_append] at hlast
    refine ⟨(parent.fact id).toList ++ front, last, ?_, fun other hother => ?_⟩
    · rw [tellers, hlast, List.append_assoc]
    · have hin : last ∈ (branchMemories lower parent tasks).filterMap fun branch =>
          branch.bind fun source => source.fact id := by
        rw [hlast]
        exact List.mem_append_right _ List.mem_cons_self
      obtain ⟨branch, hbranch, hbind⟩ := List.mem_filterMap.mp hin
      obtain ⟨source, hsource, hrow⟩ := Option.bind_eq_some_iff.mp hbind
      rcases mem_tellers.mp hother with hold | ⟨branch', hb', source', hs', hother⟩
      · obtain ⟨later, hlater, hcovered⟩ :=
          (branchMemories_extends hparent hbranch hsource).facts id other hold
        obtain rfl : last = later := Option.some.inj (hrow.symm.trans hlater)
        exact hcovered
      · exact h branch hbranch branch' hb' source hsource source' hs' id last other hrow hother

/-- The merge of a round settles each fact on the last row that tells it. -/
theorem mergeMemories_settles (hparent : parent.Sound) (htold : parent.Told lower)
    {tasks : List (Option (List StoreCall))}
    (hbranches : ∀ branch ∈ branchMemories lower parent tasks, ∀ source ∈ branch,
      source.Told lower) :
    ∃ merged, mergeMemories lower (branchMemories lower parent tasks) parent = .ok merged ∧
      ∀ id, merged.fact id =
        settledFact (tellers parent (branchMemories lower parent tasks) id) := by
  obtain ⟨merged, hok, -⟩ := mergeMemories_told hparent htold hbranches
  refine ⟨merged, hok, fun id => mergeMemories_fact (fun branch hb source hs =>
    (branchMemories_extends hparent hb hs).sound) hok ?_⟩
  cases parent.fact id <;> rfl

/-- In every order of the tasks their merge goes through and gives each fact all its runs and its
greatest confidence. -/
def FactsUnited (lower : PyText → PyText) (parent : MemoryRows)
    (tasks : List (Option (List StoreCall))) : Prop :=
  ∀ order : List (Option (List StoreCall)), order.Perm tasks → ∃ merged,
    mergeMemories lower (branchMemories lower parent order) parent = .ok merged ∧
    ∀ id, tellers parent (branchMemories lower parent tasks) id ≠ [] → ∃ row,
      merged.fact id = some row ∧
        row.Unites (tellers parent (branchMemories lower parent tasks) id)

/-- The facts are united in every order just when the branches that have a fact tell the same of
it: the last branch's row stands. -/
theorem facts_united_iff (hparent : parent.Sound) (htold : parent.Told lower)
    {tasks : List (Option (List StoreCall))}
    (hbranches : ∀ branch ∈ branchMemories lower parent tasks, ∀ source ∈ branch,
      source.Told lower) :
    FactsUnited lower parent tasks ↔
    ∀ branch ∈ branchMemories lower parent tasks, ∀ other ∈ branchMemories lower parent tasks,
      ∀ source ∈ branch, ∀ source' ∈ other, ∀ id row row', source.fact id = some row →
        source'.fact id = some row' → row.Covers row' := by
  have hmerge {order : List (Option (List StoreCall))} (h : order.Perm tasks) :=
    mergeMemories_settles hparent htold fun branch hb =>
      hbranches branch ((branchMemories_perm h).mem_iff.mp hb)
  constructor
  · intro h branch hbranch other hother source hsource source' hsource' id row row' hrow hrow'
    obtain ⟨task, htask, rfl⟩ := List.mem_map.mp hbranch
    obtain ⟨before, after, rfl⟩ := List.append_of_mem htask
    -- the branch goes last
    have horder : (before ++ after ++ [task]).Perm (before ++ task :: after) := by
      rw [List.append_assoc]
      exact (List.perm_append_singleton task after).append_left before
    obtain ⟨merged, hok, hfacts⟩ := hmerge horder
    obtain ⟨merged', hok', hunited⟩ := h _ horder
    obtain rfl : merged = merged' := Except.ok.inj (hok.symm.trans hok')
    have hthere :
        row' ∈ tellers parent (branchMemories lower parent (before ++ task :: after)) id :=
      mem_tellers.mpr (.inr ⟨other, hother, source', hsource', hrow'⟩)
    obtain ⟨united, hfact, hunites⟩ := hunited id (List.ne_nil_of_mem hthere)
    obtain ⟨first, hsettled⟩ := settledFact_last
      (tellers parent (branchMemories lower parent (before ++ after)) id) row
    rw [hfacts id, tellers_concat hsource hrow, hsettled] at hfact
    obtain rfl := Option.some.inj hfact
    have hcovers := hunites.covers hthere
    exact ⟨hcovers.runs, hcovers.confidence⟩
  · intro h order horder
    obtain ⟨merged, hok, hfacts⟩ := hmerge horder
    refine ⟨merged, hok, fun id hne => ?_⟩
    have hperm : (branchMemories lower parent order).Perm (branchMemories lower parent tasks) :=
      branchMemories_perm horder
    have hmem : ∀ row, row ∈ tellers parent (branchMemories lower parent order) id ↔
        row ∈ tellers parent (branchMemories lower parent tasks) id := by
      intro row
      simp only [mem_tellers, hperm.mem_iff]
    have hne' : tellers parent (branchMemories lower parent order) id ≠ [] := by
      obtain ⟨row, hrow⟩ := List.exists_mem_of_ne_nil _ hne
      exact List.ne_nil_of_mem ((hmem row).mpr hrow)
    obtain ⟨front, last, hfound, hcovers⟩ := tellers_covered hparent
      (fun branch hb other ho => h branch (hperm.mem_iff.mp hb) other (hperm.mem_iff.mp ho)) hne'
    obtain ⟨first, hsettled⟩ := settledFact_last front last
    refine ⟨first.replace last, by rw [hfacts id, hfound, hsettled],
      unites_of_last ?_ (fun other hother => hcovers other ((hmem other).mpr hother)) first⟩
    rw [← hmem, hfound]
    exact List.mem_append_right _ List.mem_cons_self

/-- The merge has all episodes of parent and branches just when episodes of two branches that have
their id or their run in common are the same. -/
theorem episodes_united_iff (hparent : parent.Sound) (htold : parent.Told lower)
    {tasks : List (Option (List StoreCall))}
    (hbranches : ∀ branch ∈ branchMemories lower parent tasks, ∀ source ∈ branch,
      source.Told lower) :
    (∃ merged, mergeMemories lower (branchMemories lower parent tasks) parent = .ok merged ∧
      ∀ e, e ∈ merged.episodes ↔ e ∈ parent.episodes ∨
        ∃ branch ∈ branchMemories lower parent tasks, ∃ source ∈ branch, e ∈ source.episodes) ↔
    ∀ branch ∈ branchMemories lower parent tasks, ∀ other ∈ branchMemories lower parent tasks,
      ∀ source ∈ branch, ∀ source' ∈ other, ∀ e ∈ source.episodes, ∀ e' ∈ source'.episodes,
        episodeClash e e' = true → e = e' := by
  obtain ⟨merged, hok, hmerged⟩ := mergeMemories_told hparent htold hbranches
  constructor
  · rintro ⟨merged', hok', hall⟩ branch hbranch other hother source hsource source' hsource' e he
      e' he' hclash
    obtain rfl : merged = merged' := Except.ok.inj (hok.symm.trans hok')
    have hin := (hall e).mpr (.inr ⟨branch, hbranch, source, hsource, he⟩)
    have hin' := (hall e').mpr (.inr ⟨other, hother, source', hsource', he'⟩)
    have hsymmetric : Std.Symm fun row other : EpisodeRow => episodeClash other row = false := by
      refine ⟨fun row other hfree => ?_⟩
      rw [episodeClash, decide_eq_false_iff_not] at hfree ⊢
      exact fun hclash => hfree (hclash.imp Eq.symm Eq.symm)
    by_contra hne
    have hfree := hmerged.apart.forall hin' hin (Ne.symm hne)
    rw [hclash] at hfree
    cases hfree
  · intro h
    refine ⟨merged, hok, fun e => ⟨fun he => ?_, ?_⟩⟩
    · exact (hmerged.from_either e he).imp_right mem_branchEpisodes.mp
    · rintro (he | hthere)
      · exact hmerged.kept he
      · obtain ⟨kept, hkept, hclash⟩ := hmerged.represented e (mem_branchEpisodes.mpr hthere)
        obtain ⟨branch, hbranch, source, hsource, he⟩ := hthere
        rcases hmerged.from_either kept hkept with hold | hnew
        · have hsame := (branchMemories_extends hparent hbranch hsource).episodes hold
          rw [h branch hbranch branch hbranch source hsource source hsource e he kept hsame hclash]
          exact hkept
        · obtain ⟨other, hother, source', hsource', he'⟩ := mem_branchEpisodes.mp hnew
          rw [h branch hbranch other hother source hsource source' hsource' e he kept he' hclash]
          exact hkept

end Merge

instance (lower : PyText → PyText) (rows : MemoryRows) : Decidable (rows.Told lower) :=
  inferInstanceAs (Decidable (∀ row ∈ rows.episodes, Bindable (row.content lower)))

namespace Sample

def pathMemory : MemoryRows := { longTerm := [pathFact] }

theorem pathMemory_sound : pathMemory.Sound where
  ids := by decide +kernel
  runs := by
    intro row hrow
    obtain rfl := List.mem_singleton.mp hrow
    have hruns : ∀ run ∈ pathFact.sourceRunIds, JsonText.joinSurrogates run = run := by
      decide +kernel
    exact hruns
  episodes := .nil

/-- A task that finds the inherited fact confirmed. -/
def confirmingTask (runId : String) : Option (List StoreCall) :=
  some [.addEpisode (branchEpisode runId []),
    .addLongTerm { pathFact with sourceRunIds := [pyText runId] } (pyText runId) 1]

def confirmingTasks : List (Option (List StoreCall)) :=
  [confirmingTask "run-2", none, confirmingTask "run-3"]

/-- Two tasks confirm an inherited fact, and one of the runs is lost. -/
theorem confirmed_run_lost : ¬ FactsUnited id pathMemory confirmingTasks := by
  intro h
  have hruns : ∃ row row', (branchMemory id pathMemory ((confirmingTask "run-2").getD [])).fact
        (pyText "fact") = some row ∧
      (branchMemory id pathMemory ((confirmingTask "run-3").getD [])).fact (pyText "fact") =
        some row' ∧ ¬ row'.sourceRunIds ⊆ row.sourceRunIds := by
    exact ⟨_, _, rfl, rfl, by decide +kernel⟩
  obtain ⟨row, row', hrow, hrow', hlost⟩ := hruns
  have hmem : ∀ runId ∈ ["run-2", "run-3"],
      (confirmingTask runId).map (branchMemory id pathMemory) ∈
        branchMemories id pathMemory confirmingTasks := by
    intro runId hrun
    refine List.mem_map_of_mem ?_
    rcases List.mem_pair.mp hrun with rfl | rfl
    · exact List.mem_cons_self
    · exact List.mem_cons_of_mem _ (List.mem_cons_of_mem _ List.mem_cons_self)
  have hsame := (facts_united_iff pathMemory_sound (by decide +kernel) (by decide +kernel)).mp h
    _ (hmem "run-2" (by decide)) _ (hmem "run-3" (by decide)) _ rfl _ rfl _ row row' hrow hrow'
  exact hlost hsame.runs

theorem both_episodes_kept : ∃ merged,
    mergeMemories id (branchMemories id pathMemory confirmingTasks) pathMemory = .ok merged ∧
      (branchEpisode "run-2" []).stored ∈ merged.episodes ∧
      (branchEpisode "run-3" []).stored ∈ merged.episodes := by
  have htold : pathMemory.Told id := by decide +kernel
  have hbranches : ∀ branch ∈ branchMemories id pathMemory confirmingTasks, ∀ source ∈ branch,
      source.Told id := by decide +kernel
  obtain ⟨merged, hok, hall⟩ :=
    (episodes_united_iff pathMemory_sound htold hbranches).mpr (by decide +kernel)
  exact ⟨merged, hok, (hall _).mpr (.inr (by decide +kernel)),
    (hall _).mpr (.inr (by decide +kernel))⟩

end Sample

end EvoCI
