import Mathlib.Algebra.BigOperators.Group.List.Basic
import Mathlib.Data.Finset.Card
import Mathlib.Data.Finset.Dedup
import Mathlib.Data.String.Basic
import EvoCI.Capability.Registry
import EvoCI.Domain
import EvoCI.Memory.Retrieval

/-! The catalog of enabled skills that a failure is shown: the skills are ranked by the words they
share with it and by the text index, which is asked for 32 of the words. -/

namespace EvoCI

/-! ## Tokens -/

def skillStopwords : List String :=
  ["bug", "command", "error", "failed", "failure", "file", "fix", "none", "python", "pytest",
    "test", "tests"]

def maxDescriptionChars : Nat := 400

/-- The words as they are put into the set. -/
def skillTokenList (lower : String → String) (text : String) : List String :=
  (findRuns isAsciiWord 3 [] (lower text).toList).filter fun token => token ∉ skillStopwords

/-- `_tokens`. -/
def skillTokens (lower : String → String) (text : String) : Finset String :=
  (skillTokenList lower text).toFinset

/-- The order in which a process walks a set of strings that were put in one after the other. -/
structure SetOrder where
  iterate : List String → List String
  perm : ∀ items, (iterate items).Perm items.dedup

/-- The words that `_query` asks for. -/
def queryTokens (order : SetOrder) (lower : String → String) (text : String) : List String :=
  (firstOccurrences (order.iterate (skillTokenList lower text))).take 32

/-! ## Ranking -/

/-- The keys of the table `skills`. -/
structure SkillListing (db : SkillDatabase) where
  ids : List String
  nodup : ids.Nodup
  complete : ∀ id, id ∈ ids ↔ (db.skills id).isSome = true

structure SkillCatalogEntry where
  skillId : String
  name : String
  description : String
  deriving DecidableEq, Repr

structure SkillCatalog where
  entries : List SkillCatalogEntry
  omittedCount : Nat
  contextChars : Nat
  deriving DecidableEq, Repr

/-- What the retrieval rests on. -/
structure SkillSearch where
  /-- `str.lower`. -/
  lower : String → String
  /-- `abs(bm25(skill_fts))` of a skill that matches the quoted words, joined by `OR` in this
  order: the index adds up the words as floats, one after the other. -/
  rank : List (String × String) → List String → String → Option Rat
  /-- `overlap + 1.0 / (1.0 + rank)`, as floats are added and divided. -/
  boosted : Nat → Rat → Rat

/-- `fts_rank`: without a word the index is not asked. -/
def SkillSearch.ftsRank (search : SkillSearch) (index : List (String × String))
    (tokens : List String) (skillId : String) : Option Rat :=
  if tokens = [] then none else search.rank index tokens skillId

/-- `manifest.get("name") or skill_id`. -/
def catalogName (skillId : String) (manifest : SkillManifest) : String :=
  if manifest.name = "" then skillId else manifest.name

/-- `_rank_score`. -/
def rankScore (lower : String → String) (name : String) (manifest : SkillManifest)
    (failure : CIFailure) : Nat :=
  let query := skillTokens lower (failure.taskFamily ++ " " ++ failure.summary ++ " " ++
    String.ofList (failure.logExcerpt.toList.take 1200))
  let skill := skillTokens lower (" ".intercalate
    (name :: manifest.description :: (manifest.triggers ++ manifest.taskFamilies)))
  (query ∩ skill).card + 4 * (skillTokens lower failure.taskFamily ∩ skill).card

/-- With nothing added for a skill that did not match. -/
def SkillSearch.total (search : SkillSearch) (overlap : Nat) (rank : Option Rat) : Rat :=
  rank.elim overlap (search.boosted overlap)

structure RankedSkill where
  score : Rat
  entry : SkillCatalogEntry
  deriving DecidableEq

def rankedSkill (search : SkillSearch) (db : SkillDatabase) (tokens : List String)
    (failure : CIFailure) (skillId : String) (manifest : SkillManifest) : RankedSkill :=
  let name := catalogName skillId manifest
  ⟨search.total (rankScore search.lower name manifest failure)
      (search.ftsRank db.fts tokens skillId),
    ⟨skillId, name, manifest.description⟩⟩

/-- `(-score, skill_id)`. -/
def RankedSkill.before (first second : RankedSkill) : Prop :=
  second.score < first.score ∨
    (first.score = second.score ∧ first.entry.skillId ≤ second.entry.skillId)

instance : DecidableRel RankedSkill.before := fun _ _ => inferInstanceAs (Decidable (_ ∨ (_ ∧ _)))

/-- The enabled rows, `ORDER BY skill_id`. -/
def enabledSkills {db : SkillDatabase} (listing : SkillListing db) :
    List (String × SkillManifest) :=
  (listing.ids.insertionSort (· ≤ ·)).filterMap fun id => (db.skills id).bind fun row =>
    if row.enabled then some (id, row.manifest) else none

/-- The enabled skills, best first, when the index is asked for these words. -/
def ranking (search : SkillSearch) {db : SkillDatabase} (listing : SkillListing db)
    (failure : CIFailure) (tokens : List String) : List SkillCatalogEntry :=
  (((enabledSkills listing).map fun skill =>
    rankedSkill search db tokens failure skill.1 skill.2).insertionSort
      RankedSkill.before).map fun ranked => ranked.entry

/-! ## The catalog -/

def truncate (text : String) (limit : Nat) : String :=
  if limit = 0 then ""
  else if text.length ≤ limit then text
  else if limit = 1 then "…"
  else String.ofList (rstrip (text.toList.take (limit - 1))) ++ "…"

def SkillCatalogEntry.chars (entry : SkillCatalogEntry) : Nat :=
  entry.skillId.length + entry.name.length + entry.description.length

def SkillCatalogEntry.truncated (entry : SkillCatalogEntry) (limit : Nat) : SkillCatalogEntry :=
  { entry with description := truncate entry.description limit }

def totalChars (entries : List SkillCatalogEntry) : Nat :=
  (entries.map SkillCatalogEntry.chars).sum

/-- The last entries are dropped while the rest is too long; the last one of all is cut. -/
def fitLoop (limit : Nat) : Nat → List SkillCatalogEntry → Nat → List SkillCatalogEntry × Nat
  | 0, fitted, omitted => (fitted, omitted)
  | fuel + 1, fitted, omitted =>
    if fitted ≠ [] ∧ limit < totalChars fitted then
      match fitted with
      | [only] => ([only.truncated (limit - only.skillId.length - only.name.length)], omitted)
      | fitted => fitLoop limit fuel fitted.dropLast (omitted + 1)
    else (fitted, omitted)

/-- With a description of 400 characters at most. -/
def SkillCatalogEntry.brief (entry : SkillCatalogEntry) : SkillCatalogEntry :=
  if maxDescriptionChars < entry.description.length then entry.truncated maxDescriptionChars
  else entry

/-- `_fit_catalog`. -/
def fitCatalog (entries : List SkillCatalogEntry) (limit : Nat) : SkillCatalog :=
  let (kept, omitted) := fitLoop limit entries.length (entries.map SkillCatalogEntry.brief) 0
  ⟨kept, omitted, totalChars kept⟩

def retrievalText (repo : String) (failure : CIFailure) : String :=
  repo ++ " " ++ failure.taskFamily ++ " " ++ failure.summary ++ " " ++
    String.ofList (failure.logExcerpt.toList.take 2000)

/-- `CapabilityRetriever.retrieve` for the repository of that full name, in a process that walks its
sets in that order. -/
def retrieveSkills (search : SkillSearch) (order : SetOrder) {db : SkillDatabase}
    (listing : SkillListing db) (repo : String) (failure : CIFailure) (limit : Nat) :
    SkillCatalog :=
  fitCatalog (ranking search listing failure
    (queryTokens order search.lower (retrievalText repo failure))) limit

/-! ## Fitting -/

theorem truncate_length (text : String) (limit : Nat) : (truncate text limit).length ≤ limit := by
  unfold truncate
  split
  · exact Nat.zero_le _
  · split
    · assumption
    · split
      · next h => rw [h]; decide
      · next hzero _ _ =>
        have hstrip : (rstrip (text.toList.take (limit - 1))).length ≤
            (text.toList.take (limit - 1)).length := by
          rw [rstrip, List.length_reverse]
          refine (List.dropWhile_suffix _).length_le.trans ?_
          rw [List.length_reverse]
        have htake := List.length_take_le (limit - 1) text.toList
        rw [String.length_append, String.length_ofList]
        have hone : "…".length = 1 := by decide
        omega

def SkillCatalogEntry.label (entry : SkillCatalogEntry) : String × String :=
  (entry.skillId, entry.name)

/-- As many of the entries are kept: they fit unless it is one alone, and they do not fit any
more with the next one. -/
structure Keeps (limit : Nat) (entries : List SkillCatalogEntry) (kept : Nat) : Prop where
  pos : entries ≠ [] → 0 < kept
  le : kept ≤ entries.length
  fits : totalChars (entries.take kept) ≤ limit ∨ kept = 1
  full : kept < entries.length → limit < totalChars (entries.take (kept + 1))

/-- The last one of all is cut. -/
def cutAlone (limit : Nat) (kept : List SkillCatalogEntry) : List SkillCatalogEntry :=
  if limit < totalChars kept then
    kept.map fun only => only.truncated (limit - only.skillId.length - only.name.length)
  else kept

theorem totalChars_take_le (entries : List SkillCatalogEntry) (count : Nat) :
    totalChars (entries.take count) ≤ totalChars entries := by
  have hsplit := congrArg totalChars (List.take_append_drop count entries)
  unfold totalChars at hsplit ⊢
  rw [List.map_append, List.sum_append] at hsplit
  omega

theorem exists_keeps (limit : Nat) (entries : List SkillCatalogEntry) :
    ∃ kept, Keeps limit entries kept := by
  induction entries using List.reverseRecOn with
  | nil =>
    exact ⟨0, fun h => absurd rfl h, le_rfl, .inl (Nat.zero_le _), fun h => absurd h (by simp)⟩
  | append_singleton entries last ih =>
    by_cases hshort : totalChars (entries ++ [last]) ≤ limit
    · refine ⟨(entries ++ [last]).length, fun h => List.length_pos_iff.mpr h, le_rfl, .inl ?_,
        fun h => absurd h (lt_irrefl _)⟩
      rwa [List.take_length]
    · by_cases hnil : entries = []
      · subst hnil
        exact ⟨1, fun _ => one_pos, le_rfl, .inr rfl, fun h => absurd h (lt_irrefl _)⟩
      · obtain ⟨kept, h⟩ := ih
        have hle := h.le
        refine ⟨kept, fun _ => h.pos hnil, by simp; omega, ?_, fun hlt => ?_⟩
        · rw [List.take_append_of_le_length hle]
          exact h.fits
        · by_cases hall : kept = entries.length
          · rw [List.take_of_length_le (by simp [hall])]
            omega
          · rw [List.take_append_of_le_length (by omega)]
            exact h.full (by omega)

theorem fitLoop_of_keeps {limit fuel omitted kept : Nat} {fitted : List SkillCatalogEntry}
    (h : Keeps limit fitted kept) (hfuel : fitted.length ≤ fuel) :
    fitLoop limit fuel fitted omitted =
      (cutAlone limit (fitted.take kept), omitted + (fitted.length - kept)) := by
  induction fuel generalizing fitted omitted with
  | zero =>
    obtain rfl := List.length_eq_zero_iff.mp (Nat.le_zero.mp hfuel)
    simp [fitLoop, cutAlone, totalChars]
  | succ fuel ih =>
    have hle := h.le
    simp only [fitLoop]
    split
    · next hlong =>
      split
      · next only =>
        have hone : kept = 1 := le_antisymm hle (h.pos (List.cons_ne_nil _ _))
        subst hone
        simp [cutAlone, hlong.2]
      · next hmany =>
        have hfew : kept < fitted.length := by
          refine lt_of_le_of_ne hle fun hall => ?_
          rcases h.fits with hfits | hone
          · rw [hall, List.take_length] at hfits
            omega
          · rw [hone] at hall
            obtain ⟨only, rfl⟩ := List.length_eq_one_iff.mp hall.symm
            exact hmany only rfl
        have htake : ∀ count < fitted.length, fitted.dropLast.take count = fitted.take count := by
          intro count hcount
          rw [List.dropLast_eq_take, List.take_take, Nat.min_eq_left (by omega)]
        have hlength : fitted.dropLast.length = fitted.length - 1 := List.length_dropLast
        have hkeeps : Keeps limit fitted.dropLast kept := by
          refine ⟨fun _ => h.pos hlong.1, by omega, ?_, fun hlt => ?_⟩
          · rw [htake kept hfew]
            exact h.fits
          · rw [htake (kept + 1) (by omega)]
            exact h.full hfew
        rw [ih hkeeps (by omega), htake kept hfew, hlength]
        · simp only [Prod.mk.injEq, true_and]
          omega
    · next hshort =>
      rw [not_and_or, not_not, not_lt] at hshort
      have hall : kept = fitted.length := by
        by_contra hne
        have hfull := h.full (lt_of_le_of_ne hle hne)
        have htotal := totalChars_take_le fitted (kept + 1)
        rcases hshort with hnil | hfits
        · rw [hnil, List.length_nil] at hle
          rw [hnil, List.length_nil] at hne
          omega
        · omega
      have hfits : ¬ limit < totalChars fitted := by
        rcases hshort with rfl | hfits
        · simp [totalChars]
        · omega
      rw [hall, List.take_length, cutAlone, if_neg hfits, Nat.sub_self, Nat.add_zero]

theorem SkillCatalogEntry.brief_label (entry : SkillCatalogEntry) :
    entry.brief.label = entry.label := by
  unfold brief
  split <;> rfl

theorem cutAlone_label (limit : Nat) (kept : List SkillCatalogEntry) :
    (cutAlone limit kept).map SkillCatalogEntry.label = kept.map SkillCatalogEntry.label := by
  unfold cutAlone
  split
  · rw [List.map_map]
    rfl
  · rfl

/-- The catalog of the entries that are kept. -/
def keptCatalog (limit : Nat) (entries : List SkillCatalogEntry) (omitted : Nat) : SkillCatalog :=
  let kept := cutAlone limit (entries.map SkillCatalogEntry.brief)
  ⟨kept, omitted, totalChars kept⟩

theorem fitCatalog_of_keeps {limit kept : Nat} {entries : List SkillCatalogEntry}
    (h : Keeps limit (entries.map SkillCatalogEntry.brief) kept) :
    fitCatalog entries limit = keptCatalog limit (entries.take kept) (entries.length - kept) := by
  unfold fitCatalog keptCatalog
  rw [fitLoop_of_keeps h (List.length_map _).le, List.map_take]
  simp

theorem keptCatalog_labels (limit : Nat) (entries : List SkillCatalogEntry) (omitted : Nat) :
    (keptCatalog limit entries omitted).entries.map SkillCatalogEntry.label =
      entries.map SkillCatalogEntry.label := by
  rw [keptCatalog, cutAlone_label, List.map_map]
  exact List.map_congr_left fun entry _ => entry.brief_label

theorem fitCatalog_spec (ranked : List SkillCatalogEntry) (limit : Nat) :
    (fitCatalog ranked limit).entries.map SkillCatalogEntry.label =
        (ranked.map SkillCatalogEntry.label).take (fitCatalog ranked limit).entries.length ∧
      (fitCatalog ranked limit).entries.length + (fitCatalog ranked limit).omittedCount =
        ranked.length := by
  obtain ⟨kept, h⟩ := exists_keeps limit (ranked.map SkillCatalogEntry.brief)
  have hle := h.le
  rw [List.length_map] at hle
  have hlabels := keptCatalog_labels limit (ranked.take kept) (ranked.length - kept)
  have hlength := congrArg List.length hlabels
  rw [List.length_map, List.length_map, List.length_take, Nat.min_eq_left hle] at hlength
  rw [fitCatalog_of_keeps h, hlabels, hlength, List.map_take]
  refine ⟨rfl, ?_⟩
  show kept + (ranked.length - kept) = ranked.length
  omega

/-- Only a single entry can be too long, when its id and name are. -/
theorem fitCatalog_chars (ranked : List SkillCatalogEntry) (limit : Nat) :
    (fitCatalog ranked limit).contextChars ≤ limit ↔ ∀ best rest, ranked = best :: rest →
      best.skillId.length + best.name.length ≤ limit := by
  obtain ⟨kept, h⟩ := exists_keeps limit (ranked.map SkillCatalogEntry.brief)
  rw [fitCatalog_of_keeps h]
  show totalChars (cutAlone limit ((ranked.take kept).map SkillCatalogEntry.brief)) ≤ limit ↔ _
  cases ranked with
  | nil => simp [cutAlone, totalChars]
  | cons best rest =>
    have hpos := h.pos (by simp)
    obtain ⟨count, rfl⟩ := Nat.exists_eq_add_of_lt hpos
    have hfits := h.fits
    rw [Nat.zero_add, ← List.map_take, List.take_succ_cons] at hfits
    rw [Nat.zero_add, List.take_succ_cons]
    obtain ⟨hid, hname⟩ := Prod.mk.inj best.brief_label
    have hbest : (∀ first others, best :: rest = first :: others →
        first.skillId.length + first.name.length ≤ limit) ↔
        best.brief.skillId.length + best.brief.name.length ≤ limit := by
      rw [hid, hname]
      refine ⟨fun hall => hall best rest rfl, fun hle first others heq => ?_⟩
      obtain ⟨rfl, -⟩ := List.cons.inj heq
      exact hle
    rw [hbest, cutAlone]
    split
    · next hlong =>
      have hnone : count = 0 := by
        have hone := hfits.resolve_left (by omega)
        omega
      subst hnone
      have htrunc := truncate_length best.brief.description
        (limit - best.brief.skillId.length - best.brief.name.length)
      simp only [List.take_zero, List.map_cons, List.map_nil, totalChars,
        SkillCatalogEntry.truncated, SkillCatalogEntry.chars, List.sum_cons, List.sum_nil]
      omega
    · next hshort =>
      have hall := not_lt.mp hshort
      have hfirst : totalChars ((best :: rest.take count).map SkillCatalogEntry.brief) =
          best.brief.chars + totalChars ((rest.take count).map SkillCatalogEntry.brief) := rfl
      simp only [hall, true_iff]
      rw [hfirst, SkillCatalogEntry.chars] at hall
      omega

/-! ## The order of the words -/

theorem firstOccurrences_nodup {items : List String} (h : items.Nodup) :
    firstOccurrences items = items := by
  suffices hfold : ∀ kept, (kept ++ items).Nodup →
      items.foldl (fun kept item => if item ∈ kept then kept else kept ++ [item]) kept =
        kept ++ items from hfold [] h
  clear h
  induction items with
  | nil => exact fun kept _ => (List.append_nil kept).symm
  | cons item items ih =>
    intro kept hnodup
    have hnew : item ∉ kept := fun hmem =>
      (List.disjoint_of_nodup_append hnodup) hmem List.mem_cons_self
    rw [List.foldl_cons, if_neg hnew, ih, List.append_assoc, List.singleton_append]
    rwa [List.append_assoc, List.singleton_append]

/-- Words that may be asked for, in their order: distinct ones of the text, as many as there are
and 32 at most. -/
structure Choice (tokens chosen : List String) : Prop where
  nodup : chosen.Nodup
  among : chosen ⊆ tokens
  length : chosen.length = min 32 tokens.dedup.length

theorem choice_of_order (order : SetOrder) (lower : String → String) (text : String) :
    Choice (skillTokenList lower text) (queryTokens order lower text) := by
  have hperm := order.perm (skillTokenList lower text)
  have hnodup := hperm.nodup_iff.mpr (List.nodup_dedup _)
  rw [queryTokens, firstOccurrences_nodup hnodup]
  refine ⟨hnodup.sublist (List.take_sublist _ _), fun token h => ?_, ?_⟩
  · exact List.mem_dedup.mp (hperm.subset ((List.take_sublist _ _).subset h))
  · rw [List.length_take, hperm.length_eq]

/-- The order that walks these strings first. -/
def SetOrder.first (chosen : List String) : SetOrder where
  iterate items := chosen.dedup.filter (fun item => item ∈ items) ++
    items.dedup.filter fun item => ¬ item ∈ chosen
  perm items := by
    have hnodup : (chosen.dedup.filter (fun item => item ∈ items) ++
        items.dedup.filter fun item => ¬ item ∈ chosen).Nodup := by
      have hchosen := List.nodup_dedup chosen
      refine List.nodup_append.mpr ⟨hchosen.filter _, (List.nodup_dedup _).filter _, ?_⟩
      rintro item hfirst other hother rfl
      rw [List.mem_filter, List.mem_dedup] at hfirst hother
      exact (of_decide_eq_true hother.2) hfirst.1
    refine (List.perm_ext_iff_of_nodup hnodup (List.nodup_dedup _)).mpr fun item => ?_
    simp only [List.mem_append, List.mem_filter, List.mem_dedup, decide_eq_true_eq]
    by_cases hchosen : item ∈ chosen <;> simp [hchosen]

/-- Every choice of words is that of a process. -/
theorem order_of_choice {lower : String → String} {text : String} {chosen : List String}
    (h : Choice (skillTokenList lower text) chosen) :
    queryTokens (.first chosen) lower text = chosen := by
  have hperm := (SetOrder.first chosen).perm (skillTokenList lower text)
  have hfirst : chosen.dedup.filter (fun item => item ∈ skillTokenList lower text) = chosen := by
    rw [h.nodup.dedup, List.filter_eq_self]
    exact fun item hitem => decide_eq_true (h.among hitem)
  rw [queryTokens, firstOccurrences_nodup (hperm.nodup_iff.mpr (List.nodup_dedup _))]
  have htotal := hperm.length_eq
  have hlength := h.length
  simp only [SetOrder.first, hfirst, List.length_append] at htotal ⊢
  rw [List.take_append, List.take_of_length_le (by omega), List.append_right_eq_self]
  apply List.length_eq_zero_iff.mp
  rw [List.length_take]
  omega

instance : Std.Total RankedSkill.before where
  total a b := by
    rcases lt_trichotomy a.score b.score with h | h | h
    · exact .inr (.inl h)
    · rcases le_total a.entry.skillId b.entry.skillId with hid | hid
      · exact .inl (.inr ⟨h, hid⟩)
      · exact .inr (.inr ⟨h.symm, hid⟩)
    · exact .inl (.inl h)

instance : IsTrans RankedSkill RankedSkill.before where
  trans a b c hab hbc := by
    rcases hab with hab | ⟨hab, hid⟩
    · rcases hbc with hbc | ⟨hbc, -⟩
      · exact .inl (hbc.trans hab)
      · exact .inl (hbc ▸ hab)
    · rcases hbc with hbc | ⟨hbc, hid'⟩
      · exact .inl (hab ▸ hbc)
      · exact .inr ⟨hab.trans hbc, hid.trans hid'⟩

/-- Skills before each other have one id. -/
theorem RankedSkill.before_antisymm {first second : RankedSkill} (h : first.before second)
    (h' : second.before first) : first.entry.skillId = second.entry.skillId := by
  rcases h with hlt | ⟨heq, hid⟩
  · rcases h' with hlt' | ⟨heq', -⟩
    · exact absurd (hlt.trans hlt') (lt_irrefl _)
    · exact absurd heq' hlt.ne
  · rcases h' with hlt' | ⟨-, hid'⟩
    · exact absurd heq hlt'.ne
    · exact le_antisymm hid hid'

/-! ## The catalogs of two processes -/

section Reproducible

variable (search : SkillSearch) {db : SkillDatabase} (listing : SkillListing db) (repo : String)
  (failure : CIFailure) (limit : Nat)

/-- The entries show the first of the enabled skills in their order, when the index is asked for
these words. -/
def BestRanked (tokens : List String) (entries : List SkillCatalogEntry) : Prop :=
  ∃ ranked : List RankedSkill, ranked.Pairwise RankedSkill.before ∧
    ranked.Perm ((enabledSkills listing).map fun skill =>
      rankedSkill search db tokens failure skill.1 skill.2) ∧
    entries.map SkillCatalogEntry.label =
      (ranked.take entries.length).map fun skill => skill.entry.label

/-- Words that a process may ask the index for. -/
def Asked (tokens : List String) : Prop :=
  Choice (skillTokenList search.lower (retrievalText repo failure)) tokens

/-- The one skill has the better score, or the same score and the smaller id. -/
def Outranks (db : SkillDatabase) (tokens : List String)
    (first second : String × SkillManifest) : Prop :=
  (rankedSkill search db tokens failure first.1 first.2).before
    (rankedSkill search db tokens failure second.1 second.2)

/-- The entry of a skill. -/
def catalogEntry (skill : String × SkillManifest) : SkillCatalogEntry :=
  ⟨skill.1, catalogName skill.1 skill.2, skill.2.description⟩

/-- The characters of the skills with their descriptions cut to 400. -/
def roomOf (skills : List (String × SkillManifest)) : Nat :=
  totalChars (skills.map fun skill => (catalogEntry skill).brief)

/-- Whichever words the index is asked for: the skills of `top` outrank each other in this order,
and every other enabled skill. They fit, unless it is one alone, and do not fit any more with the
best of the others. -/
structure Settles (top : List (String × SkillManifest)) : Prop where
  enabled : top ⊆ enabledSkills listing
  distinct : top.Nodup
  some : enabledSkills listing ≠ [] → top ≠ []
  ordered : ∀ tokens, Asked search repo failure tokens →
    top.Pairwise (Outranks search failure db tokens)
  best : ∀ tokens, Asked search repo failure tokens → ∀ skill ∈ top,
    ∀ other ∈ enabledSkills listing, other ∉ top → Outranks search failure db tokens skill other
  fits : roomOf top ≤ limit ∨ top.length = 1
  full : ∀ tokens, Asked search repo failure tokens → ∀ next ∈ enabledSkills listing, next ∉ top →
    (∀ other ∈ enabledSkills listing, other ∉ top → Outranks search failure db tokens next other) →
      limit < roomOf (top ++ [next])

/-- The id and the name of a skill that outranks all others are not too long. -/
def BestNameFits : Prop :=
  ∀ tokens, Asked search repo failure tokens → ∀ best ∈ enabledSkills listing,
    (∀ other ∈ enabledSkills listing, Outranks search failure db tokens best other) →
      best.1.length + (catalogName best.1 best.2).length ≤ limit

instance (tokens : List String) : DecidableRel (Outranks search failure db tokens) :=
  fun _ _ => inferInstanceAs (Decidable (RankedSkill.before _ _))

instance (tokens : List String) : Std.Total (Outranks search failure db tokens) where
  total _ _ := total_of RankedSkill.before _ _

instance (tokens : List String) : IsTrans _ (Outranks search failure db tokens) where
  trans _ _ _ := trans_of RankedSkill.before

/-- The enabled skills, best first. -/
def sortedSkills (tokens : List String) : List (String × SkillManifest) :=
  (enabledSkills listing).insertionSort (Outranks search failure db tokens)

/-- An enabled skill is known by its id. -/
theorem enabledSkills_id {skill other : String × SkillManifest}
    (h : skill ∈ enabledSkills listing) (h' : other ∈ enabledSkills listing)
    (hid : skill.1 = other.1) : skill = other := by
  have hrow : ∀ {found : String × SkillManifest}, found ∈ enabledSkills listing →
      (db.skills found.1).map SkillRow.manifest = some found.2 := by
    intro found hfound
    obtain ⟨id, -, hkept⟩ := List.mem_filterMap.mp hfound
    cases hread : db.skills id with
    | none => simp [hread] at hkept
    | some row =>
      simp only [hread, Option.bind_some] at hkept
      split at hkept
      · cases hkept
        rw [hread]
        rfl
      · cases hkept
  have hmanifest := hrow h
  rw [hid, hrow h'] at hmanifest
  exact Prod.ext hid (Option.some.inj hmanifest).symm

/-- Enabled skills are known by their ids. -/
theorem skills_of_ids {skills others : List (String × SkillManifest)}
    (h : skills ⊆ enabledSkills listing) (h' : others ⊆ enabledSkills listing)
    (hids : skills.map Prod.fst = others.map Prod.fst) : skills = others := by
  induction skills generalizing others with
  | nil => exact (List.map_eq_nil_iff.mp hids.symm).symm
  | cons skill skills ih =>
    cases others with
    | nil => cases hids
    | cons other others =>
      obtain ⟨hid, hids⟩ := List.cons.inj hids
      rw [enabledSkills_id listing (h List.mem_cons_self) (h' List.mem_cons_self) hid,
        ih (fun _ hmem => h (List.mem_cons_of_mem _ hmem))
          (fun _ hmem => h' (List.mem_cons_of_mem _ hmem)) hids]

theorem enabledSkills_nodup : (enabledSkills listing).Nodup := by
  have hids : (listing.ids.insertionSort (· ≤ ·)).Nodup :=
    (List.perm_insertionSort _ _).nodup_iff.mpr listing.nodup
  refine hids.filterMap fun id id' skill hid hid' => ?_
  have hkey : ∀ {id}, skill ∈ ((db.skills id).bind fun row =>
      if row.enabled then some (id, row.manifest) else none) → id = skill.1 := by
    intro id hmem
    cases hrow : db.skills id with
    | none => simp [hrow] at hmem
    | some row =>
      simp only [hrow, Option.bind_some] at hmem
      split at hmem
      · cases hmem
        rfl
      · cases hmem
  exact (hkey hid).trans (hkey hid').symm

theorem sortedSkills_perm (tokens : List String) :
    (sortedSkills search listing failure tokens).Perm (enabledSkills listing) :=
  List.perm_insertionSort _ _

theorem sortedSkills_pairwise (tokens : List String) :
    (sortedSkills search listing failure tokens).Pairwise (Outranks search failure db tokens) :=
  List.pairwise_insertionSort _ _

/-- There is one order in which enabled skills outrank each other. -/
theorem sortedSkills_unique {tokens : List String} {skills : List (String × SkillManifest)}
    (hperm : skills.Perm (enabledSkills listing))
    (hpairwise : skills.Pairwise (Outranks search failure db tokens)) :
    sortedSkills search listing failure tokens = skills := by
  have hsorted := sortedSkills_perm search listing failure tokens
  refine List.Perm.eq_of_pairwise (fun first second hfirst hsecond hle hle' => ?_)
    (sortedSkills_pairwise search listing failure tokens) hpairwise (hsorted.trans hperm.symm)
  exact enabledSkills_id listing (hsorted.subset hfirst) (hperm.subset hsecond)
    (RankedSkill.before_antisymm hle hle')

theorem ranking_eq (tokens : List String) : ranking search listing failure tokens =
    (sortedSkills search listing failure tokens).map catalogEntry := by
  unfold ranking sortedSkills
  have hmap := List.map_insertionSort (Outranks search failure db tokens) RankedSkill.before
    (fun skill => rankedSkill search db tokens failure skill.1 skill.2) (enabledSkills listing)
    fun _ _ _ _ => Iff.rfl
  rw [← hmap, List.map_map]
  rfl

/-- The catalog shows as many of the skills as fit. -/
theorem fitCatalog_sorted {tokens : List String} {kept : Nat}
    (h : Keeps limit ((sortedSkills search listing failure tokens).map
      fun skill => (catalogEntry skill).brief) kept) :
    fitCatalog (ranking search listing failure tokens) limit =
      keptCatalog limit (((sortedSkills search listing failure tokens).take kept).map catalogEntry)
        ((enabledSkills listing).length - kept) := by
  have hkeeps : Keeps limit (((sortedSkills search listing failure tokens).map catalogEntry).map
      SkillCatalogEntry.brief) kept := by
    rw [List.map_map]
    exact h
  rw [ranking_eq, fitCatalog_of_keeps hkeeps, List.map_take, List.length_map,
    (sortedSkills_perm search listing failure tokens).length_eq]

theorem sortedSkills_nodup (tokens : List String) :
    (sortedSkills search listing failure tokens).Nodup :=
  (sortedSkills_perm search listing failure tokens).nodup_iff.mpr (enabledSkills_nodup listing)

section Leading

variable {tokens : List String} {top rest : List (String × SkillManifest)}
  (hsorted : sortedSkills search listing failure tokens = top ++ rest)

include hsorted

theorem mem_rest {other : String × SkillManifest} (hother : other ∈ enabledSkills listing)
    (hnot : other ∉ top) : other ∈ rest := by
  have hmem := (sortedSkills_perm search listing failure tokens).mem_iff.mpr hother
  rw [hsorted] at hmem
  exact (List.mem_append.mp hmem).resolve_left hnot

theorem top_outranks {skill other : String × SkillManifest} (hskill : skill ∈ top)
    (hother : other ∈ enabledSkills listing) (hnot : other ∉ top) :
    Outranks search failure db tokens skill other := by
  have hpairwise := sortedSkills_pairwise search listing failure tokens
  rw [hsorted] at hpairwise
  exact (List.pairwise_append.mp hpairwise).2.2 skill hskill other
    (mem_rest search listing failure hsorted hother hnot)

/-- The best of the other skills comes first behind the leading ones. -/
theorem rest_eq_cons {next : String × SkillManifest} (hnext : next ∈ enabledSkills listing)
    (hnot : next ∉ top) (hbest : ∀ other ∈ enabledSkills listing, other ∉ top →
      Outranks search failure db tokens next other) : ∃ others, rest = next :: others := by
  have hmem := mem_rest search listing failure hsorted hnext hnot
  obtain ⟨first, others, rfl⟩ := List.exists_cons_of_ne_nil (List.ne_nil_of_mem hmem)
  have hpairwise := sortedSkills_pairwise search listing failure tokens
  have hapart := sortedSkills_nodup search listing failure tokens
  have hfirst : first ∈ enabledSkills listing := by
    refine (sortedSkills_perm search listing failure tokens).subset ?_
    rw [hsorted]
    exact List.mem_append_right _ List.mem_cons_self
  rw [hsorted] at hpairwise hapart
  have hfirstNot : first ∉ top := fun hin =>
    (List.disjoint_of_nodup_append hapart) hin List.mem_cons_self
  rcases List.mem_cons.mp hmem with rfl | hin
  · exact ⟨others, rfl⟩
  · have hbefore := (List.pairwise_cons.mp (List.pairwise_append.mp hpairwise).2.1).1 next hin
    obtain rfl : next = first := enabledSkills_id listing hnext hfirst
      (RankedSkill.before_antisymm (hbest first hfirst hfirstNot) hbefore)
    exact ⟨others, rfl⟩

end Leading

/-- Skills of which whatever is asked for the first ones are kept. -/
theorem settles_of_take {top : List (String × SkillManifest)}
    (hasked : ∃ tokens, Asked search repo failure tokens)
    (h : ∀ tokens, Asked search repo failure tokens → ∃ kept,
      Keeps limit ((sortedSkills search listing failure tokens).map
        fun skill => (catalogEntry skill).brief) kept ∧
      (sortedSkills search listing failure tokens).take kept = top) :
    Settles search listing repo failure limit top := by
  have hsplit : ∀ tokens, Asked search repo failure tokens → ∃ rest,
      sortedSkills search listing failure tokens = top ++ rest := by
    intro tokens htokens
    obtain ⟨kept, -, rfl⟩ := h tokens htokens
    exact ⟨_, (List.take_append_drop kept _).symm⟩
  obtain ⟨tokens, htokens⟩ := hasked
  obtain ⟨kept, hkeeps, htake⟩ := h tokens htokens
  have hsub : top.Sublist (sortedSkills search listing failure tokens) := by
    rw [← htake]
    exact List.take_sublist _ _
  refine ⟨fun skill hskill => ?_, (sortedSkills_nodup search listing failure tokens).sublist hsub,
    fun hsome htop => ?_, fun tokens htokens => ?_,
    fun tokens htokens skill hskill other hother hnot => ?_, ?_,
    fun tokens htokens next hnext hnot hbest => ?_⟩
  · exact (sortedSkills_perm search listing failure tokens).subset (hsub.subset hskill)
  · have hne : (sortedSkills search listing failure tokens).map
        (fun skill => (catalogEntry skill).brief) ≠ [] := by
      intro hnil
      have hlength := (sortedSkills_perm search listing failure tokens).length_eq
      rw [List.map_eq_nil_iff.mp hnil] at hlength
      exact hsome (List.length_eq_zero_iff.mp hlength.symm)
    have hpos := hkeeps.pos hne
    rw [htop, List.take_eq_nil_iff] at htake
    rcases htake with hzero | hnil
    · omega
    · exact hne (by rw [hnil]; rfl)
  · obtain ⟨rest, hsorted⟩ := hsplit tokens htokens
    have hpairwise := sortedSkills_pairwise search listing failure tokens
    rw [hsorted] at hpairwise
    exact (List.pairwise_append.mp hpairwise).1
  · obtain ⟨rest, hsorted⟩ := hsplit tokens htokens
    exact top_outranks search listing failure hsorted hskill hother hnot
  · have hfits := hkeeps.fits
    rw [← List.map_take, htake] at hfits
    refine hfits.imp id fun hone => ?_
    have hle := hkeeps.le
    rw [List.length_map] at hle
    rw [← htake, List.length_take, hone]
    omega
  · obtain ⟨kept, hkeeps, htake⟩ := h tokens htokens
    have hsorted : sortedSkills search listing failure tokens =
        top ++ (sortedSkills search listing failure tokens).drop kept := by
      rw [← htake, List.take_append_drop]
    obtain ⟨others, hdrop⟩ := rest_eq_cons search listing failure hsorted hnext hnot hbest
    have hlt : kept < (sortedSkills search listing failure tokens).length := by
      have hlength := congrArg List.length hdrop
      simp only [List.length_drop, List.length_cons] at hlength
      omega
    have hfull := hkeeps.full (by rwa [List.length_map])
    have htakeNext : (sortedSkills search listing failure tokens).take (kept + 1) =
        top ++ [next] := by
      rw [List.take_add, htake, hdrop]
      rfl
    rw [← List.map_take, htakeNext] at hfull
    exact hfull

/-- The skills that settle are the ones shown, whatever is asked for. -/
theorem Settles.catalog {top : List (String × SkillManifest)}
    (h : Settles search listing repo failure limit top) {tokens : List String}
    (htokens : Asked search repo failure tokens) :
    fitCatalog (ranking search listing failure tokens) limit =
      keptCatalog limit (top.map catalogEntry) ((enabledSkills listing).length - top.length) := by
  classical
  obtain ⟨rest, hrest⟩ : ∃ rest, rest = ((enabledSkills listing).filter fun skill =>
      skill ∉ top).insertionSort (Outranks search failure db tokens) := ⟨_, rfl⟩
  have hmem : ∀ skill, skill ∈ rest ↔ skill ∈ enabledSkills listing ∧ skill ∉ top := by
    intro skill
    rw [hrest, List.mem_insertionSort, List.mem_filter, decide_eq_true_eq]
  have hrestPairwise : rest.Pairwise (Outranks search failure db tokens) := by
    rw [hrest]
    exact List.pairwise_insertionSort _ _
  have hrestNodup : rest.Nodup := by
    rw [hrest]
    exact (List.perm_insertionSort _ _).nodup_iff.mpr ((enabledSkills_nodup listing).filter _)
  have hsorted : sortedSkills search listing failure tokens = top ++ rest := by
    refine sortedSkills_unique search listing failure ?_ ?_
    · refine (List.perm_ext_iff_of_nodup ?_ (enabledSkills_nodup listing)).mpr fun skill => ?_
      · refine List.nodup_append.mpr ⟨h.distinct, hrestNodup, ?_⟩
        rintro skill htop other hother rfl
        exact ((hmem skill).mp hother).2 htop
      · rw [List.mem_append, hmem]
        by_cases htop : skill ∈ top
        · simp [htop, h.enabled htop]
        · simp [htop]
    · refine List.pairwise_append.mpr ⟨h.ordered tokens htokens, hrestPairwise, ?_⟩
      intro skill htop other hother
      obtain ⟨henabled, hnot⟩ := (hmem other).mp hother
      exact h.best tokens htokens skill htop other henabled hnot
  have htake : (top ++ rest).take top.length = top := List.take_left
  have hkeeps : Keeps limit ((sortedSkills search listing failure tokens).map
      fun skill => (catalogEntry skill).brief) top.length := by
    rw [hsorted]
    refine ⟨fun hne => List.length_pos_iff.mpr (h.some fun hnil => hne ?_), by simp, ?_,
      fun hlt => ?_⟩
    · have hlength := (sortedSkills_perm search listing failure tokens).length_eq
      rw [hnil, hsorted] at hlength
      rw [List.length_eq_zero_iff.mp hlength]
      rfl
    · rw [← List.map_take, htake]
      exact h.fits
    · rw [List.length_map, List.length_append] at hlt
      obtain ⟨next, others, hnext⟩ := List.exists_cons_of_ne_nil
        (List.length_pos_iff.mp (by omega : 0 < rest.length))
      have hin : next ∈ rest := by
        rw [hnext]
        exact List.mem_cons_self
      obtain ⟨henabled, hnot⟩ := (hmem next).mp hin
      have hfull := h.full tokens htokens next henabled hnot fun other hother hout => ?_
      · have htakeNext : (top ++ rest).take (top.length + 1) = top ++ [next] := by
          rw [hnext, List.take_add, List.take_left, List.drop_left]
          rfl
        rw [← List.map_take, htakeNext]
        exact hfull
      · have hother := (hmem other).mpr ⟨hother, hout⟩
        rw [hnext] at hother hrestPairwise
        rcases List.mem_cons.mp hother with rfl | hlater
        · exact refl_of (Outranks search failure db tokens) other
        · exact (List.pairwise_cons.mp hrestPairwise).1 other hlater
  rw [fitCatalog_sorted search listing failure limit hkeeps, hsorted, htake]

theorem retrieveSkills_bestRanked (order : SetOrder) :
    BestRanked search listing failure
      (queryTokens order search.lower (retrievalText repo failure))
      (retrieveSkills search order listing repo failure limit).entries := by
  refine ⟨_, List.pairwise_insertionSort RankedSkill.before _,
    List.perm_insertionSort RankedSkill.before _, ?_⟩
  have hleads := (fitCatalog_spec (ranking search listing failure
    (queryTokens order search.lower (retrievalText repo failure))) limit).1
  rw [ranking, List.map_map, ← List.map_take] at hleads
  exact hleads

theorem retrieveSkills_count (order : SetOrder) :
    (retrieveSkills search order listing repo failure limit).entries.length +
        (retrieveSkills search order listing repo failure limit).omittedCount =
      (enabledSkills listing).length := by
  refine (fitCatalog_spec _ limit).2.trans ?_
  rw [ranking, List.length_map, List.length_insertionSort, List.length_map]

/-- The catalog is within the limit when the best name fits. -/
theorem chars_iff (tokens : List String) :
    (fitCatalog (ranking search listing failure tokens) limit).contextChars ≤ limit ↔
      ∀ best ∈ enabledSkills listing,
        (∀ other ∈ enabledSkills listing, Outranks search failure db tokens best other) →
          best.1.length + (catalogName best.1 best.2).length ≤ limit := by
  have hperm := sortedSkills_perm search listing failure tokens
  have hpairwise := sortedSkills_pairwise search listing failure tokens
  rw [fitCatalog_chars, ranking_eq]
  cases hsorted : sortedSkills search listing failure tokens with
  | nil =>
    rw [hsorted] at hperm
    simp [List.Perm.nil_eq hperm |>.symm]
  | cons first rest =>
    rw [hsorted] at hperm hpairwise
    have hfirst : first ∈ enabledSkills listing := hperm.subset List.mem_cons_self
    have hall : ∀ other ∈ enabledSkills listing, Outranks search failure db tokens first other := by
      intro other hother
      rcases List.mem_cons.mp (hperm.mem_iff.mpr hother) with rfl | hin
      · exact refl_of (Outranks search failure db tokens) other
      · exact (List.pairwise_cons.mp hpairwise).1 other hin
    constructor
    · intro h best hbest hbestAll
      have hsame := enabledSkills_id listing hbest hfirst
        (RankedSkill.before_antisymm (hbestAll first hfirst) (hall best hbest))
      rw [hsame]
      exact h _ _ rfl
    · intro h best others heq
      obtain ⟨rfl, -⟩ := List.cons.inj heq
      exact h first hfirst hall

/-- The skills that every catalog shows settle. -/
theorem settled_of_same
    (h : ∀ tokens other, Asked search repo failure tokens → Asked search repo failure other →
      fitCatalog (ranking search listing failure tokens) limit =
        fitCatalog (ranking search listing failure other) limit) :
    ∃ top, Settles search listing repo failure limit top := by
  have hasked := choice_of_order (.first []) search.lower (retrievalText repo failure)
  have hkeeps := fun tokens => exists_keeps limit
    ((sortedSkills search listing failure tokens).map fun skill => (catalogEntry skill).brief)
  obtain ⟨kept, hkept⟩ := hkeeps (queryTokens (.first []) search.lower (retrievalText repo failure))
  refine ⟨(sortedSkills search listing failure (queryTokens (.first []) search.lower
    (retrievalText repo failure))).take kept, settles_of_take search listing repo failure limit
      ⟨_, hasked⟩ fun tokens htokens => ?_⟩
  obtain ⟨count, hcount⟩ := hkeeps tokens
  refine ⟨count, hcount, ?_⟩
  have hentries := congrArg SkillCatalog.entries (h tokens _ htokens hasked)
  rw [fitCatalog_sorted search listing failure limit hcount,
    fitCatalog_sorted search listing failure limit hkept] at hentries
  have hlabels := congrArg (List.map SkillCatalogEntry.label) hentries
  rw [keptCatalog_labels, keptCatalog_labels] at hlabels
  have hids := congrArg (List.map Prod.fst) hlabels
  rw [List.map_map, List.map_map, List.map_map, List.map_map] at hids
  exact skills_of_ids listing
    (fun _ hmem => (sortedSkills_perm _ _ _ _).subset ((List.take_sublist _ _).subset hmem))
    (fun _ hmem => (sortedSkills_perm _ _ _ _).subset ((List.take_sublist _ _).subset hmem)) hids

/-- So it is when no skill that is enabled ranks otherwise for other words or another order. -/
theorem settled_of_ranks
    (h : ∀ tokens other, Asked search repo failure tokens → Asked search repo failure other →
      ∀ skill ∈ enabledSkills listing,
        search.ftsRank db.fts tokens skill.1 = search.ftsRank db.fts other skill.1) :
    ∃ top, Settles search listing repo failure limit top := by
  refine settled_of_same search listing repo failure limit fun tokens other htokens hother => ?_
  have hranked : (enabledSkills listing).map
      (fun skill => rankedSkill search db tokens failure skill.1 skill.2) =
      (enabledSkills listing).map
        fun skill => rankedSkill search db other failure skill.1 skill.2 :=
    List.map_congr_left fun skill hskill => by
      rw [rankedSkill, rankedSkill, h tokens other htokens hother skill hskill]
  rw [ranking, ranking, hranked]

end Reproducible

namespace Sample

/-- A failure whose log has 33 words. -/
def manyWords : CIFailure where
  summary := ""
  logExcerpt := " ".intercalate ((List.range 33).map fun n =>
    "w" ++ String.singleton (Char.ofNat (97 + n / 10)) ++
      String.singleton (Char.ofNat (97 + n % 10)))
  taskFamily := "x"

def wordManifest (id word : String) : SkillManifest where
  skillId := id
  name := id
  description := word
  triggers := []
  taskFamilies := []
  permissions := {}
  sourceRunIds := []
  files := []
  createdAt := 0
  updatedAt := 0

/-- Two skills, of the first and of the last word. -/
def wordSkills : SkillDatabase where
  skills id :=
    if id = "a" then some ⟨wordManifest "a" "waa", true, ""⟩
    else if id = "b" then some ⟨wordManifest "b" "wdc", true, ""⟩
    else none
  fts := [("a", "a waa"), ("b", "b wdc")]
  stats _ := none
  operations _ := none

def wordListing : SkillListing wordSkills where
  ids := ["a", "b"]
  nodup := by decide
  complete id := by
    by_cases ha : id = "a"
    · simp [wordSkills, ha]
    · by_cases hb : id = "b" <;> simp [wordSkills, ha, hb]

def wordSearch : SkillSearch where
  lower := id
  rank _ words id :=
    if (id = "a" ∧ "waa" ∈ words) ∨ (id = "b" ∧ "wdc" ∈ words) then some (1 / 2) else none
  boosted overlap rank := overlap + 1 / (1 + rank)

def forwards : SetOrder := ⟨List.dedup, fun _ => .refl _⟩

def backwards : SetOrder := ⟨fun items => items.dedup.reverse, fun _ => List.reverse_perm _⟩

end Sample

end EvoCI
