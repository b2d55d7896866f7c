import EvoCI.Memory.Retrieval

/-! What a limit on characters leaves of the candidates: a prefix of them whose last entry may be
cut, and with it the line that tells how an episode ended. -/

namespace EvoCI

/-! ## Outcomes -/

/-- The line that tells how an episode ended. -/
def outcomeText (success : Bool) : String := if success then "OUTCOME=success" else "OUTCOME=failed"

/-- The text is the line, or goes on behind it. -/
def StartsWithLine (text line : String) : Prop :=
  text = line ∨ line.toList ++ ['\n'] <+: text.toList

theorem outcomeText_plain (success : Bool) : ∀ c ∈ (outcomeText success).toList,
    isLineBreak c = false := by
  cases success <;> decide

theorem length_outcomeText (success : Bool) : 14 ≤ (outcomeText success).toList.length := by
  cases success <;> decide

/-- A text that starts with an outcome has it as its first line. -/
theorem headD_splitLines {text : String} {success : Bool}
    (h : StartsWithLine text (outcomeText success)) (other : String) :
    (splitLines text).headD other = outcomeText success := by
  rcases h with rfl | ⟨rest, hrest⟩
  · have hne : (outcomeText success).toList ≠ [] := by cases success <;> decide
    rw [splitLines, splitLinesFrom_whole (outcomeText_plain success) [] hne]
    simp
  · rw [List.append_assoc] at hrest
    rw [splitLines, ← hrest, List.singleton_append, splitLinesFrom_line (outcomeText_plain success)]
    simp

theorem startsWithLine_intercalate (line : String) (lines : List String) :
    StartsWithLine ("\n".intercalate (line :: lines)) line := by
  cases lines with
  | nil => exact .inl String.intercalate_singleton
  | cons next lines =>
    refine .inr ?_
    rw [String.intercalate_cons_cons]
    simp

theorem content_startsWith (lower : String → String) (e : Episode) :
    StartsWithLine (e.content lower) (outcomeText e.success) := by
  have hkept : ∀ (line : String) (lines : List String), line ≠ "" →
      StartsWithLine ("\n".intercalate ((line :: lines).filter (· ≠ ""))) line := by
    intro line lines hline
    rw [List.filter_cons_of_pos (by simpa using hline)]
    exact startsWithLine_intercalate line _
  unfold Episode.content
  cases hsuccess : e.success with
  | true =>
    simp only [if_true, List.cons_append, List.nil_append]
    exact hkept "OUTCOME=success" _ (by decide)
  | false =>
    simp only [Bool.false_eq_true, if_false, List.cons_append, List.nil_append]
    exact hkept "OUTCOME=failed" _ (by decide)

/-- The preview of an episode starts with its outcome, and the summary follows. -/
theorem previewEpisode_startsWith {content : String} {success : Bool}
    (h : StartsWithLine content (outcomeText success)) :
    (outcomeText success).toList ++ ['\n'] <+: (previewEpisode content).toList := by
  simp only [previewEpisode, headD_splitLines h, List.cons_append, List.nil_append]
  rw [String.intercalate_cons_cons]
  simp

/-! ## Candidates -/

theorem preview_memoryId (hit : MemoryHit) : (preview hit).memoryId = hit.memoryId := by
  unfold preview
  split <;> rfl

theorem preview_namespace (hit : MemoryHit) : (preview hit).namespace = hit.namespace := by
  unfold preview
  split <;> rfl

theorem preview_content_ne_empty (hit : MemoryHit) : (preview hit).content ≠ "" := by
  have hlabel : ∀ label text : String, label ≠ "" → label ++ text ≠ "" := by
    intro label text hlabel happend
    exact hlabel (String.append_eq_empty_iff.1 happend).1
  unfold preview
  split
  · simp only [previewEpisode, List.cons_append, List.nil_append]
    rw [String.intercalate_cons_cons, String.append_assoc]
    intro hempty
    have hnewline := (String.append_eq_empty_iff.1 (String.append_eq_empty_iff.1 hempty).2).1
    exact absurd hnewline (by decide)
  · exact hlabel "FACT=" _ (by decide)

/-- The candidates are previews of hits, each with an id of its own. -/
theorem deduplicate_spec (seen : List String) (hits : List MemoryHit) :
    (∀ c ∈ deduplicate seen hits, c.memoryId ∉ seen ∧ ∃ hit ∈ hits, c = preview hit) ∧
      ((deduplicate seen hits).map MemoryHit.memoryId).Nodup := by
  induction hits generalizing seen with
  | nil => exact ⟨by simp [deduplicate], List.nodup_nil⟩
  | cons hit hits ih =>
    unfold deduplicate
    split
    next hseen =>
      obtain ⟨hall, hnodup⟩ := ih seen
      refine ⟨fun c hc => ?_, hnodup⟩
      obtain ⟨hnew, other, hother, heq⟩ := hall c hc
      exact ⟨hnew, other, List.mem_cons_of_mem _ hother, heq⟩
    next hseen =>
      obtain ⟨hall, hnodup⟩ := ih (hit.memoryId :: seen)
      constructor
      · intro c hc
        rcases List.mem_cons.1 hc with rfl | hc
        · exact ⟨by rw [preview_memoryId]; exact hseen, hit, List.mem_cons_self, rfl⟩
        · obtain ⟨hnew, other, hother, heq⟩ := hall c hc
          exact ⟨fun hin => hnew (List.mem_cons_of_mem _ hin), other,
            List.mem_cons_of_mem _ hother, heq⟩
      · rw [List.map_cons, List.nodup_cons]
        refine ⟨fun hin => ?_, hnodup⟩
        obtain ⟨c, hc, hid⟩ := List.mem_map.1 hin
        refine (hall c hc).1 ?_
        rw [hid, preview_memoryId]
        exact List.mem_cons_self

theorem longTerm_namespace (memory : LongTermMemory) (rank : Rat) :
    startsWith (longTermHit memory rank).namespace "episode:" = false := by
  rw [← Bool.not_eq_true, startsWith, List.isPrefixOf_iff_prefix]
  simp [longTermHit]

/-- What is retrieved is a fact, or an episode of the store. -/
theorem mem_retrieved {R : MemoryRetriever} {tables : MemoryTables} {repo : String}
    {failure : CIFailure} {hit : MemoryHit} (h : hit ∈ R.retrieved tables repo failure) :
    startsWith hit.namespace "episode:" = false ∨
      ∃ row ∈ tables.episodes, ∃ rank, hit = episodeHit R.search.lower row.episode rank := by
  simp only [MemoryRetriever.retrieved, List.mem_append] at h
  rcases h with (h | h) | h
  · left
    simp only [searchLongTerm] at h
    split at h
    · cases h
    · obtain ⟨row, -, rfl⟩ := List.mem_map.1 h
      exact longTerm_namespace row.1 row.2
  · right
    unfold searchEpisodesByFingerprint at h
    split at h
    · cases h
    · obtain ⟨row, hrow, rfl⟩ := List.mem_map.1 h
      refine ⟨row, ?_, none, rfl⟩
      have hin := List.mem_of_mem_take hrow
      have hfound : ∀ p : StoredEpisode → Bool, ∀ rows : List StoredEpisode,
          row ∈ (rows.find? p).toList → row ∈ rows := fun p rows hrows =>
        List.mem_of_find?_eq_some (Option.mem_toList.1 hrows)
      rcases List.mem_append.1 hin with hin | hin
      · exact List.mem_of_mem_filter ((List.mem_insertionSort _).1 (hfound _ _ hin))
      · exact List.mem_of_mem_filter ((List.mem_insertionSort _).1 (hfound _ _ hin))
  · right
    simp only [searchEpisodes] at h
    split at h
    · cases h
    · obtain ⟨row, hrow, rfl⟩ := List.mem_map.1 h
      have hin := (List.mem_insertionSort _).1 (List.mem_of_mem_take hrow)
      obtain ⟨stored, hstored, hrank⟩ := List.mem_filterMap.1 hin
      obtain ⟨rank, -, rfl⟩ := Option.map_eq_some_iff.1 hrank
      exact ⟨stored, hstored, some rank, rfl⟩

/-- A candidate is a fact, or starts with the outcome of an episode of the store. -/
theorem mem_candidates {R : MemoryRetriever} {tables : MemoryTables} {repo : String}
    {failure : CIFailure} {c : MemoryHit} (h : c ∈ R.candidates tables repo failure) :
    c.content ≠ "" ∧ (startsWith c.namespace "episode:" = true → ∃ row ∈ tables.episodes,
      row.episode.id = c.memoryId ∧
        (outcomeText row.episode.success).toList ++ ['\n'] <+: c.content.toList) := by
  obtain ⟨-, hit, hhit, rfl⟩ := (deduplicate_spec [] _).1 c h
  refine ⟨preview_content_ne_empty hit, fun hepisode => ?_⟩
  rw [preview_namespace] at hepisode
  rcases mem_retrieved hhit with hfact | ⟨row, hrow, rank, rfl⟩
  · rw [hepisode] at hfact
    cases hfact
  · have hcontent : (preview (episodeHit R.search.lower row.episode rank)).content =
        previewEpisode (row.episode.content R.search.lower) := by
      rw [preview, if_pos hepisode, episodeHit]
    refine ⟨row, hrow, by rw [preview_memoryId]; rfl, ?_⟩
    rw [hcontent]
    exact previewEpisode_startsWith (content_startsWith R.search.lower row.episode)

/-! ## Selecting -/

/-- `sum(len(hit.content) for hit in hits)`. -/
def contentChars (hits : List MemoryHit) : Nat := (hits.map fun hit => hit.content.length).sum

/-- What is left of the limit for the candidate behind the first `n`. -/
def leftFor (limit : Int) (candidates : List MemoryHit) (n : Nat) : Int :=
  limit - contentChars (candidates.take n)

theorem length_truncate {content : String} {left : Int} (hpos : 0 < left)
    (hlong : left < content.length) :
    ((truncatePreservingOutcome content left).length : Int) = left := by
  have hmarker : truncationMarker.length = 12 := by decide
  have hcontent : content.toList.length = content.length := String.length_toList
  unfold truncatePreservingOutcome
  rw [if_neg (by omega), if_neg (by omega)]
  split
  · rw [String.length_ofList, List.length_take]
    omega
  · rw [String.length_append, String.length_ofList, List.length_take]
    omega

theorem truncate_of_fits {content : String} {left : Int} (hpos : 0 < left)
    (hfits : content.length ≤ left) : truncatePreservingOutcome content left = content := by
  unfold truncatePreservingOutcome
  rw [if_neg (by omega), if_pos hfits]

/-- The candidates as they are selected: all of them or the first few as they are, or the first few
with one cut behind them that fills the limit. -/
inductive Selected (limit : Int) (used : Nat) (candidates : List MemoryHit) :
    List MemoryHit × Nat → Prop where
  | whole (n : Nat) (hfits : n ≠ 0 → (used + contentChars (candidates.take n) : Int) ≤ limit)
      (hends : candidates.length ≤ n ∨ limit ≤ used + contentChars (candidates.take n)) :
      Selected limit used candidates
        (candidates.take n, used + contentChars (candidates.take n))
  | cut (n : Nat) (hit : MemoryHit) (left : Int) (hhit : candidates[n]? = some hit)
      (hleft : left = limit - (used + contentChars (candidates.take n))) (hpos : 0 < left)
      (hlong : left < hit.content.length) :
      Selected limit used candidates
        (candidates.take n ++
          [{ hit with content := truncatePreservingOutcome hit.content left }], limit.toNat)

theorem contentChars_cons (hit : MemoryHit) (hits : List MemoryHit) :
    contentChars (hit :: hits) = hit.content.length + contentChars hits := by
  simp [contentChars]

theorem selectHits_selected {limit : Int} {candidates : List MemoryHit}
    (hcontent : ∀ hit ∈ candidates, hit.content ≠ "") (used : Nat) :
    Selected limit used candidates (selectHits limit used candidates) := by
  induction candidates generalizing used with
  | nil => exact .whole 0 (by simp) (.inl le_rfl)
  | cons hit hits ih =>
    have hlength : 0 < hit.content.length := by
      rw [Nat.pos_iff_ne_zero, Ne, String.length_eq_zero_iff]
      exact hcontent hit List.mem_cons_self
    unfold selectHits
    by_cases hnone : limit - used ≤ 0
    · rw [if_pos hnone]
      exact .whole 0 (by simp) (.inr (by simpa [contentChars] using hnone))
    · simp only [if_neg hnone]
      by_cases hfits : hit.content.length ≤ limit - used
      · rw [truncate_of_fits (by omega) hfits, if_neg (hcontent hit List.mem_cons_self)]
        have hrest := ih (fun other hother => hcontent other (List.mem_cons_of_mem _ hother))
          (used + hit.content.length)
        generalize selectHits limit (used + hit.content.length) hits = result at hrest
        cases hrest with
        | whole n hn hends =>
          have hsum : used + hit.content.length + contentChars (hits.take n) =
              used + contentChars ((hit :: hits).take (n + 1)) := by
            rw [List.take_succ_cons, contentChars_cons]
            omega
          rw [hsum]
          refine .whole (n + 1) (fun _ => ?_) ?_
          · rw [List.take_succ_cons, contentChars_cons]
            by_cases hzero : n = 0
            · subst hzero
              simp only [List.take_zero, contentChars, List.map_nil, List.sum_nil]
              omega
            · have := hn hzero
              push_cast at this ⊢
              omega
          · rcases hends with hends | hends
            · exact .inl (by simpa using hends)
            · right
              rw [List.take_succ_cons, contentChars_cons]
              push_cast at hends ⊢
              omega
        | cut n last left hlast hleft hpos hlong =>
          refine .cut (n + 1) last left (by simpa using hlast) ?_ hpos hlong
          rw [List.take_succ_cons, contentChars_cons, hleft]
          push_cast
          omega
      · have hlong : limit - used < hit.content.length := by omega
        have hcut := length_truncate (by omega) hlong
        have hne : truncatePreservingOutcome hit.content (limit - used) ≠ "" := by
          intro hempty
          rw [hempty] at hcut
          simp at hcut
          omega
        rw [if_neg hne]
        have hfull : used + (truncatePreservingOutcome hit.content (limit - used)).length =
            limit.toNat := by
          omega
        rw [hfull]
        have hstop : selectHits limit limit.toNat hits = ([], limit.toNat) := by
          cases hits with
          | nil => rfl
          | cons next hits =>
            unfold selectHits
            rw [if_pos (by omega)]
        rw [hstop]
        exact .cut 0 hit (limit - used) rfl (by simp [contentChars]) (by omega) hlong

/-! ## Outcomes of cut entries -/

theorem outcomeText_prefix {success other : Bool}
    (h : (outcomeText other).toList <+: (outcomeText success).toList) : other = success := by
  revert h
  cases success <;> cases other <;> decide

/-- What starts a text and has no newline starts its first line. -/
theorem prefix_of_line {line first rest : List Char} (hplain : '\n' ∉ line)
    (h : line <+: first ++ '\n' :: rest) : line <+: first := by
  induction line generalizing first with
  | nil => exact List.nil_prefix
  | cons c line ih =>
    cases first with
    | nil =>
      obtain ⟨more, heq⟩ := h
      cases heq
      exact absurd List.mem_cons_self hplain
    | cons d first =>
      rw [List.cons_append, List.cons_prefix_cons] at h
      rw [List.cons_prefix_cons]
      exact ⟨h.1, ih (fun hin => hplain (List.mem_cons_of_mem _ hin)) h.2⟩

theorem outcomeText_noNewline (success : Bool) : '\n' ∉ (outcomeText success).toList := by
  cases success <;> decide

theorem StartsWithLine.isPrefix {text line : String} (h : StartsWithLine text line) :
    line.toList <+: text.toList := by
  rcases h with rfl | h
  · exact List.prefix_rfl
  · exact (List.prefix_append _ _).trans h

/-- What shows a whole outcome is not cut within the outcome it had. -/
theorem whole_outcome {success other : Bool} {n : Nat}
    (h : (outcomeText other).toList <+: (outcomeText success).toList.take n) :
    (outcomeText success).toList.length ≤ n := by
  have hsame := outcomeText_prefix (h.trans (List.take_prefix _ _))
  subst hsame
  have hlength := h.length_le
  rw [List.length_take] at hlength
  omega

/-- A cut entry shows the outcome exactly when there is room for it and the marker. -/
theorem truncate_keeps_iff {content : String} {success : Bool} {left : Int}
    (hstart : (outcomeText success).toList ++ ['\n'] <+: content.toList) (hpos : 0 < left)
    (hlong : left < content.length) :
    ((outcomeText success).length + 12 ≤ left →
        StartsWithLine (truncatePreservingOutcome content left) (outcomeText success)) ∧
      ∀ other, StartsWithLine (truncatePreservingOutcome content left) (outcomeText other) →
        (outcomeText success).length + 12 ≤ left := by
  have hmarker : truncationMarker.length = 12 := by decide
  have hlength : (outcomeText success).toList.length = (outcomeText success).length :=
    String.length_toList
  obtain ⟨rest, hrest⟩ := hstart
  have htake : ∀ n ≤ (outcomeText success).toList.length,
      content.toList.take n = (outcomeText success).toList.take n := by
    intro n hn
    rw [← hrest, List.append_assoc, List.take_append_of_le_length hn]
  unfold truncatePreservingOutcome
  rw [if_neg (by omega), if_neg (by omega)]
  by_cases hshort : left ≤ truncationMarker.length
  · rw [if_pos hshort]
    have hown := length_outcomeText success
    refine ⟨fun hroom => absurd hroom (by omega), fun other hshown => ?_⟩
    have hleads := hshown.isPrefix.length_le
    have hleast := length_outcomeText other
    rw [String.toList_ofList, List.length_take] at hleads
    omega
  · rw [if_neg hshort]
    generalize hn : (left - truncationMarker.length).toNat = n
    have htext : (String.ofList (content.toList.take n) ++ truncationMarker).toList =
        content.toList.take n ++ '\n' :: "[truncated]".toList := by
      rw [String.toList_append, String.toList_ofList]
      rfl
    constructor
    · intro hroom
      refine .inr ?_
      have hle : (outcomeText success).toList.length ≤ n := by omega
      rw [htext, ← hrest]
      rcases Nat.eq_or_lt_of_le hle with heq | hlt
      · rw [List.append_assoc, ← heq, List.take_left]
        exact ⟨"[truncated]".toList, by simp⟩
      · obtain ⟨k, hk⟩ : ∃ k, n = ((outcomeText success).toList ++ ['\n']).length + k :=
          ⟨n - ((outcomeText success).toList ++ ['\n']).length, by
            rw [List.length_append, List.length_singleton]
            omega⟩
        rw [hk, List.take_length_add_append, List.append_assoc _ (List.take k rest)]
        exact List.prefix_append _ _
    · intro other hshown
      by_contra hroom
      have hlt : n < (outcomeText success).toList.length := by omega
      have hleads := prefix_of_line (outcomeText_noNewline other) (htext ▸ hshown.isPrefix)
      rw [htake n hlt.le] at hleads
      have hwhole := whole_outcome hleads
      omega

/-! ## What a retrieval promises -/

/-- What is selected is a prefix of the candidates, which are distinct, within the limit and counted
right, all of it complete but for the last entry, and each episode with its outcome. -/
structure RetrievalSound (R : MemoryRetriever) (tables : MemoryTables) (repo : String)
    (failure : CIFailure) : Prop where
  isPrefix : (R.retrieve tables repo failure).hits.map MemoryHit.memoryId <+:
    (R.candidates tables repo failure).map MemoryHit.memoryId
  distinct : ((R.retrieve tables repo failure).hits.map MemoryHit.memoryId).Nodup
  counted : contentChars (R.retrieve tables repo failure).hits =
    (R.retrieve tables repo failure).contextChars
  withinLimit : ((R.retrieve tables repo failure).contextChars : Int) ≤ R.contextLimitChars
  complete : (R.retrieve tables repo failure).hits.dropLast <+: R.candidates tables repo failure
  outcome : ∀ hit ∈ (R.retrieve tables repo failure).hits,
    startsWith hit.namespace "episode:" = true → ∃ row ∈ tables.episodes,
      row.episode.id = hit.memoryId ∧ StartsWithLine hit.content (outcomeText row.episode.success)

/-- The limit is not negative, and it leaves an episode that does not fit room for its first line
and the marker, if it leaves it any. -/
structure RoomForOutcomes (limit : Int) (candidates : List MemoryHit) : Prop where
  notNegative : 0 ≤ limit
  room : ∀ n c, candidates[n]? = some c → startsWith c.namespace "episode:" = true →
    0 < leftFor limit candidates n → leftFor limit candidates n < c.content.length →
    ((splitLines c.content).headD "").length + truncationMarker.length ≤ leftFor limit candidates n

theorem contentChars_take_succ {candidates : List MemoryHit} {n : Nat} {c : MemoryHit}
    (h : candidates[n]? = some c) : contentChars (candidates.take (n + 1)) =
      contentChars (candidates.take n) + c.content.length := by
  rw [List.take_add_one, h]
  simp [contentChars]

theorem contentChars_take_mono (candidates : List MemoryHit) {m n : Nat} (h : m ≤ n) :
    contentChars (candidates.take m) ≤ contentChars (candidates.take n) := by
  obtain ⟨k, rfl⟩ := Nat.exists_eq_add_of_le h
  rw [List.take_add]
  simp [contentChars]

theorem retrieve_hits {R : MemoryRetriever} {tables : MemoryTables} {repo : String}
    {failure : CIFailure} : (R.retrieve tables repo failure).hits =
      (selectHits R.contextLimitChars 0 (R.candidates tables repo failure)).1 := by
  simp only [MemoryRetriever.retrieve]

theorem retrieve_chars {R : MemoryRetriever} {tables : MemoryTables} {repo : String}
    {failure : CIFailure} : (R.retrieve tables repo failure).contextChars =
      (selectHits R.contextLimitChars 0 (R.candidates tables repo failure)).2 := by
  simp only [MemoryRetriever.retrieve]

/-- A retrieval keeps its promise exactly when each outcome that is cut into has room. -/
theorem retrieval_sound_iff (R : MemoryRetriever) (tables : MemoryTables) (repo : String)
    (failure : CIFailure) : RetrievalSound R tables repo failure ↔
      RoomForOutcomes R.contextLimitChars (R.candidates tables repo failure) := by
  have hids : ((R.candidates tables repo failure).map MemoryHit.memoryId).Nodup :=
    (deduplicate_spec [] _).2
  have hcandidate : ∀ c ∈ R.candidates tables repo failure, c.content ≠ "" ∧
      (startsWith c.namespace "episode:" = true → ∃ row ∈ tables.episodes,
        row.episode.id = c.memoryId ∧
          (outcomeText row.episode.success).toList ++ ['\n'] <+: c.content.toList) :=
    fun c hc => mem_candidates hc
  have hselected := @selectHits_selected R.contextLimitChars _
    (fun c hc => (hcandidate c hc).1) 0
  have hwhole : ∀ c ∈ R.candidates tables repo failure,
      startsWith c.namespace "episode:" = true → ∃ row ∈ tables.episodes,
        row.episode.id = c.memoryId ∧
          StartsWithLine c.content (outcomeText row.episode.success) := by
    intro c hc hepisode
    obtain ⟨row, hrow, hid, hstart⟩ := (hcandidate c hc).2 hepisode
    exact ⟨row, hrow, hid, .inr hstart⟩
  generalize hcs : R.candidates tables repo failure = candidates at *
  generalize hresult : selectHits R.contextLimitChars 0 candidates = result at hselected
  have hhits : (R.retrieve tables repo failure).hits = result.1 := by
    rw [retrieve_hits, hcs, hresult]
  have hchars : (R.retrieve tables repo failure).contextChars = result.2 := by
    rw [retrieve_chars, hcs, hresult]
  cases hselected with
  | whole n hfits hends =>
    have hleads : (candidates.take n).map MemoryHit.memoryId <+:
        candidates.map MemoryHit.memoryId := (List.take_prefix n candidates).map _
    constructor
    · intro h
      refine ⟨(Int.natCast_nonneg _).trans h.withinLimit, fun m c hc _ hpos hlong => ?_⟩
      exfalso
      unfold leftFor at hpos hlong
      by_cases hm : m < n
      · have hle := contentChars_take_mono candidates (show m + 1 ≤ n by omega)
        rw [contentChars_take_succ hc] at hle
        have := hfits (by omega)
        omega
      · rcases hends with hends | hends
        · have := (List.getElem?_eq_some_iff.1 hc).1
          omega
        · have hle := contentChars_take_mono candidates (show n ≤ m by omega)
          omega
    · intro h
      refine ⟨?_, ?_, ?_, ?_, ?_, ?_⟩
      · rw [hhits, hcs]
        exact hleads
      · rw [hhits]
        exact hids.sublist hleads.sublist
      · rw [hhits, hchars, Nat.zero_add]
      · rw [hchars]
        by_cases hn : n = 0
        · subst hn
          simpa [contentChars] using h.notNegative
        · simpa using hfits hn
      · rw [hhits, hcs]
        exact (List.dropLast_prefix _).trans (List.take_prefix n candidates)
      · intro hit hhit
        rw [hhits] at hhit
        exact hwhole hit (List.mem_of_mem_take hhit)
  | cut n last left hlast hleft hpos hlong =>
    have hin : last ∈ candidates := List.mem_of_getElem? hlast
    have hlt := (List.getElem?_eq_some_iff.1 hlast).1
    have hsame : left = leftFor R.contextLimitChars candidates n := by
      rw [hleft, leftFor]
      omega
    have hnext := contentChars_take_succ hlast
    constructor
    · intro h
      refine ⟨(Int.natCast_nonneg _).trans h.withinLimit, fun m c hc hepisode hmpos hmlong => ?_⟩
      have hmn : m = n := by
        unfold leftFor at hmpos hmlong hsame
        rcases Nat.lt_trichotomy m n with hm | hm | hm
        · have hle := contentChars_take_mono candidates (show m + 1 ≤ n by omega)
          rw [contentChars_take_succ hc] at hle
          omega
        · exact hm
        · have hle := contentChars_take_mono candidates (show n + 1 ≤ m by omega)
          omega
      subst hmn
      rw [hlast] at hc
      cases hc
      obtain ⟨row, hrow, hid, hstart⟩ := (hcandidate last hin).2 hepisode
      obtain ⟨other, -, -, hshown⟩ := h.outcome
        { last with content := truncatePreservingOutcome last.content left }
        (by rw [hhits]; simp) hepisode
      rw [headD_splitLines (.inr hstart), ← hsame]
      exact (truncate_keeps_iff hstart hpos hlong).2 _ hshown
    · intro h
      have hfull : contentChars (candidates.take n ++
          [{ last with content := truncatePreservingOutcome last.content left }]) =
            R.contextLimitChars.toNat := by
        have hcut := length_truncate hpos hlong
        simp only [contentChars, List.map_append, List.map_cons, List.map_nil, List.sum_append,
          List.sum_cons, List.sum_nil]
        unfold contentChars at hleft
        omega
      have hmap : (candidates.take n ++
          [{ last with content := truncatePreservingOutcome last.content left }]).map
            MemoryHit.memoryId = (candidates.take (n + 1)).map MemoryHit.memoryId := by
        rw [List.take_add_one, hlast]
        simp
      have hleads : (candidates.take (n + 1)).map MemoryHit.memoryId <+:
          candidates.map MemoryHit.memoryId := (List.take_prefix _ candidates).map _
      refine ⟨?_, ?_, ?_, ?_, ?_, ?_⟩
      · rw [hhits, hcs, hmap]
        exact hleads
      · rw [hhits, hmap]
        exact hids.sublist hleads.sublist
      · rw [hhits, hchars, hfull]
      · rw [hchars]
        have := h.notNegative
        omega
      · rw [hhits, hcs, List.dropLast_concat]
        exact List.take_prefix n candidates
      · intro hit hhit hepisode
        rw [hhits] at hhit
        rcases List.mem_append.1 hhit with hhit | hhit
        · exact hwhole hit (List.mem_of_mem_take hhit) hepisode
        · rw [List.mem_singleton.1 hhit] at hepisode ⊢
          obtain ⟨row, hrow, hid, hstart⟩ := (hcandidate last hin).2 hepisode
          refine ⟨row, hrow, hid, (truncate_keeps_iff hstart hpos hlong).1 ?_⟩
          have hroom := h.room n last hlast hepisode (hsame ▸ hpos) (hsame ▸ hlong)
          rw [headD_splitLines (.inr hstart), ← hsame] at hroom
          exact hroom

namespace Sample

/-- A failed run that the store remembers. -/
def failedEpisode : Episode where
  id := "episode:r1"
  runId := "r1"
  repo := "o/r"
  taskFamily := "test"
  failureSummary := "import error"
  attempts := 1
  success := false

def remembered : MemoryTables := ⟨[⟨failedEpisode, "f", 0⟩], []⟩

/-- A retriever that finds episodes by their fingerprint only. -/
def fingerprints (limit : Int) : MemoryRetriever where
  search := ⟨id, fun _ _ => none, fun _ _ => none⟩
  fingerprint _ _ := "f"
  messages _ := []
  contextLimitChars := limit

/-- Twenty characters cut the outcome of the failed run. -/
theorem outcome_cut :
    ¬ RetrievalSound (fingerprints 20) remembered "o/r" ⟨"", "", [], "", none, "unknown"⟩ := by
  intro h
  have hhits :
      ((fingerprints 20).retrieve remembered "o/r" ⟨"", "", [], "", none, "unknown"⟩).hits =
        [⟨"episode:r1", "episode:o/r", "OUTCOME=\n[truncated]", 1⟩] := by
    decide +kernel
  obtain ⟨row, hrow, -, hshown⟩ := h.outcome
    ⟨"episode:r1", "episode:o/r", "OUTCOME=\n[truncated]", 1⟩
    (by rw [hhits]; exact List.mem_singleton.2 rfl) (by decide +kernel)
  rw [List.mem_singleton.1 hrow] at hshown
  have hleads := hshown.isPrefix
  revert hleads
  decide +kernel

end Sample

end EvoCI
