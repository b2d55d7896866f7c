import Mathlib.Data.List.Perm.Basic
import EvoCI.Benchmark.Runner

/-! What survives the crashes of a benchmark: as long as no write is cut short, every result that
is not an error stays in `runs.jsonl`, its task is not executed again, and the run that returns
has one result for each entry. -/

namespace EvoCI

open Library

namespace BenchmarkRunner

variable {μ : Type} {R : BenchmarkRunner μ}

/-! ## Reading back what was written -/

/-- The JSON of the result: it validates to the result, escapes control characters and is not
blank. -/
structure Reads (R : BenchmarkRunner μ) (r : BenchmarkResult μ) : Prop where
  back : R.modelValidateJson (R.modelDumpJson r) = some r
  escaped : ∀ c ∈ (R.modelDumpJson r).toList, ' ' ≤ c
  object : strip (R.modelDumpJson r) ≠ ""

/-- The line boundaries that JSON does not escape. -/
def isRawBreak (c : Char) : Bool := c = '\u0085' || c = '\u2028' || c = '\u2029'

theorem isLineBreak_of_escaped {c : Char} (h : ' ' ≤ c) (hraw : isRawBreak c = false) :
    isLineBreak c = false := by
  simp only [isRawBreak, Bool.or_eq_false_iff, decide_eq_false_iff_not] at hraw
  have hreturn : ¬ c ≤ '\r' := fun hle => absurd (Char.le_trans h hle) (by decide)
  have hcontrol : ¬ c ≤ '\x1e' := fun hle => absurd (Char.le_trans h hle) (by decide)
  simp [isLineBreak, hreturn, hcontrol, hraw.1.1, hraw.1.2, hraw.2]

theorem text_cons (r : BenchmarkResult μ) (results : List (BenchmarkResult μ)) :
    R.text (r :: results) = (R.modelDumpJson r).toList ++ '\n' :: R.text results := by
  simp [text, line]

theorem text_append (results more : List (BenchmarkResult μ)) :
    R.text (results ++ more) = R.text results ++ R.text more :=
  List.flatMap_append

/-- What was written for some results is read back as these results. -/
theorem readRuns_text {results : List (BenchmarkResult μ)} (hreads : ∀ r ∈ results, R.Reads r)
    (hraw : ∀ c ∈ R.text results, isRawBreak c = false) :
    R.readRuns (String.ofList (R.text results)) = .ok results := by
  have hreturns : '\r' ∉ R.text results := by
    intro hin
    obtain ⟨r, hr, hin⟩ := List.mem_flatMap.1 hin
    rw [line, String.toList_append] at hin
    rcases List.mem_append.1 hin with hin | hin
    · exact absurd ((hreads r hr).escaped _ hin) (by decide)
    · exact absurd hin (by decide)
  unfold readRuns splitLines
  rw [String.toList_ofList, String.toList_ofList, universalNewlines_of_notMem _ hreturns]
  clear hreturns
  induction results with
  | nil => rfl
  | cons r results ih =>
    rw [text_cons] at hraw ⊢
    have hdump := hreads r List.mem_cons_self
    have hplain : ∀ c ∈ (R.modelDumpJson r).toList, isLineBreak c = false := fun c hc =>
      isLineBreak_of_escaped (hdump.escaped c hc) (hraw c (List.mem_append_left _ hc))
    have hrest := ih (fun other hother => hreads other (List.mem_cons_of_mem _ hother))
      fun c hc => hraw c (List.mem_append_right _ (List.mem_cons_of_mem _ hc))
    rw [splitLinesFrom_line hplain, List.reverse_nil, List.nil_append, String.ofList_toList,
      validateLines, if_neg hdump.object, hdump.back, hrest]
    rfl

/-! ## What a run takes over -/

theorem get?_priorResults {results : List (BenchmarkResult μ)} {id : String}
    {r : BenchmarkResult μ} (h : Dict.get? (priorResults results) id = some r) :
    r ∈ results ∧ r.taskId = id ∧ r.isError = false := by
  unfold priorResults at h
  induction results using List.reverseRecOn with
  | nil => cases h
  | append_singleton results last ih =>
    rw [List.foldl_append, List.foldl_cons, List.foldl_nil] at h
    have hearlier : ∀ hold, r ∈ results ++ [last] ∧ r.taskId = id ∧ r.isError = false :=
      fun hold => by
        obtain ⟨hin, hrest⟩ := ih hold
        exact ⟨List.mem_append_left _ hin, hrest⟩
    split at h
    · exact hearlier h
    next herror =>
      rw [Dict.get?_set] at h
      split at h
      next hid =>
        cases h
        exact ⟨by simp, hid.symm, Bool.eq_false_iff.2 herror⟩
      · exact hearlier h

theorem priorResults_some {results : List (BenchmarkResult μ)} {r : BenchmarkResult μ}
    (hr : r ∈ results) (herror : r.isError = false) :
    ∃ kept, Dict.get? (priorResults results) r.taskId = some kept := by
  unfold priorResults
  induction results using List.reverseRecOn with
  | nil => cases hr
  | append_singleton results last ih =>
    rw [List.foldl_append, List.foldl_cons, List.foldl_nil]
    rcases List.mem_append.1 hr with hr | hr
    · obtain ⟨kept, hkept⟩ := ih hr
      split
      · exact ⟨kept, hkept⟩
      · rw [Dict.get?_set]
        split
        · exact ⟨_, rfl⟩
        · exact ⟨kept, hkept⟩
    · obtain rfl : r = last := by simpa using hr
      rw [if_neg (by rw [herror]; decide), Dict.get?_set_self]
      exact ⟨_, rfl⟩

/-- The state a run starts in, for the entries it has placed. -/
structure Placed (R : BenchmarkRunner μ) (prior : Dict String (BenchmarkResult μ))
    (entries : List BenchmarkManifestEntry) (st : RunState μ) : Prop where
  waiting : st.waiting =
    entries.filter fun entry => (Dict.get? prior entry.taskId).isNone && !entry.skipped
  running : st.running = []
  finished : st.finished = []
  results : ∀ id r, Dict.get? st.resultsById id = some r → Dict.get? prior id = some r ∨
    Dict.get? prior id = none ∧ ∃ entry ∈ entries, entry.taskId = id ∧ entry.skipped = true ∧
      r = R.skippedResult entry
  complete : ∀ entry ∈ entries, entry.skipped = true ∨ Dict.get? prior entry.taskId ≠ none →
    ∃ r, Dict.get? st.resultsById entry.taskId = some r

theorem placed_foldl (R : BenchmarkRunner μ) (prior : Dict String (BenchmarkResult μ))
    (entries : List BenchmarkManifestEntry) :
    Placed R prior entries (entries.foldl (R.place prior) {}) := by
  induction entries using List.reverseRecOn with
  | nil => exact ⟨rfl, rfl, rfl, by simp, by simp⟩
  | append_singleton entries entry ih =>
    rw [List.foldl_append, List.foldl_cons, List.foldl_nil]
    generalize entries.foldl (R.place prior) {} = st at ih ⊢
    obtain ⟨hwaiting, hrunning, hfinished, hresults, hcomplete⟩ := ih
    have hset : ∀ r, (Dict.get? prior entry.taskId = some r ∨
        Dict.get? prior entry.taskId = none ∧ entry.skipped = true ∧ r = R.skippedResult entry) →
        Placed R prior (entries ++ [entry])
          { st with resultsById := st.resultsById.set entry.taskId r } := by
      intro r hr
      refine ⟨?_, hrunning, hfinished, fun id other hother => ?_, fun other hother hdone => ?_⟩
      · have hplaced : ((Dict.get? prior entry.taskId).isNone && !entry.skipped) = false := by
          rcases hr with hr | ⟨-, hr, -⟩
          · simp [hr]
          · simp [hr]
        rw [List.filter_append, List.filter_cons_of_neg (by simpa using hplaced), List.filter_nil,
          List.append_nil]
        exact hwaiting
      · rw [Dict.get?_set] at hother
        split at hother
        next hid =>
          cases hother
          subst hid
          rcases hr with hr | ⟨hnone, hskipped, hr⟩
          · exact .inl hr
          · exact .inr ⟨hnone, entry, by simp, rfl, hskipped, hr⟩
        · rcases hresults id other hother with hprior | ⟨hnone, found, hfound, hrest⟩
          · exact .inl hprior
          · exact .inr ⟨hnone, found, List.mem_append_left _ hfound, hrest⟩
      · rw [Dict.get?_set]
        split
        · exact ⟨r, rfl⟩
        next hid =>
          have hother : other ∈ entries := by
            rcases List.mem_append.1 hother with hin | hin
            · exact hin
            · exact absurd (by rw [List.mem_singleton.1 hin]) hid
          exact hcomplete other hother hdone
    unfold place
    split
    next r hr => exact hset r (.inl hr)
    next hnone =>
      split
      next hskipped => exact hset _ (.inr ⟨hnone, hskipped, rfl⟩)
      next hskipped =>
        refine ⟨?_, hrunning, hfinished, fun id other hother => ?_, fun other hother hdone => ?_⟩
        · simp [hwaiting, List.filter_append, hnone, hskipped]
        · rcases hresults id other hother with hprior | ⟨hprior, found, hfound, hrest⟩
          · exact .inl hprior
          · exact .inr ⟨hprior, found, List.mem_append_left _ hfound, hrest⟩
        · rcases List.mem_append.1 hother with hin | hin
          · exact hcomplete other hin hdone
          · rw [List.mem_singleton.1 hin] at hdone
            rcases hdone with hdone | hdone
            · exact absurd hdone hskipped
            · exact absurd hnone hdone

/-! ## What happened to a task -/

/-- A result of the task that is not an error was written. -/
def SettledIn (events : List (RunnerEvent μ)) (id : String) : Prop :=
  ∃ r, .wrote r ∈ events ∧ r.taskId = id ∧ r.isError = false

/-- The last result of the task that was written. -/
def lastWritten (events : List (RunnerEvent μ)) (id : String) : Option (BenchmarkResult μ) :=
  events.foldl (fun last event =>
    match event with
    | .wrote r => if r.taskId = id then some r else last
    | .executed _ => last) none

@[simp] theorem lastWritten_wrote (events : List (RunnerEvent μ)) (r : BenchmarkResult μ)
    (id : String) : lastWritten (events ++ [.wrote r]) id =
      if r.taskId = id then some r else lastWritten events id := by
  simp [lastWritten]

@[simp] theorem lastWritten_executed (events : List (RunnerEvent μ)) (taskId id : String) :
    lastWritten (events ++ [.executed taskId]) id = lastWritten events id := by
  simp [lastWritten]

theorem lastWritten_mem {events : List (RunnerEvent μ)} {id : String} {r : BenchmarkResult μ}
    (h : lastWritten events id = some r) : .wrote r ∈ events ∧ r.taskId = id := by
  induction events using List.reverseRecOn with
  | nil => cases h
  | append_singleton events last ih =>
    cases last with
    | executed taskId =>
      rw [lastWritten_executed] at h
      exact (ih h).imp_left (List.mem_append_left _)
    | wrote other =>
      rw [lastWritten_wrote] at h
      split at h
      next hid =>
        cases h
        exact ⟨List.mem_append_right _ (List.mem_singleton.2 rfl), hid⟩
      · exact (ih h).imp_left (List.mem_append_left _)

theorem settledIn_wrote {events : List (RunnerEvent μ)} {r : BenchmarkResult μ} {id : String} :
    SettledIn (events ++ [.wrote r]) id ↔
      SettledIn events id ∨ r.taskId = id ∧ r.isError = false := by
  simp only [SettledIn, List.mem_append, List.mem_singleton, RunnerEvent.wrote.injEq]
  constructor
  · rintro ⟨other, hold | rfl, hid, herror⟩
    · exact .inl ⟨other, hold, hid, herror⟩
    · exact .inr ⟨hid, herror⟩
  · rintro (⟨other, hold, hid, herror⟩ | ⟨hid, herror⟩)
    · exact ⟨other, .inl hold, hid, herror⟩
    · exact ⟨r, .inr rfl, hid, herror⟩

theorem settledIn_executed {events : List (RunnerEvent μ)} {taskId id : String} :
    SettledIn (events ++ [.executed taskId]) id ↔ SettledIn events id := by
  simp [SettledIn]

/-- What holds of all that happened: a settled task is not executed again, and the last result of
a settled task is not an error. -/
structure EventsSound (events : List (RunnerEvent μ)) : Prop where
  notAgain : events.Pairwise fun earlier later =>
    ∀ r, earlier = .wrote r → r.isError = false → later ≠ .executed r.taskId
  settledLast : ∀ id, SettledIn events id → ∃ r, lastWritten events id = some r ∧ r.isError = false

theorem EventsSound.nil : EventsSound ([] : List (RunnerEvent μ)) :=
  ⟨List.Pairwise.nil, fun _ ⟨_, hin, _⟩ => absurd hin List.not_mem_nil⟩

theorem EventsSound.executed {events : List (RunnerEvent μ)} {id : String}
    (h : EventsSound events) (hopen : ¬ SettledIn events id) :
    EventsSound (events ++ [.executed id]) := by
  refine ⟨?_, fun other hsettled => ?_⟩
  · rw [List.pairwise_append]
    refine ⟨h.notAgain, List.pairwise_singleton _ _, fun earlier hin later hlater r hr herror => ?_⟩
    rw [List.mem_singleton.1 hlater]
    rintro ⟨⟩
    subst hr
    exact hopen ⟨r, hin, rfl, herror⟩
  · rw [lastWritten_executed]
    exact h.settledLast other (settledIn_executed.1 hsettled)

theorem EventsSound.wrote {events : List (RunnerEvent μ)} {r : BenchmarkResult μ}
    (h : EventsSound events) (hkeeps : SettledIn events r.taskId → r.isError = false) :
    EventsSound (events ++ [.wrote r]) := by
  refine ⟨?_, fun id hsettled => ?_⟩
  · rw [List.pairwise_append]
    refine ⟨h.notAgain, List.pairwise_singleton _ _, fun earlier _ later hlater other _ _ => ?_⟩
    rw [List.mem_singleton.1 hlater]
    simp
  · rw [lastWritten_wrote]
    split
    next hid =>
      refine ⟨r, rfl, ?_⟩
      rcases settledIn_wrote.1 hsettled with hold | ⟨-, herror⟩
      · exact hkeeps (hid ▸ hold)
      · exact herror
    next hid =>
      exact h.settledLast id ((settledIn_wrote.1 hsettled).resolve_right fun hnew => hid hnew.1)

theorem EventsSound.wroteAll {results : List (BenchmarkResult μ)} {events : List (RunnerEvent μ)}
    (h : EventsSound events) (hdistinct : (results.map BenchmarkResult.taskId).Nodup)
    (hkeeps : ∀ r ∈ results, SettledIn events r.taskId → r.isError = false) :
    EventsSound (events ++ results.map .wrote) := by
  induction results generalizing events with
  | nil => simpa using h
  | cons r results ih =>
    obtain ⟨hnew, hdistinct⟩ := List.nodup_cons.1 hdistinct
    have hone := h.wrote (hkeeps r List.mem_cons_self)
    have hrest := ih hone hdistinct fun other hother hsettled =>
      hkeeps other (List.mem_cons_of_mem _ hother)
        ((settledIn_wrote.1 hsettled).resolve_right fun hsame =>
          hnew (hsame.1 ▸ List.mem_map_of_mem hother))
    simpa using hrest

theorem settledIn_wroteAll {events : List (RunnerEvent μ)} {results : List (BenchmarkResult μ)}
    {id : String} : SettledIn (events ++ results.map .wrote) id ↔
      SettledIn events id ∨ ∃ r ∈ results, r.taskId = id ∧ r.isError = false := by
  simp only [SettledIn, List.mem_append, List.mem_map, RunnerEvent.wrote.injEq]
  constructor
  · rintro ⟨r, hold | ⟨other, hin, rfl⟩, hid, herror⟩
    · exact .inl ⟨r, hold, hid, herror⟩
    · exact .inr ⟨other, hin, hid, herror⟩
  · rintro (⟨r, hold, hid, herror⟩ | ⟨r, hin, hid, herror⟩)
    · exact ⟨r, .inl hold, hid, herror⟩
    · exact ⟨r, .inr ⟨r, hin, rfl⟩, hid, herror⟩

/-! ## What a state holds -/

/-- The results there can be when tasks end with these answers. -/
inductive Possible (R : BenchmarkRunner μ) (answers : List (Except Raised μ)) :
    BenchmarkResult μ → Prop where
  | skipped {entry : BenchmarkManifestEntry} (hentry : entry ∈ R.entries)
      (hskipped : entry.skipped = true) : Possible R answers (R.skippedResult entry)
  | executed {entry : BenchmarkManifestEntry} {answer : Except Raised μ}
      (hentry : entry ∈ R.entries) (hskipped : entry.skipped = false) (hanswer : answer ∈ answers) :
      Possible R answers (R.executedResult entry answer)

theorem executedResult_taskId (entry : BenchmarkManifestEntry) (answer : Except Raised μ) :
    (R.executedResult entry answer).taskId = entry.taskId ∧
      (R.executedResult entry answer).skipped = false := by
  cases answer <;> exact ⟨rfl, rfl⟩

theorem entry_unique {entry other : BenchmarkManifestEntry} (hentry : entry ∈ R.entries)
    (hother : other ∈ R.entries) (h : entry.taskId = other.taskId) : entry = other :=
  List.inj_on_of_nodup_map R.distinct hentry hother h

/-- A result is of an entry, and skipped when that is. -/
theorem Possible.of_entry {answers : List (Except Raised μ)} {r : BenchmarkResult μ}
    (h : Possible R answers r) :
    ∃ entry ∈ R.entries, entry.taskId = r.taskId ∧ entry.skipped = r.skipped := by
  cases h with
  | @skipped entry hentry hskipped => exact ⟨entry, hentry, rfl, hskipped⟩
  | @executed entry answer hentry hskipped hanswer =>
    obtain ⟨hid, hresult⟩ := executedResult_taskId (R := R) entry answer
    exact ⟨entry, hentry, hid.symm, hskipped.trans hresult.symm⟩

theorem Possible.not_skipped {answers : List (Except Raised μ)} {r : BenchmarkResult μ}
    (h : Possible R answers r) {entry : BenchmarkManifestEntry} (hentry : entry ∈ R.entries)
    (hskipped : entry.skipped = false) (hid : r.taskId = entry.taskId) : r.skipped = false := by
  obtain ⟨other, hother, hsame, hresult⟩ := h.of_entry
  rw [← hresult, entry_unique hother hentry (hsame.trans hid), hskipped]

/-- A task with a result that is an error is not one to skip. -/
theorem Possible.executed_of_error {answers : List (Except Raised μ)} {r : BenchmarkResult μ}
    (h : Possible R answers r) {entry : BenchmarkManifestEntry} (hentry : entry ∈ R.entries)
    (hid : r.taskId = entry.taskId) (herror : r.isError = true) : entry.skipped = false := by
  cases h with
  | skipped hother hskipped => cases herror
  | @executed other answer hother hskipped hanswer =>
    have hsame := (executedResult_taskId (R := R) other answer).1.symm.trans hid
    rw [← entry_unique hother hentry hsame]
    exact hskipped

/-- The lines of the file: whole results, among them one that is no error for each settled task
that is executed. -/
structure FileHolds (R : BenchmarkRunner μ) (answers : List (Except Raised μ))
    (file : Option String) (events : List (RunnerEvent μ)) (lines : List (BenchmarkResult μ)) :
    Prop where
  contents : file = some (String.ofList (R.text lines))
  possible : ∀ r ∈ lines, Possible R answers r
  kept : ∀ entry ∈ R.entries, entry.skipped = false → SettledIn events entry.taskId →
    ∃ r ∈ lines, r.taskId = entry.taskId ∧ r.isError = false
  written : ∀ r ∈ lines, r.isError = false → r.skipped = false → SettledIn events r.taskId

/-- The tasks that a run has not taken up the result of. -/
def active (st : RunState μ) : List String :=
  (st.waiting ++ st.running).map BenchmarkManifestEntry.taskId ++
    st.finished.map BenchmarkResult.taskId

/-- What a run in memory holds: it executes tasks that are not settled, each once, and has a
result for every other entry. -/
structure Executing (R : BenchmarkRunner μ) (answers : List (Except Raised μ))
    (begun events : List (RunnerEvent μ)) (st : RunState μ) : Prop where
  begins : ∃ later, events = begun ++ later ∧ ∀ entry ∈ R.entries, entry.skipped = false →
    ¬ SettledIn begun entry.taskId → entry ∈ st.waiting ∨ .executed entry.taskId ∈ later
  distinct : (active st).Nodup
  tasks : ∀ entry ∈ st.waiting ++ st.running, entry ∈ R.entries ∧ entry.skipped = false
  finished : ∀ r ∈ st.finished, Possible R answers r ∧ r.skipped = false
  unsettled : ∀ id ∈ active st, ¬ SettledIn events id
  results : ∀ id r, Dict.get? st.resultsById id = some r →
    r.taskId = id ∧ Possible R answers r ∧
      (r.isError = false → r.skipped = false → SettledIn events id) ∧
      (SettledIn events id → r.isError = false)
  complete : ∀ entry ∈ R.entries, entry.taskId ∈ active st ∨
    ∃ r, Dict.get? st.resultsById entry.taskId = some r

/-- What a run that has rewritten the file holds. -/
structure Ended (R : BenchmarkRunner μ) (begun events : List (RunnerEvent μ))
    (file : Option String) (results : List (BenchmarkResult μ)) : Prop where
  begins : ∃ later, events = begun ++ later ∧ ∀ entry ∈ R.entries, entry.skipped = false →
    ¬ SettledIn begun entry.taskId → .executed entry.taskId ∈ later
  inOrder : results.map BenchmarkResult.taskId = R.entries.map BenchmarkManifestEntry.taskId
  contents : file = some (String.ofList (R.text results))

def ProcessSound (R : BenchmarkRunner μ) (answers : List (Except Raised μ)) (s : Bench μ) : Prop :=
  match s.process with
  | .down => True
  | .executing begun st => EventsSound begun ∧ Executing R answers begun s.events st
  | .rewritten begun results | .returned begun results =>
    EventsSound begun ∧ Ended R begun s.events s.file results
  | .raised _ => False

structure Kept (R : BenchmarkRunner μ) (answers : List (Except Raised μ)) (s : Bench μ) : Prop where
  file : ∃ lines, FileHolds R answers s.file s.events lines
  events : EventsSound s.events
  possible : ∀ r, .wrote r ∈ s.events → Possible R answers r
  process : ProcessSound R answers s

/-! ## Launching -/

section Launch

variable {answers : List (Except Raised μ)} {file : Option String}
  {events : List (RunnerEvent μ)} {lines : List (BenchmarkResult μ)}

/-- The run that takes the results of the lines over executes what is not settled. -/
theorem executing_begin (h : FileHolds R answers file events lines) :
    Executing R answers events events (R.entries.foldl (R.place (priorResults lines)) {}) := by
  obtain ⟨hwaiting, hrunning, hfinished, hresults, hcomplete⟩ :=
    placed_foldl R (priorResults lines) R.entries
  generalize R.entries.foldl (R.place (priorResults lines)) {} = st at *
  have hopen : ∀ entry ∈ st.waiting, entry ∈ R.entries ∧ entry.skipped = false ∧
      ¬ SettledIn events entry.taskId := by
    intro entry hentry
    rw [hwaiting] at hentry
    obtain ⟨hin, hplace⟩ := List.mem_filter.1 hentry
    simp only [Bool.and_eq_true, Option.isNone_iff_eq_none, Bool.not_eq_true'] at hplace
    refine ⟨hin, hplace.2, fun hsettled => ?_⟩
    obtain ⟨r, hr, hid, herror⟩ := h.kept entry hin hplace.2 hsettled
    obtain ⟨kept, hkept⟩ := priorResults_some hr herror
    rw [hid, hplace.1] at hkept
    cases hkept
  have hactive : active st = st.waiting.map BenchmarkManifestEntry.taskId := by
    simp [active, hrunning, hfinished]
  have hprior : ∀ id r, Dict.get? (priorResults lines) id = some r →
      r.taskId = id ∧ Possible R answers r ∧ r.isError = false ∧
        (r.skipped = false → SettledIn events id) := by
    intro id r hr
    obtain ⟨hin, hid, herror⟩ := get?_priorResults hr
    exact ⟨hid, h.possible r hin, herror, fun hskipped => hid ▸ h.written r hin herror hskipped⟩
  refine ⟨⟨[], (List.append_nil _).symm, fun entry hentry hskipped hnot => .inl ?_⟩, ?_, ?_, ?_, ?_,
    ?_, fun entry hentry => ?_⟩
  · rw [hwaiting]
    refine List.mem_filter.2 ⟨hentry, ?_⟩
    cases hr : Dict.get? (priorResults lines) entry.taskId with
    | none => simp [hskipped]
    | some r =>
      obtain ⟨hid, hpossible, -, hsettled⟩ := hprior _ r hr
      exact absurd (hsettled (hpossible.not_skipped hentry hskipped hid)) hnot
  · rw [hactive, hwaiting]
    exact R.distinct.sublist (List.filter_sublist.map _)
  · intro entry hentry
    rw [hrunning, List.append_nil] at hentry
    exact ⟨(hopen entry hentry).1, (hopen entry hentry).2.1⟩
  · intro r hr
    rw [hfinished] at hr
    cases hr
  · intro id hid
    rw [hactive] at hid
    obtain ⟨entry, hentry, rfl⟩ := List.mem_map.1 hid
    exact (hopen entry hentry).2.2
  · intro id r hr
    rcases hresults id r hr with hr | ⟨-, entry, hentry, hid, hskipped, rfl⟩
    · obtain ⟨hid, hpossible, herror, hsettled⟩ := hprior id r hr
      exact ⟨hid, hpossible, fun _ => hsettled, fun _ => herror⟩
    · exact ⟨hid, .skipped hentry hskipped, fun _ hnot => absurd hnot (by simp [skippedResult]),
        fun _ => rfl⟩
  · by_cases hdone : entry.skipped = true ∨
        Dict.get? (priorResults lines) entry.taskId ≠ none
    · exact .inr (hcomplete entry hentry hdone)
    · left
      rw [hactive, hwaiting]
      push Not at hdone
      exact List.mem_map_of_mem (List.mem_filter.2 ⟨hentry, by simp [hdone.2, hdone.1]⟩)

theorem launch_fresh (R : BenchmarkRunner μ) (answers : List (Except Raised μ))
    (file : Option String) : Kept R answers (R.fresh file) := by
  have hholds : FileHolds R answers (some "") [] [] := by
    refine ⟨rfl, by simp, fun _ _ _ hsettled => ?_, by simp⟩
    obtain ⟨_, hin, _⟩ := hsettled
    cases hin
  exact ⟨⟨[], hholds⟩, EventsSound.nil, fun _ hin => absurd hin List.not_mem_nil,
    EventsSound.nil, executing_begin hholds⟩

/-- A file without raw line boundaries is resumed from. -/
theorem launch_resume {s : Bench μ} (hreads : ∀ r, Possible R answers r → R.Reads r)
    (hraw : ∀ c ∈ (s.file.getD "").toList, isRawBreak c = false)
    (hfile : FileHolds R answers s.file s.events lines) (hevents : EventsSound s.events)
    (hpossible : ∀ r, .wrote r ∈ s.events → Possible R answers r) :
    Kept R answers (R.launch true s) := by
  have hcontents := hfile.contents
  have hread : R.readRuns (String.ofList (R.text lines)) = .ok lines := by
    refine readRuns_text (fun r hr => hreads r (hfile.possible r hr)) fun c hc => hraw c ?_
    rw [hcontents]
    simpa using hc
  unfold launch
  rw [hcontents]
  simp only [hread]
  exact ⟨⟨lines, rfl, hfile.possible, hfile.kept, hfile.written⟩, hevents, hpossible, hevents,
    executing_begin hfile⟩

end Launch

/-! ## Steps of a run -/

section Steps

variable {answers : List (Except Raised μ)} {file : Option String}
  {begun events : List (RunnerEvent μ)} {lines : List (BenchmarkResult μ)} {st : RunState μ}

theorem cons_eraseIdx_perm {α : Type} {l : List α} {i : Nat} {a : α} (h : l[i]? = some a) :
    (a :: l.eraseIdx i).Perm l := by
  obtain ⟨hlt, rfl⟩ := List.getElem?_eq_some_iff.1 h
  exact List.getElem_cons_eraseIdx_perm hlt

/-- Executing a task is no news of settled ones. -/
theorem FileHolds.executed (h : FileHolds R answers file events lines) (id : String) :
    FileHolds R answers file (events ++ [.executed id]) lines :=
  ⟨h.contents, h.possible, fun entry hentry hskipped hsettled =>
    h.kept entry hentry hskipped (settledIn_executed.1 hsettled),
    fun r hr herror hskipped => settledIn_executed.2 (h.written r hr herror hskipped)⟩

theorem Executing.start (h : Executing R answers begun events st) {i : Nat}
    {entry : BenchmarkManifestEntry} (hi : st.waiting[i]? = some entry) :
    entry.taskId ∈ active st ∧
      Executing R answers begun (events ++ [.executed entry.taskId])
        { st with waiting := st.waiting.eraseIdx i, running := st.running ++ [entry] } := by
  have hperm : (st.waiting.eraseIdx i ++ (st.running ++ [entry])).Perm
      (st.waiting ++ st.running) := by
    rw [← List.append_assoc]
    refine List.perm_append_singleton _ _ |>.trans ?_
    exact (cons_eraseIdx_perm hi).append_right st.running
  have hactive : (active { st with
      waiting := st.waiting.eraseIdx i, running := st.running ++ [entry] }).Perm (active st) :=
    (hperm.map _).append_right _
  have hwaits : entry ∈ st.waiting := List.mem_of_getElem? hi
  refine ⟨List.mem_append_left _ (List.mem_map_of_mem (List.mem_append_left _ hwaits)), ?_⟩
  obtain ⟨later, hlater, hopen⟩ := h.begins
  refine ⟨⟨later ++ [.executed entry.taskId], by rw [hlater, List.append_assoc], ?_⟩,
    hactive.nodup_iff.2 h.distinct, fun other hother => h.tasks other (hperm.mem_iff.1 hother),
    h.finished, fun id hid hsettled => h.unsettled id (hactive.mem_iff.1 hid)
      (settledIn_executed.1 hsettled), fun id r hr => ?_, fun other hother => ?_⟩
  · intro other hother hskipped hnot
    rcases hopen other hother hskipped hnot with hwaiting | hexecuted
    · rcases List.mem_cons.1 ((cons_eraseIdx_perm hi).mem_iff.2 hwaiting) with rfl | hwaiting
      · exact .inr (List.mem_append_right _ (List.mem_singleton.2 rfl))
      · exact .inl hwaiting
    · exact .inr (List.mem_append_left _ hexecuted)
  · obtain ⟨hid, hpossible, hwritten, hkeeps⟩ := h.results id r hr
    exact ⟨hid, hpossible, fun herror hskipped => settledIn_executed.2 (hwritten herror hskipped),
      fun hsettled => hkeeps (settledIn_executed.1 hsettled)⟩
  · exact (h.complete other hother).imp_left hactive.mem_iff.2

theorem Executing.finish (h : Executing R answers begun events st) {i : Nat}
    {entry : BenchmarkManifestEntry} (hi : st.running[i]? = some entry) {answer : Except Raised μ}
    (hanswer : answer ∈ answers) :
    Executing R answers begun events
      { st with
        running := st.running.eraseIdx i
        finished := st.finished ++ [R.executedResult entry answer] } := by
  obtain ⟨hid, hskipped⟩ := executedResult_taskId (R := R) entry answer
  have hsub : ∀ other ∈ st.waiting ++ st.running.eraseIdx i, other ∈ st.waiting ++ st.running := by
    intro other hother
    rcases List.mem_append.1 hother with hin | hin
    · exact List.mem_append_left _ hin
    · exact List.mem_append_right _ (List.mem_of_mem_eraseIdx hin)
  have hactive : (active { st with
      running := st.running.eraseIdx i
      finished := st.finished ++ [R.executedResult entry answer] }).Perm (active st) := by
    have hrunning : (entry :: (st.waiting ++ st.running.eraseIdx i)).Perm
        (st.waiting ++ st.running) :=
      List.perm_middle.symm.trans ((cons_eraseIdx_perm hi).append_left st.waiting)
    have hmoved := (hrunning.map BenchmarkManifestEntry.taskId).append_right
      (st.finished.map BenchmarkResult.taskId)
    refine List.Perm.trans ?_ hmoved
    have hlast : (st.finished ++ [R.executedResult entry answer]).map BenchmarkResult.taskId =
        st.finished.map BenchmarkResult.taskId ++ [entry.taskId] := by
      simp [hid]
    change ((st.waiting ++ st.running.eraseIdx i).map BenchmarkManifestEntry.taskId ++
      (st.finished ++ [R.executedResult entry answer]).map BenchmarkResult.taskId).Perm _
    rw [hlast, ← List.append_assoc]
    exact List.perm_append_singleton _ _
  have hentry := h.tasks entry (List.mem_append_right _ (List.mem_of_getElem? hi))
  refine ⟨h.begins, hactive.nodup_iff.2 h.distinct,
    fun other hother => h.tasks other (hsub other hother), fun r hr => ?_,
    fun id hin => h.unsettled id (hactive.mem_iff.1 hin), h.results,
    fun other hother => (h.complete other hother).imp_left hactive.mem_iff.2⟩
  rcases List.mem_append.1 hr with hr | hr
  · exact h.finished r hr
  · rw [List.mem_singleton.1 hr]
    exact ⟨.executed hentry.1 hentry.2 hanswer, hskipped⟩

/-- A whole line more in the file. -/
theorem FileHolds.append (h : FileHolds R answers file events lines) {r : BenchmarkResult μ}
    (hr : Possible R answers r) :
    FileHolds R answers (appended file (R.line r).toList) (events ++ [.wrote r])
      (lines ++ [r]) := by
  refine ⟨?_, fun other hother => ?_, fun entry hentry hskipped hsettled => ?_,
    fun other hother herror hskipped => ?_⟩
  · rw [h.contents, text_append, appended]
    simp [text]
  · rcases List.mem_append.1 hother with hin | hin
    · exact h.possible other hin
    · exact List.mem_singleton.1 hin ▸ hr
  · rcases settledIn_wrote.1 hsettled with hold | ⟨hid, herror⟩
    · obtain ⟨other, hin, hother⟩ := h.kept entry hentry hskipped hold
      exact ⟨other, List.mem_append_left _ hin, hother⟩
    · exact ⟨r, List.mem_append_right _ (List.mem_singleton.2 rfl), hid, herror⟩
  · rw [settledIn_wrote]
    rcases List.mem_append.1 hother with hin | hin
    · exact .inl (h.written other hin herror hskipped)
    · rw [List.mem_singleton.1 hin] at herror ⊢
      exact .inr ⟨rfl, herror⟩

theorem appended_nil (h : FileHolds R answers file events lines) : appended file [] = file := by
  rw [h.contents]
  simp [appended]

/-- The next result that is taken up is of a task that is not settled yet. -/
theorem Executing.unsettled_head (h : Executing R answers begun events st) {r : BenchmarkResult μ}
    {finished : List (BenchmarkResult μ)} (hr : st.finished = r :: finished) :
    ¬ SettledIn events r.taskId := by
  refine h.unsettled r.taskId (List.mem_append_right _ ?_)
  rw [hr]
  exact List.mem_map_of_mem List.mem_cons_self

theorem Executing.append (h : Executing R answers begun events st) {r : BenchmarkResult μ}
    {finished : List (BenchmarkResult μ)} (hr : st.finished = r :: finished) :
    Executing R answers begun (events ++ [.wrote r])
      { st with finished, resultsById := st.resultsById.set r.taskId r } := by
  have hactive : (r.taskId :: active { st with
      finished, resultsById := st.resultsById.set r.taskId r }).Perm (active st) := by
    unfold active
    rw [hr, List.map_cons]
    exact List.perm_middle.symm
  have hnodup := List.nodup_cons.1 (hactive.nodup_iff.2 h.distinct)
  have hopen := h.unsettled_head hr
  have hfinished : ∀ other ∈ st.finished, Possible R answers other ∧ other.skipped = false :=
    h.finished
  obtain ⟨later, hlater, hexecuted⟩ := h.begins
  refine ⟨⟨later ++ [.wrote r], by rw [hlater, List.append_assoc], fun entry hentry hskipped hnot =>
    (hexecuted entry hentry hskipped hnot).imp_right (List.mem_append_left _)⟩, hnodup.2, h.tasks,
    fun other hother => hfinished other (hr ▸ List.mem_cons_of_mem _ hother),
    fun id hid hsettled => ?_, fun id other hother => ?_, fun entry hentry => ?_⟩
  · rcases settledIn_wrote.1 hsettled with hold | ⟨rfl, -⟩
    · exact h.unsettled id (hactive.mem_iff.1 (List.mem_cons_of_mem _ hid)) hold
    · exact hnodup.1 hid
  · rw [Dict.get?_set] at hother
    rw [settledIn_wrote]
    split at hother
    next hid =>
      cases hother
      subst hid
      refine ⟨rfl, (hfinished r (hr ▸ List.mem_cons_self)).1, fun herror _ => .inr ⟨rfl, herror⟩,
        fun hsettled => ?_⟩
      exact (hsettled.resolve_left hopen).2
    next hid =>
      obtain ⟨hsame, hpossible, hwritten, hkeeps⟩ := h.results id other hother
      refine ⟨hsame, hpossible, fun herror hskipped => .inl (hwritten herror hskipped), ?_⟩
      rintro (hold | ⟨hnew, -⟩)
      · exact hkeeps hold
      · exact absurd hnew.symm hid
  · by_cases hid : entry.taskId = r.taskId
    · exact .inr ⟨r, by rw [hid, Dict.get?_set_self]⟩
    · rw [Dict.get?_set_of_ne _ _ hid]
      refine (h.complete entry hentry).imp_left fun hin => ?_
      exact (List.mem_cons.1 (hactive.mem_iff.2 hin)).resolve_left hid

/-! ## Rewriting the file -/

theorem collect_ok {entries : List BenchmarkManifestEntry}
    {results : Dict String (BenchmarkResult μ)}
    (h : ∀ entry ∈ entries,
      ∃ r, Dict.get? results entry.taskId = some r ∧ r.taskId = entry.taskId) :
    ∃ collected, (entries.mapM fun entry => (match Dict.get? results entry.taskId with
        | some r => .ok r
        | none => .error ⟨"KeyError", entry.taskId⟩ : Except Raised (BenchmarkResult μ))) =
        .ok collected ∧
      collected.map BenchmarkResult.taskId = entries.map BenchmarkManifestEntry.taskId ∧
      ∀ r ∈ collected, Dict.get? results r.taskId = some r := by
  induction entries with
  | nil => exact ⟨[], rfl, rfl, by simp⟩
  | cons entry entries ih =>
    obtain ⟨r, hr, hid⟩ := h entry List.mem_cons_self
    obtain ⟨collected, hcollected, hids, hall⟩ :=
      ih fun other hother => h other (List.mem_cons_of_mem _ hother)
    refine ⟨r :: collected, ?_, by rw [List.map_cons, List.map_cons, hids, hid], ?_⟩
    · rw [List.mapM_cons, hr, hcollected]
      rfl
    · intro other hother
      rcases List.mem_cons.1 hother with rfl | hother
      · rw [hid, hr]
      · exact hall other hother

/-- When all tasks are done, every entry has its result, in the order of the manifest. -/
theorem Executing.collected (h : Executing R answers begun events st)
    (hdone : active st = []) :
    ∃ results, R.collect st = .ok results ∧
      results.map BenchmarkResult.taskId = R.entries.map BenchmarkManifestEntry.taskId ∧
      ∀ r ∈ results, Dict.get? st.resultsById r.taskId = some r := by
  refine collect_ok fun entry hentry => ?_
  obtain ⟨r, hr⟩ := (h.complete entry hentry).resolve_left (by rw [hdone]; exact List.not_mem_nil)
  exact ⟨r, hr, (h.results _ r hr).1⟩

theorem active_eq_nil {st : RunState μ}
    (h : st.waiting = [] ∧ st.running = [] ∧ st.finished.isEmpty = true) : active st = [] := by
  obtain ⟨hwaiting, hrunning, hfinished⟩ := h
  simp [active, hwaiting, hrunning, List.isEmpty_iff.1 hfinished]

/-- The results that are about to be written are in manifest order, known to be possible, and
none of them takes a settled task back. -/
theorem Executing.toRewrite_ok (h : Executing R answers begun events st)
    {outcome : Except Raised (List (BenchmarkResult μ))}
    (hrewrite : R.toRewrite st = some outcome) :
    ∃ results, outcome = .ok results ∧ active st = [] ∧
      results.map BenchmarkResult.taskId = R.entries.map BenchmarkManifestEntry.taskId ∧
      ∀ r ∈ results, Possible R answers r ∧
        (r.isError = false → r.skipped = false → SettledIn events r.taskId) ∧
        (SettledIn events r.taskId → r.isError = false) := by
  unfold toRewrite at hrewrite
  split at hrewrite
  next hdone =>
    have hactive := active_eq_nil hdone
    obtain ⟨results, hcollect, hids, hall⟩ := h.collected hactive
    rw [hcollect] at hrewrite
    cases hrewrite
    exact ⟨results, rfl, hactive, hids, fun r hr => (h.results _ r (hall r hr)).2⟩
  · cases hrewrite

/-- The result of an entry among those that are written. -/
theorem exists_result {results : List (BenchmarkResult μ)}
    (hids : results.map BenchmarkResult.taskId = R.entries.map BenchmarkManifestEntry.taskId)
    {entry : BenchmarkManifestEntry} (hentry : entry ∈ R.entries) :
    ∃ r ∈ results, r.taskId = entry.taskId :=
  List.mem_map.1 (hids ▸ List.mem_map_of_mem hentry)

theorem Executing.rewrite (h : Executing R answers begun events st) (hevents : EventsSound events)
    {results : List (BenchmarkResult μ)} (hrewrite : R.toRewrite st = some (.ok results)) :
    FileHolds R answers (some (String.ofList (R.text results))) (events ++ results.map .wrote)
        results ∧
      EventsSound (events ++ results.map .wrote) ∧
      Ended R begun (events ++ results.map .wrote) (some (String.ofList (R.text results)))
        results := by
  obtain ⟨_, hsame, hactive, hids, hall⟩ := h.toRewrite_ok hrewrite
  cases hsame
  have hdistinct : (results.map BenchmarkResult.taskId).Nodup := hids ▸ R.distinct
  refine ⟨⟨rfl, fun r hr => (hall r hr).1, fun entry hentry _ hsettled => ?_,
    fun r hr herror _ => settledIn_wroteAll.2 (.inr ⟨r, hr, rfl, herror⟩)⟩,
    hevents.wroteAll hdistinct fun r hr => (hall r hr).2.2, ?_, hids, rfl⟩
  · rcases settledIn_wroteAll.1 hsettled with hold | ⟨r, hr, hid, herror⟩
    · obtain ⟨r, hr, hid⟩ := exists_result hids hentry
      exact ⟨r, hr, hid, (hall r hr).2.2 (hid ▸ hold)⟩
    · exact ⟨r, hr, hid, herror⟩
  · obtain ⟨later, hlater, hexecuted⟩ := h.begins
    refine ⟨later ++ results.map .wrote, by rw [hlater, List.append_assoc], ?_⟩
    intro entry hentry hskipped hnot
    rcases hexecuted entry hentry hskipped hnot with hwaiting | hin
    · have hin : entry.taskId ∈ active st :=
        List.mem_append_left _ (List.mem_map_of_mem (List.mem_append_left _ hwaiting))
      rw [hactive] at hin
      cases hin
    · exact List.mem_append_left _ hin

/-- A rewrite that is cut behind whole lines, with every settled task among them, loses
nothing. -/
theorem Executing.rewrite_cut (h : Executing R answers begun events st)
    {results : List (BenchmarkResult μ)} (hrewrite : R.toRewrite st = some (.ok results)) {k : Nat}
    (hlost : ∀ r ∈ results.drop k, r.isError = true ∨ r.skipped = true) :
    FileHolds R answers (some (String.ofList (R.text (results.take k)))) events
      (results.take k) := by
  obtain ⟨_, hsame, -, hids, hall⟩ := h.toRewrite_ok hrewrite
  cases hsame
  refine ⟨rfl, fun r hr => (hall r (List.mem_of_mem_take hr)).1,
    fun entry hentry hskipped hsettled => ?_,
    fun r hr => (hall r (List.mem_of_mem_take hr)).2.1⟩
  obtain ⟨r, hr, hid⟩ := exists_result hids hentry
  have herror : r.isError = false := (hall r hr).2.2 (hid ▸ hsettled)
  rw [← List.take_append_drop k results] at hr
  rcases List.mem_append.1 hr with hkept | hdropped
  · exact ⟨r, hkept, hid, herror⟩
  · have hresult := (hall r (List.mem_of_mem_drop hdropped)).1.not_skipped hentry hskipped hid
    rcases hlost r hdropped with hlost | hlost
    · rw [herror] at hlost
      cases hlost
    · rw [hresult] at hlost
      cases hlost

end Steps

/-! ## Going on without a crash -/

/-- A step of the running process itself. -/
def RunnerAction.proceeds {μ : Type} : RunnerAction μ → Bool
  | .start _ | .finish _ _ | .append | .rewrite | .report => true
  | .resume | .crash | .crashAppending _ | .crashRewriting _ => false

theorem Possible.mono {answers more : List (Except Raised μ)} {r : BenchmarkResult μ}
    (h : Possible R answers r) (hsub : ∀ answer ∈ answers, answer ∈ more) : Possible R more r := by
  cases h with
  | skipped hentry hskipped => exact .skipped hentry hskipped
  | executed hentry hskipped hanswer => exact .executed hentry hskipped (hsub _ hanswer)

theorem Executing.mono {answers more : List (Except Raised μ)} {begun events : List (RunnerEvent μ)}
    {st : RunState μ} (h : Executing R answers begun events st)
    (hsub : ∀ answer ∈ answers, answer ∈ more) : Executing R more begun events st := by
  refine ⟨h.begins, h.distinct, h.tasks, fun r hr => ?_, h.unsettled, fun id r hr => ?_, h.complete⟩
  · exact ⟨(h.finished r hr).1.mono hsub, (h.finished r hr).2⟩
  · obtain ⟨hid, hpossible, hrest⟩ := h.results id r hr
    exact ⟨hid, hpossible.mono hsub, hrest⟩

/-- The steps that the process still has to take until all results are taken up. -/
def remaining (st : RunState μ) : Nat :=
  3 * st.waiting.length + 2 * st.running.length + st.finished.length

/-- With every result taken up, the file is rewritten, the reports follow and the run returns. -/
theorem returns_done {answers : List (Except Raised μ)} {file : Option String}
    {begun events : List (RunnerEvent μ)} {st : RunState μ}
    (h : Executing R answers begun events st) (hdone : remaining st = 0) :
    ∃ more : List (RunnerAction μ), (∀ a ∈ more, a.proceeds = true) ∧ ∃ results,
      (Run.run R.step ⟨file, .executing begun st, events⟩ more).process =
        .returned begun results := by
  have hempty : st.waiting = [] ∧ st.running = [] ∧ st.finished.isEmpty = true := by
    unfold remaining at hdone
    refine ⟨List.length_eq_zero_iff.1 (by omega), List.length_eq_zero_iff.1 (by omega), ?_⟩
    rw [List.isEmpty_iff]
    exact List.length_eq_zero_iff.1 (by omega)
  obtain ⟨results, hcollect, -⟩ := h.collected (active_eq_nil hempty)
  have hrewrite : R.toRewrite st = some (.ok results) := by
    rw [toRewrite, if_pos hempty, hcollect]
  refine ⟨[.rewrite, .report], by simp [RunnerAction.proceeds], results, ?_⟩
  simp only [Run.run_cons, Run.run_nil, step, hrewrite]

/-- A process that is not interrupted comes to its end, and returns: a result that waits is taken
up, a task that runs ends, one that waits gets the semaphore that no one holds. -/
theorem Executing.returns {answers : List (Except Raised μ)} {answer : Except Raised μ}
    (hanswer : answer ∈ answers) {n : Nat} {file : Option String}
    {begun events : List (RunnerEvent μ)} {st : RunState μ}
    (h : Executing R answers begun events st) (hn : remaining st ≤ n) :
    ∃ more : List (RunnerAction μ), (∀ a ∈ more, a.proceeds = true) ∧ ∃ results,
      (Run.run R.step ⟨file, .executing begun st, events⟩ more).process =
        .returned begun results := by
  induction n generalizing file events st with
  | zero => exact returns_done h (Nat.le_zero.1 hn)
  | succ n ih =>
    have hnext : ∀ (a : RunnerAction μ) (file' : Option String) (events' : List (RunnerEvent μ))
        (st' : RunState μ), a.proceeds = true →
        R.step a ⟨file, .executing begun st, events⟩ = ⟨file', .executing begun st', events'⟩ →
        Executing R answers begun events' st' → remaining st' ≤ n →
        ∃ more : List (RunnerAction μ), (∀ a ∈ more, a.proceeds = true) ∧ ∃ results,
          (Run.run R.step ⟨file, .executing begun st, events⟩ more).process =
            .returned begun results := by
      intro a file' events' st' ha hstep hst' hleft
      obtain ⟨more, hmore, results, hresults⟩ := @ih file' _ _ hst' hleft
      refine ⟨a :: more, fun b hb => ?_, results, by rw [Run.run_cons, hstep, hresults]⟩
      rcases List.mem_cons.1 hb with rfl | hb
      · exact ha
      · exact hmore b hb
    cases hfinished : st.finished with
    | cons r finished =>
      refine hnext .append (appended file (R.line r).toList) _ _ rfl ?_ (h.append hfinished) ?_
      · simp only [step, hfinished]
      · simp only [remaining, hfinished, List.length_cons] at hn ⊢
        omega
    | nil =>
      cases hrunning : st.running with
      | cons entry running =>
        have hfirst : st.running[0]? = some entry := by rw [hrunning]; rfl
        refine hnext (.finish 0 answer) file _ _ rfl ?_ (h.finish hfirst hanswer) ?_
        · simp only [step, hfirst]
        · simp only [remaining, hfinished, hrunning, List.length_cons, List.eraseIdx_cons_zero,
            List.nil_append, List.length_nil] at hn ⊢
          omega
      | nil =>
        cases hwaiting : st.waiting with
        | cons entry waiting =>
          have hfirst : st.waiting[0]? = some entry := by rw [hwaiting]; rfl
          have hfree : st.running.length < R.parallelism := by
            rw [hrunning]
            exact R.positive
          refine hnext (.start 0) file _ _ rfl ?_ (h.start hfirst).2 ?_
          · simp only [step, hfirst, if_pos hfree]
          · simp only [remaining, hfinished, hrunning, hwaiting, List.length_cons,
              List.eraseIdx_cons_zero, List.nil_append, List.length_nil] at hn ⊢
            omega
        | nil => exact returns_done h (by simp [remaining, hfinished, hrunning, hwaiting])

/-! ## Writes that are not cut short -/

/-- The result whose line is written next. -/
def nextLine (s : Bench μ) : Option (BenchmarkResult μ) :=
  match s.process with
  | .executing _ st => st.finished.head?
  | _ => none

/-- The results that the file is rewritten with next. -/
def nextText (R : BenchmarkRunner μ) (s : Bench μ) : Option (List (BenchmarkResult μ)) :=
  match s.process with
  | .executing _ st =>
    match R.toRewrite st with
    | some (.ok results) => some results
    | _ => none
  | _ => none

/-- The step cuts no write short: a crash leaves all of a line or none of it, and of the whole
file the first lines with no result left out that is to be taken over; and where a run is resumed
the file has no line boundary that JSON leaves as it is. -/
def WholeStep (R : BenchmarkRunner μ) (a : RunnerAction μ) (s : Bench μ) : Prop :=
  match a with
  | .resume => ∀ c ∈ (s.file.getD "").toList, isRawBreak c = false
  | .crashAppending n => ∀ r ∈ nextLine s, n = 0 ∨ (R.line r).toList.length ≤ n
  | .crashRewriting n => ∀ results ∈ R.nextText s, ∃ k ∈ List.range (results.length + 1),
      (R.text results).take n = R.text (results.take k) ∧
        ∀ r ∈ results.drop k, r.isError = true ∨ r.skipped = true
  | _ => True

/-- The answers of the tasks in these steps. -/
def answersOf (actions : List (RunnerAction μ)) : List (Except Raised μ) :=
  actions.filterMap fun a =>
    match a with
    | .finish _ answer => some answer
    | _ => none

theorem step_kept {answers : List (Except Raised μ)}
    (hreads : ∀ r, Possible R answers r → R.Reads r) {s : Bench μ} {a : RunnerAction μ}
    (hwhole : WholeStep R a s) (hanswer : ∀ i answer, a = .finish i answer → answer ∈ answers)
    (h : Kept R answers s) : Kept R answers (R.step a s) := by
  obtain ⟨⟨lines, hfile⟩, hevents, hwritten, hprocess⟩ := h
  have hsame : Kept R answers s := ⟨⟨lines, hfile⟩, hevents, hwritten, hprocess⟩
  obtain ⟨file, process, events⟩ := s
  have hwrote : ∀ r, Possible R answers r →
      ∀ other, .wrote other ∈ events ++ [.wrote r] → Possible R answers other := by
    intro r hr other hother
    rcases List.mem_append.1 hother with hold | hnew
    · exact hwritten other hold
    · cases List.mem_singleton.1 hnew
      exact hr
  cases process with
  | raised e => exact hprocess.elim
  | down =>
    cases a with
    | resume => exact launch_resume hreads hwhole hfile hevents hwritten
    | _ => exact hsame
  | returned begun results =>
    cases a with
    | resume => exact launch_resume hreads hwhole hfile hevents hwritten
    | _ => exact hsame
  | rewritten begun results =>
    cases a with
    | report => exact ⟨⟨lines, hfile⟩, hevents, hwritten, hprocess⟩
    | crash => exact ⟨⟨lines, hfile⟩, hevents, hwritten, trivial⟩
    | _ => exact hsame
  | executing begun st =>
    obtain ⟨hbegun, hst⟩ := hprocess
    cases a with
    | resume => exact hsame
    | report => exact hsame
    | crash => exact ⟨⟨lines, hfile⟩, hevents, hwritten, trivial⟩
    | start i =>
      simp only [step]
      split
      next entry hentry =>
        split
        · obtain ⟨hactive, hstarted⟩ := hst.start hentry
          refine ⟨⟨lines, hfile.executed _⟩, hevents.executed (hst.unsettled _ hactive),
            fun r hr => hwritten r ?_, hbegun, hstarted⟩
          simpa using hr
        · exact hsame
      · exact hsame
    | finish i answer =>
      simp only [step]
      split
      next entry hentry =>
        exact ⟨⟨lines, hfile⟩, hevents, hwritten, hbegun, hst.finish hentry (hanswer i answer rfl)⟩
      · exact hsame
    | append =>
      simp only [step]
      split
      next r finished hr =>
        have hpossible : Possible R answers r := (hst.finished r (hr ▸ List.mem_cons_self)).1
        exact ⟨⟨_, hfile.append hpossible⟩,
          hevents.wrote fun hsettled => absurd hsettled (hst.unsettled_head hr),
          hwrote r hpossible, hbegun, hst.append hr⟩
      · exact hsame
    | rewrite =>
      simp only [step]
      split
      next results hrewrite =>
        obtain ⟨hholds, hsound, hended⟩ := hst.rewrite hevents hrewrite
        refine ⟨⟨results, hholds⟩, hsound, fun r hr => ?_, hbegun, hended⟩
        rcases List.mem_append.1 hr with hold | hnew
        · exact hwritten r hold
        · obtain ⟨other, hother, heq⟩ := List.mem_map.1 hnew
          cases heq
          exact hholds.possible r hother
      next e hrewrite =>
        obtain ⟨results, hok, -⟩ := hst.toRewrite_ok hrewrite
        cases hok
      · exact hsame
    | crashAppending n =>
      simp only [step]
      split
      next r finished hr =>
        have hpossible : Possible R answers r := (hst.finished r (hr ▸ List.mem_cons_self)).1
        have hcut := hwhole r (by rw [nextLine]; simp [hr])
        by_cases hall : (R.line r).toList.length ≤ n
        · rw [if_pos hall, List.take_of_length_le hall]
          exact ⟨⟨_, hfile.append hpossible⟩,
            hevents.wrote fun hsettled => absurd hsettled (hst.unsettled_head hr),
            hwrote r hpossible, trivial⟩
        · rw [if_neg hall, hcut.resolve_right hall, List.take_zero, appended_nil hfile,
            List.append_nil]
          exact ⟨⟨lines, hfile⟩, hevents, hwritten, trivial⟩
      · exact hsame
    | crashRewriting n =>
      simp only [step]
      split
      next results hrewrite =>
        obtain ⟨k, -, htext, hlost⟩ := hwhole results (by rw [nextText]; simp [hrewrite])
        rw [htext]
        exact ⟨⟨_, hst.rewrite_cut hrewrite hlost⟩, hevents, hwritten, trivial⟩
      · exact hsame

/-! ## Runs -/

/-- What the runner promises of every state: a returned run has one result for each entry, in the
order of the manifest, and so has the file; no task is executed behind a result that is not an
error; a run that returns has executed every task whose last result was an error when it was
launched; a run that is not interrupted comes to its end; and no run is refused by the file it
finds. -/
structure RunnerSound (R : BenchmarkRunner μ) (s : Bench μ) : Prop where
  inOrder : ∀ begun results, s.process = .returned begun results →
    results.map BenchmarkResult.taskId = R.entries.map BenchmarkManifestEntry.taskId ∧
      s.file = some (String.ofList (R.text results))
  notAgain : s.events.Pairwise fun earlier later =>
    ∀ r, earlier = .wrote r → r.isError = false → later ≠ .executed r.taskId
  again : ∀ begun results, s.process = .returned begun results →
    ∃ later, s.events = begun ++ later ∧ ∀ entry ∈ R.entries, ∀ r,
      lastWritten begun entry.taskId = some r → r.isError = true → .executed entry.taskId ∈ later
  returns : ∀ begun st, s.process = .executing begun st → ∃ more : List (RunnerAction μ),
    (∀ a ∈ more, a.proceeds = true) ∧ ∃ results,
      (Run.run R.step s more).process = .returned begun results
  accepted : ∀ e, s.process ≠ .raised e

theorem Kept.sound {answers : List (Except Raised μ)} {s : Bench μ} (h : Kept R answers s) :
    RunnerSound R s := by
  obtain ⟨-, hevents, hwritten, hprocess⟩ := h
  obtain ⟨file, process, events⟩ := s
  unfold ProcessSound at hprocess
  refine ⟨fun begun results hreturned => ?_, hevents.notAgain, fun begun results hreturned => ?_,
    fun begun st hexecuting => ?_, fun e hraised => ?_⟩
  · rw [hreturned] at hprocess
    exact ⟨hprocess.2.inOrder, hprocess.2.contents⟩
  · rw [hreturned] at hprocess
    obtain ⟨hbegun, hended⟩ := hprocess
    obtain ⟨later, hlater, hexecuted⟩ := hended.begins
    refine ⟨later, hlater, fun entry hentry r hlast herror => ?_⟩
    obtain ⟨hin, hid⟩ := lastWritten_mem hlast
    have hpossible := hwritten r (hlater ▸ List.mem_append_left _ hin)
    refine hexecuted entry hentry (hpossible.executed_of_error hentry hid herror) fun hsettled => ?_
    obtain ⟨other, hother, hfine⟩ := hbegun.settledLast entry.taskId hsettled
    rw [hlast] at hother
    cases hother
    rw [herror] at hfine
    cases hfine
  · rw [hexecuting] at hprocess
    cases hexecuting
    exact (hprocess.2.mono fun _ hin => List.mem_cons_of_mem (.error ⟨"", ""⟩) hin).returns
      List.mem_cons_self le_rfl
  · rw [hraised] at hprocess
    exact hprocess

/-- Whatever tasks end in which order and wherever the process crashes and is resumed, the runner
keeps its promise as long as no write is cut short and no resumed file has a raw line boundary. -/
theorem runner_sound (R : BenchmarkRunner μ) (file : Option String)
    (actions : List (RunnerAction μ))
    (hreads : ∀ r, Possible R (answersOf actions) r → R.Reads r)
    (hwhole : Run.Every R.step R.WholeStep (R.fresh file) actions) :
    RunnerSound R (Run.run R.step (R.fresh file) actions) := by
  have hrun : ∀ (rest : List (RunnerAction μ)) (s : Bench μ),
      (∀ answer ∈ answersOf rest, answer ∈ answersOf actions) →
      Run.Every R.step R.WholeStep s rest → Kept R (answersOf actions) s →
      Kept R (answersOf actions) (Run.run R.step s rest) := by
    intro rest
    induction rest with
    | nil => exact fun s _ _ h => h
    | cons a rest ih =>
      intro s hanswers hevery h
      refine ih (R.step a s) (fun answer hin => hanswers answer ?_) hevery.2
        (step_kept hreads hevery.1 (fun i answer ha => hanswers answer ?_) h)
      · obtain ⟨b, hb, hanswer⟩ := List.mem_filterMap.1 hin
        exact List.mem_filterMap.2 ⟨b, List.mem_cons_of_mem _ hb, hanswer⟩
      · subst ha
        exact List.mem_cons_self
  exact (hrun actions _ (fun _ h => h) hwhole (launch_fresh R _ file)).sound

instance (R : BenchmarkRunner μ) (a : RunnerAction μ) (s : Bench μ) : Decidable (WholeStep R a s) :=
  match a with
  | .resume => inferInstanceAs (Decidable (∀ c ∈ (s.file.getD "").toList, isRawBreak c = false))
  | .crashAppending n =>
    inferInstanceAs (Decidable (∀ r ∈ nextLine s, n = 0 ∨ (R.line r).toList.length ≤ n))
  | .crashRewriting n =>
    inferInstanceAs (Decidable (∀ results ∈ R.nextText s, ∃ k ∈ List.range (results.length + 1),
      (R.text results).take n = R.text (results.take k) ∧
        ∀ r ∈ results.drop k, r.isError = true ∨ r.skipped = true))
  | .start _ | .finish _ _ | .append | .rewrite | .report | .crash =>
    inferInstanceAs (Decidable True)

namespace Sample

def variantText : BenchmarkVariant → String
  | .single => "single"
  | .multi => "multi"
  | .multiMemory => "multi-memory"
  | .evo => "evo"

def statusText : BenchmarkTaskStatus → String
  | .resolved => "resolved"
  | .unresolved => "unresolved"
  | .notEvaluable => "not_evaluable"
  | .skipped => "skipped"
  | .error => "error"
  | .infraError => "infra_error"

def quoted (text : String) : List Char := '"' :: text.toList ++ ['"']

def orNull (text : Option String) : List Char := text.elim "null".toList quoted

/-- The fields of a result whose metrics are their own JSON. -/
def resultFields (r : BenchmarkResult String) : List (String × List Char) :=
  [("task_id", quoted r.taskId), ("variant", quoted (variantText r.variant)),
    ("status", quoted (statusText r.status)), ("category", orNull r.category),
    ("metrics", (r.metrics.getD "null").toList),
    ("skipped", (if r.skipped then "true" else "false").toList),
    ("skip_reason", orNull r.skipReason), ("error_type", orNull r.errorType),
    ("error_message", orNull r.errorMessage)]

def resultChars (r : BenchmarkResult String) : List Char :=
  '{' :: [','].intercalate ((resultFields r).map fun item => quoted item.1 ++ ':' :: item.2) ++
    ['}']

/-- `model_dump_json` of these results. -/
def resultJson (r : BenchmarkResult String) : String := String.ofList (resultChars r)

/-- Of the metrics, what makes the status. -/
def passedMetrics : String :=
  "\x7b\"benchmark_verification_status\":\"passed\",\"benchmark_resolved\":true\x7d"

/-- The task `t` was resolved. -/
def resolved : BenchmarkResult String where
  taskId := "t"
  variant := .evo
  status := .resolved
  category := some "Linting"
  metrics := some passedMetrics

theorem resolved_plain : ∀ c ∈ resultChars resolved, ' ' ≤ c ∧ isRawBreak c = false := by
  decide +kernel

/-- One task, whose metrics are a pass. -/
def oneTask : BenchmarkRunner String where
  entries := [{ taskId := "t", category := "Linting" }]
  distinct := by decide
  variant := .evo
  parallelism := 1
  positive := by decide
  verdict _ := .passed
  modelDumpJson := resultJson
  modelValidateJson row := if row = resultJson resolved then some resolved else none

/-- The task is run, the process crashes behind its result, and a resumed run returns. -/
def resumedRun : List (RunnerAction String) :=
  [.start 0, .finish 0 (.ok passedMetrics), .append, .crash, .resume, .rewrite, .report]

theorem resumedRun_reads (r : BenchmarkResult String)
    (h : Possible oneTask (answersOf resumedRun) r) : oneTask.Reads r := by
  have hr : r = resolved := by
    cases h with
    | skipped hentry hskipped =>
      obtain rfl := List.mem_singleton.1 hentry
      cases hskipped
    | executed hentry _ hanswer =>
      obtain rfl := List.mem_singleton.1 hentry
      obtain rfl := List.mem_singleton.1 hanswer
      rfl
  subst hr
  have hchars : (oneTask.modelDumpJson resolved).toList = resultChars resolved :=
    String.toList_ofList
  refine ⟨by simp [oneTask], fun c hc => (resolved_plain c (hchars ▸ hc)).1, fun hempty => ?_⟩
  have hstripped := congrArg String.toList hempty
  rw [strip, hchars, String.toList_ofList] at hstripped
  revert hstripped
  decide +kernel

theorem resumed_run_sound : (∀ r, Possible oneTask (answersOf resumedRun) r → oneTask.Reads r) ∧
    Run.Every oneTask.step oneTask.WholeStep (oneTask.fresh none) resumedRun ∧
    RunnerSound oneTask (Run.run oneTask.step (oneTask.fresh none) resumedRun) := by
  have hwhole : Run.Every oneTask.step oneTask.WholeStep (oneTask.fresh none) resumedRun := by
    refine ⟨trivial, trivial, trivial, trivial, fun c hc => ?_, trivial, trivial, trivial⟩
    change c ∈ (String.ofList ("".toList ++ (resultJson resolved ++ "\n").toList)).toList at hc
    simp only [resultJson, String.toList_append, String.toList_ofList, List.mem_append] at hc
    rcases hc with hc | hc | hc
    · cases hc
    · exact (resolved_plain c hc).2
    · cases List.mem_singleton.mp hc
      rfl
  exact ⟨resumedRun_reads, hwhole,
    runner_sound oneTask none resumedRun resumedRun_reads hwhole⟩

/-- The crash falls between the truncation of the file and its contents. -/
def truncatedRun : List (RunnerAction String) :=
  [.start 0, .finish 0 (.ok passedMetrics), .append, .crashRewriting 0, .resume, .start 0]

/-- The task whose result was written is executed again. -/
theorem truncated_run_repeats :
    ¬ RunnerSound oneTask (Run.run oneTask.step (oneTask.fresh none) truncatedRun) := by
  intro h
  have hevents : (Run.run oneTask.step (oneTask.fresh none) truncatedRun).events =
      [.executed "t", .wrote resolved, .executed "t"] := by
    decide +kernel
  have hagain := h.notAgain
  rw [hevents] at hagain
  have hlast := (List.pairwise_cons.1 (List.pairwise_cons.1 hagain).2).1 (.executed "t") (by simp)
  exact hlast resolved rfl rfl rfl

end Sample

end BenchmarkRunner

end EvoCI
