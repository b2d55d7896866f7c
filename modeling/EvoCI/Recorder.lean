import Mathlib.Data.String.Basic
import EvoCI.Worker

/-! A recorder with a store behind it and one without: the first lists the events of a
run as SQLite sorts them, the second in the order in which they were emitted. -/

namespace EvoCI

open Library

/-! ## Emitting -/

/-- One call of `emit`, with the id `uuid4` would draw and the reading of the clock. -/
structure Emission where
  runId : String
  agentId : Option String
  invocationId : Option String
  eventKey : String
  uuid : String
  timestamp : Nat
  budgetScope : BudgetScope := .repair
  payload : TrajectoryPayload

def Emission.event (e : Emission) : TrajectoryEvent where
  eventId := some
    ((emittedId e.runId e.agentId e.invocationId e.payload.type e.eventKey).getD e.uuid)
  agentId := e.agentId
  invocationId := e.invocationId
  timestamp := e.timestamp
  budgetScope := e.budgetScope
  payload := e.payload

/-- A row of the table `events`. -/
structure EventRow where
  runId : String
  event : TrajectoryEvent

def EventRow.eventId (row : EventRow) : Option String := row.event.eventId

def Emission.row (e : Emission) : EventRow := ⟨e.runId, e.event⟩

/-- `_events`, and the rows of the store. -/
structure Recorder where
  events : String → List TrajectoryEvent := fun _ => []
  rows : List EventRow := []

/-- `emit`: the list in memory ignores an id of the run, `INSERT OR IGNORE` an id of
the table. -/
def Recorder.emit (r : Recorder) (e : Emission) : Recorder where
  events runId :=
    if runId = e.runId then recordEvent (r.events runId) e.event else r.events runId
  rows := Journal.record EventRow.eventId r.rows e.row

def recorded (emissions : List Emission) : Recorder := emissions.foldl Recorder.emit {}

/-- `events(run_id)` of a recorder without a store. -/
def Recorder.inMemory (r : Recorder) (runId : String) : List TrajectoryEvent := r.events runId

/-- `events(run_id)` of a recorder with one: `SELECT ... ORDER BY timestamp, event_id`. -/
def Recorder.inStore (r : Recorder) (runId : String) : List TrajectoryEvent :=
  listEvents ((r.rows.filter fun row => row.runId = runId).map EventRow.event)

/-! ## What is read of the events -/

/-- `build_view` over the listed events. -/
def viewOf (events : List TrajectoryEvent) : TrajectoryView :=
  events.foldl TrajectoryView.project {}

/-- `_trace_from_events` over the listed events. -/
def factsOf (events : List TrajectoryEvent) (agentId invocationId : String) : WorkerFacts :=
  WorkerFacts.ofEvents agentId (events.filter (·.isOf agentId invocationId))

/-- Both recorders list the run's events in the same order, and so tell the same of it. -/
def SameReading (r : Recorder) (runId : String) : Prop :=
  r.inStore runId = r.inMemory runId ∧
    viewOf (r.inStore runId) = viewOf (r.inMemory runId) ∧
    ∀ agentId invocationId,
      (factsOf (r.inStore runId) agentId invocationId).evidence =
          (factsOf (r.inMemory runId) agentId invocationId).evidence ∧
        (factsOf (r.inStore runId) agentId invocationId).verificationPlan =
          (factsOf (r.inMemory runId) agentId invocationId).verificationPlan

/-! ## Order -/

instance : Std.Total TrajectoryEvent.listedBefore where
  total a b := by
    rcases Nat.lt_trichotomy a.timestamp b.timestamp with h | h | h
    · exact .inl (.inl h)
    · rcases le_total (a.eventId.getD "") (b.eventId.getD "") with hid | hid
      · exact .inl (.inr ⟨h, hid⟩)
      · exact .inr (.inr ⟨h.symm, hid⟩)
    · exact .inr (.inl h)

instance : IsTrans TrajectoryEvent TrajectoryEvent.listedBefore where
  trans a b c hab hbc := by
    rcases hab with hab | ⟨hab, hid⟩
    · rcases hbc with hbc | ⟨hbc, -⟩
      · exact .inl (hab.trans hbc)
      · exact .inl (hbc ▸ hab)
    · rcases hbc with hbc | ⟨hbc, hid'⟩
      · exact .inl (hab ▸ hbc)
      · exact .inr ⟨hab.trans hbc, hid.trans hid'⟩

/-- Listing changes nothing exactly where the events are in order already. -/
theorem listEvents_eq_iff (log : List TrajectoryEvent) :
    listEvents log = log ↔ log.Pairwise TrajectoryEvent.listedBefore := by
  constructor
  · intro h
    rw [← h]
    exact List.pairwise_insertionSort _ log
  · exact List.Pairwise.insertionSort_eq

/-- The events of a run, each id once, in the order in which they were emitted. -/
def emitted (emissions : List Emission) (runId : String) : List TrajectoryEvent :=
  Journal.recordAll TrajectoryEvent.eventId []
    ((emissions.filter fun e => e.runId = runId).map Emission.event)

theorem recordAll_map {ε ε' κ : Type} [DecidableEq κ] {key : ε → Option κ} {key' : ε' → Option κ}
    (f : ε → ε') (hkey : ∀ e, key' (f e) = key e) (log entries : List ε) :
    Journal.recordAll key' (log.map f) (entries.map f) =
      (Journal.recordAll key log entries).map f := by
  induction entries generalizing log with
  | nil => rfl
  | cons e entries ih =>
    have hholds : Journal.Holds key' (log.map f) (f e) ↔ Journal.Holds key log e := by
      simp [Journal.Holds, hkey]
    have hrecord : Journal.record key' (log.map f) (f e) = (Journal.record key log e).map f := by
      unfold Journal.record
      by_cases h : Journal.Holds key log e
      · rw [if_pos (hholds.mpr h), if_pos h]
      · rw [if_neg fun h' => h (hholds.mp h'), if_neg h, List.map_append, List.map_singleton]
    rw [List.map_cons, Journal.recordAll_cons, Journal.recordAll_cons, hrecord, ih]

theorem recorded_inMemory (emissions : List Emission) (runId : String) :
    (recorded emissions).inMemory runId = emitted emissions runId := by
  induction emissions using List.reverseRecOn with
  | nil => rfl
  | append_singleton emissions e ih =>
    have ih : (recorded emissions).events runId = emitted emissions runId := ih
    have hstep : recorded (emissions ++ [e]) = (recorded emissions).emit e := by
      simp [recorded]
    rw [hstep]
    show (if runId = e.runId then recordEvent ((recorded emissions).events runId) e.event
      else (recorded emissions).events runId) = _
    unfold emitted
    rw [List.filter_append, List.map_append, Journal.recordAll_append, ih]
    by_cases hrun : runId = e.runId
    · subst hrun
      simp [emitted, recordEvent]
    · simp [emitted, hrun, Ne.symm hrun]

theorem recorded_rows (emissions : List Emission) :
    (recorded emissions).rows =
      Journal.recordAll EventRow.eventId [] (emissions.map Emission.row) := by
  induction emissions using List.reverseRecOn with
  | nil => rfl
  | append_singleton emissions e ih =>
    rw [List.map_append, Journal.recordAll_append, ← ih]
    simp [recorded, Recorder.emit]

/-- The clock never goes back from one event of the run to the next, events of one
reading are emitted in the order of their ids, and no id of the run was used by
another run before. -/
def InOrder (emissions : List Emission) (runId : String) : Prop :=
  (emitted emissions runId).Pairwise TrajectoryEvent.listedBefore ∧
    Journal.OwnKeys EventRow.eventId EventRow.runId runId (emissions.map Emission.row)

/-- Store and memory agree on a run exactly when its events are emitted in the order
of their timestamps and ids. -/
theorem sameReading_iff (emissions : List Emission) (runId : String) :
    SameReading (recorded emissions) runId ↔ InOrder emissions runId := by
  have hrows : (Journal.recordAll EventRow.eventId []
      ((emissions.map Emission.row).filter fun row => row.runId = runId)).map EventRow.event =
        emitted emissions runId := by
    have hmap := @recordAll_map EventRow TrajectoryEvent String _ EventRow.eventId
      TrajectoryEvent.eventId EventRow.event (fun _ => rfl) []
      ((emissions.map Emission.row).filter fun row => row.runId = runId)
    rw [← hmap, List.filter_map, List.map_map]
    rfl
  have hstore : (recorded emissions).inStore runId = listEvents
      (((Journal.recordAll EventRow.eventId [] (emissions.map Emission.row)).filter
        fun row => row.runId = runId).map EventRow.event) := by
    rw [← recorded_rows]
    rfl
  constructor
  · rintro ⟨hsame, -⟩
    rw [hstore, recorded_inMemory] at hsame
    have hown : Journal.OwnKeys EventRow.eventId EventRow.runId runId
        (emissions.map Emission.row) := by
      by_contra hnot
      have hlt := (Journal.filter_recordAll (emissions.map Emission.row)).2.2 hnot
      have hlen := congrArg List.length hsame
      rw [listEvents, List.length_insertionSort, ← hrows, List.length_map, List.length_map] at hlen
      omega
    rw [(Journal.filter_recordAll (emissions.map Emission.row)).2.1 hown, hrows] at hsame
    exact ⟨(listEvents_eq_iff _).mp hsame, hown⟩
  · rintro ⟨hpairs, hown⟩
    have hsame : (recorded emissions).inStore runId = (recorded emissions).inMemory runId := by
      rw [hstore, recorded_inMemory,
        (Journal.filter_recordAll (emissions.map Emission.row)).2.1 hown, hrows]
      exact (listEvents_eq_iff _).mpr hpairs
    exact ⟨hsame, by rw [hsame], fun agentId invocationId => by rw [hsame]; exact ⟨rfl, rfl⟩⟩

namespace Sample

/-- An event of the worker in the run `r`. -/
def workerEmission (eventKey : String) (timestamp : Nat)
    (payload : TrajectoryPayload) : Emission where
  runId := "r"
  agentId := some "worker"
  invocationId := some "i"
  eventKey
  uuid := ""
  timestamp
  payload

/-- A test passes, and the clock is set back while it runs. -/
def setBack : List Emission :=
  [workerEmission "c" 5 (.toolCall "c" "run_test" { argv := some ["pytest"] }),
    workerEmission "c" 4 (.toolResult "c" "run_test" true (some 0) none 0 [] [])]

/-- The store lists the result before its call: the call is not joined to it, and the
verification plan loses the command. -/
theorem result_listed_first :
    ¬ SameReading (recorded setBack) "r" ∧
      ((viewOf ((recorded setBack).inMemory "r")).toolCalls.map fun item => item.2.success) =
        [some true] ∧
      ((viewOf ((recorded setBack).inStore "r")).toolCalls.map fun item => item.2.success) =
        [none] ∧
      (factsOf ((recorded setBack).inMemory "r") "worker" "i").verificationPlan.length = 1 ∧
      (factsOf ((recorded setBack).inStore "r") "worker" "i").verificationPlan.length = 0 := by
  have hjoined : ((viewOf ((recorded setBack).inMemory "r")).toolCalls.map
      fun item => item.2.success) = [some true] := by decide +kernel
  have hlost : ((viewOf ((recorded setBack).inStore "r")).toolCalls.map
      fun item => item.2.success) = [none] := by decide +kernel
  refine ⟨fun h => ?_, hjoined, hlost, by decide +kernel, by decide +kernel⟩
  rw [h.1, hjoined] at hlost
  cases hlost

end Sample

end EvoCI
