import Mathlib.Data.List.Basic
import EvoCI.Text

/-! Run-level call budgets and the event log they are recounted from when a new
process takes the run over. -/

namespace EvoCI

inductive EventType where
  | modelCall
  | toolCall
  deriving DecidableEq, Repr

/-- `payload["budget_scope"]`; a call without one counts against the run. -/
inductive BudgetScope where
  | repair
  | postRun
  | cleanup
  deriving DecidableEq, Repr

/-- The recorded events that budgets are counted from. -/
structure RunEvent where
  eventId : String
  type : EventType
  budgetScope : BudgetScope := .repair
  deriving DecidableEq, Repr

/-- `RunRepairBudget`. -/
structure RunRepairBudget where
  maxModelCalls : Nat
  maxToolCalls : Nat
  modelCalls : Nat := 0
  toolCalls : Nat := 0
  deriving DecidableEq, Repr

def modelMessage : String := "run-level model-call budget exhausted"

def toolMessage : String := "run-level tool-call budget exhausted"

def RunRepairBudget.consumeToolCall (b : RunRepairBudget) : Except PyError RunRepairBudget :=
  if b.maxToolCalls ≤ b.toolCalls then .error (.repairBudgetExhausted toolMessage)
  else .ok { b with toolCalls := b.toolCalls + 1 }

def RunRepairBudget.consumeModelCall (b : RunRepairBudget) : Except PyError RunRepairBudget :=
  if b.maxModelCalls ≤ b.modelCalls then .error (.repairBudgetExhausted modelMessage)
  else .ok { b with modelCalls := b.modelCalls + 1 }

/-- `INSERT OR IGNORE`: an event id is recorded once. -/
def appendEvent (events : List RunEvent) (event : RunEvent) : List RunEvent :=
  if events.any (·.eventId = event.eventId) then events else events ++ [event]

def countedToolCalls (events : List RunEvent) : Nat :=
  events.countP fun e => e.type = .toolCall ∧ e.budgetScope = .repair

def countedModelCalls (events : List RunEvent) : Nat :=
  events.countP fun e => e.type = .modelCall ∧ e.budgetScope ≠ .postRun

/-- The budget of the running process and the durable event log. -/
structure Ledger where
  budget : RunRepairBudget
  events : List RunEvent := []
  deriving DecidableEq, Repr

namespace Ledger

def consumeToolCall (l : Ledger) : Except PyError Ledger :=
  match l.budget.consumeToolCall with
  | .ok budget => .ok { l with budget }
  | .error e => .error e

def emit (l : Ledger) (event : RunEvent) : Ledger :=
  { l with events := appendEvent l.events event }

/-- An agent's call: charged first, recorded when the charge is accepted. -/
def call (l : Ledger) (event : RunEvent) : Ledger :=
  match event.type with
  | .toolCall =>
    match l.consumeToolCall with
    | .ok charged => charged.emit event
    | .error _ => l
  | .modelCall =>
    match l.budget.consumeModelCall with
    | .ok budget => { l with budget }.emit event
    | .error _ => l

def calls (l : Ledger) (events : List RunEvent) : Ledger := events.foldl call l

/-- `RunBudgetManager.for_run` in a process that has not seen the run. -/
def restart (l : Ledger) : Ledger :=
  { l with budget := { l.budget with
      modelCalls := countedModelCalls l.events
      toolCalls := countedToolCalls l.events } }

/-- The log holds no tool call that the running process has not counted. -/
def Covered (l : Ledger) : Prop := countedToolCalls l.events ≤ l.budget.toolCalls

/-- Tool calls the running process may still make. -/
def room (l : Ledger) : Nat := l.budget.maxToolCalls - l.budget.toolCalls

theorem consumeToolCall_ok {l l' : Ledger} (h : l.consumeToolCall = .ok l') :
    0 < l.room ∧ l'.room + 1 = l.room ∧ l'.events = l.events ∧
      l'.budget.toolCalls = l.budget.toolCalls + 1 ∧
      l'.budget.maxToolCalls = l.budget.maxToolCalls := by
  unfold consumeToolCall RunRepairBudget.consumeToolCall at h
  by_cases hfull : l.budget.maxToolCalls ≤ l.budget.toolCalls
  · simp [hfull] at h
  · simp only [if_neg hfull, Except.ok.injEq] at h
    subst h
    refine ⟨?_, ?_, rfl, rfl, rfl⟩
    · unfold room
      omega
    · simp only [room]
      omega

theorem consumeToolCall_of_room {l : Ledger} (h : 0 < l.room) :
    ∃ l', l.consumeToolCall = .ok l' := by
  have hfree : ¬ l.budget.maxToolCalls ≤ l.budget.toolCalls := by
    unfold room at h
    omega
  simp [consumeToolCall, RunRepairBudget.consumeToolCall, hfree]

theorem consumeToolCall_error {l : Ledger} {e : PyError} (h : l.consumeToolCall = .error e) :
    e = .repairBudgetExhausted toolMessage := by
  unfold consumeToolCall RunRepairBudget.consumeToolCall at h
  by_cases hfull : l.budget.maxToolCalls ≤ l.budget.toolCalls
  · simpa [hfull, eq_comm] using h
  · simp [hfull] at h

@[simp] theorem room_emit (l : Ledger) (event : RunEvent) : (l.emit event).room = l.room := rfl

@[simp] theorem budget_emit (l : Ledger) (event : RunEvent) :
    (l.emit event).budget = l.budget := rfl

theorem countedToolCalls_appendEvent (events : List RunEvent) (event : RunEvent) :
    countedToolCalls (appendEvent events event) ≤ countedToolCalls events + 1 := by
  unfold appendEvent
  split
  · omega
  · simp only [countedToolCalls, List.countP_append]
    have : [event].countP (fun e => e.type = .toolCall ∧ e.budgetScope = .repair) ≤ 1 := by
      exact List.countP_le_length
    omega

/-- A charged call may be recorded without the log getting ahead of the budget. -/
theorem covered_emit {l l' : Ledger} (h : l.Covered) (hc : l.consumeToolCall = .ok l')
    (event : RunEvent) : (l'.emit event).Covered := by
  obtain ⟨-, -, hevents, hcalls, -⟩ := consumeToolCall_ok hc
  have hle := countedToolCalls_appendEvent l'.events event
  unfold Covered at h ⊢
  simp only [emit, hevents] at hle ⊢
  omega

theorem covered_consume {l l' : Ledger} (h : l.Covered) (hc : l.consumeToolCall = .ok l') :
    l'.Covered := by
  obtain ⟨-, -, hevents, hcalls, -⟩ := consumeToolCall_ok hc
  unfold Covered at h ⊢
  rw [hevents]
  omega

theorem covered_emit_uncounted {l : Ledger} (h : l.Covered) {event : RunEvent}
    (hevent : ¬ (event.type = .toolCall ∧ event.budgetScope = .repair)) :
    (l.emit event).Covered := by
  unfold Covered emit appendEvent countedToolCalls at *
  split
  · exact h
  · simpa [List.countP_append, hevent] using h

theorem covered_call {l : Ledger} (h : l.Covered) (event : RunEvent) : (l.call event).Covered := by
  unfold call
  split
  next htool =>
    split
    next charged hcharged => exact covered_emit h hcharged event
    · exact h
  next hmodel =>
    split
    next budget hbudget =>
      refine covered_emit_uncounted ?_ (by simp [hmodel])
      unfold RunRepairBudget.consumeModelCall at hbudget
      split at hbudget
      · cases hbudget
      · cases hbudget
        exact h
    · exact h

theorem covered_calls {l : Ledger} (h : l.Covered) (events : List RunEvent) :
    (l.calls events).Covered := by
  induction events generalizing l with
  | nil => exact h
  | cons event events ih => exact ih (covered_call h event)

theorem covered_restart (l : Ledger) : l.restart.Covered := Nat.le_refl _

/-- A restart never takes room away from a covered ledger. -/
theorem room_le_restart {l : Ledger} (h : l.Covered) : l.room ≤ l.restart.room := by
  unfold Covered at h
  simp only [room, restart]
  omega

end Ledger

end EvoCI
