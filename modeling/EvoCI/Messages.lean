import EvoCI.LoopTrace
import EvoCI.Library.Chat
import EvoCI.Benchmark.Dataset

/-! The messages of the tool loop: the list that grows with each answer of the model and of
the tools, and what the gateway is given of it at each request. -/

namespace EvoCI

open Library

/-! ## Messages -/

inductive MessageRole where
  | system
  | user
  | assistant
  | tool
  deriving DecidableEq, Repr

structure ToolLoopMessage where
  role : MessageRole
  content : String := ""
  reasoningContent : Option String := none
  toolCallId : Option String := none
  toolCalls : List ToolCallRequest := []
  deriving DecidableEq, Repr

/-- What the texts of the messages are made of: the prompts, the model's text at each
iteration, the serialised result of each tool call, and `json.dumps` with sorted keys. -/
structure MessageText where
  systemPrompt : String
  taskPrompt : String
  content : Nat → String
  reasoningContent : Nat → Option String
  serialized : Nat → Json
  dumps : Json → String

def toolResultPreviewChars : Nat := 12000

def toolErrorPreviewChars : Nat := 2000

/-- The result of a call, or a preview of one that is too long for a message. -/
def messageResult (text : MessageText) (call : ToolCallRequest) (serialized : Json) : Json :=
  let raw := text.dumps serialized
  if toolResultPreviewChars < raw.length then
    .mapping [("projected", .bool true), ("result_id", .str call.callId),
      ("total_chars", .int raw.length),
      ("preview", .str (String.ofList (raw.toList.take toolResultPreviewChars))),
      ("read_more",
        .str "Call read_tool_result with this result_id and an offset/limit.")]
  else serialized

def messageError : Option String → Json
  | none => .null
  | some error =>
    if toolErrorPreviewChars < error.length then
      .str (String.ofList (error.toList.take toolErrorPreviewChars) ++ "…")
    else .str error

/-- `json.dumps(tool_content, …)`. -/
def toolContent (text : MessageText) (call : ToolCallRequest) (count : Nat) (result : CallResult) :
    String :=
  let serialized := if result.returned then text.serialized count else .null
  text.dumps (.mapping [("ok", .bool result.success),
    ("result", messageResult text call serialized), ("error", messageError result.error)])

/-- The answer to a call for which no tool budget is left. -/
def budgetAnswer (text : MessageText) (call : ToolCallRequest) : ToolLoopMessage where
  role := .tool
  toolCallId := some call.callId
  content := text.dumps (.mapping [("error", .str toolBudgetReason)])

def resultAnswer (text : MessageText) (call : ToolCallRequest) (count : Nat)
    (result : CallResult) : ToolLoopMessage where
  role := .tool
  toolCallId := some call.callId
  content := toolContent text call count result

def assistantMessage (text : MessageText) (iteration : Nat) (toolCalls : List ToolCallRequest) :
    ToolLoopMessage where
  role := .assistant
  content := text.content iteration
  reasoningContent := text.reasoningContent iteration
  toolCalls

def exhaustedMessage : ToolLoopMessage where
  role := .user
  content := "The leaf iteration budget is exhausted. Synthesize the best supported final output."

/-! ## The loop with its messages -/

/-- A state of the loop, its messages, and the lists the gateway was given so far. -/
structure Conversation where
  state : LoopState
  messages : List ToolLoopMessage := []
  requests : List (List ToolLoopMessage) := []

def Conversation.append (c : Conversation) (message : ToolLoopMessage) : Conversation :=
  { c with messages := c.messages ++ [message] }

def Conversation.request (c : Conversation) (state : LoopState) : Conversation :=
  { c with state, requests := c.requests ++ [c.messages] }

/-- `runCalls` with its messages. -/
def talkCalls (inv : Invocation) (env : LoopEnv) (text : MessageText) (maxTools iteration : Nat) :
    List ToolCallRequest → Conversation → Conversation × TurnEnd
  | [], c => (c, .next)
  | call :: rest, c =>
    let counted := { c.state with toolCount := c.state.toolCount + 1 }
    if maxTools < counted.toolCount then
      ({ c with
          state := counted.emit inv env (.attemptFailed toolBudgetReason iteration)
            s!"tool-budget:{iteration}"
          messages := c.messages ++ (call :: rest).map (budgetAnswer text) }, .finalize)
    else
      match counted.budgets.consumeToolCall with
      | (budgets, some e) => ({ c with state := { counted with budgets } }, .raised e)
      | (budgets, none) =>
        let called := { counted with budgets }.emit inv env (toolCallPayload call) call.callId
        let answer := env.invoke counted.toolCount
        let executed := called.perform (.executes call answer)
        match answer.result call.name with
        | .error e => ({ c with state := executed }, .raised e)
        | .ok result =>
          let state := finishCall inv env iteration call result executed
          talkCalls inv env text maxTools iteration rest
            ({ c with state }.append (resultAnswer text call counted.toolCount result))

/-- `runTurns` with its messages. -/
def talkTurns (inv : Invocation) (env : LoopEnv) (text : MessageText) (maxTools : Nat) :
    Nat → Nat → Conversation → Conversation × TurnEnd
  | 0, _, c => (c, .next)
  | remaining + 1, iteration, c =>
    match c.state.budgets.consumeModelCall with
    | (budgets, some e) => ({ c with state := { c.state with budgets } }, .raised e)
    | (budgets, none) =>
      let sent := { c.state with budgets }.perform .sends
      let asked := c.request sent
      match env.nextAction iteration with
      | .cancelled => (asked, .raised .cancelled)
      | .raised e =>
        ({ asked with state := sent.emit inv env .modelCall (turnKey iteration) }, .raised e)
      | .response toolCalls =>
        let state := sent.emit inv env .modelCall (turnKey iteration)
        let answered := { asked with state }.append (assistantMessage text iteration toolCalls)
        if toolCalls = [] then (answered, .finalize)
        else
          match talkCalls inv env text maxTools iteration toolCalls answered with
          | (c', .next) => talkTurns inv env text maxTools remaining (iteration + 1) c'
          | ended => ended

/-- `finalizeLoop` with its request. -/
def talkFinal (inv : Invocation) (env : LoopEnv) (c : Conversation) :
    Conversation × Except PyError (Option (List String)) :=
  let (state, result) := finalizeLoop inv env c.state
  match c.state.budgets.consumeModelCall with
  | (_, some _) => ({ c with state }, result)
  | (_, none) => (c.request state, result)

def firstMessages (text : MessageText) : List ToolLoopMessage :=
  [{ role := .system, content := text.systemPrompt }, { role := .user, content := text.taskPrompt }]

/-- `runLoop` with its messages: turns that run out end in a message of their own. -/
def talk (inv : Invocation) (env : LoopEnv) (text : MessageText) (budgets : LoopBudgets) :
    Conversation × Except PyError (Option (List String)) :=
  if strip inv.invocationId = "" then
    ({ state := { budgets } },
      .error (.valueError "invocation_id must be a stable non-empty identifier"))
  else
    match callLimits inv budgets with
    | .error e => ({ state := { budgets }, messages := firstMessages text }, .error e)
    | .ok (actions, maxTools) =>
      match talkTurns inv env text maxTools actions 1
          { state := { budgets }, messages := firstMessages text } with
      | (c, .raised e) => (c, .error e)
      | (c, .next) => talkFinal inv env (c.append exhaustedMessage)
      | (c, .finalize) => talkFinal inv env c

/-! ## What the provider is sent -/

/-- The provider's messages. -/
inductive BaseMessage where
  | system (content : String)
  | human (content : String)
  | ai (content : String) (toolCalls : List ToolCallRequest) (reasoningContent : Option String)
  | tool (content : String) (toolCallId : String)
  deriving DecidableEq, Repr

def baseMessage (message : ToolLoopMessage) : Except PyError BaseMessage :=
  match message.role with
  | .system => .ok (.system message.content)
  | .user => .ok (.human message.content)
  | .assistant =>
    .ok (.ai message.content message.toolCalls (message.reasoningContent.filter (· ≠ "")))
  | .tool =>
    match message.toolCallId with
    | none => .error (.valueError "tool messages require tool_call_id")
    | some toolCallId => .ok (.tool message.content toolCallId)

/-- `_messages`. -/
def baseMessages (messages : List ToolLoopMessage) : Except PyError (List BaseMessage) :=
  messages.mapM baseMessage

/-! ## The loop underneath -/

section

variable {inv : Invocation} {env : LoopEnv} {text : MessageText}

/-- The messages do not change what the loop does. -/
theorem talkCalls_runs (maxTools iteration : Nat) (calls : List ToolCallRequest)
    (c : Conversation) :
    runCalls inv env maxTools iteration calls c.state =
      ((talkCalls inv env text maxTools iteration calls c).1.state,
        (talkCalls inv env text maxTools iteration calls c).2) := by
  induction calls generalizing c with
  | nil => rfl
  | cons call rest ih =>
    simp only [talkCalls, runCalls]
    by_cases hover : maxTools < c.state.toolCount + 1
    · simp only [if_pos hover]
    · simp only [if_neg hover]
      rcases hspend : c.state.budgets.consumeToolCall with ⟨budgets, error⟩
      cases error with
      | some e => rfl
      | none =>
        cases hresult : (env.invoke (c.state.toolCount + 1)).result call.name with
        | error e => rfl
        | ok result => exact ih (Conversation.append { c with state := _ } _)

theorem talkTurns_runs (maxTools remaining iteration : Nat) (c : Conversation) :
    runTurns inv env maxTools remaining iteration c.state =
      ((talkTurns inv env text maxTools remaining iteration c).1.state,
        (talkTurns inv env text maxTools remaining iteration c).2) := by
  induction remaining generalizing iteration c with
  | zero => rfl
  | succ remaining ih =>
    simp only [talkTurns, runTurns]
    rcases hspend : c.state.budgets.consumeModelCall with ⟨budgets, error⟩
    cases error with
    | some e => rfl
    | none =>
      cases hresponse : env.nextAction iteration with
      | cancelled => rfl
      | raised e => rfl
      | response toolCalls =>
        by_cases hnone : toolCalls = []
        · simp only [if_pos hnone]
          rfl
        · simp only [if_neg hnone]
          have hcalls := @talkCalls_runs inv env text maxTools iteration toolCalls
            (Conversation.append
              { c.request (LoopState.perform { c.state with budgets } .sends) with
                state := (LoopState.perform { c.state with budgets } .sends).emit inv env .modelCall
                  (turnKey iteration) } (assistantMessage text iteration toolCalls))
          simp only [Conversation.append, Conversation.request] at hcalls ⊢
          rw [hcalls]
          rcases talkCalls inv env text maxTools iteration toolCalls _ with ⟨c', ended⟩
          cases ended with
          | next => exact ih (iteration + 1) c'
          | finalize => rfl
          | raised e => rfl

theorem talkFinal_runs (c : Conversation) :
    finalizeLoop inv env c.state = ((talkFinal inv env c).1.state, (talkFinal inv env c).2) := by
  unfold talkFinal
  simp only
  split <;> rfl

theorem talk_runs (budgets : LoopBudgets) :
    runLoop inv env budgets =
      ((talk inv env text budgets).1.state, (talk inv env text budgets).2) := by
  by_cases hid : strip inv.invocationId = ""
  · simp only [talk, runLoop, if_pos hid]
  · simp only [talk, runLoop, if_neg hid]
    cases hlimits : callLimits inv budgets with
    | error e => rfl
    | ok limits =>
      have hturns := @talkTurns_runs inv env text limits.2 limits.1 1
        { state := { budgets }, messages := firstMessages text }
      simp only
      rw [hturns]
      rcases talkTurns inv env text limits.2 limits.1 1 _ with ⟨c, ended⟩
      cases ended with
      | next => exact talkFinal_runs (c.append exhaustedMessage)
      | finalize => exact talkFinal_runs c
      | raised e => rfl

/-! ## The order of the messages -/

/-- A message in the order of the chat. -/
def ToolLoopMessage.turn (message : ToolLoopMessage) : ChatTurn (Option String) :=
  match message.role with
  | .system | .user => .plain
  | .assistant => .calls (message.toolCalls.map fun call => some call.callId)
  | .tool => .answer message.toolCallId

def BaseMessage.turn : BaseMessage → ChatTurn (Option String)
  | .system _ | .human _ => .plain
  | .ai _ toolCalls _ => .calls (toolCalls.map fun call => some call.callId)
  | .tool _ toolCallId => .answer (some toolCallId)

/-- The calls of the messages that have no answer yet. -/
def openMessages (messages : List ToolLoopMessage) : Option (List (Option String)) :=
  openCalls (messages.map (·.turn))

def callIds (calls : List ToolCallRequest) : List (Option String) :=
  calls.map fun call => some call.callId

theorem openMessages_append {messages : List ToolLoopMessage} {ids : List (Option String)}
    (h : openMessages messages = some ids) (message : ToolLoopMessage) :
    openMessages (messages ++ [message]) = message.turn.reads ids := by
  rw [openMessages, List.map_append]
  exact openCalls_concat h _

/-- The lists the gateway was given leave no call open. -/
def Conversation.Answered (c : Conversation) : Prop :=
  ∀ request ∈ c.requests, openMessages request = some []

theorem Conversation.Answered.request {c : Conversation} (h : c.Answered)
    (hclosed : openMessages c.messages = some []) (state : LoopState) :
    (c.request state).Answered := by
  intro request hrequest
  rcases List.mem_append.1 hrequest with hold | hnew
  · exact h request hold
  · rw [List.mem_singleton.1 hnew]
    exact hclosed

/-- The calls of a turn are all answered, also when the tool budget ends in their midst. -/
theorem talkCalls_answered (maxTools iteration : Nat) (calls : List ToolCallRequest)
    (c : Conversation) (h : c.Answered) (hopen : openMessages c.messages = some (callIds calls)) :
    let talked := talkCalls inv env text maxTools iteration calls c
    talked.1.Answered ∧
      ((∃ e, talked.2 = .raised e) ∨ openMessages talked.1.messages = some []) := by
  induction calls generalizing c with
  | nil => exact ⟨h, .inr hopen⟩
  | cons call rest ih =>
    simp only [talkCalls]
    split
    · refine ⟨h, .inr ?_⟩
      have hall := openCalls_answers hopen
      have hturns : ((call :: rest).map (budgetAnswer text)).map (·.turn) =
          (callIds (call :: rest)).map .answer := by
        rw [callIds, List.map_map, List.map_map]
        rfl
      rw [openMessages, List.map_append, hturns]
      exact hall
    · split
      · exact ⟨h, .inl ⟨_, rfl⟩⟩
      · split
        · exact ⟨h, .inl ⟨_, rfl⟩⟩
        next result hresult =>
          refine ih _ h ?_
          rw [Conversation.append, openMessages_append hopen]
          simp [callIds, ToolLoopMessage.turn, resultAnswer, ChatTurn.reads]

theorem talkTurns_answered (maxTools remaining iteration : Nat) (c : Conversation)
    (h : c.Answered) (hclosed : openMessages c.messages = some []) :
    let talked := talkTurns inv env text maxTools remaining iteration c
    talked.1.Answered ∧
      ((∃ e, talked.2 = .raised e) ∨ openMessages talked.1.messages = some []) := by
  induction remaining generalizing iteration c with
  | zero => exact ⟨h, .inr hclosed⟩
  | succ remaining ih =>
    simp only [talkTurns]
    split
    · exact ⟨h, .inl ⟨_, rfl⟩⟩
    next budgets hspend =>
      have hasked := h.request hclosed (LoopState.perform { c.state with budgets } .sends)
      split
      · exact ⟨hasked, .inl ⟨_, rfl⟩⟩
      · exact ⟨hasked, .inl ⟨_, rfl⟩⟩
      next toolCalls hresponse =>
        have hopen : openMessages (c.messages ++ [assistantMessage text iteration toolCalls]) =
            some (callIds toolCalls) := by
          rw [openMessages_append hclosed]
          rfl
        split
        next hnone =>
          subst hnone
          exact ⟨hasked, .inr hopen⟩
        · obtain ⟨htalked, hend⟩ := @talkCalls_answered inv env text maxTools iteration toolCalls
            (Conversation.append
              { c.request (LoopState.perform { c.state with budgets } .sends) with
                state := (LoopState.perform { c.state with budgets } .sends).emit inv env .modelCall
                  (turnKey iteration) } (assistantMessage text iteration toolCalls)) hasked hopen
          split
          next c' hnext =>
            rw [hnext] at htalked hend
            refine ih (iteration + 1) c' htalked ?_
            rcases hend with ⟨e, he⟩ | hclosed'
            · cases he
            · exact hclosed'
          · exact ⟨htalked, hend⟩

theorem talkFinal_answered (c : Conversation) (h : c.Answered)
    (hclosed : openMessages c.messages = some []) : (talkFinal inv env c).1.Answered := by
  unfold talkFinal
  simp only
  split
  · exact h
  · exact h.request hclosed _

theorem talk_answered (budgets : LoopBudgets) : (talk inv env text budgets).1.Answered := by
  have hnone : ∀ state messages, Conversation.Answered ⟨state, messages, []⟩ :=
    fun state messages request hrequest => by cases hrequest
  unfold talk
  split
  · exact hnone _ _
  · split
    · exact hnone _ _
    next actions maxTools hlimits =>
      obtain ⟨htalked, hend⟩ := @talkTurns_answered inv env text maxTools actions 1
        { state := { budgets }, messages := firstMessages text } (hnone _ _) rfl
      split
      · next c e hraised =>
        rw [hraised] at htalked
        exact htalked
      · next c hnext =>
        rw [hnext] at htalked hend
        have hclosed : openMessages c.messages = some [] := by
          rcases hend with ⟨e, he⟩ | hclosed
          · cases he
          · exact hclosed
        refine talkFinal_answered _ htalked ?_
        rw [Conversation.append, openMessages_append hclosed]
        rfl
      · next c hfinal =>
        rw [hfinal] at htalked hend
        rcases hend with ⟨e, he⟩ | hclosed
        · cases he
        · exact talkFinal_answered _ htalked hclosed

/-! ## The provider's list -/

theorem baseMessage_turn {message : ToolLoopMessage}
    (h : message.role = .tool → message.toolCallId ≠ none) :
    ∃ converted, baseMessage message = .ok converted ∧ converted.turn = message.turn := by
  unfold baseMessage
  cases hrole : message.role with
  | system => exact ⟨_, rfl, by simp [ToolLoopMessage.turn, BaseMessage.turn, hrole]⟩
  | user => exact ⟨_, rfl, by simp [ToolLoopMessage.turn, BaseMessage.turn, hrole]⟩
  | assistant => exact ⟨_, rfl, by simp [ToolLoopMessage.turn, BaseMessage.turn, hrole]⟩
  | tool =>
    cases hid : message.toolCallId with
    | none => exact absurd hid (h hrole)
    | some toolCallId =>
      exact ⟨_, rfl, by simp [ToolLoopMessage.turn, BaseMessage.turn, hrole, hid]⟩

/-- Tool messages with an id are converted, one for one. -/
theorem baseMessages_turns (messages : List ToolLoopMessage)
    (h : ∀ message ∈ messages, message.role = .tool → message.toolCallId ≠ none) :
    ∃ converted, baseMessages messages = .ok converted ∧
      converted.map (·.turn) = messages.map (·.turn) := by
  induction messages with
  | nil => exact ⟨[], rfl, rfl⟩
  | cons message rest ih =>
    obtain ⟨first, hfirst, hturn⟩ := baseMessage_turn (h message (List.mem_cons_self ..))
    obtain ⟨others, hothers, hturns⟩ := ih fun m hm => h m (List.mem_cons_of_mem _ hm)
    refine ⟨first :: others, ?_, by simp [hturn, hturns]⟩
    unfold baseMessages at hothers ⊢
    simp [hfirst, hothers, bind, Except.bind, pure, Except.pure]

/-- An answer in its place names a call. -/
theorem toolCallId_of_answered {messages : List ToolLoopMessage}
    (h : WellFormedChat (messages.map (·.turn))) {message : ToolLoopMessage}
    (hmem : message ∈ messages) (hrole : message.role = .tool) : message.toolCallId ≠ none := by
  obtain ⟨before, after, rfl⟩ := List.append_of_mem hmem
  have hturn : message.turn = .answer message.toolCallId := by simp [ToolLoopMessage.turn, hrole]
  obtain ⟨earlier, ids, given, hbefore, hleads⟩ := h.inPlace (before.map (·.turn))
    message.toolCallId (after.map (·.turn)) (by simp [hturn])
  have hid : message.toolCallId ∈ ids := hleads.subset (by simp)
  have hcalls : ChatTurn.calls ids ∈ before.map (·.turn) := by simp [hbefore]
  obtain ⟨asking, -, hasking⟩ := List.mem_map.1 hcalls
  have hids : ids = callIds asking.toolCalls := by
    cases hasked : asking.role <;> simp [ToolLoopMessage.turn, hasked] at hasking
    exact hasking.symm
  rw [hids] at hid
  obtain ⟨call, -, hcall⟩ := List.mem_map.1 hid
  rw [← hcall]
  simp

end

/-- Each list of messages that the gateway is given, at any request of any invocation, is in
the order of the chat protocol, and is converted for the provider message by message. -/
theorem requests_wellFormed (inv : Invocation) (env : LoopEnv) (text : MessageText)
    (budgets : LoopBudgets) :
    (talk inv env text budgets).1.state = (runLoop inv env budgets).1 ∧
    ∀ request ∈ (talk inv env text budgets).1.requests,
      WellFormedChat (request.map (·.turn)) ∧
        ∃ converted, baseMessages request = .ok converted ∧
          converted.map (·.turn) = request.map (·.turn) := by
  refine ⟨by rw [@talk_runs inv env text budgets], fun request hrequest => ?_⟩
  have hwell := wellFormedChat_of_closed (talk_answered budgets request hrequest)
  exact ⟨hwell, baseMessages_turns request fun message => toolCallId_of_answered hwell⟩

end EvoCI
