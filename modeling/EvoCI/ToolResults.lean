import EvoCI.Library.Run
import EvoCI.Messages
import EvoCI.Memory.Retrieval

/-! Results too long for a message: the loop keeps them by call id and hands them out in chunks,
which are results again and go through the same check. -/

namespace EvoCI

open Library

/-! ## `json.dumps` -/

def hexFour (n : Nat) : List Char :=
  [hexDigit (n / 4096 % 16), hexDigit (n / 256 % 16), hexDigit (n / 16 % 16), hexDigit (n % 16)]

/-- `\uXXXX`, a pair of surrogates for a character outside the basic plane. -/
def unicodeEscape (n : Nat) : List Char :=
  if n < 0x10000 then '\\' :: 'u' :: hexFour n
  else
    '\\' :: 'u' :: hexFour (0xd800 + (n - 0x10000) / 1024) ++
      '\\' :: 'u' :: hexFour (0xdc00 + (n - 0x10000) % 1024)

/-- A character inside a JSON string that keeps ASCII alone. -/
def escapeAscii (c : Char) : List Char :=
  match c with
  | '"' => ['\\', '"']
  | '\\' => ['\\', '\\']
  | '\n' => ['\\', 'n']
  | '\r' => ['\\', 'r']
  | '\t' => ['\\', 't']
  | '\x08' => ['\\', 'b']
  | '\x0c' => ['\\', 'f']
  | c => if ' ' ≤ c ∧ c ≤ '~' then [c] else unicodeEscape c.toNat

def quoteAscii (text : String) : String :=
  "\"" ++ String.ofList (text.toList.flatMap escapeAscii) ++ "\""

mutual

/-- `json.dumps(value, sort_keys=True)`. -/
def dumpsAscii : Json → String
  | .null => "null"
  | .bool value => if value then "true" else "false"
  | .int value => toString value
  | .float repr => repr
  | .str text => quoteAscii text
  | .list items => "[" ++ String.intercalate ", " (dumpsAsciiAll items) ++ "]"
  | .mapping items =>
    "\x7b" ++ String.intercalate ", " (((dumpsAsciiItems items).insertionSort fun first second =>
      first.1 ≤ second.1).map fun item => quoteAscii item.1 ++ ": " ++ item.2) ++ "\x7d"

def dumpsAsciiAll : List Json → List String
  | [] => []
  | item :: items => dumpsAscii item :: dumpsAsciiAll items

def dumpsAsciiItems : List (String × Json) → List (String × String)
  | [] => []
  | (key, value) :: items => (key, dumpsAscii value) :: dumpsAsciiItems items

end

/-! ## Chunks -/

def toolResultChunkChars : Nat := 8000

/-- `text[offset:offset + limit]`. -/
def slice (text : String) (offset limit : Nat) : String :=
  String.ofList ((text.toList.drop offset).take limit)

/-- What `read_tool_result` returns of a cached result. -/
def resultChunk (resultId raw : String) (offset limit : Nat) : Json :=
  let chunk := slice raw offset limit
  let nextOffset := offset + chunk.length
  .mapping [("result_id", .str resultId), ("offset", .int offset), ("content", .str chunk),
    ("next_offset", if raw.length ≤ nextOffset then .null else .int nextOffset),
    ("complete", .bool (raw.length ≤ nextOffset)), ("total_chars", .int raw.length)]

/-- `read_tool_result`. -/
def readToolResult (cached : Dict String String) (resultId : String) (offset limit : Nat) :
    Except Raised Json :=
  match cached.get? resultId with
  | none => .error ⟨"KeyError", s!"'unknown cached tool result: {resultId}'"⟩
  | some raw => .ok (resultChunk resultId raw offset limit)

/-- What `read_memory` returns of an entry. -/
def memoryChunk (memoryId : String) (hit : MemoryHit) (offset limit : Nat) : Json :=
  let stop := min (offset + limit) hit.content.length
  .mapping [("memory_id", .str memoryId), ("namespace", .str hit.namespace),
    ("content", .str (slice hit.content offset (stop - offset))),
    ("total_chars", .int hit.content.length),
    ("next_offset", if stop < hit.content.length then .int stop else .null)]

/-- `get_memory_hit`. -/
def MemoryTables.getMemoryHit (tables : MemoryTables) (lower : String → String)
    (memoryId repository : String) : Option MemoryHit :=
  if repository = "" then none
  else if startsWith memoryId "episode:" then
    (tables.episodes.find? fun row => row.episode.id = memoryId).map fun row =>
      episodeHit lower row.episode none
  else
    (tables.longTerm.find? fun memory =>
      memory.id = memoryId && memory.repository = repository && !memory.archived).map fun memory =>
        longTermHit memory 0

/-- `read_memory`. -/
def readMemory (visible : Dict String String) (repository : String) (lower : String → String)
    (tables : MemoryTables) (memoryId : String) (offset limit : Nat) : Except Raised Json :=
  match visible.get? memoryId with
  | none => .error ⟨"PolicyViolation", "memory is not available to this agent invocation"⟩
  | some «namespace» =>
    if repository = "" then .error ⟨"PolicyViolation", "memory repository is missing"⟩
    else
      match tables.getMemoryHit lower memoryId repository with
      | none =>
        .error ⟨"PolicyViolation", "memory is unavailable or has changed since retrieval"⟩
      | some hit =>
        if hit.namespace ≠ «namespace» then
          .error ⟨"PolicyViolation", "memory is unavailable or has changed since retrieval"⟩
        else .ok (memoryChunk memoryId hit offset limit)

/-! ## What the loop makes of a result -/

/-- What stands for a result that is kept. -/
def projection (callId raw : String) : Json :=
  .mapping [("projected", .bool true), ("result_id", .str callId),
    ("total_chars", .int raw.length),
    ("preview", .str (String.ofList (raw.toList.take toolResultPreviewChars))),
    ("read_more", .str "Call read_tool_result with this result_id and an offset/limit.")]

/-- The kept results behind a call, and what its message says. -/
def receive (cached : Dict String String) (callId : String) (serialized : Json) :
    Dict String String × Json :=
  let raw := dumpsAscii serialized
  if toolResultPreviewChars < raw.length then (cached.set callId raw, projection callId raw)
  else (cached, serialized)

/-- A call of `read_tool_result`, or of another tool with the result it has; an exception leaves
`null`. -/
inductive ResultCall where
  | read (callId resultId : String) (offset limit : Nat)
  | tool (callId : String) (serialized : Json)

def ResultCall.callId : ResultCall → String
  | .read callId _ _ _ => callId
  | .tool callId _ => callId

def ResultCall.serialized (cached : Dict String String) : ResultCall → Json
  | .read _ resultId offset limit =>
    match readToolResult cached resultId offset limit with
    | .ok value => value
    | .error _ => .null
  | .tool _ serialized => serialized

/-- One call of the loop. -/
def ResultCall.perform (call : ResultCall) (cached : Dict String String) :
    Dict String String × Json :=
  receive cached call.callId (call.serialized cached)

def ResultCall.step (call : ResultCall) (cached : Dict String String) : Dict String String :=
  (call.perform cached).1

/-! ## A model that follows `next_offset` -/

/-- The chunk in a result, and where it says the next one begins. -/
def chunkOf : Json → Option (String × Option Nat)
  | .mapping items =>
    match Dict.get? items "content", Dict.get? items "next_offset" with
    | some (.str content), some .null => some (content, none)
    | some (.str content), some (.int next) => some (content, some next.toNat)
    | _, _ => none
  | _ => none

/-- The content received by calls that each start where the last chunk says: `call` is the call
with an id at an offset, and `ids` are the ids that the provider gives them. -/
def follow (call : String → Nat → ResultCall) (ids : Nat → String) :
    Nat → Nat → Nat → Dict String String → Option String
  | 0, _, _, _ => none
  | fuel + 1, k, offset, cached =>
    let performed := (call (ids k) offset).perform cached
    match chunkOf performed.2 with
    | none => none
    | some (content, none) => some content
    | some (content, some next) =>
      (follow call ids fuel (k + 1) next performed.1).map (content ++ ·)

/-- `read_tool_result` with the default limit. -/
def resultCall (resultId callId : String) (offset : Nat) : ResultCall :=
  .read callId resultId offset toolResultChunkChars

/-- `read_memory` with the default limit. -/
def memoryCall (read : Nat → Nat → Except Raised Json) (callId : String) (offset : Nat) :
    ResultCall :=
  .tool callId (match read offset toolResultChunkChars with
    | .ok value => value
    | .error _ => .null)

/-! ## How long a record is -/

def escapedLength (text : String) : Nat := (text.toList.flatMap escapeAscii).length

theorem length_quoteAscii (text : String) : (quoteAscii text).length = 2 + escapedLength text := by
  simp only [quoteAscii, String.length_append, String.length_ofList, escapedLength]
  have hquote : ("\"" : String).length = 1 := rfl
  omega

theorem length_intercalate (texts : List String) :
    (String.intercalate ", " texts).length =
      (texts.map String.length).sum + 2 * (texts.length - 1) := by
  induction texts with
  | nil => rfl
  | cons text texts ih =>
    cases texts with
    | nil => simp
    | cons next texts =>
      have hsep : (", " : String).length = 2 := rfl
      rw [String.intercalate_cons_cons, String.length_append, String.length_append, ih, hsep]
      simp only [List.map_cons, List.sum_cons, List.length_cons]
      omega

theorem dumpsAsciiItems_eq (items : List (String × Json)) :
    dumpsAsciiItems items = items.map fun item => (item.1, dumpsAscii item.2) := by
  induction items with
  | nil => rfl
  | cons item items ih => rw [dumpsAsciiItems, ih, List.map_cons]

/-- Sorting the keys does not change the length. -/
theorem length_dumpsAscii (items : List (String × Json)) :
    (dumpsAscii (.mapping items)).length =
      2 + (items.map fun item => 4 + escapedLength item.1 + (dumpsAscii item.2).length).sum +
        2 * (items.length - 1) := by
  have hbrace : ("\x7b" : String).length = 1 ∧ ("\x7d" : String).length = 1 ∧
      (": " : String).length = 2 := ⟨rfl, rfl, rfl⟩
  have hperm := List.perm_insertionSort (fun first second : String × String => first.1 ≤ second.1)
    (dumpsAsciiItems items)
  rw [dumpsAscii, String.length_append, String.length_append, length_intercalate, hbrace.1,
    hbrace.2.1, List.map_map, List.length_map, hperm.length_eq, (hperm.map _).sum_nat,
    dumpsAsciiItems_eq, List.map_map, List.length_map]
  have hsame : ((String.length ∘ fun item : String × String => quoteAscii item.1 ++
      ": " ++ item.2) ∘
      fun item : String × Json => (item.1, dumpsAscii item.2)) =
      fun item => 4 + escapedLength item.1 + (dumpsAscii item.2).length := by
    funext item
    simp only [Function.comp, String.length_append, length_quoteAscii, hbrace.2.2]
    omega
  rw [hsame]
  omega

/-- A record with no content. -/
def blank : Json → Json
  | .mapping items =>
    .mapping (items.map fun item => if item.1 = "content" then (item.1, .str "") else item)
  | value => value

/-- A record is as long as without content, and the escaped content besides. -/
theorem length_content {before after : List (String × Json)}
    (hbefore : ∀ item ∈ before, item.1 ≠ "content") (hafter : ∀ item ∈ after, item.1 ≠ "content")
    (text : String) :
    (dumpsAscii (.mapping (before ++ ("content", .str text) :: after))).length =
      (dumpsAscii (blank (.mapping (before ++ ("content", .str text) :: after)))).length +
        escapedLength text := by
  have hkept : ∀ items : List (String × Json), (∀ item ∈ items, item.1 ≠ "content") →
      (items.map fun item => if item.1 = "content" then (item.1, Json.str "") else item) =
        items := by
    intro items hitems
    conv_rhs => rw [← List.map_id items]
    exact List.map_congr_left fun item hitem => if_neg (hitems item hitem)
  have hempty : escapedLength "" = 0 := rfl
  have hblank : blank (.mapping (before ++ ("content", .str text) :: after)) =
      .mapping (before ++ ("content", .str "") :: after) := by
    rw [blank, List.map_append, List.map_cons, hkept before hbefore, hkept after hafter, if_pos rfl]
  rw [hblank, length_dumpsAscii, length_dumpsAscii]
  simp only [List.map_append, List.map_cons, List.sum_append, List.sum_cons, List.length_append,
    List.length_cons, dumpsAscii, length_quoteAscii, hempty]
  omega

theorem length_resultChunk (resultId raw : String) (offset limit : Nat) :
    (dumpsAscii (resultChunk resultId raw offset limit)).length =
      (dumpsAscii (blank (resultChunk resultId raw offset limit))).length +
        escapedLength (slice raw offset limit) :=
  @length_content [_, _] [_, _, _] (by simp) (by simp) _

theorem length_memoryChunk (memoryId : String) (hit : MemoryHit) (offset limit : Nat) :
    (dumpsAscii (memoryChunk memoryId hit offset limit)).length =
      (dumpsAscii (blank (memoryChunk memoryId hit offset limit))).length +
        escapedLength
          (slice hit.content offset (min (offset + limit) hit.content.length - offset)) :=
  @length_content [_, _] [_, _] (by simp) (by simp) _

/-! ## Following a text to its end -/

/-- The result goes into its message as it is. -/
def Delivered (value : Json) : Prop := (dumpsAscii value).length ≤ toolResultPreviewChars

instance (value : Json) : Decidable (Delivered value) :=
  inferInstanceAs (Decidable ((dumpsAscii value).length ≤ toolResultPreviewChars))

theorem receive_delivered {cached : Dict String String} {callId : String} {value : Json}
    (h : Delivered value) : receive cached callId value = (cached, value) := by
  simp only [receive]
  rw [if_neg (Nat.not_lt.mpr h)]

theorem chunkOf_receive {cached : Dict String String} {callId : String} {value : Json}
    (h : ¬ Delivered value) : chunkOf (receive cached callId value).2 = none := by
  simp only [receive]
  rw [if_pos (Nat.lt_of_not_le h)]
  rfl

/-- The calls hand out the text in chunks: `page` is the record at an offset. -/
structure Pages (call : String → Nat → ResultCall) (cached : Dict String String) (text : String)
    (page : Nat → Json) : Prop where
  serialized : ∀ callId offset, (call callId offset).serialized cached = page offset
  chunk : ∀ offset, offset ≤ text.length → chunkOf (page offset) =
    some (slice text offset toolResultChunkChars,
      if text.length ≤ offset + toolResultChunkChars then none
      else some (offset + toolResultChunkChars))

section

variable {call : String → Nat → ResultCall} {ids : Nat → String} {cached : Dict String String}
  {text : String} {page : Nat → Json} {fuel k offset : Nat}

theorem Pages.follow_delivered (h : Pages call cached text page) (hoffset : offset ≤ text.length)
    (hpage : Delivered (page offset)) :
    follow call ids (fuel + 1) k offset cached =
      if text.length ≤ offset + toolResultChunkChars then
        some (slice text offset toolResultChunkChars)
      else (follow call ids fuel (k + 1) (offset + toolResultChunkChars) cached).map
        (slice text offset toolResultChunkChars ++ ·) := by
  rw [follow, ResultCall.perform, h.serialized, receive_delivered hpage]
  simp only [h.chunk offset hoffset]
  by_cases hlast : text.length ≤ offset + toolResultChunkChars
  · simp [hlast]
  · simp [hlast]

theorem Pages.follow_projected (h : Pages call cached text page)
    (hpage : ¬ Delivered (page offset)) : follow call ids fuel k offset cached = none := by
  cases fuel with
  | zero => rfl
  | succ fuel =>
    rw [follow, ResultCall.perform, h.serialized]
    simp only [chunkOf_receive hpage]

/-- A page the calls come to from an offset. -/
def IsPage (text : String) (offset j : Nat) : Prop :=
  j = 0 ∨ offset + toolResultChunkChars * j < text.length

theorem slice_append_drop (text : String) (offset limit : Nat) :
    slice text offset limit ++ String.ofList (text.toList.drop (offset + limit)) =
      String.ofList (text.toList.drop offset) := by
  apply String.toList_inj.mp
  rw [slice, String.toList_append, String.toList_ofList, String.toList_ofList,
    String.toList_ofList, ← List.drop_drop, List.take_append_drop]

theorem slice_last {text : String} {offset limit : Nat} (h : text.length ≤ offset + limit) :
    slice text offset limit = String.ofList (text.toList.drop offset) := by
  have hlen : (text.toList.drop offset).length ≤ limit := by
    rw [List.length_drop, String.length_toList]
    omega
  rw [slice, List.take_of_length_le hlen]

theorem Pages.follow_all (h : Pages call cached text page) (hoffset : offset ≤ text.length)
    (hpages : ∀ j, IsPage text offset j → Delivered (page (offset + toolResultChunkChars * j)))
    (hfuel : 0 < fuel) (henough : text.length ≤ offset + toolResultChunkChars * fuel) :
    follow call ids fuel k offset cached = some (String.ofList (text.toList.drop offset)) := by
  induction fuel generalizing k offset with
  | zero => omega
  | succ fuel ih =>
    have hfirst : Delivered (page offset) := by simpa using hpages 0 (Or.inl rfl)
    rw [h.follow_delivered hoffset hfirst]
    split
    next hlast => rw [slice_last hlast]
    next hmore =>
      simp only [toolResultChunkChars] at hmore henough hpages ⊢
      have hnext := @ih (k + 1) (offset + 8000) (by omega) ?_ ?_ ?_
      · rw [hnext, Option.map_some, slice_append_drop]
      · intro j hj
        simp only [IsPage, toolResultChunkChars] at hj ⊢
        have hsucc : IsPage text offset (j + 1) := Or.inr (by
          simp only [toolResultChunkChars]
          rcases hj with rfl | hj <;> omega)
        have hpage := hpages (j + 1) hsucc
        rwa [Nat.mul_add, Nat.mul_one, Nat.add_comm (8000 * j), ← Nat.add_assoc] at hpage
      · omega
      · simp only [toolResultChunkChars]
        omega

theorem Pages.delivered_of_follow (h : Pages call cached text page) (hoffset : offset ≤ text.length)
    {received : String} (hfollow : follow call ids fuel k offset cached = some received) {j : Nat}
    (hj : IsPage text offset j) : Delivered (page (offset + toolResultChunkChars * j)) := by
  induction fuel generalizing k offset received j with
  | zero => cases hfollow
  | succ fuel ih =>
    have hfirst : Delivered (page offset) := by
      by_contra hprojected
      rw [h.follow_projected hprojected] at hfollow
      cases hfollow
    cases j with
    | zero => simpa using hfirst
    | succ j =>
      rcases hj with hj | hj
      · cases hj
      · have hmore : ¬ text.length ≤ offset + toolResultChunkChars := by
          simp only [toolResultChunkChars] at hj ⊢
          omega
        rw [h.follow_delivered hoffset hfirst, if_neg hmore] at hfollow
        obtain ⟨rest, hrest, -⟩ := Option.map_eq_some_iff.mp hfollow
        have hnext : IsPage text (offset + toolResultChunkChars) j := Or.inr (by
          simp only [toolResultChunkChars] at hj ⊢
          omega)
        have hpage := ih (by omega) hrest hnext
        rwa [Nat.mul_add, Nat.mul_one, Nat.add_comm (toolResultChunkChars * j), ← Nat.add_assoc]

/-- Following the chunks gives the text just when each of them is delivered. -/
theorem Pages.follow_iff (h : Pages call cached text page) :
    (∃ fuel, follow call ids fuel 0 0 cached = some text) ↔
      ∀ j, IsPage text 0 j → Delivered (page (toolResultChunkChars * j)) := by
  constructor
  · rintro ⟨fuel, hfollow⟩ j hj
    simpa using h.delivered_of_follow (Nat.zero_le _) hfollow hj
  · intro hpages
    have henough : text.length ≤ 0 + toolResultChunkChars * (text.length + 1) := by
      simp only [toolResultChunkChars]
      omega
    refine ⟨text.length + 1, ?_⟩
    rw [h.follow_all (Nat.zero_le _) (fun j hj => by simpa using hpages j hj) (Nat.succ_pos _)
      henough]
    simp

end

theorem pages_result {cached : Dict String String} {resultId raw : String}
    (h : cached.get? resultId = some raw) :
    Pages (resultCall resultId) cached raw
      fun offset => resultChunk resultId raw offset toolResultChunkChars where
  serialized callId offset := by
    simp only [resultCall, ResultCall.serialized, readToolResult, h]
  chunk offset hoffset := by
    have hlength : (slice raw offset toolResultChunkChars).length =
        min toolResultChunkChars (raw.length - offset) := by
      rw [slice, String.length_ofList, List.length_take, List.length_drop, String.length_toList]
    by_cases hlast : raw.length ≤ offset + toolResultChunkChars
    · have hnext : raw.length ≤ offset + (slice raw offset toolResultChunkChars).length := by omega
      simp [resultChunk, chunkOf, Dict.get?, hnext, hlast]
    · have hfull : (slice raw offset toolResultChunkChars).length = toolResultChunkChars := by omega
      simp [resultChunk, chunkOf, Dict.get?, hfull, hlast]
      omega

theorem pages_memory {visible : Dict String String} {repository memoryId : String}
    {lower : String → String} {tables : MemoryTables} {hit : MemoryHit}
    (hhit : tables.getMemoryHit lower memoryId repository = some hit)
    (hvisible : visible.get? memoryId = some hit.namespace) (cached : Dict String String) :
    Pages (memoryCall (readMemory visible repository lower tables memoryId)) cached hit.content
      fun offset => memoryChunk memoryId hit offset toolResultChunkChars where
  serialized callId offset := by
    have hrepository : repository ≠ "" := by
      rintro rfl
      cases hhit
    simp [memoryCall, ResultCall.serialized, readMemory, hvisible, hrepository, hhit]
  chunk offset hoffset := by
    by_cases hlast : hit.content.length ≤ offset + toolResultChunkChars
    · have hslice : slice hit.content offset (hit.content.length - offset) =
          slice hit.content offset toolResultChunkChars := by
        rw [slice_last hlast, slice_last (by omega)]
      simp [memoryChunk, chunkOf, Dict.get?, hlast, hslice]
    · have hstop : min (offset + toolResultChunkChars) hit.content.length =
          offset + toolResultChunkChars := by omega
      have hmore : offset + toolResultChunkChars < hit.content.length := by omega
      simp [memoryChunk, chunkOf, Dict.get?, hstop, hlast, hmore]
      omega

/-! ## How long a result stays -/

/-- The call keeps no other text under the id of a result. -/
def Spares (resultId raw : String) (call : ResultCall) (cached : Dict String String) : Prop :=
  call.callId = resultId → Delivered (call.serialized cached) ∨
    dumpsAscii (call.serialized cached) = raw

theorem get?_step (resultId : String) (call : ResultCall) (cached : Dict String String) :
    (call.step cached).get? resultId =
      if call.callId = resultId ∧ ¬ Delivered (call.serialized cached) then
        some (dumpsAscii (call.serialized cached))
      else cached.get? resultId := by
  rw [ResultCall.step, ResultCall.perform]
  by_cases hfits : Delivered (call.serialized cached)
  · rw [receive_delivered hfits, if_neg (fun h => h.2 hfits)]
  · simp only [receive]
    rw [if_pos (Nat.lt_of_not_le hfits), Dict.get?_set]
    by_cases hid : call.callId = resultId
    · rw [if_pos hid.symm, if_pos ⟨hid, hfits⟩]
    · rw [if_neg (Ne.symm hid), if_neg (fun h => hid h.1)]

/-- A step keeps a result just when it spares it. -/
theorem step_keeps_iff {resultId raw : String} {call : ResultCall} {cached : Dict String String}
    (h : cached.get? resultId = some raw) :
    (call.step cached).get? resultId = some raw ↔ Spares resultId raw call cached := by
  rw [get?_step, Spares]
  by_cases hid : call.callId = resultId
  · by_cases hfits : Delivered (call.serialized cached)
    · simp [hid, hfits, h]
    · simp [hid, hfits]
  · simp [hid, h]

theorem run_keeps_iff {resultId raw : String} {cached : Dict String String}
    (h : cached.get? resultId = some raw) (calls : List ResultCall) :
    (∀ before, before <+: calls →
      (Run.run ResultCall.step cached before).get? resultId = some raw) ↔
      Run.Every ResultCall.step (Spares resultId raw) cached calls := by
  induction calls generalizing cached with
  | nil =>
    constructor
    · exact fun _ => trivial
    · intro _ before hbefore
      rw [List.prefix_nil.mp hbefore]
      exact h
  | cons call calls ih =>
    constructor
    · intro hall
      have hstep : (call.step cached).get? resultId = some raw :=
        hall [call] ⟨calls, rfl⟩
      refine ⟨(step_keeps_iff h).mp hstep, (ih hstep).mp fun before hbefore => ?_⟩
      exact hall (call :: before) ((List.prefix_cons_inj call).mpr hbefore)
    · rintro ⟨hspares, hevery⟩ before hbefore
      have hstep := (step_keeps_iff h).mpr hspares
      cases before with
      | nil => exact h
      | cons first before =>
        obtain ⟨rfl, hrest⟩ := List.cons_prefix_cons.mp hbefore
        exact (ih hstep).mpr hevery before hrest

/-- The result is read back under its id, whatever part of it is asked for. -/
def Readable (resultId raw : String) (cached : Dict String String) : Prop :=
  ∀ offset limit,
    readToolResult cached resultId offset limit = .ok (resultChunk resultId raw offset limit)

theorem readable_iff {resultId raw : String} {cached : Dict String String} :
    Readable resultId raw cached ↔ cached.get? resultId = some raw := by
  constructor
  · intro h
    cases hget : cached.get? resultId with
    | none =>
      have hread := h 0 0
      simp [readToolResult, hget] at hread
    | some other =>
      have hread := h 0 (max raw.length other.length)
      simp only [readToolResult, hget, Except.ok.injEq, resultChunk, Json.mapping.injEq,
        List.cons.injEq, Prod.mk.injEq, Json.str.injEq] at hread
      have hslice := hread.2.2.1.2
      rw [slice_last (by omega), slice_last (by omega)] at hslice
      simpa using hslice
  · intro h offset limit
    simp only [readToolResult, h]

/-- Following `next_offset` gives the whole of a kept result, or of a memory, just when no chunk
is too long for a message once its text is escaped; and a result stays readable just as long as
no later call with its id has another long result. -/
theorem chunks_complete_iff (cached : Dict String String) :
    (∀ callId value ids, ¬ Delivered value →
      ((∃ fuel, follow (resultCall callId) ids fuel 0 0 (receive cached callId value).1 =
          some (dumpsAscii value)) ↔
        ∀ j, IsPage (dumpsAscii value) 0 j →
          let chunk := resultChunk callId (dumpsAscii value) (toolResultChunkChars * j)
            toolResultChunkChars
          (dumpsAscii (blank chunk)).length + escapedLength (slice (dumpsAscii value)
            (toolResultChunkChars * j) toolResultChunkChars) ≤ toolResultPreviewChars)) ∧
    (∀ visible repository lower tables memoryId hit ids,
      MemoryTables.getMemoryHit tables lower memoryId repository = some hit →
      Dict.get? visible memoryId = some hit.namespace →
      ((∃ fuel, follow (memoryCall (readMemory visible repository lower tables memoryId)) ids fuel
          0 0 cached = some hit.content) ↔
        ∀ j, IsPage hit.content 0 j →
          let chunk := memoryChunk memoryId hit (toolResultChunkChars * j) toolResultChunkChars
          (dumpsAscii (blank chunk)).length + escapedLength (slice hit.content
            (toolResultChunkChars * j) toolResultChunkChars) ≤ toolResultPreviewChars)) ∧
    ∀ callId value calls, ¬ Delivered value →
      ((∀ before, before <+: calls → Readable callId (dumpsAscii value)
          (Run.run ResultCall.step (receive cached callId value).1 before)) ↔
        Run.Every ResultCall.step (Spares callId (dumpsAscii value))
          (receive cached callId value).1 calls) := by
  have hkept (callId : String) {value : Json}
      (hlong : ¬ Delivered value) :
      (receive cached callId value).1.get? callId = some (dumpsAscii value) := by
    simp only [receive]
    rw [if_pos (Nat.lt_of_not_le hlong), Dict.get?_set_self]
  refine ⟨?_, ?_, ?_⟩
  · intro callId value ids hlong
    rw [(pages_result (hkept callId hlong)).follow_iff]
    simp only [Delivered, length_resultChunk]
  · intro visible repository lower tables memoryId hit ids hhit hvisible
    rw [(pages_memory hhit hvisible cached).follow_iff]
    refine forall_congr' fun j => forall_congr' fun hj => ?_
    have hslice : slice hit.content (toolResultChunkChars * j)
        (min (toolResultChunkChars * j + toolResultChunkChars) hit.content.length -
          toolResultChunkChars * j) =
        slice hit.content (toolResultChunkChars * j) toolResultChunkChars := by
      by_cases hlast : hit.content.length ≤ toolResultChunkChars * j + toolResultChunkChars
      · rw [slice_last hlast, slice_last (by omega)]
      · congr 1
        omega
    simp only [Delivered, length_memoryChunk, hslice]
  · intro callId value calls hlong
    rw [← run_keeps_iff (hkept callId hlong)]
    simp only [readable_iff]

namespace Sample

/-- A result of quotes alone. -/
def quotes : Json := .str (String.ofList (List.replicate 7000 '"'))

theorem escapedLength_marked {text : String} (h : ∀ c ∈ text.toList, c = '"' ∨ c = '\\') :
    escapedLength text = 2 * text.length := by
  rw [escapedLength, ← String.length_toList]
  revert h
  induction text.toList with
  | nil => exact fun _ => rfl
  | cons c cs ih =>
    intro h
    have hc : (escapeAscii c).length = 2 := by
      rcases h c List.mem_cons_self with rfl | rfl <;> rfl
    rw [List.flatMap_cons, List.length_append, hc,
      ih fun d hd => h d (List.mem_cons_of_mem _ hd), List.length_cons]
    omega

theorem quotes_marked : ∀ c ∈ (dumpsAscii quotes).toList, c = '"' ∨ c = '\\' := by
  intro c hc
  simp only [quotes, dumpsAscii, quoteAscii, String.toList_append, String.toList_ofList,
    List.mem_append, List.mem_flatMap] at hc
  rcases hc with (hc | ⟨d, hd, hc⟩) | hc
  · exact Or.inl (by simpa using hc)
  · rw [List.eq_of_mem_replicate hd] at hc
    simp only [escapeAscii, List.mem_cons, List.not_mem_nil, or_false] at hc
    exact hc.symm
  · exact Or.inl (by simpa using hc)

theorem length_quotes : (dumpsAscii quotes).length = 14002 := by
  rw [quotes, dumpsAscii, length_quoteAscii, escapedLength_marked]
  · rw [String.length_ofList, List.length_replicate]
  · intro c hc
    rw [String.toList_ofList] at hc
    exact Or.inl (List.eq_of_mem_replicate hc)

/-- The first chunk of the quotes is too long for a message again, and nothing of it arrives. -/
theorem quotes_never_arrive (ids : Nat → String) (fuel : Nat) :
    follow (resultCall "call-1") ids fuel 0 0 (receive [] "call-1" quotes).1 = none := by
  have hlong : toolResultPreviewChars < (dumpsAscii quotes).length := by
    rw [length_quotes]
    decide
  have hkept : (receive [] "call-1" quotes).1.get? "call-1" = some (dumpsAscii quotes) := by
    simp only [receive]
    rw [if_pos hlong, Dict.get?_set_self]
  refine (pages_result hkept).follow_projected fun hdelivered => ?_
  have hslice : (slice (dumpsAscii quotes) 0 toolResultChunkChars).length = 8000 := by
    rw [slice, String.length_ofList, List.length_take, List.length_drop, String.length_toList,
      length_quotes]
    rfl
  have hmarked : escapedLength (slice (dumpsAscii quotes) 0 toolResultChunkChars) = 16000 := by
    rw [escapedLength_marked, hslice]
    intro c hc
    rw [slice, String.toList_ofList] at hc
    exact quotes_marked c (List.mem_of_mem_drop (List.mem_of_mem_take hc))
  rw [Delivered, length_resultChunk, hmarked, toolResultPreviewChars] at hdelivered
  omega

theorem quotes_unreadable : ¬ ∃ ids fuel,
    follow (resultCall "call-1") ids fuel 0 0 (receive [] "call-1" quotes).1 =
      some (dumpsAscii quotes) := by
  rintro ⟨ids, fuel, h⟩
  rw [quotes_never_arrive] at h
  cases h

/-- Plain letters, as many as this. -/
def letters (count : Nat) : String := String.ofList (List.replicate count 'x')

theorem toList_letters (count : Nat) : (letters count).toList = List.replicate count 'x' :=
  String.toList_ofList

theorem length_letters (count : Nat) : (letters count).length = count := by
  rw [letters, String.length_ofList, List.length_replicate]

theorem dumps_letters (count : Nat) :
    (dumpsAscii (.str (letters count))).toList = '"' :: List.replicate count 'x' ++ ['"'] := by
  have hflat : (List.replicate count 'x').flatMap escapeAscii = List.replicate count 'x' := by
    induction count with
    | zero => rfl
    | succ count ih =>
      rw [List.replicate_succ, List.flatMap_cons, ih]
      rfl
  simp only [dumpsAscii, quoteAscii, toList_letters, hflat, String.toList_append,
    String.toList_ofList]
  rfl

theorem escapedLength_quotes {text : String} (h : ∀ c ∈ text.toList, c = '"' ∨ c = 'x') :
    escapedLength text = text.length + text.toList.count '"' := by
  rw [escapedLength, ← String.length_toList]
  revert h
  induction text.toList with
  | nil => exact fun _ => rfl
  | cons c cs ih =>
    intro h
    rw [List.flatMap_cons, List.length_append, ih fun d hd => h d (List.mem_cons_of_mem _ hd)]
    rcases h c List.mem_cons_self with rfl | rfl
    · rw [List.count_cons_self, List.length_cons, show (escapeAscii '"').length = 2 from rfl]
      omega
    · rw [List.count_cons_of_ne (by decide), List.length_cons,
        show (escapeAscii 'x').length = 1 from rfl]
      omega

/-- A page of quoted letters is at most two quotes longer in a message. -/
theorem escapedLength_page {text : String} {count : Nat}
    (h : List.Sublist text.toList ('"' :: List.replicate count 'x' ++ ['"'])) :
    escapedLength text ≤ text.length + 2 := by
  rw [escapedLength_quotes fun c hc => ?_]
  · have hquotes := h.count_le '"'
    simp only [List.cons_append, List.count_cons_self, List.count_append, List.count_replicate,
      List.count_nil] at hquotes
    simpa using hquotes
  · have hmem := h.subset hc
    simp only [List.cons_append, List.mem_cons, List.mem_append, List.not_mem_nil,
      or_false] at hmem
    rcases hmem with hmem | hmem | hmem
    · exact .inl hmem
    · exact .inr (List.eq_of_mem_replicate hmem)
    · exact .inl hmem

theorem slice_sublist (text : String) (offset limit : Nat) :
    List.Sublist (slice text offset limit).toList text.toList := by
  rw [slice, String.toList_ofList]
  exact (List.take_sublist _ _).trans (List.drop_sublist _ _)

theorem length_slice (text : String) (offset limit : Nat) :
    (slice text offset limit).length = min limit (text.length - offset) := by
  rw [slice, String.length_ofList, List.length_take, List.length_drop, String.length_toList]

def lettersRow : LongTermMemory := ⟨"m1", "org/repo", letters 13000, 1, [], 0, 0, none, false⟩

def lettersMemory : MemoryTables where
  episodes := []
  longTerm := [lettersRow]

/-- A result and a memory of two pages each arrive. -/
theorem letters_arrive :
    (∃ fuel, follow (resultCall "call-1") (fun _ => "call-2") fuel 0 0
      (receive [] "call-1" (.str (letters 13000))).1 =
        some (dumpsAscii (.str (letters 13000)))) ∧
    ∃ fuel, follow
      (memoryCall (readMemory [("m1", "repo:org/repo")] "org/repo" id lettersMemory "m1"))
        (fun _ => "call-1") fuel 0 0 [] = some (letters 13000) := by
  have hlength : (dumpsAscii (.str (letters 13000))).length = 13002 := by
    rw [← String.length_toList, dumps_letters]
    simp only [List.cons_append, List.length_cons, List.length_append, List.length_replicate,
      List.length_nil]
  have hcontent : (longTermHit lettersRow 0).content = letters 13000 := rfl
  have hpages : ∀ (text : String) (j : Nat), text.length ≤ 13002 → IsPage text 0 j →
      j = 0 ∨ j = 1 := by
    intro text j htext hj
    simp only [IsPage, toolResultChunkChars] at hj
    omega
  constructor
  · refine ((chunks_complete_iff []).1 "call-1" (.str (letters 13000)) (fun _ => "call-2")
      ?_).mpr ?_
    · rw [Delivered, hlength]
      decide
    · intro j hj
      have hslice := length_slice (dumpsAscii (.str (letters 13000))) (toolResultChunkChars * j)
        toolResultChunkChars
      have hescaped := escapedLength_page ((slice_sublist (dumpsAscii (.str (letters 13000)))
        (toolResultChunkChars * j) toolResultChunkChars).trans
          (by rw [dumps_letters]))
      rw [hlength] at hslice
      refine Nat.le_trans (Nat.add_le_add_left hescaped _) ?_
      simp only [resultChunk, hslice, hlength]
      rcases hpages _ j hlength.le hj with rfl | rfl
      · decide +kernel
      · decide +kernel
  · refine ((chunks_complete_iff []).2.1 [("m1", "repo:org/repo")] "org/repo" id lettersMemory "m1"
      (longTermHit lettersRow 0) (fun _ => "call-1") ?_ (by decide +kernel)).mpr ?_
    · have hrow : startsWith "m1" "episode:" = false := by decide +kernel
      simp [MemoryTables.getMemoryHit, lettersMemory, lettersRow, hrow]
    · rw [hcontent]
      intro j hj
      have hslice := length_slice (letters 13000) (toolResultChunkChars * j) toolResultChunkChars
      have hwhole : List.Sublist (letters 13000).toList
          ('"' :: List.replicate 13000 'x' ++ ['"']) := by
        rw [toList_letters]
        exact (List.sublist_cons_self _ _).trans (List.sublist_append_left _ _)
      have hescaped := escapedLength_page ((slice_sublist (letters 13000)
        (toolResultChunkChars * j) toolResultChunkChars).trans hwhole)
      rw [length_letters] at hslice
      refine Nat.le_trans (Nat.add_le_add_left hescaped _) ?_
      simp only [memoryChunk, hcontent, hslice, length_letters]
      rcases hpages _ j ((length_letters 13000).trans_le (by decide)) hj with rfl | rfl
      · decide +kernel
      · decide +kernel

end Sample

end EvoCI
