import RagPlatform.Frontend.Api
import RagPlatform.Services.Payloads

/-! The chat of the web page: one question at a time, and the transcript of them all. -/

namespace RagPlatform

open Lib

namespace Json

/-- `value.key`: `none` where that throws, and `some none` for `undefined`. -/
def prop (key : Str) : Json → Option (Option Json)
  | .null => none
  | .obj fields => some (fields.lookup key)
  | _ => some none

/-- `value ?? default` -/
def orElse (default : Json) : Option Json → Json
  | none | some .null => default
  | some value => value

mutual

/-- `String(value)`, with a way to write numbers: `none` where that throws, since a `toString` that
comes from JSON is no function. -/
def toJsString (numeral : Rat → Str) : Json → Option Str
  | .null => some "null".toList
  | .bool b => some (if b then "true" else "false").toList
  | .num q => some (numeral q)
  | .str s => some s
  | .arr items => (itemStrings numeral items).map (Str.join ",".toList)
  | .obj fields =>
    if (fields.lookup "toString".toList).isSome then none else some "[object Object]".toList

def itemStrings (numeral : Rat → Str) : List Json → Option (List Str)
  | [] => some []
  | .null :: items => (itemStrings numeral items).map ([] :: ·)
  | item :: items => do
    let s ← item.toJsString numeral
    let rest ← itemStrings numeral items
    return s :: rest

end

/-- `text += value`, where `none` is `undefined`. -/
def appendedTo (numeral : Rat → Str) (text : Str) : Option Json → Option Str
  | none => some (text ++ "undefined".toList)
  | some value => (value.toJsString numeral).map (text ++ ·)

end Json

/-- A response, and what its `json()` resolves to, if it does. -/
structure FetchedResponse where
  response : Response
  statusText : Str
  json : Option Json

/-- What is thrown: an `ApiError`, or anything else. -/
inductive Thrown
  | apiError (status : Nat) (detail : Str)
  | other

section

variable (stringify : Json → Str)

def detailOf (res : FetchedResponse) : Str :=
  let fallback := (toString res.response.status).toList ++ " ".toList ++ res.statusText
  match res.json with
  | none => fallback
  | some body =>
    match body.prop "detail".toList with
    | none => fallback
    | some (some (.str detail)) => detail
    | some detail => stringify (.orElse body detail)

/-- `none` for a promise that rejects. -/
def apiFetch : Option FetchedResponse → Except Thrown FetchedResponse
  | none => .error .other
  | some res =>
    if res.response.status = 401 then .error (.apiError 401 "redirecting to login".toList)
    else if 200 ≤ res.response.status ∧ res.response.status ≤ 299 then .ok res
    else .error (.apiError res.response.status (detailOf stringify res))

end

inductive Role
  | user
  | assistant
  deriving DecidableEq

/-- The casts are unchecked, so that the fields hold whatever JSON was sent. `id` is the number
after the `m`. -/
structure ChatMessage where
  id : Nat
  role : Role
  text : Str
  citations : Json := .arr []
  usage : Json := .null
  model : Json := .null
  streaming : Bool
  error : Option Str := none

/-- The local variables of a `send` under way. -/
structure Sending where
  assistantId : Nat
  text : Str := []
  reading : Bool := false

structure Chat where
  messages : List ChatMessage := []
  draft : Str := []
  busy : Bool := false
  nextId : Nat := 0
  sending : Option Sending := none

inductive ChatAct
  | type (draft : Str)
  | send (question : Str)
  | fetched (res : Option FetchedResponse)
  | event (e : SseEvent Json)
  | ended (ending : Ending)

def requestFailed : Str := "Request failed — is the API up?".toList

namespace Chat

variable (c : Chat)

def patch (id : Nat) (update : ChatMessage → ChatMessage) : Chat :=
  { c with messages := c.messages.map fun m => if m.id = id then update m else m }

def questionMessage (q : Str) : ChatMessage where
  id := c.nextId + 1
  role := .user
  text := q
  streaming := false

def answerMessage : ChatMessage where
  id := c.nextId
  role := .assistant
  text := []
  streaming := true

def ask (q : Str) : Chat where
  messages := c.messages ++ [c.questionMessage q, c.answerMessage]
  draft := []
  busy := true
  nextId := c.nextId + 2
  sending := some { assistantId := c.nextId }

def send (question : Str) : Chat :=
  let q := jsTrim question
  if q = [] ∨ c.busy then c else c.ask q

/-- The `finally` clause. -/
def release : Chat := { c with busy := false, sending := none }

/-- The `catch` clause. -/
def fail (s : Sending) (thrown : Thrown) : Chat :=
  let detail := match thrown with
    | .apiError _ detail => detail
    | .other => requestFailed
  (c.patch s.assistantId fun m => { m with streaming := false, error := some detail }).release

def finish (s : Sending) : Chat :=
  (c.patch s.assistantId fun m => { m with streaming := false }).release

variable (numeral : Rat → Str)

def onEvent (s : Sending) (e : SseEvent Json) : Chat :=
  if e.event = "citations".toList then
    match e.data.prop "citations".toList with
    | none => c.fail s .other
    | some citations =>
      c.patch s.assistantId fun m => { m with citations := .orElse (.arr []) citations }
  else if e.event = "delta".toList then
    match (e.data.prop "text".toList).bind (Json.appendedTo numeral s.text) with
    | none => c.fail s .other
    | some text =>
      { c.patch s.assistantId fun m => { m with text := text } with
        sending := some { s with text := text } }
  else if e.event = "done".toList then
    match e.data.prop "usage".toList, e.data.prop "model".toList with
    | some usage, some model =>
      c.patch s.assistantId fun m =>
        { m with streaming := false, usage := .orElse .null usage, model := .orElse .null model }
    | _, _ => c.fail s .other
  else c

def onEnding (s : Sending) : Ending → Chat
  | .done => c.finish s
  | .readFailed | .syntaxError => c.fail s .other
  | .apiError status detail => c.fail s (.apiError status detail)

variable (stringify : Json → Str)

/-- An act that does not fit the state of the request leaves the page as it is. -/
def step : ChatAct → Chat
  | .type draft => { c with draft := draft }
  | .send question => c.send question
  | .fetched res =>
    match c.sending with
    | some s =>
      if s.reading then c
      else
        match apiFetch stringify res with
        | .ok _ => { c with sending := some { s with reading := true } }
        | .error thrown => c.fail s thrown
    | none => c
  | .event e =>
    match c.sending with
    | some s => if s.reading then c.onEvent numeral s e else c
    | none => c
  | .ended ending =>
    match c.sending with
    | some s => if s.reading then c.onEnding s ending else c
    | none => c

def run (acts : List ChatAct) : Chat := acts.foldl (step · numeral stringify) c

end Chat

/-- What happens to a `send` once its request has been answered. -/
def receiving (codec : JsonCodec Json) (res : FetchedResponse) : List ChatAct :=
  let read := sseEvents codec res.response
  .fetched (some res) :: read.1.map .event ++ [.ended read.2]

end RagPlatform
