import RagPlatform.Events
import RagPlatform.Services.Sse

/-! The payloads of the server-sent events. -/

namespace RagPlatform

open Lib

inductive Json
  | null
  | bool (b : Bool)
  | num (q : Rat)
  | str (s : Str)
  | arr (items : List Json)
  | obj (fields : List (Str × Json))

def Json.ofOption {α : Type} (f : α → Json) : Option α → Json
  | none => .null
  | some a => f a

def Json.nat (n : Nat) : Json := .num n

def DocumentStatus.value : DocumentStatus → Str
  | .pending => "pending".toList
  | .processing => "processing".toList
  | .completed => "completed".toList
  | .failed => "failed".toList

def citationPayload (c : Citation) : Json :=
  .obj [("marker".toList, .nat c.marker), ("chunk_id".toList, .nat c.chunkId),
    ("document_id".toList, .str c.documentId.str), ("filename".toList, .str c.filename),
    ("location".toList, .ofOption .str c.location), ("snippet".toList, .str c.snippet)]

def usagePayload (usage : LLMUsage) : Json :=
  .obj [("input_tokens".toList, .nat usage.inputTokens),
    ("output_tokens".toList, .nat usage.outputTokens)]

namespace ServerEvent

/-- The first argument of `sse_encode`. -/
def name : ServerEvent → Str
  | .error _ => "error".toList
  | .status .. => "status".toList
  | .documentDone _ | .answerDone .. => "done".toList
  | .timeout .. => "timeout".toList
  | .citations _ => "citations".toList
  | .delta _ => "delta".toList

def payload : ServerEvent → Json
  | .error d => .obj [("detail".toList, .str d)]
  | .status id s n message =>
    .obj [("document_id".toList, .str id.str), ("status".toList, .str s.value),
      ("chunk_count".toList, .ofOption .nat n), ("error_message".toList, .ofOption .str message)]
  | .documentDone s => .obj [("status".toList, .str s.value)]
  | .timeout s n => .obj [("status".toList, .str s.value), ("poll_after".toList, .nat n)]
  | .citations cs => .obj [("citations".toList, .arr (cs.map citationPayload))]
  | .delta text => .obj [("text".toList, .str text)]
  | .answerDone model usage cost =>
    .obj [("model".toList, .ofOption .str model), ("usage".toList, .ofOption usagePayload usage),
      ("cost_usd".toList, .ofOption .num cost)]

end ServerEvent

end RagPlatform
