import RagPlatform.Lib.Text

/-! Server-Sent Events: the wire format both streaming endpoints share. -/

namespace RagPlatform

open Lib

/-- `json.dumps` with its defaults, and `JSON.parse`, which may throw. -/
structure JsonCodec (J : Type) where
  dumps : J → Str
  parse : Str → Option J

/-- On a class of payloads the browser reads what the server writes, on one line of ASCII. -/
structure JsonCodec.Faithful {J : Type} (codec : JsonCodec J) (portable : J → Prop) : Prop where
  inverts : ∀ payload, portable payload → codec.parse (codec.dumps payload) = some payload
  ascii : ∀ payload, portable payload → ∀ c ∈ codec.dumps payload, c.toNat < 0x80
  oneLine : ∀ payload, portable payload → '\n' ∉ codec.dumps payload

def sseEncode {J : Type} (codec : JsonCodec J) (event : Str) (payload : J) : Str :=
  "event: ".toList ++ event ++ "\ndata: ".toList ++ codec.dumps payload ++ "\n\n".toList

end RagPlatform
