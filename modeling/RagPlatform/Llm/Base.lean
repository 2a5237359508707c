import RagPlatform.Lib.Text

/-! What the model providers take and return. -/

namespace RagPlatform

open Lib

structure LLMUsage where
  inputTokens : Nat
  outputTokens : Nat
  deriving DecidableEq

structure LLMResult where
  text : Str
  usage : LLMUsage
  model : Str
  deriving DecidableEq

inductive StreamEvent
  | textDelta (text : Str)
  | streamEnd (usage : LLMUsage) (model : Str)
  deriving DecidableEq

/-- The arguments of `generate` and `stream`. -/
structure Prompt where
  system : Str
  user : Str
  maxTokens : Int
  deriving DecidableEq

end RagPlatform
