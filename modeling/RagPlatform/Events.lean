import RagPlatform.Lib.Renaming
import RagPlatform.Llm.Base
import RagPlatform.Models

/-! The server-sent events, before they are put on the wire. -/

namespace RagPlatform

open Lib

structure Citation where
  marker : Nat
  chunkId : Nat
  documentId : Uuid
  filename : Str
  location : Option Str
  snippet : Str
  deriving DecidableEq

/-- Each event with the fields of its payload; both kinds of stream end with a `done`. -/
inductive ServerEvent
  | error (detail : Str)
  | status (documentId : Uuid) (status : DocumentStatus) (chunkCount : Option Nat)
      (errorMessage : Option Str)
  | documentDone (status : DocumentStatus)
  | timeout (status : DocumentStatus) (pollAfter : Nat)
  | citations (citations : List Citation)
  | delta (text : Str)
  | answerDone (model : Option Str) (usage : Option LLMUsage) (costUsd : Option Rat)

end RagPlatform
