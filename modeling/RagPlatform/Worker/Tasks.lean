import RagPlatform.Services.Ingestion

/-! The ingestion task. -/

namespace RagPlatform

open Lib

inductive TaskResult
  | done
  | retry (countdown : Int)
  deriving DecidableEq

def exhaustedMessage (settings : Settings) : Str :=
  s!"ingestion failed after {settings.workerMaxRetries} retries".toList

def backoff (settings : Settings) (retries : Nat) : Int :=
  settings.workerRetryBackoffSeconds * 2 ^ retries

def ingestionService (settings : Settings) : IngestionService where
  targetTokens := settings.chunkTargetTokens
  overlapTokens := settings.chunkOverlapTokens
  batchSize := settings.embedBatchSize

def ingestDocument (ext : External) (settings : Settings) (retries : Nat) (documentId : Uuid) :
    Io TaskResult :=
  tryCatch
    (do
      let _ ← (ingestionService settings).process ext none documentId
      return .done)
    fun
    | .parse _ => return .done
    | .notFound _ => return .done
    | _ =>
      if (retries : Int) ≥ settings.workerMaxRetries then do
        markFailed none documentId (exhaustedMessage settings)
        return .done
      else return .retry (backoff settings retries)

end RagPlatform
