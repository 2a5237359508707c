import RagPlatform.Models

/-! The exceptions the code raises or meets. -/

namespace RagPlatform

open Lib

inductive Exn
  | notFound (detail : Str)
  | configuration (detail : Str)
  | providerNotConfigured (detail : Str)
  | unsupportedDocumentType (detail : Str)
  | parse (detail : Str)
  | duplicateDocument
  | invalidQuery
  | authentication (detail : Str)
  | invalidGrant (detail : Str)
  | fileTooLarge (detail : Str)
  | storageQuotaExceeded (usedBytes incomingBytes : Nat) (limitBytes : Int)
  | queueUnavailable
  | rateLimited (retryAfterSeconds : Int)
  -- the rest does not derive from `RagPlatformError`
  | integrity
  | staleData
  | data
  | value
  | other (name : Str)
  deriving DecidableEq

namespace Exn

/-- `RagPlatformError.detail`; other exceptions have none. -/
def detail : Exn → Option Str
  | .notFound d | .configuration d | .providerNotConfigured d | .unsupportedDocumentType d
  | .parse d | .authentication d | .invalidGrant d | .fileTooLarge d => some d
  | .duplicateDocument =>
    some "A document with identical content already exists for this tenant".toList
  | .invalidQuery => some "Query must be non-empty".toList
  | .storageQuotaExceeded used incoming limit =>
    some s!"Tenant storage quota exceeded: {used} bytes used + {incoming} incoming > {limit} byte limit".toList
  | .queueUnavailable => some "Ingestion queue is unavailable; try again shortly".toList
  | .rateLimited _ => some "Rate limit exceeded".toList
  | .integrity | .staleData | .data | .value | .other _ => none

/-- What the handler in `main.py` answers; anything outside the hierarchy is a plain 500. -/
def statusCode : Exn → Nat
  | .notFound _ => 404
  | .unsupportedDocumentType _ => 415
  | .parse _ | .invalidQuery => 422
  | .duplicateDocument => 409
  | .authentication _ => 401
  | .invalidGrant _ => 400
  | .fileTooLarge _ | .storageQuotaExceeded .. => 413
  | .queueUnavailable => 503
  | .rateLimited _ => 429
  | .configuration _ | .providerNotConfigured _ | .integrity | .staleData | .data | .value
  | .other _ => 500

/-- Neither of the two exceptions the ingestion task takes for final. -/
def transient : Exn → Bool
  | .parse _ | .notFound _ => false
  | _ => true

def isRagPlatformError (e : Exn) : Bool := e.detail.isSome

end Exn

end RagPlatform
