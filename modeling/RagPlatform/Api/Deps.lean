import RagPlatform.Ratelimit
import RagPlatform.Security
import RagPlatform.Services.Answering

/-! What every request passes through before its handler: the token, then the rate limit. -/

namespace RagPlatform

open Lib

section

variable (ext : External) (settings : Settings)

/-- `authorization.lower().startswith("bearer ")` -/
def isBearer (authorization : Str) : Bool :=
  "bearer ".toList.isPrefixOf (authorization.map Char.toLower)

/-- What a header says about the tenant, at a time in seconds. -/
def claims (authorization : Option Str) (now : Nat) : Except Exn TokenClaims :=
  match authorization with
  | none => .error (.authentication "missing bearer token".toList)
  | some authorization =>
    if isBearer authorization then
      decodeAccessToken ext (authorization.drop 7) settings.jwtSecret now
    else .error (.authentication "missing bearer token".toList)

def getCurrentTenant (authorization : Option Str) : Io TokenClaims := do
  let time ← perform .time
  let claims ← Io.ofExcept (claims ext settings authorization (time / 1000000))
  let credential ← perform (.getCredential claims.credentialId)
  match credential with
  | none => raise (.authentication "credential revoked or unknown".toList)
  | some credential =>
    if credential.revokedAt.isSome ∨ credential.tenantId ≠ claims.tenantId then
      raise (.authentication "credential revoked or unknown".toList)
    else return claims

def enforceRateLimit (claims : TokenClaims) : Io Unit :=
  RateLimiter.check settings.rateLimitPerMinute (rateLimitKey claims.tenantId)

def getRetrievalService : RetrievalService where
  reranker := settings.reranker
  kDense := settings.retrievalKDense
  kKeyword := settings.retrievalKKeyword
  rrfK := settings.retrievalRrfK
  topN := settings.retrievalTopN

def getAnswerService : AnswerService where
  retrieval := getRetrievalService settings
  maxTokens := settings.answerMaxTokens
  priceIn := settings.priceInputPerMtok
  priceOut := settings.priceOutputPerMtok

end

/-- FastAPI's answer to parameters or a body that do not validate. -/
def validate (valid : Bool) : Io Unit :=
  if valid then pure () else raise (.other "RequestValidationError".toList)

end RagPlatform
