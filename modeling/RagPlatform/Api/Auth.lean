import RagPlatform.Api.Deps

/-! The token endpoint. -/

namespace RagPlatform

open Lib

structure TokenResponse where
  accessToken : Str
  expiresIn : Int

def invalidCredentials : Exn := .authentication "invalid client credentials".toList

section

variable (ext : External) (settings : Settings)

def checkClient (clientSecret : Str) : Option ApiCredential → Except Exn ApiCredential
  | none => .error invalidCredentials
  | some credential =>
    if credential.revokedAt.isSome ∨ !secretMatches ext clientSecret credential.secretHash then
      .error invalidCredentials
    else .ok credential

/-- `credential.last_used_at = now` -/
def touched (credential : ApiCredential) (now : Nat) : CredentialInstance :=
  { CredentialInstance.load credential with
    current := { credential with lastUsedAt := some now } }

def issueToken (grantType clientId clientSecret : Str) : Io TokenResponse := do
  RateLimiter.check settings.rateLimitTokenPerMinute ("token:".toList ++ clientId)
  if grantType ≠ "client_credentials".toList then
    raise (.invalidGrant "unsupported grant_type; use client_credentials".toList)
  else do
    let row ← perform (.findCredential clientId)
    let credential ← Io.ofExcept (checkClient ext clientSecret row)
    let now ← perform .time
    perform (.commitCredential (touched credential now))
    let now ← perform .time
    let token := createAccessToken ext credential.tenantId credential.id settings.jwtSecret
      settings.jwtTtlSeconds (now / 1000000)
    return ⟨token.1, token.2⟩

end

end RagPlatform
