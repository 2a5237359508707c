import RagPlatform.Security
import RagPlatform.Services.Ingestion

/-! The operator's commands: `ingest`, `create-credential` and `revoke-credential`. -/

namespace RagPlatform

open Lib

structure Path where
  name : Str
  bytes : Bytes

def cliIngestionService (settings : Settings) : IngestionService where
  targetTokens := settings.chunkTargetTokens
  overlapTokens := settings.chunkOverlapTokens
  batchSize := settings.embedBatchSize

def ingestPath (ext : External) (settings : Settings) (tenantId : Uuid) (path : Path) :
    Io Document := do
  let sourceType ← Io.ofExcept (sourceTypeForFilename path.name)
  let document ← (cliIngestionService settings).ingest ext tenantId path.name path.bytes sourceType
  return document.current

section

variable (ext : External)

def resolveTenant (slug : Str) : Io Tenant := do
  let tenant ← perform (.findTenant slug)
  match tenant with
  | none => raise (.other "SystemExit".toList)
  | some tenant => return tenant

/-- What the command prints; the random parts are drawn beforehand. -/
def createCredential (slug randomId randomSecret : Str) : Io (Str × Str) := do
  let tenant ← resolveTenant slug
  let clientId := generateClientId randomId
  let clientSecret := generateClientSecret randomSecret
  perform (.insertCredential
    { tenantId := tenant.id
      clientId := clientId
      secretHash := hashSecret ext clientSecret })
  return (clientId, clientSecret)

/-- `cred.revoked_at = cred.revoked_at or now` -/
def revoked (credential : ApiCredential) (now : Nat) : CredentialInstance :=
  { CredentialInstance.load credential with
    current := { credential with revokedAt := some (credential.revokedAt.getD now) } }

def revokeCredential (clientId : Str) : Io ApiCredential := do
  let row ← perform (.findCredential clientId)
  match row with
  | none => raise (.notFound ("no credential with client_id ".toList ++ ext.repr clientId))
  | some credential => do
    let now ← perform .time
    perform (.commitCredential (revoked credential now))
    return (revoked credential now).current

end

end RagPlatform
