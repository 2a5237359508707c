import RagPlatform.Cli
import RagPlatform.System

/-! Everything that is asked of the platform from outside: requests with their tokens, deliveries,
and what is done to the credentials. -/

namespace RagPlatform

open Lib

/-- What a request asks for.  One that does not validate fares like `list 0 0`. -/
inductive Endpoint
  | upload (file : UploadFile)
  | uploadBatch (files : List UploadFile)
  | list (limit offset : Int)
  | get (documentId : Uuid)
  | events (documentId : Uuid) (polls : Nat)
  | delete (documentId : Uuid)
  | search (body : SearchRequest)
  | answer (body : AnswerRequest)
  | usage (days : Int)

def Endpoint.job (tenantId : Uuid) : Endpoint → Job
  | .upload file => .upload tenantId file
  | .uploadBatch files => .uploadBatch tenantId files
  | .list limit offset => .list tenantId limit offset
  | .get documentId => .get tenantId documentId
  | .events documentId polls => .events tenantId documentId polls
  | .delete documentId => .delete tenantId documentId
  | .search body => .search tenantId body
  | .answer body => .answer tenantId body
  | .usage days => .usage tenantId days

inductive Visit
  | request (authorization : Option Str) (endpoint : Endpoint)
  | deliver (retries : Nat) (documentId : Uuid)
  | issueToken (grantType clientId clientSecret : Str)
  | createCredential (slug randomId randomSecret : Str)
  | revokeCredential (clientId : Str)

section

variable (ext : External) (settings : Settings)

def admitted (claims : TokenClaims) (endpoint : Endpoint) : Io Outcome := do
  enforceRateLimit settings claims
  (endpoint.job claims.tenantId).code ext settings

def Visit.code : Visit → Io Outcome
  | .request authorization endpoint => do
    let claims ← getCurrentTenant ext settings authorization
    admitted ext settings claims endpoint
  | .deliver retries documentId => (Job.deliver retries documentId).code ext settings
  | .issueToken grantType clientId clientSecret => do
    let token ← RagPlatform.issueToken ext settings grantType clientId clientSecret
    return .token token
  | .createCredential slug randomId randomSecret => do
    let created ← RagPlatform.createCredential ext slug randomId randomSecret
    return .credential created.1 created.2
  | .revokeCredential clientId => do
    let credential ← RagPlatform.revokeCredential ext clientId
    return .revoked credential

end

inductive Move (ι : Type)
  | start (i : ι) (visit : Visit)
  | answer (i : ι) (oracle : Oracle)
  | kill (i : ι)

section

variable {ι : Type} (ext : External) (settings : Settings)

def Move.event : Move ι → Event api Oracle ι (Except Exn Outcome)
  | .start i visit => .spawn i (visit.code ext settings)
  | .answer i o => .step i o
  | .kill i => .kill i

variable [DecidableEq ι] (w : World) (moves : List (Move ι))

def gateway : Platform ι :=
  (Pool.init w : Platform ι).run exec (moves.map (Move.event ext settings))

end

end RagPlatform
