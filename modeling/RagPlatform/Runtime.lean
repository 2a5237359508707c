import RagPlatform.Config
import RagPlatform.Credentials
import RagPlatform.Events
import RagPlatform.External
import RagPlatform.Lib.Contract
import RagPlatform.Metering
import RagPlatform.Redis
import RagPlatform.Retrieval.Repository

/-! What the code awaits, and what its surroundings do when asked. -/

namespace RagPlatform

open Lib

/-- A row as one session holds it: as last read or flushed, and as changed since. -/
structure Instance where
  loaded : Document
  current : Document

namespace Instance

def load (d : Document) : Instance := ⟨d, d⟩

def set (i : Instance) (p : Patch) : Instance := { i with current := p.apply i.current }

/-- After the commit; with `expire_on_commit=False` the attributes keep their values. -/
def flushed (i : Instance) : Instance := ⟨i.current, i.current⟩

/-- The columns an UPDATE names are those whose value has changed. -/
def patch (i : Instance) : Patch where
  status := if i.loaded.status = i.current.status then none else some i.current.status
  errorMessage :=
    if i.loaded.errorMessage = i.current.errorMessage then none else some i.current.errorMessage
  chunkCount :=
    if i.loaded.chunkCount = i.current.chunkCount then none else some i.current.chunkCount

end Instance

/-- What a commit flushes: a changed row, the chunks a DELETE found, and new chunks. -/
structure Txn where
  document : Instance
  doomed : List Nat := []
  added : List NewChunk := []

def Database.commit (db : Database) (t : Txn) (skip : Nat) : Except Exn Database := do
  let db ← db.update t.document.loaded.id t.document.patch
  db.replaceChunks t.doomed t.added skip

structure NewDocument where
  tenantId : Uuid
  filename : Str
  sourceType : DocumentSourceType
  contentSha256 : Str
  sizeBytes : Nat
  rawContent : Bytes

def NewDocument.row (d : NewDocument) (id : Uuid) (createdAt : Nat) : Document where
  id := id
  tenantId := d.tenantId
  filename := d.filename
  sourceType := d.sourceType
  contentSha256 := d.contentSha256
  sizeBytes := d.sizeBytes
  status := .pending
  rawContent := some d.rawContent
  errorMessage := none
  chunkCount := none
  createdAt := createdAt

structure NewUsage where
  tenantId : Uuid
  operation : Str
  model : Str
  inputTokens : Nat
  outputTokens : Nat
  costUsd : Option Rat
  deriving DecidableEq

def NewUsage.row (u : NewUsage) (createdAt : Nat) : UsageRecord :=
  { u with createdAt := createdAt }

structure CredentialInstance where
  loaded : ApiCredential
  current : ApiCredential

namespace CredentialInstance

def load (c : ApiCredential) : CredentialInstance := ⟨c, c⟩

def patch (i : CredentialInstance) : CredentialPatch where
  lastUsedAt :=
    if i.loaded.lastUsedAt = i.current.lastUsedAt then none else some i.current.lastUsedAt
  revokedAt := if i.loaded.revokedAt = i.current.revokedAt then none else some i.current.revokedAt

end CredentialInstance

inductive Call
  | getTenant (id : Uuid)
  | sumSizeBytes (tenantId : Uuid)
  | insertDocument (document : NewDocument)
  | getDocument (id : Uuid)
  | deleteChunks (documentId : Uuid)
  | commit (txn : Txn)
  | rollback
  | deleteDocument (id : Uuid)
  | embedDocuments (texts : List Str)
  | delay (documentId : Uuid)
  | time
  | loopTime
  | sleep (seconds : Nat)
  | isDisconnected
  | getCredential (id : Uuid)
  | findTenant (slug : Str)
  | findCredential (clientId : Str)
  | insertCredential (credential : NewCredential)
  | commitCredential (credential : CredentialInstance)
  | incr (key : Str)
  | expire (key : Str) (seconds : Nat)
  | countDocuments (tenantId : Uuid)
  | listDocuments (tenantId : Uuid) (limit offset : Nat)
  | embedQuery (text : Str)
  | denseSearch (tenantId : Uuid) (queryEmbedding : Embedding) (k : Int)
  | keywordSearch (tenantId : Uuid) (query : Str) (k : Int)
  | rerank (query : Str) (texts : List Str)
  | generate (prompt : Prompt)
  | stream (prompt : Prompt)
  | insertUsage (usage : NewUsage)
  | usageRollup (tenantId : Uuid) (since : Int)

/-- What a stream of the model yields, and the exception that ends it, if any. -/
structure StreamReply where
  events : List StreamEvent
  failure : Option Exn := none

/-- `deleteChunks` answers with the rows its statement saw; they go when the commit comes. -/
abbrev Reply : Call → Type
  | .getTenant _ => Option Tenant
  | .sumSizeBytes _ => Nat
  | .insertDocument _ => Document
  | .getDocument _ => Option Document
  | .deleteChunks _ => List Nat
  | .embedDocuments _ => List Embedding
  | .time | .loopTime => Nat
  | .isDisconnected => Bool
  | .getCredential _ | .findCredential _ => Option ApiCredential
  | .findTenant _ => Option Tenant
  | .incr _ => Nat
  | .countDocuments _ => Nat
  | .listDocuments .. => List Document
  | .embedQuery _ => Embedding
  | .denseSearch .. | .keywordSearch .. => List ChunkHit
  | .rerank .. => List Rat
  | .generate _ => LLMResult
  | .stream _ => StreamReply
  | .usageRollup .. => List UsageRow
  | .commit _ | .rollback | .deleteDocument _ | .delay _ | .sleep _ | .expire .. | .insertUsage _
  | .insertCredential _ | .commitCredential _ => Unit

def Call.instant : Call → Bool
  | .time | .loopTime => true
  | _ => false

def api : Signature where
  Req := Call
  Resp c := Except Exn (Reply c)
  Out := ServerEvent

abbrev Io (α : Type) := ExceptT Exn (Async api) α

def perform (c : Call) : Io (Reply c) := ExceptT.mk (@Async.request api c)

def emit (event : ServerEvent) : Io Unit := ExceptT.mk (.emit event (pure (.ok ())))

def raise {α : Type} (e : Exn) : Io α := throw e

def Io.ofExcept {α : Type} (r : Except Exn α) : Io α := ExceptT.mk (pure r)

structure World where
  db : Database := {}
  /-- The ingestion tasks sent to the broker, oldest first. -/
  queue : List Uuid := []
  credentials : Credentials := {}
  usageRecords : List UsageRecord := []
  redis : Redis := []

/-- An await that raises has either had no effect, or had it and lost the answer. -/
inductive Fault
  | raised (name : Str)
  | lostAck (name : Str)
  deriving DecidableEq

structure Oracle where
  fault : Option Fault := none
  uuid : Uuid := ⟨0⟩
  /-- Microseconds since the epoch. -/
  now : Nat := 0
  /-- Microseconds on the clock of the event loop. -/
  loopTime : Nat := 0
  disconnected : Bool := false
  skip : Nat := 0
  embed : List Str → Except Exn (List Embedding) := fun _ => .ok []
  embedQuery : Str → Except Exn Embedding := fun _ => .ok []
  cosineDistance : Embedding → Embedding → Rat := fun _ _ => 0
  /-- `ts_rank_cd` of a text for a query it matches. -/
  tsRank : Str → Str → Option Rat := fun _ _ => none
  rerank : Str → List Str → Except Exn (List Rat) := fun _ _ => .ok []
  generate : Prompt → Except Exn LLMResult := fun _ => .ok ⟨[], ⟨0, 0⟩, []⟩
  stream : Prompt → Except Exn StreamReply := fun _ => .ok ⟨[], none⟩

variable (o : Oracle)

def World.write (w : World) {α : Type} (a : α) : Except Exn Database → World × Except Exn α
  | .ok db => ({ w with db := db }, .ok a)
  | .error e => (w, .error e)

def World.writeCredentials (w : World) : Except Exn Credentials → World × Except Exn Unit
  | .ok credentials => ({ w with credentials := credentials }, .ok ())
  | .error e => (w, .error e)

def World.insertCredential (w : World) (c : ApiCredential) : World × Except Exn Unit :=
  if w.db.tenants.any (·.id = c.tenantId) then w.writeCredentials (w.credentials.insert c)
  else (w, .error .integrity)

def limited {α : Type} (k : Int) (query : Nat → List α) : Except Exn (List α) :=
  if k < 0 then .error .data else .ok (query k.toNat)

def World.insertUsage (w : World) (u : UsageRecord) : World × Except Exn Unit :=
  if !u.storable then (w, .error .data)
  else if w.db.tenants.any (·.id = u.tenantId) then
    ({ w with usageRecords := w.usageRecords ++ [u] }, .ok ())
  else (w, .error .integrity)

def serve : (c : Call) → World → World × Except Exn (Reply c)
  | .getTenant id, w => (w, .ok (w.db.tenants.find? (·.id = id)))
  | .sumSizeBytes tenantId, w => (w, .ok (w.db.usedBytes tenantId))
  | .insertDocument d, w =>
    let row := d.row o.uuid o.now
    w.write row (w.db.insertDocument row)
  | .getDocument id, w => (w, .ok (w.db.document id))
  | .deleteChunks documentId, w => (w, .ok ((w.db.chunksOf documentId).map (·.id)))
  | .commit t, w => w.write () (w.db.commit t o.skip)
  | .rollback, w => (w, .ok ())
  | .deleteDocument id, w => ({ w with db := w.db.deleteDocument id }, .ok ())
  | .embedDocuments texts, w => (w, o.embed texts)
  | .delay documentId, w => ({ w with queue := w.queue ++ [documentId] }, .ok ())
  | .time, w => (w, .ok o.now)
  | .loopTime, w => (w, .ok o.loopTime)
  | .sleep _, w => (w, .ok ())
  | .isDisconnected, w => (w, .ok o.disconnected)
  | .getCredential id, w => (w, .ok (w.credentials.byId id))
  | .findTenant slug, w => (w, .ok (w.db.tenants.find? (·.slug = slug)))
  | .findCredential clientId, w => (w, .ok (w.credentials.byClientId clientId))
  | .insertCredential c, w => w.insertCredential (c.row o.uuid)
  | .commitCredential i, w => w.writeCredentials (w.credentials.update i.loaded.id i.patch)
  | .incr key, w =>
    let (redis, count) := w.redis.incr o.now key
    ({ w with redis := redis }, .ok count)
  | .expire key seconds, w => ({ w with redis := w.redis.expire o.now key seconds }, .ok ())
  | .countDocuments tenantId, w => (w, .ok (w.db.countDocuments tenantId))
  | .listDocuments tenantId limit offset, w => (w, .ok (w.db.listDocuments tenantId limit offset))
  | .embedQuery text, w => (w, o.embedQuery text)
  | .denseSearch tenantId e k, w => (w, limited k (w.db.denseSearch tenantId o.cosineDistance e))
  | .keywordSearch tenantId q k, w => (w, limited k (w.db.keywordSearch tenantId o.tsRank q))
  | .rerank query texts, w => (w, o.rerank query texts)
  | .generate prompt, w => (w, o.generate prompt)
  | .stream prompt, w => (w, o.stream prompt)
  | .insertUsage u, w => w.insertUsage (u.row o.now)
  | .usageRollup tenantId since, w => (w, .ok (usageRollup w.usageRecords tenantId since))

def exec : Exec api World Oracle := fun o c w =>
  match o.fault with
  | none => serve o c w
  | some f =>
    if c.instant then serve o c w
    else match f with
      | .raised name => (w, .error (.other name))
      | .lostAck name => ((serve o c w).1, .error (.other name))

end RagPlatform
