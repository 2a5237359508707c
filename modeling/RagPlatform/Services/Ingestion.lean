import RagPlatform.Ingestion.Chunking
import RagPlatform.Runtime

/-! Registration, processing and failure marking of documents. -/

namespace RagPlatform

open Lib

structure IngestionService where
  targetTokens : Int
  overlapTokens : Int
  batchSize : Int
  maxTenantStorage : Int := 0

/-- The row an open session already holds, if any: reads of that row answer with it. -/
abbrev Session := Option Instance

def save (document : Instance) : Io Instance := do
  perform (.commit ⟨document, [], []⟩)
  return document.flushed

def markFailed (session : Session) (documentId : Uuid) (message : Str) : Io Unit := do
  let found ← match session with
    | some document => pure (some document)
    | none => do
      let row ← perform (.getDocument documentId)
      pure (row.map Instance.load)
  match found with
  | none => pure ()
  | some document =>
    perform (.commit ⟨document.set
      { status := some .failed, errorMessage := some (some (message.take 500)) }, [], []⟩)

namespace IngestionService

variable (ext : External) (svc : IngestionService)

def newDocument (tenantId : Uuid) (filename : Str) (raw : Bytes) (sourceType : DocumentSourceType) :
    NewDocument where
  tenantId := tenantId
  filename := filename
  sourceType := sourceType
  contentSha256 := ext.sha256 raw
  sizeBytes := raw.length
  rawContent := raw

def checkQuota (tenantId : Uuid) (raw : Bytes) : Io Unit :=
  if svc.maxTenantStorage > 0 then do
    let usedBytes ← perform (.sumSizeBytes tenantId)
    if (usedBytes : Int) + raw.length > svc.maxTenantStorage then
      raise (.storageQuotaExceeded usedBytes raw.length svc.maxTenantStorage)
    else pure ()
  else pure ()

def insert (document : NewDocument) : Io Document :=
  tryCatch (perform (.insertDocument document)) fun
    | .integrity => do
      perform .rollback
      raise .duplicateDocument
    | e => raise e

def register (tenantId : Uuid) (filename : Str) (raw : Bytes) (sourceType : DocumentSourceType) :
    Io Instance := do
  let tenant ← perform (.getTenant tenantId)
  if tenant.isNone then raise (.notFound s!"tenant {tenantId} not found".toList)
  else do
    svc.checkQuota tenantId raw
    let document ← insert (newDocument ext tenantId filename raw sourceType)
    return .load document

def parseAndChunk (raw : Bytes) (sourceType : DocumentSourceType) :
    Except Exn (List ChunkDraft) := do
  let blocks ← parseDocument ext raw sourceType
  chunkBlocks blocks svc.targetTokens svc.overlapTokens

def embedBatches : List (List ChunkDraft) → Io (List Embedding)
  | [] => pure []
  | batch :: batches => do
    let embeddings ← perform (.embedDocuments (batch.map (·.text)))
    let rest ← embedBatches batches
    return embeddings ++ rest

/-- `range(0, n, step)` raises for the step 0 and is empty for a negative one. -/
def embedAll (drafts : List ChunkDraft) : Io (List Embedding) :=
  if svc.batchSize = 0 then raise .value
  else if svc.batchSize < 0 then pure []
  else embedBatches (slices svc.batchSize.toNat drafts)

def newChunk (document : Document) (row : (ChunkDraft × Embedding) × Nat) : NewChunk where
  documentId := document.id
  tenantId := document.tenantId
  chunkIndex := row.2
  content := row.1.1.text
  tokenCount := row.1.1.tokenCount
  embedding := row.1.2
  metadata := row.1.1.metadata

def newChunks (document : Document) (drafts : List ChunkDraft) (embeddings : List Embedding) :
    List NewChunk :=
  (drafts.zip embeddings).zipIdx.map (newChunk document)

def completion (chunkCount : Nat) : Patch where
  status := some .completed
  errorMessage := some none
  chunkCount := some (some chunkCount)

/-- The body of the `try` block. -/
def store (document : Instance) (raw : Bytes) : Io Instance := do
  let drafts ← Io.ofExcept (svc.parseAndChunk ext raw document.current.sourceType)
  let embeddings ← svc.embedAll drafts
  let doomed ← perform (.deleteChunks document.current.id)
  if drafts.length ≠ embeddings.length then raise .value
  else do
    let stored := document.set (completion drafts.length)
    perform (.commit ⟨stored, doomed, newChunks document.current drafts embeddings⟩)
    return stored.flushed

/-- The `except` clauses: only a `ParseError` is recorded on the row. -/
def onError (document : Instance) (e : Exn) : Io Instance := do
  perform .rollback
  match e with
  | .parse detail => markFailed (some document) document.current.id detail
  | _ => pure ()
  raise e

def process (session : Session) (documentId : Uuid) : Io Instance := do
  let row ← perform (.getDocument documentId)
  match row with
  | none => raise (.notFound s!"document {documentId} not found".toList)
  | some row =>
    let document := session.getD (.load row)
    if document.current.status = .completed then
      return document
    match document.current.rawContent with
    | none =>
      raise (.parse "no stored payload for this document (uploaded pre-async-pipeline)".toList)
    | some raw =>
      let document ← save (document.set { status := some .processing })
      tryCatch (svc.store ext document raw) (onError document)

def ingest (tenantId : Uuid) (filename : Str) (raw : Bytes) (sourceType : DocumentSourceType) :
    Io Instance := do
  let document ← svc.register ext tenantId filename raw sourceType
  svc.process ext (some document) document.current.id

end IngestionService

end RagPlatform
