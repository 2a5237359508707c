import RagPlatform.Api.Deps
import RagPlatform.Services.Ingestion

/-! The document endpoints. -/

namespace RagPlatform

open Lib

def DocumentStatus.terminal : DocumentStatus → Bool
  | .completed | .failed => true
  | .pending | .processing => false

structure UploadFile where
  filename : Option Str
  raw : Bytes

/-- `file.filename or default` -/
def UploadFile.name (file : UploadFile) (default : Str) : Str :=
  match file.filename with
  | none | some [] => default
  | some name => name

def apiIngestionService (settings : Settings) : IngestionService where
  targetTokens := settings.chunkTargetTokens
  overlapTokens := settings.chunkOverlapTokens
  batchSize := settings.embedBatchSize
  maxTenantStorage := settings.maxTenantStorageBytes

section

variable (ext : External) (settings : Settings) (tenantId : Uuid)

def checkSize (file : UploadFile) : Io Unit :=
  if (file.raw.length : Int) > settings.maxUploadBytes then
    raise (.fileTooLarge
      s!"file is {file.raw.length} bytes; limit is {settings.maxUploadBytes}".toList)
  else pure ()

def enqueue (document : Instance) : Io Unit :=
  tryCatch (perform (.delay document.current.id)) fun _ => do
    markFailed (some document) document.current.id "could not enqueue ingestion".toList
    raise .queueUnavailable

def uploadDocument (file : UploadFile) : Io Document := do
  let sourceType ← Io.ofExcept (sourceTypeForFilename (file.name []))
  checkSize settings file
  let document ← (apiIngestionService settings).register ext tenantId
    (file.name "upload".toList) file.raw sourceType
  enqueue document
  return document.current

structure BatchItemResult where
  filename : Str
  document : Option Document := none
  error : Option Str := none

def uploadBatchItem (file : UploadFile) : Io BatchItemResult :=
  let filename := file.name "upload".toList
  tryCatch
    (do
      checkSize settings file
      let sourceType ← Io.ofExcept (sourceTypeForFilename filename)
      let document ← (apiIngestionService settings).register ext tenantId filename file.raw
        sourceType
      enqueue document
      return { filename := filename, document := some document.current })
    fun e =>
      match e.detail with
      | some detail => return { filename := filename, error := some detail }
      | none => raise e

structure DocumentBatchOut where
  accepted : Nat
  rejected : Nat
  results : List BatchItemResult

def uploadBatchItems : List UploadFile → Io (List BatchItemResult)
  | [] => pure []
  | file :: files => do
    let result ← uploadBatchItem ext settings tenantId file
    let rest ← uploadBatchItems files
    return result :: rest

def uploadDocumentsBatch (files : List UploadFile) : Io DocumentBatchOut := do
  let results ← uploadBatchItems ext settings tenantId files
  let accepted := (results.filter (·.document.isSome)).length
  return ⟨accepted, results.length - accepted, results⟩

end

def getOwned (tenantId documentId : Uuid) : Io Document := do
  let row ← perform (.getDocument documentId)
  match row with
  | none => raise (.notFound s!"document {documentId} not found".toList)
  | some document =>
    if document.tenantId = tenantId then return document
    else raise (.notFound s!"document {documentId} not found".toList)

def pollIntervalSeconds : Nat := 2

structure DocumentListOut where
  items : List Document
  total : Nat
  limit : Int
  offset : Int

def listDocuments (tenantId : Uuid) (limit offset : Int) : Io DocumentListOut := do
  validate (1 ≤ limit && limit ≤ 200 && 0 ≤ offset)
  let total ← perform (.countDocuments tenantId)
  let rows ← perform (.listDocuments tenantId limit.toNat offset.toNat)
  return ⟨rows, total, limit, offset⟩

/-- The row, and the `X-Poll-Interval` header. -/
def getDocument (tenantId documentId : Uuid) : Io (Document × Option Nat) := do
  let document ← getOwned tenantId documentId
  return (document, if document.status.terminal then none else some pollIntervalSeconds)

def reportChange (documentId : Uuid) (lastStatus : Option DocumentStatus) (doc : Document) :
    Io Unit :=
  if lastStatus = some doc.status then pure ()
  else emit (.status documentId doc.status doc.chunkCount doc.errorMessage)

/-- What one poll has to report; the status to go on with, if the stream does. -/
def reportStatus (tenantId documentId : Uuid) (lastStatus : Option DocumentStatus) :
    Option Document → Io (Option DocumentStatus)
  | none => do
    emit (.error "document not found".toList)
    return none
  | some doc =>
    if doc.tenantId ≠ tenantId then do
      emit (.error "document not found".toList)
      return none
    else do
      reportChange documentId lastStatus doc
      if doc.status.terminal then do
        emit (.documentDone doc.status)
        return none
      else return some doc.status

/-- The loop of `event_stream`, for as many polls as it is followed; whether it has ended. -/
def eventStream (tenantId documentId : Uuid) (deadline : Nat) :
    (polls : Nat) → (lastStatus : Option DocumentStatus) → Io Bool
  | 0, _ => pure false
  | polls + 1, lastStatus => do
    let row ← perform (.getDocument documentId)
    let status ← reportStatus tenantId documentId lastStatus row
    match status with
    | none => return true
    | some status => do
      let now ← perform .loopTime
      if now > deadline then do
        emit (.timeout status pollIntervalSeconds)
        return true
      else do
        let disconnected ← perform .isDisconnected
        if disconnected then return true
        else do
          perform (.sleep pollIntervalSeconds)
          eventStream tenantId documentId deadline polls (some status)

def documentEvents (tenantId documentId : Uuid) (polls : Nat) : Io Bool := do
  let _ ← getOwned tenantId documentId
  let now ← perform .loopTime
  eventStream tenantId documentId (now + 300000000) polls none

def deleteDocument (tenantId documentId : Uuid) : Io Unit := do
  let document ← getOwned tenantId documentId
  perform (.deleteDocument document.id)

end RagPlatform
