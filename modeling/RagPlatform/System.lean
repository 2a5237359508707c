import RagPlatform.Api.Answers
import RagPlatform.Api.Auth
import RagPlatform.Api.Documents
import RagPlatform.Api.Search
import RagPlatform.Api.Usage
import RagPlatform.Worker.Tasks

/-! The jobs that run side by side: requests to the API and deliveries to the workers. -/

namespace RagPlatform

open Lib

/-- Requests whose tenant is known, and deliveries.  A status stream is followed for so many
polls. -/
inductive Job
  | upload (tenantId : Uuid) (file : UploadFile)
  | uploadBatch (tenantId : Uuid) (files : List UploadFile)
  | list (tenantId : Uuid) (limit offset : Int)
  | get (tenantId documentId : Uuid)
  | events (tenantId documentId : Uuid) (polls : Nat)
  | delete (tenantId documentId : Uuid)
  | search (tenantId : Uuid) (body : SearchRequest)
  | answer (tenantId : Uuid) (body : AnswerRequest)
  | usage (tenantId : Uuid) (days : Int)
  | deliver (retries : Nat) (documentId : Uuid)

inductive Outcome
  | document (document : Document)
  | batch (batch : DocumentBatchOut)
  | documents (list : DocumentListOut)
  | polled (document : Document) (pollInterval : Option Nat)
  | events (ended : Bool)
  | deleted
  | results (results : List SearchResultOut)
  | answer (answer : AnswerResponse)
  | usage (summary : UsageSummaryOut)
  | task (result : TaskResult)
  | token (token : TokenResponse)
  | credential (clientId clientSecret : Str)
  | revoked (credential : ApiCredential)

section

variable (ext : External) (settings : Settings)

def Job.code : Job → Io Outcome
  | .upload tenantId file => do
    let document ← uploadDocument ext settings tenantId file
    return .document document
  | .uploadBatch tenantId files => do
    let batch ← uploadDocumentsBatch ext settings tenantId files
    return .batch batch
  | .list tenantId limit offset => do
    let list ← listDocuments tenantId limit offset
    return .documents list
  | .get tenantId documentId => do
    let found ← getDocument tenantId documentId
    return .polled found.1 found.2
  | .events tenantId documentId polls => do
    let ended ← documentEvents tenantId documentId polls
    return .events ended
  | .delete tenantId documentId => do
    deleteDocument tenantId documentId
    return .deleted
  | .search tenantId body => do
    let results ← RagPlatform.search settings tenantId body
    return .results results
  | .answer tenantId body => do
    let answer ← RagPlatform.answer settings tenantId body
    return .answer answer
  | .usage tenantId days => do
    let summary ← usageSummary tenantId days
    return .usage summary
  | .deliver retries documentId => do
    let result ← ingestDocument ext settings retries documentId
    return .task result

end

/-- Any number of API and worker processes, with their jobs under way. -/
abbrev Platform (ι : Type) := Pool api World ι (Except Exn Outcome)

/-- What may happen next: a job starts, one that waits is answered, or a process dies. -/
inductive Act (ι : Type)
  | start (i : ι) (job : Job)
  | answer (i : ι) (oracle : Oracle)
  | kill (i : ι)

section

variable {ι : Type} (ext : External) (settings : Settings)

def Act.event : Act ι → Event api Oracle ι (Except Exn Outcome)
  | .start i job => .spawn i (job.code ext settings)
  | .answer i o => .step i o
  | .kill i => .kill i

variable [DecidableEq ι] (w : World) (acts : List (Act ι))

def platform : Platform ι := (Pool.init w : Platform ι).run exec (acts.map (Act.event ext settings))

def after : World := (platform ext settings w acts).state

/-- Jobs may be started at any time; `step` restricts how awaits turn out. -/
def rules (step : Log api → Oracle → Call → World → Prop) :
    Pool.Rules api World Oracle ι (Except Exn Outcome) where
  spawn _ p _ := ∃ job : Job, p = job.code ext settings
  step := step

/-- Every await the run answers satisfies `step`. -/
def Guarded (step : Log api → Oracle → Call → World → Prop) : Prop :=
  (Pool.init w : Platform ι).Obeys exec (rules ext settings step)
    (acts.map (Act.event ext settings))

end

namespace Sample

/-- The digests of the payloads of `note`, `broken` and `other`. -/
def sha256 (raw : Bytes) : Str :=
  if raw = [0x48, 0x69, 0x2E] then
    "17f4444f3932f8a1c554c7cdea92208dbecb03b0173a2b6a79cc2310a05c5fad".toList
  else if raw = [0xFF] then
    "a8100ae6aa1940d0b663bb31cd466142ebbdbd5187131b92d93818987832eb89".toList
  else "d87d3680146bd7ab0891a57de9e96fe87e53d32b5970b14519138ae3e8e24840".toList

def ext : External where
  sha256 := sha256
  pdfReader _ := .error "Stream has ended unexpectedly".toList
  beautifulSoup _ := .ok []

def note : UploadFile := ⟨some "note.md".toList, [0x48, 0x69, 0x2E]⟩

def broken : UploadFile := ⟨some "broken.md".toList, [0xFF]⟩

def other : UploadFile := ⟨some "other.md".toList, [0x4F, 0x6B, 0x2E]⟩

def tenantId : Uuid := ⟨1⟩

def documentId : Uuid := ⟨7⟩

def world : World := { db := { tenants := [{ id := tenantId }] } }

def oracle : Oracle where
  uuid := documentId
  embed texts := .ok (texts.map fun _ => .finite 1 :: List.replicate 383 (.finite 0))

def failing : Oracle := { oracle with fault := some (.raised "OperationalError".toList) }

def whole (i n : Nat) (job : Job) : List (Act Nat) :=
  .start i job :: List.replicate n (.answer i oracle)

def state (acts : List (Act Nat)) : World := after ext {} world acts

def row (acts : List (Act Nat)) : Option Document := (state acts).db.document documentId

end Sample

end RagPlatform
