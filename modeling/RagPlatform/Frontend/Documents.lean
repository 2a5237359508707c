import RagPlatform.Api.Usage
import RagPlatform.Frontend.Chat

/-! The documents page of the web: uploads, deletions, and a table that is read again and again
while some document in it is under way. -/

namespace RagPlatform

open Lib

structure DocumentItem where
  id : Uuid
  filename : Str
  sourceType : DocumentSourceType
  status : DocumentStatus
  chunkCount : Option Nat
  errorMessage : Option Str
  createdAt : Nat
  deriving DecidableEq

def Document.item (d : Document) : DocumentItem where
  id := d.id
  filename := d.filename
  sourceType := d.sourceType
  status := d.status
  chunkCount := d.chunkCount
  errorMessage := d.errorMessage
  createdAt := d.createdAt

def DocumentStatus.inFlight (status : DocumentStatus) : Bool :=
  status = .pending || status = .processing

structure ChosenFile where
  name : Str
  size : Nat

def maxBytes : Nat := 10 * 1024 * 1024

inductive NoteKind
  | ok
  | err
  deriving DecidableEq

inductive LoadCause
  | view
  | upload
  deriving DecidableEq

/-- `err.detail`, or what the page says of other errors. -/
def Thrown.saying (fallback : Str) : Thrown → Str
  | .apiError _ detail => detail
  | .other => fallback

/-- The state of the page, then the requests that have not been answered. -/
structure DocumentsPage where
  docs : Option (List DocumentItem) := none
  loadError : Option Str := none
  uploadNote : Option (NoteKind × Str) := none
  uploading : Bool := false
  usage : Option UsageSummaryOut := none
  loads : List LoadCause := []
  posting : Option Str := none
  removing : Nat := 0

/-- What the user and the timer do, and what becomes of the requests. -/
inductive DocumentsAct
  | mount
  | tick
  | loaded (cause : LoadCause) (res : Except Thrown (List DocumentItem))
  | usageLoaded (res : Except Thrown UsageSummaryOut)
  | upload (file : Option ChosenFile)
  | posted (res : Except Thrown Unit)
  | remove (confirmed : Bool)
  | removed (res : Except Thrown Unit)

namespace DocumentsPage

variable (p : DocumentsPage)

def inFlight : Bool := (p.docs.getD []).any (·.status.inFlight)

def load (cause : LoadCause) : DocumentsPage := { p with loads := cause :: p.loads }

/-- Behind the awaits of `load`, which throws nothing. -/
def onLoaded : Except Thrown (List DocumentItem) → DocumentsPage
  | .ok items => { p with docs := some items, loadError := none }
  | .error thrown => { p with loadError := some (thrown.saying "Could not load documents".toList) }

def onward : LoadCause → DocumentsPage
  | .view => p
  | .upload => { p with uploading := false }

def upload : Option ChosenFile → DocumentsPage
  | none => p
  | some file =>
    if p.uploading then p
    else if file.size > maxBytes then
      { p with uploadNote := some (.err, file.name ++ " is over the 10MB limit".toList) }
    else { p with uploading := true, uploadNote := none, posting := some file.name }

def onPosted (name : Str) : Except Thrown Unit → DocumentsPage
  | .ok _ => load { p with
      posting := none, uploadNote := some (.ok, name ++ " accepted — ingesting…".toList) } .upload
  | .error thrown => { p with
      posting := none
      uploadNote := some (.err, thrown.saying "Upload failed".toList)
      uploading := false }

def onRemoved : Except Thrown Unit → DocumentsPage
  | .ok _ => p.load .view
  | .error thrown => { p with uploadNote := some (.err, thrown.saying "Delete failed".toList) }

def step : DocumentsAct → DocumentsPage
  | .mount => p.load .view
  | .tick => if p.inFlight then p.load .view else p
  | .loaded cause res =>
    if cause ∈ p.loads then
      (onLoaded { p with loads := p.loads.erase cause } res).onward cause
    else p
  | .usageLoaded res => { p with usage := res.toOption }
  | .upload file => p.upload file
  | .posted res =>
    match p.posting with
    | none => p
    | some name => p.onPosted name res
  | .remove confirmed => if confirmed then { p with removing := p.removing + 1 } else p
  | .removed res =>
    match p.removing with
    | 0 => p
    | n + 1 => onRemoved { p with removing := n } res

def run (acts : List DocumentsAct) : DocumentsPage := acts.foldl step p

end DocumentsPage

end RagPlatform
