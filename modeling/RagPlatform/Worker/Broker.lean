import RagPlatform.Gateway

/-! The broker between the API and the workers: tasks wait in it until a worker has acknowledged
them (`task_acks_late`, `worker_prefetch_multiplier=1`). -/

namespace RagPlatform

open Lib

/-- The message of `ingest_document`, with `request.retries`. -/
structure Message where
  documentId : Uuid
  retries : Nat
  deriving DecidableEq

structure Fleet (ι : Type) where
  platform : Platform ι
  /-- The messages no worker has, those of scheduled retries included. -/
  ready : List Message := []
  /-- What each worker is at. -/
  unacked : ι → Option Message := fun _ => none

/-- What happens to the API and worker processes.  A worker takes its next message when it has
acknowledged the last one.  The message of a lost worker goes back to the queue, and so does that of
one that takes longer than the broker waits.  It is the worker that is lost, with its connection:
where only its pool process is killed, Celery acknowledges the message, unless
`task_reject_on_worker_lost` is set. -/
inductive Incident (ι : Type)
  | call (i : ι) (tenantId : Uuid) (endpoint : Endpoint)
  | take (i : ι) (message : Message)
  | answer (i : ι) (oracle : Oracle)
  | finish (i : ι)
  | die (i : ι)
  | expire (i : ι)

/-- The messages `delay` has sent since then. -/
def dispatched (w w' : World) : List Message := (w'.queue.drop w.queue.length).map (⟨·, 0⟩)

/-- `self.retry` sends the message again, with the next count. -/
def republished (message : Message) : Except Exn Outcome → List Message
  | .ok (.task (.retry _)) => [⟨message.documentId, message.retries + 1⟩]
  | _ => []

namespace Fleet

variable {ι : Type}

def start (w : World) (ready : List Message) : Fleet ι := { platform := .init w, ready := ready }

def state (F : Fleet ι) : World := F.platform.state

variable [DecidableEq ι]

def spawn (F : Fleet ι) (i : ι) (p : Io Outcome) : Platform ι := F.platform.next exec (.spawn i p)

variable (ext : External) (settings : Settings) (F : Fleet ι)

def next : Incident ι → Fleet ι
  | .call i tenantId endpoint =>
    { F with platform := F.spawn i ((endpoint.job tenantId).code ext settings) }
  | .take i message =>
    if message ∈ F.ready ∧ (F.platform.threads i).isNone then
      { platform :=
          F.spawn i ((Job.deliver message.retries message.documentId).code ext settings)
        ready := F.ready.erase message
        unacked := Function.update F.unacked i (some message) }
    else F
  | .answer i o =>
    let platform := F.platform.next exec (.step i o)
    { F with platform := platform, ready := F.ready ++ dispatched F.state platform.state }
  | .finish i =>
    match F.platform.threads i, F.unacked i with
    | some ⟨_, _, .ret r⟩, some message =>
      { platform := F.platform.set i none
        ready := F.ready ++ republished message r
        unacked := Function.update F.unacked i none }
    | _, _ => F
  | .die i =>
    { platform := F.platform.set i none
      ready := F.ready ++ (F.unacked i).toList
      unacked := Function.update F.unacked i none }
  | .expire i => { F with ready := F.ready ++ (F.unacked i).toList }

def run (hs : List (Incident ι)) (F : Fleet ι) : Fleet ι := hs.foldl (next ext settings) F

end Fleet

end RagPlatform
