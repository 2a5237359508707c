import RagPlatform.Exceptions
import RagPlatform.Lib.Async

/-! The models that run in the process itself, and are loaded by the first thread that needs them. -/

namespace RagPlatform

open Lib

/-- The library the models come from; `M` is what it has in memory. -/
structure Hub (M : Type) where
  getSentenceEmbeddingDimension : M → Option Nat
  encode : M → List Str → Except Exn (List Embedding)
  predict : M → List (Str × Str) → Except Exn (List Rat)

/-- What the threads of a process do to `self._model` and `self._load_lock`, and to the library. -/
inductive Access (M : Type)
  | model
  | setModel (model : M)
  | acquire
  | release
  | importLibrary
  | construct (modelName : Str)

/-- Whether the import succeeds, and how the constructor ends. -/
abbrev Access.Answer {M : Type} : Access M → Type
  | .model => Option M
  | .setModel _ | .acquire | .release => Unit
  | .importLibrary => Bool
  | .construct _ => Except Exn M

def threading (M : Type) : Signature where
  Req := Access M
  Resp := Access.Answer
  Out := Empty

structure Provider (M : Type) where
  model : Option M := none
  locked : Bool := false
  /-- The models constructed so far. -/
  constructed : List M := []

structure Loading (M : Type) where
  installed : Bool
  construct : Str → Except Exn M

def access {M : Type} : Exec (threading M) (Provider M) (Loading M) := fun o r s =>
  match r with
  | .model => (s, s.model)
  | .setModel model => ({ s with model := some model }, ())
  | .acquire => ({ s with locked := true }, ())
  | .release => ({ s with locked := false }, ())
  | .importLibrary => (s, o.installed)
  | .construct modelName =>
    match o.construct modelName with
    | .ok model => ({ s with constructed := s.constructed ++ [model] }, .ok model)
    | .error e => (s, .error e)

section

variable {M : Type}

abbrev Threaded (M α : Type) := ExceptT Exn (Async (threading M)) α

def reach (r : Access M) : Threaded M r.Answer := ExceptT.lift (@Async.request (threading M) r)

/-- `with self._load_lock:` -/
def withLoadLock (body : Threaded M Unit) : Threaded M Unit := do
  reach .acquire
  let r ← ExceptT.lift body.run
  reach .release
  ExceptT.mk (pure r)

/-- `_get_model`, but for what is done under the lock where there is no model yet. -/
def getModel (load : Threaded M M) : Threaded M (Option M) := do
  let model ← reach .model
  if model.isNone then
    withLoadLock do
      let model ← reach .model
      if model.isNone then do
        let model ← load
        reach (.setModel model)
      else pure ()
  else pure ()
  reach .model

/-- `None` has none of the methods of a model. -/
def useModel {α : Type} (use : M → Except Exn α) : Option M → Threaded M α
  | none => throw (.other "AttributeError".toList)
  | some model => ExceptT.mk (pure (use model))

def bgeQueryPrefix : Str := "Represent this sentence for searching relevant passages: ".toList

structure LocalEmbeddingProvider where
  modelName : Str
  dim : Nat

namespace LocalEmbeddingProvider

variable (p : LocalEmbeddingProvider) (hub : Hub M)

def mismatch (actual : Option Nat) : Exn :=
  .configuration ("embedding model ".toList ++ p.modelName ++ " has dim ".toList ++
    (match actual with | some n => (toString n).toList | none => "None".toList) ++
    s!", but the schema requires {p.dim} (see models.EMBEDDING_DIM)".toList)

def load : Threaded M M := do
  let installed ← reach .importLibrary
  if installed then do
    let constructed ← reach (.construct p.modelName)
    let model ← ExceptT.mk (pure constructed)
    let actual := hub.getSentenceEmbeddingDimension model
    if actual ≠ some p.dim then throw (p.mismatch actual)
    else return model
  else throw (.providerNotConfigured
    ("embedding_provider=local requires the 'local-inference' extra: " ++
      "pip install '.[local-inference]'").toList)

def encode (texts : List Str) : Threaded M (List Embedding) := do
  let model ← getModel (p.load hub)
  useModel (hub.encode · texts) model

def embedDocuments (texts : List Str) : Threaded M (List Embedding) := p.encode hub texts

def embedQuery (text : Str) : Threaded M Embedding := do
  let result ← p.encode hub [bgeQueryPrefix ++ text]
  match result with
  | [] => throw (.other "IndexError".toList)
  | embedding :: _ => return embedding

end LocalEmbeddingProvider

structure CrossEncoderReranker where
  modelName : Str

namespace CrossEncoderReranker

variable (p : CrossEncoderReranker) (hub : Hub M)

def load : Threaded M M := do
  let installed ← reach .importLibrary
  if installed then do
    let constructed ← reach (.construct p.modelName)
    ExceptT.mk (pure constructed)
  else throw (.providerNotConfigured
    ("reranker=cross_encoder requires the 'local-inference' extra: " ++
      "pip install '.[local-inference]'").toList)

def predict (query : Str) (texts : List Str) : Threaded M (List Rat) := do
  let model ← getModel p.load
  useModel (hub.predict · (texts.map fun t => (query, t))) model

def rerank (query : Str) (texts : List Str) : Threaded M (List Rat) :=
  if texts = [] then pure [] else p.predict hub query texts

end CrossEncoderReranker

end

end RagPlatform
