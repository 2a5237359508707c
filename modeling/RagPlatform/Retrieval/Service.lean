import RagPlatform.Lib.Dict
import RagPlatform.Runtime

/-! Dense and keyword retrieval, their fusion, and reranking. -/

namespace RagPlatform

open Lib

def denseSearch (tenantId : Uuid) (queryEmbedding : Embedding) (k : Int) : Io (List ChunkHit) :=
  perform (.denseSearch tenantId queryEmbedding k)

def keywordSearch (tenantId : Uuid) (query : Str) (k : Int) : Io (List ChunkHit) :=
  perform (.keywordSearch tenantId query k)

inductive SearchMode
  | hybrid | dense | keyword
  deriving DecidableEq

structure RetrievedChunk where
  chunkId : Nat
  documentId : Uuid
  filename : Str
  chunkIndex : Nat
  content : Str
  metadata : ChunkMeta
  scores : Dict Str Rat
  deriving DecidableEq

structure RetrievalService where
  reranker : RerankerChoice
  kDense : Int
  kKeyword : Int
  rrfK : Int
  topN : Int

/-- The `hits` and `scores` of one search. -/
structure Gathered where
  hits : Dict Nat ChunkHit := []
  scores : Dict Nat (Dict Str Rat) := []

/-- `scores[chunk_id][name] = score` -/
def credit (name : Str) (scores : Dict Nat (Dict Str Rat)) (entry : Nat × Rat) :
    Dict Nat (Dict Str Rat) :=
  scores.set entry.1 (((scores.get? entry.1).getD []).set name entry.2)

namespace Gathered

def add (scoreName : Str) (g : Gathered) (hit : ChunkHit) : Gathered where
  hits := g.hits.setdefault hit.chunkId hit
  scores := credit scoreName g.scores (hit.chunkId, hit.score)

def register (g : Gathered) (source : Str × List ChunkHit) : Gathered :=
  source.2.foldl (add source.1) g

end Gathered

/-- What rank `entry.2` of one list adds to the fused score of `entry.1`, in exact rationals:
`contributeFloat` is the step with the conversion of the denominator. -/
def contribute (rrfK : Int) (fused : Dict Nat Rat) (entry : Nat × Nat) :
    Except Exn (Dict Nat Rat) :=
  if rrfK + entry.2 + 1 = 0 then .error (.other "ZeroDivisionError".toList)
  else .ok (fused.set entry.1 ((fused.get? entry.1).getD 0 + 1 / (rrfK + entry.2 + 1 : Int)))

def fuse (rrfK : Int) (rankLists : List (List Nat)) : Except Exn (Dict Nat Rat) :=
  (rankLists.flatMap List.zipIdx).foldlM (contribute rrfK) []

/-- `sorted(ids, key=lambda cid: (-score[cid], cid))` -/
def best (score : Nat → Rat) (ids : List Nat) : List Nat :=
  ids.insertionSort fun a b => score b < score a ∨ score a = score b ∧ a ≤ b

namespace Gathered

variable (g : Gathered)

def fused (rrfK : Int) (rankLists : List (List Nat)) : Except Exn (Gathered × List Nat) := do
  let scores ← fuse rrfK rankLists
  return ({ g with scores := scores.foldl (credit "rrf".toList) g.scores },
    best (fun id => (scores.get? id).getD 0) scores.keys)

def order (mode : SearchMode) (rrfK : Int) (rankLists : List (List Nat)) :
    Except Exn (Gathered × List Nat) :=
  if mode = .hybrid then g.fused rrfK rankLists else .ok (g, rankLists.headD [])

def keyError : Exn := .other "KeyError".toList

def content (id : Nat) : Except Exn Str :=
  match g.hits.get? id with
  | some hit => .ok hit.content
  | none => .error keyError

def chunk (id : Nat) : Except Exn RetrievedChunk :=
  match g.hits.get? id, g.scores.get? id with
  | some hit, some scores => .ok
    { chunkId := id
      documentId := hit.documentId
      filename := hit.filename
      chunkIndex := hit.chunkIndex
      content := hit.content
      metadata := hit.metadata
      scores := scores }
  | _, _ => .error keyError

def reranked (ordered : List Nat) (given : List Rat) : Gathered × List Nat :=
  let scores := (ordered.zip given).foldl (credit "rerank".toList) g.scores
  ({ g with scores := scores },
    best (fun id => ((scores.get? id).bind (·.get? "rerank".toList)).getD 0) ordered)

end Gathered

/-- `xs[:n]` -/
def upTo {α : Type} (xs : List α) (n : Int) : List α :=
  if 0 ≤ n then xs.take n.toNat else xs.take (xs.length - n.natAbs)

namespace RetrievalService

variable (svc : RetrievalService)

def denseSource (tenantId : Uuid) (query : Str) : Io (Str × List ChunkHit) := do
  let queryEmbedding ← perform (.embedQuery query)
  let dense ← denseSearch tenantId queryEmbedding svc.kDense
  return ("dense_cosine_sim".toList, dense)

def keywordSource (tenantId : Uuid) (query : Str) : Io (Str × List ChunkHit) := do
  let keyword ← keywordSearch tenantId query svc.kKeyword
  return ("keyword_ts_rank".toList, keyword)

def sources (tenantId : Uuid) (query : Str) : SearchMode → Io (List (Str × List ChunkHit))
  | .hybrid => do
    let dense ← svc.denseSource tenantId query
    let keyword ← svc.keywordSource tenantId query
    return [dense, keyword]
  | .dense => do
    let dense ← svc.denseSource tenantId query
    return [dense]
  | .keyword => do
    let keyword ← svc.keywordSource tenantId query
    return [keyword]

def rerank (query : Str) (g : Gathered) (ordered : List Nat) : Io (Gathered × List Nat) :=
  if svc.reranker = .none ∨ ordered = [] then pure (g, ordered)
  else do
    let contents ← Io.ofExcept (ordered.mapM g.content)
    let given ← perform (.rerank query contents)
    if given.length ≠ ordered.length then raise .value
    else return g.reranked ordered given

/-- `top_n or self._top_n` -/
def limit : Option Int → Int
  | none => svc.topN
  | some n => if n = 0 then svc.topN else n

def search (tenantId : Uuid) (query : Str) (mode : SearchMode) (topN : Option Int) :
    Io (List RetrievedChunk) :=
  if query.strip = [] then raise .invalidQuery
  else do
    let sources ← svc.sources tenantId query mode
    let g := sources.foldl Gathered.register {}
    let rankLists := sources.map fun source => source.2.map (·.chunkId)
    let ranked ← Io.ofExcept (g.order mode svc.rrfK rankLists)
    let ranked ← svc.rerank query ranked.1 ranked.2
    Io.ofExcept ((upTo ranked.2 (svc.limit topN)).mapM ranked.1.chunk)

end RetrievalService

end RagPlatform
