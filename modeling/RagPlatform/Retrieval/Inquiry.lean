import RagPlatform.Lib.Selection
import RagPlatform.Retrieval.Permitted

/-! A search and the rows it is asked of: which places the ties of distances leave open, and what
the result is for each order of the tied rows. -/

namespace RagPlatform

open Lib

structure Inquiry where
  db : Database
  scoring : Scoring
  svc : RetrievalService
  tenantId : Uuid
  query : Str
  mode : SearchMode
  topN : Option Int

namespace Inquiry

variable (q : Inquiry)

def rows : List (Chunk × Document) := q.db.tenantRows q.tenantId

def distance (x : Chunk × Document) : Rat :=
  q.scoring.cosineDistance x.1.embedding (q.scoring.embed q.query)

def depth : Nat := if q.mode = .keyword then 0 else q.svc.kDense.toNat

def keyword : List ChunkHit :=
  if q.mode = .dense then []
  else q.db.keywordSearch q.tenantId q.scoring.tsRank q.query q.svc.kKeyword.toNat

def keywordPlace (x : Chunk × Document) : Option Nat := placeIn (idsOf q.keyword) x.1.id

variable (r : Option Nat) (x : Chunk × Document)

def candidate : Bool := r.isSome || (q.keywordPlace x).isSome

def mark : Rat :=
  if q.svc.reranker = .none then
    match q.mode with
    | .hybrid => rrfTerm q.svc.rrfK r + rrfTerm q.svc.rrfK (q.keywordPlace x)
    | .dense => -((r.getD 0 : Nat) : Rat)
    | .keyword => -(((q.keywordPlace x).getD 0 : Nat) : Rat)
  else q.scoring.rerank q.query x.1.content

def key : Ratᵒᵈ ×ₗ Nat := rankKey (q.mark r x) x.1.id

def rrfNote : Option Rat :=
  if q.mode = .hybrid then some (rrfTerm q.svc.rrfK r + rrfTerm q.svc.rrfK (q.keywordPlace x))
  else none

def breakdown : Dict Str Rat :=
  note "rerank".toList
    (if q.svc.reranker = .none then none else some (q.scoring.rerank q.query x.1.content))
    (note "rrf".toList (q.rrfNote r x)
      (note "keyword_ts_rank".toList (scoreIn q.keyword x.1.id)
        (note "dense_cosine_sim".toList (r.map fun _ => 1 - q.distance x) [])))

def ahead : Nat := Lib.ahead q.distance q.rows x

def level : Nat := Lib.level q.distance q.rows x

/-- The row may come at this place of the dense list, or be left out of it. -/
def MayTake : Option Nat → Prop
  | some i => q.ahead x ≤ i ∧ i < q.ahead x + q.level x ∧ i < q.depth
  | none => q.depth < q.ahead x + q.level x

/-- A tie leaves open where the dense list has the row. Where a reranker decides about a single
list, only whether it has it matters. -/
def tied : Bool :=
  q.ahead x < q.depth &&
    if q.mode = .dense ∧ q.svc.reranker ≠ .none then q.depth < q.ahead x + q.level x
    else 2 ≤ q.level x

def place : Option Nat := if q.ahead x < q.depth then some (q.ahead x) else none

/-- How many rows whose places are settled are ranked before this one. -/
def settledBefore : Nat :=
  q.rows.countP fun u => !q.tied u && q.candidate (q.place u) u &&
    decide (q.key (q.place u) u < q.key r x)

def inKeyword : Bool := (q.keywordPlace x).isSome

def brought (shared : Nat) : Nat := min q.depth q.rows.length + q.rows.countP q.inKeyword - shared

/-- How many of the chunks brought `[:top_n]` keeps. -/
def kept (brought : Nat) : Nat :=
  if 0 ≤ q.svc.limit q.topN then min (q.svc.limit q.topN).toNat brought
  else brought - (q.svc.limit q.topN).natAbs

def fewest : Nat := q.kept (q.brought (mostKept q.distance q.rows q.depth q.inKeyword))

def most : Nat := q.kept (q.brought (leastKept q.distance q.rows q.depth q.inKeyword))

def Refused : Prop :=
  q.query.strip = [] ∨ q.svc.Negative q.mode ∨ q.mode = .hybrid ∧
    ∃ i : Nat, (i < min q.depth q.rows.length ∨ i < q.keyword.length) ∧ q.svc.rrfK + i + 1 = 0

structure Decided : Prop where
  count : q.fewest = q.most
  settled : ∀ x ∈ q.rows, q.tied x = true → ∀ r, q.MayTake x r → q.candidate r x = true →
    q.most ≤ q.settledBefore r x

def MayReturn (b : Except Exn (List RetrievedChunk)) : Prop :=
  ReturnsE (q.db.Permits q.scoring) (q.svc.search q.tenantId q.query q.mode q.topN) b

end Inquiry

end RagPlatform
