import Mathlib.Data.List.Sort
import RagPlatform.Database
import RagPlatform.Lib.Renaming

/-! The two retrieval statements. -/

namespace RagPlatform

open Lib

structure ChunkHit where
  chunkId : Nat
  documentId : Uuid
  filename : Str
  chunkIndex : Nat
  content : Str
  metadata : ChunkMeta
  score : Rat
  deriving DecidableEq

def Chunk.hit (c : Chunk) (d : Document) (score : Rat) : ChunkHit where
  chunkId := c.id
  documentId := c.documentId
  filename := d.filename
  chunkIndex := c.chunkIndex
  content := c.content
  metadata := c.metadata
  score := score

namespace Database

variable (db : Database)

/-- A row of `chunks` joined with its document. -/
def join (c : Chunk) : Option (Chunk × Document) := (db.document c.documentId).map (c, ·)

/-- `chunks JOIN documents`, restricted to one tenant, in the order of the table. -/
def tenantRows (tenantId : Uuid) : List (Chunk × Document) :=
  (db.chunks.filter (·.tenantId = tenantId)).filterMap db.join

variable (tenantId : Uuid)

/-- The statement as it is written, answered exactly; rows at equal distance come in the order of the
table.  The HNSW index of `chunks` answers it approximately, and filters by tenant afterwards: with it
rows may be missing. -/
def denseSearch (distance : Embedding → Embedding → Rat) (queryEmbedding : Embedding) (k : Nat) :
    List ChunkHit :=
  let rows := (db.tenantRows tenantId).insertionSort fun x y =>
    distance x.1.embedding queryEmbedding ≤ distance y.1.embedding queryEmbedding
  (rows.take k).map fun x => x.1.hit x.2 (1 - distance x.1.embedding queryEmbedding)

/-- `rank` is `ts_rank_cd` of a text, where it matches the query at all. -/
def keywordSearch (rank : Str → Str → Option Rat) (query : Str) (k : Nat) : List ChunkHit :=
  let rows := (db.tenantRows tenantId).filterMap fun x =>
    (rank x.1.content query).map fun r => x.1.hit x.2 r
  (rows.insertionSort fun x y =>
    y.score < x.score ∨ x.score = y.score ∧ x.chunkId ≤ y.chunkId).take k

end Database

end RagPlatform
