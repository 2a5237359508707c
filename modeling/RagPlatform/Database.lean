import Mathlib.Data.List.Nodup
import Mathlib.Data.List.Sort
import RagPlatform.Exceptions

/-! The database: the tables with the constraints Postgres enforces on them, and the effect of the
statements the code issues. -/

namespace RagPlatform

open Lib

/-- The committed tables.  A value that breaks a constraint of the schema cannot be built. -/
structure Database where
  tenants : List Tenant := []
  documents : List Document := []
  chunks : List Chunk := []
  /-- The ids `gen_random_uuid()` has handed out, with the tenant they went to. -/
  issued : List (Uuid × Uuid) := []
  nextChunkId : Nat := 1
  issued_once : (issued.map Prod.fst).Nodup := by simp
  documents_issued : ∀ d ∈ documents, (d.id, d.tenantId) ∈ issued := by simp
  documents_pk : (documents.map (·.id)).Nodup := by simp
  documents_uq : (documents.map fun d => (d.tenantId, d.contentSha256)).Nodup := by simp
  chunks_pk : (chunks.map (·.id)).Nodup := by simp
  chunks_seq : ∀ c ∈ chunks, c.id < nextChunkId := by
    first | exact List.forall_mem_nil _ | simp
  chunks_fk : ∀ c ∈ chunks, ∃ d ∈ documents, d.id = c.documentId := by simp
  chunks_uq : (chunks.map fun c => (c.documentId, c.chunkIndex)).Nodup := by simp

/-- A value Postgres takes as `TEXT` or inside `JSONB`. -/
def storableText (s : Str) : Bool := s.all fun c => c.toNat ≠ 0

/-- `VARCHAR(512)` and `INTEGER` bounds, and no NUL character. -/
def Document.storable (d : Document) : Bool :=
  storableText d.filename && d.filename.length ≤ 512 && d.sizeBytes ≤ 2147483647

structure Patch where
  status : Option DocumentStatus := none
  errorMessage : Option (Option Str) := none
  chunkCount : Option (Option Nat) := none
  deriving DecidableEq

def Patch.apply (p : Patch) (d : Document) : Document :=
  { d with
    status := p.status.getD d.status
    errorMessage := p.errorMessage.getD d.errorMessage
    chunkCount := p.chunkCount.getD d.chunkCount }

def Patch.storable (p : Patch) : Bool := p.errorMessage.all fun m => m.all storableText

structure NewChunk where
  documentId : Uuid
  tenantId : Uuid
  chunkIndex : Nat
  content : Str
  tokenCount : Int
  embedding : Embedding
  metadata : ChunkMeta
  deriving DecidableEq

/-- The vector column takes `embeddingDim` finite components; text and headings take no NUL. -/
def NewChunk.storable (c : NewChunk) : Bool :=
  storableText c.content && c.metadata.headings.all (·.all storableText) &&
    c.embedding.length = embeddingDim && c.embedding.all Component.storable

def NewChunk.number (id : Nat) (c : NewChunk) : Chunk :=
  { c with id := id }

def NewChunk.key (c : NewChunk) : Uuid × Nat := (c.documentId, c.chunkIndex)

/-- The rows an INSERT creates: the identity column counts up from `start`. -/
def numberChunks : Nat → List NewChunk → List Chunk
  | _, [] => []
  | start, c :: cs => c.number start :: numberChunks (start + 1) cs

namespace Patch

variable (p : Patch) (d : Document)

@[simp] theorem apply_id : (p.apply d).id = d.id := rfl
@[simp] theorem apply_tenantId : (p.apply d).tenantId = d.tenantId := rfl
@[simp] theorem apply_contentSha256 : (p.apply d).contentSha256 = d.contentSha256 := rfl
@[simp] theorem apply_sizeBytes : (p.apply d).sizeBytes = d.sizeBytes := rfl
@[simp] theorem apply_rawContent : (p.apply d).rawContent = d.rawContent := rfl
@[simp] theorem apply_sourceType : (p.apply d).sourceType = d.sourceType := rfl

end Patch

theorem numberChunks_map_key (start : Nat) (cs : List NewChunk) :
    (numberChunks start cs).map (fun c => (c.documentId, c.chunkIndex)) = cs.map NewChunk.key := by
  induction cs generalizing start with
  | nil => rfl
  | cons c cs ih => simp [numberChunks, NewChunk.number, NewChunk.key, ih]

theorem numberChunks_map_id (start : Nat) (cs : List NewChunk) :
    (numberChunks start cs).map (·.id) = List.range' start cs.length := by
  induction cs generalizing start with
  | nil => rfl
  | cons c cs ih => simp [numberChunks, NewChunk.number, List.range'_succ, ih]

theorem mem_numberChunks {start : Nat} {cs : List NewChunk} {c : Chunk}
    (h : c ∈ numberChunks start cs) :
    (start ≤ c.id ∧ c.id < start + cs.length) ∧ ∃ n ∈ cs, c = n.number c.id := by
  induction cs generalizing start with
  | nil => simp [numberChunks] at h
  | cons n cs ih =>
    rw [numberChunks, List.mem_cons] at h
    cases h with
    | inl h =>
      subst h
      exact ⟨⟨le_rfl, by simp [NewChunk.number]⟩, n, List.mem_cons_self, rfl⟩
    | inr h =>
      obtain ⟨⟨hlo, hhi⟩, m, hm, hc⟩ := ih h
      exact ⟨⟨by omega, by simp only [List.length_cons]; omega⟩, m, List.mem_cons_of_mem _ hm, hc⟩

namespace Database

def document (db : Database) (id : Uuid) : Option Document := db.documents.find? (·.id = id)

def chunksOf (db : Database) (id : Uuid) : List Chunk := db.chunks.filter (·.documentId = id)

/-- `coalesce(sum(size_bytes), 0)` over a tenant's rows. -/
def usedBytes (db : Database) (tenantId : Uuid) : Nat :=
  ((db.documents.filter (·.tenantId = tenantId)).map (·.sizeBytes)).sum

def countDocuments (db : Database) (tenantId : Uuid) : Nat :=
  (db.documents.filter (·.tenantId = tenantId)).length

/-- `ORDER BY created_at DESC, id` -/
def listDocuments (db : Database) (tenantId : Uuid) (limit offset : Nat) : List Document :=
  let rows := (db.documents.filter (·.tenantId = tenantId)).insertionSort fun d e =>
    e.createdAt < d.createdAt ∨ d.createdAt = e.createdAt ∧ d.id.toNat ≤ e.id.toNat
  (rows.drop offset).take limit

/-- What lets an INSERT into `documents` through: a new id, a known tenant and content the tenant
does not have yet. -/
def Fits (db : Database) (d : Document) : Prop :=
  d.id ∉ db.issued.map Prod.fst ∧ (∃ t ∈ db.tenants, t.id = d.tenantId) ∧
    ∀ e ∈ db.documents, (e.tenantId, e.contentSha256) ≠ (d.tenantId, d.contentSha256)

instance (db : Database) (d : Document) : Decidable (db.Fits d) :=
  inferInstanceAs (Decidable (_ ∧ _ ∧ _))

def add (db : Database) (d : Document) (h : db.Fits d) : Database :=
  { db with
    documents := db.documents ++ [d]
    issued := (d.id, d.tenantId) :: db.issued
    issued_once := by simpa using ⟨by simpa using h.1, db.issued_once⟩
    documents_issued := by
      intro e he
      rw [List.mem_append, List.mem_singleton] at he
      cases he with
      | inl he => exact List.mem_cons_of_mem _ (db.documents_issued e he)
      | inr he => exact he ▸ List.mem_cons_self
    documents_pk := by
      rw [List.map_append, List.map_singleton, ← List.concat_eq_append, List.nodup_concat]
      refine ⟨fun hmem => h.1 ?_, db.documents_pk⟩
      obtain ⟨e, he, hid⟩ := List.mem_map.mp hmem
      exact List.mem_map.mpr ⟨_, db.documents_issued e he, hid⟩
    documents_uq := by
      rw [List.map_append, List.map_singleton, ← List.concat_eq_append, List.nodup_concat]
      refine ⟨fun hmem => ?_, db.documents_uq⟩
      obtain ⟨e, he, hk⟩ := List.mem_map.mp hmem
      exact h.2.2 e he hk
    chunks_fk := by
      intro c hc
      obtain ⟨e, he, hid⟩ := db.chunks_fk c hc
      exact ⟨e, List.mem_append_left _ he, hid⟩ }

def insertDocument (db : Database) (d : Document) : Except Exn Database :=
  if d.storable then if h : db.Fits d then .ok (db.add d h) else .error .integrity
  else .error .data

def patchRow (id : Uuid) (p : Patch) (d : Document) : Document := if d.id = id then p.apply d else d

@[simp] theorem patchRow_id (id : Uuid) (p : Patch) (d : Document) :
    (patchRow id p d).id = d.id := by
  unfold patchRow; split <;> rfl

@[simp] theorem patchRow_tenantId (id : Uuid) (p : Patch) (d : Document) :
    (patchRow id p d).tenantId = d.tenantId := by
  unfold patchRow; split <;> rfl

@[simp] theorem patchRow_contentSha256 (id : Uuid) (p : Patch) (d : Document) :
    (patchRow id p d).contentSha256 = d.contentSha256 := by
  unfold patchRow; split <;> rfl

@[simp] theorem patchRow_sizeBytes (id : Uuid) (p : Patch) (d : Document) :
    (patchRow id p d).sizeBytes = d.sizeBytes := by
  unfold patchRow; split <;> rfl

def patch (db : Database) (id : Uuid) (p : Patch) : Database :=
  { db with
    documents := db.documents.map (patchRow id p)
    documents_issued := by
      intro d hd
      obtain ⟨e, he, rfl⟩ := List.mem_map.mp hd
      simpa using db.documents_issued e he
    documents_pk := by simpa [Function.comp_def] using db.documents_pk
    documents_uq := by simpa [Function.comp_def] using db.documents_uq
    chunks_fk := by
      intro c hc
      obtain ⟨d, hd, hid⟩ := db.chunks_fk c hc
      exact ⟨_, List.mem_map_of_mem hd, by simpa using hid⟩ }

/-- The UPDATE of one row, by primary key; matching no row is an error. -/
def update (db : Database) (id : Uuid) (p : Patch) : Except Exn Database :=
  if p = {} then .ok db
  else if !p.storable then .error .data
  else if (db.document id).isNone then .error .staleData
  else .ok (db.patch id p)

def keep (db : Database) (doomed : List Nat) : List Chunk := db.chunks.filter (·.id ∉ doomed)

/-- What lets the new chunk rows in: their documents exist and no kept row, nor another new one,
has the same document and index. -/
def Admits (db : Database) (doomed : List Nat) (added : List NewChunk) : Prop :=
  (∀ c ∈ added, ∃ d ∈ db.documents, d.id = c.documentId) ∧
    ((db.keep doomed).map (fun c => (c.documentId, c.chunkIndex)) ++ added.map NewChunk.key).Nodup

instance (db : Database) (doomed : List Nat) (added : List NewChunk) :
    Decidable (db.Admits doomed added) :=
  inferInstanceAs (Decidable (_ ∧ _))

/-- Identity values are lost to aborted transactions: the new ids start `skip` further on. -/
def replace (db : Database) (doomed : List Nat) (added : List NewChunk) (skip : Nat)
    (h : db.Admits doomed added) : Database :=
  { db with
    chunks := db.keep doomed ++ numberChunks (db.nextChunkId + skip) added
    nextChunkId := db.nextChunkId + skip + added.length
    chunks_pk := by
      rw [List.map_append, numberChunks_map_id]
      refine (db.chunks_pk.sublist (List.filter_sublist.map _)).append List.nodup_range' ?_
      intro id hid hid'
      obtain ⟨c, hc, rfl⟩ := List.mem_map.mp hid
      have := db.chunks_seq c (List.mem_filter.mp hc).1
      rw [List.mem_range'_1] at hid'
      omega
    chunks_seq := by
      intro c hc
      rw [List.mem_append] at hc
      cases hc with
      | inl hc => have := db.chunks_seq c (List.mem_filter.mp hc).1; omega
      | inr hc => exact (mem_numberChunks hc).1.2
    chunks_fk := by
      intro c hc
      rw [List.mem_append] at hc
      cases hc with
      | inl hc => exact db.chunks_fk c (List.mem_filter.mp hc).1
      | inr hc =>
        obtain ⟨-, n, hn, hc⟩ := mem_numberChunks hc
        rw [hc]
        exact h.1 n hn
    chunks_uq := by
      rw [List.map_append, numberChunks_map_key]
      exact h.2 }

/-- The DELETE of the rows in `doomed` and the INSERT of `added`, as the commit makes them
visible. -/
def replaceChunks (db : Database) (doomed : List Nat) (added : List NewChunk) (skip : Nat) :
    Except Exn Database :=
  if added.all NewChunk.storable then
    if h : db.Admits doomed added then .ok (db.replace doomed added skip h) else .error .integrity
  else .error .data

def deleteDocument (db : Database) (id : Uuid) : Database :=
  { db with
    documents := db.documents.filter (·.id ≠ id)
    chunks := db.chunks.filter (·.documentId ≠ id)
    documents_issued := fun d hd => db.documents_issued d (List.mem_filter.mp hd).1
    documents_pk := db.documents_pk.sublist (List.filter_sublist.map _)
    documents_uq := db.documents_uq.sublist (List.filter_sublist.map _)
    chunks_pk := db.chunks_pk.sublist (List.filter_sublist.map _)
    chunks_seq := fun c hc => db.chunks_seq c (List.mem_filter.mp hc).1
    chunks_fk := by
      intro c hc
      obtain ⟨hc, hne⟩ := List.mem_filter.mp hc
      obtain ⟨d, hd, hid⟩ := db.chunks_fk c hc
      refine ⟨d, List.mem_filter.mpr ⟨hd, ?_⟩, hid⟩
      simpa [hid] using hne
    chunks_uq := db.chunks_uq.sublist (List.filter_sublist.map _) }

end Database

end RagPlatform
