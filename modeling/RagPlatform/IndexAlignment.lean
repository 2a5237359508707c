import RagPlatform.Atomicity
import RagPlatform.Ingestion.WordLaws
import RagPlatform.Redelivery

/-! The index of a completed document: its chunks in order, each with its own vector. -/

namespace RagPlatform

open Lib

/-- If the embedder answers, then with the vector `e` gives each text. -/
def Elementwise (e : Str → Embedding) (o : Oracle) : Prop :=
  ∀ texts embeddings, o.embed texts = .ok embeddings → embeddings = texts.map e

def Drafted (ext : External) (svc : IngestionService) (d : Document) (drafts : List ChunkDraft) :
    Prop :=
  ∃ raw, d.rawContent = some raw ∧ svc.parseAndChunk ext raw d.sourceType = .ok drafts

def indexRow (e : Str → Embedding) (d : Document) (draft : ChunkDraft × Nat) : NewChunk where
  documentId := d.id
  tenantId := d.tenantId
  chunkIndex := draft.2
  content := draft.1.text
  tokenCount := draft.1.tokenCount
  embedding := e draft.1.text
  metadata := draft.1.metadata

def indexRows (e : Str → Embedding) (d : Document) (drafts : List ChunkDraft) : List NewChunk :=
  drafts.zipIdx.map (indexRow e d)

/-- One row for each draft, numbered from 0, with the draft's own text and the vector of that text;
at least one, as many as the document says, and every one of them fit for the table. -/
def Indexed (e : Str → Embedding) (ext : External) (svc : IngestionService) (d : Document)
    (db : Database) : Prop :=
  ∃ drafts, Drafted ext svc d drafts ∧ 1 ≤ drafts.length ∧ d.chunkCount = some drafts.length ∧
    (db.chunksOf d.id).map Chunk.new = indexRows e d drafts ∧
    (indexRows e d drafts).all NewChunk.storable

section Drafts

variable {e : Str → Embedding} {ext : External} {svc : IngestionService} {d d' : Document}
  {drafts drafts' : List ChunkDraft} {db db' : Database}

theorem Drafted.unique (h : Drafted ext svc d drafts) (h' : Drafted ext svc d drafts') :
    drafts = drafts' := by
  obtain ⟨raw, hraw, hp⟩ := h
  obtain ⟨raw', hraw', hp'⟩ := h'
  obtain rfl := Option.some.inj (hraw.symm.trans hraw')
  exact Except.ok.inj (hp.symm.trans hp')

theorem Drafted.of_file (h : Drafted ext svc d drafts) (hfile : d'.file = d.file) :
    Drafted ext svc d' drafts := by
  obtain ⟨raw, hraw, hp⟩ := h
  refine ⟨raw, (Document.rawContent_of_file hfile).trans hraw, ?_⟩
  rw [Document.sourceType_of_file hfile, hp]

theorem Drafted.one_le (h : Drafted ext svc d drafts) : 1 ≤ drafts.length := by
  obtain ⟨raw, -, hp⟩ := h
  exact List.length_pos_iff.mpr (parseAndChunk_ne_nil hp)

theorem indexRows_of_file (e : Str → Embedding) (hfile : d'.file = d.file)
    (drafts : List ChunkDraft) : indexRows e d' drafts = indexRows e d drafts := by
  change indexRows e d'.file drafts = indexRows e d.file drafts
  rw [hfile]

theorem length_indexRows (e : Str → Embedding) (d : Document) (drafts : List ChunkDraft) :
    (indexRows e d drafts).length = drafts.length := by
  rw [indexRows, List.length_map, List.length_zipIdx]

/-- Row by row, the rows `process` inserts are those of the index. -/
theorem newChunks_map (e : Str → Embedding) (d : Document) (drafts : List ChunkDraft) :
    IngestionService.newChunks d drafts (drafts.map fun draft => e draft.text) =
      indexRows e d drafts := by
  rw [IngestionService.newChunks, indexRows, ← List.map_prod_left_eq_zip, List.zipIdx_map,
    List.map_map]
  rfl

theorem Indexed.of_same (h : Indexed e ext svc d db) (hfile : d'.file = d.file)
    (hcount : d'.chunkCount = d.chunkCount) (hchunks : db'.chunksOf d.id = db.chunksOf d.id) :
    Indexed e ext svc d' db' := by
  obtain ⟨drafts, hdrafted, hne, hcount', hrows, hs⟩ := h
  have hid : d'.id = d.id := congrArg (·.id) hfile
  refine ⟨drafts, hdrafted.of_file hfile, hne, hcount.trans hcount', ?_, ?_⟩
  · rw [hid, hchunks, hrows, indexRows_of_file e hfile]
  · rw [indexRows_of_file e hfile, hs]

theorem Embeds.eq_map {K : Contract api World Oracle} {batches : List (List ChunkDraft)}
    {embeddings : List Embedding} (h : Embeds K batches embeddings)
    (hK : ∀ l o c t, K.step l o c t → Elementwise e o) :
    embeddings = batches.flatten.map fun draft => e draft.text := by
  induction h with
  | nil => rfl
  | cons l o t ho hembed _ ih =>
    rw [hK _ _ _ _ ho _ _ hembed, ih, List.flatten_cons, List.map_append, List.map_map]
    rfl

theorem Prepared.eq_map {K : Contract api World Oracle} {row : Document} {doomed : List Nat}
    {embeddings : List Embedding} {t : World}
    (h : Prepared K ext svc row doomed drafts embeddings t)
    (hK : ∀ l o c t, K.step l o c t → Elementwise e o) :
    embeddings = drafts.map fun draft => e draft.text := by
  have hne : 1 ≤ drafts.length := Drafted.one_le h.payload
  rcases h.embedded with ⟨-, rfl⟩ | ⟨hpos, hembeds⟩
  · rw [h.length] at hne
    cases hne
  · rw [hembeds.eq_map hK, flatten_slices (by omega)]

end Drafts

/-- Its chunk count is that of the payload whenever it changes, and its rows are only ever removed
together or replaced, a new row numbered 0 among them. -/
structure Exchanged (ext : External) (svc : IngestionService) (id : Uuid) (db db' : Database) :
    Prop extends db.Grows db' where
  count : ∀ d d', db.document id = some d → db'.document id = some d' →
    d'.chunkCount = d.chunkCount ∨ ∃ drafts, Drafted ext svc d drafts ∧
      d'.chunkCount = some drafts.length
  rows : db'.chunksOf id = db.chunksOf id ∨ db'.chunksOf id = [] ∨
    ∃ c ∈ db'.chunksOf id, c.chunkIndex = 0 ∧ db.nextChunkId ≤ c.id

namespace Exchanged

variable {ext : External} {svc : IngestionService} {id : Uuid} {db db' db'' : Database}

theorem refl (ext : External) (svc : IngestionService) (id : Uuid) (db : Database) :
    Exchanged ext svc id db db where
  toGrows := .refl db
  count d d' hd hd' := .inl (by rw [Option.some.inj (hd.symm.trans hd')])
  rows := .inl rfl

theorem trans (h : Exchanged ext svc id db db') (h' : Exchanged ext svc id db' db'') :
    Exchanged ext svc id db db'' where
  toGrows := h.toGrows.trans h'.toGrows
  count d d'' hd hd'' := by
    obtain ⟨d', hd'⟩ := h'.gone' (h.issued' (Database.issued_of_document hd)) hd''
    rcases h'.count d' d'' hd' hd'' with he | ⟨drafts, hdrafted, hcount⟩
    · rcases h.count d d' hd hd' with he' | ⟨drafts, hdrafted, hcount⟩
      · exact .inl (he.trans he')
      · exact .inr ⟨drafts, hdrafted, he.trans hcount⟩
    · exact .inr ⟨drafts, hdrafted.of_file (h.file id d d' hd hd').symm, hcount⟩
  rows := by
    rcases h'.rows with he | hnil | ⟨c, hc, hzero, hid⟩
    · rw [he]
      exact h.rows
    · exact .inr (.inl hnil)
    · exact .inr (.inr ⟨c, hc, hzero, h.nextChunkId.trans hid⟩)

theorem of_same (hg : db.Grows db') (hchunks : db'.chunksOf id = db.chunksOf id)
    (hcount : ∀ d d', db.document id = some d → db'.document id = some d' →
      d'.chunkCount = d.chunkCount) : Exchanged ext svc id db db' where
  toGrows := hg
  count d d' hd hd' := .inl (hcount d d' hd hd')
  rows := .inl hchunks

end Exchanged

def CompletedIndexed (e : Str → Embedding) (ext : External) (svc : IngestionService) (id : Uuid)
    (db : Database) : Prop :=
  ∀ d, db.document id = some d → d.status = .completed → Indexed e ext svc d db

section Effects

variable {e : Str → Embedding} {ext : External} {svc : IngestionService} {id : Uuid}
  {db db' : Database}

theorem indexed_of_same (h : CompletedIndexed e ext svc id db) (hg : db.Grows db')
    (hchunks : db'.chunksOf id = db.chunksOf id)
    (hdoc : ∀ d', db'.document id = some d' → ∃ d, db.document id = some d ∧
      d'.chunkCount = d.chunkCount ∧ (d'.status = .completed → d.status = .completed)) :
    CompletedIndexed e ext svc id db' ∧ Exchanged ext svc id db db' := by
  refine ⟨fun d' hd' hdone => ?_, .of_same hg hchunks fun d d' hd hd' => ?_⟩
  · obtain ⟨d, hd, hcount, hstatus⟩ := hdoc d' hd'
    have hid : d.id = id := Database.document_id hd
    exact (h d hd (hstatus hdone)).of_same (hg.file id d d' hd hd') hcount (hid ▸ hchunks)
  · obtain ⟨d₁, hd₁, hcount, -⟩ := hdoc d' hd'
    rw [hcount, Option.some.inj (hd.symm.trans hd₁)]

theorem Effect.indexed {o : Oracle} {c : Call} (he : Effect o db c db')
    (h : CompletedIndexed e ext svc id db) (hc : ∀ txn, c ≠ .commit txn) :
    CompletedIndexed e ext svc id db' ∧ Exchanged ext svc id db db' := by
  cases he with
  | same => exact ⟨h, .refl ext svc id db⟩
  | commit _ => exact absurd rfl (hc _)
  | @insert d hf _ =>
    by_cases hid : id = (d.row o.uuid o.now).id
    · have hnone : db.document id = none := Database.document_none_of_not_issued (hid ▸ hf.1)
      refine ⟨fun d' hd' hdone => ?_, .of_same (.add hf) rfl fun d _ hd => absurd hd (by simp [hnone])⟩
      rw [Database.document_add, if_pos hid] at hd'
      cases hd'
      cases hdone
    · refine indexed_of_same h (.add hf) rfl fun d' hd' => ?_
      rw [Database.document_add, if_neg hid] at hd'
      exact ⟨d', hd', rfl, fun hdone => hdone⟩
  | @delete j =>
    by_cases hj : id = j
    · have hnone : (db.deleteDocument j).document id = none := by
        rw [Database.document_deleteDocument, if_pos hj]
      refine ⟨fun d' hd' => absurd hd' (by simp [hnone]), .deleteDocument db j,
        fun _ d' _ hd' => absurd hd' (by simp [hnone]), .inr (.inl ?_)⟩
      exact Database.chunksOf_of_document_none hnone
    · refine indexed_of_same h (.deleteDocument db j) ?_ fun d' hd' => ?_
      · rw [Database.chunksOf_deleteDocument, if_neg hj]
      · rw [Database.document_deleteDocument, if_neg hj] at hd'
        exact ⟨d', hd', rfl, fun hdone => hdone⟩

theorem indexed_of_bare {txn : Txn} {skip : Nat} (h : CompletedIndexed e ext svc id db)
    (hc : db.commit txn skip = .ok db') (hdoomed : txn.doomed = []) (hadded : txn.added = [])
    (hcount : txn.document.patch.chunkCount = none)
    (hstatus : txn.document.patch.status ≠ some .completed) :
    CompletedIndexed e ext svc id db' ∧ Exchanged ext svc id db db' := by
  refine indexed_of_same h (.commit hc) ?_ fun d' hd' => ?_
  · rw [chunksOf_commit hc, hdoomed, hadded]
    simp [numberChunks]
  · rw [document_commit hc] at hd'
    split at hd'
    · obtain ⟨d, hd, rfl⟩ := Option.map_eq_some_iff.mp hd'
      refine ⟨d, hd, by simp [Patch.apply, hcount], fun hdone => ?_⟩
      cases hs : txn.document.patch.status with
      | none => simpa [Patch.apply, hs] using hdone
      | some status =>
        rw [hs] at hstatus
        exact absurd (congrArg some (by simpa [Patch.apply, hs] using hdone)) hstatus
    · exact ⟨d', hd', rfl, fun hdone => hdone⟩

/-- No row is kept beside the new ones: those seen before are deleted, and what others put in since
has an index that is taken. -/
theorem kept_of_exchanged {row : Document} {drafts : List ChunkDraft} {embeddings : List Embedding}
    {skip : Nat} {u : Database} (hu : Exchanged ext svc row.id u db)
    (hc : db.commit (storeTxn row ((u.chunksOf row.id).map (·.id)) drafts embeddings) skip = .ok db')
    (hlen : drafts.length = embeddings.length) (hne : 1 ≤ drafts.length) :
    (db.chunksOf row.id).filter (·.id ∉ (u.chunksOf row.id).map (·.id)) = [] := by
  rcases hu.rows with he | hnil | ⟨c, hmem, hzero, hid⟩
  · rw [he]
    exact List.filter_eq_nil_iff.mpr fun c hc => by simpa using ⟨c, hc, rfl⟩
  · rw [hnil, List.filter_nil]
  · have hkept : c ∈ (db.chunksOf row.id).filter (·.id ∉ (u.chunksOf row.id).map (·.id)) := by
      refine List.mem_filter.mpr ⟨hmem, decide_eq_true fun hdoomed => ?_⟩
      obtain ⟨c', hc', hcid⟩ := List.mem_map.mp hdoomed
      have := u.chunks_seq c' (Database.mem_chunksOf.mp hc').1
      omega
    have := le_chunkIndex_of_kept hc hlen hkept
    omega

theorem row_of_store {row d' : Document} {drafts : List ChunkDraft} {embeddings : List Embedding}
    {doomed : List Nat} {skip : Nat} {t : Database} (hdrafted : Drafted ext svc row drafts)
    (hc : db.commit (storeTxn row doomed drafts embeddings) skip = .ok db')
    (hrow : t.document row.id = some row) (ht : Exchanged ext svc row.id t db)
    (hd' : db'.document row.id = some d') :
    d'.file = row.file ∧ d'.chunkCount = some drafts.length := by
  rw [document_commit hc, storeTxn_id, if_pos rfl] at hd'
  obtain ⟨d, hd, rfl⟩ := Option.map_eq_some_iff.mp hd'
  refine ⟨ht.file row.id row d hrow hd, chunkCount_store fun hsome => ?_⟩
  rcases ht.count row d hrow hd with he | ⟨drafts', hdrafted', hcount⟩
  · exact he.trans hsome
  · rw [hcount, hdrafted'.unique hdrafted]

theorem indexed_of_store {row : Document} {drafts : List ChunkDraft} {embeddings : List Embedding}
    {skip : Nat} {u t : Database} (h : CompletedIndexed e ext svc id db)
    (hdrafted : Drafted ext svc row drafts)
    (hembed : embeddings = drafts.map fun draft => e draft.text)
    (hu : Exchanged ext svc id u db)
    (hc : db.commit (storeTxn row ((u.chunksOf row.id).map (·.id)) drafts embeddings) skip = .ok db')
    (hrow : t.document row.id = some row) (ht : Exchanged ext svc id t db) :
    CompletedIndexed e ext svc id db' ∧ Exchanged ext svc id db db' := by
  by_cases hid : id = row.id
  · subst hid
    have hne := hdrafted.one_le
    have hkept := kept_of_exchanged hu hc (by rw [hembed, List.length_map]) hne
    have hadded : (storeTxn row ((u.chunksOf row.id).map (·.id)) drafts embeddings).added =
        indexRows e row drafts := by
      rw [hembed]
      exact newChunks_map e _ drafts
    have hchunks : db'.chunksOf row.id =
        numberChunks (db.nextChunkId + skip) (indexRows e row drafts) := by
      rw [chunksOf_store hc, hkept, List.nil_append, ← hadded]
      rfl
    refine ⟨fun d' hd' _ => ?_, .commit hc, fun d d' hd hd' => .inr ?_, .inr (.inr ?_)⟩
    · obtain ⟨hfile, hcount⟩ := row_of_store hdrafted hc hrow ht hd'
      obtain ⟨db₁, -, hr⟩ := commit_ok hc
      refine ⟨drafts, hdrafted.of_file hfile, hne, hcount, ?_, ?_⟩
      · rw [Database.document_id hd', hchunks, numberChunks_map_new, indexRows_of_file e hfile]
      · rw [indexRows_of_file e hfile, ← hadded, (Database.replaceChunks_ok hr).1]
    · exact ⟨drafts, hdrafted.of_file (ht.file row.id row d hrow hd), (row_of_store hdrafted hc hrow ht hd').2⟩
    · rw [hchunks]
      cases drafts with
      | nil => cases hne
      | cons draft drafts =>
        exact ⟨_, List.mem_cons_self, rfl, Nat.le_add_right db.nextChunkId skip⟩
  · refine indexed_of_same h (.commit hc) (chunksOf_store_of_ne hu.toGrows rfl hc hid) fun d' hd' => ?_
    rw [document_commit hc, storeTxn_id, if_neg hid] at hd'
    exact ⟨d', hd', rfl, fun hdone => hdone⟩

end Effects

/-- Everybody completes the document with its index only; `P` holds too wherever a process dies. -/
def indexing (e : Str → Embedding) (ext : External) (svc : IngestionService) (id : Uuid)
    (P : World → Prop := fun _ => True) : Contract api World Oracle where
  inv w := CompletedIndexed e ext svc id w.db
  rely t u := Exchanged ext svc id t.db u.db
  guar t u := Exchanged ext svc id t.db u.db
  step _ o _ _ := Elementwise e o
  stop w := CompletedIndexed e ext svc id w.db ∧ P w
  rely_refl t := .refl ext svc id t.db
  rely_trans h h' := h.trans h'

section Runs

variable {e : Str → Embedding} {ext : External} {svc : IngestionService} {settings : Settings}
  {id : Uuid}

def LoadedRow (ext : External) (svc : IngestionService) (id : Uuid) (row : Document) (t : World) :
    Prop :=
  ∃ u : World, u.db.document row.id = some row ∧ Exchanged ext svc id u.db t.db

theorem indexing_bare {P : World → Prop} {txn : Txn} {t : World} {Done Fail : World → Prop}
    (ht : CompletedIndexed e ext svc id t.db) (hdoomed : txn.doomed = []) (hadded : txn.added = [])
    (hcount : txn.document.patch.chunkCount = none)
    (hstatus : txn.document.patch.status ≠ some .completed)
    (hfail : ∀ u : World, Exchanged ext svc id t.db u.db → Fail u)
    (hdone : ∀ u : World, Exchanged ext svc id t.db u.db → Done u) :
    Commits (indexing e ext svc id P) txn t Done Fail := by
  refine fun l o _ => ⟨⟨hfail t (.refl ext svc id t.db), ht, .refl ext svc id t.db⟩, fun db hc => ?_⟩
  obtain ⟨hinv, hguar⟩ := indexed_of_bare ht hc hdoomed hadded hcount hstatus
  exact ⟨hinv, hguar, hdone _ hguar, fun _ _ => hfail _ hguar⟩

theorem failTxn_status (document : Instance) (message : Str) :
    (failTxn document message).document.patch.status ≠ some .completed := by
  rw [failTxn_patch]
  dsimp only
  split
  · simp
  · simp

theorem failTxn_chunkCount (row : Document) (message : Str) :
    (failTxn (.load row) message).document.patch.chunkCount = none := by
  rw [failTxn_patch]
  simp [Instance.load, Instance.patch]

/-- `P` is something else that lasts while the document is worked on. -/
theorem indexing_process (documentId : Uuid) {P : World → Prop}
    (hP : ∀ s t : World, P s → Exchanged ext svc id s.db t.db → P t) :
    ProcessProof (indexing e ext svc id P) ext svc documentId P
      (fun row t => P t ∧ LoadedRow ext svc id row t) P (fun _ => P) where
  guar_refl t := .refl ext svc id t.db
  pre_stable s t hs hst _ := hP s t hs hst
  mid_stable row s t hs hst _ := ⟨hP s t hs.1 hst, hs.2.imp fun u hu => ⟨hu.1, hu.2.trans hst⟩⟩
  fail_stable s t hs hst _ := hP s t hs hst
  end_stable _ s t hs hst _ := hP s t hs hst
  pre_fail _ h := h
  mid_fail _ _ h := h.1
  stop _ h ht := ⟨ht, h⟩
  transient _ _ _ h _ := h
  absent _ h _ _ := h
  completed _ _ h _ _ _ := h
  payload _ _ h _ _ _ _ := h
  start t u row h _ hrow _ _ htu hu := by
    have hPu := hP t u h htu
    refine indexing_bare hu rfl rfl (by rw [startTxn_patch]) ?_ (fun v huv => hP u v hPu huv)
      fun v huv => ⟨hP u v hPu huv, t, ?_, htu.trans huv⟩
    · rw [startTxn_patch]
      dsimp only
      split
      · simp
      · simp
    · rw [Database.document_id hrow]
      exact hrow
  gone _ _ h _ _ := h
  fail t row detail h ht _ := by
    refine indexing_bare ht rfl rfl ?_ (failTxn_status _ _) (hP t · h.1) (hP t · h.1)
    rw [failTxn_patch]
    simp [started, Instance.flushed, Instance.patch]
  store t row doomed drafts embeddings h ht hp := by
    obtain ⟨hPt, u, hrow, hut⟩ := h
    refine fun l o _ => ⟨⟨hPt, ht, .refl ext svc id t.db⟩, fun db hc => ?_⟩
    have hembed := hp.eq_map (e := e) fun _ _ _ _ h => h
    obtain ⟨v, hvt, rfl⟩ := hp.doomed
    obtain ⟨hinv, hguar⟩ := indexed_of_store ht hp.payload hembed hvt hc hrow hut
    have hPdb := hP t { t with db := db } hPt hguar
    exact ⟨hinv, hguar, hPdb, fun _ _ => hPdb⟩

theorem indexing_markFailed (documentId : Uuid) (message : Str) :
    Keeps exec (indexing e ext svc id) (fun _ => True) (markFailed none documentId message) :=
  keeps_markFailed (fun _ ht => ⟨ht, trivial⟩) (fun t => .refl ext svc id t.db) fun _ _ _ _ _ _ hu =>
    indexing_bare hu rfl rfl (failTxn_chunkCount _ _) (failTxn_status _ _) (fun _ _ => trivial)
      fun _ _ => trivial

theorem indexing_api :
    ApiProof (indexing e ext svc id) ext settings Instance.Fresh where
  guar_refl t := .refl ext svc id t.db
  stop _ ht := ⟨ht, trivial⟩
  register tenantId filename raw sourceType := keeps_register (fun _ ht => ⟨ht, trivial⟩)
    (fun t => .refl ext svc id t.db) fun _ o d t ht _ =>
      (exec_effect o (.insertDocument d) t).indexed ht fun _ h => by cases h
  fail document message t hR ht := by
    obtain ⟨d, i, now, rfl⟩ := hR
    exact indexing_bare ht rfl rfl (failTxn_chunkCount _ _) (failTxn_status _ _) (fun _ _ => trivial)
      fun _ _ => trivial
  delay _ o i t ht _ := (exec_effect o (.delay i) t).indexed ht fun _ h => by cases h
  meter _ o i t ht _ := (exec_effect o (.insertUsage i) t).indexed ht fun _ h => by cases h
  delete _ o i t ht _ := (exec_effect o (.deleteDocument i) t).indexed ht fun _ h => by cases h

theorem indexing_keeps (job : Job) :
    Keeps exec (indexing e ext (ingestionService settings) id) (fun _ => True)
      (job.code ext settings) :=
  indexing_api.keeps_job (fun _ documentId => keeps_ingestDocument
    (.of_wpE fun _ _ => ⟨_, (indexing_process documentId (P := fun _ => True)
      fun _ _ _ _ => trivial).wpE_process trivial⟩)
    (indexing_markFailed documentId)) job

/-- Whatever runs side by side, a document that began uncompleted is indexed whenever it is
completed. -/
theorem completed_indexed {ι : Type} [DecidableEq ι] {w : World} {acts : List (Act ι)}
    (hw : ∀ d, w.db.document id = some d → d.status ≠ .completed)
    (h : Guarded ext settings w acts fun _ o _ _ => Elementwise e o) :
    CompletedIndexed e ext (ingestionService settings) id (after ext settings w acts).db :=
  run_inv (K := indexing e ext (ingestionService settings) id) indexing_keeps (fun h => h)
    (fun _ _ _ _ h => h) (fun d hd hdone => absurd hdone (hw d hd)) h

/-- The row of a document that is still there is that of the file. -/
def FileOf (d : Document) (w : World) : Prop :=
  d.id ∈ w.db.issued.map Prod.fst ∧ ∀ d', w.db.document d.id = some d' → d'.file = d.file

theorem FileOf.grows {d : Document} {s t : World} (h : FileOf d s) (hst : s.db.Grows t.db) :
    FileOf d t := by
  refine ⟨hst.issued' h.1, fun d' hd' => ?_⟩
  obtain ⟨d₀, hd₀⟩ := hst.gone' h.1 hd'
  exact (hst.file d.id d₀ d' hd₀ hd').trans (h.2 d₀ hd₀)

theorem process_indexed {d : Document} {φ : Feed World Oracle} {w : World} {session : Session}
    (hrow : w.db.document d.id = some d) (hopen : d.status ≠ .completed)
    (hsession : ∀ i, session = some i → i = .load d) (hembed : φ.Answers (Elementwise e))
    (hothers : φ.Respects (indexing e ext svc d.id)) :
    CompletedIndexed e ext svc d.id ((svc.process ext session d.id).run.final exec φ w).db ∧
      FileOf d ((svc.process ext session d.id).run.final exec φ w) := by
  have hw : CompletedIndexed e ext svc d.id w.db := by
    intro d' hd' hdone
    exact absurd (Option.some.inj (hrow.symm.trans hd') ▸ hdone) hopen
  have hfile : FileOf d w := by
    refine ⟨Database.issued_of_document hrow, fun d' hd' => ?_⟩
    rw [Option.some.inj (hrow.symm.trans hd')]
  have hwp : wpE exec (indexing e ext svc d.id (FileOf d)) (fun _ w _ => FileOf d w)
      (svc.process ext session d.id) w [] := by
    refine (indexing_process d.id fun s t hs hst => hs.grows hst.toGrows).wpE_process_session
      (fun i hi => ⟨d, hsession i hi, hw, hrow⟩) hfile
  obtain ⟨hdead, hend⟩ := wp_outcome hwp hw hothers fun n t ht _ _ _ => hembed n t ht
  cases hr : (svc.process ext session d.id).run.result exec φ w with
  | none => exact hdead hr
  | some r =>
    obtain ⟨hinv, -, hend⟩ := hend r hr
    exact ⟨hinv, hend⟩

/-- Every await is answered, and the embedder answers every list. -/
def Obliging (e : Str → Embedding) (o : Oracle) : Prop :=
  o.fault = none ∧ ∀ texts, o.embed texts = .ok (texts.map e)

theorem embedFrom_obliging {os : Nat → Oracle} (hos : ∀ n, Obliging e (os n)) (n : Nat)
    (batches : List (List ChunkDraft)) :
    embedFrom os n batches = .ok (batches.flatten.map fun draft => e draft.text) := by
  induction batches generalizing n with
  | nil => rfl
  | cons batch batches ih =>
    rw [embedFrom, (hos n).2, ih, List.flatten_cons, List.map_append, List.map_map]
    rfl

theorem verdict_obliging {d : Document} {raw : Bytes} {drafts : List ChunkDraft} {os : Nat → Oracle}
    (hos : ∀ n, Obliging e (os n)) (hbatch : 1 ≤ svc.batchSize)
    (hp : svc.parseAndChunk ext raw d.sourceType = .ok drafts)
    (hs : (indexRows e d drafts).all NewChunk.storable) :
    verdict (fun _ => true) ext svc os d raw = .completed (indexRows e d drafts) := by
  have hembed : svc.embeddings os 2 drafts = .ok (drafts.map fun draft => e draft.text) := by
    rw [IngestionService.embeddings, if_neg (by omega), if_neg (by omega), embedFrom_obliging hos,
      flatten_slices (by omega)]
  simp only [verdict, hp, hembed, newChunks_map, fit_all]
  exact if_pos ⟨(List.length_map _).symm, hs⟩

/-- A call that completes a document leaves it indexed; and so does an undisturbed call all of whose
awaits are answered, with batches of any size, to the same index. -/
theorem index_aligned {d : Document} {φ : Feed World Oracle} {w : World} {session : Session}
    (hrow : w.db.document d.id = some d) (hopen : d.status ≠ .completed)
    (hsession : ∀ i, session = some i → i = .load d) (hembed : φ.Answers (Elementwise e))
    (hothers : φ.Respects (indexing e ext svc d.id)) :
    let done := (svc.process ext session d.id).run.final exec φ w
    ∀ d', done.db.document d.id = some d' → d'.status = .completed →
      Indexed e ext svc d' done.db ∧
      ∀ (batchSize : Int) (ψ : Feed World Oracle), 1 ≤ batchSize → (∀ n, ψ n ≠ none) →
        ψ.Answers (Obliging e) → (∀ n t, ψ n = some t → ∀ s, Same d.id s (t.others s)) →
        let other := (({ svc with batchSize := batchSize } : IngestionService).process ext session
          d.id).run.final exec ψ w
        ∃ d'', other.db.document d.id = some d'' ∧ d''.status = .completed ∧
          d''.chunkCount = d'.chunkCount ∧
          (other.db.chunksOf d.id).map Chunk.new = (done.db.chunksOf d.id).map Chunk.new := by
  intro done d' hd' hdone
  obtain ⟨hindexed, hfile⟩ := process_indexed (e := e) hrow hopen hsession hembed hothers
  have hd'file : d'.file = d.file := hfile.2 d' hd'
  refine ⟨hindexed d' hd' hdone, fun batchSize ψ hbatch halive hobliging hsame => ?_⟩
  obtain ⟨drafts, hdrafted, -, hcount, hrows, hs⟩ := hindexed d' hd' hdone
  obtain ⟨raw, hraw, hp⟩ := hdrafted.of_file hd'file.symm
  rw [indexRows_of_file e hd'file] at hs hrows
  rw [Database.document_id hd'] at hrows
  have hos (n : Nat) : Obliging e (oracles ψ n) := by
    obtain ⟨t, ht⟩ := Option.ne_none_iff_exists'.mp (halive n)
    rw [oracles, ht]
    exact hobliging n t ht
  have hverdict : verdict (fun _ => true) ext { svc with batchSize := batchSize } (oracles ψ) d raw =
      .completed (indexRows e d drafts) := verdict_obliging hos hbatch hp hs
  obtain ⟨r, -, hholds⟩ := process_answered ext { svc with batchSize := batchSize } halive
    (answered_of_faultless (fun n t ht => (hobliging n t ht).1) session d.id w) hsame hrow hraw
    (.inr ⟨_, hverdict⟩) hopen hsession
  rw [hverdict] at hholds
  obtain ⟨-, hdoc, hnew⟩ := hholds
  refine ⟨_, hdoc, rfl, ?_, hnew.trans hrows.symm⟩
  rw [hcount, length_indexRows]
  rfl

end Runs

namespace Sample

/-- A vector that tells texts of different lengths apart. -/
def vector (s : Str) : Embedding := .finite s.length :: List.replicate 383 (.finite 0)

def vectoring : Oracle := { oracle with embed := fun texts => .ok (texts.map vector) }

theorem elementwise_vectoring : Elementwise vector vectoring :=
  fun _ _ h => (Except.ok.inj h).symm

/-- `A b. C d. E f. G.` -/
def sentencesFile : UploadFile :=
  ⟨some "list.md".toList, [65, 32, 98, 46, 32, 67, 32, 100, 46, 32, 69, 32, 102, 46, 32, 71, 46]⟩

def fine : Settings := { chunkTargetTokens := 4, chunkOverlapTokens := 1, embedBatchSize := 2 }

def uploadedList : World := after ext fine world (whole 0 4 (.upload tenantId sentencesFile))

def freshList : Document := (uploadedList.db.document documentId).get (by decide +kernel)

def indexedList : World :=
  ((ingestionService fine).process ext none documentId).run.final exec (.always vectoring)
    uploadedList

def indexedSingly : World :=
  (({ ingestionService fine with batchSize := 1 } : IngestionService).process ext none
    documentId).run.final exec (.always vectoring) uploadedList

end Sample

theorem index_aligned_list : ∃ d', Sample.indexedList.db.document Sample.documentId = some d' ∧
    d'.chunkCount = some 3 ∧
    Indexed Sample.vector Sample.ext (ingestionService Sample.fine) d' Sample.indexedList.db ∧
    ∃ d'', Sample.indexedSingly.db.document Sample.documentId = some d'' ∧
      d''.status = .completed ∧ d''.chunkCount = d'.chunkCount ∧
      (Sample.indexedSingly.db.chunksOf Sample.documentId).map Chunk.new =
        (Sample.indexedList.db.chunksOf Sample.documentId).map Chunk.new := by
  have hfound : (Sample.indexedList.db.document Sample.documentId).map
      (fun d => (d.status, d.chunkCount)) = some (.completed, some 3) := by decide +kernel
  obtain ⟨d', hd', hdone⟩ := Option.map_eq_some_iff.mp hfound
  obtain ⟨hstatus, hcount⟩ := Prod.mk.inj hdone
  have halone := Feed.alone_always (σ := World) Sample.vectoring
  obtain ⟨hindexed, hsizes⟩ := index_aligned (e := Sample.vector) (d := Sample.freshList)
    (Option.some_get _).symm (by decide +kernel)
    (fun i (hi : (none : Session) = some i) => by cases hi)
    (Feed.answers_always Sample.elementwise_vectoring)
    (fun n t ht s hs => by rw [halone n t ht]; exact ⟨.refl _ _ _ _, hs⟩) d' hd' hstatus
  exact ⟨d', hd', hcount, hindexed, hsizes 1 (.always Sample.vectoring) le_rfl
    (Feed.always_ne_none _) (Feed.answers_always ⟨rfl, fun _ => rfl⟩) (same_of_alone halone)⟩

end RagPlatform
