import RagPlatform.Ingestion.ChunkingLaws
import RagPlatform.SystemLaws

/-! The chunk rows of a document are all there or not there at all. -/

namespace RagPlatform

open Lib

def Chunk.entry (c : Chunk) : Nat × Str × Uuid := (c.chunkIndex, c.content, c.tenantId)

def entries (tenantId : Uuid) (drafts : List ChunkDraft) : List (Nat × Str × Uuid) :=
  drafts.zipIdx.map fun x => (x.2, x.1.text, tenantId)

theorem numberChunks_map_entry (start : Nat) (cs : List NewChunk) :
    (numberChunks start cs).map Chunk.entry =
      cs.map fun c => (c.chunkIndex, c.content, c.tenantId) := by
  induction cs generalizing start with
  | nil => rfl
  | cons c cs ih => simp [numberChunks, NewChunk.number, Chunk.entry, ih]

theorem newChunks_entries (document : Document) {drafts : List ChunkDraft}
    {embeddings : List Embedding} (h : drafts.length = embeddings.length) :
    (IngestionService.newChunks document drafts embeddings).map
      (fun c => (c.chunkIndex, c.content, c.tenantId)) = entries document.tenantId drafts := by
  have hfst : (drafts.zip embeddings).map Prod.fst = drafts := List.map_fst_zip h.le
  conv_rhs => rw [← hfst]
  rw [entries, List.zipIdx_map, List.map_map, IngestionService.newChunks, List.map_map]
  rfl

theorem entries_index (tenantId : Uuid) (drafts : List ChunkDraft) :
    (entries tenantId drafts).map Prod.fst = List.range drafts.length := by
  rw [entries, List.map_map, List.range_eq_range']
  exact List.zipIdx_map_snd 0 drafts

/-- Nothing of the document is stored, or exactly the chunks of its payload are. -/
def Whole (ext : External) (svc : IngestionService) (id : Uuid) (db : Database) : Prop :=
  ∀ d, db.document id = some d → (db.chunksOf id = [] ∧ d.chunkCount = none) ∨
    ∃ raw drafts, d.rawContent = some raw ∧
      svc.parseAndChunk ext raw d.sourceType = .ok drafts ∧ drafts ≠ [] ∧
      (db.chunksOf id).map Chunk.entry = entries d.tenantId drafts ∧
      d.chunkCount = some drafts.length

structure Counted (id : Uuid) (db db' : Database) : Prop extends db.Grows db' where
  count : ∀ d d', db.document id = some d → db'.document id = some d' →
    d.chunkCount = none ∨ d'.chunkCount = d.chunkCount

namespace Counted

variable {id : Uuid} {db db' db'' : Database}

theorem refl (id : Uuid) (db : Database) : Counted id db db where
  toGrows := .refl db
  count d d' hd hd' := .inr (by rw [Option.some.inj (hd.symm.trans hd')])

theorem trans (h : Counted id db db') (h' : Counted id db' db'') : Counted id db db'' where
  toGrows := h.toGrows.trans h'.toGrows
  count d d'' hd hd'' := by
    obtain ⟨d', hd'⟩ := h'.gone' (h.issued' (Database.issued_of_document hd)) hd''
    rcases h.count d d' hd hd' with hn | hd₁
    · exact .inl hn
    · exact (h'.count d' d'' hd' hd'').imp (fun hn => hd₁ ▸ hn) fun hd₂ => hd₂.trans hd₁

end Counted

section Effects

variable {ext : External} {svc : IngestionService} {id : Uuid} {db db' : Database}

theorem whole_of_same (h : Whole ext svc id db) (hg : db.Grows db')
    (hchunks : db'.chunksOf id = db.chunksOf id)
    (hdoc : ∀ d', db'.document id = some d' →
      ∃ d, db.document id = some d ∧ d'.chunkCount = d.chunkCount) :
    Whole ext svc id db' ∧ Counted id db db' := by
  refine ⟨fun d' hd' => ?_, hg, fun d d' hd hd' => ?_⟩
  · obtain ⟨d, hd, hcount⟩ := hdoc d' hd'
    have hfile := hg.file id d d' hd hd'
    rcases h d hd with ⟨hnil, hnone⟩ | ⟨raw, drafts, hraw, hp, hne, hentry, hlen⟩
    · exact .inl ⟨hchunks.trans hnil, hcount.trans hnone⟩
    · refine .inr ⟨raw, drafts, (Document.rawContent_of_file hfile).trans hraw, ?_, hne, ?_,
        hcount.trans hlen⟩
      · rw [Document.sourceType_of_file hfile, hp]
      · rw [hchunks, hentry, Document.tenantId_of_file hfile]
  · obtain ⟨e, he, hcount⟩ := hdoc d' hd'
    rw [Option.some.inj (hd.symm.trans he)]
    exact .inr hcount

theorem Effect.whole {o : Oracle} {c : Call} (he : Effect o db c db') (h : Whole ext svc id db)
    (hc : ∀ txn, c ≠ .commit txn) : Whole ext svc id db' ∧ Counted id db db' := by
  cases he with
  | same => exact ⟨h, .refl id db⟩
  | commit _ => exact absurd rfl (hc _)
  | @insert d hf _ =>
    by_cases hid : id = (d.row o.uuid o.now).id
    · have hnone : db.document id = none := Database.document_none_of_not_issued (hid ▸ hf.1)
      refine ⟨fun d' hd' => .inl ?_, .add hf, fun d' _ hd' => absurd hd' (by simp [hnone])⟩
      rw [Database.document_add, if_pos hid] at hd'
      cases hd'
      have hnil : db.chunksOf id = [] := Database.chunksOf_of_document_none hnone
      exact ⟨hnil, rfl⟩
    · refine whole_of_same h (.add hf) rfl fun d' hd' => ?_
      rw [Database.document_add, if_neg hid] at hd'
      exact ⟨d', hd', rfl⟩
  | @delete j =>
    by_cases hj : id = j
    · have hnone : (db.deleteDocument j).document id = none := by
        rw [Database.document_deleteDocument, if_pos hj]
      exact ⟨fun d' hd' => absurd hd' (by simp [hnone]), .deleteDocument db j,
        fun _ d' _ hd' => absurd hd' (by simp [hnone])⟩
    · refine whole_of_same h (.deleteDocument db j) ?_ fun d' hd' => ?_
      · rw [Database.chunksOf_deleteDocument, if_neg hj]
      · rw [Database.document_deleteDocument, if_neg hj] at hd'
        exact ⟨d', hd', rfl⟩

theorem whole_of_bare {txn : Txn} {skip : Nat} (h : Whole ext svc id db)
    (hc : db.commit txn skip = .ok db') (hdoomed : txn.doomed = []) (hadded : txn.added = [])
    (hcount : txn.document.patch.chunkCount = none) :
    Whole ext svc id db' ∧ Counted id db db' := by
  refine whole_of_same h (.commit hc) ?_ fun d' hd' => ?_
  · rw [chunksOf_commit hc, hdoomed, hadded]
    simp [numberChunks]
  · rw [document_commit hc] at hd'
    split at hd'
    · obtain ⟨d, hd, rfl⟩ := Option.map_eq_some_iff.mp hd'
      exact ⟨d, hd, by simp [Patch.apply, hcount]⟩
    · exact ⟨d', hd', rfl⟩

theorem parseAndChunk_ne_nil {raw : Bytes} {sourceType : DocumentSourceType}
    {drafts : List ChunkDraft} (h : svc.parseAndChunk ext raw sourceType = .ok drafts) :
    drafts ≠ [] := by
  simp only [IngestionService.parseAndChunk, bind, Except.bind] at h
  cases hp : parseDocument ext raw sourceType with
  | error e => rw [hp] at h; cases h
  | ok blocks =>
    rw [hp] at h
    obtain ⟨hne, htext⟩ := parseDocument_allText hp
    exact chunkBlocks_ne_nil hne htext h

theorem le_chunkIndex_of_kept {row : Document} {doomed : List Nat} {drafts : List ChunkDraft}
    {embeddings : List Embedding} {skip : Nat} {c : Chunk}
    (hc : db.commit (storeTxn row doomed drafts embeddings) skip = .ok db')
    (hlen : drafts.length = embeddings.length)
    (hmem : c ∈ (db.chunksOf row.id).filter (·.id ∉ doomed)) : drafts.length ≤ c.chunkIndex := by
  by_contra hlt
  have hnodup : ((db'.chunksOf row.id).map (·.chunkIndex)).Nodup := by
    have hkeys := db'.chunks_uq.sublist (List.filter_sublist (p := (·.documentId = row.id)).map _)
    have hpair : ((db'.chunksOf row.id).map fun c => (c.documentId, c.chunkIndex)) =
        ((db'.chunksOf row.id).map (·.chunkIndex)).map fun i => (row.id, i) := by
      rw [List.map_map]
      apply List.map_congr_left
      intro c hcmem
      simp [(Database.mem_chunksOf.mp hcmem).2]
    exact (hpair ▸ hkeys).of_map _
  rw [chunksOf_store hc, List.map_append, List.nodup_append] at hnodup
  have hindex : c.chunkIndex ∈ (numberChunks (db.nextChunkId + skip)
      (IngestionService.newChunks (started row).current drafts embeddings)).map (·.chunkIndex) := by
    have hrange : (entries (started row).current.tenantId drafts).map Prod.fst =
      List.range drafts.length := entries_index _ _
    rw [← newChunks_entries (started row).current hlen,
      ← numberChunks_map_entry (db.nextChunkId + skip), List.map_map] at hrange
    change c.chunkIndex ∈ List.map (Prod.fst ∘ Chunk.entry) _
    rw [hrange, List.mem_range]
    exact not_le.mp hlt
  exact hnodup.2.2 _ (List.mem_map_of_mem hmem) _ hindex rfl

theorem Whole.for_payload (h : Whole ext svc id db) {row d : Document} {raw : Bytes}
    {drafts : List ChunkDraft} (hd : db.document id = some d) (hfile : d.file = row.file)
    (hraw : row.rawContent = some raw)
    (hp : svc.parseAndChunk ext raw row.sourceType = .ok drafts) :
    (db.chunksOf id = [] ∧ d.chunkCount = none) ∨
      (db.chunksOf id).map Chunk.entry = entries d.tenantId drafts ∧
        d.chunkCount = some drafts.length := by
  refine (h d hd).imp_right ?_
  rintro ⟨raw', drafts', hraw', hp', -, hentry, hlen'⟩
  rw [Document.rawContent_of_file hfile, hraw, Option.some.injEq] at hraw'
  rw [Document.sourceType_of_file hfile, ← hraw', hp, Except.ok.injEq] at hp'
  rw [hp']
  exact ⟨hentry, hlen'⟩

theorem kept_of_whole {row : Document} {doomed : List Nat} {drafts : List ChunkDraft}
    {embeddings : List Embedding} {skip : Nat}
    (hc : db.commit (storeTxn row doomed drafts embeddings) skip = .ok db')
    (hlen : drafts.length = embeddings.length)
    (hnow : ∀ d, db.document row.id = some d → db.chunksOf row.id = [] ∨
      (db.chunksOf row.id).map Chunk.entry = entries d.tenantId drafts) :
    (db.chunksOf row.id).filter (·.id ∉ doomed) = [] := by
  rw [List.eq_nil_iff_forall_not_mem]
  intro c hkept
  have hmem := (List.mem_filter.mp hkept).1
  cases hd : db.document row.id with
  | none =>
    rw [Database.chunksOf_of_document_none hd] at hmem
    cases hmem
  | some d =>
    rcases hnow d hd with hnil | hentry
    · rw [hnil] at hmem
      cases hmem
    · have hfst := List.mem_map_of_mem (f := Prod.fst) (List.mem_map_of_mem (f := Chunk.entry) hmem)
      rw [hentry, entries_index, List.mem_range] at hfst
      exact absurd hfst (not_lt.mpr (le_chunkIndex_of_kept hc hlen hkept))

theorem chunkCount_store {row d : Document} {doomed : List Nat} {drafts : List ChunkDraft}
    {embeddings : List Embedding}
    (hcount : row.chunkCount = some drafts.length → d.chunkCount = some drafts.length) :
    ((storeTxn row doomed drafts embeddings).document.patch.apply d).chunkCount =
      some drafts.length := by
  rw [storeTxn_patch]
  simp only [Patch.apply]
  split
  · next hsome => exact hcount hsome
  · rfl

theorem whole_of_store {row : Document} {raw : Bytes} {doomed : List Nat}
    {drafts : List ChunkDraft} {embeddings : List Embedding} {skip : Nat} {u : Database}
    (h : Whole ext svc id db)
    (hc : db.commit (storeTxn row doomed drafts embeddings) skip = .ok db')
    (hraw : row.rawContent = some raw)
    (hp : svc.parseAndChunk ext raw row.sourceType = .ok drafts)
    (hlen : drafts.length = embeddings.length) (hdoomed : doomed = (u.chunksOf row.id).map (·.id))
    (hu : u.Grows db) {t : Database} (hrow : t.document row.id = some row)
    (ht : Counted id t db) : Whole ext svc id db' ∧ Counted id db db' := by
  by_cases hid : id = row.id
  · subst hid
    have hfile (d : Document) (hd : db.document row.id = some d) : d.file = row.file :=
      ht.file row.id row d hrow hd
    have hnow (d : Document) (hd : db.document row.id = some d) :=
      h.for_payload hd (hfile d hd) hraw hp
    have hkept := kept_of_whole hc hlen fun d hd => (hnow d hd).imp And.left And.left
    have hrow' (d' : Document) (hd' : db'.document row.id = some d') :
        ∃ d, db.document row.id = some d ∧ d'.file = row.file ∧
          d'.chunkCount = some drafts.length := by
      rw [document_commit hc, storeTxn_id, if_pos rfl] at hd'
      obtain ⟨d, hd, rfl⟩ := Option.map_eq_some_iff.mp hd'
      refine ⟨d, hd, hfile d hd, chunkCount_store fun hsome => ?_⟩
      rcases ht.count row d hrow hd with hn | he
      · rw [hn] at hsome
        cases hsome
      · exact he.trans hsome
    refine ⟨fun d' hd' => .inr ?_, .commit hc, fun d d' hd hd' => ?_⟩
    · obtain ⟨d, -, hfile', hcount'⟩ := hrow' d' hd'
      refine ⟨raw, drafts, (Document.rawContent_of_file hfile').trans hraw, ?_,
        parseAndChunk_ne_nil hp, ?_, hcount'⟩
      · rw [Document.sourceType_of_file hfile', hp]
      · rw [chunksOf_store hc, hkept, List.nil_append, numberChunks_map_entry,
          newChunks_entries _ hlen, Document.tenantId_of_file hfile']
        rfl
    · obtain ⟨e, he, -, hcount'⟩ := hrow' d' hd'
      exact (hnow d hd).imp (·.2) fun hold => hcount'.trans hold.2.symm
  · refine whole_of_same h (.commit hc) (chunksOf_store_of_ne hu hdoomed hc hid) fun d' hd' => ?_
    rw [document_commit hc, storeTxn_id, if_neg hid] at hd'
    exact ⟨d', hd', rfl⟩

end Effects

section Runs

variable (ext : External) (settings : Settings) (id : Uuid)

def atomicity : Contract api World Oracle where
  inv w := Whole ext (ingestionService settings) id w.db
  rely t u := Counted id t.db u.db
  guar t u := Counted id t.db u.db
  rely_refl t := .refl id t.db
  rely_trans h h' := h.trans h'

variable {ext settings id}

def Loaded (id : Uuid) (row : Document) (t : World) : Prop :=
  ∃ u : World, u.db.document row.id = some row ∧ Counted id u.db t.db

theorem commits_bare {txn : Txn} {t : World} {Done : World → Prop}
    (ht : (atomicity ext settings id).inv t) (hdoomed : txn.doomed = []) (hadded : txn.added = [])
    (hcount : txn.document.patch.chunkCount = none)
    (hdone : ∀ db, Counted id t.db db → Done { t with db := db }) :
    Commits (atomicity ext settings id) txn t Done fun _ => True := by
  refine fun l o _ => ⟨⟨trivial, ht, .refl id t.db⟩, fun db hc => ?_⟩
  obtain ⟨hw, hcounted⟩ := whole_of_bare ht hc hdoomed hadded hcount
  exact ⟨hw, hcounted, hdone db hcounted, fun _ _ => trivial⟩

theorem atomicity_process (documentId : Uuid) :
    ProcessProof (atomicity ext settings id) ext (ingestionService settings) documentId
      (fun _ => True) (Loaded id) (fun _ => True) (fun _ _ => True) where
  guar_refl t := .refl id t.db
  pre_stable _ _ _ _ _ := trivial
  mid_stable row s t h hst _ := h.imp fun u hu => ⟨hu.1, hu.2.trans hst⟩
  fail_stable _ _ _ _ _ := trivial
  end_stable _ _ _ _ _ _ := trivial
  pre_fail _ _ := trivial
  mid_fail _ _ _ := trivial
  stop _ _ _ := trivial
  transient _ _ _ _ _ := trivial
  absent _ _ _ _ := trivial
  completed _ _ _ _ _ _ := trivial
  payload _ _ _ _ _ _ _ := trivial
  start t u row _ _ hrow _ _ htu hu := by
    refine commits_bare hu rfl rfl (by rw [startTxn_patch]) fun db hdb => ?_
    exact ⟨t, by rw [Database.document_id hrow]; exact hrow, htu.trans hdb⟩
  gone _ _ _ _ _ := trivial
  fail t row detail _ ht _ := by
    refine commits_bare ht rfl rfl ?_ fun _ _ => trivial
    rw [failTxn_patch]
    simp [started, Instance.flushed, Instance.patch]
  store t row doomed drafts embeddings hmid ht hp := by
    refine fun l o _ => ⟨⟨trivial, ht, .refl id t.db⟩, fun db hc => ?_⟩
    obtain ⟨u, hrow, hu⟩ := hmid
    obtain ⟨raw, hraw, hparse⟩ := hp.payload
    obtain ⟨v, hv, hdoomed⟩ := hp.doomed
    obtain ⟨hw, hcounted⟩ := whole_of_store ht hc hraw hparse hp.length hdoomed hv.toGrows hrow hu
    exact ⟨hw, hcounted, trivial, fun _ _ => trivial⟩

theorem atomicity_api : ApiProof (atomicity ext settings id) ext settings Instance.Fresh where
  guar_refl t := .refl id t.db
  stop _ _ := trivial
  register tenantId filename raw sourceType := keeps_register (fun _ _ => trivial)
    (fun t => .refl id t.db) fun _ o d t ht _ =>
      (exec_effect o (.insertDocument d) t).whole ht fun _ h => by cases h
  fail document message t hR ht := by
    obtain ⟨d, i, now, rfl⟩ := hR
    refine commits_bare ht rfl rfl ?_ fun _ _ => trivial
    rw [failTxn_patch]
    simp [Instance.load, Instance.patch]
  delay _ o i t ht _ := (exec_effect o (.delay i) t).whole ht fun _ h => by cases h
  meter _ o i t ht _ := (exec_effect o (.insertUsage i) t).whole ht fun _ h => by cases h
  delete _ o i t ht _ := (exec_effect o (.deleteDocument i) t).whole ht fun _ h => by cases h

theorem atomicity_markFailed (documentId : Uuid) (message : Str) :
    Keeps exec (atomicity ext settings id) (fun _ => True) (markFailed none documentId message) :=
  keeps_markFailed (fun _ _ => trivial) (fun t => .refl id t.db) fun _ _ _ _ _ _ hu =>
    commits_bare hu rfl rfl (by rw [failTxn_patch]; simp [Instance.load, Instance.patch])
      fun _ _ => trivial

theorem atomicity_keeps (job : Job) :
    Keeps exec (atomicity ext settings id) (fun _ => True) (job.code ext settings) :=
  atomicity_api.keeps_job (fun _ documentId => keeps_ingestDocument
    (.of_wpE fun _ _ => ⟨_, (atomicity_process documentId).wpE_process trivial⟩)
    (atomicity_markFailed documentId)) job

/-- Every committed state has none or all of the chunks of a document that began without any, and
none once the document is deleted. -/
theorem chunks_all_or_nothing {ι : Type} [DecidableEq ι] {w : World}
    (hw : ∀ d, w.db.document id = some d → w.db.chunksOf id = [] ∧ d.chunkCount = none)
    (acts acts' : List (Act ι)) :
    Whole ext (ingestionService settings) id (after ext settings w acts).db ∧
      (id ∈ (after ext settings w acts).db.issued.map Prod.fst →
        (after ext settings w acts).db.document id = none →
        (after ext settings w (acts ++ acts')).db.chunksOf id = []) := by
  have hrun := run_keeps (K := atomicity ext settings id) atomicity_keeps (fun h => h)
    (fun _ _ _ _ _ => trivial) (fun d hd => .inl (hw d hd)) (guarded_true w (acts ++ acts'))
  exact ⟨hrun.1, fun hid hnone =>
    Database.chunksOf_of_document_none (hrun.2.gone id hid hnone)⟩

end Runs

/-- Two deliveries overlap, and both run to their end. -/
def Sample.overlapping : List (Act Nat) :=
  whole 0 4 (.upload tenantId note) ++ whole 1 3 (.deliver 0 documentId) ++
    whole 2 5 (.deliver 0 documentId) ++ [.answer 1 oracle, .answer 1 oracle]

theorem chunks_all_or_nothing_overlapping :
    Whole Sample.ext (ingestionService {}) Sample.documentId
        (Sample.state Sample.overlapping).db ∧
      (Sample.documentId ∈ (Sample.state Sample.overlapping).db.issued.map Prod.fst →
        (Sample.state Sample.overlapping).db.document Sample.documentId = none →
        (Sample.state (Sample.overlapping ++ [])).db.chunksOf Sample.documentId = []) :=
  chunks_all_or_nothing (fun d hd => by cases hd) Sample.overlapping []

end RagPlatform
