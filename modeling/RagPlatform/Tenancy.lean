import RagPlatform.DatabaseLaws

/-! Which rows belong to a tenant, and what each statement makes of them. -/

namespace RagPlatform.Database

open Lib

variable (db : Database) (t u : Uuid)

def documentsOf : List Document := db.documents.filter (·.tenantId = t)

def piecesOf : List Chunk := db.chunks.filter (·.tenantId = t)

/-- `chunks.tenant_id` repeats the tenant of the document. -/
def Denormalised : Prop := ∀ c ∈ db.chunks, ∀ d ∈ db.documents, d.id = c.documentId → c.tenantId = d.tenantId

/-- The document of every chunk was given to the tenant of the chunk. -/
def Scoped : Prop := ∀ c ∈ db.chunks, (c.documentId, c.tenantId) ∈ db.issued

variable {db t u} {id : Uuid} {d : Document} {p : Patch}

theorem Denormalised.scoped (h : db.Denormalised) : db.Scoped := by
  intro c hc
  obtain ⟨d, hd, hid⟩ := db.chunks_fk c hc
  rw [h c hc d hd hid, ← hid]
  exact db.documents_issued d hd

theorem mem_documentsOf : d ∈ db.documentsOf t ↔ d ∈ db.documents ∧ d.tenantId = t := by
  simp [documentsOf]

theorem mem_piecesOf {c : Chunk} : c ∈ db.piecesOf t ↔ c ∈ db.chunks ∧ c.tenantId = t := by
  simp [piecesOf]

theorem issued_unique (h : (id, t) ∈ db.issued) (h' : (id, u) ∈ db.issued) : t = u :=
  congrArg Prod.snd (List.inj_on_of_nodup_map db.issued_once h h' rfl)

theorem issued_document (h : db.document id = some d) : (id, d.tenantId) ∈ db.issued := by
  obtain ⟨hd, rfl⟩ := document_eq_some.mp h
  exact db.documents_issued d hd

theorem document_of_issued (h : (id, t) ∈ db.issued) :
    db.document id = (db.documentsOf t).find? (·.id = id) := by
  rw [document, documentsOf, ← List.head?_filter, ← List.head?_filter, List.filter_filter]
  refine congrArg List.head? (List.filter_congr fun d hd => ?_)
  by_cases hid : d.id = id
  · have hu := issued_unique (hid ▸ db.documents_issued d hd) h
    simp [hid, hu]
  · simp [hid]

theorem Scoped.tenantId (hs : db.Scoped) {c : Chunk} (hc : c ∈ db.chunks)
    (h : (c.documentId, t) ∈ db.issued) : c.tenantId = t := issued_unique (hs c hc) h

theorem Scoped.chunksOf (hs : db.Scoped) (h : (id, t) ∈ db.issued) :
    db.chunksOf id = (db.piecesOf t).filter (·.documentId = id) := by
  rw [Database.chunksOf, piecesOf, List.filter_filter]
  refine List.filter_congr fun c hc => ?_
  by_cases hid : c.documentId = id
  · have hu := hs.tenantId hc (hid ▸ h)
    simp [hid, hu]
  · simp [hid]

theorem documentsOf_add (h : db.Fits d) : (db.add d h).documentsOf t =
    if d.tenantId = t then db.documentsOf t ++ [d] else db.documentsOf t := by
  simp only [documentsOf, add, List.filter_append]
  split
  · next ht => simp [ht]
  · next ht => simp [ht]

theorem documentsOf_patch :
    (db.patch id p).documentsOf t = (db.documentsOf t).map (patchRow id p) := by
  simp [documentsOf, patch, List.filter_map, Function.comp_def]

theorem documentsOf_patch_of_ne (h : (id, u) ∈ db.issued) (htu : t ≠ u) :
    (db.patch id p).documentsOf t = db.documentsOf t := by
  rw [documentsOf_patch]
  refine (List.map_congr_left fun d hd => ?_).trans (List.map_id _)
  obtain ⟨hd, ht⟩ := mem_documentsOf.mp hd
  have hne : d.id ≠ id := fun hid =>
    htu (ht.symm.trans (issued_unique (db.documents_issued d hd) (hid ▸ h)))
  simp [patchRow, hne]

theorem documentsOf_deleteDocument :
    (db.deleteDocument id).documentsOf t = (db.documentsOf t).filter (·.id ≠ id) := by
  simp only [documentsOf, deleteDocument, List.filter_filter, Bool.and_comm]

theorem documentsOf_deleteDocument_of_ne (h : (id, u) ∈ db.issued) (htu : t ≠ u) :
    (db.deleteDocument id).documentsOf t = db.documentsOf t := by
  rw [documentsOf_deleteDocument, List.filter_eq_self]
  intro d hd
  obtain ⟨hd, ht⟩ := mem_documentsOf.mp hd
  have hne : d.id ≠ id := fun hid =>
    htu (ht.symm.trans (issued_unique (db.documents_issued d hd) (hid ▸ h)))
  simpa using hne

theorem piecesOf_deleteDocument :
    (db.deleteDocument id).piecesOf t = (db.piecesOf t).filter (·.documentId ≠ id) := by
  simp only [piecesOf, deleteDocument, List.filter_filter, Bool.and_comm]

theorem piecesOf_deleteDocument_of_ne (hs : db.Scoped) (h : (id, u) ∈ db.issued) (htu : t ≠ u) :
    (db.deleteDocument id).piecesOf t = db.piecesOf t := by
  rw [piecesOf_deleteDocument, List.filter_eq_self]
  intro c hc
  obtain ⟨hc, ht⟩ := mem_piecesOf.mp hc
  have hne : c.documentId ≠ id := fun hid => htu (ht.symm.trans (hs.tenantId hc (hid ▸ h)))
  simpa using hne

section Replace

variable {doomed : List Nat} {added : List NewChunk} {skip : Nat}

theorem piecesOf_replace (h : db.Admits doomed added) : (db.replace doomed added skip h).piecesOf t =
    (db.piecesOf t).filter (·.id ∉ doomed) ++
      (numberChunks (db.nextChunkId + skip) added).filter (·.tenantId = t) := by
  simp only [piecesOf, replace, keep, List.filter_append, List.filter_filter, Bool.and_comm]

theorem numberChunks_tenant (h : ∀ n ∈ added, n.tenantId = u) (start : Nat) :
    ∀ c ∈ numberChunks start added, c.tenantId = u := by
  intro c hc
  obtain ⟨-, n, hn, hc⟩ := mem_numberChunks hc
  rw [hc]
  exact h n hn

theorem admits_iff (hs : db.Scoped) (h : ∀ n ∈ added, (n.documentId, t) ∈ db.issued) :
    db.Admits doomed added ↔ (∀ n ∈ added, (db.document n.documentId).isSome) ∧
      (added.map NewChunk.key).Nodup ∧
        ∀ c ∈ db.piecesOf t, c.id ∉ doomed → ∀ n ∈ added, (c.documentId, c.chunkIndex) ≠ n.key := by
  have hdoc (n : NewChunk) :
      (∃ d ∈ db.documents, d.id = n.documentId) ↔ (db.document n.documentId).isSome := by
    simp [Option.isSome_iff_exists, document_eq_some]
  have hkeep : ((db.keep doomed).map fun c => (c.documentId, c.chunkIndex)).Nodup :=
    db.chunks_uq.sublist (List.filter_sublist.map _)
  simp only [Admits, hdoc, List.nodup_append, hkeep, true_and]
  simp only [List.mem_map, keep, List.mem_filter, decide_eq_true_eq]
  refine and_congr_right fun _ => and_congr_right fun _ => ⟨fun hd c hc hid n hn => ?_, ?_⟩
  · exact hd _ ⟨c, ⟨(mem_piecesOf.mp hc).1, hid⟩, rfl⟩ _ ⟨n, hn, rfl⟩
  · rintro hd _ ⟨c, ⟨hc, hid⟩, rfl⟩ _ ⟨n, hn, rfl⟩ hkey
    have hdocument : c.documentId = n.documentId := congrArg Prod.fst hkey
    have ht : c.tenantId = t := hs.tenantId hc (hdocument ▸ h n hn)
    exact hd c (mem_piecesOf.mpr ⟨hc, ht⟩) hid n hn hkey

end Replace

theorem Scoped.add (hs : db.Scoped) (h : db.Fits d) : (db.add d h).Scoped :=
  fun c hc => List.mem_cons_of_mem _ (hs c hc)

theorem Scoped.patch (hs : db.Scoped) : (db.patch id p).Scoped := hs

theorem Scoped.deleteDocument (hs : db.Scoped) : (db.deleteDocument id).Scoped :=
  fun c hc => hs c (List.mem_filter.mp hc).1

theorem Scoped.replace (hs : db.Scoped) {doomed : List Nat} {added : List NewChunk} {skip : Nat}
    (h : db.Admits doomed added) (hadded : ∀ n ∈ added, (n.documentId, n.tenantId) ∈ db.issued) :
    (db.replace doomed added skip h).Scoped := by
  intro c hc
  rcases List.mem_append.mp hc with hc | hc
  · exact hs c (List.mem_filter.mp hc).1
  · obtain ⟨-, n, hn, hc⟩ := mem_numberChunks hc
    rw [hc]
    exact hadded n hn

end RagPlatform.Database
