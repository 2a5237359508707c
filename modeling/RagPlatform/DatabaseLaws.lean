import Mathlib.Algebra.Order.BigOperators.Group.List
import RagPlatform.Database

/-! What each statement does to one document and to its chunks. -/

namespace RagPlatform.Database

open Lib

variable {db : Database} {d : Document} {id j : Uuid} {p : Patch}

theorem document_eq_some : db.document id = some d ↔ d ∈ db.documents ∧ d.id = id := by
  constructor
  · intro h
    exact ⟨List.mem_of_find?_eq_some h, by simpa using List.find?_some h⟩
  · rintro ⟨hd, rfl⟩
    rw [document]
    cases h : db.documents.find? (·.id = d.id) with
    | none => simpa using List.find?_eq_none.mp h d hd
    | some e =>
      have he : e.id = d.id := by simpa using List.find?_some h
      exact congrArg some (List.inj_on_of_nodup_map db.documents_pk (List.mem_of_find?_eq_some h) hd he)

theorem document_eq_none : db.document id = none ↔ ∀ d ∈ db.documents, d.id ≠ id := by
  simp [document]

theorem document_id (h : db.document id = some d) : d.id = id := (document_eq_some.mp h).2

theorem mem_chunksOf {c : Chunk} : c ∈ db.chunksOf id ↔ c ∈ db.chunks ∧ c.documentId = id := by
  simp [chunksOf]

theorem chunksOf_of_document_none (h : db.document id = none) : db.chunksOf id = [] := by
  rw [List.eq_nil_iff_forall_not_mem]
  intro c hc
  obtain ⟨hmem, hid⟩ := mem_chunksOf.mp hc
  obtain ⟨d, hd, hdoc⟩ := db.chunks_fk c hmem
  exact document_eq_none.mp h d hd (hdoc.trans hid)

theorem issued_of_document (h : db.document id = some d) : id ∈ db.issued.map Prod.fst := by
  obtain ⟨hd, rfl⟩ := document_eq_some.mp h
  exact List.mem_map.mpr ⟨_, db.documents_issued d hd, rfl⟩

theorem document_none_of_not_issued (h : id ∉ db.issued.map Prod.fst) : db.document id = none := by
  cases hd : db.document id with
  | none => rfl
  | some d => exact absurd (issued_of_document hd) h

section Add

variable (h : db.Fits d)

theorem document_add : (db.add d h).document j = if j = d.id then some d else db.document j := by
  have hnone := document_none_of_not_issued h.1
  by_cases hj : j = d.id
  · subst hj
    simp only [document] at hnone
    simp [document, add, List.find?_append, hnone]
  · simp [document, add, List.find?_append, hj, Ne.symm hj]

@[simp] theorem chunksOf_add : (db.add d h).chunksOf j = db.chunksOf j := rfl

@[simp] theorem issued_add : (db.add d h).issued = (d.id, d.tenantId) :: db.issued := rfl

theorem usedBytes_add (t : Uuid) : (db.add d h).usedBytes t =
    db.usedBytes t + if d.tenantId = t then d.sizeBytes else 0 := by
  simp only [usedBytes, add, List.filter_append, List.map_append, List.sum_append]
  split
  · next ht => simp [ht]
  · next ht => simp [ht]

end Add

theorem insertDocument_ok {db' : Database} (h : db.insertDocument d = .ok db') :
    d.storable = true ∧ ∃ hf : db.Fits d, db' = db.add d hf := by
  simp only [insertDocument] at h
  split at h
  · next hs =>
    split at h
    · next hf => exact ⟨hs, hf, (Except.ok.inj h).symm⟩
    · simp at h
  · simp at h

theorem document_patch : (db.patch id p).document j = (db.document j).map (patchRow id p) := by
  simp only [document, patch, List.find?_map, Function.comp_def, patchRow_id]

theorem document_patch_self : (db.patch id p).document id = (db.document id).map p.apply := by
  rw [document_patch]
  cases h : db.document id with
  | none => rfl
  | some d => simp [patchRow, document_id h]

theorem document_patch_of_ne (h : j ≠ id) : (db.patch id p).document j = db.document j := by
  rw [document_patch]
  cases hj : db.document j with
  | none => rfl
  | some d => simp [patchRow, document_id hj, h]

@[simp] theorem chunksOf_patch : (db.patch id p).chunksOf j = db.chunksOf j := rfl

@[simp] theorem issued_patch : (db.patch id p).issued = db.issued := rfl

theorem usedBytes_patch (t : Uuid) : (db.patch id p).usedBytes t = db.usedBytes t := by
  simp [usedBytes, patch, List.filter_map, Function.comp_def]

theorem update_ok {db' : Database} (h : db.update id p = .ok db') :
    (p = {} ∧ db' = db) ∨ (p ≠ {} ∧ p.storable = true ∧ (∃ d, db.document id = some d) ∧
      db' = db.patch id p) := by
  simp only [update] at h
  split at h
  · next hp => exact .inl ⟨hp, (Except.ok.inj h).symm⟩
  · next hp =>
    split at h
    · simp at h
    · next hs =>
      split at h
      · simp at h
      · next hd =>
        refine .inr ⟨hp, by simpa using hs, ?_, (Except.ok.inj h).symm⟩
        exact Option.isSome_iff_exists.mp (by simpa [Option.isSome_iff_ne_none] using hd)

section Replace

variable {doomed : List Nat} {added : List NewChunk} {skip : Nat} (h : db.Admits doomed added)

@[simp] theorem document_replace : (db.replace doomed added skip h).document j = db.document j := rfl

@[simp] theorem issued_replace : (db.replace doomed added skip h).issued = db.issued := rfl

@[simp] theorem usedBytes_replace (t : Uuid) :
    (db.replace doomed added skip h).usedBytes t = db.usedBytes t := rfl

theorem chunksOf_replace : (db.replace doomed added skip h).chunksOf j =
    (db.chunksOf j).filter (·.id ∉ doomed) ++
      (numberChunks (db.nextChunkId + skip) added).filter (·.documentId = j) := by
  simp only [chunksOf, replace, keep, List.filter_append, List.filter_filter]
  congr 1
  apply List.filter_congr
  intro c _
  exact Bool.and_comm ..

end Replace

theorem replaceChunks_ok {db' : Database} {doomed : List Nat} {added : List NewChunk} {skip : Nat}
    (h : db.replaceChunks doomed added skip = .ok db') : added.all NewChunk.storable = true ∧
      ∃ ha : db.Admits doomed added, db' = db.replace doomed added skip ha := by
  simp only [replaceChunks] at h
  split at h
  · next hs =>
    split at h
    · next ha => exact ⟨hs, ha, (Except.ok.inj h).symm⟩
    · simp at h
  · simp at h

theorem numberChunks_filter_self {start : Nat} {cs : List NewChunk}
    (h : ∀ c ∈ cs, c.documentId = j) :
    (numberChunks start cs).filter (·.documentId = j) = numberChunks start cs := by
  rw [List.filter_eq_self]
  intro c hc
  obtain ⟨-, n, hn, hc⟩ := mem_numberChunks hc
  rw [hc]
  exact decide_eq_true (h n hn)

theorem numberChunks_filter_of_ne {start : Nat} {cs : List NewChunk}
    (h : ∀ c ∈ cs, c.documentId = id) (hj : j ≠ id) :
    (numberChunks start cs).filter (·.documentId = j) = [] := by
  rw [List.filter_eq_nil_iff]
  intro c hc
  obtain ⟨-, n, hn, hc⟩ := mem_numberChunks hc
  rw [hc]
  simp [NewChunk.number, h n hn, Ne.symm hj]

theorem document_deleteDocument :
    (db.deleteDocument id).document j = if j = id then none else db.document j := by
  split
  · next hj =>
    subst hj
    rw [document_eq_none]
    intro d hd
    simpa using (List.mem_filter.mp hd).2
  · next hj =>
    simp only [document, deleteDocument, List.find?_filter]
    congr 1
    funext d
    by_cases hd : d.id = j
    · simp [hd, hj]
    · simp [hd]

theorem chunksOf_deleteDocument :
    (db.deleteDocument id).chunksOf j = if j = id then [] else db.chunksOf j := by
  split
  · next hj =>
    subst hj
    exact chunksOf_of_document_none (by rw [document_deleteDocument, if_pos rfl])
  · next hj =>
    simp only [chunksOf, deleteDocument, List.filter_filter]
    apply List.filter_congr
    intro c _
    by_cases hc : c.documentId = j
    · simp [hc, hj]
    · simp [hc]

@[simp] theorem issued_deleteDocument : (db.deleteDocument id).issued = db.issued := rfl

theorem usedBytes_deleteDocument (t : Uuid) : (db.deleteDocument id).usedBytes t ≤ db.usedBytes t := by
  simp only [usedBytes, deleteDocument]
  exact List.Sublist.sum_le_sum ((List.filter_sublist.filter _).map _) (fun _ _ => Nat.zero_le _)

end RagPlatform.Database
