import RagPlatform.History
import RagPlatform.Isolation.View

/-! What a tenant's statements make of its own rows, in both databases, and of the rows of others. -/

namespace RagPlatform

open Lib

/-- The transactions of a tenant: one of its documents, and chunks of its documents. -/
structure Txn.Owned (t : Uuid) (v : View) (txn txn' : Txn) : Prop where
  document : txn.document = txn'.document
  doomed : v.Relates txn.doomed txn'.doomed
  added : txn.added = txn'.added
  id : txn.document.loaded.id ∈ v.documents
  chunks : ∀ n ∈ txn.added, n.documentId ∈ v.documents ∧ n.tenantId = t

namespace SameRows

variable {t u : Uuid} {v w : View} {db db' db'' : Database} {id : Uuid}

theorem commit (h : SameRows t v db db') {txn txn' : Txn} (ht : txn.Owned t v txn') (skip : Nat) :
    Agree (fun a b => ∃ w, v ≤ w ∧ SameRows t w a b) (db.commit txn skip) (db'.commit txn' skip) := by
  have hupdate := h.update ht.id txn.document.patch
  simp only [Database.commit, ← ht.document, ← ht.added]
  generalize db.update _ _ = a at *
  generalize db'.update _ _ = a' at *
  cases hupdate with
  | ok h => exact h.replaceChunks ht.doomed ht.chunks
  | error e => exact .error e

section Other

variable (h : SameRows t v db db') (hu : SameRows u w db db'') (htu : t ≠ u)
include h htu

theorem add_other {d : Document} (hd : d.tenantId = u) (hf : db.Fits d) :
    SameRows t v (db.add d hf) db' where
  __ := h
  documents := by rw [Database.documentsOf_add, if_neg (fun hd' => htu (hd'.symm.trans hd)), h.documents]
  pieces := h.pieces
  inScope := h.inScope.add hf
  owned id := by
    rw [h.owned, Database.issued_add, List.mem_cons, Prod.mk.injEq]
    exact ⟨.inr, fun hid => hid.resolve_left fun hid => htu (hid.2.trans hd)⟩
  issued x hx := List.mem_cons_of_mem _ (h.issued x hx)
  below := h.below
  apart := h.apart

include hu

theorem patch_other (hid : id ∈ w.documents) (p : Patch) : SameRows t v (db.patch id p) db' where
  __ := h
  documents := by
    rw [Database.documentsOf_patch_of_ne ((hu.owned id).mp hid) htu, h.documents]
  pieces := h.pieces
  inScope := h.inScope.patch
  apart := h.apart

theorem deleteDocument_other (hid : id ∈ w.documents) :
    SameRows t v (db.deleteDocument id) db' where
  __ := h
  documents := by
    rw [Database.documentsOf_deleteDocument_of_ne ((hu.owned id).mp hid) htu, h.documents]
  pieces := by
    rw [Database.piecesOf_deleteDocument_of_ne h.inScope ((hu.owned id).mp hid) htu]
    exact h.pieces
  inScope := h.inScope.deleteDocument
  apart c hc := h.apart c (List.mem_filter.mp hc).1

theorem replace_other {doomed doomed' : List Nat} {added : List NewChunk} {skip : Nat}
    (hdoomed : w.Relates doomed doomed')
    (hadded : ∀ n ∈ added, n.documentId ∈ w.documents ∧ n.tenantId = u)
    (ha : db.Admits doomed added) : SameRows t v (db.replace doomed added skip ha) db' where
  __ := h
  pieces := by
    have hkept : (db.piecesOf t).filter (·.id ∉ doomed) = db.piecesOf t := by
      refine List.filter_eq_self.mpr fun c hc => decide_eq_true fun hmem => ?_
      obtain ⟨hc, ht⟩ := Database.mem_piecesOf.mp hc
      rw [show doomed = doomed'.map w.name from hdoomed.eq] at hmem
      obtain ⟨n, hn, hid⟩ := List.mem_map.mp hmem
      exact hu.apart c hc (fun hcu => htu (ht.symm.trans hcu)) n (hdoomed.known n ⟨n, hn, rfl⟩)
        hid.symm
    have hnew (start : Nat) : (numberChunks start added).filter (·.tenantId = t) = [] := by
      refine List.filter_eq_nil_iff.mpr fun c hc => ?_
      have hcu := Database.numberChunks_tenant (fun n hn => (hadded n hn).2) start c hc
      simpa [hcu] using Ne.symm htu
    rw [Database.piecesOf_replace, hkept, hnew, List.append_nil]
    exact h.pieces
  documents := h.documents
  inScope := h.inScope.replace ha fun n hn => by
    rw [(hadded n hn).2]
    exact (hu.owned _).mp (hadded n hn).1
  below n hn := by
    have := h.below n hn
    change v.name n < db.nextChunkId + skip + added.length
    omega
  apart c hc ht n hn := by
    rcases List.mem_append.mp hc with hc | hc
    · exact h.apart c (List.mem_filter.mp hc).1 ht n hn
    · have := (mem_numberChunks hc).1.1
      have := h.below n (h.known n hn)
      omega

theorem commit_other {txn txn' : Txn} (hu' : txn.Owned u w txn') {skip : Nat} {a : Database}
    (ha : db.commit txn skip = .ok a) : SameRows t v a db' := by
  obtain ⟨b, hb, hr⟩ := commit_ok ha
  obtain ⟨-, hadmits, rfl⟩ := Database.replaceChunks_ok hr
  rcases Database.update_ok hb with ⟨-, rfl⟩ | ⟨-, -, -, rfl⟩
  · exact h.replace_other hu htu hu'.doomed hu'.chunks hadmits
  · have hpatched := (h.patch_other hu htu hu'.id txn.document.patch)
    -- in the row's own database the same UPDATE would do
    exact hpatched.replace_other (hu.patch txn.document.patch) htu hu'.doomed hu'.chunks hadmits

end Other

end SameRows

end RagPlatform
