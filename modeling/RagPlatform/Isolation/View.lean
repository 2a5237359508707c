import Mathlib.Order.Monotone.Basic
import RagPlatform.Lib.Likeness
import RagPlatform.Lib.Renaming
import RagPlatform.Tenancy

/-! The rows of one tenant, seen in a database of many tenants and in one where nobody else has
been active. -/

namespace RagPlatform

open Lib

/-- What the tenant's chunks in the latter are called in the former, and the tenant's documents. -/
structure View extends Renaming Nat where
  strictMono : StrictMono name
  documents : Set Uuid

instance : Preorder View where
  le v w := v.toRenaming ≤ w.toRenaming ∧ v.documents ⊆ w.documents
  le_refl v := ⟨le_rfl, subset_rfl⟩
  le_trans _ _ _ h h' := ⟨h.1.trans h'.1, h.2.trans h'.2⟩

instance : Nominal Nat Nat where
  rename f := f
  Mentions a n := n = a
  rename_congr h := h _ rfl

instance : Nominal Nat Chunk where
  rename f c := { c with id := f c.id }
  Mentions c n := n = c.id
  rename_congr h := by simp only [h _ rfl]

theorem rename_chunks (f : Nat → Nat) (cs : List Chunk) :
    Nominal.rename f cs = cs.map fun c => { c with id := f c.id } := rfl

/-- `db` holds everybody's rows, `db'` those of the tenant's own run. -/
structure SameRows (t : Uuid) (v : View) (db db' : Database) : Prop where
  tenants : db.tenants = db'.tenants
  documents : db.documentsOf t = db'.documentsOf t
  pieces : v.Relates (db.piecesOf t) (db'.piecesOf t)
  inScope : db.Scoped
  inScope' : db'.Scoped
  owned : ∀ id, id ∈ v.documents ↔ (id, t) ∈ db.issued
  owned' : ∀ id, id ∈ v.documents ↔ (id, t) ∈ db'.issued
  issued : ∀ x ∈ db'.issued, x ∈ db.issued
  below : ∀ n < db'.nextChunkId, v.name n < db.nextChunkId
  known : ∀ n ∈ v.known, n < db'.nextChunkId
  apart : ∀ c ∈ db.chunks, c.tenantId ≠ t → ∀ n ∈ v.known, c.id ≠ v.name n
  apart' : ∀ c ∈ db'.chunks, c.tenantId ≠ t → c.id ∉ v.known

namespace SameRows

variable {t : Uuid} {v : View} {db db' : Database} {id : Uuid}

theorem init (db : Database) (t : Uuid) (h : db.Scoped) : ∃ v, SameRows t v db db := by
  let v : View :=
    { name := id
      known := {n | ∃ c ∈ db.piecesOf t, n = c.id}
      strictMono := strictMono_id
      documents := {id | (id, t) ∈ db.issued} }
  have hknown (c : Chunk) (hc : c ∈ db.chunks) (ht : c.tenantId ≠ t) : c.id ∉ v.known := by
    rintro ⟨c', hc', hid⟩
    obtain ⟨hc', ht'⟩ := Database.mem_piecesOf.mp hc'
    exact ht (List.inj_on_of_nodup_map db.chunks_pk hc hc' hid ▸ ht')
  refine ⟨v, rfl, rfl, ⟨?_, fun n hn => hn⟩, h, h, fun _ => Iff.rfl, fun _ => Iff.rfl,
    fun _ hx => hx, fun n hn => hn, ?_, fun c hc ht n hn hid => hknown c hc ht (hid ▸ hn), hknown⟩
  · exact (List.map_id _).symm
  · rintro n ⟨c, hc, rfl⟩
    exact db.chunks_seq c (Database.mem_piecesOf.mp hc).1

variable (h : SameRows t v db db')
include h

theorem document (hid : id ∈ v.documents) : db.document id = db'.document id := by
  rw [Database.document_of_issued ((h.owned id).mp hid),
    Database.document_of_issued ((h.owned' id).mp hid), h.documents]

theorem tenantId_of_mem {d : Document} (hid : id ∈ v.documents) (hd : db.document id = some d) :
    d.tenantId = t :=
  Database.issued_unique (Database.issued_document hd) ((h.owned id).mp hid)

theorem tenantId_of_not_mem {d : Document} (hid : id ∉ v.documents)
    (hd : db.document id = some d) : d.tenantId ≠ t :=
  fun ht => hid ((h.owned id).mpr (ht ▸ Database.issued_document hd))

theorem tenantId_of_not_mem' {d : Document} (hid : id ∉ v.documents)
    (hd : db'.document id = some d) : d.tenantId ≠ t :=
  fun ht => hid ((h.owned' id).mpr (ht ▸ Database.issued_document hd))

theorem chunksOf (hid : id ∈ v.documents) : v.Relates (db.chunksOf id) (db'.chunksOf id) := by
  rw [h.inScope.chunksOf ((h.owned id).mp hid), h.inScope'.chunksOf ((h.owned' id).mp hid)]
  exact h.pieces.filter fun _ _ => rfl

section Own

theorem add {d : Document} (ht : d.tenantId = t) (hf : db.Fits d) (hf' : db'.Fits d) :
    ∃ w, v ≤ w ∧ d.id ∈ w.documents ∧ SameRows t w (db.add d hf) (db'.add d hf') := by
  let w : View := { v with documents := insert d.id v.documents }
  have howned (ids : List (Uuid × Uuid)) (hids : ∀ id, id ∈ v.documents ↔ (id, t) ∈ ids)
      (id : Uuid) : id ∈ w.documents ↔ (id, t) ∈ (d.id, d.tenantId) :: ids := by
    simp [w, hids, ht]
  refine ⟨w, ⟨le_rfl, Set.subset_insert _ _⟩, Set.mem_insert _ _, h.tenants, ?_, h.pieces,
    h.inScope.add hf, h.inScope'.add hf', howned _ h.owned, howned _ h.owned', ?_, h.below, h.known,
    h.apart, h.apart'⟩
  · rw [Database.documentsOf_add, Database.documentsOf_add, h.documents]
  · intro x hx
    rcases List.mem_cons.mp hx with rfl | hx
    · exact List.mem_cons_self
    · exact List.mem_cons_of_mem _ (h.issued x hx)

theorem fits_iff {d : Document} (ht : d.tenantId = t) (hfresh : d.id ∉ db.issued.map Prod.fst) :
    db.Fits d ↔ db'.Fits d := by
  have hfresh' : d.id ∉ db'.issued.map Prod.fst := fun hid => by
    obtain ⟨x, hx, hid⟩ := List.mem_map.mp hid
    exact hfresh (List.mem_map.mpr ⟨x, h.issued x hx, hid⟩)
  have huq (db : Database) : (∀ e ∈ db.documents, (e.tenantId, e.contentSha256) ≠
      (d.tenantId, d.contentSha256)) ↔ ∀ e ∈ db.documentsOf t, e.contentSha256 ≠ d.contentSha256 := by
    simp only [Database.mem_documentsOf, ne_eq, Prod.mk.injEq, not_and, ht, and_imp]
  simp only [Database.Fits, huq, h.documents, h.tenants, hfresh, hfresh', not_false_eq_true,
    true_and]

theorem insertDocument {d : Document} (ht : d.tenantId = t)
    (hfresh : d.id ∉ db.issued.map Prod.fst) :
    Agree (fun a b => ∃ w, v ≤ w ∧ d.id ∈ w.documents ∧ SameRows t w a b) (db.insertDocument d)
      (db'.insertDocument d) := by
  unfold Database.insertDocument
  split
  · by_cases hf : db.Fits d
    · have hf' := (h.fits_iff ht hfresh).mp hf
      rw [dif_pos hf, dif_pos hf']
      exact .ok (h.add ht hf hf')
    · rw [dif_neg hf, dif_neg fun hf' => hf ((h.fits_iff ht hfresh).mpr hf')]
      exact .error _
  · exact .error _

theorem patch (p : Patch) : SameRows t v (db.patch id p) (db'.patch id p) where
  __ := h
  documents := by rw [Database.documentsOf_patch, Database.documentsOf_patch, h.documents]
  pieces := h.pieces
  inScope := h.inScope
  inScope' := h.inScope'

theorem update (hid : id ∈ v.documents) (p : Patch) :
    Agree (SameRows t v) (db.update id p) (db'.update id p) := by
  unfold Database.update
  rw [h.document hid]
  split
  · exact .ok h
  · split
    · exact .error _
    · split
      · exact .error _
      · exact .ok (h.patch p)

theorem deleteDocument (id : Uuid) :
    SameRows t v (db.deleteDocument id) (db'.deleteDocument id) where
  tenants := h.tenants
  documents := by
    rw [Database.documentsOf_deleteDocument, Database.documentsOf_deleteDocument, h.documents]
  pieces := by
    rw [Database.piecesOf_deleteDocument, Database.piecesOf_deleteDocument]
    exact h.pieces.filter fun _ _ => rfl
  inScope := h.inScope.deleteDocument
  inScope' := h.inScope'.deleteDocument
  owned := h.owned
  owned' := h.owned'
  issued := h.issued
  below := h.below
  known := h.known
  apart c hc := h.apart c (List.mem_filter.mp hc).1
  apart' c hc := h.apart' c (List.mem_filter.mp hc).1

end Own

end SameRows

namespace View

/-- After new ids from `start` on have been given out on one side, and from `start'` on here. -/
def extend (v : View) (start start' : Nat) (count : Nat)
    (hbelow : ∀ n < start', v.name n < start) : View where
  name n := if n < start' then v.name n else n - start' + start
  known := v.known ∪ {n | start' ≤ n ∧ n < start' + count}
  strictMono := by
    intro m n hmn
    simp only
    split
    · next hm =>
      split
      · exact v.strictMono hmn
      · have := hbelow m hm; omega
    · next hm => rw [if_neg (by omega)]; omega
  documents := v.documents

variable {v : View} {start start' count : Nat} {hbelow : ∀ n < start', v.name n < start}

theorem extend_of_lt {n : Nat} (h : n < start') : (v.extend start start' count hbelow).name n =
    v.name n := if_pos h

theorem extend_of_le {n : Nat} (h : start' ≤ n) : (v.extend start start' count hbelow).name n =
    n - start' + start := if_neg (by omega)

theorem le_extend (hknown : ∀ n ∈ v.known, n < start') : v ≤ v.extend start start' count hbelow :=
  ⟨⟨Set.subset_union_left, fun n hn => extend_of_lt (hknown n hn)⟩, subset_rfl⟩

theorem relates_numberChunks (added : List NewChunk) (skip : Nat) :
    (v.extend start start' (skip + added.length) hbelow).Relates
      (numberChunks (start + skip) added) (numberChunks (start' + skip) added) := by
  constructor
  · rw [rename_chunks]
    suffices ∀ k, numberChunks (start + k) added = (numberChunks (start' + k) added).map fun c =>
        { c with id := (v.extend start start' (skip + added.length) hbelow).name c.id } from this skip
    generalize skip + added.length = count
    induction added with
    | nil => exact fun _ => rfl
    | cons n added ih =>
      intro k
      simp only [numberChunks, List.map_cons, List.cons.injEq]
      refine ⟨?_, ih (k + 1)⟩
      rw [NewChunk.number, NewChunk.number]
      simp only [extend_of_le (Nat.le_add_right start' k), Chunk.mk.injEq, and_true]
      omega
  · rintro n ⟨c, hc, rfl⟩
    obtain ⟨⟨hlo, hhi⟩, -⟩ := mem_numberChunks hc
    exact .inr ⟨by omega, by omega⟩

end View

namespace SameRows

variable {t : Uuid} {v : View} {db db' : Database}

section Replace

variable {doomed doomed' : List Nat} {added : List NewChunk} {skip : Nat}
variable (h : SameRows t v db db') (hdoomed : v.Relates doomed doomed')
  (hadded : ∀ n ∈ added, n.documentId ∈ v.documents ∧ n.tenantId = t)
include h hdoomed

omit h in
theorem mem_doomed (n : Nat) : v.name n ∈ doomed ↔ n ∈ doomed' := by
  have heq : doomed = doomed'.map v.name := hdoomed.eq
  rw [heq]
  exact List.mem_map_of_injective v.strictMono.injective

theorem pieces_replace {w : View} (hw : v ≤ w) {news news' : List Chunk}
    (hnew : w.Relates news news') : w.Relates (((db.piecesOf t).filter (·.id ∉ doomed)) ++ news)
      (((db'.piecesOf t).filter (·.id ∉ doomed')) ++ news') := by
  refine ((h.pieces.mono hw.1).filter fun c hc => ?_).append hnew
  have hid : w.name c.id = v.name c.id := hw.1.2 c.id (h.pieces.known _ ⟨c, hc, rfl⟩)
  change decide (w.name c.id ∉ doomed) = decide (c.id ∉ doomed')
  simp only [hid, mem_doomed hdoomed]

include hadded

theorem admits_iff : db.Admits doomed added ↔ db'.Admits doomed' added := by
  rw [Database.admits_iff h.inScope fun n hn => (h.owned _).mp (hadded n hn).1,
    Database.admits_iff h.inScope' fun n hn => (h.owned' _).mp (hadded n hn).1]
  refine and_congr (forall₂_congr fun n hn => ?_) (and_congr_right fun _ => ?_)
  · rw [h.document (hadded n hn).1]
  · rw [h.pieces.eq, rename_chunks, List.forall_mem_map]
    exact forall₂_congr fun c _ => imp_congr (not_congr (mem_doomed hdoomed c.id)) Iff.rfl

omit h hdoomed in
theorem old_of_foreign {ha : db.Admits doomed added} {c : Chunk}
    (hc : c ∈ (db.replace doomed added skip ha).chunks) (ht : c.tenantId ≠ t) : c ∈ db.chunks := by
  rcases List.mem_append.mp hc with hc | hc
  · exact (List.mem_filter.mp hc).1
  · exact absurd (Database.numberChunks_tenant (fun n hn => (hadded n hn).2) _ c hc) ht

theorem replace (ha : db.Admits doomed added) (ha' : db'.Admits doomed' added) :
    ∃ w, v ≤ w ∧
      SameRows t w (db.replace doomed added skip ha) (db'.replace doomed' added skip ha') := by
  let w := v.extend db.nextChunkId db'.nextChunkId (skip + added.length) h.below
  have hw : v ≤ w := View.le_extend h.known
  have hnew : w.Relates (numberChunks (db.nextChunkId + skip) added)
      (numberChunks (db'.nextChunkId + skip) added) := View.relates_numberChunks added skip
  have hown (start : Nat) : (numberChunks start added).filter (·.tenantId = t) =
      numberChunks start added := List.filter_eq_self.mpr fun c hc =>
    decide_eq_true (Database.numberChunks_tenant (fun n hn => (hadded n hn).2) start c hc)
  have hissued (ids : List (Uuid × Uuid)) (hids : ∀ id, id ∈ v.documents ↔ (id, t) ∈ ids) :
      ∀ n ∈ added, (n.documentId, n.tenantId) ∈ ids := fun n hn => by
    rw [(hadded n hn).2]
    exact (hids _).mp (hadded n hn).1
  refine ⟨w, hw, h.tenants, h.documents, ?_, h.inScope.replace ha (hissued _ h.owned),
    h.inScope'.replace ha' (hissued _ h.owned'), h.owned, h.owned', h.issued, ?_, ?_, ?_, ?_⟩
  · rw [Database.piecesOf_replace, Database.piecesOf_replace, hown, hown]
    exact h.pieces_replace hdoomed hw hnew
  · intro n (hn : n < db'.nextChunkId + skip + added.length)
    change w.name n < db.nextChunkId + skip + added.length
    by_cases hlt : n < db'.nextChunkId
    · have := h.below n hlt
      rw [View.extend_of_lt hlt]
      omega
    · rw [View.extend_of_le (by omega)]
      omega
  · intro n hn
    change n < db'.nextChunkId + skip + added.length
    rcases hn with hn | ⟨-, hn⟩
    · have := h.known n hn
      omega
    · omega
  · intro c hc ht n hn
    have hold := old_of_foreign hadded hc ht
    rcases hn with hn | ⟨hn, -⟩
    · rw [View.extend_of_lt (h.known n hn)]
      exact h.apart c hold ht n hn
    · have := db.chunks_seq c hold
      rw [View.extend_of_le hn]
      omega
  · intro c hc ht hn
    have hold := old_of_foreign hadded hc ht
    rcases hn with hn | ⟨hn, -⟩
    · exact h.apart' c hold ht hn
    · have := db'.chunks_seq c hold
      omega

theorem replaceChunks : Agree (fun a b => ∃ w, v ≤ w ∧ SameRows t w a b)
    (db.replaceChunks doomed added skip) (db'.replaceChunks doomed' added skip) := by
  unfold Database.replaceChunks
  split
  · by_cases ha : db.Admits doomed added
    · have ha' := (h.admits_iff hdoomed hadded).mp ha
      rw [dif_pos ha, dif_pos ha']
      exact .ok (h.replace hdoomed hadded ha ha')
    · rw [dif_neg ha, dif_neg fun ha' => ha ((h.admits_iff hdoomed hadded).mpr ha')]
      exact .error _
  · exact .error _

end Replace

end SameRows

end RagPlatform
