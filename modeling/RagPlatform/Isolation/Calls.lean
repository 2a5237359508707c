import RagPlatform.Isolation.Commit
import RagPlatform.Isolation.Names
import RagPlatform.RatelimitLaws

/-! Which requests of a tenant are alike, how they are answered, and that the other tenants'
requests pass it by. -/

namespace RagPlatform

open Lib

/-- What the tenant can tell of `w` is what it can tell of `w'`, where it has been alone. -/
structure SameView (t : Uuid) (v : View) (w w' : World) : Prop where
  rows : SameRows t v w.db w'.db
  credentials : w.credentials = w'.credentials
  usage : w.usageRecords.filter (·.tenantId = t) = w'.usageRecords.filter (·.tenantId = t)
  counters : ∀ window, w.redis.get? (bucket (rateLimitKey t) window) =
    w'.redis.get? (bucket (rateLimitKey t) window)

/-- The requests that come in the same words and get the same answer. -/
def Call.Of (t : Uuid) : Call → Prop
  | .getTenant _ | .getCredential _ | .rollback | .embedDocuments _ | .delay _ | .time | .loopTime
  | .sleep _ | .isDisconnected | .embedQuery _ | .rerank .. | .generate _ | .stream _ => True
  | .sumSizeBytes u | .countDocuments u | .listDocuments u _ _ | .usageRollup u _ => u = t
  | .insertUsage usage => usage.tenantId = t
  | .incr key | .expire key _ => ∃ window, key = bucket (rateLimitKey t) window
  | .insertDocument _ | .getDocument _ | .deleteChunks _ | .commit _ | .deleteDocument _
  | .denseSearch .. | .keywordSearch .. | .findTenant _ | .findCredential _ | .insertCredential _
  | .commitCredential _ => False

def Document.Belongs (t id : Uuid) (d : Document) : Prop := d.id = id ∧ d.tenantId = t

/-- Both databases hold the same row of the tenant, or none of them a row of the tenant. -/
inductive View.Shows (t : Uuid) (v : View) (id : Uuid) : Option Document → Option Document → Prop
  | own {row : Option Document} : id ∈ v.documents → (∀ d ∈ row, d.Belongs t id) →
      Shows t v id row row
  | foreign {row row' : Option Document} : (∀ d ∈ row, d.tenantId ≠ t) →
      (∀ d ∈ row', d.tenantId ≠ t) → Shows t v id row row'

/-- The pairs of alike requests, each with what makes their answers alike. -/
inductive Call.Alike (t : Uuid) (v : View) :
    (c c' : Call) → (View → Reply c → Reply c' → Prop) → Prop
  | same {c : Call} : c.Of t → Alike t v c c fun _ => Eq
  | insertDocument {d : NewDocument} : d.tenantId = t →
      Alike t v (.insertDocument d) (.insertDocument d)
        fun w x x' => x = x' ∧ x.id ∈ w.documents ∧ x.tenantId = t
  | getDocument (id : Uuid) : Alike t v (.getDocument id) (.getDocument id) fun w => w.Shows t id
  | getOwn {id : Uuid} : id ∈ v.documents → Alike t v (.getDocument id) (.getDocument id)
      fun _ x x' => x = x' ∧ ∀ d ∈ x, d.Belongs t id
  | deleteChunks {id : Uuid} : id ∈ v.documents →
      Alike t v (.deleteChunks id) (.deleteChunks id) fun w => w.Relates
  | commit {txn txn' : Txn} : txn.Owned t v txn' → Alike t v (.commit txn) (.commit txn')
      fun _ => Eq
  | deleteDocument {id : Uuid} : id ∈ v.documents →
      Alike t v (.deleteDocument id) (.deleteDocument id) fun _ => Eq
  | denseSearch (e : Embedding) (k : Int) : Alike t v (.denseSearch t e k) (.denseSearch t e k)
      fun w => w.Relates
  | keywordSearch (query : Str) (k : Int) :
      Alike t v (.keywordSearch t query k) (.keywordSearch t query k) fun w => w.Relates

theorem Txn.Owned.mono {t : Uuid} {v w : View} {txn txn' : Txn} (h : txn.Owned t v txn')
    (hvw : v ≤ w) : txn.Owned t w txn' where
  __ := h
  doomed := h.doomed.mono hvw.1
  id := hvw.2 h.id
  chunks n hn := ⟨hvw.2 (h.chunks n hn).1, (h.chunks n hn).2⟩

theorem Call.Alike.mono {t : Uuid} {v w : View} {c c' : Call} {R : View → Reply c → Reply c' → Prop}
    (h : Call.Alike t v c c' R) (hvw : v ≤ w) : Call.Alike t w c c' R := by
  cases h with
  | same h => exact .same h
  | insertDocument h => exact .insertDocument h
  | getDocument id => exact .getDocument id
  | getOwn h => exact .getOwn (hvw.2 h)
  | deleteChunks h => exact .deleteChunks (hvw.2 h)
  | commit h => exact .commit (h.mono hvw)
  | deleteDocument h => exact .deleteDocument (hvw.2 h)
  | denseSearch e k => exact .denseSearch e k
  | keywordSearch q k => exact .keywordSearch q k

theorem Call.Alike.reply_mono {t : Uuid} {v u w : View} {c c' : Call}
    {R : View → Reply c → Reply c' → Prop} (h : Call.Alike t v c c' R) (huw : u ≤ w) {x : Reply c}
    {x' : Reply c'} (hx : R u x x') : R w x x' := by
  cases h with
  | same | getOwn | commit | deleteDocument => exact hx
  | insertDocument => exact ⟨hx.1, huw.2 hx.2.1, hx.2.2⟩
  | getDocument id =>
    cases hx with
    | own hid hrow => exact .own (huw.2 hid) hrow
    | foreign hrow hrow' => exact .foreign hrow hrow'
  | deleteChunks | denseSearch | keywordSearch => exact hx.mono huw.1

def likeness (t : Uuid) : Likeness api View where
  call v c c' ρ := ∃ R, Call.Alike t v c c' R ∧ ρ = fun w => Agree (R w)
  out v (y y' : ServerEvent) := v.Relates y y'
  call_mono hvw h := by
    obtain ⟨R, h, hρ⟩ := h
    exact ⟨R, h.mono hvw, hρ⟩
  out_mono hvw h := h.mono hvw.1

def Call.Fresh (o : Oracle) (w : World) : Call → Prop
  | .insertDocument _ => o.uuid ∉ w.db.issued.map Prod.fst
  | _ => True

namespace SameView

variable {t u : Uuid} {v v' : View} {w w' w'' : World} {o : Oracle}

theorem withDb (h : SameView t v w w') {db db' : Database} (hdb : SameRows t v' db db') :
    SameView t v' { w with db := db } { w' with db := db' } :=
  { h with rows := hdb }

theorem write (h : SameView t v w w') {x x' : Except Exn Database}
    (hx : Agree (fun a b => ∃ u, v ≤ u ∧ SameRows t u a b) x x') : ∃ u, v ≤ u ∧
      SameView t u (w.write () x).1 (w'.write () x').1 ∧
        Agree Eq (w.write () x).2 (w'.write () x').2 := by
  cases hx with
  | ok h' =>
    obtain ⟨u, hvu, hu⟩ := h'
    exact ⟨u, hvu, h.withDb hu, .ok rfl⟩
  | error e => exact ⟨v, le_rfl, h, .error e⟩

theorem insertDocument (h : SameView t v w w') {d : NewDocument} (hd : d.tenantId = t)
    (hfresh : o.uuid ∉ w.db.issued.map Prod.fst) : ∃ u, v ≤ u ∧
      SameView t u (serve o (.insertDocument d) w).1 (serve o (.insertDocument d) w').1 ∧
        Agree (fun x x' => x = x' ∧ x.id ∈ u.documents ∧ x.tenantId = t)
          (serve o (.insertDocument d) w).2 (serve o (.insertDocument d) w').2 := by
  have hagree := h.rows.insertDocument (d := d.row o.uuid o.now) hd hfresh
  simp only [serve]
  generalize w.db.insertDocument _ = x at *
  generalize w'.db.insertDocument _ = x' at *
  cases hagree with
  | ok h' =>
    obtain ⟨u, hvu, hid, hu⟩ := h'
    exact ⟨u, hvu, h.withDb hu, .ok ⟨rfl, hid, hd⟩⟩
  | error e => exact ⟨v, le_rfl, h, .error e⟩

theorem getOwn (h : SameView t v w w') {id : Uuid} (hid : id ∈ v.documents) :
    w.db.document id = w'.db.document id ∧ ∀ d ∈ w.db.document id, d.Belongs t id :=
  ⟨h.rows.document hid, fun _ hd => ⟨Database.document_id hd, h.rows.tenantId_of_mem hid hd⟩⟩

theorem getDocument (h : SameView t v w w') (id : Uuid) :
    v.Shows t id (w.db.document id) (w'.db.document id) := by
  by_cases hid : id ∈ v.documents
  · rw [← (h.getOwn hid).1]
    exact .own hid (h.getOwn hid).2
  · exact .foreign (fun d hd => h.rows.tenantId_of_not_mem hid hd)
      fun d hd => h.rows.tenantId_of_not_mem' hid hd

theorem deleteChunks (h : SameView t v w w') {id : Uuid} (hid : id ∈ v.documents) :
    v.Relates ((w.db.chunksOf id).map (·.id)) ((w'.db.chunksOf id).map (·.id)) := by
  have hchunks := h.rows.chunksOf hid
  refine ⟨?_, ?_⟩
  · rw [hchunks.eq, rename_chunks, List.map_map]
    exact (List.map_map (f := fun c : Chunk => c.id) (g := v.name)).symm
  · rintro n ⟨_, hm, rfl⟩
    obtain ⟨c, hc, rfl⟩ := List.mem_map.mp hm
    exact hchunks.known _ ⟨c, hc, rfl⟩

end SameView

namespace SameRows

variable {t : Uuid} {v : View} {db db' : Database} (h : SameRows t v db db')
include h

theorem mem_documents {c : Chunk} (hc : c ∈ db'.piecesOf t) : c.documentId ∈ v.documents := by
  obtain ⟨hc, ht⟩ := Database.mem_piecesOf.mp hc
  exact (h.owned' _).mpr (ht ▸ h.inScope' c hc)

theorem tenantRows : db.tenantRows t =
    (db'.tenantRows t).map fun x => ({ x.1 with id := v.name x.1.id }, x.2) := by
  change (db.piecesOf t).filterMap db.join = ((db'.piecesOf t).filterMap db'.join).map _
  rw [h.pieces.eq, rename_chunks, List.filterMap_map, List.map_filterMap]
  refine List.filterMap_congr fun c hc => ?_
  simp only [Function.comp_apply, Database.join, h.document (h.mem_documents hc), Option.map_map]
  rfl

theorem known_of_mem {x : Chunk × Document} (hx : x ∈ db'.tenantRows t) : x.1.id ∈ v.known := by
  obtain ⟨c, hc, hx⟩ := List.mem_filterMap.mp hx
  obtain ⟨d, -, rfl⟩ := Option.map_eq_some_iff.mp hx
  exact h.pieces.known _ ⟨c, hc, rfl⟩

theorem denseSearch (distance : Embedding → Embedding → Rat) (e : Embedding) (k : Nat) :
    v.Relates (db.denseSearch t distance e k) (db'.denseSearch t distance e k) := by
  constructor
  · have hsort := List.map_insertionSort
      (fun x y => distance x.1.embedding e ≤ distance y.1.embedding e)
      (fun x y => distance x.1.embedding e ≤ distance y.1.embedding e)
      (fun x : Chunk × Document => ({ x.1 with id := v.name x.1.id }, x.2)) (db'.tenantRows t)
      fun _ _ _ _ => Iff.rfl
    simp only [Database.denseSearch, h.tenantRows, ← hsort, ← List.map_take, List.map_map]
    exact (List.map_map (f := fun x : Chunk × Document =>
      x.1.hit x.2 (1 - distance x.1.embedding e)) (g := Nominal.rename v.name)).symm
  · rintro n ⟨hit, hhit, rfl⟩
    obtain ⟨x, hx, rfl⟩ := List.mem_map.mp hhit
    have hx := List.mem_of_mem_take hx
    exact h.known_of_mem ((List.perm_insertionSort _ _).mem_iff.mp hx)

theorem keywordSearch (rank : Str → Str → Option Rat) (query : Str) (k : Nat) :
    v.Relates (db.keywordSearch t rank query k) (db'.keywordSearch t rank query k) := by
  constructor
  · -- the renaming keeps the order of the ids, which decides between equal ranks
    have hsort (hits : List ChunkHit) := List.map_insertionSort
      (fun x y => y.score < x.score ∨ x.score = y.score ∧ x.chunkId ≤ y.chunkId)
      (fun x y => y.score < x.score ∨ x.score = y.score ∧ x.chunkId ≤ y.chunkId)
      (Nominal.rename v.name : ChunkHit → ChunkHit) hits
      fun x _ y _ => or_congr_right (and_congr_right fun _ => v.strictMono.le_iff_le.symm)
    have hrows : (db.tenantRows t).filterMap (fun x =>
        (rank x.1.content query).map fun r => x.1.hit x.2 r) =
        ((db'.tenantRows t).filterMap fun x => (rank x.1.content query).map fun r =>
          x.1.hit x.2 r).map (Nominal.rename v.name) := by
      rw [h.tenantRows, List.filterMap_map, List.map_filterMap]
      refine List.filterMap_congr fun x _ => ?_
      simp only [Function.comp_apply, Option.map_map]
      rfl
    simp only [Database.keywordSearch, hrows, ← hsort, ← List.map_take]
    rfl
  · rintro n ⟨hit, hhit, rfl⟩
    have hhit := (List.perm_insertionSort _ _).mem_iff.mp (List.mem_of_mem_take hhit)
    obtain ⟨x, hx, hhit⟩ := List.mem_filterMap.mp hhit
    obtain ⟨r, -, rfl⟩ := Option.map_eq_some_iff.mp hhit
    exact h.known_of_mem hx

end SameRows

end RagPlatform
