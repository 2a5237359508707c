import RagPlatform.Retrieval.Inquiry

/-! What the lists of an inquiry bring, row by row. -/

namespace RagPlatform

open Lib

namespace Inquiry

variable {q : Inquiry} {x y : Chunk × Document} {τ : List (Chunk × Document)}

theorem nodup_rows : q.rows.Nodup := .of_map _ (q.db.nodup_tenantRows q.tenantId)

theorem eq_of_id (hx : x ∈ q.rows) (hy : y ∈ q.rows) (h : x.1.id = y.1.id) : x = y :=
  Database.eq_of_tenantRows hx hy h

variable (q) in
/-- The place of a row in the dense list, for an order of the rows. -/
def placeIn (τ : List (Chunk × Document)) (x : Chunk × Document) : Option Nat :=
  if τ.idxOf x < q.depth then some (τ.idxOf x) else none

theorem isSome_placeIn : (q.placeIn τ x).isSome = decide (τ.idxOf x < q.depth) := by
  unfold placeIn
  split
  · next h => simp [h]
  · next h => simp [h]

variable (q) in
def hit (x : Chunk × Document) : ChunkHit := x.1.hit x.2 (1 - q.distance x)

variable (q) in
def dense (τ : List (Chunk × Document)) : List ChunkHit := (τ.take q.depth).map q.hit

section

variable (hτ : Arranges q.distance q.rows τ)
include hτ

theorem mem_rows_of_dense (hx : x ∈ τ.take q.depth) : x ∈ q.rows :=
  hτ.perm.mem_iff.mp (List.mem_of_mem_take hx)

theorem nodup_dense : (idsOf (q.dense τ)).Nodup := by
  have hids : (τ.map (·.1.id)).Nodup :=
    (hτ.perm.map _).nodup_iff.mpr (q.db.nodup_tenantRows q.tenantId)
  unfold idsOf dense
  rw [List.map_map, List.map_take]
  exact hids.sublist (List.take_sublist ..)

theorem idxOf?_first (hx : x ∈ q.rows) : (τ.take q.depth).idxOf? x = q.placeIn τ x :=
  idxOf?_take (hτ.perm.mem_iff.mpr hx) q.depth

theorem placeIn_dense (hx : x ∈ q.rows) :
    RagPlatform.placeIn (idsOf (q.dense τ)) x.1.id = q.placeIn τ x := by
  unfold idsOf dense RagPlatform.placeIn
  rw [List.map_map, ← idxOf?_first hτ hx]
  exact idxOf?_map fun y hy => eq_of_id (mem_rows_of_dense hτ hy) hx

theorem scoreIn_dense (hx : x ∈ q.rows) :
    scoreIn (q.dense τ) x.1.id = (q.placeIn τ x).map fun _ => 1 - q.distance x := by
  have hscore (ys : List (Chunk × Document)) (hys : ∀ y ∈ ys, y ∈ q.rows) :
      scoreIn (ys.map q.hit) x.1.id = (ys.idxOf? x).map fun _ => 1 - q.distance x := by
    induction ys with
    | nil => rfl
    | cons y ys ih =>
      obtain ⟨hy, hrest⟩ := List.forall_mem_cons.mp hys
      have hhit : (q.hit y).chunkId = y.1.id := rfl
      rw [List.idxOf?_cons, scoreIn, List.map_cons, List.find?_cons, hhit]
      by_cases h : y = x
      · subst h
        simp [hit, Chunk.hit]
      · have hne : y.1.id ≠ x.1.id := fun hid => h (eq_of_id hy hx hid)
        simpa [scoreIn, h, hne, Function.comp_def] using ih hrest
  rw [← idxOf?_first hτ hx]
  exact hscore _ fun y hy => mem_rows_of_dense hτ hy

theorem brings_dense (hx : x ∈ q.rows) :
    x.1.id ∈ idsOf (q.dense τ) ↔ (q.placeIn τ x).isSome = true := by
  rw [← mem_iff_placeIn, placeIn_dense hτ hx]

end

theorem keyword_subset : ∃ hits, q.keyword.Sublist hits ∧
    hits.Perm (q.db.matching q.scoring q.tenantId q.query) := by
  unfold keyword
  split
  · exact ⟨_, List.nil_sublist _, .refl _⟩
  · exact ⟨_, List.take_sublist .., List.perm_insertionSort ..⟩

theorem nodup_keyword : (idsOf q.keyword).Nodup := by
  obtain ⟨hits, hsub, hperm⟩ := q.keyword_subset
  exact ((hperm.map _).nodup_iff.mpr (q.db.nodup_matching ..)).sublist (hsub.map _)

theorem mem_keyword {hit : ChunkHit} (h : hit ∈ q.keyword) :
    ∃ x ∈ q.rows, ∃ r, hit = x.1.hit x.2 r := by
  obtain ⟨hits, hsub, hperm⟩ := q.keyword_subset
  obtain ⟨x, hx, r, -, rfl⟩ := Database.mem_matching (hperm.mem_iff.mp (hsub.mem h))
  exact ⟨x, hx, r, rfl⟩

variable (q) in
def text (id : Nat) : Str := ((q.rows.find? (·.1.id = id)).map (·.1.content)).getD []

theorem text_of_mem (hx : x ∈ q.rows) : q.text x.1.id = x.1.content := by
  obtain ⟨y, hy⟩ := Option.isSome_iff_exists.mp
    (List.find?_isSome.mpr ⟨x, hx, decide_eq_true rfl⟩ : (q.rows.find? (·.1.id = x.1.id)).isSome)
  have hid : y.1.id = x.1.id := by simpa using List.find?_some hy
  rw [text, hy, eq_of_id (List.mem_of_find?_eq_some hy) hx hid]
  rfl

def lists (hτ : Arranges q.distance q.rows τ) : Lists where
  mode := q.mode
  dense := q.dense τ
  keyword := q.keyword
  dense_out hm := by
    have hdepth : q.depth = 0 := if_pos hm
    rw [dense, hdepth]
    rfl
  keyword_out hm := if_pos hm
  dense_nodup := nodup_dense hτ
  keyword_nodup := nodup_keyword

variable (hτ : Arranges q.distance q.rows τ)
include hτ

theorem brings_lists (hx : x ∈ q.rows) :
    (lists hτ).Brings x.1.id ↔ q.candidate (q.placeIn τ x) x = true := by
  rw [candidate, Bool.or_eq_true, ← brings_dense hτ hx, keywordPlace, mem_iff_placeIn]
  rfl

theorem exists_row {id : Nat} (h : (lists hτ).Brings id) : ∃ x ∈ q.rows, x.1.id = id := by
  rcases h with h | h
  · obtain ⟨_, hhit, rfl⟩ := List.mem_map.mp h
    obtain ⟨x, hx, rfl⟩ := List.mem_map.mp hhit
    exact ⟨x, mem_rows_of_dense hτ hx, rfl⟩
  · obtain ⟨_, hhit, rfl⟩ := List.mem_map.mp h
    obtain ⟨x, hx, r, rfl⟩ := mem_keyword hhit
    exact ⟨x, hx, rfl⟩

theorem content_lists (hit : ChunkHit) (h : hit ∈ (lists hτ).dense ∨ hit ∈ (lists hτ).keyword) :
    hit.content = q.text hit.chunkId := by
  rcases h with h | h
  · obtain ⟨x, hx, rfl⟩ := List.mem_map.mp h
    exact (text_of_mem (mem_rows_of_dense hτ hx)).symm
  · obtain ⟨x, hx, r, rfl⟩ := mem_keyword h
    exact (text_of_mem hx).symm

theorem rrfScore_lists (hx : x ∈ q.rows) : (lists hτ).rrfScore q.svc.rrfK x.1.id =
    rrfTerm q.svc.rrfK (q.placeIn τ x) + rrfTerm q.svc.rrfK (q.keywordPlace x) := by
  rw [← placeIn_dense hτ hx]
  rfl

theorem finalMark_lists (hx : x ∈ q.rows) :
    (lists hτ).finalMark q.svc (q.scoring.rerank q.query) q.text x.1.id =
      q.mark (q.placeIn τ x) x := by
  unfold Lists.finalMark mark
  rw [text_of_mem hx, ← placeIn_dense hτ hx]
  rfl

theorem breakdown_lists (hx : x ∈ q.rows) :
    (lists hτ).breakdown q.svc (q.scoring.rerank q.query) q.text x.1.id =
      q.breakdown (q.placeIn τ x) x := by
  unfold Lists.breakdown breakdown RetrievalService.rerankScore Lists.rrfNote rrfNote Lists.base
  rw [text_of_mem hx, rrfScore_lists hτ hx, ← scoreIn_dense hτ hx]
  rfl

theorem divides_lists :
    Divides q.svc.rrfK (idsOf (lists hτ).dense) (idsOf (lists hτ).keyword) ↔ ∃ i : Nat,
      (i < min q.depth q.rows.length ∨ i < q.keyword.length) ∧ q.svc.rrfK + i + 1 = 0 := by
  have hdense : (idsOf (lists hτ).dense).length = min q.depth q.rows.length := by
    simp [idsOf, lists, dense, hτ.perm.length_eq]
  have hkeyword : (idsOf (lists hτ).keyword).length = q.keyword.length := List.length_map _
  unfold Divides
  rw [hdense, hkeyword]

omit hτ

abbrev Order (q : Inquiry) : Type := { τ // Arranges q.distance q.rows τ }

variable (q) in
def ranking : Ranking q.Order (Chunk × Document) (Option Nat) (Ratᵒᵈ ×ₗ Nat) (Dict Str Rat) where
  elements := q.rows
  place e := q.placeIn e.1
  candidate := q.candidate
  key := q.key
  entry := q.breakdown

theorem exists_order (e : q.Order) : ∃ order, q.ranking.Orders e order :=
  Ranking.exists_orders e nodup_rows fun _ hx _ hy h => eq_of_id hx hy (rankKey_inj h)

theorem upTo_limit {α : Type} (xs : List α) :
    upTo xs (q.svc.limit q.topN) = xs.take (q.kept xs.length) := by
  unfold upTo kept
  split
  · exact List.take_eq_take_min
  · rfl

theorem nodup_ids {order : List (Chunk × Document)} {e : q.Order} (h : q.ranking.Orders e order) :
    (order.map (·.1.id)).Nodup :=
  ((h.perm.map _).nodup_iff).mpr
    ((q.db.nodup_tenantRows q.tenantId).sublist (List.filter_sublist.map _))

variable (q) in
def outcome (e : q.Order) : Except Exn (List RetrievedChunk) :=
  q.svc.conclude q.mode (q.svc.limit q.topN) (q.scoring.rerank q.query) (lists e.2).sources

theorem outcome_ok {e : q.Order} {order : List (Chunk × Document)}
    (h : ¬ q.Refused) (horder : q.ranking.Orders e order) :
    ∃ chunks, q.outcome e = .ok chunks ∧ chunks.map brief =
      (q.ranking.shown (q.kept order.length) e order).map fun x => (x.1.1.id, x.2) := by
  have hrow {x : Chunk × Document} (hx : x ∈ order) : x ∈ q.rows := (horder.mem_iff.mp hx).1
  obtain ⟨ordered, chunks, hok, hbrief, hnodup, hmem, hsorted⟩ := Lists.conclude_ok
    (l := lists e.2) (fun hm => mt (divides_lists e.2).mp fun hzero => h (.inr (.inr ⟨hm, hzero⟩)))
    (content_lists e.2) (q.svc.limit q.topN)
  have hids : ordered = order.map (·.1.id) := by
    have hperm : ordered.Perm (order.map (·.1.id)) := by
      refine (List.perm_ext_iff_of_nodup hnodup (nodup_ids horder)).mpr fun id => ?_
      rw [hmem, List.mem_map]
      constructor
      · intro hbrings
        obtain ⟨x, hx, rfl⟩ := exists_row e.2 hbrings
        exact ⟨x, horder.mem_iff.mpr ⟨hx, (brings_lists e.2 hx).mp hbrings⟩, rfl⟩
      · rintro ⟨x, hx, rfl⟩
        exact (brings_lists e.2 (hrow hx)).mpr (horder.mem_iff.mp hx).2
    refine hperm.eq_of_pairwise (fun _ _ _ _ h₁ h₂ => absurd h₁ h₂.asymm) hsorted ?_
    rw [List.pairwise_map]
    refine horder.sorted.imp_of_mem fun {x y} hx hy hlt => ?_
    rw [finalMark_lists e.2 (hrow hx), finalMark_lists e.2 (hrow hy)]
    exact hlt
  refine ⟨chunks, hok, hbrief.trans ?_⟩
  rw [upTo_limit, hids, List.length_map, ← List.map_take, List.map_map, Ranking.shown, List.map_map]
  refine List.map_congr_left fun x hx => ?_
  exact congrArg _ (breakdown_lists e.2 (hrow (List.mem_of_mem_take hx)))

theorem outcome_error {e : q.Order} (h : q.mode = .hybrid ∧ ∃ i : Nat,
    (i < min q.depth q.rows.length ∨ i < q.keyword.length) ∧ q.svc.rrfK + i + 1 = 0) :
    q.outcome e = .error zeroDivision :=
  Lists.conclude_error (l := lists e.2) h.1 ((divides_lists e.2).mpr h.2)

theorem mayDense_iff (hm : q.mode ≠ .keyword) {hits : List ChunkHit} :
    q.db.MayDense q.scoring q.tenantId (q.scoring.embed q.query) q.svc.kDense.toNat hits ↔
      ∃ e : q.Order, hits = q.dense e.1 := by
  have hdepth : q.depth = q.svc.kDense.toNat := if_neg hm
  unfold dense
  rw [hdepth]
  exact ⟨fun ⟨τ, hτ, h⟩ => ⟨⟨τ, hτ⟩, h⟩, fun ⟨e, h⟩ => ⟨e.1, e.2, h⟩⟩

theorem mayKeyword_iff (hm : q.mode ≠ .dense) {hits : List ChunkHit} :
    q.db.MayKeyword q.scoring q.tenantId q.query q.svc.kKeyword.toNat hits ↔ hits = q.keyword := by
  have hkeyword : q.keyword = _ := if_neg hm
  rw [hkeyword]
  exact Database.mayKeyword_iff ..

theorem maySources_iff {s : List (Str × List ChunkHit)} :
    MaySources q.db q.scoring q.tenantId q.query q.svc q.mode s ↔
      ∃ e : q.Order, s = (lists e.2).sources := by
  simp only [Lists.sources, lists]
  cases hm : q.mode with
  | hybrid =>
    constructor
    · rintro ⟨dense, keyword, hdense, hkeyword, rfl⟩
      obtain ⟨e, rfl⟩ := (mayDense_iff (by simp [hm])).mp hdense
      rw [(mayKeyword_iff (by simp [hm])).mp hkeyword]
      exact ⟨e, rfl⟩
    · rintro ⟨e, rfl⟩
      exact ⟨_, _, (mayDense_iff (by simp [hm])).mpr ⟨e, rfl⟩,
        (mayKeyword_iff (by simp [hm])).mpr rfl, rfl⟩
  | dense =>
    constructor
    · rintro ⟨dense, hdense, rfl⟩
      obtain ⟨e, rfl⟩ := (mayDense_iff (by simp [hm])).mp hdense
      exact ⟨e, rfl⟩
    · rintro ⟨e, rfl⟩
      exact ⟨_, (mayDense_iff (by simp [hm])).mpr ⟨e, rfl⟩, rfl⟩
  | keyword =>
    obtain ⟨τ, hτ⟩ := Arranges.exists_arranges q.distance q.rows
    constructor
    · rintro ⟨keyword, hkeyword, rfl⟩
      rw [(mayKeyword_iff (by simp [hm])).mp hkeyword]
      exact ⟨⟨τ, hτ⟩, rfl⟩
    · rintro ⟨e, rfl⟩
      exact ⟨_, (mayKeyword_iff (by simp [hm])).mpr rfl, rfl⟩

theorem mayReturn_iff (hquery : q.query.strip ≠ []) (hneg : ¬ q.svc.Negative q.mode)
    {b : Except Exn (List RetrievedChunk)} : q.MayReturn b ↔ ∃ e, b = q.outcome e := by
  refine (returns_search hquery hneg).trans ?_
  simp only [maySources_iff]
  constructor
  · rintro ⟨s, ⟨e, rfl⟩, hb⟩
    exact ⟨e, hb⟩
  · rintro ⟨e, hb⟩
    exact ⟨_, ⟨e, rfl⟩, hb⟩

end Inquiry

end RagPlatform
