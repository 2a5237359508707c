import RagPlatform.Lib.Replay
import RagPlatform.Lib.Ties
import RagPlatform.Retrieval.ServiceLaws

/-! What a search may return, where a statement may return its rows in any order that its
ORDER BY allows. -/

namespace RagPlatform

open Lib

/-- An embedder, a distance, a text rank and a reranker that scores pairs, all deterministic. -/
structure Scoring where
  embed : Str → Embedding
  cosineDistance : Embedding → Embedding → Rat
  tsRank : Str → Str → Option Rat
  rerank : Str → Str → Rat

namespace Database

variable (db : Database) (scoring : Scoring) (tenantId : Uuid)

/-- `ORDER BY distance LIMIT k` -/
def MayDense (queryEmbedding : Embedding) (k : Nat) (hits : List ChunkHit) : Prop :=
  ∃ rows, Arranges (fun x => scoring.cosineDistance x.1.embedding queryEmbedding)
    (db.tenantRows tenantId) rows ∧
    hits = (rows.take k).map fun x =>
      x.1.hit x.2 (1 - scoring.cosineDistance x.1.embedding queryEmbedding)

def matching (query : Str) : List ChunkHit :=
  (db.tenantRows tenantId).filterMap fun x =>
    (scoring.tsRank x.1.content query).map fun r => x.1.hit x.2 r

/-- `ORDER BY rank DESC, id LIMIT k` -/
def MayKeyword (query : Str) (k : Nat) (hits : List ChunkHit) : Prop :=
  ∃ rows, Arranges (fun hit : ChunkHit => rankKey hit.score hit.chunkId)
    (db.matching scoring tenantId query) rows ∧ hits = rows.take k

theorem map_filterMap_sublist {α β κ : Type} {g : α → Option β} {f : α → κ} {f' : β → κ}
    (h : ∀ x y, g x = some y → f' y = f x) (xs : List α) :
    ((xs.filterMap g).map f').Sublist (xs.map f) := by
  induction xs with
  | nil => exact .slnil
  | cons x xs ih =>
    cases hx : g x with
    | none =>
      rw [List.filterMap_cons_none hx, List.map_cons]
      exact ih.cons _
    | some y =>
      rw [List.filterMap_cons_some hx, List.map_cons, List.map_cons, h x y hx]
      exact ih.cons_cons _

theorem nodup_tenantRows : ((db.tenantRows tenantId).map (·.1.id)).Nodup := by
  have hjoin (c : Chunk) (x : Chunk × Document) (hx : db.join c = some x) : x.1.id = c.id := by
    obtain ⟨d, -, rfl⟩ := Option.map_eq_some_iff.mp hx
    rfl
  exact db.chunks_pk.sublist ((map_filterMap_sublist hjoin _).trans (List.filter_sublist.map _))

variable {db tenantId} in
theorem eq_of_tenantRows {x y : Chunk × Document} (hx : x ∈ db.tenantRows tenantId)
    (hy : y ∈ db.tenantRows tenantId) (h : x.1.id = y.1.id) : x = y :=
  List.inj_on_of_nodup_map (db.nodup_tenantRows tenantId) hx hy h

variable {db scoring tenantId} in
theorem mem_matching {query : Str} {hit : ChunkHit} (h : hit ∈ db.matching scoring tenantId query) :
    ∃ x ∈ db.tenantRows tenantId, ∃ r, scoring.tsRank x.1.content query = some r ∧
      hit = x.1.hit x.2 r := by
  obtain ⟨x, hx, hhit⟩ := List.mem_filterMap.mp h
  obtain ⟨r, hr, rfl⟩ := Option.map_eq_some_iff.mp hhit
  exact ⟨x, hx, r, hr, rfl⟩

theorem nodup_matching (query : Str) :
    ((db.matching scoring tenantId query).map (·.chunkId)).Nodup := by
  refine (db.nodup_tenantRows tenantId).sublist (map_filterMap_sublist (fun x hit h => ?_) _)
  obtain ⟨r, -, rfl⟩ := Option.map_eq_some_iff.mp h
  rfl

theorem mayKeyword_iff {query : Str} {k : Nat} {hits : List ChunkHit} :
    db.MayKeyword scoring tenantId query k hits ↔
      hits = db.keywordSearch tenantId scoring.tsRank query k := by
  have hsort := Arranges.insertionSort (fun hit : ChunkHit => rankKey hit.score hit.chunkId)
    (db.matching scoring tenantId query)
  have hinj (hit : ChunkHit) (hhit : hit ∈ db.matching scoring tenantId query) (hit' : ChunkHit)
      (hhit' : hit' ∈ db.matching scoring tenantId query)
      (h : rankKey hit.score hit.chunkId = rankKey hit'.score hit'.chunkId) : hit = hit' := by
    obtain ⟨x, hx, r, hr, rfl⟩ := mem_matching hhit
    obtain ⟨y, hy, r', hr', rfl⟩ := mem_matching hhit'
    obtain rfl := eq_of_tenantRows hx hy (rankKey_inj h)
    rw [Option.some.inj (hr.symm.trans hr')]
  have heq : db.keywordSearch tenantId scoring.tsRank query k =
      ((db.matching scoring tenantId query).insertionSort fun hit hit' =>
        rankKey hit.score hit.chunkId ≤ rankKey hit'.score hit'.chunkId).take k := by
    simp only [rankKey_le]
    rfl
  rw [heq]
  constructor
  · rintro ⟨rows, hrows, rfl⟩
    rw [hrows.eq_of_injective hsort hinj]
  · rintro rfl
    exact ⟨_, hsort, rfl⟩

theorem mayDense_denseSearch (queryEmbedding : Embedding) (k : Nat) :
    db.MayDense scoring tenantId queryEmbedding k
      (db.denseSearch tenantId scoring.cosineDistance queryEmbedding k) :=
  ⟨_, .insertionSort _ _, rfl⟩

def Permits : (r : api.Req) → api.Resp r → Prop
  | Call.embedQuery text, x => x = .ok (scoring.embed text)
  | Call.denseSearch tenantId queryEmbedding k, x =>
    if k < 0 then x = .error .data
    else ∃ hits, x = .ok hits ∧ db.MayDense scoring tenantId queryEmbedding k.toNat hits
  | Call.keywordSearch tenantId query k, x =>
    if k < 0 then x = .error .data
    else ∃ hits, x = .ok hits ∧ db.MayKeyword scoring tenantId query k.toNat hits
  | Call.rerank query texts, x => x = .ok (texts.map (scoring.rerank query))
  | _, _ => True

end Database

structure Oracle.Computes (o : Oracle) (scoring : Scoring) : Prop where
  fault : o.fault = none
  embedQuery : ∀ text, o.embedQuery text = .ok (scoring.embed text)
  cosineDistance : o.cosineDistance = scoring.cosineDistance
  tsRank : o.tsRank = scoring.tsRank
  rerank : ∀ query texts, o.rerank query texts = .ok (texts.map (scoring.rerank query))

theorem permits_exec {o : Oracle} {scoring : Scoring} (h : o.Computes scoring) (c : Call) (w : World) :
    w.db.Permits scoring c (exec o c w).2 := by
  unfold exec
  rw [h.fault]
  cases c with
  | embedQuery text => exact h.embedQuery text
  | denseSearch tenantId e k =>
    change (if k < 0 then limited k _ = _ else _)
    split
    · next hk => exact if_pos hk
    · next hk =>
      refine ⟨_, if_neg hk, ?_⟩
      rw [h.cosineDistance]
      exact w.db.mayDense_denseSearch scoring tenantId e k.toNat
  | keywordSearch tenantId query k =>
    change (if k < 0 then limited k _ = _ else _)
    split
    · next hk => exact if_pos hk
    · next hk =>
      refine ⟨_, if_neg hk, ?_⟩
      rw [h.tsRank]
      exact (w.db.mayKeyword_iff scoring tenantId).mpr rfl
  | rerank query texts => exact h.rerank query texts
  | _ => trivial

section Search

variable {db : Database} {scoring : Scoring} {tenantId : Uuid} {query : Str}
  {svc : RetrievalService}

theorem returns_perform {c : Call} {x : Except Exn (Reply c)} :
    ReturnsE (db.Permits scoring) (perform c) x ↔ db.Permits scoring c x :=
  ⟨fun ⟨_, hx, heq⟩ => heq ▸ hx, fun h => ⟨x, h, rfl⟩⟩

theorem length_of_mapM {α β : Type} {f : α → Except Exn β} {xs : List α} {ys : List β}
    (h : xs.mapM f = .ok ys) : ys.length = xs.length := by
  induction xs generalizing ys with
  | nil =>
    cases h
    rfl
  | cons x xs ih =>
    rw [List.mapM_cons] at h
    cases hx : f x with
    | error e =>
      rw [hx] at h
      cases h
    | ok y =>
      cases hxs : xs.mapM f with
      | error e =>
        rw [hx, hxs] at h
        cases h
      | ok ys' =>
        rw [hx, hxs] at h
        cases h
        rw [List.length_cons, List.length_cons, ih hxs]

theorem returns_perform_bind {β : Type} {c : Call} {f : Reply c → Io β} {b : Except Exn β} :
    ReturnsE (db.Permits scoring) (perform c >>= f) b ↔
      (∃ a, db.Permits scoring c (.ok a) ∧ ReturnsE (db.Permits scoring) (f a) b) ∨
        ∃ e, db.Permits scoring c (.error e) ∧ b = .error e := by
  rw [returnsE_bind]
  simp only [returns_perform]

theorem returns_rerank {g : Gathered} {ordered : List Nat} {x : Except Exn (Gathered × List Nat)} :
    ReturnsE (db.Permits scoring) (svc.rerank query g ordered) x ↔
      x = svc.rescore (scoring.rerank query) g ordered := by
  unfold RetrievalService.rerank RetrievalService.rescore
  split
  · exact returnsE_pure
  · cases hcontents : ordered.mapM g.content with
    | error e => exact returnsE_throw
    | ok contents =>
      have hlen : (contents.map (scoring.rerank query)).length = ordered.length := by
        rw [List.length_map, length_of_mapM hcontents]
      have hgiven : ReturnsE (db.Permits scoring)
          (if (contents.map (scoring.rerank query)).length ≠ ordered.length then raise .value
            else return g.reranked ordered (contents.map (scoring.rerank query))) x ↔
          x = .ok (g.reranked ordered (contents.map (scoring.rerank query))) := by
        rw [if_neg (not_not_intro hlen)]
        exact returnsE_pure
      change ReturnsE (db.Permits scoring) (perform _ >>= _) x ↔ _
      rw [returns_perform_bind]
      constructor
      · rintro (⟨given, hperm, h⟩ | ⟨e, hperm, -⟩)
        · cases hperm
          exact hgiven.mp h
        · cases hperm
      · intro h
        exact .inl ⟨_, rfl, hgiven.mpr h⟩

variable (db scoring tenantId query) in
def MaySources (svc : RetrievalService) : SearchMode → List (Str × List ChunkHit) → Prop
  | .hybrid, s => ∃ dense keyword,
    db.MayDense scoring tenantId (scoring.embed query) svc.kDense.toNat dense ∧
    db.MayKeyword scoring tenantId query svc.kKeyword.toNat keyword ∧
    s = [("dense_cosine_sim".toList, dense), ("keyword_ts_rank".toList, keyword)]
  | .dense, s => ∃ dense,
    db.MayDense scoring tenantId (scoring.embed query) svc.kDense.toNat dense ∧
    s = [("dense_cosine_sim".toList, dense)]
  | .keyword, s => ∃ keyword,
    db.MayKeyword scoring tenantId query svc.kKeyword.toNat keyword ∧
    s = [("keyword_ts_rank".toList, keyword)]

def RetrievalService.Negative (svc : RetrievalService) (mode : SearchMode) : Prop :=
  mode ≠ .keyword ∧ svc.kDense < 0 ∨ mode ≠ .dense ∧ svc.kKeyword < 0

theorem returns_statement {β : Type} {c : Call} {k : Int} {May : Reply c → Prop}
    (hc : ∀ x : Except Exn (Reply c), db.Permits scoring c x ↔
      if k < 0 then x = .error .data else ∃ hits, x = .ok hits ∧ May hits)
    {f : Reply c → Io β} {b : Except Exn β} :
    ReturnsE (db.Permits scoring) (perform c >>= f) b ↔
      if k < 0 then b = .error .data
      else ∃ hits, May hits ∧ ReturnsE (db.Permits scoring) (f hits) b := by
  refine (returns_perform_bind.trans (or_congr (exists_congr fun a => and_congr_left' (hc (.ok a)))
    (exists_congr fun e => and_congr_left' (hc (.error e))))).trans ?_
  by_cases hk : k < 0
  · simp [hk]
  · simp [hk]

/-- After a part that may return each of the values `g a`. -/
theorem returns_bind_of {α β γ : Type} {q : Io α} {g : γ → α} {May : γ → Prop}
    (hq : ∀ {x}, ReturnsE (db.Permits scoring) q x ↔ ∃ a, May a ∧ x = .ok (g a)) {f : α → Io β}
    {b : Except Exn β} :
    ReturnsE (db.Permits scoring) (q >>= f) b ↔
      ∃ a, May a ∧ ReturnsE (db.Permits scoring) (f (g a)) b := by
  rw [returnsE_bind]
  constructor
  · rintro (⟨x, hx, h⟩ | ⟨e, he, -⟩)
    · obtain ⟨a, ha, heq⟩ := hq.mp hx
      cases heq
      exact ⟨a, ha, h⟩
    · obtain ⟨a, -, heq⟩ := hq.mp he
      cases heq
  · rintro ⟨a, ha, h⟩
    exact .inl ⟨g a, hq.mpr ⟨a, ha, rfl⟩, h⟩

theorem returns_bind_error {α β : Type} {q : Io α} {e : Exn}
    (hq : ∀ {x}, ReturnsE (db.Permits scoring) q x ↔ x = .error e) {f : α → Io β}
    {b : Except Exn β} : ReturnsE (db.Permits scoring) (q >>= f) b ↔ b = .error e := by
  rw [returnsE_bind]
  constructor
  · rintro (⟨a, ha, -⟩ | ⟨e', he, h⟩)
    · cases hq.mp ha
    · cases hq.mp he
      exact h
  · intro h
    exact .inr ⟨e, hq.mpr rfl, h⟩

theorem returns_denseSource {b : Except Exn (Str × List ChunkHit)} :
    ReturnsE (db.Permits scoring) (svc.denseSource tenantId query) b ↔
      if svc.kDense < 0 then b = .error .data
      else ∃ hits, db.MayDense scoring tenantId (scoring.embed query) svc.kDense.toNat hits ∧
        b = .ok ("dense_cosine_sim".toList, hits) := by
  unfold RetrievalService.denseSource denseSearch
  rw [returns_perform_bind]
  constructor
  · rintro (⟨e, he, h⟩ | ⟨e, he, -⟩)
    · cases he
      exact (returns_statement fun _ => Iff.rfl).mp h
    · cases he
  · intro h
    exact .inl ⟨_, rfl, (returns_statement fun _ => Iff.rfl).mpr h⟩

theorem returns_keywordSource {b : Except Exn (Str × List ChunkHit)} :
    ReturnsE (db.Permits scoring) (svc.keywordSource tenantId query) b ↔
      if svc.kKeyword < 0 then b = .error .data
      else ∃ hits, db.MayKeyword scoring tenantId query svc.kKeyword.toNat hits ∧
        b = .ok ("keyword_ts_rank".toList, hits) :=
  returns_statement fun _ => Iff.rfl

theorem exists_mayDense (queryEmbedding : Embedding) (k : Nat) :
    ∃ hits, db.MayDense scoring tenantId queryEmbedding k hits := by
  obtain ⟨rows, hrows⟩ := Arranges.exists_arranges
    (fun x : Chunk × Document => scoring.cosineDistance x.1.embedding queryEmbedding)
    (db.tenantRows tenantId)
  exact ⟨_, rows, hrows, rfl⟩

theorem returns_sources {mode : SearchMode} {b : Except Exn (List (Str × List ChunkHit))}
    (h : ¬ svc.Negative mode) :
    ReturnsE (db.Permits scoring) (svc.sources tenantId query mode) b ↔
      ∃ s, MaySources db scoring tenantId query svc mode s ∧ b = .ok s := by
  cases mode with
  | hybrid =>
    have hd : ¬ svc.kDense < 0 := fun hd => h (.inl ⟨by decide, hd⟩)
    have hk : ¬ svc.kKeyword < 0 := fun hk => h (.inr ⟨by decide, hk⟩)
    refine (returns_bind_of (returns_denseSource.trans (iff_of_eq (if_neg hd)))).trans ?_
    constructor
    · rintro ⟨dense, hdense, hb⟩
      obtain ⟨keyword, hkeyword, hb⟩ :=
        (returns_bind_of (returns_keywordSource.trans (iff_of_eq (if_neg hk)))).mp hb
      exact ⟨_, ⟨dense, keyword, hdense, hkeyword, rfl⟩, hb⟩
    · rintro ⟨s, ⟨dense, keyword, hdense, hkeyword, rfl⟩, hb⟩
      exact ⟨dense, hdense, (returns_bind_of (returns_keywordSource.trans
        (iff_of_eq (if_neg hk)))).mpr ⟨keyword, hkeyword, hb⟩⟩
  | dense =>
    have hd : ¬ svc.kDense < 0 := fun hd => h (.inl ⟨by decide, hd⟩)
    refine (returns_bind_of (returns_denseSource.trans (iff_of_eq (if_neg hd)))).trans ?_
    constructor
    · rintro ⟨dense, hdense, hb⟩
      exact ⟨_, ⟨dense, hdense, rfl⟩, hb⟩
    · rintro ⟨s, ⟨dense, hdense, rfl⟩, hb⟩
      exact ⟨dense, hdense, hb⟩
  | keyword =>
    have hk : ¬ svc.kKeyword < 0 := fun hk => h (.inr ⟨by decide, hk⟩)
    refine (returns_bind_of (returns_keywordSource.trans (iff_of_eq (if_neg hk)))).trans ?_
    constructor
    · rintro ⟨keyword, hkeyword, hb⟩
      exact ⟨_, ⟨keyword, hkeyword, rfl⟩, hb⟩
    · rintro ⟨s, ⟨keyword, hkeyword, rfl⟩, hb⟩
      exact ⟨keyword, hkeyword, hb⟩

theorem returns_sources_negative {mode : SearchMode} {b : Except Exn (List (Str × List ChunkHit))}
    (h : svc.Negative mode) :
    ReturnsE (db.Permits scoring) (svc.sources tenantId query mode) b ↔ b = .error .data := by
  cases mode with
  | hybrid =>
    by_cases hd : svc.kDense < 0
    · exact returns_bind_error (returns_denseSource.trans (iff_of_eq (if_pos hd)))
    · have hk : svc.kKeyword < 0 := h.elim (fun h => absurd h.2 hd) (·.2)
      refine (returns_bind_of (returns_denseSource.trans (iff_of_eq (if_neg hd)))).trans ?_
      constructor
      · rintro ⟨dense, -, hb⟩
        exact (returns_bind_error (returns_keywordSource.trans (iff_of_eq (if_pos hk)))).mp hb
      · intro hb
        obtain ⟨dense, hdense⟩ := exists_mayDense (scoring.embed query) svc.kDense.toNat
        exact ⟨dense, hdense,
          (returns_bind_error (returns_keywordSource.trans (iff_of_eq (if_pos hk)))).mpr hb⟩
  | dense =>
    have hd : svc.kDense < 0 := h.elim (·.2) fun h => absurd rfl h.1
    exact returns_bind_error (returns_denseSource.trans (iff_of_eq (if_pos hd)))
  | keyword =>
    have hk : svc.kKeyword < 0 := h.elim (fun h => absurd rfl h.1) (·.2)
    exact returns_bind_error (returns_keywordSource.trans (iff_of_eq (if_pos hk)))

variable {mode : SearchMode} {topN : Option Int} {b : Except Exn (List RetrievedChunk)}

theorem returns_search_blank (h : query.strip = []) :
    ReturnsE (db.Permits scoring) (svc.search tenantId query mode topN) b ↔
      b = .error .invalidQuery := by
  unfold RetrievalService.search
  rw [if_pos h]
  exact returnsE_throw

theorem returns_search_negative (hquery : query.strip ≠ []) (h : svc.Negative mode) :
    ReturnsE (db.Permits scoring) (svc.search tenantId query mode topN) b ↔ b = .error .data := by
  unfold RetrievalService.search
  rw [if_neg hquery]
  exact returns_bind_error (returns_sources_negative h)

theorem returns_search (hquery : query.strip ≠ []) (h : ¬ svc.Negative mode) :
    ReturnsE (db.Permits scoring) (svc.search tenantId query mode topN) b ↔
      ∃ s, MaySources db scoring tenantId query svc mode s ∧
        b = svc.conclude mode (svc.limit topN) (scoring.rerank query) s := by
  unfold RetrievalService.search
  rw [if_neg hquery]
  refine (returns_bind_of (returns_sources h)).trans (exists_congr fun s => and_congr_right' ?_)
  let g := s.foldl Gathered.register {}
  let rankLists := s.map fun source => source.2.map (·.chunkId)
  have hconclude : svc.conclude mode (svc.limit topN) (scoring.rerank query) s =
      (g.order mode svc.rrfK rankLists).bind fun ranked =>
        (svc.rescore (scoring.rerank query) ranked.1 ranked.2).bind fun ranked =>
          (upTo ranked.2 (svc.limit topN)).mapM ranked.1.chunk := rfl
  rw [hconclude]
  change ReturnsE (db.Permits scoring) (Io.ofExcept (g.order mode svc.rrfK rankLists) >>= _) b ↔ _
  cases g.order mode svc.rrfK rankLists with
  | error e => exact returnsE_throw
  | ok ranked =>
    change ReturnsE (db.Permits scoring) (svc.rerank query ranked.1 ranked.2 >>= _) b ↔
      b = (svc.rescore (scoring.rerank query) ranked.1 ranked.2).bind _
    cases hrescore : svc.rescore (scoring.rerank query) ranked.1 ranked.2 with
    | error e => exact returns_bind_error (returns_rerank.trans (iff_of_eq (by rw [hrescore])))
    | ok ranked =>
      rw [returnsE_bind]
      simp only [returns_rerank, hrescore]
      constructor
      · rintro (⟨a, ha, hb⟩ | ⟨e, he, -⟩)
        · cases ha
          exact hb
        · cases he
      · intro hb
        exact .inl ⟨ranked, rfl, hb⟩

end Search

end RagPlatform
