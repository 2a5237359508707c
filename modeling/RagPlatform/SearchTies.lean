import RagPlatform.Retrieval.InquiryLaws

/-! When the order of rows at equal distance shows in the result of a search. -/

namespace RagPlatform

open Lib

namespace Inquiry

variable {q : Inquiry} {x : Chunk × Document} {τ : List (Chunk × Document)} {r r' : Option Nat}

theorem mayTake_placeIn (hτ : Arranges q.distance q.rows τ) (hx : x ∈ q.rows) :
    q.MayTake x (q.placeIn τ x) := by
  obtain ⟨hlow, hhigh⟩ := hτ.idxOf_bounds hx
  unfold placeIn
  split
  · next h => exact ⟨hlow, hhigh, h⟩
  · next h => exact (Nat.le_of_not_lt h).trans_lt hhigh

theorem exists_placeIn (hx : x ∈ q.rows) (h : q.MayTake x r) :
    ∃ e : q.Order, q.placeIn e.1 x = r := by
  obtain ⟨τ, hτ⟩ := Arranges.exists_arranges q.distance q.rows
  have hlevel : q.ahead x < q.ahead x + q.level x :=
    (hτ.idxOf_bounds hx).1.trans_lt (hτ.idxOf_bounds hx).2
  cases r with
  | some i =>
    obtain ⟨hlow, hhigh, hi⟩ := h
    obtain ⟨τ', hτ', hidx⟩ := hτ.exists_place nodup_rows hx hlow hhigh
    refine ⟨⟨τ', hτ'⟩, ?_⟩
    rw [placeIn, hidx, if_pos hi]
  | none =>
    obtain ⟨τ', hτ', hidx⟩ := hτ.exists_place nodup_rows hx (Nat.le_max_left _ q.depth)
      (Nat.max_lt.mpr ⟨hlevel, h⟩)
    refine ⟨⟨τ', hτ'⟩, ?_⟩
    rw [placeIn, hidx, if_neg (Nat.not_lt.mpr (Nat.le_max_right ..))]

theorem mark_of_reranker (h : q.svc.reranker ≠ .none) : q.mark r x = q.mark r' x := by
  rw [mark, mark, if_neg h, if_neg h]

theorem settled (ht : q.tied x = false) (hr : q.MayTake x r) :
    q.candidate r x = q.candidate (q.place x) x ∧ q.key r x = q.key (q.place x) x ∧
      q.breakdown r x = q.breakdown (q.place x) x := by
  by_cases hlt : q.ahead x < q.depth
  · have hplace : q.place x = some (q.ahead x) := if_pos hlt
    rw [hplace]
    by_cases hm : q.mode = .dense ∧ q.svc.reranker ≠ .none
    · have hin : ¬ q.depth < q.ahead x + q.level x := by simpa [tied, hlt, hm] using ht
      cases r with
      | none => exact absurd hr hin
      | some i =>
        refine ⟨rfl, ?_, ?_⟩
        · rw [key, key, mark_of_reranker hm.2]
        · simp [breakdown, rrfNote, hm.1]
    · have hone : q.level x < 2 := by simpa [tied, hlt, hm] using ht
      have hr' : r = some (q.ahead x) := by
        cases r with
        | none =>
          have hr : q.depth < q.ahead x + q.level x := hr
          omega
        | some i =>
          obtain ⟨hlow, hhigh, -⟩ := hr
          exact congrArg some (by omega)
      rw [hr']
      exact ⟨rfl, rfl, rfl⟩
  · have hplace : q.place x = none := if_neg hlt
    rw [hplace]
    cases r with
    | none => exact ⟨rfl, rfl, rfl⟩
    | some i =>
      obtain ⟨hlow, -, hi⟩ := hr
      exact absurd (hlow.trans_lt hi) hlt

theorem steady_of_settled (hx : x ∈ q.rows) (ht : q.tied x = false) : q.ranking.Steady x := by
  intro e e'
  have h := settled ht (mayTake_placeIn e.2 hx)
  have h' := settled ht (mayTake_placeIn e'.2 hx)
  exact ⟨h.1.trans h'.1.symm, h.2.1.trans h'.2.1.symm, h.2.2.trans h'.2.2.symm⟩

theorem exists_other (hm : ¬ (q.mode = .dense ∧ q.svc.reranker ≠ .none)) (ht : q.tied x = true)
    (r : Option Nat) : ∃ r', q.MayTake x r' ∧ r' ≠ r := by
  have ht : q.ahead x < q.depth ∧ 2 ≤ q.level x := by simpa [tied, hm] using ht
  by_cases hr : r = some (q.ahead x)
  · by_cases hnext : q.ahead x + 1 < q.depth
    · refine ⟨some (q.ahead x + 1), ⟨by omega, by omega, hnext⟩, ?_⟩
      simp [hr]
    · refine ⟨none, ?_, by simp [hr]⟩
      show q.depth < q.ahead x + q.level x
      omega
  · exact ⟨some (q.ahead x), ⟨le_refl _, by omega, ht.1⟩, Ne.symm hr⟩

theorem get?_dense : (q.breakdown r x).get? "dense_cosine_sim".toList =
    r.map fun _ => 1 - q.distance x := by
  rw [breakdown, get?_note, if_neg (by decide), get?_note, if_neg (by decide), get?_note,
    if_neg (by decide), get?_note, if_pos rfl]
  exact Option.or_none

theorem get?_rrf : (q.breakdown r x).get? "rrf".toList = q.rrfNote r x := by
  rw [breakdown, get?_note, if_neg (by decide), get?_note, if_pos rfl, get?_note,
    if_neg (by decide), get?_note, if_neg (by decide)]
  exact Option.or_none

theorem rrfTerm_inj {rrfK : Int} {i j : Nat}
    (h : rrfTerm rrfK (some i) = rrfTerm rrfK (some j)) : i = j := by
  change (1 : Rat) / (rrfK + i + 1 : Int) = 1 / (rrfK + j + 1 : Int) at h
  rw [one_div, one_div, inv_inj, Int.cast_inj] at h
  omega

theorem breakdown_inj (hm : q.mode = .hybrid) (h : q.breakdown r x = q.breakdown r' x) : r = r' := by
  have hdense : (r.map fun _ => 1 - q.distance x) = r'.map fun _ => 1 - q.distance x := by
    rw [← get?_dense, h, get?_dense]
  have hrrf : q.rrfNote r x = q.rrfNote r' x := by rw [← get?_rrf, h, get?_rrf]
  cases r with
  | none =>
    cases r' with
    | none => rfl
    | some j => cases hdense
  | some i =>
    cases r' with
    | none => cases hdense
    | some j =>
      rw [rrfNote, rrfNote, if_pos hm, if_pos hm, Option.some.injEq, add_left_inj] at hrrf
      rw [rrfTerm_inj hrrf]

theorem candidate_dense (hm : q.mode = .dense) : q.candidate r x = r.isSome := by
  have hkeyword : q.keyword = [] := if_pos hm
  rw [candidate, keywordPlace, hkeyword]
  exact Bool.or_false _

theorem mark_dense (hm : q.mode = .dense) (hnone : q.svc.reranker = .none) :
    q.mark r x = -((r.getD 0 : Nat) : Rat) := by
  rw [mark, if_pos hnone, hm]

theorem idxOf_of_dense {e : q.Order} {order : List (Chunk × Document)} (hm : q.mode = .dense)
    (hnone : q.svc.reranker = .none) (horder : q.ranking.Orders e order) (hx : x ∈ q.rows) {i : Nat}
    (hi : q.placeIn e.1 x = some i) : order.idxOf x = i := by
  have hnodup : (e.1.take q.depth).Nodup :=
    (e.2.perm.nodup_iff.mpr nodup_rows).sublist (List.take_sublist ..)
  have hplace (j : Nat) (hj : j < (e.1.take q.depth).length) :
      q.placeIn e.1 (e.1.take q.depth)[j] = some j := by
    obtain ⟨hdepth, hlen⟩ := Nat.lt_min.mp (List.length_take ▸ hj)
    have hidx := (e.2.perm.nodup_iff.mpr nodup_rows).idxOf_getElem j hlen
    rw [placeIn, List.getElem_take, hidx, if_pos hdepth]
  have hdense : q.ranking.Orders e (e.1.take q.depth) := by
    constructor
    · refine (List.perm_ext_iff_of_nodup hnodup (nodup_rows.filter _)).mpr fun y => ?_
      rw [List.mem_filter]
      constructor
      · intro hy
        refine ⟨mem_rows_of_dense e.2 hy, ?_⟩
        change q.candidate (q.placeIn e.1 y) y = true
        rw [candidate_dense hm, isSome_placeIn, decide_eq_true_iff]
        exact (mem_take_iff (List.mem_of_mem_take hy)).mp hy
      · rintro ⟨hy, hcand⟩
        change q.candidate (q.placeIn e.1 y) y = true at hcand
        rw [candidate_dense hm, isSome_placeIn, decide_eq_true_iff] at hcand
        exact (mem_take_iff (e.2.perm.mem_iff.mpr hy)).mpr hcand
    · rw [List.pairwise_iff_getElem]
      intro j k hj hk hjk
      change q.key (q.placeIn e.1 _) _ < q.key (q.placeIn e.1 _) _
      rw [hplace j hj, hplace k hk, key, key, mark_dense hm hnone, mark_dense hm hnone]
      exact rankKey_place_lt hjk
  rw [horder.eq hdense, List.idxOf_eq_getD_idxOf?, idxOf?_first e.2 hx, hi]
  rfl

theorem shaky_of_tied (order : q.Order → List (Chunk × Document))
    (horder : ∀ e, q.ranking.Orders e (order e)) (hx : x ∈ q.rows) (ht : q.tied x = true) :
    q.ranking.Shaky order x := by
  intro e hcand
  by_cases hm : q.mode = .dense ∧ q.svc.reranker ≠ .none
  · have ht : q.ahead x < q.depth ∧ q.depth < q.ahead x + q.level x := by simpa [tied, hm] using ht
    obtain ⟨e', he'⟩ := exists_placeIn (r := none) hx ht.2
    refine ⟨e', fun h => ?_⟩
    have hcand' : q.candidate (q.placeIn e'.1 x) x = true := h.1
    rw [he', candidate_dense hm.1] at hcand'
    cases hcand'
  · obtain ⟨r', htake, hne⟩ := exists_other hm ht (q.placeIn e.1 x)
    obtain ⟨e', he'⟩ := exists_placeIn hx htake
    refine ⟨e', fun ⟨hcand', hentry, hidx⟩ => ?_⟩
    change q.candidate (q.placeIn e'.1 x) x = true at hcand'
    change q.candidate (q.placeIn e.1 x) x = true at hcand
    change q.breakdown (q.placeIn e'.1 x) x = q.breakdown (q.placeIn e.1 x) x at hentry
    cases hmode : q.mode with
    | hybrid =>
      rw [he'] at hentry
      exact hne (breakdown_inj hmode hentry)
    | dense =>
      have hnone : q.svc.reranker = .none := by simpa [hmode] using hm
      rw [candidate_dense hmode] at hcand hcand'
      obtain ⟨i, hi⟩ := Option.isSome_iff_exists.mp hcand
      obtain ⟨j, hj⟩ := Option.isSome_iff_exists.mp hcand'
      have heq : j = i := by
        rw [← idxOf_of_dense hmode hnone (horder e') hx hj, hidx,
          idxOf_of_dense hmode hnone (horder e) hx hi]
      rw [← he', hi, hj, heq] at hne
      exact hne rfl
    | keyword =>
      have hdepth : q.depth = 0 := if_pos hmode
      simp [tied, hdepth] at ht

theorem length_order {e : q.Order} {order : List (Chunk × Document)}
    (horder : q.ranking.Orders e order) :
    order.length = q.brought ((e.1.take q.depth).countP q.inKeyword) := by
  have hnodup : e.1.Nodup := e.2.perm.nodup_iff.mpr nodup_rows
  have hlen : order.length =
      e.1.countP fun x => decide (e.1.idxOf x < q.depth) || q.inKeyword x := by
    rw [horder.perm.length_eq, ← List.countP_eq_length_filter]
    refine (e.2.perm.countP_eq _).symm.trans ?_
    refine List.countP_congr fun x _ => ?_
    change q.candidate (q.placeIn e.1 x) x = true ↔ _
    rw [candidate, isSome_placeIn]
    rfl
  have hfirst : (e.1.countP fun x => decide (e.1.idxOf x < q.depth)) =
      min q.depth q.rows.length := by
    simpa [e.2.perm.length_eq] using countP_first hnodup q.depth fun _ => true
  have hor := countP_or (τ := e.1) q.inKeyword fun x => decide (e.1.idxOf x < q.depth)
  rw [countP_first hnodup, hfirst] at hor
  have hkeyword : e.1.countP q.inKeyword = q.rows.countP q.inKeyword := e.2.perm.countP_eq _
  unfold brought
  omega

theorem kept_le (n : Nat) : q.kept n ≤ n := by
  unfold kept
  split
  · exact Nat.min_le_right ..
  · exact Nat.sub_le ..

theorem kept_mono {m n : Nat} (h : m ≤ n) : q.kept m ≤ q.kept n := by
  unfold kept
  split
  · exact min_le_min_left _ h
  · exact Nat.sub_le_sub_right h _

theorem brought_anti {m n : Nat} (h : m ≤ n) : q.brought n ≤ q.brought m :=
  Nat.sub_le_sub_left h _

variable {order : q.Order → List (Chunk × Document)}

theorem kept_bounds (horder : ∀ e, q.ranking.Orders e (order e)) (e : q.Order) :
    q.fewest ≤ q.kept (order e).length ∧ q.kept (order e).length ≤ q.most := by
  rw [length_order (horder e)]
  exact ⟨kept_mono (brought_anti (e.2.countP_take_le q.depth q.inKeyword)),
    kept_mono (brought_anti (e.2.le_countP_take q.depth q.inKeyword))⟩

theorem kept_same_iff (horder : ∀ e, q.ranking.Orders e (order e)) :
    (∀ e e', q.kept (order e).length = q.kept (order e').length) ↔ q.fewest = q.most := by
  constructor
  · intro h
    obtain ⟨τ, hτ, hmost⟩ := Arranges.exists_mostKept q.distance q.rows q.depth q.inKeyword
    obtain ⟨τ', hτ', hleast⟩ := Arranges.exists_leastKept q.distance q.rows q.depth q.inKeyword
    have heq := h ⟨τ, hτ⟩ ⟨τ', hτ'⟩
    rwa [length_order (horder _), length_order (horder _), hmost, hleast] at heq
  · intro h e e'
    obtain ⟨hlow, hhigh⟩ := kept_bounds horder e
    obtain ⟨hlow', hhigh'⟩ := kept_bounds horder e'
    omega

theorem settledBefore_placeIn (e : q.Order) (x : Chunk × Document) :
    (q.rows.countP fun u => !q.tied u && q.candidate (q.placeIn e.1 u) u &&
      decide (q.key (q.placeIn e.1 u) u < q.key (q.placeIn e.1 x) x)) =
      q.settledBefore (q.placeIn e.1 x) x := by
  refine List.countP_congr fun u hu => ?_
  cases ht : q.tied u with
  | true => simp
  | false =>
    obtain ⟨hcand, hkey, -⟩ := settled ht (mayTake_placeIn e.2 hu)
    rw [hcand, hkey]

theorem shown_same_iff (horder : ∀ e, q.ranking.Orders e (order e)) :
    (∀ e e', q.ranking.shown (q.kept (order e).length) e (order e) =
      q.ranking.shown (q.kept (order e').length) e' (order e')) ↔ q.Decided := by
  have hsteady (x : Chunk × Document) (hx : x ∈ q.rows) (ht : (!q.tied x) = true) :
      q.ranking.Steady x := steady_of_settled hx (by simpa using ht)
  have hshaky (x : Chunk × Document) (hx : x ∈ q.rows) (ht : (!q.tied x) = false) :
      q.ranking.Shaky order x := shaky_of_tied order horder hx (by simpa using ht)
  refine (Ranking.shown_same_iff (fun x => !q.tied x) order (fun e => q.kept (order e).length)
    horder (fun e => kept_le _) hsteady hshaky).trans ?_
  rw [kept_same_iff horder]
  constructor
  · rintro ⟨hcount, hall⟩
    refine ⟨hcount, fun x hx ht r hr hcand => ?_⟩
    obtain ⟨e, rfl⟩ := exists_placeIn hx hr
    have hle := hall e x hx (by simp [ht]) hcand
    have hmost := hcount.symm.le.trans (kept_bounds horder e).1
    exact hmost.trans (hle.trans_eq (settledBefore_placeIn e x))
  · rintro ⟨hcount, hall⟩
    refine ⟨hcount, fun e x hx ht hcand => ?_⟩
    have hle := hall x hx (by simpa using ht) _ (mayTake_placeIn e.2 hx) hcand
    exact ((kept_bounds horder e).2.trans hle).trans_eq (settledBefore_placeIn e x).symm

theorem agree_of_refused (h : q.Refused) {a b : Except Exn (List RetrievedChunk)}
    (ha : q.MayReturn a) (hb : q.MayReturn b) : a = b := by
  by_cases hquery : q.query.strip = []
  · rw [(returns_search_blank hquery).mp ha, (returns_search_blank hquery).mp hb]
  · by_cases hneg : q.svc.Negative q.mode
    · rw [(returns_search_negative hquery hneg).mp ha, (returns_search_negative hquery hneg).mp hb]
    · obtain ⟨e, rfl⟩ := (mayReturn_iff hquery hneg).mp ha
      obtain ⟨e', rfl⟩ := (mayReturn_iff hquery hneg).mp hb
      have hzero := (h.resolve_left hquery).resolve_left hneg
      rw [outcome_error hzero, outcome_error hzero]

end Inquiry

namespace Sample

def reader : Uuid := ⟨1⟩

def documentOf (id : Nat) (filename : String) : Document where
  id := ⟨id⟩
  tenantId := reader
  filename := filename.toList
  sourceType := .markdown
  contentSha256 := filename.toList
  sizeBytes := 20
  status := .completed
  rawContent := none
  errorMessage := none
  chunkCount := some 1
  createdAt := 0

def noticeOf (id document : Nat) : Chunk where
  id := id
  documentId := ⟨document⟩
  tenantId := reader
  chunkIndex := 0
  content := "All rights reserved.".toList
  tokenCount := 4
  embedding := [.finite 1]
  metadata := {}

def boilerplate : Database where
  tenants := [{ id := reader }]
  issued := [(⟨7⟩, reader), (⟨8⟩, reader)]
  documents := [documentOf 7 "atlas.md", documentOf 8 "guide.md"]
  chunks := [noticeOf 1 7, noticeOf 2 8]
  nextChunkId := 3
  issued_once := by decide
  documents_issued := by decide
  documents_pk := by decide
  documents_uq := by decide
  chunks_pk := by decide
  chunks_seq := by decide
  chunks_fk := by decide
  chunks_uq := by decide

def scoring : Scoring where
  embed _ := [.finite 1]
  cosineDistance v w := if v = w then 0 else 1
  tsRank _ _ := none
  rerank _ _ := 0

def notices : Inquiry where
  db := boilerplate
  scoring := scoring
  svc := ⟨.none, 30, 30, 60, 8⟩
  tenantId := reader
  query := "Whose is it?".toList
  mode := .hybrid
  topN := some 8

def notice (id document : Nat) (filename : String) : Chunk × Document :=
  (noticeOf id document, documentOf document filename)

def first : notices.Order := ⟨[notice 1 7 "atlas.md", notice 2 8 "guide.md"], by decide +kernel,
  by decide +kernel⟩

def second : notices.Order := ⟨[notice 2 8 "guide.md", notice 1 7 "atlas.md"], by decide +kernel,
  by decide +kernel⟩

end Sample

end RagPlatform
