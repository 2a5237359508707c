import RagPlatform.Lib.Eval
import RagPlatform.Retrieval.ServiceLaws
import RagPlatform.RuntimeLaws

/-! A search that is told given lists: every chunk they bring comes out once, with all that is known
of it. -/

namespace RagPlatform

open Lib

/-- What a search is told: lists in which no chunk comes twice, and a reranker that scores each
text. -/
structure Findings where
  queryEmbedding : Embedding
  dense : List ChunkHit
  keyword : List ChunkHit
  rerank : Str → List Str → List Rat
  dense_nodup : (idsOf dense).Nodup
  keyword_nodup : (idsOf keyword).Nodup
  rerank_length : ∀ query texts, (rerank query texts).length = texts.length

def Findings.answer (f : Findings) : Handler api Unit
  | .embedQuery _, s => (s, .ok f.queryEmbedding)
  | .denseSearch .., s => (s, .ok f.dense)
  | .keywordSearch .., s => (s, .ok f.keyword)
  | .rerank query texts, s => (s, .ok (f.rerank query texts))
  | _, s => (s, .error .value)

def Findings.lists (f : Findings) (mode : SearchMode) : Lists where
  mode := mode
  dense := if mode = .keyword then [] else f.dense
  keyword := if mode = .dense then [] else f.keyword
  dense_out h := if_pos h
  keyword_out h := if_pos h
  dense_nodup := by
    split
    · exact List.nodup_nil
    · exact f.dense_nodup
  keyword_nodup := by
    split
    · exact List.nodup_nil
    · exact f.keyword_nodup

/-- `1 / (rrf_k + rank)` for the rank, counted from 1, in each of the lists that have the chunk. -/
def reciprocalRanks (rrfK : Int) (rankLists : List (List Nat)) (id : Nat) : Rat :=
  ((rankLists.filter (id ∈ ·)).map fun ids => 1 / ((rrfK + (ids.idxOf id + 1 : Nat) : Int) : Rat)).sum

theorem rrfTerm_placeIn (rrfK : Int) (ids : List Nat) (id : Nat) :
    rrfTerm rrfK (placeIn ids id) =
      if id ∈ ids then 1 / ((rrfK + (ids.idxOf id + 1 : Nat) : Int) : Rat) else 0 := by
  split
  · next h =>
    rw [placeIn_of_mem h, rrfTerm]
    push_cast
    rw [add_assoc]
  · next h =>
    rw [Option.not_isSome_iff_eq_none.mp (mt mem_iff_placeIn.mp h)]
    rfl

namespace Lists

variable (l : Lists)

theorem rrfScore_eq (rrfK : Int) (id : Nat) :
    l.rrfScore rrfK id = reciprocalRanks rrfK [idsOf l.dense, idsOf l.keyword] id := by
  rw [rrfScore, rrfTerm_placeIn, rrfTerm_placeIn, reciprocalRanks]
  by_cases hd : id ∈ idsOf l.dense
  · by_cases hk : id ∈ idsOf l.keyword
    · simp [hd, hk]
    · simp [hd, hk]
  · by_cases hk : id ∈ idsOf l.keyword
    · simp [hd, hk]
    · simp [hd, hk]

def hitOf (id : Nat) : Option ChunkHit := (l.dense ++ l.keyword).find? (·.chunkId = id)

def textOf (id : Nat) : Str := ((l.hitOf id).map (·.content)).getD []

theorem hits_gathered (id : Nat) : l.gathered.hits.get? id = l.hitOf id := by
  unfold gathered sources hitOf
  rw [List.find?_append]
  cases hm : l.mode with
  | hybrid =>
    rw [List.foldl_cons, List.foldl_cons, List.foldl_nil, Gathered.get?_hits_register,
      Gathered.get?_hits_register]
    rfl
  | dense =>
    rw [List.foldl_cons, List.foldl_nil, Gathered.get?_hits_register, l.keyword_out hm]
    simp [Dict.get?]
  | keyword =>
    rw [List.foldl_cons, List.foldl_nil, Gathered.get?_hits_register, l.dense_out hm]
    simp [Dict.get?]

structure Describes (rrfK : Int) (rerank : Nat → Option Rat) (c : RetrievedChunk) : Prop where
  hit : ∃ hit, l.hitOf c.chunkId = some hit ∧ c = hit.retrieved c.chunkId c.scores
  dense : c.scores.get? "dense_cosine_sim".toList = scoreIn l.dense c.chunkId
  keyword : c.scores.get? "keyword_ts_rank".toList = scoreIn l.keyword c.chunkId
  rrf : c.scores.get? "rrf".toList = if l.mode = .hybrid
    then some (reciprocalRanks rrfK [idsOf l.dense, idsOf l.keyword] c.chunkId) else none
  rerank : c.scores.get? "rerank".toList = rerank c.chunkId
  others : ∀ name ∉ ["dense_cosine_sim".toList, "keyword_ts_rank".toList, "rrf".toList,
    "rerank".toList], c.scores.get? name = none

theorem describes_of_note {rrfK : Int} {rerank : Nat → Option Rat} {hit : ChunkHit} {id : Nat}
    (hhit : l.hitOf id = some hit) : l.Describes rrfK rerank (hit.retrieved id
      (note "rerank".toList (rerank id) (note "rrf".toList (l.rrfNote rrfK id) (l.base id)))) where
  hit := ⟨hit, hhit, rfl⟩
  dense := by
    change Dict.get? (note _ _ (note _ _ (note _ _ (note _ (scoreIn l.dense id) [])))) _ =
      scoreIn l.dense id
    rw [get?_note, if_neg (by decide), get?_note, if_neg (by decide), get?_note,
      if_neg (by decide), get?_note, if_pos rfl]
    exact Option.or_none
  keyword := by
    change Dict.get? (note _ _ (note _ _ (note _ (scoreIn l.keyword id) (note _ _ [])))) _ =
      scoreIn l.keyword id
    rw [get?_note, if_neg (by decide), get?_note, if_neg (by decide), get?_note, if_pos rfl,
      get?_note, if_neg (by decide)]
    exact Option.or_none
  rrf := by
    change Dict.get? (note _ _ (note _ (l.rrfNote rrfK id) (note _ _ (note _ _ [])))) _ = _
    rw [get?_note, if_neg (by decide), get?_note, if_pos rfl, get?_note, if_neg (by decide),
      get?_note, if_neg (by decide), rrfNote, rrfScore_eq]
    exact Option.or_none
  rerank := by
    change Dict.get? (note _ (rerank id) (note _ _ (note _ _ (note _ _ [])))) _ = rerank id
    rw [get?_note, if_pos rfl, get?_note, if_neg (by decide), get?_note, if_neg (by decide),
      get?_note, if_neg (by decide)]
    exact Option.or_none
  others name hname := by
    simp only [List.mem_cons, List.not_mem_nil, or_false, not_or] at hname
    obtain ⟨hdense, hkeyword, hrrf, hrerank⟩ := hname
    change Dict.get? (note _ _ (note _ _ (note _ _ (note _ _ [])))) name = none
    rw [get?_note, if_neg (Ne.symm hrerank), get?_note, if_neg (Ne.symm hrrf), get?_note,
      if_neg (Ne.symm hkeyword), get?_note, if_neg (Ne.symm hdense)]
    rfl

/-- The order of the result before any reranking: by fused score and id, or that of the one list. -/
def InOrder (rrfK : Int) (asked : List Nat) : Prop :=
  match l.mode with
  | .hybrid => asked.Pairwise fun a b =>
    let rrf := reciprocalRanks rrfK [idsOf l.dense, idsOf l.keyword]
    rrf b < rrf a ∨ rrf a = rrf b ∧ a < b
  | .dense => asked = idsOf l.dense
  | .keyword => asked = idsOf l.keyword

/-- A search gives the chunks `asked`, each of those brought once, to the reranker, if there is one,
and has them in the order `ordered` in the end. -/
structure Ranks (svc : RetrievalService) (rerank : List Str → List Rat) (asked ordered : List Nat) :
    Prop where
  nodup : asked.Nodup
  mem : ∀ id, id ∈ asked ↔ l.Brings id
  first : l.InOrder svc.rrfK asked
  perm : ordered.Perm asked
  order : if svc.reranker = .none then ordered = asked
    else ordered.Pairwise fun a b =>
      let own := fun id => (ownScore asked (rerank (asked.map l.textOf)) id).getD 0
      own b < own a ∨ own a = own b ∧ a < b

theorem eq_of_places {ids asked : List Nat} (hids : ids.Nodup) (hasked : asked.Nodup)
    (hmem : ∀ id, id ∈ asked ↔ id ∈ ids)
    (hsorted : asked.Pairwise fun a b => rankKey (-(((placeIn ids a).getD 0 : Nat) : Rat)) a <
      rankKey (-(((placeIn ids b).getD 0 : Nat) : Rat)) b) : asked = ids :=
  ((List.perm_ext_iff_of_nodup hasked hids).mpr hmem).eq_of_pairwise
    (fun _ _ _ _ h₁ h₂ => absurd h₁ h₂.asymm) hsorted (sorted_places hids)

variable {l}

theorem inOrder_of_mark {rrfK : Int} {asked : List Nat} (hnodup : asked.Nodup)
    (hmem : ∀ id, id ∈ asked ↔ l.Brings id)
    (hsorted : asked.Pairwise fun a b => rankKey (l.mark rrfK a) a < rankKey (l.mark rrfK b) b) :
    l.InOrder rrfK asked := by
  unfold mark at hsorted
  unfold InOrder
  cases hm : l.mode with
  | hybrid =>
    simp only [hm, rankKey_lt, rrfScore_eq] at hsorted
    exact hsorted
  | dense =>
    simp only [hm] at hsorted
    exact eq_of_places l.dense_nodup hnodup (fun id => (hmem id).trans
      (by simp [Brings, l.keyword_out hm, idsOf])) hsorted
  | keyword =>
    simp only [hm] at hsorted
    exact eq_of_places l.keyword_nodup hnodup (fun id => (hmem id).trans
      (by simp [Brings, l.dense_out hm, idsOf])) hsorted

end Lists

namespace Findings

variable (f : Findings) {svc : RetrievalService} {tenantId : Uuid} {query : Str} {mode : SearchMode}

theorem eval_sources : evalE f.answer (svc.sources tenantId query mode) () =
    ((), .ok (f.lists mode).sources) := by
  cases mode with
  | hybrid => rfl
  | dense => rfl
  | keyword => rfl

/-- The reranker's part in a search of the chunks `asked`. -/
theorem eval_rerank {l : Lists} {g : Gathered} {asked : List Nat}
    (hhits : g.hits = l.gathered.hits) (hnodup : asked.Nodup) (hhas : ∀ id ∈ asked, g.Has id)  :
    ∃ g' ordered, evalE f.answer (svc.rerank query g asked) () = ((), .ok (g', ordered)) ∧
      g'.hits = g.hits ∧ ordered.Perm asked ∧
      (if svc.reranker = .none then ordered = asked
        else ordered.Pairwise fun a b =>
          let own := fun id => (ownScore asked (f.rerank query (asked.map l.textOf)) id).getD 0
          own b < own a ∨ own a = own b ∧ a < b) ∧
      ∀ id ∈ asked, g'.Has id ∧ g'.noted id = note "rerank".toList
        (if svc.reranker = .none then none
          else ownScore asked (f.rerank query (asked.map l.textOf)) id) (g.noted id) := by
  unfold RetrievalService.rerank
  by_cases hnone : svc.reranker = .none
  · refine ⟨g, asked, by rw [if_pos (.inl hnone)]; rfl, rfl, .refl _, by rw [if_pos hnone],
      fun id hid => ⟨hhas id hid, by rw [if_pos hnone]; rfl⟩⟩
  by_cases hnil : asked = []
  · subst hnil
    refine ⟨g, [], by rw [if_pos (.inr rfl)]; rfl, rfl, .refl _, ?_, fun _ h => by cases h⟩
    rw [if_neg hnone]
    exact .nil
  have htext (id : Nat) (hit : ChunkHit) (hget : g.hits.get? id = some hit) :
      hit.content = l.textOf id := by
    rw [hhits, l.hits_gathered] at hget
    rw [Lists.textOf, hget]
    rfl
  have hlen : (f.rerank query (asked.map l.textOf)).length = asked.length := by
    rw [f.rerank_length, List.length_map]
  obtain ⟨hsame, hperm, hsorted, hnoted⟩ := Gathered.reranked_ok hnodup hlen hhas
  refine ⟨_, _, ?_, hsame, hperm, ?_, fun id hid => ?_⟩
  · rw [if_neg (by simp [hnone, hnil]), mapM_content hhas htext]
    change evalE f.answer (if (f.rerank query (asked.map l.textOf)).length ≠ asked.length then
      raise .value else pure (g.reranked asked (f.rerank query (asked.map l.textOf)))) () = _
    rw [if_neg (not_not_intro hlen)]
    rfl
  · rw [if_neg hnone]
    simpa only [rankKey_lt] using hsorted
  · rw [if_neg hnone]
    exact hnoted id hid

/-- Each chunk that a list of the mode brings comes once, in the order of the mode and its reranker,
the first `top_n` of them with everything known of them. -/
theorem search_exact (hquery : query.strip ≠ []) (hk : mode = .hybrid → 0 ≤ svc.rrfK)
    {topN : Option Int} (hn : 1 ≤ svc.limit topN) :
    let l := f.lists mode
    ∃ asked ordered chunks,
      evalE f.answer (svc.search tenantId query mode topN) () = ((), .ok chunks) ∧
      l.Ranks svc (f.rerank query) asked ordered ∧
      chunks.map (·.chunkId) = ordered.take (svc.limit topN).toNat ∧
      ∀ c ∈ chunks, l.Describes svc.rrfK (fun id => if svc.reranker = .none then none
        else ownScore asked (f.rerank query (asked.map l.textOf)) id) c := by
  intro l
  obtain ⟨g, asked, horder, hhits, hnodup, hmem, hsorted, hnoted⟩ :=
    Lists.order_ok (l := l) fun hm => not_divides (hk hm) _ _
  obtain ⟨g', ordered, hrerank, hhits', hperm, hordered, hnoted'⟩ := f.eval_rerank hhits hnodup
    fun id hid => (hnoted id hid).1
  have htake : upTo ordered (svc.limit topN) = ordered.take (svc.limit topN).toNat :=
    if_pos (by omega)
  have hasked {id : Nat} (hid : id ∈ upTo ordered (svc.limit topN)) : id ∈ asked :=
    hperm.mem_iff.mp (mem_of_mem_upTo hid)
  obtain ⟨chunks, hchunks, hids, hdata⟩ := mapM_chunk fun id hid => (hnoted' id (hasked hid)).1
  refine ⟨asked, ordered, chunks, ?_, ⟨hnodup, hmem, Lists.inOrder_of_mark hnodup hmem hsorted,
    hperm, hordered⟩, hids.trans htake, fun c hc => ?_⟩
  · unfold RetrievalService.search
    rw [if_neg hquery, evalE_bind_ok f.eval_sources]
    change evalE f.answer (Io.ofExcept (l.gathered.order l.mode svc.rrfK l.rankLists) >>= _) () = _
    rw [horder, ofExcept_ok_bind, evalE_bind_ok hrerank, hchunks]
    rfl
  · have hid : c.chunkId ∈ upTo ordered (svc.limit topN) := hids ▸ List.mem_map_of_mem hc
    obtain ⟨hit, hhit, hcopy⟩ := hdata c hc
    rw [hhits', hhits, l.hits_gathered] at hhit
    rw [(hnoted' _ (hasked hid)).2, (hnoted _ (hasked hid)).2] at hcopy
    rw [hcopy]
    exact l.describes_of_note hhit

end Findings

namespace Sample

def numbered (id : Nat) (content : Str) (score : Rat) : ChunkHit where
  chunkId := id
  documentId := ⟨7⟩
  filename := "f.md".toList
  chunkIndex := id
  content := content
  metadata := {}
  score := score

def findings : Findings where
  queryEmbedding := []
  dense := [numbered 1 "A".toList (9 / 10), numbered 2 "B".toList (8 / 10),
    numbered 3 "C".toList (7 / 10)]
  keyword := [numbered 2 "B".toList 5, numbered 4 "D".toList 4]
  rerank _ texts := texts.map fun text => text.length
  dense_nodup := by decide
  keyword_nodup := by decide
  rerank_length _ _ := List.length_map _

def fusing : RetrievalService where
  reranker := .none
  kDense := 10
  kKeyword := 10
  rrfK := 60
  topN := 5

end Sample

example : ((evalE Sample.findings.answer (Sample.fusing.search ⟨1⟩ "q".toList .hybrid none) ()).2.map
    (List.map (·.chunkId))).toOption = some [2, 1, 4, 3] := by decide +kernel

theorem search_exact_findings : ∃ asked ordered chunks,
    evalE Sample.findings.answer (Sample.fusing.search ⟨1⟩ "q".toList .hybrid none) () =
      ((), .ok chunks) ∧
    (Sample.findings.lists .hybrid).Ranks Sample.fusing (Sample.findings.rerank "q".toList) asked
      ordered ∧ chunks.map (·.chunkId) = ordered.take 5 := by
  obtain ⟨asked, ordered, chunks, hsearch, hranks, hids, -⟩ :=
    @Findings.search_exact Sample.findings Sample.fusing ⟨1⟩ "q".toList .hybrid (by decide)
      (fun _ => by decide) none (by decide)
  exact ⟨asked, ordered, chunks, hsearch, hranks, hids⟩

end RagPlatform
