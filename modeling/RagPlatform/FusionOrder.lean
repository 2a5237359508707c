import Mathlib.Algebra.Order.Field.Basic
import RagPlatform.Lib.Fusion
import RagPlatform.Retrieval.Findings

/-! The order of a hybrid search and the two lists it is made of. -/

namespace RagPlatform

open Lib

/-- `ordered`, as a search without a reranker has it. -/
def hybridOrder (rrfK : Int) (dense keyword : List Nat) : Except Exn (List Nat) := do
  let scores ← fuse rrfK [dense, keyword]
  return best (fun id => (scores.get? id).getD 0) scores.keys

def rrfWeight (rrfK : Int) : WithTop Nat → Rat
  | ⊤ => 0
  | (rank : Nat) => 1 / ((rrfK + rank + 1 : Int) : Rat)

section

variable {rrfK : Int} {dense keyword : List Nat}

theorem rrfWeight_placeOf (rrfK : Int) (ids : List Nat) (id : Nat) :
    rrfWeight rrfK (placeOf ids id) = rrfTerm rrfK (placeIn ids id) := by
  by_cases h : id ∈ ids
  · rw [placeOf_of_mem h, placeIn_of_mem h]
    rfl
  · rw [placeOf_of_not_mem h, Option.not_isSome_iff_eq_none.mp (mt mem_iff_placeIn.mp h)]
    rfl

theorem strictAnti_rrfWeight (hk : 0 ≤ rrfK) : StrictAnti (rrfWeight rrfK) := by
  intro i j hij
  have hpos (n : Nat) : (0 : Rat) < ((rrfK + n + 1 : Int) : Rat) := Int.cast_pos.mpr (by omega)
  cases i with
  | top => exact absurd hij not_top_lt
  | coe i =>
    cases j with
    | top => exact one_div_pos.mpr (hpos i)
    | coe j =>
      have hlt : i < j := WithTop.coe_lt_coe.mp hij
      exact one_div_lt_one_div_of_lt (hpos i) (Int.cast_lt.mpr (by omega))

theorem hybridOrder_fuses (hk : 0 ≤ rrfK) (hdense : dense.Nodup) (hkeyword : keyword.Nodup) :
    ∃ order, hybridOrder rrfK dense keyword = .ok order ∧
      Fuses (rrfWeight rrfK) id [dense, keyword] order := by
  obtain ⟨fused, hfuse, hkeys, hget⟩ := fuse_ok hdense hkeyword (not_divides hk dense keyword)
  have hperm := perm_best (fun id => (fused.get? id).getD 0) fused.keys
  have hmem (id : Nat) : id ∈ fused.keys ↔ id ∈ dense ∨ id ∈ keyword := by
    rw [← Dict.isSome_get?, hget]
    split
    · next h => exact iff_of_true rfl h
    · next h => exact iff_of_false Bool.false_ne_true h
  have hscore {id : Nat} (hid : id ∈ fused.keys) :
      (fused.get? id).getD 0 = fusedScore (rrfWeight rrfK) [dense, keyword] id := by
    rw [hget, if_pos ((hmem id).mp hid)]
    simp [fusedScore, rrfWeight_placeOf]
  refine ⟨_, by rw [hybridOrder, hfuse]; rfl, hperm.nodup_iff.mpr hkeys, fun id => ?_, ?_⟩
  · rw [hperm.mem_iff, hmem]
    simp
  · refine (sorted_best _ hkeys).imp_of_mem fun {a b} ha hb hlt => ?_
    rw [hscore (hperm.mem_iff.mp ha), hscore (hperm.mem_iff.mp hb)] at hlt
    exact hlt

end

section

variable {f : Findings} {svc : RetrievalService}

theorem fuses_of_ranks {rerank : List Str → List Rat} {asked ordered : List Nat}
    (hnone : svc.reranker = .none) (h : (f.lists .hybrid).Ranks svc rerank asked ordered) :
    Fuses (rrfWeight svc.rrfK) id [idsOf f.dense, idsOf f.keyword] ordered := by
  have hsame : ordered = asked := by
    have horder := h.order
    rwa [if_pos hnone] at horder
  have hscore (id : Nat) : reciprocalRanks svc.rrfK [idsOf f.dense, idsOf f.keyword] id =
      fusedScore (rrfWeight svc.rrfK) [idsOf f.dense, idsOf f.keyword] id := by
    refine ((f.lists .hybrid).rrfScore_eq svc.rrfK id).symm.trans ?_
    simp [fusedScore, rrfWeight_placeOf, Lists.rrfScore, Findings.lists]
  subst hsame
  refine ⟨h.nodup, fun id => (h.mem id).trans (by simp [Lists.Brings, Findings.lists]), ?_⟩
  have hfirst : ordered.Pairwise fun a b =>
      reciprocalRanks svc.rrfK [idsOf f.dense, idsOf f.keyword] b <
        reciprocalRanks svc.rrfK [idsOf f.dense, idsOf f.keyword] a ∨
      reciprocalRanks svc.rrfK [idsOf f.dense, idsOf f.keyword] a =
        reciprocalRanks svc.rrfK [idsOf f.dense, idsOf f.keyword] b ∧ a < b := h.first
  simp only [hscore] at hfirst
  exact hfirst.imp fusionKey_lt.mpr

theorem search_fuses (hk : 0 ≤ svc.rrfK) (hnone : svc.reranker = .none) {order : List Nat}
    (horder : Fuses (rrfWeight svc.rrfK) id [idsOf f.dense, idsOf f.keyword] order)
    {tenantId : Uuid} {query : Str} {topN : Option Int} (hquery : query.strip ≠ [])
    (hn : 1 ≤ svc.limit topN) :
    ∃ chunks, evalE f.answer (svc.search tenantId query .hybrid topN) () = ((), .ok chunks) ∧
      chunks.map (·.chunkId) = order.take (svc.limit topN).toNat := by
  obtain ⟨asked, ordered, chunks, hsearch, hranks, hids, -⟩ :=
    @Findings.search_exact f svc tenantId query .hybrid hquery (fun _ => hk) topN hn
  rw [(fuses_of_ranks hnone hranks).unique horder] at hids
  exact ⟨chunks, hsearch, hids⟩

/-- The hybrid order without a reranker, of which a search shows the first `top_n`: a chunk that is
nowhere behind another and somewhere before it comes first; a list alone keeps its order; the lists
may be exchanged; and a chunk that moves up in one of them never moves down. -/
theorem fusion_respects_agreement (f : Findings) (hk : 0 ≤ svc.rrfK) (hnone : svc.reranker = .none) :
    ∃ order, hybridOrder svc.rrfK (idsOf f.dense) (idsOf f.keyword) = .ok order ∧
      (∀ tenantId query topN, query.strip ≠ [] → 1 ≤ svc.limit topN → ∃ chunks,
        evalE f.answer (svc.search tenantId query .hybrid topN) () = ((), .ok chunks) ∧
        chunks.map (·.chunkId) = order.take (svc.limit topN).toNat) ∧
      (∀ x y, Dominates [idsOf f.dense, idsOf f.keyword] x y → order.idxOf x < order.idxOf y) ∧
      (f.keyword = [] → order = idsOf f.dense) ∧ (f.dense = [] → order = idsOf f.keyword) ∧
      hybridOrder svc.rrfK (idsOf f.keyword) (idsOf f.dense) = .ok order ∧
      (∀ x dense, dense.Nodup → Promotes x (idsOf f.dense) dense → ∃ order',
        hybridOrder svc.rrfK dense (idsOf f.keyword) = .ok order' ∧
        order'.idxOf x ≤ order.idxOf x) ∧
      ∀ x keyword, keyword.Nodup → Promotes x (idsOf f.keyword) keyword → ∃ order',
        hybridOrder svc.rrfK (idsOf f.dense) keyword = .ok order' ∧
        order'.idxOf x ≤ order.idxOf x := by
  have hw := strictAnti_rrfWeight hk
  obtain ⟨order, horder, hfuses⟩ := hybridOrder_fuses hk f.dense_nodup f.keyword_nodup
  refine ⟨order, horder, fun _ _ _ => search_fuses hk hnone hfuses, fun x y => hfuses.precedes hw,
    fun hnil => ?_, fun hnil => ?_, ?_, fun x dense hdense hup => ?_, fun x keyword hkeyword hup => ?_⟩
  · refine hfuses.unique (.of_alone hw f.dense_nodup List.mem_cons_self fun l hl => ?_)
    simpa [hnil, idsOf] using hl
  · refine hfuses.unique (.of_alone hw f.keyword_nodup (by simp) fun l hl => ?_)
    simpa [hnil, idsOf, or_comm] using hl
  · obtain ⟨order', horder', hfuses'⟩ := hybridOrder_fuses hk f.keyword_nodup f.dense_nodup
    rw [horder', hfuses'.unique (hfuses.of_perm (.swap ..))]
  · obtain ⟨order', horder', hfuses'⟩ := hybridOrder_fuses hk hdense f.keyword_nodup
    exact ⟨order', horder', hfuses.idxOf_le hfuses' hw.antitone
      (.cons hup (.cons (.refl x _) .nil))⟩
  · obtain ⟨order', horder', hfuses'⟩ := hybridOrder_fuses hk f.dense_nodup hkeyword
    exact ⟨order', horder', hfuses.idxOf_le hfuses' hw.antitone
      (.cons (.refl x _) (.cons hup .nil))⟩

end

theorem fusion_respects_agreement_findings :
    ∃ order, hybridOrder 60 [1, 2, 3] [2, 4] = .ok order ∧ order.idxOf 2 < order.idxOf 3 := by
  obtain ⟨order, horder, -, hprecedes, -⟩ :=
    @fusion_respects_agreement Sample.fusing Sample.findings (by decide) rfl
  exact ⟨order, horder, hprecedes 2 3 ⟨by decide, _, List.mem_cons_self, by decide⟩⟩

end RagPlatform
