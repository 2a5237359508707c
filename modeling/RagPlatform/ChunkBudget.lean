import RagPlatform.ChunkWindows

/-! How many tokens a chunk has by the count of its sentences. -/

namespace RagPlatform

open Lib

/-- Sentences fit in the target, and so do chunks, but for what is carried into them. -/
theorem chunks_within_budget (blocks : List Block) (target overlap : Int) (htarget : 1 ≤ target)
    (hoverlap : 0 ≤ overlap) (h : overlap < target) :
    (∀ s ∈ sentences blocks target, 1 ≤ s.tokens ∧ s.tokens ≤ target) ∧
    ∃ vs, Chunked blocks target overlap vs ∧
      (∀ v ∈ vs, (chunkOf (v.of (sentences blocks target))).tokenCount =
          ((v.of (sentences blocks target)).map fun s => estimateTokens s.text).sum ∧
        1 ≤ tokensIn (sentences blocks target) v ∧
        tokensIn (sentences blocks target) v ≤ target + overlap) ∧
      (∀ v ∈ vs.head?, tokensIn (sentences blocks target) v ≤ target) ∧
      vs.IsChain fun v v' =>
        (v'.start = v.stop → tokensIn (sentences blocks target) v' ≤ target) ∧
        ∃ s, (sentences blocks target)[v.stop]? = some s ∧
          target < tokensIn (sentences blocks target) v + s.tokens := by
  have hunits : ∀ s ∈ sentences blocks target, s.tokens ≤ target :=
    fun s hs => (unit_sound hs).2.2 htarget
  have hpos := positive_sentences blocks target
  refine ⟨fun s hs => ⟨hpos s hs, hunits s hs⟩, ?_⟩
  obtain ⟨vs, hchunked, hgreedy⟩ := exists_chunked h (splittable_of_nonneg blocks (by omega))
  have hfirst := hgreedy.weigh_first hunits
  have hnext := hgreedy.weigh_next hunits
  refine ⟨vs, hchunked, fun v hv => ⟨?_, ?_, hgreedy.weigh_le hunits hoverlap v hv⟩, hfirst,
    hnext.imp_of_mem_imp ?_⟩
  · refine congrArg List.sum (List.map_congr_left fun s hs => ?_)
    exact tokens_sentences (v.subset_of _ hs)
  · obtain ⟨hstart, hstop⟩ := hgreedy.bounded v hv
    exact weigh_pos (Window.of_ne_nil hstart hstop) fun s hs => hpos s (v.subset_of _ hs)
  · rintro v v' hv hv' ⟨hcut, hnext⟩
    have hlen : v.stop < (sentences blocks target).length :=
      hcut.stop_lt.trans_le (hgreedy.bounded v' hv').2
    refine ⟨fun hfresh => ?_, _, List.getElem?_eq_getElem hlen,
      hcut.full _ (List.getElem?_eq_getElem hlen)⟩
    rw [hfresh, Window.of_empty, weigh_nil] at hnext
    unfold tokensIn
    omega

theorem pages_within_budget :
    (∀ s ∈ sentences Sample.pages 3, 1 ≤ s.tokens ∧ s.tokens ≤ 3) ∧
    ∃ vs, Chunked Sample.pages 3 1 vs ∧
      ∀ v ∈ vs, 1 ≤ tokensIn (sentences Sample.pages 3) v ∧
        tokensIn (sentences Sample.pages 3) v ≤ 3 + 1 := by
  obtain ⟨hunits, vs, hchunked, hbounds, -⟩ :=
    chunks_within_budget Sample.pages 3 1 (by decide) (by decide) (by decide)
  exact ⟨hunits, vs, hchunked, fun v hv => (hbounds v hv).2⟩

end RagPlatform
