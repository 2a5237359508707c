import RagPlatform.Ingestion.PackingLaws
import RagPlatform.Ingestion.WordLaws

/-! Chunks are windows of the stream of sentences: nothing is lost, reordered or split, and what is
repeated is the overlap. -/

namespace RagPlatform

open Lib

structure Chunked (blocks : List Block) (target overlap : Int) (vs : List Window) : Prop where
  chunks : chunkBlocks blocks target overlap =
    .ok (vs.map fun v => chunkOf (v.of (sentences blocks target)))
  tiles : Tiles (sentences blocks target).length vs

theorem exists_chunked {blocks : List Block} {target overlap : Int} (h : overlap < target)
    (hsplits : Splittable blocks target) :
    ∃ vs, Chunked blocks target overlap vs ∧
      Greedy Sentence.tokens target overlap (sentences blocks target) vs := by
  obtain ⟨vs, hgreedy, hchunks⟩ := chunkBlocks_windows h hsplits
  exact ⟨vs, ⟨hchunks, hgreedy.tiles⟩, hgreedy⟩

theorem sentences_eq_nil_iff {blocks : List Block} {target : Int} :
    sentences blocks target = [] ↔ ∀ b ∈ blocks, Str.words b.text = [] := by
  rw [← List.flatMap_eq_nil_iff, ← words_sentences blocks target, List.flatMap_eq_nil_iff]
  constructor
  · intro hnil s hs
    rw [hnil] at hs
    cases hs
  · intro hnone
    exact List.eq_nil_iff_forall_not_mem.mpr fun s hs => (unit_sound hs).1 (hnone s hs)

/-- Every word of the blocks is in the stream, every sentence of the stream is in a chunk, and two
neighbouring chunks share the overlap only; for a target that is no `float`, as long as there is
no word. -/
theorem chunks_tile (blocks : List Block) (target overlap : Int) (h : overlap < target)
    (hfloat : -floatBound < target ∨ ∀ b ∈ blocks, Str.words b.text = []) :
    (sentences blocks target).flatMap (fun s => Str.words s.text) =
      blocks.flatMap (fun b => Str.words b.text) ∧
    ∃ vs, Chunked blocks target overlap vs ∧
      (∀ i < (sentences blocks target).length, ∃ v ∈ vs, v.start ≤ i ∧ i < v.stop) ∧
      (vs.IsChain fun v v' => ∀ i, (v.start ≤ i ∧ i < v.stop) ∧ (v'.start ≤ i ∧ i < v'.stop) ↔
        v'.start ≤ i ∧ i < v.stop) ∧
      (chunkBlocks blocks target overlap = .ok [] ↔ ∀ b ∈ blocks, Str.words b.text = []) := by
  refine ⟨words_sentences blocks target, ?_⟩
  have hsplits : Splittable blocks target := hfloat.symm.imp_left sentences_eq_nil_iff.mpr
  obtain ⟨vs, hchunked, hgreedy⟩ := exists_chunked h hsplits
  refine ⟨vs, hchunked, fun i hi => ?_, hchunked.tiles.follows.imp fun v v' hv i => ?_, ?_⟩
  · refine hchunked.tiles.covers (fun hnil => ?_) hi
    rw [hgreedy.nil_iff.mp hnil] at hi
    exact Nat.not_lt_zero i hi
  · have hstart := hv.start_lt
    have hstop := hv.stop_lt
    omega
  · rw [hchunked.chunks, ← sentences_eq_nil_iff, ← hgreedy.nil_iff, Except.ok.injEq,
      List.map_eq_nil_iff]

namespace Sample

/-- Two pages: `A b. C. D` and `E. F`. -/
def pages : List Block :=
  [⟨['A', ' ', 'b', '.', ' ', 'C', '.', ' ', 'D'], { page := some 1 }⟩,
    ⟨['E', '.', ' ', 'F'], { page := some 2 }⟩]

end Sample

theorem pages_tile :
    (sentences Sample.pages 3).flatMap (fun s => Str.words s.text) =
        [['A'], ['b', '.'], ['C', '.'], ['D'], ['E', '.'], ['F']] ∧
      chunkBlocks Sample.pages 3 1 ≠ .ok [] := by
  obtain ⟨hwords, vs, -, -, -, hempty⟩ :=
    chunks_tile Sample.pages 3 1 (by decide) (.inl (by decide +kernel))
  exact ⟨hwords.trans (by decide), fun h => absurd (hempty.mp h) (by decide)⟩

/-- `int(hard_limit * 0.75)` overflows on the first word. -/
theorem chunks_overflow :
    chunkBlocks [⟨"hi".toList, {}⟩] (-10 ^ 400) (-10 ^ 401) = .error overflowError ∧
      ¬∃ vs, Chunked [⟨"hi".toList, {}⟩] (-10 ^ 400) (-10 ^ 401) vs := by
  have hover : chunkBlocks [⟨"hi".toList, {}⟩] (-10 ^ 400) (-10 ^ 401) = .error overflowError := by
    decide +kernel
  exact ⟨hover, fun ⟨vs, hvs⟩ => by cases hover.symm.trans hvs.chunks⟩

/-- What a chunk opens with is the longest end of the one before that fits in the overlap, and
nothing where all of that one would. -/
theorem overlap_carried (blocks : List Block) (target overlap : Int) (hoverlap : 0 ≤ overlap)
    (h : overlap < target) :
    ∃ vs, Chunked blocks target overlap vs ∧ vs.IsChain fun v v' =>
      (tokensIn (sentences blocks target) v ≤ overlap → v'.start = v.stop) ∧
      (overlap < tokensIn (sentences blocks target) v →
        tokensIn (sentences blocks target) ⟨v'.start, v.stop⟩ ≤ overlap ∧
        ∀ start, v.start ≤ start → start < v'.start →
          overlap < tokensIn (sentences blocks target) ⟨start, v.stop⟩) := by
  obtain ⟨vs, hchunked, hgreedy⟩ :=
    exists_chunked h (splittable_of_nonneg blocks (hoverlap.trans h.le))
  exact ⟨vs, hchunked, hgreedy.next.imp fun v v' hv =>
    ⟨hv.whole, fun hover => ⟨hv.toCarries.weigh_le hoverlap, hv.longest hover⟩⟩⟩

theorem pages_overlap :
    ∃ vs, Chunked Sample.pages 3 1 vs ∧ vs.IsChain fun v v' =>
      (tokensIn (sentences Sample.pages 3) v ≤ 1 → v'.start = v.stop) ∧
      (1 < tokensIn (sentences Sample.pages 3) v →
        tokensIn (sentences Sample.pages 3) ⟨v'.start, v.stop⟩ ≤ 1 ∧
        ∀ start, v.start ≤ start → start < v'.start →
          1 < tokensIn (sentences Sample.pages 3) ⟨start, v.stop⟩) :=
  overlap_carried Sample.pages 3 1 (by decide) (by decide)

end RagPlatform
