import RagPlatform.Ingestion.ParserLaws
import RagPlatform.Ingestion.WordLaws

/-! Text that reaches the chunker leaves it in at least one chunk. -/

namespace RagPlatform

open Lib

theorem sentences_ne_nil (hardLimit : Int) {blocks : List Block} (hne : blocks ≠ [])
    (h : AllText blocks) : sentences blocks hardLimit ≠ [] := by
  obtain ⟨b, hb⟩ := List.exists_mem_of_ne_nil blocks hne
  intro hnil
  have hwords := words_sentences blocks hardLimit
  rw [hnil] at hwords
  have hnone : Str.words b.text = [] := List.flatMap_eq_nil_iff.mp hwords.symm b hb
  exact Str.words_eq_nil.mp hnone (h b hb)

theorem Packing.push_hasNew (target overlap : Int) (p : Packing) (s : Sentence) :
    (p.push target overlap s).hasNew = true := rfl

theorem Packing.foldl_hasNew (target overlap : Int) (p : Packing) {units : List Sentence}
    (h : units ≠ []) : (units.foldl (Packing.push target overlap) p).hasNew = true := by
  induction units generalizing p with
  | nil => exact absurd rfl h
  | cons s units ih =>
    cases units with
    | nil => exact push_hasNew target overlap p s
    | cons t units => exact ih _ (List.cons_ne_nil t units)

/-- There is nothing to split, or the limit is a `float`. -/
def Splittable (blocks : List Block) (hardLimit : Int) : Prop :=
  sentences blocks hardLimit = [] ∨ -floatBound < hardLimit

theorem splittable_of_nonneg (blocks : List Block) {hardLimit : Int} (h : 0 ≤ hardLimit) :
    Splittable blocks hardLimit := by
  have hpos : 0 < floatBound := by decide +kernel
  exact .inr (by omega)

theorem splittable_iff {blocks : List Block} {hardLimit : Int} :
    Splittable blocks hardLimit ↔ ¬(hardLimit ≤ -floatBound ∧ sentences blocks hardLimit ≠ []) := by
  rw [Splittable, not_and_or, not_not, Int.not_le, or_comm]

theorem chunkBlocks_overflows {blocks : List Block} {target overlap : Int} (h : overlap < target)
    (hsplits : ¬Splittable blocks target) :
    chunkBlocks blocks target overlap = .error overflowError := by
  rw [splittable_iff, not_not] at hsplits
  rw [chunkBlocks, if_neg (Int.not_le.mpr h), if_pos hsplits]

theorem splittable_of_ok {blocks : List Block} {target overlap : Int} {drafts : List ChunkDraft}
    (h : chunkBlocks blocks target overlap = .ok drafts) :
    overlap < target ∧ Splittable blocks target := by
  unfold chunkBlocks at h
  split at h
  · cases h
  · next hlt =>
    split at h
    · cases h
    · next hsplits => exact ⟨Int.not_le.mp hlt, splittable_iff.mpr hsplits⟩

theorem chunkBlocks_ne_nil {blocks : List Block} {target overlap : Int} {drafts : List ChunkDraft}
    (hne : blocks ≠ []) (ht : AllText blocks) (h : chunkBlocks blocks target overlap = .ok drafts) :
    drafts ≠ [] := by
  obtain ⟨hlt, hsplits⟩ := splittable_of_ok h
  simp only [chunkBlocks, if_neg (Int.not_le.mpr hlt), if_neg (splittable_iff.mp hsplits),
    Packing.foldl_hasNew _ _ _ (sentences_ne_nil target hne ht), if_true, Except.ok.injEq] at h
  subst h
  simp [Packing.emit]

end RagPlatform
