import RagPlatform.Ingestion.ChunkingLaws
import RagPlatform.Lib.Windows

/-! The chunker packs its sentences as windows of their stream. -/

namespace RagPlatform

open Lib

def chunkOf (units : List Sentence) : ChunkDraft :=
  ⟨Str.join [' '] (units.map (·.text)), weigh Sentence.tokens units, mergeMeta units⟩

def tokensIn (units : List Sentence) (v : Window) : Int := weigh Sentence.tokens (v.of units)

def Positive (units : List Sentence) : Prop := ∀ s ∈ units, 0 < s.tokens

theorem estimateTokens_pos (text : Str) : 0 < estimateTokens text := by
  unfold estimateTokens
  omega

theorem pieceSentences_sound {hardLimit : Int} {metadata : BlockMeta} {raw : Str} {s : Sentence}
    (h : s ∈ pieceSentences hardLimit metadata raw) :
    s.tokens = estimateTokens s.text ∧ s.metadata = metadata := by
  simp only [pieceSentences] at h
  split at h
  · cases h
  · split at h
    · obtain rfl := List.mem_singleton.mp h
      exact ⟨rfl, rfl⟩
    · obtain ⟨words, -, rfl⟩ := List.mem_map.mp h
      exact ⟨rfl, rfl⟩

theorem tokens_sentences {blocks : List Block} {hardLimit : Int} {s : Sentence}
    (h : s ∈ sentences blocks hardLimit) : s.tokens = estimateTokens s.text := by
  obtain ⟨block, -, hs⟩ := List.mem_flatMap.mp h
  obtain ⟨raw, -, hs⟩ := List.mem_flatMap.mp hs
  exact (pieceSentences_sound hs).1

theorem positive_sentences (blocks : List Block) (hardLimit : Int) :
    Positive (sentences blocks hardLimit) := fun s hs =>
  tokens_sentences hs ▸ estimateTokens_pos s.text

theorem carry_eq (overlap : Int) {units kept : List Sentence} (h : Positive (units ++ kept))
    (hkept : weigh Sentence.tokens kept ≤ overlap ∨ kept = []) :
    Packing.carry overlap units.reverse (weigh Sentence.tokens kept) kept =
      longestSuffix Sentence.tokens overlap (units ++ kept) := by
  induction units using List.reverseRecOn generalizing kept with
  | nil => exact (longestSuffix_self hkept).symm
  | append_singleton units s ih =>
    rw [List.reverse_append, List.reverse_singleton, List.singleton_append, Packing.carry]
    split
    · next hover =>
      refine (longestSuffix_append (fun u hu => h u (List.mem_append_left kept hu)) hkept ?_).symm
      intro u hu
      rw [List.getLast?_concat] at hu
      cases hu
      exact hover
    · next hfits =>
      have hsum : weigh Sentence.tokens kept + s.tokens = weigh Sentence.tokens (s :: kept) := by
        rw [weigh_cons, Int.add_comm]
      rw [List.append_assoc, List.singleton_append] at h ⊢
      rw [hsum] at hfits ⊢
      exact ih h (.inl (Int.not_lt.mp hfits))

theorem carried_eq (overlap : Int) {units : List Sentence} (h : Positive units) :
    Packing.carried overlap units = carriedOver Sentence.tokens overlap units := by
  have hcarry : Packing.carry overlap units.reverse 0 [] =
      longestSuffix Sentence.tokens overlap units := by
    have hkey := @carry_eq overlap units [] (by rwa [List.append_nil]) (.inr rfl)
    rwa [List.append_nil] at hkey
  unfold Packing.carried carriedOver
  rw [hcarry]
  by_cases hwhole : weigh Sentence.tokens units ≤ overlap
  · rw [longestSuffix_self (.inl hwhole), if_pos hwhole]
    exact if_pos rfl
  · obtain ⟨k, hk, heq, hfits, -⟩ := longestSuffix_eq_drop Sentence.tokens overlap units
    rw [if_neg hwhole, heq]
    change (if (units.drop k).length = units.length then [] else units.drop k) = _
    split
    · next hlength =>
      rw [List.length_drop] at hlength
      have hzero : k = 0 ∨ k = units.length := by omega
      rcases hzero with rfl | rfl
      · obtain hlen | hfits := hfits
        · rw [hlen, List.drop_length]
        · exact absurd hfits hwhole
      · rw [List.drop_length]
    · rfl

structure Packing.Represents (p : Packing) (q : Packer Sentence) : Prop where
  chunks : p.chunks = q.done.map chunkOf
  current : p.current = q.current
  currentTokens : p.currentTokens = weigh Sentence.tokens q.current

theorem represents_push (target overlap : Int) {p : Packing} {q : Packer Sentence} (s : Sentence)
    (hpos : Positive q.current) (h : p.Represents q) :
    (p.push target overlap s).Represents (q.add Sentence.tokens target overlap s) := by
  obtain ⟨chunks, current, currentTokens⟩ := h
  unfold Packing.push Packer.add
  rw [current, currentTokens]
  split
  · refine ⟨?_, ?_, ?_⟩
    · change p.chunks ++ [_] = _
      rw [chunks, current, currentTokens, List.map_append]
      rfl
    · change Packing.carried overlap p.current ++ [s] = _
      rw [current, carried_eq overlap hpos]
    · change ((Packing.carried overlap p.current).map Sentence.tokens).sum + s.tokens = _
      rw [current, carried_eq overlap hpos, weigh_append, weigh_cons, weigh_nil]
      rw [Int.add_zero]
      rfl
  · refine ⟨chunks, ?_, ?_⟩
    · change p.current ++ [s] = _
      rw [current]
    · change p.currentTokens + s.tokens = _
      rw [currentTokens, weigh_append, weigh_cons, weigh_nil, Int.add_zero]

theorem represents_foldl (target overlap : Int) {units : List Sentence} (h : Positive units) :
    (units.foldl (Packing.push target overlap) {}).Represents
      (packed Sentence.tokens target overlap units) := by
  induction units using List.reverseRecOn with
  | nil => exact ⟨rfl, rfl, rfl⟩
  | append_singleton units s ih =>
    have hunits : Positive units := fun u hu => h u (List.mem_append_left [s] hu)
    rw [List.foldl_append, packed, List.foldl_append]
    refine represents_push target overlap s (fun u hu => hunits u ?_) (ih hunits)
    exact subset_packed_current Sentence.tokens target overlap units hu

theorem chunkBlocks_windows {blocks : List Block} {target overlap : Int} (h : overlap < target)
    (hsplits : Splittable blocks target) :
    ∃ vs, Greedy Sentence.tokens target overlap (sentences blocks target) vs ∧
      chunkBlocks blocks target overlap =
        .ok (vs.map fun v => chunkOf (v.of (sentences blocks target))) := by
  obtain ⟨vs, hgreedy, hvs⟩ := packed_greedy Sentence.tokens target overlap (sentences blocks target)
  obtain ⟨hchunks, hcurrent, htokens⟩ :=
    represents_foldl target overlap (positive_sentences blocks target)
  refine ⟨vs, hgreedy, ?_⟩
  have hall : vs.map (fun v => chunkOf (v.of (sentences blocks target))) =
      (packed Sentence.tokens target overlap (sentences blocks target)).windows.map chunkOf := by
    rw [hvs, List.map_map]
    rfl
  unfold chunkBlocks
  rw [if_neg (Int.not_le.mpr h), if_neg (splittable_iff.mp hsplits), hall]
  by_cases hunits : sentences blocks target = []
  · rw [hunits]
    rfl
  · have hlast : (packed Sentence.tokens target overlap (sentences blocks target)).current ≠ [] := by
      obtain ⟨ws, start, hcuts, hpacked⟩ := packed_windows Sentence.tokens target overlap hunits
      rw [hpacked]
      exact Window.of_ne_nil hcuts.start_lt (le_refl _)
    simp only [Packing.foldl_hasNew _ _ _ hunits, if_true, Packing.emit]
    rw [hchunks, hcurrent, htokens, Packer.windows, if_neg hlast, List.map_append]
    rfl

end RagPlatform
