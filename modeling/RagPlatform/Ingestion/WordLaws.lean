import RagPlatform.Ingestion.TokenLaws
import RagPlatform.Lib.Words

/-! Splitting text into sentences drops white space and nothing else. -/

namespace RagPlatform

open Lib Str

theorem isSpace_newline : isSpace '\n' = true := by decide

theorem words_splitFrom (mode : Scan) (prev : Option Char) (piece s : Str) :
    (splitFrom mode prev piece s).flatMap words =
      words ((match mode with | .text => piece.reverse | _ => []) ++ s) := by
  induction s generalizing mode prev piece with
  | nil =>
    cases mode with
    | text => simp [splitFrom]
    | spaces => rfl
    | newlines => rfl
  | cons c s ih =>
    cases mode with
    | text =>
      simp only [splitFrom]
      split
      · next hc =>
        rw [Bool.and_eq_true] at hc
        rw [List.flatMap_cons, ih, words_append_space hc.2]
        rfl
      · split
        · next hc =>
          simp only [Bool.and_eq_true, decide_eq_true_eq] at hc
          rw [List.flatMap_cons, ih, hc.1, words_append_space isSpace_newline]
          rfl
        · rw [ih]
          simp
    | spaces =>
      simp only [splitFrom]
      split
      · next hc =>
        rw [ih]
        exact (words_cons_space s hc).symm
      · exact ih ..
    | newlines =>
      simp only [splitFrom]
      split
      · next hc =>
        rw [ih, hc]
        exact (words_cons_space s isSpace_newline).symm
      · exact ih ..

theorem words_splitSentences (text : Str) : (splitSentences text).flatMap words = words text :=
  words_splitFrom .text none [] text

theorem flatten_slicesFrom {α : Type} {step : Nat} (h : 0 < step) (n : Nat) (xs : List α)
    (hn : xs.length ≤ n) : (slicesFrom step n xs).flatten = xs := by
  induction n generalizing xs with
  | zero => exact (List.length_eq_zero_iff.mp (Nat.le_zero.mp hn)).symm
  | succ n ih =>
    cases xs with
    | nil => rfl
    | cons x xs =>
      have hrest : (slicesFrom step n ((x :: xs).drop step)).flatten = (x :: xs).drop step := by
        refine ih _ ?_
        rw [List.length_drop]
        omega
      change (x :: xs).take step ++ (slicesFrom step n ((x :: xs).drop step)).flatten = _
      rw [hrest, List.take_append_drop]

theorem flatten_slices {α : Type} {step : Nat} (h : 0 < step) (xs : List α) :
    (slices step xs).flatten = xs :=
  flatten_slicesFrom h _ xs (le_refl _)

theorem length_slice {α : Type} {step : Nat} (h : 0 < step) {n : Nat} {xs ys : List α}
    (hys : ys ∈ slicesFrom step n xs) : 0 < ys.length ∧ ys.length ≤ step := by
  induction n generalizing xs with
  | zero => cases hys
  | succ n ih =>
    cases xs with
    | nil => cases hys
    | cons x xs =>
      change ys ∈ (x :: xs).take step :: slicesFrom step n ((x :: xs).drop step) at hys
      obtain rfl | hys := List.mem_cons.mp hys
      · rw [List.length_take, List.length_cons]
        omega
      · exact ih hys

def unitWords (s : Sentence) : List Str := words s.text

theorem pieceSentences_eq (hardLimit : Int) (metadata : BlockMeta) (raw : Str) :
    ∃ parts : List (List Str), parts.flatten = words raw ∧ (∀ part ∈ parts, part ≠ []) ∧
      (1 ≤ hardLimit → ∀ part ∈ parts, tokensOf part.length ≤ hardLimit) ∧
      pieceSentences hardLimit metadata raw =
        parts.map fun part => sentence metadata (join [' '] part) := by
  have hwords : words (join [' '] (words raw)) = words raw :=
    words_join_words fun _ => isWord_of_mem
  simp only [pieceSentences]
  split
  · next hnil =>
    rw [hnil] at hwords
    exact ⟨[], hwords, by simp, by simp, rfl⟩
  · next hne =>
    split
    · next hfits =>
      rw [estimateTokens_eq, hwords] at hfits
      refine ⟨[words raw], List.append_nil _, fun part hpart hnil => hne ?_,
        fun _ part hpart => List.mem_singleton.mp hpart ▸ hfits, rfl⟩
      rw [← List.mem_singleton.mp hpart, hnil]
      rfl
    · have hstep : 0 < (max 1 ((hardLimit * 3).tdiv 4)).toNat := by omega
      rw [hwords]
      refine ⟨_, flatten_slices hstep _, fun part hpart =>
        List.length_pos_iff.mp (length_slice hstep hpart).1, fun hlimit part hpart => ?_, rfl⟩
      have hlength := (length_slice hstep hpart).2
      rw [Int.tdiv_eq_ediv_of_nonneg (by omega)] at hlength
      exact tokensOf_le_iff.mpr ⟨hlimit, by omega⟩

theorem words_part {raw : Str} {parts : List (List Str)} (h : parts.flatten = words raw)
    {part : List Str} (hpart : part ∈ parts) : words (join [' '] part) = part :=
  words_join_words fun _ hw => isWord_of_mem (h ▸ List.mem_flatten_of_mem hpart hw)

theorem words_pieceSentences (hardLimit : Int) (metadata : BlockMeta) (raw : Str) :
    (pieceSentences hardLimit metadata raw).flatMap unitWords = words raw := by
  obtain ⟨parts, hflat, -, -, heq⟩ := pieceSentences_eq hardLimit metadata raw
  rw [heq, List.flatMap_map, ← hflat, ← List.flatMap_id]
  exact List.flatMap_congr fun part hpart => words_part hflat hpart

theorem words_sentences (blocks : List Block) (hardLimit : Int) :
    (sentences blocks hardLimit).flatMap unitWords = blocks.flatMap fun b => words b.text := by
  unfold sentences
  rw [List.flatMap_assoc]
  refine List.flatMap_congr fun b _ => ?_
  rw [List.flatMap_assoc, ← words_splitSentences b.text]
  exact List.flatMap_congr fun raw _ => words_pieceSentences hardLimit b.metadata raw

theorem unit_sound {blocks : List Block} {hardLimit : Int} {s : Sentence}
    (h : s ∈ sentences blocks hardLimit) :
    unitWords s ≠ [] ∧ s.tokens = tokensOf (unitWords s).length ∧
      (1 ≤ hardLimit → s.tokens ≤ hardLimit) := by
  obtain ⟨b, -, h₁⟩ := List.mem_flatMap.mp h
  obtain ⟨raw, -, h₂⟩ := List.mem_flatMap.mp h₁
  obtain ⟨parts, hflat, hne, hfits, heq⟩ := pieceSentences_eq hardLimit b.metadata raw
  rw [heq] at h₂
  obtain ⟨part, hpart, rfl⟩ := List.mem_map.mp h₂
  have hwords : unitWords (sentence b.metadata (join [' '] part)) = part := words_part hflat hpart
  rw [hwords]
  have htokens : (sentence b.metadata (join [' '] part)).tokens = tokensOf part.length :=
    (estimateTokens_eq _).trans (congrArg (fun ws => tokensOf (List.length ws)) hwords)
  exact ⟨hne part hpart, htokens, fun hlimit => htokens ▸ hfits hlimit part hpart⟩

end RagPlatform
