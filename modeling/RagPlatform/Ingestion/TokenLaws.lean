import Mathlib.Algebra.Order.Floor.Ring
import Mathlib.Data.Rat.Floor
import Mathlib.Tactic.FieldSimp
import Mathlib.Tactic.Linarith
import RagPlatform.Ingestion.Chunking

/-! What the estimate makes of a number of words. -/

namespace RagPlatform

open Lib

/-- `max(1, round(n / 0.75))`, where nothing lies half-way. -/
def tokensOf (n : Nat) : Int := max 1 ((4 * n + 1) / 3)

theorem pyRound_of_near {q : Rat} {z : Int} (hlo : z - 1 / 2 < q) (hhi : q < z + 1 / 2) :
    pyRound q = z := by
  have hle : (q.floor : Rat) ≤ q := Int.floor_le q
  have hlt : q < q.floor + 1 := Int.lt_floor_add_one q
  have hdown (h : (z : Rat) < q.floor + 1) : z ≤ q.floor := Int.lt_add_one_iff.mp (by exact_mod_cast h)
  have hup (h : (q.floor : Rat) < z + 1) : q.floor ≤ z := Int.lt_add_one_iff.mp (by exact_mod_cast h)
  have hup' (h : (q.floor : Rat) < z) : q.floor + 1 ≤ z := Int.add_one_le_iff.mpr (by exact_mod_cast h)
  have hbelow := hup (by linarith)
  simp only [pyRound]
  split
  · next hr =>
    exact le_antisymm hbelow (hdown (by linarith))
  · split
    · next hr hr' =>
      have hz : (z : Rat) < (q.floor + 1 : Int) + 1 := by
        push_cast
        linarith
      have hz' : z ≤ q.floor + 1 := Int.lt_add_one_iff.mp (by exact_mod_cast hz)
      exact le_antisymm (hup' (by linarith)) hz'
    · next hr hr' =>
      have hfloor := hup' (by linarith)
      have hz := hdown (by linarith)
      omega

theorem pyRound_words (n : Nat) : pyRound (n / (3 / 4)) = (4 * n + 1) / 3 := by
  have hlo : 3 * ((4 * n + 1) / 3 : Int) ≤ 4 * n + 1 := by omega
  have hhi : (4 * n + 1 : Int) ≤ 3 * ((4 * n + 1) / 3) + 2 := by omega
  have hlo' : 3 * (((4 * n + 1) / 3 : Int) : Rat) ≤ 4 * n + 1 := by exact_mod_cast hlo
  have hhi' : (4 * n + 1 : Rat) ≤ 3 * (((4 * n + 1) / 3 : Int) : Rat) + 2 := by exact_mod_cast hhi
  have hq : (n : Rat) / (3 / 4) = 4 * n / 3 := by
    field_simp
  rw [hq]
  refine pyRound_of_near ?_ ?_
  · linarith
  · linarith

theorem estimateTokens_eq (text : Str) : estimateTokens text = tokensOf (Str.words text).length := by
  rw [estimateTokens, pyRound_words, tokensOf]

theorem tokensOf_le_iff {n : Nat} {t : Int} : tokensOf n ≤ t ↔ 1 ≤ t ∧ 4 * n ≤ 3 * t + 1 := by
  unfold tokensOf
  omega

end RagPlatform
