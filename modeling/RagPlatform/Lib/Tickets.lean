import Mathlib.Data.Set.Card
import Mathlib.Order.Interval.Finset.Nat

/-! Tickets numbered from one: who is served when only so many are. -/

namespace RagPlatform.Lib

variable {ι : Type} {R : ι → Nat → Prop} {n k : Nat}

/-- `R i c` where `i` has drawn ticket `c`, and `n` tickets are out. -/
structure Drawn (R : ι → Nat → Prop) (n : Nat) : Prop where
  range : ∀ {i c}, R i c → 1 ≤ c ∧ c ≤ n
  all : ∀ c, 1 ≤ c → c ≤ n → ∃ i, R i c
  owner : ∀ {i j c}, R i c → R j c → i = j
  once : ∀ {i c d}, R i c → R i d → c = d

namespace Drawn

theorem congr {R' : ι → Nat → Prop} (h : Drawn R n) (hR : ∀ i c, R' i c ↔ R i c) : Drawn R' n := by
  have he : R' = R := funext₂ fun i c => propext (hR i c)
  rwa [he]

theorem zero (h : ∀ i c, ¬ R i c) : Drawn R 0 where
  range hr := absurd hr (h _ _)
  all c h1 h0 := by omega
  owner hr := absurd hr (h _ _)
  once hr := absurd hr (h _ _)

theorem draw {i : ι} (h : Drawn R n) (hi : ∀ c, ¬ R i c) :
    Drawn (fun j c => R j c ∨ j = i ∧ c = n + 1) (n + 1) where
  range := by
    rintro j c (hr | ⟨-, rfl⟩)
    · have := h.range hr
      omega
    · omega
  all c h1 hn := by
    by_cases hc : c = n + 1
    · exact ⟨i, .inr ⟨rfl, hc⟩⟩
    · obtain ⟨j, hj⟩ := h.all c h1 (by omega)
      exact ⟨j, .inl hj⟩
  owner := by
    rintro j j' c (hr | ⟨hj, hc⟩) (hr' | ⟨hj', hc'⟩)
    · exact h.owner hr hr'
    · have := h.range hr
      omega
    · have := h.range hr'
      omega
    · exact hj.trans hj'.symm
  once := by
    rintro j c d (hr | ⟨rfl, hc⟩) (hr' | ⟨hj, hd⟩)
    · exact h.once hr hr'
    · exact absurd (hj ▸ hr) (hi c)
    · exact absurd hr' (hi d)
    · exact hc.trans hd.symm

/-- The holders of the tickets up to `k`, one for each. -/
theorem holders [Nonempty ι] (h : Drawn R n) (k : Nat) : ∃ f : Nat → ι,
    {i | ∃ c ≤ k, R i c} = f '' Set.Icc 1 (min n k) ∧ Set.InjOn f (Set.Icc 1 (min n k)) := by
  choose! f hf using h.all
  refine ⟨f, ?_, ?_⟩
  · ext i
    constructor
    · rintro ⟨c, hc, hr⟩
      have hrange := h.range hr
      exact ⟨c, ⟨hrange.1, le_min hrange.2 hc⟩, h.owner (hf c hrange.1 hrange.2) hr⟩
    · rintro ⟨c, ⟨h1, hc⟩, rfl⟩
      exact ⟨c, hc.trans (min_le_right _ _), hf c h1 (hc.trans (min_le_left _ _))⟩
  · intro c hc d hd he
    have hc' := hf c hc.1 (hc.2.trans (min_le_left _ _))
    rw [he] at hc'
    exact h.once hc' (hf d hd.1 (hd.2.trans (min_le_left _ _)))

theorem finite (h : Drawn R n) (k : Nat) : {i | ∃ c ≤ k, R i c}.Finite := by
  rcases isEmpty_or_nonempty ι with hempty | hsome
  · exact Set.toFinite _
  · obtain ⟨f, hf, -⟩ := h.holders k
    rw [hf]
    exact (Set.finite_Icc _ _).image f

/-- As many tickets up to `k` are out as there can be. -/
theorem ncard_le (h : Drawn R n) (k : Nat) : {i | ∃ c ≤ k, R i c}.ncard = min n k := by
  rcases isEmpty_or_nonempty ι with hempty | hsome
  · have hn : n = 0 := by
      by_contra hn
      obtain ⟨i, -⟩ := h.all 1 le_rfl (by omega)
      exact hempty.elim i
    have hnone : {i | ∃ c ≤ k, R i c} = ∅ := Set.eq_empty_of_isEmpty _
    rw [hn, hnone, Set.ncard_empty, Nat.zero_min]
  · obtain ⟨f, hf, hinj⟩ := h.holders k
    rw [hf, hinj.ncard_image, ← Finset.coe_Icc, Set.ncard_coe_finset, Nat.card_Icc,
      Nat.add_sub_cancel]

theorem ncard (h : Drawn R n) : {i | ∃ c, R i c}.ncard = n := by
  have hall : {i | ∃ c, R i c} = {i | ∃ c ≤ n, R i c} := by
    ext i
    constructor
    · rintro ⟨c, hr⟩
      exact ⟨c, (h.range hr).2, hr⟩
    · rintro ⟨c, -, hr⟩
      exact ⟨c, hr⟩
  rw [hall, h.ncard_le, min_self]

end Drawn

end RagPlatform.Lib
