import Mathlib.Data.List.Induction

/-! Things that are made unfinished, by parties that are to finish them. -/

namespace RagPlatform.Lib

structure Debts (ι κ : Type*) where
  due : κ → Prop
  owes : ι → κ → Prop

namespace Debts

variable {ι κ : Type*} {D E : Debts ι κ} {k : κ}

/-- A party owes one thing at a time, which is due, and which nobody else owes. -/
structure Sound (D : Debts ι κ) : Prop where
  due : ∀ i k, D.owes i k → D.due k
  single : ∀ i k k', D.owes i k → D.owes i k' → k = k'
  unique : ∀ i j k, D.owes i k → D.owes j k → i = j

def Covered (D : Debts ι κ) : Prop := ∀ k, D.due k → ∃ i, D.owes i k

def Stranded (D : Debts ι κ) (k : κ) : Prop := D.due k ∧ ∀ i, ¬D.owes i k

inductive Step (D E : Debts ι κ) : Prop
  | idle : (∀ k, E.due k ↔ D.due k) → (∀ i k, E.owes i k ↔ D.owes i k) → Step D E
  | incur (i : ι) (k : κ) : ¬D.due k → (∀ k', ¬D.owes i k') →
    (∀ k', E.due k' ↔ k' = k ∨ D.due k') →
    (∀ j k', E.owes j k' ↔ j = i ∧ k' = k ∨ D.owes j k') → Step D E
  | settle (i : ι) (k : κ) : D.owes i k → (∀ k', E.due k' ↔ k' ≠ k ∧ D.due k') →
    (∀ j k', E.owes j k' ↔ j ≠ i ∧ D.owes j k') → Step D E

/-- Something is made that nobody owes, or is left by the one who does. -/
inductive Breach (D E : Debts ι κ) : Prop
  | unowed (k : κ) : ¬D.due k → (∀ k', E.due k' ↔ k' = k ∨ D.due k') →
    (∀ j k', E.owes j k' ↔ D.owes j k') → Breach D E
  | left (i : ι) (k : κ) : D.owes i k → (∀ k', E.due k' ↔ D.due k') →
    (∀ j k', E.owes j k' ↔ j ≠ i ∧ D.owes j k') → Breach D E

theorem Covered.not_stranded (h : D.Covered) : ¬D.Stranded k := fun hk =>
  (h k hk.1).elim hk.2

theorem Step.sound (h : Step D E) (hD : D.Sound) : E.Sound := by
  cases h with
  | idle hdue howes =>
    refine ⟨fun i k h => ?_, fun i k k' h h' => ?_, fun i j k h h' => ?_⟩
    · exact (hdue k).mpr (hD.due i k ((howes i k).mp h))
    · exact hD.single i k k' ((howes i k).mp h) ((howes i k').mp h')
    · exact hD.unique i j k ((howes i k).mp h) ((howes j k).mp h')
  | incur i k hk hi hdue howes =>
    have hnew (j : ι) : ¬D.owes j k := fun h => hk (hD.due j k h)
    refine ⟨fun j k' h => ?_, fun j k' k'' h h' => ?_, fun j j' k' h h' => ?_⟩
    · obtain ⟨-, rfl⟩ | h := (howes j k').mp h
      · exact (hdue k').mpr (.inl rfl)
      · exact (hdue k').mpr (.inr (hD.due j k' h))
    · obtain ⟨rfl, rfl⟩ | h := (howes j k').mp h
      · obtain ⟨-, rfl⟩ | h' := (howes j k'').mp h'
        · rfl
        · exact absurd h' (hi k'')
      · obtain ⟨rfl, -⟩ | h' := (howes j k'').mp h'
        · exact absurd h (hi k')
        · exact hD.single j k' k'' h h'
    · obtain ⟨rfl, rfl⟩ | h := (howes j k').mp h
      · obtain ⟨rfl, -⟩ | h' := (howes j' k').mp h'
        · rfl
        · exact absurd h' (hnew j')
      · obtain ⟨-, rfl⟩ | h' := (howes j' k').mp h'
        · exact absurd h (hnew j)
        · exact hD.unique j j' k' h h'
  | settle i k hk hdue howes =>
    refine ⟨fun j k' h => ?_, fun j k' k'' h h' => ?_, fun j j' k' h h' => ?_⟩
    · obtain ⟨hj, h⟩ := (howes j k').mp h
      refine (hdue k').mpr ⟨?_, hD.due j k' h⟩
      rintro rfl
      exact hj (hD.unique j i k' h hk)
    · exact hD.single j k' k'' ((howes j k').mp h).2 ((howes j k'').mp h').2
    · exact hD.unique j j' k' ((howes j k').mp h).2 ((howes j' k').mp h').2

theorem Breach.sound (h : Breach D E) (hD : D.Sound) : E.Sound := by
  cases h with
  | unowed k _ hdue howes =>
    refine ⟨fun i k' h => ?_, fun i k' k'' h h' => ?_, fun i j k' h h' => ?_⟩
    · exact (hdue k').mpr (.inr (hD.due i k' ((howes i k').mp h)))
    · exact hD.single i k' k'' ((howes i k').mp h) ((howes i k'').mp h')
    · exact hD.unique i j k' ((howes i k').mp h) ((howes j k').mp h')
  | left i k _ hdue howes =>
    refine ⟨fun j k' h => ?_, fun j k' k'' h h' => ?_, fun j j' k' h h' => ?_⟩
    · exact (hdue k').mpr (hD.due j k' ((howes j k').mp h).2)
    · exact hD.single j k' k'' ((howes j k').mp h).2 ((howes j k'').mp h').2
    · exact hD.unique j j' k' ((howes j k').mp h).2 ((howes j' k').mp h').2

theorem Step.covered (h : Step D E) (hD : D.Sound) (hcovered : D.Covered) : E.Covered := by
  intro k' hk'
  cases h with
  | idle hdue howes =>
    obtain ⟨i, hi⟩ := hcovered k' ((hdue k').mp hk')
    exact ⟨i, (howes i k').mpr hi⟩
  | incur i k _ _ hdue howes =>
    obtain rfl | hk' := (hdue k').mp hk'
    · exact ⟨i, (howes i k').mpr (.inl ⟨rfl, rfl⟩)⟩
    · obtain ⟨j, hj⟩ := hcovered k' hk'
      exact ⟨j, (howes j k').mpr (.inr hj)⟩
  | settle i k hk hdue howes =>
    obtain ⟨hne, hk'⟩ := (hdue k').mp hk'
    obtain ⟨j, hj⟩ := hcovered k' hk'
    refine ⟨j, (howes j k').mpr ⟨?_, hj⟩⟩
    rintro rfl
    exact hne (hD.single j k' k hj hk)

theorem Breach.exists_stranded (h : Breach D E) (hD : D.Sound) : ∃ k, E.Stranded k := by
  cases h with
  | unowed k hk hdue howes =>
    exact ⟨k, (hdue k).mpr (.inl rfl), fun i hi => hk (hD.due i k ((howes i k).mp hi))⟩
  | left i k hk hdue howes =>
    refine ⟨k, (hdue k).mpr (hD.due i k hk), fun j hj => ?_⟩
    obtain ⟨hne, hj⟩ := (howes j k).mp hj
    exact hne (hD.unique j i k hj hk)

theorem Step.stranded (h : Step D E) (hk : D.Stranded k) : E.Stranded k := by
  cases h with
  | idle hdue howes => exact ⟨(hdue k).mpr hk.1, fun i hi => hk.2 i ((howes i k).mp hi)⟩
  | incur i k' hk' _ hdue howes =>
    refine ⟨(hdue k).mpr (.inr hk.1), fun j hj => ?_⟩
    obtain ⟨-, rfl⟩ | hj := (howes j k).mp hj
    · exact hk' hk.1
    · exact hk.2 j hj
  | settle i k' hk' hdue howes =>
    refine ⟨(hdue k).mpr ⟨?_, hk.1⟩, fun j hj => hk.2 j ((howes j k).mp hj).2⟩
    rintro rfl
    exact hk.2 i hk'

theorem Breach.stranded (h : Breach D E) (hk : D.Stranded k) : E.Stranded k := by
  cases h with
  | unowed k' _ hdue howes =>
    exact ⟨(hdue k).mpr (.inr hk.1), fun i hi => hk.2 i ((howes i k).mp hi)⟩
  | left i k' _ hdue howes =>
    exact ⟨(hdue k).mpr hk.1, fun j hj => hk.2 j ((howes j k).mp hj).2⟩

/-- In the states of `I`, every action but a breach treats the debts as a step does. -/
structure Accounts {σ α : Type*} (next : σ → α → σ) (debts : σ → Debts ι κ)
    (breach : σ → α → Prop) (I : σ → Prop) : Prop where
  keeps : ∀ s a, I s → (debts s).Sound → I (next s a)
  step : ∀ s a, I s → (debts s).Sound → ¬breach s a → Step (debts s) (debts (next s a))
  breach : ∀ s a, I s → (debts s).Sound → breach s a → Breach (debts s) (debts (next s a))

namespace Accounts

variable {σ α : Type*} {next : σ → α → σ} {debts : σ → Debts ι κ} {breach : σ → α → Prop}
variable {I : σ → Prop} (h : Accounts next debts breach I) {s : σ} {as : List α}
include h

theorem next_sound {a : α} (hI : I s) (hs : (debts s).Sound) : (debts (next s a)).Sound := by
  by_cases ha : breach s a
  · exact (h.breach s a hI hs ha).sound hs
  · exact (h.step s a hI hs ha).sound hs

theorem sound (as : List α) (hI : I s) (hs : (debts s).Sound) :
    I (as.foldl next s) ∧ (debts (as.foldl next s)).Sound := by
  induction as generalizing s with
  | nil => exact ⟨hI, hs⟩
  | cons a as ih => exact ih (h.keeps s a hI hs) (h.next_sound hI hs)

theorem stranded (hI : I s) (hs : (debts s).Sound) (hk : (debts s).Stranded k) :
    (debts (as.foldl next s)).Stranded k := by
  induction as generalizing s with
  | nil => exact hk
  | cons a as ih =>
    refine ih (h.keeps s a hI hs) (h.next_sound hI hs) ?_
    by_cases ha : breach s a
    · exact (h.breach s a hI hs ha).stranded hk
    · exact (h.step s a hI hs ha).stranded hk

theorem covered (hI : I s) (hs : (debts s).Sound) (hc : (debts s).Covered)
    (has : ∀ as' a, as' ++ [a] <+: as → ¬breach (as'.foldl next s) a) :
    (debts (as.foldl next s)).Covered := by
  induction as using List.reverseRecOn with
  | nil => exact hc
  | append_singleton as a ih =>
    have hcovered := ih fun as' a' hpre => has as' a' (hpre.trans (List.prefix_append as [a]))
    obtain ⟨hI', hs'⟩ := h.sound as hI hs
    rw [List.foldl_append]
    exact (h.step _ a hI' hs' (has as a (List.prefix_refl _))).covered hs' hcovered

theorem never_covered {as' : List α} {a : α} (hI : I s) (hs : (debts s).Sound)
    (ha : breach (as.foldl next s) a) : ¬(debts ((as ++ a :: as').foldl next s)).Covered := by
  obtain ⟨hI', hs'⟩ := h.sound as hI hs
  obtain ⟨k, hk⟩ := (h.breach _ a hI' hs' ha).exists_stranded hs'
  rw [List.foldl_append, List.foldl_cons]
  exact fun hc => hc.not_stranded (h.stranded (h.keeps _ a hI' hs') (h.next_sound hI' hs') hk)

theorem covered_iff (hI : I s) (hs : (debts s).Sound) (hc : (debts s).Covered) :
    (∀ as', as' <+: as → (debts (as'.foldl next s)).Covered) ↔
      ∀ as' a, as' ++ [a] <+: as → ¬breach (as'.foldl next s) a := by
  constructor
  · intro hall as' a hpre ha
    exact h.never_covered hI hs ha (hall (as' ++ [a]) hpre)
  · intro has as' hpre
    exact h.covered hI hs hc fun as'' a hpre' => has as'' a (hpre'.trans hpre)

end Accounts

end Debts

end RagPlatform.Lib
