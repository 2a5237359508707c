import Mathlib.Algebra.Order.BigOperators.Group.List
import Mathlib.Data.List.Forall2
import Mathlib.Data.List.Perm.Subperm
import Mathlib.Order.WithBot
import RagPlatform.Lib.Ties

/-! Rankings fused into one order, by a score that adds up what the places in them are worth. -/

namespace RagPlatform.Lib

variable {ι : Type*} [DecidableEq ι] {l l' : List ι} {x y : ι}

def placeOf (l : List ι) (x : ι) : WithTop Nat := if x ∈ l then .some (l.idxOf x) else ⊤

theorem placeOf_of_mem (h : x ∈ l) : placeOf l x = .some (l.idxOf x) := if_pos h

theorem placeOf_of_not_mem (h : x ∉ l) : placeOf l x = ⊤ := if_neg h

theorem mem_of_placeOf_lt {p : WithTop Nat} (h : placeOf l x < p) : x ∈ l := by
  by_contra hx
  rw [placeOf_of_not_mem hx] at h
  exact not_top_lt h

theorem mem_of_placeOf_le (h : placeOf l' y ≤ placeOf l x) (hx : x ∈ l) : y ∈ l' := by
  rw [placeOf_of_mem hx] at h
  exact mem_of_placeOf_lt (h.trans_lt (WithTop.coe_lt_top _))

theorem pairwise_placeOf (h : l.Nodup) : l.Pairwise fun x y => placeOf l x < placeOf l y := by
  rw [List.pairwise_iff_getElem]
  intro i j hi hj hij
  rw [placeOf_of_mem (List.getElem_mem hi), placeOf_of_mem (List.getElem_mem hj), h.idxOf_getElem i hi,
    h.idxOf_getElem j hj]
  exact WithTop.coe_lt_coe.mpr hij

theorem idxOf_of_erase (h : y ≠ x) (hy : y ∈ l) : l.idxOf y =
    if (l.erase x).idxOf y < l.idxOf x then (l.erase x).idxOf y else (l.erase x).idxOf y + 1 := by
  induction l with
  | nil => cases hy
  | cons a l ih =>
    by_cases hax : a = x
    · subst hax
      rw [List.erase_cons_head, List.idxOf_cons_self, List.idxOf_cons_ne _ h.symm,
        if_neg (Nat.not_lt_zero _)]
    · rw [List.erase_cons_tail (by simpa using hax), List.idxOf_cons_ne _ hax]
      by_cases hay : a = y
      · subst hay
        rw [List.idxOf_cons_self, List.idxOf_cons_self, if_pos (Nat.succ_pos _)]
      · rw [List.idxOf_cons_ne _ hay, List.idxOf_cons_ne _ hay,
          ih ((List.mem_cons.mp hy).resolve_left (Ne.symm hay))]
        split
        · next hlt => rw [if_pos (Nat.succ_lt_succ hlt)]
        · next hlt => rw [if_neg (mt Nat.lt_of_succ_lt_succ hlt)]

/-- `x` moves up or comes in, and the others keep their order. -/
structure Promotes (x : ι) (l l' : List ι) : Prop where
  others : l'.erase x = l.erase x
  up : placeOf l' x ≤ placeOf l x

namespace Promotes

theorem refl (x : ι) (l : List ι) : Promotes x l l := ⟨rfl, le_rfl⟩

theorem mem_iff (h : Promotes x l l') (hy : y ≠ x) : y ∈ l' ↔ y ∈ l := by
  rw [← List.mem_erase_of_ne hy, h.others, List.mem_erase_of_ne hy]

theorem le (h : Promotes x l l') (hy : y ≠ x) : placeOf l y ≤ placeOf l' y := by
  by_cases hmem : y ∈ l
  · have hmem' := (h.mem_iff hy).mpr hmem
    rw [placeOf_of_mem hmem, placeOf_of_mem hmem', idxOf_of_erase hy hmem,
      idxOf_of_erase hy hmem', h.others]
    refine WithTop.coe_le_coe.mpr ?_
    by_cases hx : x ∈ l
    · have hx' : x ∈ l' := mem_of_placeOf_le h.up hx
      have hup := h.up
      rw [placeOf_of_mem hx, placeOf_of_mem hx'] at hup
      replace hup := WithTop.coe_le_coe.mp hup
      split
      · split
        · exact le_rfl
        · exact Nat.le_succ _
      · next hlt => rw [if_neg (mt (fun hlt' => hlt'.trans_le hup) hlt)]
    · have hlt : (l.erase x).idxOf y < l.idxOf x := by
        rw [List.erase_of_not_mem hx, List.idxOf_eq_length hx]
        exact List.idxOf_lt_length_of_mem hmem
      rw [if_pos hlt]
      split
      · exact le_rfl
      · exact Nat.le_succ _
  · rw [placeOf_of_not_mem hmem, placeOf_of_not_mem (mt (h.mem_iff hy).mp hmem)]

end Promotes

theorem exists_of_forall₂ {α β : Type*} {r : α → β → Prop} {as : List α} {bs : List β}
    (h : List.Forall₂ r as bs) {a : α} (ha : a ∈ as) : ∃ b ∈ bs, r a b := by
  induction h with
  | nil => cases ha
  | @cons a' b as bs hr _ ih =>
    rcases List.mem_cons.mp ha with rfl | ha
    · exact ⟨b, List.mem_cons_self, hr⟩
    · obtain ⟨b', hb', hr'⟩ := ih ha
      exact ⟨b', List.mem_cons_of_mem b hb', hr'⟩

section Score

variable {R : Type*} [AddCommMonoid R] [LinearOrder R] [IsOrderedCancelAddMonoid R]
  {w : WithTop Nat → R} {ls ls' : List (List ι)}

variable (w ls) in
/-- What the places of `x` are worth together. -/
def fusedScore (x : ι) : R := (ls.map fun l => w (placeOf l x)).sum

/-- No list has `y` before `x`, and some list has `x` before `y`. -/
structure Dominates (ls : List (List ι)) (x y : ι) : Prop where
  le : ∀ l ∈ ls, placeOf l x ≤ placeOf l y
  lt : ∃ l ∈ ls, placeOf l x < placeOf l y

omit [LinearOrder R] [IsOrderedCancelAddMonoid R] in
theorem fusedScore_perm (h : ls.Perm ls') (x : ι) : fusedScore w ls x = fusedScore w ls' x :=
  (h.map _).sum_eq

theorem Dominates.fusedScore_lt (hw : StrictAnti w) (h : Dominates ls x y) :
    fusedScore w ls y < fusedScore w ls x := by
  obtain ⟨l, hl, hlt⟩ := h.lt
  exact List.sum_lt_sum _ _ (fun l hl => hw.antitone (h.le l hl)) ⟨l, hl, hw hlt⟩

theorem fusedScore_le (hw : Antitone w) (h : List.Forall₂ (fun l l' => placeOf l' x ≤ placeOf l x) ls ls') :
    fusedScore w ls x ≤ fusedScore w ls' x := by
  induction h with
  | nil => exact le_rfl
  | cons hle _ ih => exact add_le_add (hw hle) ih

end Score

section Order

variable {R κ : Type*} [AddCommMonoid R] [LinearOrder R] [IsOrderedCancelAddMonoid R] [LinearOrder κ]
  {w : WithTop Nat → R} {tie : ι → κ} {ls ls' : List (List ι)} {τ τ' : List ι}

variable (w tie ls) in
/-- Higher scores come first; `tie` decides between equal ones. -/
def fusionKey (x : ι) : Rᵒᵈ ×ₗ κ := toLex (OrderDual.toDual (fusedScore w ls x), tie x)

omit [IsOrderedCancelAddMonoid R] in
theorem fusionKey_lt : fusionKey w tie ls x < fusionKey w tie ls' y ↔
    fusedScore w ls' y < fusedScore w ls x ∨
      fusedScore w ls x = fusedScore w ls' y ∧ tie x < tie y := by
  simp [fusionKey, Prod.Lex.toLex_lt_toLex]

variable (w tie ls τ) in
/-- `τ` has every element of the lists once, in the order of the keys. -/
structure Fuses : Prop where
  nodup : τ.Nodup
  mem : ∀ x, x ∈ τ ↔ ∃ l ∈ ls, x ∈ l
  sorted : τ.Pairwise fun x y => fusionKey w tie ls x < fusionKey w tie ls y

namespace Fuses

omit [IsOrderedCancelAddMonoid R]

theorem unique (h : Fuses w tie ls τ) (h' : Fuses w tie ls τ') : τ = τ' :=
  ((List.perm_ext_iff_of_nodup h.nodup h'.nodup).mpr fun x =>
    (h.mem x).trans (h'.mem x).symm).eq_of_pairwise
      (fun _ _ _ _ h₁ h₂ => absurd h₁ h₂.asymm) h.sorted h'.sorted

theorem idxOf_lt_iff (h : Fuses w tie ls τ) (hx : x ∈ τ) (hy : y ∈ τ) :
    τ.idxOf x < τ.idxOf y ↔ fusionKey w tie ls x < fusionKey w tie ls y := by
  have hbefore {a b : ι} (ha : a ∈ τ) (hb : b ∈ τ) (hlt : τ.idxOf a < τ.idxOf b) :
      fusionKey w tie ls a < fusionKey w tie ls b := by
    have hsorted := List.pairwise_iff_getElem.mp h.sorted _ _ (List.idxOf_lt_length_of_mem ha)
      (List.idxOf_lt_length_of_mem hb) hlt
    rwa [List.getElem_idxOf, List.getElem_idxOf] at hsorted
  refine ⟨hbefore hx hy, fun hlt => ?_⟩
  rcases lt_trichotomy (τ.idxOf x) (τ.idxOf y) with hidx | hidx | hidx
  · exact hidx
  · rw [List.idxOf_inj hx] at hidx
    exact absurd hlt (hidx ▸ lt_irrefl _)
  · exact absurd hlt (hbefore hy hx hidx).asymm

theorem of_perm (h : Fuses w tie ls τ) (hls : ls.Perm ls') : Fuses w tie ls' τ where
  nodup := h.nodup
  mem x := (h.mem x).trans (exists_congr fun _ => and_congr_left' hls.mem_iff)
  sorted := h.sorted.imp fun hlt => by
    rw [fusionKey_lt] at hlt ⊢
    rwa [fusedScore_perm hls, fusedScore_perm hls] at hlt

end Fuses

theorem Fuses.precedes (h : Fuses w tie ls τ) (hw : StrictAnti w) (hxy : Dominates ls x y) :
    τ.idxOf x < τ.idxOf y := by
  obtain ⟨l, hl, hlt⟩ := hxy.lt
  have hx : x ∈ τ := (h.mem x).mpr ⟨l, hl, mem_of_placeOf_lt hlt⟩
  by_cases hy : y ∈ τ
  · exact (h.idxOf_lt_iff hx hy).mpr (fusionKey_lt.mpr (.inl (hxy.fusedScore_lt hw)))
  · rw [List.idxOf_eq_length hy]
    exact List.idxOf_lt_length_of_mem hx

theorem Fuses.of_alone (hw : StrictAnti w) (hl : l.Nodup) (hmem : l ∈ ls)
    (h : ∀ l' ∈ ls, l' = l ∨ l' = []) : Fuses w tie ls l where
  nodup := hl
  mem x := by
    refine ⟨fun hx => ⟨l, hmem, hx⟩, ?_⟩
    rintro ⟨l', hl', hx⟩
    rcases h l' hl' with rfl | rfl
    · exact hx
    · cases hx
  sorted := (pairwise_placeOf hl).imp fun hlt => by
    refine fusionKey_lt.mpr (.inl (Dominates.fusedScore_lt hw ⟨fun l' hl' => ?_, l, hmem, hlt⟩))
    rcases h l' hl' with rfl | rfl
    · exact hlt.le
    · exact le_rfl

theorem Fuses.idxOf_le (h : Fuses w tie ls τ) (h' : Fuses w tie ls' τ') (hw : Antitone w)
    (hls : List.Forall₂ (Promotes x) ls ls') : τ'.idxOf x ≤ τ.idxOf x := by
  have hscore : fusedScore w ls x ≤ fusedScore w ls' x :=
    fusedScore_le hw (hls.imp fun _ _ hp => hp.up)
  have hother (y : ι) (hy : y ≠ x) : fusedScore w ls' y ≤ fusedScore w ls y :=
    fusedScore_le hw (hls.flip.imp fun _ _ hp => hp.le hy)
  have hmem (y : ι) (hy : y ≠ x) (hyτ : y ∈ τ') : y ∈ τ := by
    obtain ⟨l', hl', hyl'⟩ := (h'.mem y).mp hyτ
    obtain ⟨l, hl, hp⟩ := exists_of_forall₂ hls.flip hl'
    exact (h.mem y).mpr ⟨l, hl, (hp.mem_iff hy).mp hyl'⟩
  -- Whoever is before `x` now was so before.
  have hbefore (y : ι) (hy : y ∈ τ'.take (τ'.idxOf x)) : y ∈ τ.take (τ.idxOf x) := by
    have hyτ' := List.mem_of_mem_take hy
    have hidx := (mem_take_iff hyτ').mp hy
    have hne : y ≠ x := fun heq => absurd hidx (heq ▸ lt_irrefl _)
    have hyτ := hmem y hne hyτ'
    rw [mem_take_iff hyτ]
    by_cases hxτ : x ∈ τ
    · obtain ⟨l, hl, hxl⟩ := (h.mem x).mp hxτ
      obtain ⟨l', hl', hp⟩ := exists_of_forall₂ hls hl
      have hxτ' : x ∈ τ' := (h'.mem x).mpr ⟨l', hl', mem_of_placeOf_le hp.up hxl⟩
      rw [h.idxOf_lt_iff hyτ hxτ, fusionKey_lt]
      rw [h'.idxOf_lt_iff hyτ' hxτ', fusionKey_lt] at hidx
      rcases hidx with hlt | ⟨heq, htie⟩
      · exact .inl (hscore.trans_lt (hlt.trans_le (hother y hne)))
      · rcases (hscore.trans (heq.ge.trans (hother y hne))).lt_or_eq with hlt | heq'
        · exact .inl hlt
        · exact .inr ⟨heq'.symm, htie⟩
    · rw [List.idxOf_eq_length hxτ]
      exact List.idxOf_lt_length_of_mem hyτ
  have hfirst : (τ'.take (τ'.idxOf x)).Nodup := h'.nodup.sublist (List.take_sublist ..)
  have hle := (List.Nodup.subperm hfirst hbefore).length_le
  rwa [List.length_take_of_le List.idxOf_le_length, List.length_take_of_le List.idxOf_le_length] at hle

end Order

end RagPlatform.Lib
