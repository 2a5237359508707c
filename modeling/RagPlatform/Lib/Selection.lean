import Mathlib.Data.List.Perm.Lattice
import RagPlatform.Lib.Ties

/-! When the first few of a ranking do not depend on what the ranking leaves open. -/

namespace RagPlatform.Lib

theorem eq_of_map_eq {α β : Type*} {f : α → β} {xs ys : List α}
    (hinj : ∀ x ∈ xs, ∀ y ∈ ys, f x = f y → x = y) (h : xs.map f = ys.map f) : xs = ys := by
  have hlen : xs.length = ys.length := by simpa using congrArg List.length h
  refine List.ext_getElem hlen fun i hi hi' => ?_
  refine hinj _ (List.getElem_mem hi) _ (List.getElem_mem hi') ?_
  have hget := List.getElem_of_eq h (by simpa using hi)
  rwa [List.getElem_map, List.getElem_map] at hget

/-- Each execution gives each element a place, and the place decides whether it is a candidate,
what it is ranked by and what is shown of it. -/
structure Ranking (E ι ρ κ β : Type*) [LinearOrder κ] where
  elements : List ι
  place : E → ι → ρ
  candidate : ρ → ι → Bool
  key : ρ → ι → κ
  entry : ρ → ι → β

namespace Ranking

variable {E ι ρ κ β : Type*} [LinearOrder κ] (R : Ranking E ι ρ κ β)

/-- The candidates of an execution in the order of their keys. -/
structure Orders (e : E) (order : List ι) : Prop where
  perm : order.Perm (R.elements.filter fun c => R.candidate (R.place e c) c)
  sorted : order.Pairwise fun x y => R.key (R.place e x) x < R.key (R.place e y) y

def shown (n : Nat) (e : E) (order : List ι) : List (ι × β) :=
  (order.take n).map fun c => (c, R.entry (R.place e c) c)

/-- Nothing about `c` depends on the execution. -/
def Steady (c : ι) : Prop := ∀ e e', R.candidate (R.place e c) c = R.candidate (R.place e' c) c ∧
  R.key (R.place e c) c = R.key (R.place e' c) c ∧ R.entry (R.place e c) c = R.entry (R.place e' c) c

/-- Wherever `c` is a candidate, another execution has it not, or elsewhere, or shows something else
of it. -/
def Shaky [BEq ι] (order : E → List ι) (c : ι) : Prop :=
  ∀ e, R.candidate (R.place e c) c = true → ∃ e', ¬ (R.candidate (R.place e' c) c = true ∧
    R.entry (R.place e' c) c = R.entry (R.place e c) c ∧ (order e').idxOf c = (order e).idxOf c)

variable {R} {n : Nat} {e e' : E} {order order' : List ι} (steady : ι → Bool)

theorem Orders.mem_iff (h : R.Orders e order) {c : ι} :
    c ∈ order ↔ c ∈ R.elements ∧ R.candidate (R.place e c) c = true := by
  rw [h.perm.mem_iff, List.mem_filter]

theorem Orders.eq (h : R.Orders e order) (h' : R.Orders e order') : order = order' :=
  (h.perm.trans h'.perm.symm).eq_of_pairwise (fun _ _ _ _ h₁ h₂ => absurd h₁ h₂.asymm) h.sorted
    h'.sorted

theorem exists_orders (e : E) (hnodup : R.elements.Nodup) (hinj : ∀ x ∈ R.elements,
    ∀ y ∈ R.elements, R.key (R.place e x) x = R.key (R.place e y) y → x = y) :
    ∃ order, R.Orders e order := by
  obtain ⟨order, h⟩ := Arranges.exists_arranges (fun x => R.key (R.place e x) x)
    (R.elements.filter fun c => R.candidate (R.place e c) c)
  have hmem {x : ι} (hx : x ∈ order) : x ∈ R.elements := (List.mem_filter.mp (h.perm.mem_iff.mp hx)).1
  have hne : order.Pairwise (· ≠ ·) := h.perm.nodup_iff.mpr (hnodup.filter _)
  exact ⟨order, h.perm, (h.sorted.and hne).imp_of_mem fun hx hy hxy =>
    lt_of_le_of_ne hxy.1 fun heq => hxy.2 (hinj _ (hmem hx) _ (hmem hy) heq)⟩

theorem take_eq_of_all {p : ι → Bool} {xs : List ι} (h : ∀ x ∈ xs.take n, p x = true) :
    xs.take n = (xs.filter p).take n := by
  induction xs generalizing n with
  | nil => rfl
  | cons x xs ih =>
    cases n with
    | zero => rfl
    | succ n =>
      obtain ⟨hx, hrest⟩ := List.forall_mem_cons.mp h
      rw [List.filter_cons_of_pos hx, List.take_succ_cons, List.take_succ_cons, ih hrest]

theorem filter_steady (hsteady : ∀ c ∈ R.elements, steady c = true → R.Steady c)
    (h : R.Orders e order) (h' : R.Orders e' order') :
    order.filter steady = order'.filter steady := by
  have hperm : (order.filter steady).Perm (order'.filter steady) := by
    refine (h.perm.filter _).trans (.trans ?_ (h'.perm.filter _).symm)
    rw [List.filter_filter, List.filter_filter]
    refine .of_eq (List.filter_congr fun c hc => ?_)
    cases hs : steady c with
    | false => rfl
    | true => rw [(hsteady c hc hs e e').1]
  have hsorted : (order'.filter steady).Pairwise fun x y => R.key (R.place e x) x < R.key (R.place e y) y := by
    refine (h'.sorted.filter _).imp_of_mem fun {x y} hx hy hlt => ?_
    obtain ⟨hx, hsx⟩ := List.mem_filter.mp hx
    obtain ⟨hy, hsy⟩ := List.mem_filter.mp hy
    rw [(hsteady x (h'.mem_iff.mp hx).1 hsx e e').2.1, (hsteady y (h'.mem_iff.mp hy).1 hsy e e').2.1]
    exact hlt
  exact hperm.eq_of_pairwise (fun x y _ _ h₁ h₂ => absurd h₁ h₂.asymm) (h.sorted.filter _) hsorted

theorem countP_steady (h : R.Orders e order) (c : ι) :
    (R.elements.countP fun u => steady u && R.candidate (R.place e u) u &&
      decide (R.key (R.place e u) u < R.key (R.place e c) c)) =
      order.countP fun u => steady u && decide (R.key (R.place e u) u < R.key (R.place e c) c) := by
  rw [h.perm.countP_eq, List.countP_filter]
  refine List.countP_congr fun u _ => ?_
  simp only [Bool.and_eq_true]
  tauto

theorem countP_left (h : R.Orders e order) {c : ι} {before after : List ι}
    (hsplit : order = before ++ c :: after) :
    (order.countP fun u => steady u && decide (R.key (R.place e u) u < R.key (R.place e c) c)) =
      before.countP steady := by
  obtain ⟨-, hafter, hbefore⟩ := List.pairwise_append.mp (hsplit ▸ h.sorted)
  have hnone : (c :: after).countP (fun u => steady u &&
      decide (R.key (R.place e u) u < R.key (R.place e c) c)) = 0 := by
    refine List.countP_eq_zero.mpr fun u hu => ?_
    have hle : ¬ R.key (R.place e u) u < R.key (R.place e c) c := by
      rcases List.mem_cons.mp hu with rfl | hu
      · exact lt_irrefl _
      · exact ((List.pairwise_cons.mp hafter).1 u hu).asymm
    simp [hle]
  rw [hsplit, List.countP_append, hnone, Nat.add_zero]
  exact List.countP_congr fun u hu => by simp [hbefore u hu c List.mem_cons_self]

/-- An element is shown unless enough steady candidates come before it, if only steady ones are
shown. -/
theorem steady_shown_iff (h : R.Orders e order) :
    (∀ c ∈ order.take n, steady c = true) ↔
      ∀ c ∈ R.elements, steady c = false → R.candidate (R.place e c) c = true →
        n ≤ R.elements.countP fun u => steady u && R.candidate (R.place e u) u &&
          decide (R.key (R.place e u) u < R.key (R.place e c) c) := by
  constructor
  · intro hall c hc hs hcand
    obtain ⟨before, after, hsplit⟩ := List.append_of_mem (h.mem_iff.mpr ⟨hc, hcand⟩)
    have hlen : n ≤ before.length := by
      by_contra hlt
      have hmem : c ∈ order.take n := by
        refine List.mem_take_iff_getElem.mpr ⟨before.length, ?_, by simp [hsplit]⟩
        simp [hsplit]
        omega
      rw [hall c hmem] at hs
      cases hs
    have hfirst : ∀ u ∈ before.take n, steady u = true := fun u hu => hall u <| by
      rw [hsplit, List.take_append]
      exact List.mem_append_left _ hu
    rw [countP_steady steady h, countP_left steady h hsplit]
    calc n = (before.take n).countP steady := by
          rw [List.countP_eq_length.mpr hfirst, List.length_take_of_le hlen]
      _ ≤ before.countP steady := (List.take_sublist n before).countP_le
  · intro hfew c hc
    by_contra hs
    rw [Bool.not_eq_true] at hs
    obtain ⟨i, hi, rfl⟩ := List.mem_take_iff_getElem.mp hc
    have hi' : i < order.length := (Nat.lt_min.mp hi).2
    have hsplit : order = order.take i ++ order[i] :: order.drop (i + 1) := by
      rw [List.getElem_cons_drop, List.take_append_drop]
    obtain ⟨hmem, hcand⟩ := h.mem_iff.mp (List.getElem_mem hi')
    have hn := hfew _ hmem hs hcand
    rw [countP_steady steady h, countP_left steady h hsplit] at hn
    have hle : (order.take i).countP steady ≤ i :=
      Nat.le_trans List.countP_le_length (List.length_take_le i order)
    have hlt := (Nat.lt_min.mp hi).1
    omega

variable [BEq ι] [LawfulBEq ι] (order : E → List ι) (count : E → Nat)

/-- All executions show the same exactly if they show as many and in each of them every candidate
that is not steady has enough steady ones before it. -/
theorem shown_same_iff (horder : ∀ e, R.Orders e (order e)) (hcount : ∀ e, count e ≤ (order e).length)
    (hsteady : ∀ c ∈ R.elements, steady c = true → R.Steady c)
    (hshaky : ∀ c ∈ R.elements, steady c = false → R.Shaky order c) :
    (∀ e e', R.shown (count e) e (order e) = R.shown (count e') e' (order e')) ↔
      (∀ e e', count e = count e') ∧
        ∀ e, ∀ c ∈ R.elements, steady c = false → R.candidate (R.place e c) c = true →
          count e ≤ R.elements.countP fun u => steady u && R.candidate (R.place e u) u &&
            decide (R.key (R.place e u) u < R.key (R.place e c) c) := by
  have hiff (e : E) := steady_shown_iff (n := count e) steady (horder e)
  simp only [← hiff]
  constructor
  · intro hsame
    refine ⟨fun e e' => ?_, fun e c hc => ?_⟩
    · have hlen := congrArg List.length (hsame e e')
      simpa [shown, hcount] using hlen
    by_contra hs
    rw [Bool.not_eq_true] at hs
    obtain ⟨hmem, hcand⟩ := (horder e).mem_iff.mp (List.mem_of_mem_take hc)
    obtain ⟨e', hother⟩ := hshaky c hmem hs e hcand
    have hids : (order e').take (count e') = (order e).take (count e) := by
      simpa [shown, Function.comp_def] using congrArg (List.map Prod.fst) (hsame e' e)
    have hidx (e : E) (hc : c ∈ (order e).take (count e)) :
        ((order e).take (count e)).idxOf c = (order e).idxOf c := by
      have happend : (((order e).take (count e)) ++ (order e).drop (count e)).idxOf c =
          ((order e).take (count e)).idxOf c := List.idxOf_append_of_mem hc
      rw [← happend, List.take_append_drop]
    have hshown : (c, R.entry (R.place e c) c) ∈ R.shown (count e') e' (order e') := by
      rw [← hsame e e']
      exact List.mem_map.mpr ⟨c, hc, rfl⟩
    obtain ⟨d, hd, heq⟩ := List.mem_map.mp hshown
    obtain ⟨rfl, hentry⟩ := Prod.mk.inj heq
    refine hother ⟨((horder e').mem_iff.mp (List.mem_of_mem_take hd)).2, hentry, ?_⟩
    rw [← hidx e' hd, hids, hidx e hc]
  · rintro ⟨hcounts, hall⟩ e e'
    have htake : (order e).take (count e) = (order e').take (count e') := by
      rw [take_eq_of_all (hall e), take_eq_of_all (hall e'),
        filter_steady steady hsteady (horder e) (horder e'), hcounts e e']
    unfold shown
    rw [← htake]
    refine List.map_congr_left fun c hc => ?_
    have hmem := ((horder e).mem_iff.mp (List.mem_of_mem_take hc)).1
    rw [(hsteady c hmem (hall e c hc) e e').2.2]

end Ranking

end RagPlatform.Lib
