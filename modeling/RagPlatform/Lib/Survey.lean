import Mathlib.Algebra.Order.BigOperators.Group.List
import Mathlib.Algebra.Order.Field.Basic
import RagPlatform.Lib.Eval

/-! What is counted and averaged over a list of answers. -/

namespace RagPlatform.Lib

theorem foldlM_eq_mapM {m : Type → Type} [Monad m] [LawfulMonad m] {α β γ : Type}
    (ask : α → m β) (count : γ → α → β → γ) (xs : List α) (c : γ) :
    (xs.foldlM (fun c x => do
      let y ← ask x
      return count c x y) c) = (do
      let ys ← xs.mapM ask
      return (xs.zip ys).foldl (fun c e => count c e.1 e.2) c) := by
  induction xs generalizing c with
  | nil => simp
  | cons x xs ih =>
    simp only [List.foldlM_cons, List.mapM_cons, bind_assoc, pure_bind, ih, List.zip_cons_cons,
      List.foldl_cons]

theorem foldlM_answers {m : Type → Type} [Monad m] [LawfulMonad m] {α β γ : Type}
    (ask : α → m β) (count : γ → β → γ) (xs : List α) (c : γ) :
    (xs.foldlM (fun c x => do
      let y ← ask x
      return count c y) c) = (do
      let ys ← xs.mapM ask
      return ys.foldl count c) := by
  induction xs generalizing c with
  | nil => simp
  | cons x xs ih =>
    simp only [List.foldlM_cons, List.mapM_cons, bind_assoc, pure_bind, ih, List.foldl_cons]

theorem forall₂_of_mapM {S : Signature} {σ α β ε : Type} {h : Handler S σ} {R : α → β → Prop}
    {ask : α → ExceptT ε (Async S) β} {xs : List α} {ys : List β} {s s' : σ}
    (hask : ∀ x ∈ xs, ∀ s s' y, evalE h (ask x) s = (s', .ok y) → R x y)
    (hrun : evalE h (xs.mapM ask) s = (s', .ok ys)) : List.Forall₂ R xs ys := by
  induction xs generalizing s ys with
  | nil =>
    cases hrun
    exact .nil
  | cons x xs ih =>
    obtain ⟨hx, hxs⟩ := List.forall_mem_cons.mp hask
    rw [List.mapM_cons] at hrun
    obtain ⟨s₁, y, hfirst, hrun⟩ := exists_of_evalE_bind hrun
    obtain ⟨s₂, ys', hrest, hrun⟩ := exists_of_evalE_bind hrun
    cases hrun
    exact .cons (hx s s₁ y hfirst) (ih hxs hrest)

theorem countP_eq_iff {α : Type*} (p q : α → Bool) (xs : List α) : xs.countP p = xs.countP q ↔
    xs.countP (fun x => q x && !p x) = xs.countP fun x => p x && !q x := by
  have hsum : xs.countP p + xs.countP (fun x => q x && !p x) =
      xs.countP q + xs.countP fun x => p x && !q x := by
    induction xs with
    | nil => rfl
    | cons x xs ih =>
      simp only [List.countP_cons]
      cases p x with
      | false =>
        cases q x with
        | false => simpa using ih
        | true =>
          simp
          omega
      | true =>
        cases q x with
        | false =>
          simp
          omega
        | true =>
          simp
          omega
  omega

section

variable {α K : Type*} [Field K] [LinearOrder K] [IsStrictOrderedRing K]
variable {g g' : α → K} {p q : α → Bool} {xs : List α}

def mean (g : α → K) (xs : List α) : K := (xs.map g).sum / xs.length

variable (K) in
/-- The part of the elements for which `p` holds. -/
def share (p : α → Bool) (xs : List α) : K := xs.countP p / xs.length

theorem mean_le (h : ∀ x ∈ xs, g x ≤ g' x) : mean g xs ≤ mean g' xs :=
  div_le_div_of_nonneg_right (List.sum_le_sum h) (Nat.cast_nonneg _)

theorem mean_eq_iff (h : ∀ x ∈ xs, g x ≤ g' x) :
    mean g xs = mean g' xs ↔ ∀ x ∈ xs, g x = g' x := by
  constructor
  · intro heq x hx
    by_contra hne
    have hlength : (0 : K) < xs.length := Nat.cast_pos.mpr (List.length_pos_of_mem hx)
    have hlt : (xs.map g).sum < (xs.map g').sum :=
      List.sum_lt_sum _ _ h ⟨x, hx, lt_of_le_of_ne (h x hx) hne⟩
    exact (div_lt_div_of_pos_right hlt hlength).ne heq
  · intro heq
    rw [mean, mean, List.map_congr_left heq]

omit [LinearOrder K] [IsStrictOrderedRing K] in
theorem share_eq_mean (p : α → Bool) (xs : List α) :
    share K p xs = mean (fun x => if p x then 1 else 0) xs := by
  have hsum : ((xs.countP p : Nat) : K) = (xs.map fun x => if p x then (1 : K) else 0).sum := by
    induction xs with
    | nil => simp
    | cons x xs ih =>
      rw [List.countP_cons, List.map_cons, List.sum_cons, ← ih]
      split
      · rw [Nat.cast_add, Nat.cast_one, add_comm]
      · rw [Nat.add_zero, zero_add]
  rw [share, mean, hsum]

theorem share_le (h : ∀ x ∈ xs, p x → q x) : share K p xs ≤ share K q xs :=
  div_le_div_of_nonneg_right (Nat.cast_le.mpr (List.countP_mono_left h)) (Nat.cast_nonneg _)

theorem share_eq_iff (h : ∀ x ∈ xs, p x → q x) :
    share K p xs = share K q xs ↔ ∀ x ∈ xs, q x → p x := by
  have hle : ∀ x ∈ xs, (if p x then (1 : K) else 0) ≤ if q x then 1 else 0 := by
    intro x hx
    by_cases hp : p x
    · rw [if_pos hp, if_pos (h x hx hp)]
    · rw [if_neg hp]
      split
      · exact zero_le_one
      · exact le_rfl
  rw [share_eq_mean, share_eq_mean, mean_eq_iff hle]
  refine forall₂_congr fun x hx => ?_
  by_cases hp : p x
  · simp [hp, h x hx hp]
  · by_cases hq : q x
    · simp [hp, hq]
    · simp [hp, hq]

end

end RagPlatform.Lib
