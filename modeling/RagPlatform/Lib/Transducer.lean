import Mathlib.Data.List.Basic

/-! Machines that read a list piece by piece and write as they go. -/

namespace RagPlatform.Lib

structure Transducer (σ ι ο : Type*) where
  step : σ → ι → σ × List ο

namespace Transducer

variable {σ τ ι κ ο : Type*}

def run (M : Transducer σ ι ο) : σ → List ι → σ × List ο
  | s, [] => (s, [])
  | s, x :: xs =>
    let head := M.step s x
    let tail := M.run head.1 xs
    (tail.1, head.2 ++ tail.2)

/-- `N` reads what `M` writes. -/
def comp (M : Transducer σ ι κ) (N : Transducer τ κ ο) : Transducer (σ × τ) ι ο where
  step s x :=
    let head := M.step s.1 x
    let out := N.run s.2 head.2
    ((head.1, out.1), out.2)

theorem comp_step (M : Transducer σ ι κ) (N : Transducer τ κ ο) (s : σ) (t : τ) (x : ι) :
    (M.comp N).step (s, t) x =
      (((M.step s x).1, (N.run t (M.step s x).2).1), (N.run t (M.step s x).2).2) := rfl

@[simp] theorem run_nil (M : Transducer σ ι ο) (s : σ) : M.run s [] = (s, []) := rfl

theorem run_append (M : Transducer σ ι ο) (s : σ) (xs ys : List ι) :
    M.run s (xs ++ ys) =
      ((M.run (M.run s xs).1 ys).1, (M.run s xs).2 ++ (M.run (M.run s xs).1 ys).2) := by
  induction xs generalizing s with
  | nil => rfl
  | cons x xs ih => simp [run, ih]

theorem run_comp (M : Transducer σ ι κ) (N : Transducer τ κ ο) (s : σ) (t : τ) (xs : List ι) :
    (M.comp N).run (s, t) xs =
      (((M.run s xs).1, (N.run t (M.run s xs).2).1), (N.run t (M.run s xs).2).2) := by
  induction xs generalizing s t with
  | nil => rfl
  | cons x xs ih => simp only [run, comp_step, ih, run_append]

theorem run_take_eq_nil {M : Transducer σ ι ο} {s : σ} {xs : List ι} (h : (M.run s xs).2 = [])
    (k : Nat) : (M.run s (xs.take k)).2 = [] := by
  rw [← List.take_append_drop k xs, run_append] at h
  exact (List.append_eq_nil_iff.mp h).1

/-- Each code word is read back, and no shorter prefix of it says anything. -/
structure Decodes (M : Transducer σ ι ο) (start : σ) (encode : ο → List ι) : Prop where
  whole : ∀ a, M.run start (encode a) = (start, [a])
  part : ∀ a k, k < (encode a).length → (M.run start ((encode a).take k)).2 = []

namespace Decodes

theorem of_dropLast {M : Transducer σ ι ο} {start : σ} {encode : ο → List ι}
    (whole : ∀ a, M.run start (encode a) = (start, [a]))
    (quiet : ∀ a, (M.run start (encode a).dropLast).2 = []) : M.Decodes start encode where
  whole
  part a k hk := by
    have htake : (encode a).take k = (encode a).dropLast.take k := by
      rw [List.dropLast_eq_take, List.take_take, Nat.min_eq_left (by omega)]
    rw [htake]
    exact run_take_eq_nil (quiet a) k

variable {M : Transducer σ ι ο} {start : σ} {encode : ο → List ι}

theorem all (h : M.Decodes start encode) (as : List ο) :
    M.run start (as.flatMap encode) = (start, as) := by
  induction as with
  | nil => rfl
  | cons a as ih => simp [run_append, h.whole, ih]

theorem cut (h : M.Decodes start encode) (as : List ο) {n : Nat}
    (hn : n < (as.flatMap encode).length) :
    ∃ heard lost, lost ≠ [] ∧ as = heard ++ lost ∧
      (M.run start ((as.flatMap encode).take n)).2 = heard := by
  induction as generalizing n with
  | nil => simp at hn
  | cons a as ih =>
    rw [List.flatMap_cons] at hn ⊢
    by_cases ha : n < (encode a).length
    · refine ⟨[], a :: as, by simp, rfl, ?_⟩
      rw [List.take_append_of_le_length (Nat.le_of_lt ha)]
      exact h.part a n ha
    · have hrest : n - (encode a).length < (as.flatMap encode).length := by
        rw [List.length_append] at hn
        omega
      obtain ⟨heard, lost, hlost, has, hrun⟩ := ih hrest
      refine ⟨a :: heard, lost, hlost, by rw [has, List.cons_append], ?_⟩
      rw [List.take_append, List.take_of_length_le (by omega), run_append, h.whole]
      simp [hrun]

theorem heard_prefix (h : M.Decodes start encode) (as : List ο) (n : Nat) :
    (M.run start ((as.flatMap encode).take n)).2 <+: as := by
  by_cases hn : n < (as.flatMap encode).length
  · obtain ⟨heard, lost, -, has, hrun⟩ := h.cut as hn
    rw [hrun]
    exact ⟨lost, has.symm⟩
  · exact ⟨[], by rw [List.take_of_length_le (by omega), h.all, List.append_nil]⟩

end Decodes

end Transducer

end RagPlatform.Lib
