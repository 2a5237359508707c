import Mathlib.Data.List.Sort

/-! Lists read page by page while they grow. -/

namespace RagPlatform.Lib

variable {α β : Type}

def page (limit k : Nat) (xs : List α) : List α := (xs.drop (k * limit)).take limit

section

variable {xs : Nat → List α} {limit n : Nat} {x : α}

theorem mem_page_or_drop (h : ∀ k < n, (xs k).Sublist (xs (k + 1))) (hx : x ∈ xs 0) :
    (∃ k < n, x ∈ page limit k (xs k)) ∨ x ∈ (xs n).drop (n * limit) := by
  induction n with
  | zero =>
    rw [Nat.zero_mul, List.drop_zero]
    exact .inr hx
  | succ n ih =>
    rcases ih fun k hk => h k (Nat.lt_succ_of_lt hk) with ⟨k, hk, hpage⟩ | hrest
    · exact .inl ⟨k, Nat.lt_succ_of_lt hk, hpage⟩
    · rw [← List.take_append_drop limit ((xs n).drop (n * limit)), List.mem_append] at hrest
      rcases hrest with hpage | hrest
      · exact .inl ⟨n, Nat.lt_succ_self n, hpage⟩
      · rw [List.drop_drop, ← Nat.succ_mul] at hrest
        exact .inr (((h n (Nat.lt_succ_self n)).drop _).mem hrest)

theorem mem_page_of_short (h : ∀ k < n, (xs k).Sublist (xs (k + 1))) (hx : x ∈ xs 0)
    (hshort : (page limit n (xs n)).length < limit) : ∃ k ≤ n, x ∈ page limit k (xs k) := by
  have hcases : (∃ k < n, x ∈ page limit k (xs k)) ∨ x ∈ (xs n).drop (n * limit) :=
    mem_page_or_drop h hx
  rcases hcases with ⟨k, hk, hpage⟩ | hrest
  · exact ⟨k, hk.le, hpage⟩
  · refine ⟨n, le_rfl, ?_⟩
    unfold page at hshort ⊢
    rw [List.length_take] at hshort
    rwa [List.take_of_length_le (by omega)]

end

theorem sublist_sorted {r : α → α → Prop} {s : β → β → Prop} [DecidableRel r] [DecidableRel s]
    [Std.Antisymm s] [Std.Total s] [IsTrans β s] {key : α → β}
    (hr : ∀ a b, r a b ↔ s (key a) (key b)) {xs ys : List α}
    (h : (xs.map key).Subperm (ys.map key)) :
    ((xs.insertionSort r).map key).Sublist ((ys.insertionSort r).map key) := by
  rw [List.map_insertionSort r s key xs fun a _ b _ => hr a b,
    List.map_insertionSort r s key ys fun a _ b _ => hr a b]
  exact List.sublist_insertionSort' (List.pairwise_insertionSort s _)
    ((List.perm_insertionSort s _).subperm.trans h)

end RagPlatform.Lib
