import Mathlib.Data.Set.Basic
import Mathlib.Order.Basic

/-! Data that mentions names, and renamings that settle more and more of them. -/

namespace RagPlatform.Lib

/-- Values that mention names of type `N`. -/
class Nominal (N : outParam Type) (α : Type) where
  rename : (N → N) → α → α
  Mentions : α → N → Prop
  rename_congr : ∀ {f g : N → N} {a : α}, (∀ n, Mentions a n → f n = g n) → rename f a = rename g a

variable {N α β : Type}

namespace Nominal

instance [Nominal N α] : Nominal N (List α) where
  rename f := List.map (rename f)
  Mentions as n := ∃ a ∈ as, Mentions a n
  rename_congr h := List.map_congr_left fun a ha => rename_congr fun n hn => h n ⟨a, ha, hn⟩

instance [Nominal N α] : Nominal N (Option α) where
  rename f := Option.map (rename f)
  Mentions o n := ∃ a ∈ o, Mentions a n
  rename_congr h := Option.map_congr fun a ha => rename_congr fun n hn => h n ⟨a, ha, hn⟩

end Nominal

/-- What the names on one side are called on the other, as far as they are known. -/
structure Renaming (N : Type) where
  name : N → N
  known : Set N

namespace Renaming

instance : Preorder (Renaming N) where
  le r s := r.known ⊆ s.known ∧ ∀ n ∈ r.known, s.name n = r.name n
  le_refl r := ⟨subset_rfl, fun _ _ => rfl⟩
  le_trans r s t hrs hst :=
    ⟨hrs.1.trans hst.1, fun n hn => (hst.2 n (hrs.1 hn)).trans (hrs.2 n hn)⟩

/-- `a` is `a'` under its other names, all of which are known. -/
structure Relates [Nominal N α] (r : Renaming N) (a a' : α) : Prop where
  eq : a = Nominal.rename r.name a'
  known : ∀ n, Nominal.Mentions a' n → n ∈ r.known

theorem Relates.mono [Nominal N α] {r s : Renaming N} {a a' : α} (h : r.Relates a a')
    (hrs : r ≤ s) : s.Relates a a' where
  eq := h.eq.trans (Nominal.rename_congr fun n hn => (hrs.2 n (h.known n hn)).symm)
  known n hn := hrs.1 (h.known n hn)

theorem Relates.append [Nominal N α] {r : Renaming N} {as as' bs bs' : List α}
    (h : r.Relates as as') (h' : r.Relates bs bs') : r.Relates (as ++ bs) (as' ++ bs') where
  eq := by
    rw [h.eq, h'.eq]
    exact List.map_append.symm
  known := by
    rintro n ⟨a, ha, hn⟩
    cases List.mem_append.mp ha with
    | inl ha => exact h.known n ⟨a, ha, hn⟩
    | inr ha => exact h'.known n ⟨a, ha, hn⟩

theorem Relates.filter [Nominal N α] {r : Renaming N} {as as' : List α} (h : r.Relates as as')
    {p q : α → Bool} (hpq : ∀ a ∈ as', p (Nominal.rename r.name a) = q a) :
    r.Relates (as.filter p) (as'.filter q) where
  eq := by
    rw [h.eq]
    refine List.filter_map.trans ?_
    exact congrArg (List.map _) (List.filter_congr hpq)
  known := by
    rintro n ⟨a, ha, hn⟩
    exact h.known n ⟨a, (List.mem_filter.mp ha).1, hn⟩

end Renaming

end RagPlatform.Lib
