import Mathlib.Algebra.BigOperators.Group.List.Basic

/-! Rows in groups by a key: what is summed group by group is summed over all rows. -/

namespace RagPlatform.Lib

variable {α κ M : Type*}

structure Keys (key : α → κ) (xs : List α) (ks : List κ) : Prop where
  nodup : ks.Nodup
  mem_iff : ∀ k, k ∈ ks ↔ ∃ x ∈ xs, key x = k

def groupOf [DecidableEq κ] (key : α → κ) (xs : List α) (k : κ) : List α :=
  xs.filter fun x => key x = k

/-- The sum of some figures, which is unknown when one of them is. -/
structure Totals [AddCommMonoid M] (figures : List (Option M)) (total : Option M) : Prop where
  none_iff : total = none ↔ none ∈ figures
  known : ∀ t, total = some t → t = (figures.map fun x => x.getD 0).sum

section

variable [DecidableEq κ] {key : α → κ} {xs : List α} {ks : List κ}

theorem groupOf_ne_nil (h : Keys key xs ks) {k : κ} (hk : k ∈ ks) : groupOf key xs k ≠ [] := by
  obtain ⟨x, hx, hkey⟩ := (h.mem_iff k).mp hk
  exact List.ne_nil_of_mem (List.mem_filter.mpr ⟨hx, decide_eq_true hkey⟩)

theorem mem_groups (h : Keys key xs ks) {x : α} : x ∈ xs ↔ ∃ k ∈ ks, x ∈ groupOf key xs k := by
  constructor
  · intro hx
    exact ⟨key x, (h.mem_iff _).mpr ⟨x, hx, rfl⟩, List.mem_filter.mpr ⟨hx, decide_eq_true rfl⟩⟩
  · rintro ⟨k, -, hx⟩
    exact List.mem_of_mem_filter hx

variable [AddCommMonoid M]

theorem sum_indicator (h : ks.Nodup) {k : κ} (hk : k ∈ ks) (m : M) :
    (ks.map fun k' => if k = k' then m else 0).sum = m := by
  induction ks with
  | nil => cases hk
  | cons k' ks ih =>
    obtain ⟨hnot, hnodup⟩ := List.nodup_cons.mp h
    rw [List.map_cons, List.sum_cons]
    by_cases hkk : k = k'
    · subst hkk
      have hrest : (ks.map fun k' => if k = k' then m else 0) = ks.map fun _ => 0 := by
        refine List.map_congr_left fun k' hk' => if_neg ?_
        rintro rfl
        exact hnot hk'
      rw [if_pos rfl, hrest]
      simp
    · rw [if_neg hkk, zero_add, ih hnodup ((List.mem_cons.mp hk).resolve_left hkk)]

theorem sum_groups (f : α → M) (hnodup : ks.Nodup) (hcover : ∀ x ∈ xs, key x ∈ ks) :
    (ks.map fun k => ((groupOf key xs k).map f).sum).sum = (xs.map f).sum := by
  induction xs with
  | nil => simp [groupOf]
  | cons x xs ih =>
    obtain ⟨hx, hxs⟩ := List.forall_mem_cons.mp hcover
    have hgroup (k : κ) : ((groupOf key (x :: xs) k).map f).sum =
        (if key x = k then f x else 0) + ((groupOf key xs k).map f).sum := by
      by_cases hk : key x = k <;> simp [groupOf, hk]
    simp only [hgroup]
    rw [List.sum_map_add, sum_indicator hnodup hx, ih hxs, List.map_cons, List.sum_cons]

theorem sum_filterMap (figures : List (Option M)) :
    (figures.filterMap id).sum = (figures.map fun x => x.getD 0).sum := by
  induction figures with
  | nil => rfl
  | cons x figures ih =>
    rw [List.map_cons, List.sum_cons, ← ih]
    cases x with
    | none => exact (zero_add _).symm
    | some m => exact List.sum_cons

theorem totals_filterMap (figures : List (Option M)) :
    Totals figures (if figures.any (·.isNone) then none else some (figures.filterMap id).sum) := by
  have hany : figures.any (·.isNone) = true ↔ none ∈ figures := by
    simp
  constructor
  · rw [← hany]
    split
    · next h => simp [h]
    · next h => simp [h]
  · intro t ht
    split at ht
    · cases ht
    · rw [← Option.some.inj ht, sum_filterMap]

theorem Totals.of_groups (h : Keys key xs ks) {f : α → Option M} {g : κ → Option M} {t : Option M}
    (hg : ∀ k ∈ ks, Totals ((groupOf key xs k).map f) (g k)) (ht : Totals (ks.map g) t) :
    Totals (xs.map f) t := by
  have hnone : none ∈ ks.map g ↔ none ∈ xs.map f := by
    simp only [List.mem_map]
    constructor
    · rintro ⟨k, hk, hgk⟩
      obtain ⟨x, hx, hfx⟩ := List.mem_map.mp ((hg k hk).none_iff.mp hgk)
      exact ⟨x, (mem_groups h).mpr ⟨k, hk, hx⟩, hfx⟩
    · rintro ⟨x, hx, hfx⟩
      obtain ⟨k, hk, hxk⟩ := (mem_groups h).mp hx
      exact ⟨k, hk, (hg k hk).none_iff.mpr (List.mem_map.mpr ⟨x, hxk, hfx⟩)⟩
  refine ⟨ht.none_iff.trans hnone, fun m hm => ?_⟩
  have hsome : none ∉ ks.map g := by
    rw [← ht.none_iff, hm]
    exact Option.some_ne_none m
  have hgroup (k : κ) (hk : k ∈ ks) :
      (g k).getD 0 = ((groupOf key xs k).map fun x => (f x).getD 0).sum := by
    obtain ⟨s, hs⟩ := Option.ne_none_iff_exists'.mp fun hnone =>
      hsome (List.mem_map.mpr ⟨k, hk, hnone⟩)
    rw [hs, Option.getD_some, (hg k hk).known s hs, List.map_map]
    rfl
  have hcover (x : α) (hx : x ∈ xs) : key x ∈ ks := (h.mem_iff _).mpr ⟨x, hx, rfl⟩
  rw [ht.known m hm, List.map_map, List.map_map, ← sum_groups _ h.nodup hcover]
  exact congrArg List.sum (List.map_congr_left hgroup)

end

end RagPlatform.Lib
