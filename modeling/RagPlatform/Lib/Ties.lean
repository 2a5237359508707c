import Mathlib.Data.List.Nodup
import Mathlib.Data.List.Sort
import Mathlib.Data.Prod.Lex
import Mathlib.Logic.Equiv.Basic

/-! Lists sorted by a key, where elements with the same key may come in any order. -/

namespace RagPlatform.Lib

variable {ι α : Type*} [LinearOrder α] (key : ι → α)

/-- An order of `xs` that the key allows. -/
structure Arranges (xs τ : List ι) : Prop where
  perm : τ.Perm xs
  sorted : τ.Pairwise fun x y => key x ≤ key y

/-- How many come before `c` in every such order. -/
def ahead (xs : List ι) (c : ι) : Nat := xs.countP fun x => decide (key x < key c)

/-- How many have the key of `c`, with `c` itself. -/
def level (xs : List ι) (c : ι) : Nat := xs.countP fun x => decide (key x = key c)

variable {key} {xs τ : List ι} {c y : ι}

theorem ahead_add_level : ahead key xs c + level key xs c = xs.countP fun x => decide (key x ≤ key c) := by
  unfold ahead level
  induction xs with
  | nil => rfl
  | cons x xs ih =>
    simp only [List.countP_cons, ← ih]
    rcases lt_trichotomy (key x) (key c) with h | h | h
    · simp [h, h.le, h.ne, Nat.add_right_comm]
    · simp [h, Nat.add_assoc]
    · simp [h.not_gt, h.not_ge, h.ne']

theorem ahead_add_level_le (xs : List ι) (h : key y < key c) :
    ahead key xs y + level key xs y ≤ ahead key xs c := by
  rw [ahead_add_level]
  exact List.countP_mono_left fun x _ hx => by
    simp only [decide_eq_true_eq] at hx ⊢
    exact hx.trans_lt h

namespace Arranges

theorem insertionSort (key : ι → α) (xs : List ι) :
    Arranges key xs (xs.insertionSort fun x y => key x ≤ key y) := by
  have htrans : IsTrans ι fun x y => key x ≤ key y := ⟨fun _ _ _ h₁ h₂ => h₁.trans h₂⟩
  have htotal : Std.Total fun x y : ι => key x ≤ key y := ⟨fun x y => le_total (key x) (key y)⟩
  exact ⟨List.perm_insertionSort .., List.pairwise_insertionSort ..⟩

theorem exists_arranges (key : ι → α) (xs : List ι) : ∃ τ, Arranges key xs τ :=
  ⟨_, insertionSort key xs⟩

theorem ahead_eq (h : Arranges key xs τ) (c : ι) : ahead key xs c = ahead key τ c :=
  (h.perm.countP_eq _).symm

theorem level_eq (h : Arranges key xs τ) (c : ι) : level key xs c = level key τ c :=
  (h.perm.countP_eq _).symm

theorem place_bounds (h : Arranges key xs τ) {i : Nat} (hi : i < τ.length) :
    ahead key xs τ[i] ≤ i ∧ i < ahead key xs τ[i] + level key xs τ[i] := by
  have hsplit : τ = τ.take i ++ τ[i] :: τ.drop (i + 1) := by
    rw [List.getElem_cons_drop, List.take_append_drop]
  have hsorted := h.sorted
  rw [hsplit] at hsorted
  obtain ⟨-, hlater, hearlier⟩ := List.pairwise_append.mp hsorted
  have hlen : (τ.take i).length = i := List.length_take_of_le hi.le
  rw [h.ahead_eq, h.level_eq]
  generalize τ[i] = c at hsplit hlater hearlier
  constructor
  · have hdrop : (τ.drop (i + 1)).countP (fun x => decide (key x < key c)) = 0 := by
      refine List.countP_eq_zero.mpr fun y hy => ?_
      simpa using (List.pairwise_cons.mp hlater).1 y hy
    rw [ahead, hsplit, List.countP_append, List.countP_cons, hdrop]
    simpa using List.countP_le_length.trans hlen.le
  · have htake : (τ.take i).countP (fun x => decide (key x ≤ key c)) = i := by
      rw [List.countP_eq_length.mpr, hlen]
      exact fun x hx => by simpa using hearlier x hx c List.mem_cons_self
    rw [ahead_add_level, hsplit, List.countP_append, List.countP_cons, htake]
    simp

/-- The element at a place of the group of `c` has the key of `c`. -/
theorem key_at_place (h : Arranges key xs τ) {i : Nat} (hi : i < τ.length)
    (hlow : ahead key xs c ≤ i) (hhigh : i < ahead key xs c + level key xs c) :
    key τ[i] = key c := by
  obtain ⟨hlow', hhigh'⟩ := h.place_bounds hi
  rcases lt_trichotomy (key τ[i]) (key c) with hlt | heq | hgt
  · have hle := ahead_add_level_le xs hlt
    omega
  · exact heq
  · have hle := ahead_add_level_le xs hgt
    omega

theorem eq_of_injective (h : Arranges key xs τ) {τ' : List ι} (h' : Arranges key xs τ')
    (hinj : ∀ x ∈ xs, ∀ y ∈ xs, key x = key y → x = y) : τ = τ' :=
  (h.perm.trans h'.perm.symm).eq_of_pairwise
    (fun x y hx hy hxy hyx => hinj x (h.perm.mem_iff.mp hx) y (h'.perm.mem_iff.mp hy)
      (le_antisymm hxy hyx)) h.sorted h'.sorted

theorem mem_take_or (h : Arranges key xs τ) (hc : c ∈ xs) (k : Nat) :
    c ∈ τ.take k ∨ (τ.take k).length = k ∧ ∀ x ∈ τ.take k, key x ≤ key c := by
  have hmem : c ∈ τ.take k ++ τ.drop k := by
    rw [List.take_append_drop]
    exact h.perm.mem_iff.mpr hc
  refine (List.mem_append.mp hmem).imp_right fun hdrop => ⟨?_, fun x hx => ?_⟩
  · have hlen := List.length_pos_of_mem hdrop
    rw [List.length_drop] at hlen
    exact List.length_take_of_le (by omega)
  · have hsorted := h.sorted
    rw [← List.take_append_drop k τ] at hsorted
    exact (List.pairwise_append.mp hsorted).2.2 x hx c hdrop

variable [BEq ι] [LawfulBEq ι]

theorem idxOf_bounds (h : Arranges key xs τ) (hc : c ∈ xs) :
    ahead key xs c ≤ τ.idxOf c ∧ τ.idxOf c < ahead key xs c + level key xs c := by
  have hi : τ.idxOf c < τ.length := List.idxOf_lt_length_of_mem (h.perm.mem_iff.mpr hc)
  have hbounds := h.place_bounds hi
  rwa [List.getElem_idxOf] at hbounds

variable [DecidableEq ι]

omit [BEq ι] [LawfulBEq ι] in
theorem swap (h : Arranges key xs τ) (hxs : xs.Nodup) (hc : c ∈ xs) (hy : y ∈ xs)
    (hkey : key c = key y) : Arranges key xs (τ.map (Equiv.swap c y)) := by
  have hsame (x : ι) : key (Equiv.swap c y x) = key x := by
    rw [Equiv.swap_apply_def]
    split
    · next hx => rw [hx, hkey]
    · split
      · next hx => rw [hx, hkey]
      · rfl
  have hmem (x : ι) (hx : x ∈ xs) : Equiv.swap c y x ∈ xs := by
    rw [Equiv.swap_apply_def]
    split
    · exact hy
    · split
      · exact hc
      · exact hx
  have hnodup : (τ.map (Equiv.swap c y)).Nodup :=
    (h.perm.nodup_iff.mpr hxs).map (Equiv.injective _)
  refine ⟨(List.perm_ext_iff_of_nodup hnodup hxs).mpr fun x => ⟨fun hx => ?_, fun hx => ?_⟩, ?_⟩
  · obtain ⟨z, hz, rfl⟩ := List.mem_map.mp hx
    exact hmem z (h.perm.mem_iff.mp hz)
  · exact List.mem_map.mpr ⟨_, h.perm.mem_iff.mpr (hmem x hx), Equiv.swap_apply_self ..⟩
  · rw [List.pairwise_map]
    simpa only [hsame] using h.sorted

theorem idxOf_swap (h : Arranges key xs τ) (hxs : xs.Nodup) (hy : y ∈ xs) :
    (τ.map (Equiv.swap c y)).idxOf c = τ.idxOf y := by
  have hi : τ.idxOf y < τ.length := List.idxOf_lt_length_of_mem (h.perm.mem_iff.mpr hy)
  have hnodup : (τ.map (Equiv.swap c y)).Nodup :=
    (h.perm.nodup_iff.mpr hxs).map (Equiv.injective _)
  have hi' : τ.idxOf y < (τ.map (Equiv.swap c y)).length := by rwa [List.length_map]
  have hget : (τ.map (Equiv.swap c y))[τ.idxOf y] = c := by
    rw [List.getElem_map, List.getElem_idxOf, Equiv.swap_apply_right]
  have hidx := hnodup.idxOf_getElem _ hi'
  rwa [hget] at hidx

theorem exists_place (h : Arranges key xs τ) (hxs : xs.Nodup) (hc : c ∈ xs) {i : Nat}
    (hlow : ahead key xs c ≤ i) (hhigh : i < ahead key xs c + level key xs c) :
    ∃ τ', Arranges key xs τ' ∧ τ'.idxOf c = i := by
  have hi : i < τ.length := by
    rw [h.perm.length_eq]
    rw [ahead_add_level] at hhigh
    exact hhigh.trans_le List.countP_le_length
  have hy : τ[i] ∈ xs := h.perm.mem_iff.mp (List.getElem_mem hi)
  refine ⟨_, h.swap hxs hc hy (h.key_at_place hi hlow hhigh).symm, ?_⟩
  rw [h.idxOf_swap hxs hy]
  exact (h.perm.nodup_iff.mpr hxs).idxOf_getElem i hi

end Arranges

theorem countP_or (p s : ι → Bool) :
    (τ.countP fun x => s x || p x) + τ.countP (fun x => s x && p x) = τ.countP s + τ.countP p := by
  induction τ with
  | nil => rfl
  | cons x τ ih =>
    simp only [List.countP_cons]
    cases s x <;> cases p x <;> simp <;> omega

section Take

variable [BEq ι] [LawfulBEq ι]

theorem idxOf?_take (hc : c ∈ τ) (k : Nat) :
    (τ.take k).idxOf? c = if τ.idxOf c < k then some (τ.idxOf c) else none := by
  induction τ generalizing k with
  | nil => exact absurd hc List.not_mem_nil
  | cons x τ ih =>
    cases k with
    | zero => rfl
    | succ k =>
      rw [List.take_succ_cons, List.idxOf?_cons, List.idxOf_cons, cond_eq_ite]
      by_cases hx : x = c
      · simp [hx]
      · have hc := (List.mem_cons.mp hc).resolve_left (Ne.symm hx)
        rw [ih hc k]
        by_cases hlt : τ.idxOf c < k
        · simp [hx, hlt]
        · simp [hx, hlt]

theorem idxOf?_map {β : Type*} [BEq β] [LawfulBEq β] {f : ι → β} (hf : ∀ x ∈ τ, f x = f c → x = c) :
    (τ.map f).idxOf? (f c) = τ.idxOf? c := by
  induction τ with
  | nil => rfl
  | cons x τ ih =>
    obtain ⟨hx, hrest⟩ := List.forall_mem_cons.mp hf
    rw [List.map_cons, List.idxOf?_cons, List.idxOf?_cons, ih hrest]
    by_cases h : x = c
    · simp [h]
    · simp [h, mt hx h]

theorem mem_take_iff (hc : c ∈ τ) : c ∈ τ.take k ↔ τ.idxOf c < k := by
  rw [← List.isSome_idxOf?, idxOf?_take hc]
  split
  · next h => exact iff_of_true rfl h
  · next h => exact iff_of_false Bool.false_ne_true h

theorem countP_first (h : τ.Nodup) (k : Nat) (p : ι → Bool) :
    (τ.countP fun x => decide (τ.idxOf x < k) && p x) = (τ.take k).countP p := by
  have hsplit := List.take_append_drop k τ
  have hdrop : (τ.drop k).countP (fun x => decide (τ.idxOf x < k) && p x) = 0 := by
    refine List.countP_eq_zero.mpr fun x hx => ?_
    have hnot : x ∉ τ.take k := fun htake =>
      List.disjoint_of_nodup_append (hsplit.symm ▸ h) htake hx
    simp [mt (mem_take_iff (List.mem_of_mem_drop hx)).mpr hnot]
  calc (τ.countP fun x => decide (τ.idxOf x < k) && p x)
      = (τ.take k).countP (fun x => decide (τ.idxOf x < k) && p x) +
          (τ.drop k).countP fun x => decide (τ.idxOf x < k) && p x := by
        rw [← List.countP_append, hsplit]
    _ = (τ.take k).countP p := by
        rw [hdrop, Nat.add_zero]
        refine List.countP_congr fun x hx => ?_
        simp [(mem_take_iff (List.mem_of_mem_take hx)).mp hx]

end Take

section Cut

variable (key xs) (k : Nat)

/-- Among the first `k` of every order. -/
def sure (c : ι) : Bool := ahead key xs c + level key xs c ≤ k

/-- Among the first `k` of some orders only. -/
def atCut (c : ι) : Bool := ahead key xs c < k && k < ahead key xs c + level key xs c

/-- How many of those at the cut are among the first `k`. -/
def spare : Nat := min k xs.length - xs.countP (sure key xs k)

/-- At most so many of the first `k` have the property. -/
def mostKept (p : ι → Bool) : Nat :=
  xs.countP (fun x => sure key xs k x && p x) +
    min (spare key xs k) (xs.countP fun x => atCut key xs k x && p x)

/-- At least so many of the first `k` have the property. -/
def leastKept (p : ι → Bool) : Nat :=
  xs.countP (fun x => sure key xs k x && p x) +
    (spare key xs k - xs.countP fun x => atCut key xs k x && !p x)

variable {key xs k} {p : ι → Bool}

theorem countP_split {ys : List ι} (s : ι → Bool) :
    ys.countP p = ys.countP (fun x => s x && p x) + ys.countP fun x => !s x && p x := by
  induction ys with
  | nil => rfl
  | cons y ys ih =>
    simp only [List.countP_cons, ih]
    cases s y <;> cases p y <;> simp <;> omega

theorem key_eq_of_atCut (hc : atCut key xs k c = true) (hy : atCut key xs k y = true) :
    key c = key y := by
  simp only [atCut, Bool.and_eq_true, decide_eq_true_eq] at hc hy
  rcases lt_trichotomy (key c) (key y) with hlt | heq | hgt
  · have hle := ahead_add_level_le xs hlt
    omega
  · exact heq
  · have hle := ahead_add_level_le xs hgt
    omega

namespace Arranges

theorem of_mem_take (h : Arranges key xs τ) (hc : c ∈ τ.take k) : ahead key xs c < k := by
  obtain ⟨i, hi, rfl⟩ := List.mem_take_iff_getElem.mp hc
  have hi := Nat.lt_min.mp hi
  exact (h.place_bounds hi.2).1.trans_lt hi.1

theorem of_mem_drop (h : Arranges key xs τ) (hc : c ∈ τ.drop k) :
    k < ahead key xs c + level key xs c := by
  obtain ⟨i, hi, rfl⟩ := List.mem_drop_iff_getElem.mp hc
  have hi' : k + i < τ.length := Nat.add_comm i k ▸ hi
  exact (Nat.le_add_right k i).trans_lt (h.place_bounds hi').2

theorem sure_or_atCut (h : Arranges key xs τ) (hc : c ∈ τ.take k) :
    atCut key xs k c = !sure key xs k c := by
  have hlt := h.of_mem_take hc
  rw [Bool.eq_iff_iff]
  simp [atCut, sure, hlt]

theorem countP_take (h : Arranges key xs τ) (k : Nat) (p : ι → Bool) :
    (τ.take k).countP p = xs.countP (fun x => sure key xs k x && p x) +
      (τ.take k).countP fun x => atCut key xs k x && p x := by
  have hdrop : (τ.drop k).countP (fun x => sure key xs k x && p x) = 0 := by
    refine List.countP_eq_zero.mpr fun x hx => ?_
    simp [sure, h.of_mem_drop hx]
  have hsure : (τ.take k).countP (fun x => sure key xs k x && p x) =
      xs.countP (fun x => sure key xs k x && p x) := by
    rw [← h.perm.countP_eq, ← List.take_append_drop k τ, List.countP_append, List.take_append_drop,
      hdrop, Nat.add_zero]
  rw [countP_split (sure key xs k), hsure]
  refine congrArg _ (List.countP_congr fun x hx => ?_)
  rw [h.sure_or_atCut hx]

theorem countP_atCut (h : Arranges key xs τ) : (τ.take k).countP (atCut key xs k) = spare key xs k := by
  have hlen : min k xs.length = xs.countP (sure key xs k) + (τ.take k).countP (atCut key xs k) := by
    simpa [h.perm.length_eq] using h.countP_take k fun _ => true
  unfold spare
  omega

theorem spare_eq (h : Arranges key xs τ) (k : Nat) (p : ι → Bool) :
    spare key xs k = (τ.take k).countP (fun x => atCut key xs k x && p x) +
      (τ.take k).countP fun x => atCut key xs k x && !p x := by
  rw [← h.countP_atCut, countP_split p]
  simp only [Bool.and_comm]

theorem countP_take_le (h : Arranges key xs τ) (k : Nat) (p : ι → Bool) :
    (τ.take k).countP p ≤ mostKept key xs k p := by
  rw [h.countP_take, mostKept]
  refine Nat.add_le_add_left (Nat.le_min.mpr ⟨?_, ?_⟩) _
  · rw [← h.countP_atCut]
    exact List.countP_mono_left fun x _ hx => (Bool.and_eq_true_iff.mp hx).1
  · rw [← h.perm.countP_eq]
    exact (List.take_sublist k τ).countP_le

theorem le_countP_take (h : Arranges key xs τ) (k : Nat) (p : ι → Bool) :
    leastKept key xs k p ≤ (τ.take k).countP p := by
  have hsplit := h.spare_eq k p
  have hle : (τ.take k).countP (fun x => atCut key xs k x && !p x) ≤
      xs.countP fun x => atCut key xs k x && !p x := by
    rw [← h.perm.countP_eq]
    exact (List.take_sublist k τ).countP_le
  rw [h.countP_take, leastKept]
  omega

theorem exists_mostKept (key : ι → α) (xs : List ι) (k : Nat) (p : ι → Bool) :
    ∃ τ, Arranges key xs τ ∧ (τ.take k).countP p = mostKept key xs k p := by
  obtain ⟨τ, hτ⟩ := exists_arranges (fun x => toLex (key x, !p x)) xs
  have h : Arranges key xs τ := ⟨hτ.perm, hτ.sorted.imp fun {x y} hxy =>
    (Prod.Lex.toLex_le_toLex.mp hxy).elim le_of_lt fun h => h.1.le⟩
  refine ⟨τ, h, Nat.le_antisymm (h.countP_take_le k p) ?_⟩
  rw [h.countP_take, mostKept]
  refine Nat.add_le_add_left ?_ _
  by_contra hlt
  rw [not_le, Nat.lt_min] at hlt
  -- otherwise one at the cut without the property comes before one with it
  obtain ⟨x, hx, hcut, hpx⟩ : ∃ x ∈ τ.take k, atCut key xs k x = true ∧ p x = false := by
    by_contra hnone
    have hsame : (τ.take k).countP (atCut key xs k) =
        (τ.take k).countP fun x => atCut key xs k x && p x := by
      refine List.countP_congr fun x hx => ?_
      cases hpx : p x with
      | true => simp
      | false => simpa using fun hcut => hnone ⟨x, hx, hcut, hpx⟩
    rw [← hsame, h.countP_atCut] at hlt
    exact absurd hlt.1 (lt_irrefl _)
  obtain ⟨y, hy, hcut', hpy⟩ : ∃ y ∈ τ.drop k, atCut key xs k y = true ∧ p y = true := by
    by_contra hnone
    have hdrop : (τ.drop k).countP (fun x => atCut key xs k x && p x) = 0 := by
      refine List.countP_eq_zero.mpr fun y hy hcut => ?_
      rw [Bool.and_eq_true] at hcut
      exact hnone ⟨y, hy, hcut⟩
    have hall : xs.countP (fun x => atCut key xs k x && p x) =
        (τ.take k).countP fun x => atCut key xs k x && p x := by
      rw [← h.perm.countP_eq, ← List.take_append_drop k τ, List.countP_append,
        List.take_append_drop, hdrop, Nat.add_zero]
    exact absurd (hall ▸ hlt.2) (lt_irrefl _)
  have hsorted := hτ.sorted
  rw [← List.take_append_drop k τ] at hsorted
  have hxy := (List.pairwise_append.mp hsorted).2.2 x hx y hy
  rw [hpx, hpy, key_eq_of_atCut hcut hcut', Prod.Lex.toLex_le_toLex] at hxy
  rcases hxy with hxy | ⟨-, hxy⟩
  · exact lt_irrefl _ hxy
  · change true ≤ false at hxy
    exact absurd hxy (by decide)

theorem exists_leastKept (key : ι → α) (xs : List ι) (k : Nat) (p : ι → Bool) :
    ∃ τ, Arranges key xs τ ∧ (τ.take k).countP p = leastKept key xs k p := by
  obtain ⟨τ, h, hmost⟩ := exists_mostKept key xs k fun x => !p x
  refine ⟨τ, h, ?_⟩
  have hsplit := h.spare_eq k p
  have htake := h.countP_take k p
  have htake' := h.countP_take k fun x => !p x
  unfold mostKept at hmost
  unfold leastKept
  beta_reduce at hmost htake'
  omega

end Arranges

end Cut

end RagPlatform.Lib
