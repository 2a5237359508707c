import Mathlib.Algebra.BigOperators.Group.List.Basic
import Mathlib.Algebra.Ring.Int.Defs
import Mathlib.Data.List.Chain
import Mathlib.Data.List.Induction

/-! A list of weighted units packed greedily into windows, each of which may open with the end of
the one before. -/

namespace RagPlatform.Lib

variable {α : Type}

/-- The positions from `start` up to `stop`. -/
structure Window where
  start : Nat
  stop : Nat

def Window.of (v : Window) (l : List α) : List α := (l.take v.stop).drop v.start

section

variable (w : α → Int) (target overlap : Int)

def weigh (l : List α) : Int := (l.map w).sum

def longestSuffix (budget : Int) : List α → List α
  | [] => []
  | x :: l => if weigh w (x :: l) ≤ budget then x :: l else longestSuffix budget l

/-- What the next window opens with: nothing, where that would be the whole window. -/
def carriedOver (l : List α) : List α :=
  if weigh w l ≤ overlap then [] else longestSuffix w overlap l

/-- The windows that are finished, and the one that is being filled. -/
structure Packer (α : Type) where
  done : List (List α) := []
  current : List α := []

def Packer.add (p : Packer α) (x : α) : Packer α :=
  if p.current ≠ [] ∧ target < weigh w p.current + w x then
    { done := p.done ++ [p.current], current := carriedOver w overlap p.current ++ [x] }
  else { p with current := p.current ++ [x] }

def packed (l : List α) : Packer α := l.foldl (Packer.add w target overlap) {}

/-- The windows of a packing, the last of which is whatever was being filled. -/
def Packer.windows (p : Packer α) : List (List α) :=
  if p.current = [] then p.done else p.done ++ [p.current]

structure Follows (v v' : Window) : Prop where
  start_lt : v.start < v'.start
  start_le : v'.start ≤ v.stop
  stop_lt : v.stop < v'.stop

/-- Windows over `n` positions, in order and each with something new. -/
structure Tiles (n : Nat) (vs : List Window) : Prop where
  first : ∀ v ∈ vs.head?, v.start = 0
  last : ∀ v ∈ vs.getLast?, v.stop = n
  proper : ∀ v ∈ vs, v.start < v.stop
  follows : vs.IsChain Follows

/-- The positions that the two share are the longest suffix of the first within the budget, unless
that is all of it. -/
structure Carries (l : List α) (v v' : Window) : Prop where
  whole : weigh w (v.of l) ≤ overlap → v'.start = v.stop
  within : v'.start = v.stop ∨ weigh w ((Window.mk v'.start v.stop).of l) ≤ overlap
  longest : overlap < weigh w (v.of l) → ∀ k, v.start ≤ k → k < v'.start →
    overlap < weigh w ((Window.mk k v.stop).of l)

/-- A window that gained more than one unit has stayed within the target. -/
def Filled (l : List α) (before : Nat) (v : Window) : Prop :=
  weigh w (v.of l) ≤ target ∨ v.stop = before + 1

structure Cut (l : List α) (v v' : Window) : Prop extends Follows v v', Carries w overlap l v v' where
  full : ∀ u ∈ l[v.stop]?, target < weigh w (v.of l) + w u
  filled : Filled w target l v.stop v'

inductive Cuts (l : List α) : List Window → Window → Prop
  | first {v : Window} : v.start = 0 → v.start < v.stop → Filled w target l 0 v → Cuts l [] v
  | next {vs : List Window} {v v' : Window} : Cuts l vs v → Cut w target overlap l v v' →
    Cuts l (vs ++ [v]) v'

structure Greedy (l : List α) (vs : List Window) : Prop where
  first : ∀ v ∈ vs.head?, v.start = 0 ∧ Filled w target l 0 v
  next : vs.IsChain (Cut w target overlap l)
  last : ∀ v ∈ vs.getLast?, v.stop = l.length
  bounded : ∀ v ∈ vs, v.start < v.stop ∧ v.stop ≤ l.length
  nil_iff : vs = [] ↔ l = []

end

section

variable {v : Window} {l l' : List α} {w : α → Int} {target overlap budget : Int}

theorem Window.of_append (h : v.stop ≤ l.length) (l' : List α) : v.of (l ++ l') = v.of l := by
  rw [Window.of, List.take_append_of_le_length h, Window.of]

theorem Window.of_concat {start : Nat} (h : start ≤ l.length) (x : α) :
    (Window.mk start (l.length + 1)).of (l ++ [x]) = (Window.mk start l.length).of l ++ [x] := by
  simp only [Window.of]
  rw [List.take_of_length_le (by simp), List.take_of_length_le (le_refl _),
    List.drop_append_of_le_length h]

theorem Window.length_of (h : v.stop ≤ l.length) : (v.of l).length = v.stop - v.start := by
  simp [Window.of, h]

theorem Window.of_ne_nil (h : v.start < v.stop) (hl : v.stop ≤ l.length) : v.of l ≠ [] := by
  rw [← List.length_pos_iff, Window.length_of hl]
  omega

theorem Window.mem_of_iff {x : α} :
    x ∈ v.of l ↔ ∃ i, v.start ≤ i ∧ i < v.stop ∧ l[i]? = some x := by
  rw [Window.of, List.mem_iff_getElem?]
  constructor
  · rintro ⟨i, hi⟩
    rw [List.getElem?_drop, List.getElem?_take] at hi
    split at hi
    · next hlt => exact ⟨v.start + i, Nat.le_add_right _ _, hlt, hi⟩
    · cases hi
  · rintro ⟨i, hstart, hstop, hi⟩
    refine ⟨i - v.start, ?_⟩
    rw [List.getElem?_drop, List.getElem?_take, Nat.add_sub_cancel' hstart, if_pos hstop, hi]

theorem Window.of_map {β : Type} (v : Window) (f : α → β) (l : List α) :
    v.of (l.map f) = (v.of l).map f := by
  rw [Window.of, Window.of, List.map_drop, List.map_take]

theorem Window.of_empty (n : Nat) (l : List α) : (Window.mk n n).of l = [] :=
  List.drop_eq_nil_of_le (List.length_take_le n l)

theorem Window.subset_of (v : Window) (l : List α) : v.of l ⊆ l :=
  fun _ hx => List.mem_of_mem_take (List.mem_of_mem_drop hx)

theorem Window.of_split {m : Nat} (h : v.start ≤ m) (h' : m ≤ v.stop) (l : List α) :
    v.of l = (Window.mk v.start m).of l ++ (Window.mk m v.stop).of l := by
  have hleft : (Window.mk v.start m).of l = (v.of l).take (m - v.start) := by
    rw [Window.of, Window.of, List.take_drop, List.take_take, Nat.add_sub_cancel' h,
      Nat.min_eq_left h']
  have hright : (Window.mk m v.stop).of l = (v.of l).drop (m - v.start) := by
    rw [Window.of, Window.of, List.drop_drop, Nat.add_sub_cancel' h]
  rw [hleft, hright, List.take_append_drop]

theorem Window.of_single {n : Nat} {x : α} (h : l[n]? = some x) :
    (Window.mk n (n + 1)).of l = [x] := by
  obtain ⟨hn, rfl⟩ := List.getElem?_eq_some_iff.mp h
  rw [Window.of, List.take_succ_eq_append_getElem hn, List.drop_append_of_le_length (by simp [hn.le])]
  simp

/-- A window that ends with the unit at `m`. -/
theorem Window.of_last {m : Nat} {x : α} (h : v.start ≤ m) (hstop : v.stop = m + 1)
    (hx : l[m]? = some x) : v.of l = (Window.mk v.start m).of l ++ [x] := by
  rw [Window.of_split h (hstop ▸ Nat.le_succ m), hstop, Window.of_single hx]

theorem Window.drop_of (v : Window) (k : Nat) (l : List α) :
    (v.of l).drop k = (Window.mk (v.start + k) v.stop).of l := by
  rw [Window.of, List.drop_drop, Window.of]

@[simp] theorem weigh_nil : weigh w [] = 0 := rfl

@[simp] theorem weigh_cons (x : α) (l : List α) : weigh w (x :: l) = w x + weigh w l := by
  simp [weigh]

@[simp] theorem weigh_append (l l' : List α) : weigh w (l ++ l') = weigh w l + weigh w l' := by
  simp [weigh]

theorem weigh_replicate (n : Nat) (x : α) : weigh w (List.replicate n x) = n * w x := by
  simp [weigh]

theorem weigh_nonneg (h : ∀ x ∈ l, 0 < w x) : 0 ≤ weigh w l := by
  induction l with
  | nil => exact Int.le_refl 0
  | cons x l ih =>
    rw [weigh_cons]
    have hx := h x List.mem_cons_self
    have hl := ih fun y hy => h y (List.mem_cons_of_mem x hy)
    omega

theorem weigh_mono {w' : α → Int} (h : ∀ x ∈ l, w x ≤ w' x) : weigh w l ≤ weigh w' l := by
  induction l with
  | nil => exact Int.le_refl 0
  | cons x l ih =>
    rw [weigh_cons, weigh_cons]
    exact Int.add_le_add (h x List.mem_cons_self) (ih fun y hy => h y (List.mem_cons_of_mem x hy))

theorem weigh_pos (hne : l ≠ []) (h : ∀ x ∈ l, 0 < w x) : 0 < weigh w l := by
  cases l with
  | nil => exact absurd rfl hne
  | cons x l =>
    rw [weigh_cons]
    have hx := h x List.mem_cons_self
    have hl := weigh_nonneg fun y hy => h y (List.mem_cons_of_mem x hy)
    omega

theorem longestSuffix_eq_drop (w : α → Int) (budget : Int) (l : List α) :
    ∃ k ≤ l.length, longestSuffix w budget l = l.drop k ∧
      (k = l.length ∨ weigh w (l.drop k) ≤ budget) ∧ ∀ j < k, budget < weigh w (l.drop j) := by
  induction l with
  | nil => exact ⟨0, le_refl 0, rfl, .inl rfl, fun j hj => absurd hj (Nat.not_lt_zero j)⟩
  | cons x l ih =>
    by_cases hx : weigh w (x :: l) ≤ budget
    · refine ⟨0, Nat.zero_le _, ?_, .inr hx, fun j hj => absurd hj (Nat.not_lt_zero j)⟩
      rw [longestSuffix, if_pos hx, List.drop_zero]
    · obtain ⟨k, hk, heq, hwithin, hlongest⟩ := ih
      refine ⟨k + 1, Nat.succ_le_succ hk, ?_, ?_, fun j hj => ?_⟩
      · rw [longestSuffix, if_neg hx, heq, List.drop_succ_cons]
      · rw [List.drop_succ_cons, List.length_cons]
        exact hwithin.imp_left (congrArg (· + 1))
      · cases j with
        | zero => exact Int.not_le.mp hx
        | succ j => exact hlongest j (Nat.lt_of_succ_lt_succ hj)

theorem longestSuffix_self (h : weigh w l ≤ budget ∨ l = []) : longestSuffix w budget l = l := by
  cases l with
  | nil => rfl
  | cons x l => exact if_pos (h.resolve_right (List.cons_ne_nil x l))

theorem longestSuffix_append (hl : ∀ x ∈ l, 0 < w x) (hfits : weigh w l' ≤ budget ∨ l' = [])
    (hover : ∀ x ∈ l.getLast?, budget < weigh w l' + w x) :
    longestSuffix w budget (l ++ l') = l' := by
  induction l with
  | nil => exact longestSuffix_self hfits
  | cons x l ih =>
    have hrest : longestSuffix w budget (l ++ l') = l' := by
      refine ih (fun y hy => hl y (List.mem_cons_of_mem x hy)) fun y hy => hover y ?_
      rw [List.getLast?_cons, Option.mem_def.mp hy]
      rfl
    have hheavy : ¬ weigh w (x :: l ++ l') ≤ budget := by
      obtain ⟨init, y, hinit⟩ := (List.eq_nil_or_concat' (x :: l)).resolve_left nofun
      rw [hinit] at hl hover ⊢
      have hpos : 0 ≤ weigh w init := weigh_nonneg fun z hz => hl z (List.mem_append_left [y] hz)
      have hlast : budget < weigh w l' + w y := hover y (by simp)
      rw [weigh_append, weigh_append, weigh_cons, weigh_nil]
      omega
    rw [List.cons_append] at hheavy ⊢
    rw [longestSuffix, if_neg hheavy, hrest]

theorem carriedOver_eq_drop (w : α → Int) (overlap : Int) (hl : l ≠ []) :
    ∃ k ≤ l.length, carriedOver w overlap l = l.drop k ∧ 0 < k ∧
      (weigh w l ≤ overlap → k = l.length) ∧ (k = l.length ∨ weigh w (l.drop k) ≤ overlap) ∧
        (overlap < weigh w l → ∀ j < k, overlap < weigh w (l.drop j)) := by
  by_cases hwhole : weigh w l ≤ overlap
  · refine ⟨l.length, le_refl _, ?_, List.length_pos_iff.mpr hl, fun _ => rfl, .inl rfl,
      fun h => absurd hwhole (Int.not_le.mpr h)⟩
    rw [carriedOver, if_pos hwhole, List.drop_length]
  · obtain ⟨k, hk, heq, hwithin, hlongest⟩ := longestSuffix_eq_drop w overlap l
    refine ⟨k, hk, by rw [carriedOver, if_neg hwhole, heq], ?_, fun h => absurd h hwhole, hwithin,
      fun _ => hlongest⟩
    refine Nat.pos_of_ne_zero fun hzero => ?_
    subst hzero
    refine hwithin.elim (fun hlen => hl (List.length_eq_zero_iff.mp hlen.symm)) hwhole

/-- What is promised of two windows does not depend on what comes after them, but for the second
one being filled. -/
theorem Cut.extend {v' v'' : Window} (h : Cut w target overlap l v v') (hv : v.stop < l.length)
    (l' : List α) (hstart : v''.start = v'.start) (hstop : v.stop < v''.stop)
    (hfilled : Filled w target (l ++ l') v.stop v'') : Cut w target overlap (l ++ l') v v'' := by
  have hof (k : Nat) : (Window.mk k v.stop).of (l ++ l') = (Window.mk k v.stop).of l :=
    Window.of_append (v := ⟨k, v.stop⟩) hv.le l'
  refine {
    start_lt := hstart ▸ h.start_lt
    start_le := hstart ▸ h.start_le
    stop_lt := hstop
    whole := fun hw => hstart ▸ h.whole (hof v.start ▸ hw)
    within := by
      rw [hstart, hof]
      exact h.within
    longest := fun hw k hk hk' => hof k ▸ h.longest (hof v.start ▸ hw) k hk (hstart ▸ hk')
    full := fun u hu => ?_
    filled := hfilled }
  rw [List.getElem?_append_left hv] at hu
  exact hof v.start ▸ h.full u hu

theorem Filled.append {n : Nat} (h : Filled w target l n v) (hv : v.stop ≤ l.length)
    (l' : List α) : Filled w target (l ++ l') n v := by
  unfold Filled
  rw [Window.of_append hv l']
  exact h

namespace Cuts

variable {vs : List Window}

theorem start_lt (h : Cuts w target overlap l vs v) : v.start < v.stop := by
  cases h with
  | first _ hlt _ => exact hlt
  | next _ hcut => exact hcut.start_le.trans_lt hcut.stop_lt

theorem append (h : Cuts w target overlap l vs v) (hv : v.stop ≤ l.length) (l' : List α) :
    Cuts w target overlap (l ++ l') vs v := by
  induction h with
  | first hstart hlt hfilled => exact .first hstart hlt (hfilled.append hv l')
  | next _ hcut ih =>
    have hlt := hcut.stop_lt.trans_le hv
    exact .next (ih hlt.le) (hcut.extend hlt l' rfl hcut.stop_lt (hcut.filled.append hv l'))

variable {start : Nat} {x : α}

theorem take (h : Cuts w target overlap l vs ⟨start, l.length⟩)
    (hfits : weigh w ((Window.mk start l.length).of l) + w x ≤ target) :
    Cuts w target overlap (l ++ [x]) vs ⟨start, l.length + 1⟩ := by
  have hlt : start < l.length := h.start_lt
  have hfilled : weigh w ((Window.mk start (l.length + 1)).of (l ++ [x])) ≤ target := by
    rw [Window.of_concat hlt.le, weigh_append, weigh_cons, weigh_nil]
    omega
  cases h with
  | first hstart _ _ => exact .first hstart (hlt.trans (Nat.lt_succ_self _)) (.inl hfilled)
  | @next vs v _ hcuts hcut =>
    have hv : v.stop < l.length := hcut.stop_lt
    exact .next (hcuts.append hv.le [x])
      (hcut.extend hv [x] rfl (hv.trans (Nat.lt_succ_self _)) (.inl hfilled))

theorem cut (h : Cuts w target overlap l vs ⟨start, l.length⟩)
    (hfull : target < weigh w ((Window.mk start l.length).of l) + w x) :
    ∃ start', carriedOver w overlap ((Window.mk start l.length).of l) =
        (Window.mk start' l.length).of l ∧ start' ≤ l.length ∧
      Cuts w target overlap (l ++ [x]) (vs ++ [⟨start, l.length⟩]) ⟨start', l.length + 1⟩ := by
  have hlt : start < l.length := h.start_lt
  have hof (k : Nat) : (Window.mk k l.length).of (l ++ [x]) = (Window.mk k l.length).of l :=
    Window.of_append (v := ⟨k, l.length⟩) (le_refl _) [x]
  have hlength : ((Window.mk start l.length).of l).length = l.length - start :=
    Window.length_of (v := ⟨start, l.length⟩) (le_refl _)
  obtain ⟨k, hk, heq, hpos, hwhole, hwithin, hlongest⟩ :=
    carriedOver_eq_drop w overlap (Window.of_ne_nil (v := ⟨start, l.length⟩) hlt (le_refl _))
  rw [Window.drop_of] at heq hwithin
  rw [hlength] at hk hwhole hwithin
  refine ⟨start + k, heq, by omega, .next (h.append (le_refl _) [x]) {
    start_lt := show start < start + k by omega
    start_le := show start + k ≤ l.length by omega
    stop_lt := Nat.lt_succ_self _
    whole := fun hw => ?_
    within := ?_
    longest := fun hw j hj hj' => ?_
    full := fun u hu => ?_
    filled := .inr rfl }⟩
  · have hkey := hwhole (hof start ▸ hw)
    change start + k = l.length
    omega
  · rw [hof]
    refine hwithin.imp_left fun hkey => ?_
    change start + k = l.length
    omega
  · have hj₁ : start ≤ j := hj
    have hj₂ : j < start + k := hj'
    have hover := hlongest (hof start ▸ hw) (j - start) (by omega)
    rw [Window.drop_of, Nat.add_sub_cancel' hj₁] at hover
    rw [hof]
    exact hover
  · rw [List.getElem?_concat_length] at hu
    obtain rfl := Option.some.inj hu
    rw [hof]
    exact hfull

theorem first_eq (h : Cuts w target overlap l vs v) :
    ∀ u ∈ (vs ++ [v]).head?, u.start = 0 ∧ Filled w target l 0 u := by
  induction h with
  | first hstart _ hfilled =>
    rintro u ⟨⟩
    exact ⟨hstart, hfilled⟩
  | next _ _ ih =>
    rw [List.head?_append_of_ne_nil _ (by simp)]
    exact ih

theorem chain (h : Cuts w target overlap l vs v) :
    (vs ++ [v]).IsChain (Cut w target overlap l) := by
  induction h with
  | first => exact .singleton _
  | next _ hcut ih =>
    refine List.isChain_append.mpr ⟨ih, .singleton _, ?_⟩
    rintro u hu u' ⟨⟩
    rw [List.getLast?_concat] at hu
    cases hu
    exact hcut

theorem bounded (h : Cuts w target overlap l vs v) (hv : v.stop ≤ l.length) :
    ∀ u ∈ vs ++ [v], u.start < u.stop ∧ u.stop ≤ l.length := by
  induction h with
  | first _ hlt _ =>
    intro u hu
    obtain rfl := List.mem_singleton.mp hu
    exact ⟨hlt, hv⟩
  | next hcuts hcut ih =>
    intro u hu
    obtain hu | hu := List.mem_append.mp hu
    · exact ih (hcut.stop_lt.le.trans hv) u hu
    · obtain rfl := List.mem_singleton.mp hu
      exact ⟨hcut.start_le.trans_lt hcut.stop_lt, hv⟩

end Cuts

theorem packed_windows (w : α → Int) (target overlap : Int) (hl : l ≠ []) :
    ∃ vs start, Cuts w target overlap l vs ⟨start, l.length⟩ ∧
      packed w target overlap l =
        ⟨vs.map (·.of l), (Window.mk start l.length).of l⟩ := by
  induction l using List.reverseRecOn with
  | nil => exact absurd rfl hl
  | append_singleton l x ih =>
    have hstep : packed w target overlap (l ++ [x]) =
        Packer.add w target overlap (packed w target overlap l) x := List.foldl_append ..
    rw [hstep, List.length_append, List.length_singleton]
    by_cases hnil : l = []
    · subst hnil
      exact ⟨[], 0, .first rfl Nat.one_pos (.inr rfl), rfl⟩
    · obtain ⟨vs, start, hcuts, hpacked⟩ := ih hnil
      have hne : (Window.mk start l.length).of l ≠ [] :=
        Window.of_ne_nil hcuts.start_lt (le_refl _)
      have hdone : vs.map (·.of (l ++ [x])) = vs.map (·.of l) := by
        refine List.map_congr_left fun v hv => Window.of_append ?_ [x]
        exact (hcuts.bounded (le_refl _) v (List.mem_append_left _ hv)).2
      rw [hpacked, Packer.add]
      by_cases hfull : target < weigh w ((Window.mk start l.length).of l) + w x
      · obtain ⟨start', hcarried, hle, hcuts'⟩ := hcuts.cut hfull
        refine ⟨vs ++ [⟨start, l.length⟩], start', hcuts', ?_⟩
        rw [if_pos ⟨hne, hfull⟩, List.map_append, hdone, hcarried, Window.of_concat hle]
        rw [List.map_singleton, Window.of_append (v := ⟨start, l.length⟩) (le_refl _)]
      · refine ⟨vs, start, hcuts.take (Int.not_lt.mp hfull), ?_⟩
        rw [if_neg fun h => hfull h.2, hdone, Window.of_concat hcuts.start_lt.le]

theorem subset_packed_current (w : α → Int) (target overlap : Int) (l : List α) :
    (packed w target overlap l).current ⊆ l := by
  by_cases hl : l = []
  · subst hl
    exact List.nil_subset []
  · obtain ⟨vs, start, -, hpacked⟩ := packed_windows w target overlap hl
    rw [hpacked]
    exact Window.subset_of _ l

theorem packed_greedy (w : α → Int) (target overlap : Int) (l : List α) :
    ∃ vs, Greedy w target overlap l vs ∧
      (packed w target overlap l).windows = vs.map (·.of l) := by
  by_cases hl : l = []
  · subst hl
    exact ⟨[], ⟨nofun, .nil, nofun, nofun, by simp⟩, rfl⟩
  · obtain ⟨vs, start, hcuts, hpacked⟩ := packed_windows w target overlap hl
    refine ⟨vs ++ [⟨start, l.length⟩], ⟨hcuts.first_eq, hcuts.chain, ?_,
      hcuts.bounded (le_refl _), by simp [hl]⟩, ?_⟩
    · intro v hv
      rw [List.getLast?_concat] at hv
      cases hv
      rfl
    · rw [hpacked, Packer.windows, if_neg (Window.of_ne_nil hcuts.start_lt (le_refl _)),
        List.map_append]
      rfl

theorem Greedy.tiles {vs : List Window} (h : Greedy w target overlap l vs) :
    Tiles l.length vs where
  first := fun v hv => (h.first v hv).1
  last := h.last
  proper := fun v hv => (h.bounded v hv).1
  follows := h.next.imp fun _ _ hcut => hcut.toFollows

theorem Carries.weigh_le {v' : Window} (h : Carries w overlap l v v') (hoverlap : 0 ≤ overlap) :
    weigh w ((Window.mk v'.start v.stop).of l) ≤ overlap := by
  obtain hempty | hfits := h.within
  · rw [hempty, Window.of_empty]
    exact hoverlap
  · exact hfits

theorem exists_before_of_chain {R : α → α → Prop} {x : α} (h : l.IsChain R) (hx : x ∈ l) :
    x ∈ l.head? ∨ ∃ y ∈ l, R y x := by
  induction h with
  | nil => cases hx
  | singleton y => exact .inl (by rw [List.mem_singleton.mp hx]; rfl)
  | @cons_cons y z l hyz _ ih =>
    obtain rfl | hx := List.mem_cons.mp hx
    · exact .inl rfl
    · obtain hhead | ⟨u, hu, hux⟩ := ih hx
      · cases hhead
        exact .inr ⟨y, List.mem_cons_self, hyz⟩
      · exact .inr ⟨u, List.mem_cons_of_mem y hu, hux⟩

section

variable {vs : List Window} (h : Greedy w target overlap l vs) (hw : ∀ x ∈ l, w x ≤ target)
include h hw

theorem Greedy.weigh_first : ∀ v ∈ vs.head?, weigh w (v.of l) ≤ target := by
  intro v hv
  obtain ⟨hstart, hfits | hone⟩ := h.first v hv
  · exact hfits
  · have hlen : 0 < l.length := by
      have hbound := (h.bounded v (List.mem_of_mem_head? hv)).2
      omega
    have hsingle : v.of l = [l[0]] := by
      have hv : v = ⟨0, 0 + 1⟩ := by
        obtain ⟨start, stop⟩ := v
        subst hstart
        rw [show stop = 0 + 1 from hone]
      rw [hv]
      exact Window.of_single (List.getElem?_eq_getElem hlen)
    rw [hsingle, weigh_cons, weigh_nil, Int.add_zero]
    exact hw _ (List.getElem_mem hlen)

theorem Greedy.weigh_next : vs.IsChain fun v v' => Cut w target overlap l v v' ∧
    (weigh w (v'.of l) ≤ target ∨
      weigh w (v'.of l) ≤ weigh w ((Window.mk v'.start v.stop).of l) + target) := by
  refine h.next.imp_of_mem_imp fun v v' _ hv' hcut => ⟨hcut, hcut.filled.imp_right fun hone => ?_⟩
  have hlen : v.stop < l.length := hcut.stop_lt.trans_le (h.bounded v' hv').2
  rw [Window.of_last hcut.start_le hone (List.getElem?_eq_getElem hlen), weigh_append, weigh_cons,
    weigh_nil]
  have hx := hw _ (List.getElem_mem hlen)
  omega

theorem Greedy.weigh_le (hoverlap : 0 ≤ overlap) : ∀ v ∈ vs, weigh w (v.of l) ≤ target + overlap := by
  intro v hv
  obtain hhead | ⟨u, -, hcut, hnext⟩ :=
    exists_before_of_chain (h.weigh_next hw) hv
  · have hfirst := h.weigh_first hw v hhead
    omega
  · have hcarried := hcut.toCarries.weigh_le hoverlap
    omega

end

theorem Carries.start_le {v₁ v₂ : Window} (h₁ : Carries w overlap l v v₁)
    (h₂ : Carries w overlap l v v₂) (hstart : v.start ≤ v₁.start) (hstop : v₂.start ≤ v.stop) :
    v₂.start ≤ v₁.start := by
  by_contra hlt
  rw [Nat.not_le] at hlt
  by_cases hwhole : weigh w (v.of l) ≤ overlap
  · rw [h₁.whole hwhole, h₂.whole hwhole] at hlt
    exact Nat.lt_irrefl _ hlt
  · have hover := h₂.longest (Int.not_le.mp hwhole) v₁.start hstart hlt
    obtain hempty | hfits := h₁.within
    · omega
    · omega

theorem stop_le_of_full {before : Nat} {v' : Window} (hpos : ∀ x ∈ l, 0 < w x)
    (hstart : v.start = v'.start) (hlt : v.start < v.stop) (hbefore : before < v.stop)
    (hbound : v'.stop ≤ l.length) (hfull : ∀ u ∈ l[v.stop]?, target < weigh w (v.of l) + w u)
    (hfilled : Filled w target l before v') : v'.stop ≤ v.stop := by
  by_contra hshort
  rw [Nat.not_le] at hshort
  have hlen : v.stop < l.length := hshort.trans_le hbound
  have hover := hfull _ (List.getElem?_eq_getElem hlen)
  have hsplit : weigh w (v'.of l) = weigh w (v.of l) + w l[v.stop] +
      weigh w ((Window.mk (v.stop + 1) v'.stop).of l) := by
    rw [Window.of_split (hstart ▸ hlt.le) hshort.le, ← hstart, weigh_append,
      Window.of_split (v := ⟨v.stop, v'.stop⟩) (Nat.le_succ v.stop) hshort, weigh_append,
      Window.of_single (List.getElem?_eq_getElem hlen), weigh_cons, weigh_nil, Int.add_zero]
    exact (Int.add_assoc ..).symm
  have hrest : 0 ≤ weigh w ((Window.mk (v.stop + 1) v'.stop).of l) :=
    weigh_nonneg fun x hx => hpos x (Window.subset_of _ l hx)
  obtain hfits | hone := hfilled
  · omega
  · omega

/-- The windows of a greedy packing from some point on. -/
structure Segment (w : α → Int) (target overlap : Int) (l : List α) (before : Nat)
    (vs : List Window) : Prop where
  first : ∀ v ∈ vs.head?, before < v.stop ∧ Filled w target l before v
  next : vs.IsChain (Cut w target overlap l)
  last : ∀ v ∈ vs.getLast?, v.stop = l.length
  bounded : ∀ v ∈ vs, v.start < v.stop ∧ v.stop ≤ l.length

namespace Segment

variable {before : Nat} {v' : Window} {vs vs' : List Window}

theorem tail (h : Segment w target overlap l before (v :: v' :: vs)) :
    Cut w target overlap l v v' ∧ Segment w target overlap l v.stop (v' :: vs) := by
  obtain ⟨hcut, hnext⟩ := List.isChain_cons_cons.mp h.next
  refine ⟨hcut, ?_, hnext, ?_, fun u hu => h.bounded u (List.mem_cons_of_mem v hu)⟩
  · rintro u ⟨⟩
    exact ⟨hcut.stop_lt, hcut.filled⟩
  · have hlast := h.last
    rwa [List.getLast?_cons_cons] at hlast

theorem stop_le (hpos : ∀ x ∈ l, 0 < w x) (h : Segment w target overlap l before (v :: vs))
    (h' : Segment w target overlap l before (v' :: vs')) (hstart : v.start = v'.start) :
    v'.stop ≤ v.stop := by
  have hbound' := (h'.bounded v' List.mem_cons_self).2
  cases vs with
  | nil => exact hbound'.trans (h.last v rfl).ge
  | cons u vs =>
    exact stop_le_of_full hpos hstart (h.bounded v List.mem_cons_self).1 (h.first v rfl).1 hbound'
      h.tail.1.full (h'.first v' rfl).2

theorem head_eq (hpos : ∀ x ∈ l, 0 < w x) (h : Segment w target overlap l before (v :: vs))
    (h' : Segment w target overlap l before (v' :: vs')) (hstart : v.start = v'.start) : v = v' := by
  have hstop : v.stop = v'.stop :=
    le_antisymm (h'.stop_le hpos h hstart.symm) (h.stop_le hpos h' hstart)
  cases v
  cases v'
  exact congrArg₂ Window.mk hstart hstop

theorem stop_lt (h : Segment w target overlap l before (v :: v' :: vs)) : v.stop < l.length :=
  h.tail.1.stop_lt.trans_le (h.bounded v' (by simp)).2

theorem unique (hpos : ∀ x ∈ l, 0 < w x) (h : Segment w target overlap l before (v :: vs))
    (h' : Segment w target overlap l before (v' :: vs')) (hstart : v.start = v'.start) :
    v :: vs = v' :: vs' := by
  obtain rfl := h.head_eq hpos h' hstart
  induction vs generalizing before v vs' with
  | nil =>
    cases vs' with
    | nil => rfl
    | cons u' vs' => exact absurd (h.last v rfl) h'.stop_lt.ne
  | cons u vs ih =>
    cases vs' with
    | nil => exact absurd (h'.last v rfl) h.stop_lt.ne
    | cons u' vs' =>
      obtain ⟨hcut, htail⟩ := h.tail
      obtain ⟨hcut', htail'⟩ := h'.tail
      have hle := hcut.toCarries.start_le hcut'.toCarries hcut.start_lt.le hcut'.start_le
      have hge := hcut'.toCarries.start_le hcut.toCarries hcut'.start_lt.le hcut.start_le
      have hstart := le_antisymm hge hle
      obtain rfl := htail.head_eq hpos htail' hstart
      rw [ih htail htail' rfl]

end Segment

theorem Greedy.segment {vs : List Window} (h : Greedy w target overlap l vs) :
    Segment w target overlap l 0 vs where
  first v hv := by
    have hbound := h.bounded v (List.mem_of_mem_head? hv)
    exact ⟨Nat.zero_lt_of_lt hbound.1, (h.first v hv).2⟩
  next := h.next
  last := h.last
  bounded := h.bounded

theorem Greedy.unique {vs vs' : List Window} (hpos : ∀ x ∈ l, 0 < w x)
    (h : Greedy w target overlap l vs) (h' : Greedy w target overlap l vs') : vs = vs' := by
  cases vs with
  | nil => rw [h'.nil_iff.mpr (h.nil_iff.mp rfl)]
  | cons v vs =>
    cases vs' with
    | nil => exact absurd (h.nil_iff.mpr (h'.nil_iff.mp rfl)) (List.cons_ne_nil v vs)
    | cons v' vs' =>
      refine h.segment.unique hpos h'.segment ?_
      exact (h.first v rfl).1.trans (h'.first v' rfl).1.symm

end

theorem exists_window_of_chain {n i : Nat} {vs : List Window} {v : Window}
    (h : (v :: vs).IsChain Follows) (hlast : ∀ u ∈ (v :: vs).getLast?, u.stop = n)
    (hi : v.start ≤ i) (hn : i < n) : ∃ u ∈ v :: vs, u.start ≤ i ∧ i < u.stop := by
  induction vs generalizing v with
  | nil =>
    refine ⟨v, List.mem_singleton_self v, hi, ?_⟩
    rw [hlast v rfl]
    exact hn
  | cons v' vs ih =>
    obtain ⟨hfollows, hrest⟩ := List.isChain_cons_cons.mp h
    by_cases hv : i < v.stop
    · exact ⟨v, List.mem_cons_self, hi, hv⟩
    · have hi' : v'.start ≤ i := hfollows.start_le.trans (Nat.not_lt.mp hv)
      obtain ⟨u, hu, hui⟩ := ih hrest (by rwa [List.getLast?_cons_cons] at hlast) hi'
      exact ⟨u, List.mem_cons_of_mem v hu, hui⟩

namespace Tiles

variable {n : Nat} {vs : List Window}

theorem covers (h : Tiles n vs) (hne : vs ≠ []) {i : Nat} (hi : i < n) :
    ∃ v ∈ vs, v.start ≤ i ∧ i < v.stop := by
  cases vs with
  | nil => exact absurd rfl hne
  | cons v vs =>
    refine exists_window_of_chain h.follows h.last ?_ hi
    rw [h.first v rfl]
    exact Nat.zero_le i

end Tiles

end RagPlatform.Lib
