import Mathlib.Data.List.Induction
import Mathlib.Data.List.Infix

/-! Walks down from a root and up again, where going up from the root stays there. -/

namespace RagPlatform.Lib

inductive Move (α : Type*)
  | stay
  | up
  | down (a : α)

namespace Move

variable {α : Type*}

/-- Where a move leads from a place, given as the way to it with the innermost step first. -/
def apply : Move α → List α → List α
  | .stay, place => place
  | .up, place => place.tail
  | .down a, place => a :: place

def walk (place : List α) (moves : List (Move α)) : List α := moves.foldl (fun p m => m.apply p) place

def ups : List (Move α) → Nat
  | [] => 0
  | .up :: moves => ups moves + 1
  | _ :: moves => ups moves

def downs : List (Move α) → Nat
  | [] => 0
  | .down _ :: moves => downs moves + 1
  | _ :: moves => downs moves

def Stays (moves : List (Move α)) : Prop := ∀ first, first <+: moves → ups first ≤ downs first

def Sinks (moves : List (Move α)) : Prop := ∀ last, last <:+ moves → downs last ≤ ups last

variable {moves moves' : List (Move α)} {a b : α}

@[simp] theorem walk_nil (place : List α) : walk place [] = place := rfl

theorem walk_cons (place : List α) (m : Move α) (moves : List (Move α)) :
    walk place (m :: moves) = walk (m.apply place) moves := rfl

theorem walk_append (place : List α) (moves moves' : List (Move α)) :
    walk place (moves ++ moves') = walk (walk place moves) moves' := List.foldl_append ..

theorem mem_walk {place : List α} (h : a ∈ walk place moves) : a ∈ place ∨ .down a ∈ moves := by
  induction moves generalizing place with
  | nil => exact .inl h
  | cons m moves ih =>
    rcases ih h with h | h
    · cases m with
      | stay => exact .inl h
      | up => exact .inl (List.mem_of_mem_tail h)
      | down b =>
        rcases List.mem_cons.mp h with rfl | h
        · exact .inr List.mem_cons_self
        · exact .inl h
    · exact .inr (List.mem_cons_of_mem _ h)

theorem ups_append (moves moves' : List (Move α)) : ups (moves ++ moves') = ups moves + ups moves' := by
  induction moves with
  | nil => simp [ups]
  | cons m moves ih =>
    cases m with
    | up => rw [List.cons_append, ups, ups, ih, Nat.add_right_comm]
    | stay => exact ih
    | down a => exact ih

theorem downs_append (moves moves' : List (Move α)) :
    downs (moves ++ moves') = downs moves + downs moves' := by
  induction moves with
  | nil => simp [downs]
  | cons m moves ih =>
    cases m with
    | down a => rw [List.cons_append, downs, downs, ih, Nat.add_right_comm]
    | stay => exact ih
    | up => exact ih

theorem stays_nil : Stays ([] : List (Move α)) := by
  intro first h
  rw [List.prefix_nil.mp h, ups, downs]

theorem Stays.of_append (h : Stays (moves ++ moves')) : Stays moves :=
  fun first hfirst => h first (hfirst.trans (List.prefix_append _ _))

theorem stays_concat {m : Move α} :
    Stays (moves ++ [m]) ↔ Stays moves ∧ ups (moves ++ [m]) ≤ downs (moves ++ [m]) := by
  constructor
  · exact fun h => ⟨h.of_append, h _ List.prefix_rfl⟩
  · rintro ⟨h, hm⟩ first hfirst
    rcases List.prefix_concat_iff.mp hfirst with rfl | hfirst
    · exact hm
    · exact h first hfirst

theorem Stays.concat {m : Move α} (h : Stays moves) (hm : m ≠ .up) : Stays (moves ++ [m]) := by
  refine stays_concat.mpr ⟨h, ?_⟩
  have hle := h moves List.prefix_rfl
  rw [ups_append, downs_append]
  cases m with
  | up => exact absurd rfl hm
  | stay => exact hle
  | down a => simp only [ups, downs]; omega

theorem Stays.walk (h : Stays moves) :
    ∃ top : List α, top.length + ups moves = downs moves ∧
      ∀ place, Move.walk place moves = top ++ place := by
  induction moves using List.reverseRecOn with
  | nil => exact ⟨[], rfl, fun _ => rfl⟩
  | append_singleton moves m ih =>
    obtain ⟨hmoves, hm⟩ := stays_concat.mp h
    obtain ⟨top, hlen, htop⟩ := ih hmoves
    rw [ups_append, downs_append] at hm ⊢
    simp only [walk_append, htop, walk_cons, walk_nil]
    cases m with
    | stay => exact ⟨top, hlen, fun _ => rfl⟩
    | down a => exact ⟨a :: top, by simp [ups, downs]; omega, fun _ => rfl⟩
    | up =>
      cases top with
      | nil => simp [ups, downs] at hlen hm; omega
      | cons b top => exact ⟨top, by simp [ups, downs] at hlen ⊢; omega, fun _ => rfl⟩

theorem forall_suffix_concat {m : Move α} {P : List (Move α) → Prop} (hnil : P []) :
    (∀ last, last <:+ moves ++ [m] → P last) ↔ ∀ last, last <:+ moves → P (last ++ [m]) := by
  constructor
  · exact fun h last hlast => h _ (List.suffix_concat_iff.mpr (.inr ⟨last, rfl, hlast⟩))
  · rintro h last hlast
    rcases List.suffix_concat_iff.mp hlast with rfl | ⟨rest, rfl, hrest⟩
    · exact hnil
    · exact h rest hrest

theorem walk_length_le (n : Nat) :
    (Move.walk [] moves).length ≤ n ↔ ∀ last, last <:+ moves → downs last ≤ ups last + n := by
  induction moves using List.reverseRecOn generalizing n with
  | nil => simp [downs]
  | append_singleton moves m ih =>
    rw [forall_suffix_concat (by simp [downs])]
    simp only [walk_append, walk_cons, walk_nil, ups_append, downs_append]
    cases m with
    | stay => exact ih n
    | up =>
      have hlen : (Move.walk [] moves).tail.length ≤ n ↔ (Move.walk [] moves).length ≤ n + 1 := by
        rw [List.length_tail]
        omega
      simp only [apply, hlen, ih, ups, downs]
      exact forall₂_congr fun last _ => by omega
    | down a =>
      simp only [apply, List.length_cons, ups, downs]
      cases n with
      | zero =>
        refine iff_of_false (by omega) fun h => ?_
        have hnil := h [] List.nil_suffix
        simp [ups, downs] at hnil
      | succ n =>
        rw [Nat.add_le_add_iff_right, ih]
        exact forall₂_congr fun last _ => by omega

theorem walk_eq_nil : Move.walk [] moves = [] ↔ Sinks moves := by
  rw [← List.length_eq_zero_iff, ← Nat.le_zero, walk_length_le]
  rfl

theorem walk_bottom {top : List α} (h : Move.walk [] moves = top ++ [a]) :
    ∃ before after, moves = before ++ .down a :: after ∧ Move.walk [] before = [] ∧ Stays after ∧
      Move.walk [] after = top := by
  induction moves using List.reverseRecOn generalizing top with
  | nil => simp at h
  | append_singleton moves m ih =>
    rw [walk_append, walk_cons, walk_nil] at h
    cases m with
    | stay =>
      obtain ⟨before, after, rfl, hbefore, hafter, htop⟩ := ih h
      exact ⟨before, after ++ [.stay], by simp, hbefore, hafter.concat nofun,
        by rw [walk_append, htop]; rfl⟩
    | up =>
      cases hw : Move.walk [] moves with
      | nil => simp [apply, hw] at h
      | cons b rest =>
        rw [hw] at h
        rw [show rest = top ++ [a] from h, ← List.cons_append] at hw
        obtain ⟨before, after, rfl, hbefore, hafter, htop⟩ := ih hw
        obtain ⟨top', hlen, hwalk⟩ := hafter.walk
        have htop' : top' = b :: top := by rw [← htop, hwalk, List.append_nil]
        refine ⟨before, after ++ [.up], by simp, hbefore, stays_concat.mpr ⟨hafter, ?_⟩, ?_⟩
        · rw [htop', List.length_cons] at hlen
          rw [ups_append, downs_append]
          simp only [ups, downs]
          omega
        · rw [walk_append, htop]
          rfl
    | down b =>
      cases top with
      | nil =>
        obtain ⟨rfl, hw⟩ := List.cons.inj h
        exact ⟨moves, [], rfl, hw, stays_nil, rfl⟩
      | cons c top =>
        obtain ⟨rfl, hw⟩ := List.cons.inj h
        obtain ⟨before, after, rfl, hbefore, hafter, htop⟩ := ih hw
        exact ⟨before, after ++ [.down b], by simp, hbefore, hafter.concat nofun,
          by rw [walk_append, htop]; rfl⟩

/-- A walk from the root ends below `b`, itself right below `a`, exactly if at some point it is at
the root, goes down to `a`, comes back to it from any detour, and never leaves `b` again. -/
theorem walk_below_iff :
    (∃ top, Move.walk [] moves = top ++ [b, a]) ↔
      ∃ before detour after, moves = before ++ .down a :: (detour ++ .down b :: after) ∧
        Sinks before ∧ Stays detour ∧ downs detour ≤ ups detour ∧ Stays after := by
  constructor
  · rintro ⟨top, h⟩
    rw [← List.singleton_append, ← List.append_assoc] at h
    obtain ⟨before, later, rfl, hbefore, hlater, htop⟩ := walk_bottom h
    obtain ⟨detour, after, rfl, hdetour, hafter, -⟩ := walk_bottom htop
    have hstays := hlater.of_append
    obtain ⟨top', hlen, hwalk⟩ := hstays.walk
    have htop' : top' = [] := by simpa [hdetour] using (hwalk []).symm
    refine ⟨before, detour, after, rfl, walk_eq_nil.mp hbefore, hstays, ?_, hafter⟩
    rw [← hlen, htop']
    simp
  · rintro ⟨before, detour, after, rfl, hbefore, hdetour, hback, hafter⟩
    obtain ⟨top', hlen, hwalk⟩ := hdetour.walk
    obtain rfl : top' = [] := List.eq_nil_of_length_eq_zero (by omega)
    obtain ⟨top, -, htop⟩ := hafter.walk
    refine ⟨top, ?_⟩
    rw [walk_append, walk_eq_nil.mpr hbefore, walk_cons, walk_append, walk_cons]
    simp only [apply, hwalk, List.nil_append, htop]

end Move

end RagPlatform.Lib
