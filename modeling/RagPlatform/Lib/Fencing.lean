import RagPlatform.Lib.Outline

/-! Blocks of items between fences that do not nest, and a scanner that has only one flag for
them. -/

namespace RagPlatform.Lib

open Outline

variable {α δ : Type}

structure Fencing (α δ : Type) where
  opens : α → Option δ
  closes : δ → α → Bool

namespace Fencing

variable (F : Fencing α δ)

def step : Option δ → α → Option δ
  | none, x => F.opens x
  | some d, x => if F.closes d x then none else some d

def openAfter (xs : List α) : Option δ := xs.foldl F.step none

/-- The rest of a block whose fence is open, and what comes after the block. -/
inductive Runs (d : δ) : List α → List α → Prop
  | unclosed : Runs d [] []
  | close {x : α} (after : List α) : F.closes d x = true → Runs d [x] after
  | inner {x : α} {rest after : List α} :
    F.closes d x = false → Runs d rest after → Runs d (x :: rest) after

structure Block (xs before block after : List α) : Prop where
  split : xs = before ++ block ++ after
  outside : F.openAfter before = none
  runs : ∃ x d rest, block = x :: rest ∧ F.opens x = some d ∧ F.Runs d rest after

def isStray (mark : α → Bool) (before : List α) (x : α) : Bool :=
  match F.openAfter before with
  | none => false
  | some d => mark x && !F.closes d x

def strays (mark : α → Bool) (xs : List α) : Nat :=
  (inContext xs).countP fun e => F.isStray mark e.1 e.2

/-- Whatever opens or closes a block is marked, and nothing else opens one. -/
structure Marks (mark : α → Bool) : Prop where
  opens : ∀ x, mark x = (F.opens x).isSome
  closes : ∀ {x d y}, F.opens x = some d → F.closes d y = true → mark y = true

variable {F} {xs before block after rest : List α} {x : α} {d : δ}

theorem openAfter_concat (xs : List α) (x : α) :
    F.openAfter (xs ++ [x]) = F.step (F.openAfter xs) x := by
  rw [openAfter, List.foldl_append]
  rfl

theorem strays_concat (mark : α → Bool) (xs : List α) (x : α) :
    F.strays mark (xs ++ [x]) = F.strays mark xs + if F.isStray mark xs x then 1 else 0 := by
  rw [strays, inContext_concat, List.countP_append, List.countP_singleton]
  rfl

theorem exists_opening (h : F.openAfter xs = some d) :
    ∃ before x inside, xs = before ++ x :: inside ∧ F.openAfter before = none ∧
      F.opens x = some d ∧ ∀ y ∈ inside, F.closes d y = false := by
  induction xs using List.reverseRecOn with
  | nil => cases h
  | append_singleton xs y ih =>
    rw [openAfter_concat] at h
    cases hopen : F.openAfter xs with
    | none =>
      rw [hopen] at h
      exact ⟨xs, y, [], rfl, hopen, h, by simp⟩
    | some e =>
      rw [hopen] at h
      cases hclose : F.closes e y with
      | true => simp [step, hclose] at h
      | false =>
        obtain rfl : e = d := by simpa [step, hclose] using h
        obtain ⟨before, x, inside, rfl, hbefore, hx, hinside⟩ := ih hopen
        refine ⟨before, x, inside ++ [y], by simp, hbefore, hx, fun z hz => ?_⟩
        rw [List.mem_append, List.mem_singleton] at hz
        cases hz with
        | inl hz => exact hinside z hz
        | inr hz => exact hz ▸ hclose

/-- One flag, turned by every marked item, tells whether a block is open only as far as the strays
so far are even in number. -/
theorem Marks.odd_countP {mark : α → Bool} (h : F.Marks mark) (xs : List α) :
    decide (xs.countP mark % 2 = 1) =
      ((F.openAfter xs).isSome ^^ decide (F.strays mark xs % 2 = 1)) := by
  induction xs using List.reverseRecOn with
  | nil => rfl
  | append_singleton xs x ih =>
    have hodd (n : Nat) (b : Bool) :
        decide ((n + if b then 1 else 0) % 2 = 1) = (decide (n % 2 = 1) ^^ b) := by
      cases b with
      | false => simp
      | true => grind
    rw [List.countP_append, List.countP_singleton, hodd, ih, strays_concat, hodd, openAfter_concat]
    cases hopen : F.openAfter xs with
    | none => cases hx : F.opens x <;> simp [step, isStray, hopen, h.opens x, hx]
    | some d =>
      cases hclose : F.closes d x with
      | false => cases hmark : mark x <;> simp [step, isStray, hopen, hclose, hmark]
      | true =>
        obtain ⟨-, y, -, -, -, hy, -⟩ := exists_opening hopen
        simp [step, isStray, hopen, hclose, h.closes hy hclose]

theorem exists_runs (d : δ) (xs : List α) : ∃ rest after, xs = rest ++ after ∧ F.Runs d rest after := by
  induction xs with
  | nil => exact ⟨[], [], rfl, .unclosed⟩
  | cons x xs ih =>
    cases hclose : F.closes d x with
    | true => exact ⟨[x], xs, rfl, .close xs hclose⟩
    | false =>
      obtain ⟨rest, after, rfl, hruns⟩ := ih
      exact ⟨x :: rest, after, rfl, .inner hclose hruns⟩

theorem Runs.prepend (h : F.Runs d rest after) {inside : List α}
    (hinside : ∀ y ∈ inside, F.closes d y = false) : F.Runs d (inside ++ rest) after := by
  induction inside with
  | nil => exact h
  | cons y inside ih =>
    refine .inner (hinside y List.mem_cons_self) (ih fun z hz => ?_)
    exact hinside z (List.mem_cons_of_mem y hz)

theorem Runs.foldl_step (h : F.Runs d rest after) {inside more : List α}
    (hrest : rest = inside ++ x :: more) : inside.foldl F.step (some d) = some d := by
  induction h generalizing inside with
  | unclosed => simp at hrest
  | close after hclose =>
    cases inside with
    | nil => rfl
    | cons y inside => simp at hrest
  | inner hclose hruns ih =>
    cases inside with
    | nil => rfl
    | cons y inside =>
      obtain ⟨rfl, hmore⟩ := List.cons.inj hrest
      rw [List.foldl_cons, step, hclose, if_neg Bool.false_ne_true]
      exact ih hmore

theorem Block.openAfter (h : F.Block xs before block after) {inside more : List α}
    (hblock : block = inside ++ x :: more) :
    (inside = [] ∧ (F.opens x).isSome) ∨ (F.openAfter (before ++ inside)).isSome := by
  obtain ⟨y, d, rest, hrest, hopens, hruns⟩ := h.runs
  cases inside with
  | nil =>
    obtain ⟨rfl, -⟩ := List.cons.inj (hblock.symm.trans hrest)
    exact .inl ⟨rfl, by rw [hopens]; rfl⟩
  | cons z inside =>
    obtain ⟨rfl, hmore⟩ := List.cons.inj (hblock.symm.trans hrest)
    refine .inr ?_
    rw [Fencing.openAfter, List.foldl_append, ← Fencing.openAfter, h.outside, List.foldl_cons]
    change (inside.foldl F.step (F.opens z)).isSome = true
    rw [hopens, hruns.foldl_step hmore.symm]
    rfl

theorem exists_block (hopen : F.openAfter before = some d) (hx : F.closes d x = false)
    (after : List α) :
    ∃ pre inside more post, F.Block (before ++ x :: after) pre (inside ++ x :: more) post ∧
      before = pre ++ inside := by
  obtain ⟨pre, y, inside, rfl, hpre, hy, hinside⟩ := exists_opening hopen
  obtain ⟨more, post, rfl, hruns⟩ := exists_runs (F := F) d after
  refine ⟨pre, y :: inside, more, post, ⟨by simp, hpre, y, d, inside ++ x :: more, rfl, hy, ?_⟩, rfl⟩
  exact (Runs.inner hx hruns).prepend hinside

end Fencing

end RagPlatform.Lib
