import Mathlib.Logic.Function.Basic

/-! Computations suspended at their awaits, run alone or interleaved in a pool. -/

namespace RagPlatform.Lib

structure Signature where
  Req : Type
  Resp : Req → Type
  Out : Type

/-- A computation is stopped at every request it awaits and at every value it hands out. -/
inductive Async (S : Signature) (α : Type) : Type
  | ret : α → Async S α
  | await : (r : S.Req) → (S.Resp r → Async S α) → Async S α
  | emit : S.Out → Async S α → Async S α

variable {S : Signature} {α β : Type}

namespace Async

def bind : Async S α → (α → Async S β) → Async S β
  | .ret a, f => f a
  | .await r k, f => .await r (fun x => (k x).bind f)
  | .emit y p, f => .emit y (p.bind f)

instance : Monad (Async S) where
  pure := .ret
  bind := Async.bind

def request (r : S.Req) : Async S (S.Resp r) := .await r .ret

theorem bind_ret (p : Async S α) : p.bind .ret = p := by
  induction p with
  | ret a => rfl
  | await r k ih => simp only [bind, ih]
  | emit y p ih => simp only [bind, ih]

theorem bind_assoc {γ : Type} (p : Async S α) (f : α → Async S β) (g : β → Async S γ) :
    (p.bind f).bind g = p.bind (fun a => (f a).bind g) := by
  induction p with
  | ret a => rfl
  | await r k ih => simp only [bind, ih]
  | emit y p ih => simp only [bind, ih]

instance : LawfulMonad (Async S) :=
  LawfulMonad.mk' _ (fun p => bind_ret p) (fun _ _ => rfl) (fun p f g => bind_assoc p f g)

end Async

/-- How the surroundings answer: an oracle settles whatever the state leaves open. -/
abbrev Exec (S : Signature) (σ ω : Type) := ω → (r : S.Req) → σ → σ × S.Resp r

abbrev Log (S : Signature) := List ((r : S.Req) × S.Resp r)

/-- What everybody else commits just before an await, and how that await turns out. -/
structure Turn (σ ω : Type) : Type where
  others : σ → σ := id
  oracle : ω

/-- The turns of a run; `none` is the point where the process dies. -/
abbrev Feed (σ ω : Type) := Nat → Option (Turn σ ω)

def Feed.tail {σ ω : Type} (φ : Feed σ ω) : Feed σ ω := fun n => φ (n + 1)

def Feed.Alone {σ ω : Type} (φ : Feed σ ω) : Prop := ∀ n t, φ n = some t → t.others = id

/-- Every await is answered by an oracle of the kind `P`. -/
def Feed.Answers {σ ω : Type} (φ : Feed σ ω) (P : ω → Prop) : Prop :=
  ∀ n t, φ n = some t → P t.oracle

/-- The answers of `os` in turn, and nobody else about; then the process dies. -/
def Feed.of {σ ω : Type} (os : List ω) : Feed σ ω := fun n => os[n]?.map fun o => { oracle := o }

theorem Feed.alone_of {σ ω : Type} (os : List ω) : (Feed.of os : Feed σ ω).Alone := by
  intro n t ht
  obtain ⟨o, -, rfl⟩ := Option.map_eq_some_iff.mp ht
  rfl

theorem Feed.answers_of {σ ω : Type} {os : List ω} {P : ω → Prop} (h : ∀ o ∈ os, P o) :
    (Feed.of os : Feed σ ω).Answers P := by
  intro n t ht
  obtain ⟨o, ho, rfl⟩ := Option.map_eq_some_iff.mp ht
  exact h o (List.mem_of_getElem? ho)

/-- Every await is answered by `o`, and nobody else is about. -/
def Feed.always {σ ω : Type} (o : ω) : Feed σ ω := fun _ => some { oracle := o }

theorem Feed.alone_always {σ ω : Type} (o : ω) : (Feed.always o : Feed σ ω).Alone :=
  fun _ _ ht => Option.some.inj ht ▸ rfl

theorem Feed.answers_always {σ ω : Type} {o : ω} {P : ω → Prop} (h : P o) :
    (Feed.always o : Feed σ ω).Answers P :=
  fun _ _ ht => Option.some.inj ht ▸ h

theorem Feed.always_ne_none {σ ω : Type} (o : ω) (n : Nat) : (Feed.always o : Feed σ ω) n ≠ none :=
  nofun

section Run

variable {σ ω : Type} (exec : Exec S σ ω)

def Async.run : Async S α → Feed σ ω → σ → σ × Option (α × Feed σ ω)
  | .ret a, φ, s => (s, some (a, φ))
  | .emit _ p, φ, s => p.run φ s
  | .await r k, φ, s =>
    match φ 0 with
    | none => (s, none)
    | some t =>
      let x := exec t.oracle r (t.others s)
      (k x.2).run φ.tail x.1

def Async.final (p : Async S α) (φ : Feed σ ω) (s : σ) : σ := (p.run exec φ s).1

def Async.result (p : Async S α) (φ : Feed σ ω) (s : σ) : Option α :=
  (p.run exec φ s).2.map Prod.fst

variable {exec} in
theorem Async.run_of_result {p : Async S α} {φ : Feed σ ω} {s : σ} {a : α}
    (h : p.result exec φ s = some a) : ∃ φ', p.run exec φ s = (p.final exec φ s, some (a, φ')) := by
  obtain ⟨⟨_, φ'⟩, hrun, rfl⟩ := Option.map_eq_some_iff.mp h
  exact ⟨φ', Prod.ext rfl hrun⟩

variable {exec} in
theorem Async.result_of_run {p : Async S α} {φ φ' : Feed σ ω} {s s' : σ} {a : α}
    (h : p.run exec φ s = (s', some (a, φ'))) :
    p.result exec φ s = some a ∧ p.final exec φ s = s' := by
  simp only [result, final, h, Option.map_some, and_self]

theorem Async.run_of_alive {φ : Feed σ ω} (h : ∀ n, φ n ≠ none) (p : Async S α) (s : σ) :
    ∃ s' a φ', p.run exec φ s = (s', some (a, φ')) := by
  induction p generalizing φ s with
  | ret a => exact ⟨s, a, φ, rfl⟩
  | emit y p ih => exact ih h s
  | await r k ih =>
    obtain ⟨t, ht⟩ := Option.ne_none_iff_exists'.mp (h 0)
    simp only [run, ht]
    exact ih _ (fun n => h (n + 1)) _

variable {exec} in
theorem Async.feed_of_run {p : Async S α} {φ φ' : Feed σ ω} {s s' : σ} {a : α}
    (h : p.run exec φ s = (s', some (a, φ'))) : ∃ k, ∀ n, φ' n = φ (n + k) := by
  induction p generalizing φ s with
  | ret a =>
    simp only [run, Prod.mk.injEq, Option.some.injEq] at h
    exact ⟨0, fun n => by rw [h.2.2, Nat.add_zero]⟩
  | emit y p ih => exact ih h
  | await r k ih =>
    simp only [run] at h
    cases h0 : φ 0 with
    | none => simp [h0] at h
    | some t =>
      rw [h0] at h
      obtain ⟨k, hk⟩ := ih _ h
      exact ⟨k + 1, fun n => (hk n).trans rfl⟩

theorem Async.run_bind (p : Async S α) (f : α → Async S β) (φ : Feed σ ω) (s : σ) :
    (p.bind f).run exec φ s =
      match p.run exec φ s with
      | (s', some (a, φ')) => (f a).run exec φ' s'
      | (s', none) => (s', none) := by
  induction p generalizing φ s with
  | ret a => rfl
  | emit y p ih => exact ih φ s
  | await r k ih =>
    simp only [bind, run]
    cases φ 0 with
    | none => rfl
    | some t => exact ih _ _ _

section Fallible

variable {exec} {ε : Type} {q : ExceptT ε (Async S) α} {φ φ' : Feed σ ω} {s s' : σ}

theorem run_bind_ok {f : α → ExceptT ε (Async S) β} {a : α}
    (h : q.run.run exec φ s = (s', some (.ok a, φ'))) :
    (q >>= f).run.run exec φ s = (f a).run.run exec φ' s' := by
  change (Async.bind q.run _).run exec φ s = _
  rw [Async.run_bind, h]
  rfl

theorem final_bind_pure (g : α → β) :
    (q >>= fun a => pure (g a)).run.final exec φ s = q.run.final exec φ s := by
  change ((Async.bind q.run _).run exec φ s).1 = (q.run.run exec φ s).1
  rw [Async.run_bind]
  generalize q.run.run exec φ s = x
  obtain ⟨t, _ | ⟨_ | _, φ'⟩⟩ := x
  · rfl
  · rfl
  · rfl

end Fallible

end Run

structure Thread (S : Signature) (α : Type) where
  log : Log S := []
  out : List S.Out := []
  code : Async S α

structure Pool (S : Signature) (σ ι α : Type) where
  state : σ
  threads : ι → Option (Thread S α)

inductive Event (S : Signature) (ω ι α : Type)
  | spawn : ι → Async S α → Event S ω ι α
  | step : ι → ω → Event S ω ι α
  | kill : ι → Event S ω ι α

def Event.thread {ω ι : Type} : Event S ω ι α → ι
  | .spawn i _ => i
  | .step i _ => i
  | .kill i => i

namespace Pool

variable {σ ω ι : Type} [DecidableEq ι] (exec : Exec S σ ω)

def set (P : Pool S σ ι α) (i : ι) (t : Option (Thread S α)) : Pool S σ ι α :=
  { P with threads := Function.update P.threads i t }

@[simp] theorem set_state (P : Pool S σ ι α) (i : ι) (t : Option (Thread S α)) :
    (P.set i t).state = P.state := rfl

@[simp] theorem set_self (P : Pool S σ ι α) (i : ι) (t : Option (Thread S α)) :
    (P.set i t).threads i = t := Function.update_self ..

@[simp] theorem set_of_ne (P : Pool S σ ι α) {i j : ι} (t : Option (Thread S α)) (h : j ≠ i) :
    (P.set i t).threads j = P.threads j := Function.update_of_ne h ..

/-- Events that name no suitable thread leave the pool as it is. -/
def next (P : Pool S σ ι α) : Event S ω ι α → Pool S σ ι α
  | .spawn i p =>
    match P.threads i with
    | none => P.set i (some { code := p })
    | some _ => P
  | .kill i => P.set i none
  | .step i o =>
    match P.threads i with
    | some ⟨l, out, .await r k⟩ =>
      let x := exec o r P.state
      { state := x.1,
        threads := Function.update P.threads i (some ⟨l ++ [⟨r, x.2⟩], out, k x.2⟩) }
    | some ⟨l, out, .emit y p⟩ => P.set i (some ⟨l, out ++ [y], p⟩)
    | _ => P

theorem next_of_ne (P : Pool S σ ι α) {e : Event S ω ι α} {j : ι} (h : j ≠ e.thread) :
    (P.next exec e).threads j = P.threads j := by
  cases e with
  | spawn i p =>
    simp only [next]
    split
    · exact set_of_ne P _ h
    · rfl
  | kill i => exact set_of_ne P _ h
  | step i o =>
    simp only [next]
    split
    · exact Function.update_of_ne h ..
    · exact set_of_ne P _ h
    · rfl

def run (es : List (Event S ω ι α)) (P : Pool S σ ι α) : Pool S σ ι α := es.foldl (next exec) P

@[simp] theorem run_nil (P : Pool S σ ι α) : P.run exec ([] : List (Event S ω ι α)) = P := rfl

@[simp] theorem run_cons (e : Event S ω ι α) (es : List (Event S ω ι α)) (P : Pool S σ ι α) :
    P.run exec (e :: es) = (P.next exec e).run exec es := rfl

theorem run_append (es es' : List (Event S ω ι α)) (P : Pool S σ ι α) :
    P.run exec (es ++ es') = (P.run exec es).run exec es' := List.foldl_append ..

/-- The runs under consideration: who may be started, and which steps may be taken. -/
structure Rules (S : Signature) (σ ω ι α : Type) where
  spawn : ι → Async S α → σ → Prop
  step : Log S → ω → S.Req → σ → Prop

def Allows (R : Rules S σ ω ι α) (P : Pool S σ ι α) : Event S ω ι α → Prop
  | .spawn i p => R.spawn i p P.state
  | .kill _ => True
  | .step i o =>
    match P.threads i with
    | some ⟨l, _, .await r _⟩ => R.step l o r P.state
    | _ => True

def Obeys (R : Rules S σ ω ι α) : List (Event S ω ι α) → Pool S σ ι α → Prop
  | [], _ => True
  | e :: es, P => P.Allows R e ∧ Obeys R es (P.next exec e)

theorem obeys_append (R : Rules S σ ω ι α) (es es' : List (Event S ω ι α)) (P : Pool S σ ι α) :
    P.Obeys exec R (es ++ es') ↔ P.Obeys exec R es ∧ (P.run exec es).Obeys exec R es' := by
  induction es generalizing P with
  | nil => simp [Obeys]
  | cons e es ih => simp [Obeys, ih, and_assoc]

theorem obeys_of_forall {R : Rules S σ ω ι α} {es : List (Event S ω ι α)}
    (hspawn : ∀ i p, Event.spawn i p ∈ es → ∀ s, R.spawn i p s)
    (hstep : ∀ l o r s, R.step l o r s) {P : Pool S σ ι α} : P.Obeys exec R es := by
  induction es generalizing P with
  | nil => trivial
  | cons e es ih =>
    refine ⟨?_, ih fun i p hp => hspawn i p (.tail _ hp)⟩
    cases e with
    | spawn i p => exact hspawn i p (.head _) _
    | kill i => trivial
    | step i o =>
      simp only [Allows]
      split
      · exact hstep _ _ _ _
      · trivial

theorem obeys_of_steps {R : Rules S σ ω ι α} {es : List (Event S ω ι α)}
    (hspawn : ∀ i p, Event.spawn i p ∈ es → ∀ s, R.spawn i p s)
    (hstep : ∀ i o, Event.step i o ∈ es → ∀ l r s, R.step l o r s) {P : Pool S σ ι α} :
    P.Obeys exec R es := by
  induction es generalizing P with
  | nil => trivial
  | cons e es ih =>
    refine ⟨?_, ih (fun i p hp => hspawn i p (.tail _ hp)) fun i o ho => hstep i o (.tail _ ho)⟩
    cases e with
    | spawn i p => exact hspawn i p (.head _) _
    | kill i => trivial
    | step i o =>
      simp only [Allows]
      split
      · exact hstep i o (.head _) _ _ _
      · trivial

/-- Whether `ok` holds of every await the run answers. -/
def checks (ok : Log S → ω → S.Req → σ → Bool) : List (Event S ω ι α) → Pool S σ ι α → Bool
  | [], _ => true
  | .step i o :: es, P =>
    (match P.threads i with
      | some ⟨l, _, .await r _⟩ => ok l o r P.state
      | _ => true) && checks ok es (P.next exec (.step i o))
  | e :: es, P => checks ok es (P.next exec e)

theorem obeys_of_checks {R : Rules S σ ω ι α} {ok : Log S → ω → S.Req → σ → Bool}
    (hstep : ∀ l o r s, ok l o r s = true → R.step l o r s) {es : List (Event S ω ι α)}
    (hspawn : ∀ i p, Event.spawn i p ∈ es → ∀ s, R.spawn i p s) {P : Pool S σ ι α}
    (h : P.checks exec ok es = true) : P.Obeys exec R es := by
  induction es generalizing P with
  | nil => trivial
  | cons e es ih =>
    have hspawn' (i : ι) (p : Async S α) (hp : Event.spawn i p ∈ es) := hspawn i p (.tail _ hp)
    cases e with
    | spawn i p => exact ⟨hspawn i p (.head _) _, ih hspawn' h⟩
    | kill i => exact ⟨trivial, ih hspawn' h⟩
    | step i o =>
      simp only [checks, Bool.and_eq_true] at h
      refine ⟨?_, ih hspawn' h.2⟩
      have hok := h.1
      simp only [Allows]
      split at hok
      · exact hstep _ _ _ _ hok
      · trivial

def init (s : σ) : Pool S σ ι α := ⟨s, fun _ => none⟩

end Pool

end RagPlatform.Lib
