import Mathlib.Data.List.Forall2
import Mathlib.Order.Basic
import RagPlatform.Lib.Async

/-! Two computations that ask alike as long as they are answered alike, and the theorem that a group
of threads runs alone as it runs among the others. -/

namespace RagPlatform.Lib

/-- What counts as alike, in worlds that only grow.  Two requests that are alike say which answers
to them are. -/
structure Likeness (S : Signature) (W : Type) [Preorder W] where
  call : W → (r r' : S.Req) → (W → S.Resp r → S.Resp r' → Prop) → Prop
  out : W → S.Out → S.Out → Prop
  call_mono : ∀ {w v r r' ρ}, w ≤ v → call w r r' ρ → call v r r' ρ
  out_mono : ∀ {w v y y'}, w ≤ v → out w y y' → out v y y'

variable {S : Signature} {W : Type} [Preorder W] {α β γ δ : Type}

/-- `p` and `p'` ask alike, hand out alike and return values related by `Q`. -/
inductive Alike (L : Likeness S W) (Q : W → α → β → Prop) : W → Async S α → Async S β → Prop
  | ret {w : W} {a : α} {b : β} : (∀ v, w ≤ v → Q v a b) → Alike L Q w (.ret a) (.ret b)
  | await {w : W} {r r' : S.Req} {k : S.Resp r → Async S α} {k' : S.Resp r' → Async S β}
      {ρ : W → S.Resp r → S.Resp r' → Prop} : L.call w r r' ρ →
      (∀ v, w ≤ v → ∀ x x', ρ v x x' → Alike L Q v (k x) (k' x')) →
      Alike L Q w (.await r k) (.await r' k')
  | emit {w : W} {y y' : S.Out} {p : Async S α} {p' : Async S β} : L.out w y y' →
      Alike L Q w p p' → Alike L Q w (.emit y p) (.emit y' p')

variable {L : Likeness S W} {Q : W → α → β → Prop} {w v : W} {p : Async S α} {p' : Async S β}

namespace Alike

theorem later (h : Alike L Q w p p') (hwv : w ≤ v) : Alike L Q v p p' := by
  induction h generalizing v with
  | ret h => exact .ret fun u hu => h u (hwv.trans hu)
  | await hc _ ih =>
    exact .await (L.call_mono hwv hc) fun u hu x x' hx => ih u (hwv.trans hu) x x' hx le_rfl
  | emit hy _ ih => exact .emit (L.out_mono hwv hy) (ih hwv)

theorem bind {R : W → γ → δ → Prop} {f : α → Async S γ} {f' : β → Async S δ}
    (h : Alike L Q w p p')
    (hf : ∀ v, w ≤ v → ∀ a b, Q v a b → Alike L R v (f a) (f' b)) :
    Alike L R w (p.bind f) (p'.bind f') := by
  induction h with
  | ret h => exact hf _ le_rfl _ _ (h _ le_rfl)
  | await hc _ ih =>
    exact .await hc fun v hv x x' hx => ih v hv x x' hx fun u hu => hf u (hv.trans hu)
  | emit hy _ ih => exact .emit hy (ih hf)

end Alike

section Fallible

variable {ε : Type}

/-- The same error, or values related by `R`. -/
inductive Agree (R : α → β → Prop) : Except ε α → Except ε β → Prop
  | ok {a : α} {b : β} : R a b → Agree R (.ok a) (.ok b)
  | error (e : ε) : Agree R (.error e) (.error e)

theorem Agree.mono {R R' : α → β → Prop} {x : Except ε α} {y : Except ε β} (h : Agree R x y)
    (hR : ∀ a b, R a b → R' a b) : Agree R' x y := by
  cases h with
  | ok h => exact .ok (hR _ _ h)
  | error e => exact .error e

def AlikeE (L : Likeness S W) (Q : W → α → β → Prop) (w : W) (q : ExceptT ε (Async S) α)
    (q' : ExceptT ε (Async S) β) : Prop :=
  Alike L (fun v => Agree (Q v)) w q.run q'.run

variable {q : ExceptT ε (Async S) α} {q' : ExceptT ε (Async S) β}

namespace AlikeE

theorem pure {a : α} {b : β} (h : ∀ v, w ≤ v → Q v a b) :
    AlikeE L Q w (pure a : ExceptT ε (Async S) α) (pure b : ExceptT ε (Async S) β) :=
  .ret fun v hv => .ok (h v hv)

theorem throw (e : ε) :
    AlikeE L Q w (throw e : ExceptT ε (Async S) α) (throw e : ExceptT ε (Async S) β) :=
  .ret fun _ _ => .error e

theorem bind {R : W → γ → δ → Prop} {f : α → ExceptT ε (Async S) γ}
    {f' : β → ExceptT ε (Async S) δ} (h : AlikeE L Q w q q')
    (hf : ∀ v, w ≤ v → ∀ a b, Q v a b → AlikeE L R v (f a) (f' b)) :
    AlikeE L R w (q >>= f) (q' >>= f') := by
  refine Alike.bind h fun v hv x y hxy => ?_
  cases hxy with
  | ok h => exact hf v hv _ _ h
  | error e => exact throw e

theorem tryCatch {f : ε → ExceptT ε (Async S) α} {f' : ε → ExceptT ε (Async S) β}
    (h : AlikeE L Q w q q') (hQ : ∀ v u a b, v ≤ u → Q v a b → Q u a b)
    (hf : ∀ v, w ≤ v → ∀ e, AlikeE L Q v (f e) (f' e)) :
    AlikeE L Q w (tryCatch q f) (tryCatch q' f') := by
  refine Alike.bind h fun v hv x y hxy => ?_
  cases hxy with
  | ok h => exact pure fun u hu => hQ v u _ _ hu h
  | error e => exact hf v hv e

end AlikeE

end Fallible

namespace Pool

variable {σ ω ι τ : Type} {exec : Exec S σ ω}

/-- How the state of the whole pool (on the left) and that of one owner's run alone compare. -/
structure Unwinding (exec : Exec S σ ω) (legal : ω → S.Req → σ → Prop) (L : τ → Likeness S W)
    (st : τ → W → σ → σ → Prop) : Prop where
  /-- Both runs take the step. -/
  own : ∀ {t w s s' o r r' ρ}, (L t).call w r r' ρ → st t w s s' → legal o r s →
    ∃ v, w ≤ v ∧ st t v (exec o r s).1 (exec o r' s').1 ∧ ρ v (exec o r s).2 (exec o r' s').2
  /-- Only the whole pool takes it. -/
  other : ∀ {t u w v s s' s'' o r r' ρ}, t ≠ u → (L u).call w r r' ρ → st u w s s' → st t v s s'' →
    legal o r s → st t v (exec o r s).1 s''

variable {legal : ω → S.Req → σ → Prop} {L : τ → Likeness S W} {st : τ → W → σ → σ → Prop}
variable {Q : W → α → α → Prop} {owner : ι → τ}

/-- Nothing has been started on either side, or what was is alike so far and from here on. -/
inductive SameThread (L : Likeness S W) (Q : W → α → α → Prop) (w : W) :
    Option (Thread S α) → Option (Thread S α) → Prop
  | absent : SameThread L Q w none none
  | present {t t' : Thread S α} : List.Forall₂ (L.out w) t.out t'.out →
      Alike L Q w t.code t'.code → SameThread L Q w (some t) (some t')

theorem SameThread.later {L : Likeness S W} {w v : W} {x y : Option (Thread S α)}
    (h : SameThread L Q w x y) (hwv : w ≤ v) : SameThread L Q v x y := by
  cases h with
  | absent => exact .absent
  | present ho hc => exact .present (ho.imp fun _ _ => L.out_mono hwv) (hc.later hwv)

/-- The pool and the one in which only the threads of `t` run. -/
def Parallel (L : τ → Likeness S W) (st : τ → W → σ → σ → Prop) (Q : W → α → α → Prop)
    (owner : ι → τ) (t : τ) (P P' : Pool S σ ι α) : Prop :=
  ∃ w, st t w P.state P'.state ∧
    ∀ i, owner i = t → SameThread (L t) Q w (P.threads i) (P'.threads i)

namespace Parallel

variable {t : τ} {P P' : Pool S σ ι α} {R : Rules S σ ω ι α}

theorem init {s s' : σ} {w : W} (h : st t w s s') :
    Parallel L st Q owner t (Pool.init s : Pool S σ ι α) (Pool.init s') :=
  ⟨w, h, fun _ _ => .absent⟩

variable [DecidableEq ι]

/-- The threads other than `i` carry on in a later world; `i` goes on as `x` and `x'`. -/
theorem update {w v : W} {s s' : σ} {i : ι} {x x' : Option (Thread S α)}
    (hthreads : ∀ j, owner j = t → SameThread (L t) Q w (P.threads j) (P'.threads j))
    (hwv : w ≤ v) (hst : st t v s s') (hx : SameThread (L t) Q v x x') :
    Parallel L st Q owner t ⟨s, Function.update P.threads i x⟩
      ⟨s', Function.update P'.threads i x'⟩ := by
  refine ⟨v, hst, fun j hj => ?_⟩
  by_cases hji : j = i
  · subst hji
    simpa only [Function.update_self] using hx
  · simpa only [Function.update_of_ne hji] using (hthreads j hj).later hwv

theorem ignore {w : W} {s : σ} {i : ι} {x : Option (Thread S α)}
    (hthreads : ∀ j, owner j = t → SameThread (L t) Q w (P.threads j) (P'.threads j))
    (hst : st t w s P'.state) (hi : owner i ≠ t) :
    Parallel L st Q owner t ⟨s, Function.update P.threads i x⟩ P' := by
  refine ⟨w, hst, fun j hj => ?_⟩
  have hji : j ≠ i := fun h => hi (h ▸ hj)
  simpa only [Function.update_of_ne hji] using hthreads j hj

section Run

variable (hU : Unwinding exec legal L st)
  (hspawn : ∀ i p s, R.spawn i p s → ∀ w s', st (owner i) w s s' → Alike (L (owner i)) Q w p p)
  (hstep : ∀ l o r s, R.step l o r s → legal o r s)
include hU hspawn hstep

/-- An event of one of the threads of `t`. -/
theorem next_own {e : Event S ω ι α} (h : Parallel L st Q owner t P P') (he : P.Allows R e)
    (hown : owner e.thread = t) :
    Parallel L st Q owner t (P.next exec e) (P'.next exec e) := by
  obtain ⟨w, hst, hthreads⟩ := h
  have hi := hthreads e.thread hown
  cases e with
  | kill i => exact update hthreads le_rfl hst .absent
  | spawn i p =>
    simp only [Event.thread] at hi hown
    subst hown
    simp only [Pool.next]
    generalize hx : P.threads i = x at hi
    generalize hx' : P'.threads i = x' at hi
    cases hi with
    | absent =>
      exact update hthreads le_rfl hst (.present .nil (hspawn i p P.state he w P'.state hst))
    | present ho hc => exact ⟨w, hst, hthreads⟩
  | step i o =>
    simp only [Event.thread] at hi hown
    simp only [Allows] at he
    simp only [Pool.next]
    generalize hx : P.threads i = x at hi he
    generalize hx' : P'.threads i = x' at hi
    cases hi with
    | absent => exact ⟨w, hst, hthreads⟩
    | @present u u' ho hc =>
      obtain ⟨l, out, code⟩ := u
      obtain ⟨l', out', code'⟩ := u'
      cases hc with
      | ret ha => exact ⟨w, hst, hthreads⟩
      | emit hy hp =>
        exact update hthreads le_rfl hst
          (.present (List.rel_append ho (.cons hy .nil)) hp)
      | await hcall hk =>
        obtain ⟨v, hwv, hst', hρ⟩ := hU.own hcall hst (hstep _ _ _ _ he)
        exact update hthreads hwv hst'
          (.present (ho.imp fun _ _ => (L t).out_mono hwv) (hk v hwv _ _ hρ))

omit hspawn in
theorem next_other {e : Event S ω ι α} {u : τ} {Pu : Pool S σ ι α}
    (h : Parallel L st Q owner t P P') (hu : Parallel L st Q owner u P Pu) (he : P.Allows R e)
    (hown : owner e.thread = u) (htu : t ≠ u) : Parallel L st Q owner t (P.next exec e) P' := by
  obtain ⟨w, hst, hthreads⟩ := h
  obtain ⟨v, hstu, hthreadsu⟩ := hu
  have hne : owner e.thread ≠ t := fun h => htu (h.symm.trans hown)
  cases e with
  | kill i => exact ignore hthreads hst hne
  | spawn i p =>
    simp only [Pool.next]
    cases P.threads i with
    | none => exact ignore hthreads hst hne
    | some x => exact ⟨w, hst, hthreads⟩
  | step i o =>
    have hi := hthreadsu i hown
    simp only [Allows] at he
    simp only [Pool.next]
    generalize hx : P.threads i = x at hi he
    generalize hx' : Pu.threads i = x' at hi
    cases hi with
    | absent => exact ⟨w, hst, hthreads⟩
    | @present y y' ho hc =>
      obtain ⟨l, out, code⟩ := y
      obtain ⟨l', out', code'⟩ := y'
      cases hc with
      | ret ha => exact ⟨w, hst, hthreads⟩
      | emit hy hp => exact ignore hthreads hst hne
      | await hcall hk =>
        exact ignore hthreads (hU.other htu hcall hstu hst (hstep _ _ _ _ he)) hne

theorem run [DecidableEq τ] {es : List (Event S ω ι α)} {alone : τ → Pool S σ ι α}
    (h : ∀ t, Parallel L st Q owner t P (alone t)) (hes : P.Obeys exec R es) :
    ∀ t, Parallel L st Q owner t (P.run exec es)
      ((alone t).run exec (es.filter fun e => owner e.thread = t)) := by
  induction es generalizing P alone with
  | nil => exact h
  | cons e es ih =>
    intro t
    -- the owner of `e` takes the step in both runs, the others only look on
    have hnext (t : τ) : Parallel L st Q owner t (P.next exec e)
        (if owner e.thread = t then (alone t).next exec e else alone t) := by
      split
      · next hown => exact (h t).next_own hU hspawn hstep hes.1 hown
      · next hne =>
        exact (h t).next_other hU hstep (h (owner e.thread)) hes.1 rfl fun h => hne h.symm
    have hrun := ih hnext hes.2 t
    by_cases hown : owner e.thread = t
    · simpa only [run_cons, List.filter_cons, hown, decide_true, if_true] using hrun
    · simpa only [run_cons, List.filter_cons, hown, decide_false, if_false, Bool.false_eq_true]
        using hrun

end Run

end Parallel

end Pool

end RagPlatform.Lib
