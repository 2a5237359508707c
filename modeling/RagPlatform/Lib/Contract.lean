import RagPlatform.Lib.Async

/-! Rely–guarantee reasoning about suspended computations: a weakest precondition over a
contract, its rules, and its soundness for a run alone and for a pool. -/

namespace RagPlatform.Lib

/-- What a thread counts on between its awaits and owes at each of them.  `step` singles out the
steps under consideration, `stop` is what must hold wherever the process may die. -/
structure Contract (S : Signature) (σ ω : Type) where
  inv : σ → Prop
  rely : σ → σ → Prop
  guar : σ → σ → Prop
  step : Log S → ω → S.Req → σ → Prop := fun _ _ _ _ => True
  stop : σ → Prop := fun _ => True
  rely_refl : ∀ s, rely s s
  rely_trans : ∀ {s t u}, rely s t → rely t u → rely s u

variable {S : Signature} {σ ω α β : Type} (exec : Exec S σ ω) (K : Contract S σ ω)

/-- `P` survives whatever the others do. -/
def Contract.Stable (P : σ → Prop) : Prop := ∀ s t, P s → K.rely s t → K.inv t → P t

/-- Started from `s` or any state others may turn it into, `p` keeps the contract and ends in `Q`. -/
def wp (Q : α → σ → Log S → Prop) : Async S α → σ → Log S → Prop
  | .ret a, s, l => ∀ t, K.rely s t → K.inv t → Q a t l
  | .emit _ p, s, l => wp Q p s l
  | .await r k, s, l => ∀ t, K.rely s t → K.inv t → K.stop t ∧ ∀ o, K.step l o r t →
      K.inv (exec o r t).1 ∧ K.guar t (exec o r t).1 ∧
        wp Q (k (exec o r t).2) (exec o r t).1 (l ++ [⟨r, (exec o r t).2⟩])

variable {exec K}
variable {Q Q' : α → σ → Log S → Prop} {p : Async S α} {s t : σ} {l : Log S}

theorem wp_intro (h : ∀ t, K.rely s t → K.inv t → wp exec K Q p t l) : wp exec K Q p s l := by
  induction p with
  | ret a => intro t hst ht; exact h t hst ht t (K.rely_refl t) ht
  | emit y p ih => exact ih h
  | await r k => intro t hst ht; exact h t hst ht t (K.rely_refl t) ht

theorem wp_rely (h : wp exec K Q p s l) (hst : K.rely s t) : wp exec K Q p t l := by
  induction p with
  | ret a => intro u htu; exact h u (K.rely_trans hst htu)
  | emit y p ih => exact ih h
  | await r k => intro u htu; exact h u (K.rely_trans hst htu)

theorem wp_mono (h : wp exec K Q p s l) (hQ : ∀ a t l, K.inv t → Q a t l → Q' a t l) :
    wp exec K Q' p s l := by
  induction p generalizing s l with
  | ret a => intro t hst ht; exact hQ a t l ht (h t hst ht)
  | emit y p ih => exact ih h
  | await r k ih =>
    intro t hst ht
    obtain ⟨hstop, h⟩ := h t hst ht
    refine ⟨hstop, fun o ho => ?_⟩
    obtain ⟨hinv, hguar, h⟩ := h o ho
    exact ⟨hinv, hguar, ih _ h⟩

theorem wp_bind {f : α → Async S β} {Q : β → σ → Log S → Prop}
    (h : wp exec K (fun a t l => wp exec K Q (f a) t l) p s l) :
    wp exec K Q (p.bind f) s l := by
  induction p generalizing s l with
  | ret a => exact wp_intro h
  | emit y p ih => exact ih h
  | await r k ih =>
    intro t hst ht
    obtain ⟨hstop, h⟩ := h t hst ht
    refine ⟨hstop, fun o ho => ?_⟩
    obtain ⟨hinv, hguar, h⟩ := h o ho
    exact ⟨hinv, hguar, ih _ h⟩

theorem wp_of_forall (h : ∀ l o r t, K.inv t → K.step l o r t →
      K.inv (exec o r t).1 ∧ K.guar t (exec o r t).1) (hstop : ∀ t, K.inv t → K.stop t)
    (p : Async S α) (s : σ) (l : Log S) : wp exec K (fun _ _ _ => True) p s l := by
  induction p generalizing s l with
  | ret a => exact fun _ _ _ => trivial
  | emit y p ih => exact ih s l
  | await r k ih =>
    intro t _ ht
    exact ⟨hstop t ht, fun o ho => ⟨(h l o r t ht ho).1, (h l o r t ht ho).2, ih _ _ _⟩⟩

theorem wp_log (h : wp exec K Q p s l) : wp exec K (fun a t l' => Q a t l' ∧ l <+: l') p s l := by
  induction p generalizing s l with
  | ret a => exact fun t hst ht => ⟨h t hst ht, List.prefix_refl l⟩
  | emit y p ih => exact ih h
  | await r k ih =>
    intro t hst ht
    obtain ⟨hstop, h⟩ := h t hst ht
    refine ⟨hstop, fun o ho => ?_⟩
    obtain ⟨hinv, hguar, h⟩ := h o ho
    refine ⟨hinv, hguar, wp_mono (ih _ h) fun a u l' _ hQ => ⟨hQ.1, ?_⟩⟩
    exact (List.prefix_append l _).trans hQ.2

section Fallible

variable {ε : Type} {E : Except ε β → σ → Log S → Prop}

def wpE (exec : Exec S σ ω) (K : Contract S σ ω) (E : Except ε β → σ → Log S → Prop)
    (p : ExceptT ε (Async S) β) (s : σ) (l : Log S) : Prop :=
  wp exec K E p.run s l

/-- What is left of `p >>= f` once `p` has ended. -/
def afterBind (exec : Exec S σ ω) (K : Contract S σ ω) (E : Except ε β → σ → Log S → Prop)
    (f : α → ExceptT ε (Async S) β) : Except ε α → σ → Log S → Prop
  | .ok a => wpE exec K E (f a)
  | .error e => wpE exec K E (throw e)

/-- What is left of `tryCatch p h` once `p` has ended. -/
def afterTry (exec : Exec S σ ω) (K : Contract S σ ω) (E : Except ε β → σ → Log S → Prop)
    (h : ε → ExceptT ε (Async S) β) : Except ε β → σ → Log S → Prop
  | .ok b => wpE exec K E (pure b)
  | .error e => wpE exec K E (h e)

theorem wpE_pure {b : β} (h : ∀ t, K.rely s t → K.inv t → E (.ok b) t l) :
    wpE exec K E (pure b) s l := h

theorem wpE_throw {e : ε} (h : ∀ t, K.rely s t → K.inv t → E (.error e) t l) :
    wpE exec K E (throw e) s l := h

theorem wpE_bind {q : ExceptT ε (Async S) α} {f : α → ExceptT ε (Async S) β}
    (h : wpE exec K (afterBind exec K E f) q s l) : wpE exec K E (q >>= f) s l := by
  refine wp_bind (wp_mono h fun r t l _ hr => ?_)
  cases r with
  | ok a => exact hr
  | error e => exact hr

theorem wpE_tryCatch {q : ExceptT ε (Async S) β} {h : ε → ExceptT ε (Async S) β}
    (hq : wpE exec K (afterTry exec K E h) q s l) : wpE exec K E (tryCatch q h) s l := by
  refine wp_bind (wp_mono hq fun r t l _ hr => ?_)
  cases r with
  | ok a => exact hr
  | error e => exact hr

theorem wpE_mono {E' : Except ε β → σ → Log S → Prop} {q : ExceptT ε (Async S) β}
    (h : wpE exec K E q s l) (hE : ∀ r t l, K.inv t → E r t l → E' r t l) :
    wpE exec K E' q s l := wp_mono h hE

theorem wpE_rely {q : ExceptT ε (Async S) β} (h : wpE exec K E q s l) (hst : K.rely s t) :
    wpE exec K E q t l := wp_rely h hst

/-- From any state `q` keeps the contract, and what it returns satisfies `R`. -/
def Keeps (exec : Exec S σ ω) (K : Contract S σ ω) (R : β → Prop) (q : ExceptT ε (Async S) β) :
    Prop :=
  ∀ s l, wpE exec K (fun r _ _ => ∀ b, r = .ok b → R b) q s l

namespace Keeps

variable {R : α → Prop} {R' : β → Prop}

theorem pure {b : β} (h : R' b) : Keeps exec K R' (pure b : ExceptT ε (Async S) β) :=
  fun _ _ => wpE_pure fun _ _ _ _ hb => Except.ok.inj hb ▸ h

theorem throw (e : ε) : Keeps exec K R' (throw e : ExceptT ε (Async S) β) :=
  fun _ _ => wpE_throw fun _ _ _ _ hb => by cases hb

theorem bind {q : ExceptT ε (Async S) α} {f : α → ExceptT ε (Async S) β}
    (hq : Keeps exec K R q) (hf : ∀ a, R a → Keeps exec K R' (f a)) :
    Keeps exec K R' (q >>= f) := by
  refine fun s l => wpE_bind (wpE_mono (hq s l) fun r t l' _ hr => ?_)
  cases r with
  | ok a => exact hf a (hr a rfl) t l'
  | error e => exact throw e t l'

theorem tryCatch {q : ExceptT ε (Async S) β} {h : ε → ExceptT ε (Async S) β}
    (hq : Keeps exec K R' q) (hh : ∀ e, Keeps exec K R' (h e)) :
    Keeps exec K R' (tryCatch q h) := by
  refine fun s l => wpE_tryCatch (wpE_mono (hq s l) fun r t l' _ hr => ?_)
  cases r with
  | ok b => exact pure (hr b rfl) t l'
  | error e => exact hh e t l'

theorem mono {R'' : β → Prop} {q : ExceptT ε (Async S) β} (h : Keeps exec K R' q)
    (hR : ∀ b, R' b → R'' b) : Keeps exec K R'' q :=
  fun s l => wpE_mono (h s l) fun _ _ _ _ hr b hb => hR b (hr b hb)

theorem of_wpE {q : ExceptT ε (Async S) β} (h : ∀ s l, ∃ E, wpE exec K E q s l) :
    Keeps exec K (fun _ => True) q := by
  intro s l
  obtain ⟨E, hE⟩ := h s l
  exact wpE_mono hE fun _ _ _ _ _ _ _ => trivial

end Keeps

end Fallible

section Run

variable (exec)

def Async.RunObeys (step : Log S → ω → S.Req → σ → Prop) :
    Async S α → Feed σ ω → σ → Log S → Prop
  | .ret _, _, _, _ => True
  | .emit _ p, φ, s, l => p.RunObeys step φ s l
  | .await r k, φ, s, l =>
    match φ 0 with
    | none => True
    | some t =>
      let x := exec t.oracle r (t.others s)
      step l t.oracle r (t.others s) ∧ (k x.2).RunObeys step φ.tail x.1 (l ++ [⟨r, x.2⟩])

instance Async.decidableRunObeys {step : Log S → ω → S.Req → σ → Prop}
    [∀ l o r s, Decidable (step l o r s)] : (p : Async S α) → (φ : Feed σ ω) → (s : σ) →
    (l : Log S) → Decidable (p.RunObeys exec step φ s l)
  | .ret _, _, _, _ => .isTrue trivial
  | .emit _ p, φ, s, l => decidableRunObeys p φ s l
  | .await r k, φ, s, l =>
    match h : φ 0 with
    | none => .isTrue (by simp only [RunObeys, h])
    | some t =>
      let x := exec t.oracle r (t.others s)
      have : Decidable ((k x.2).RunObeys exec step φ.tail x.1 (l ++ [⟨r, x.2⟩])) :=
        decidableRunObeys (k x.2) φ.tail x.1 (l ++ [⟨r, x.2⟩])
      decidable_of_iff (step l t.oracle r (t.others s) ∧
        (k x.2).RunObeys exec step φ.tail x.1 (l ++ [⟨r, x.2⟩])) (by simp only [RunObeys, h, x])

/-- The `n`-th step is taken with a log of `n` entries more. -/
theorem Async.runObeys_of_log {step : Log S → ω → S.Req → σ → Prop} {φ : Feed σ ω} {l : Log S}
    (h : ∀ n t, φ n = some t → ∀ l' r s, l'.length = l.length + n → step l' t.oracle r s)
    (p : Async S α) (s : σ) : p.RunObeys exec step φ s l := by
  induction p generalizing φ s l with
  | ret a => trivial
  | emit y p ih => exact ih h s
  | await r k ih =>
    simp only [RunObeys]
    cases hφ : φ 0 with
    | none => trivial
    | some t =>
      refine ⟨h 0 t hφ l r _ rfl, ih _ (fun n u hu l' r s hl => h (n + 1) u hu l' r s ?_) _⟩
      rw [hl, List.length_append, List.length_singleton, Nat.add_right_comm, Nat.add_assoc]

theorem Async.runObeys_of_forall {step : Log S → ω → S.Req → σ → Prop} {φ : Feed σ ω}
    (h : ∀ n t, φ n = some t → ∀ l r s, step l t.oracle r s) (p : Async S α) (s : σ) (l : Log S) :
    p.RunObeys exec step φ s l :=
  runObeys_of_log exec (fun n t ht l' r s _ => h n t ht l' r s) p s

theorem Async.RunObeys.and {step step' : Log S → ω → S.Req → σ → Prop} {φ : Feed σ ω}
    (h : p.RunObeys exec step φ s l) (h' : p.RunObeys exec step' φ s l) :
    p.RunObeys exec (fun l o r s => step l o r s ∧ step' l o r s) φ s l := by
  induction p generalizing φ s l with
  | ret a => trivial
  | emit y p ih => exact ih h h'
  | await r k ih =>
    simp only [RunObeys] at h h' ⊢
    cases hφ : φ 0 with
    | none => trivial
    | some t =>
      rw [hφ] at h h'
      exact ⟨⟨h.1, h'.1⟩, ih _ h.2 h'.2⟩

/-- The others keep within what the thread relies on. -/
def Feed.Respects (φ : Feed σ ω) (K : Contract S σ ω) : Prop :=
  ∀ n t, φ n = some t → ∀ s, K.inv s → K.rely s (t.others s) ∧ K.inv (t.others s)

theorem Feed.Respects.tail {φ : Feed σ ω} (h : φ.Respects K) : φ.tail.Respects K :=
  fun n => h (n + 1)

variable {exec}

theorem wp_run {φ : Feed σ ω} (h : wp exec K Q p s l) (hs : K.inv s) (hφ : φ.Respects K)
    (ho : p.RunObeys exec K.step φ s l) :
    (∀ s', p.run exec φ s = (s', none) → K.stop s') ∧
      ∀ s' a φ', p.run exec φ s = (s', some (a, φ')) →
        K.inv s' ∧ φ'.Respects K ∧ ∃ l', Q a s' l' := by
  induction p generalizing φ s l with
  | ret a =>
    refine ⟨fun s' hr => (by simp [Async.run] at hr), fun s' b φ' hr => ?_⟩
    simp only [Async.run, Prod.mk.injEq, Option.some.injEq] at hr
    obtain ⟨rfl, rfl, rfl⟩ := hr
    exact ⟨hs, hφ, l, h _ (K.rely_refl _) hs⟩
  | emit y p ih => exact ih h hs hφ ho
  | await r k ih =>
    simp only [Async.run, Async.RunObeys] at ho ⊢
    cases h0 : φ 0 with
    | none =>
      refine ⟨fun s' hr => ?_, fun s' a φ' hr => (by simp at hr)⟩
      simp only [Prod.mk.injEq, and_true] at hr
      exact hr ▸ (h s (K.rely_refl s) hs).1
    | some t =>
      rw [h0] at ho
      obtain ⟨hr, ht⟩ := hφ 0 t h0 s hs
      obtain ⟨hinv, -, h⟩ := (h _ hr ht).2 t.oracle ho.1
      exact ih _ h hinv hφ.tail ho.2

theorem wp_outcome_of_obeys {φ : Feed σ ω} (h : wp exec K Q p s []) (hs : K.inv s)
    (hφ : φ.Respects K) (ho : p.RunObeys exec K.step φ s []) :
    (p.result exec φ s = none → K.stop (p.final exec φ s)) ∧
      ∀ a, p.result exec φ s = some a →
        K.inv (p.final exec φ s) ∧ ∃ l, Q a (p.final exec φ s) l := by
  have hrun := wp_run h hs hφ ho
  unfold Async.final Async.result
  generalize hx : p.run exec φ s = x at *
  obtain ⟨s', y⟩ := x
  cases y with
  | none => exact ⟨fun _ => hrun.1 s' rfl, fun a ha => (by cases ha)⟩
  | some b =>
    refine ⟨fun hn => (by cases hn), fun a ha => ?_⟩
    cases ha
    obtain ⟨hinv, -, hQ⟩ := hrun.2 s' b.1 b.2 rfl
    exact ⟨hinv, hQ⟩

theorem wp_outcome {φ : Feed σ ω} (h : wp exec K Q p s []) (hs : K.inv s) (hφ : φ.Respects K)
    (hstep : φ.Answers fun o => ∀ l r t, K.step l o r t) :
    (p.result exec φ s = none → K.stop (p.final exec φ s)) ∧
      ∀ a, p.result exec φ s = some a →
        K.inv (p.final exec φ s) ∧ ∃ l, Q a (p.final exec φ s) l :=
  wp_outcome_of_obeys h hs hφ (Async.runObeys_of_forall exec hstep p s [])

end Run

namespace Pool

variable {ι : Type}

/-- The invariant holds and every thread keeps the contract from here on. -/
def Good (exec : Exec S σ ω) (K : Contract S σ ω) (Q : α → σ → Log S → Prop)
    (P : Pool S σ ι α) : Prop :=
  K.inv P.state ∧ ∀ i t, P.threads i = some t → wp exec K Q t.code P.state t.log

theorem good_init (h : K.inv s) : (init s : Pool S σ ι α).Good exec K Q :=
  ⟨h, fun _ _ ht => by simp [init] at ht⟩

variable [DecidableEq ι]

theorem Good.set {P : Pool S σ ι α} (h : P.Good exec K Q) (i : ι) (u : Thread S α)
    (hu : wp exec K Q u.code P.state u.log) : (P.set i (some u)).Good exec K Q := by
  refine ⟨h.1, fun j t ht => ?_⟩
  by_cases hj : j = i
  · subst hj
    rw [set_self, Option.some.injEq] at ht
    exact ht ▸ hu
  · exact h.2 j t (by rwa [set_of_ne _ _ hj] at ht)

theorem Good.remove {P : Pool S σ ι α} (h : P.Good exec K Q) (i : ι) :
    (P.set i none).Good exec K Q := by
  refine ⟨h.1, fun j t ht => ?_⟩
  by_cases hj : j = i
  · subst hj; simp at ht
  · exact h.2 j t (by rwa [set_of_ne _ _ hj] at ht)

theorem Good.step {P : Pool S σ ι α} (h : P.Good exec K Q) (hK : ∀ {s t}, K.guar s t → K.rely s t)
    {s' : σ} (hinv : K.inv s') (hguar : K.guar P.state s') (i : ι) (u : Thread S α)
    (hu : wp exec K Q u.code s' u.log) :
    (⟨s', Function.update P.threads i (some u)⟩ : Pool S σ ι α).Good exec K Q := by
  refine Good.set (P := ⟨s', P.threads⟩) ⟨hinv, fun j t ht => ?_⟩ i u hu
  exact wp_rely (h.2 j t ht) (hK hguar)

section Sound

variable {R : Rules S σ ω ι α} (hK : ∀ {s t}, K.guar s t → K.rely s t)
  (hspawn : ∀ i p s, R.spawn i p s → K.inv s → wp exec K Q p s [])
  (hstep : ∀ l o r s, R.step l o r s → K.step l o r s)
include hK hspawn hstep

theorem Good.next {P : Pool S σ ι α} {e : Event S ω ι α} (h : P.Good exec K Q)
    (he : P.Allows R e) : (P.next exec e).Good exec K Q ∧ K.rely P.state (P.next exec e).state := by
  cases e with
  | kill i => exact ⟨h.remove i, K.rely_refl _⟩
  | spawn i p =>
    cases hi : P.threads i with
    | none =>
      simp only [Pool.next, hi]
      exact ⟨h.set i _ (hspawn i p _ he h.1), K.rely_refl _⟩
    | some t => simp only [Pool.next, hi]; exact ⟨h, K.rely_refl _⟩
  | step i o =>
    cases hi : P.threads i with
    | none => simp only [Pool.next, hi]; exact ⟨h, K.rely_refl _⟩
    | some t =>
      obtain ⟨l, out, code⟩ := t
      have ht := h.2 i _ hi
      cases code with
      | ret a => simp only [Pool.next, hi]; exact ⟨h, K.rely_refl _⟩
      | emit y p => simp only [Pool.next, hi]; exact ⟨h.set i _ ht, K.rely_refl _⟩
      | await r k =>
        simp only [Allows, hi] at he
        obtain ⟨hinv, hguar, hwp⟩ := (ht _ (K.rely_refl _) h.1).2 o (hstep l o r _ he)
        simp only [Pool.next, hi]
        exact ⟨h.step hK hinv hguar i _ hwp, hK hguar⟩

theorem Good.run {P : Pool S σ ι α} {es : List (Event S ω ι α)} (h : P.Good exec K Q)
    (hes : P.Obeys exec R es) :
    (P.run exec es).Good exec K Q ∧ K.rely P.state (P.run exec es).state := by
  induction es generalizing P with
  | nil => exact ⟨h, K.rely_refl _⟩
  | cons e es ih =>
    obtain ⟨h', hr⟩ := h.next hK hspawn hstep hes.1
    obtain ⟨h'', hr'⟩ := ih h' hes.2
    exact ⟨h'', K.rely_trans hr hr'⟩

end Sound

end Pool

end RagPlatform.Lib
