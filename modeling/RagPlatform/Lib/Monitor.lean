import RagPlatform.Lib.Async

/-! State behind a lock that is also read without it. -/

namespace RagPlatform.Lib

/-- `lock r` says whether `r` acquires the lock or releases it; `tidy` holds while it is free, and
`keeps` is what a step may do to the others. -/
structure Monitor (S : Signature) (σ : Type) where
  lock : S.Req → Option Bool
  locked : σ → Bool
  tidy : σ → Prop
  keeps : σ → σ → Prop
  keeps_refl : ∀ s, keeps s s
  keeps_trans : ∀ {s t u}, keeps s t → keeps t u → keeps s u

variable {S : Signature} {σ ω ι α β : Type}

/-- The answer to a request of the lock: it is taken and given back. -/
structure Monitor.Serves (exec : Exec S σ ω) (M : Monitor S σ) : Prop where
  acquire : ∀ o r s, M.lock r = some true → M.tidy s → M.locked (exec o r s).1 = true ∧
    M.tidy (exec o r s).1 ∧ M.keeps s (exec o r s).1
  release : ∀ o r s, M.lock r = some false → M.tidy s → M.locked (exec o r s).1 = false ∧
    M.tidy (exec o r s).1 ∧ M.keeps s (exec o r s).1
  other : ∀ o r s, M.lock r = none → M.locked (exec o r s).1 = M.locked s

namespace Monitor

variable (M : Monitor S σ)

def after (held : Bool) (r : S.Req) : Bool := (M.lock r).getD held

/-- What a thread may find that has left `s`: with the lock, nobody else has done anything. -/
def Finds (held : Bool) (s t : σ) : Prop := if held then t = s else M.keeps s t

/-- What a thread may do on its own: without the lock, nothing. -/
def Does (held : Bool) (s t : σ) : Prop := if held then M.keeps s t else t = s

theorem finds_refl (held : Bool) (s : σ) : M.Finds held s s := by
  cases held with
  | true => exact (rfl : s = s)
  | false => exact M.keeps_refl s

end Monitor

variable (exec : Exec S σ ω) (M : Monitor S σ)

/-- `p` keeps to the monitor: it reads without the lock, writes with it, and gives it back tidy.  It
ends in `Q`. -/
def Async.Behaves (Q : Bool → α → σ → Prop) : Bool → Async S α → σ → Prop
  | held, .ret a, s => ∀ t, M.Finds held s t → Q held a t
  | held, .emit _ p, s => p.Behaves Q held s
  | held, .await r k, s => M.lock r ≠ some held ∧ (M.lock r = some false → M.tidy s) ∧
      ∀ t, M.Finds held s t → (M.lock r = some true → M.tidy t) → ∀ o,
        (M.lock r = none → M.Does held t (exec o r t).1) ∧
        (k (exec o r t).2).Behaves Q (M.after held r) (exec o r t).1

namespace Async

variable {exec M}
variable {Q Q' : Bool → α → σ → Prop} {p : Async S α} {held : Bool} {s t : σ}

theorem Behaves.mono (h : p.Behaves exec M Q held s) (hQ : ∀ held a t, Q held a t → Q' held a t) :
    p.Behaves exec M Q' held s := by
  induction p generalizing held s with
  | ret a => exact fun t ht => hQ held a t (h t ht)
  | emit y p ih => exact ih h
  | await r k ih =>
    refine ⟨h.1, h.2.1, fun t ht htidy o => ?_⟩
    obtain ⟨hdoes, hk⟩ := h.2.2 t ht htidy o
    exact ⟨hdoes, ih _ hk⟩

theorem Behaves.bind {Q : Bool → β → σ → Prop} {f : α → Async S β}
    (h : p.Behaves exec M (fun held a t => (f a).Behaves exec M Q held t) held s) :
    (p.bind f).Behaves exec M Q held s := by
  induction p generalizing held s with
  | ret a => exact h s (M.finds_refl held s)
  | emit y p ih => exact ih h
  | await r k ih =>
    refine ⟨h.1, h.2.1, fun t ht htidy o => ?_⟩
    obtain ⟨hdoes, hk⟩ := h.2.2 t ht htidy o
    exact ⟨hdoes, ih _ hk⟩

theorem Behaves.keeps (h : p.Behaves exec M Q false s) (hst : M.keeps s t) :
    p.Behaves exec M Q false t := by
  induction p with
  | ret a => exact fun u hu => h u (M.keeps_trans hst hu)
  | emit y p ih => exact ih h
  | await r k =>
    exact ⟨h.1, fun hr => absurd hr h.1, fun u hu => h.2.2 u (M.keeps_trans hst hu)⟩

end Async

section Fallible

variable {ε : Type}

def BehavesE (Q : Bool → Except ε α → σ → Prop) (held : Bool) (q : ExceptT ε (Async S) α) (s : σ) :
    Prop := q.run.Behaves exec M Q held s

/-- What is left of `q >>= f` once `q` has ended. -/
def behavesBind (Q : Bool → Except ε β → σ → Prop) (f : α → ExceptT ε (Async S) β) (held : Bool) :
    Except ε α → σ → Prop
  | .ok a, s => BehavesE exec M Q held (f a) s
  | .error e, s => BehavesE exec M Q held (throw e) s

variable {exec M}
variable {held : Bool} {s : σ}

namespace BehavesE

theorem pure {Q : Bool → Except ε α → σ → Prop} {a : α}
    (h : ∀ t, M.Finds held s t → Q held (.ok a) t) : BehavesE exec M Q held (Pure.pure a) s := h

theorem throw {Q : Bool → Except ε α → σ → Prop} {e : ε}
    (h : ∀ t, M.Finds held s t → Q held (.error e) t) :
    BehavesE exec M Q held (MonadExcept.throw e) s := h

theorem bind {Q : Bool → Except ε β → σ → Prop} {q : ExceptT ε (Async S) α}
    {f : α → ExceptT ε (Async S) β} (h : BehavesE exec M (behavesBind exec M Q f) held q s) :
    BehavesE exec M Q held (q >>= f) s := by
  refine Async.Behaves.bind (Async.Behaves.mono h fun held r t hr => ?_)
  cases r with
  | ok a => exact hr
  | error e => exact hr

theorem lift {Q : Bool → Except ε α → σ → Prop} {p : Async S α}
    (h : p.Behaves exec M (fun held a t => ∀ u, M.Finds held t u → Q held (.ok a) u) held s) :
    BehavesE exec M Q held (ExceptT.lift p) s :=
  Async.Behaves.bind h

end BehavesE

end Fallible

namespace Pool

/-- The lock is free and the state tidy, or exactly one thread holds it. -/
structure Orderly (Q : Bool → α → σ → Prop) (P : Pool S σ ι α) : Prop where
  free : M.locked P.state = false → M.tidy P.state ∧
    ∀ i t, P.threads i = some t → t.code.Behaves exec M Q false P.state
  held : M.locked P.state = true → ∃ i t, P.threads i = some t ∧
    t.code.Behaves exec M Q true P.state ∧
    ∀ j u, j ≠ i → P.threads j = some u → u.code.Behaves exec M Q false P.state

variable {exec M}
variable {Q : Bool → α → σ → Prop} {P : Pool S σ ι α}

theorem orderly_init {s : σ} (hlocked : M.locked s = false) (htidy : M.tidy s) :
    (init s : Pool S σ ι α).Orderly exec M Q where
  free _ := ⟨htidy, nofun⟩
  held h := by
    rw [show M.locked (init s : Pool S σ ι α).state = false from hlocked] at h
    cases h

theorem Orderly.ret (h : P.Orderly exec M Q) {i : ι} {t : Thread S α} {a : α}
    (ht : P.threads i = some t) (hcode : t.code = .ret a) : ∃ held, Q held a P.state := by
  have hbehaves : ∃ held, t.code.Behaves exec M Q held P.state := by
    cases hlocked : M.locked P.state with
    | false => exact ⟨false, (h.free hlocked).2 i t ht⟩
    | true =>
      obtain ⟨j, u, hu, hj, hothers⟩ := h.held hlocked
      by_cases hij : i = j
      · subst hij
        obtain rfl := Option.some.inj (ht.symm.trans hu)
        exact ⟨true, hj⟩
      · exact ⟨false, hothers i t hij ht⟩
  obtain ⟨held, hbehaves⟩ := hbehaves
  rw [hcode] at hbehaves
  exact ⟨held, hbehaves P.state (M.finds_refl held _)⟩

variable [DecidableEq ι]

theorem threads_update {s : σ} {i j : ι} {t u : Thread S α}
    (h : (⟨s, Function.update P.threads i (some u)⟩ : Pool S σ ι α).threads j = some t) :
    (j = i ∧ t = u) ∨ (j ≠ i ∧ P.threads j = some t) := by
  change Function.update P.threads i (some u) j = some t at h
  by_cases hji : j = i
  · subst hji
    rw [Function.update_self] at h
    exact .inl ⟨rfl, (Option.some.inj h).symm⟩
  · rw [Function.update_of_ne hji] at h
    exact .inr ⟨hji, h⟩

theorem orderly_free {s : σ} {i : ι} {u : Thread S α} (htidy : M.tidy s)
    (hlocked : M.locked s = false) (hothers : ∀ j t, j ≠ i → P.threads j = some t →
      t.code.Behaves exec M Q false s) (hu : u.code.Behaves exec M Q false s) :
    (⟨s, Function.update P.threads i (some u)⟩ : Pool S σ ι α).Orderly exec M Q where
  free _ := by
    refine ⟨htidy, fun j t ht => ?_⟩
    rcases threads_update ht with ⟨-, rfl⟩ | ⟨hji, ht⟩
    · exact hu
    · exact hothers j t hji ht
  held h := by
    rw [show M.locked s = false from hlocked] at h
    cases h

theorem orderly_held {s : σ} {i : ι} {u : Thread S α} (hlocked : M.locked s = true)
    (hothers : ∀ j t, j ≠ i → P.threads j = some t → t.code.Behaves exec M Q false s)
    (hu : u.code.Behaves exec M Q true s) :
    (⟨s, Function.update P.threads i (some u)⟩ : Pool S σ ι α).Orderly exec M Q where
  free h := by
    rw [show M.locked s = true from hlocked] at h
    cases h
  held _ := by
    refine ⟨i, u, Function.update_self i (some u) P.threads, hu, fun j t hji ht => ?_⟩
    rcases threads_update ht with ⟨rfl, -⟩ | ⟨-, ht⟩
    · exact absurd rfl hji
    · exact hothers j t hji ht

theorem orderly_other {i j : ι} {t u : Thread S α} (hlocked : M.locked P.state = true)
    (hij : j ≠ i) (ht : P.threads i = some t) (hi : t.code.Behaves exec M Q true P.state)
    (hothers : ∀ k v, k ≠ i → P.threads k = some v → v.code.Behaves exec M Q false P.state)
    (hu : u.code.Behaves exec M Q false P.state) :
    (⟨P.state, Function.update P.threads j (some u)⟩ : Pool S σ ι α).Orderly exec M Q where
  free h := by
    rw [show M.locked P.state = true from hlocked] at h
    cases h
  held _ := by
    refine ⟨i, t, (Function.update_of_ne hij.symm (some u) P.threads).trans ht, hi,
      fun k v hk hv => ?_⟩
    rcases threads_update hv with ⟨-, rfl⟩ | ⟨-, hv⟩
    · exact hu
    · exact hothers k v hk hv

theorem Orderly.await (hM : M.Serves exec) (h : P.Orderly exec M Q) {i : ι} {t : Thread S α}
    {r : S.Req} {k : S.Resp r → Async S α} (ht : P.threads i = some t) (hcode : t.code = .await r k)
    (hstep : M.lock r = some true → M.locked P.state = false) (o : ω) {l : Log S}
    {out : List S.Out} :
    (⟨(exec o r P.state).1, Function.update P.threads i
      (some ⟨l, out, k (exec o r P.state).2⟩)⟩ : Pool S σ ι α).Orderly exec M Q ∧
      M.keeps P.state (exec o r P.state).1 := by
  cases hlocked : M.locked P.state with
  | false =>
    obtain ⟨htidy, hfree⟩ := h.free hlocked
    have hi := hfree i t ht
    rw [hcode] at hi
    obtain ⟨hneeds, -, hi⟩ := hi
    obtain ⟨hdoes, hi⟩ := hi P.state (M.keeps_refl _) (fun _ => htidy) o
    cases hr : M.lock r with
    | none =>
      have hsame : (exec o r P.state).1 = P.state := hdoes hr
      rw [Monitor.after, hr, Option.getD_none, hsame] at hi
      rw [hsame]
      exact ⟨orderly_free htidy hlocked (fun j u _ hu => hfree j u hu) hi, M.keeps_refl _⟩
    | some b =>
      cases b with
      | false => exact absurd hr hneeds
      | true =>
        obtain ⟨hlocked', -, hkeeps⟩ := hM.acquire o r P.state hr htidy
        rw [Monitor.after, hr, Option.getD_some] at hi
        exact ⟨orderly_held hlocked' (fun j u _ hu => (hfree j u hu).keeps hkeeps) hi, hkeeps⟩
  | true =>
    obtain ⟨j, u, hu, hj, hothers⟩ := h.held hlocked
    by_cases hij : i = j
    · subst hij
      obtain rfl := Option.some.inj (ht.symm.trans hu)
      rw [hcode] at hj
      obtain ⟨hneeds, htidy, hj⟩ := hj
      obtain ⟨hdoes, hi⟩ := hj P.state rfl (fun hr => absurd hr hneeds) o
      cases hr : M.lock r with
      | none =>
        rw [Monitor.after, hr, Option.getD_none] at hi
        have hkeeps : M.keeps P.state (exec o r P.state).1 := hdoes hr
        exact ⟨orderly_held ((hM.other o r _ hr).trans hlocked)
          (fun k v hk hv => (hothers k v hk hv).keeps hkeeps) hi, hkeeps⟩
      | some b =>
        cases b with
        | true => exact absurd hr hneeds
        | false =>
          obtain ⟨hlocked', htidy', hkeeps⟩ := hM.release o r P.state hr (htidy hr)
          rw [Monitor.after, hr, Option.getD_some] at hi
          exact ⟨orderly_free htidy' hlocked'
            (fun k v hk hv => (hothers k v hk hv).keeps hkeeps) hi, hkeeps⟩
    · have hi := hothers i t hij ht
      rw [hcode] at hi
      obtain ⟨hneeds, -, hi⟩ := hi
      have hacquire : M.lock r ≠ some true := fun hr => by
        rw [hstep hr] at hlocked
        cases hlocked
      have hr : M.lock r = none := by
        cases hr : M.lock r with
        | none => rfl
        | some b =>
          cases b with
          | true => exact absurd hr hacquire
          | false => exact absurd hr hneeds
      obtain ⟨hdoes, hi⟩ := hi P.state (M.keeps_refl _) (fun hr => absurd hr hacquire) o
      have hsame : (exec o r P.state).1 = P.state := hdoes hr
      rw [Monitor.after, hr, Option.getD_none, hsame] at hi
      rw [hsame]
      exact ⟨orderly_other hlocked hij hu hj hothers hi, M.keeps_refl _⟩

theorem Orderly.put (h : P.Orderly exec M Q) {i : ι} {u : Thread S α}
    (hfree : (∀ t, P.threads i = some t → t.code.Behaves exec M Q false P.state) →
      u.code.Behaves exec M Q false P.state)
    (hheld : ∀ t, P.threads i = some t → t.code.Behaves exec M Q true P.state →
      u.code.Behaves exec M Q true P.state) :
    (P.set i (some u)).Orderly exec M Q := by
  cases hlocked : M.locked P.state with
  | false =>
    obtain ⟨htidy, hall⟩ := h.free hlocked
    exact orderly_free htidy hlocked (fun j v _ hv => hall j v hv) (hfree (hall i))
  | true =>
    obtain ⟨j, v, hv, hj, hothers⟩ := h.held hlocked
    by_cases hij : i = j
    · subst hij
      exact orderly_held hlocked hothers (hheld v hv hj)
    · exact orderly_other hlocked hij hv hj hothers (hfree fun t ht => hothers i t hij ht)

def Alive (es : List (Event S ω ι α)) : Prop := ∀ i, Event.kill i ∉ es

section Sound

variable {R : Rules S σ ω ι α} (hM : M.Serves exec)
  (hspawn : ∀ i p s, R.spawn i p s → p.Behaves exec M Q false s)
  (hstep : ∀ l o r s, R.step l o r s → M.lock r = some true → M.locked s = false)
include hM hspawn hstep

theorem Orderly.next (h : P.Orderly exec M Q) {e : Event S ω ι α} (he : P.Allows R e)
    (halive : ∀ i, e ≠ .kill i) :
    (P.next exec e).Orderly exec M Q ∧ M.keeps P.state (P.next exec e).state := by
  cases e with
  | kill i => exact absurd rfl (halive i)
  | spawn i p =>
    cases hi : P.threads i with
    | some t =>
      simp only [Pool.next, hi]
      exact ⟨h, M.keeps_refl _⟩
    | none =>
      simp only [Pool.next, hi]
      exact ⟨h.put (fun _ => hspawn i p _ he) (fun t ht => by rw [hi] at ht; cases ht),
        M.keeps_refl _⟩
  | step i o =>
    cases hi : P.threads i with
    | none =>
      simp only [Pool.next, hi]
      exact ⟨h, M.keeps_refl _⟩
    | some t =>
      obtain ⟨l, out, code⟩ := t
      cases code with
      | ret a =>
        simp only [Pool.next, hi]
        exact ⟨h, M.keeps_refl _⟩
      | emit y p =>
        simp only [Pool.next, hi]
        refine ⟨h.put (fun hfree => (hfree _ hi : (Async.emit y p).Behaves exec M Q false _))
          fun t ht hheld => ?_, M.keeps_refl _⟩
        obtain rfl := Option.some.inj (hi.symm.trans ht)
        exact hheld
      | await r k =>
        simp only [Allows, hi] at he
        simp only [Pool.next, hi]
        exact h.await hM hi rfl (hstep _ _ _ _ he) o

theorem Orderly.run {es : List (Event S ω ι α)} (h : P.Orderly exec M Q) (hes : P.Obeys exec R es)
    (halive : Alive es) :
    (P.run exec es).Orderly exec M Q ∧ M.keeps P.state (P.run exec es).state := by
  induction es generalizing P with
  | nil => exact ⟨h, M.keeps_refl _⟩
  | cons e es ih =>
    obtain ⟨h', hkeeps⟩ := h.next hM hspawn hstep hes.1 fun i hi => halive i (hi ▸ .head _)
    obtain ⟨h'', hkeeps'⟩ := ih h' hes.2 fun i hi => halive i (.tail _ hi)
    exact ⟨h'', M.keeps_trans hkeeps hkeeps'⟩

end Sound

end Pool

end RagPlatform.Lib
