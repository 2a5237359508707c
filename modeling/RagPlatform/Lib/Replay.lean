import Mathlib.Data.List.Induction
import RagPlatform.Lib.Contract

/-! What a log says about the computation it was kept for, and about the run it was kept in. -/

namespace RagPlatform.Lib

variable {S : Signature} {σ ω ι α β ε : Type}

/-- With the answers of the log, `p` gets as far as `q`. -/
inductive Async.Replays : Async S α → Log S → Async S α → Prop
  | refl (p : Async S α) : Replays p [] p
  | emit {y : S.Out} {p q : Async S α} {l : Log S} : Replays p l q → Replays (.emit y p) l q
  | await {r : S.Req} {k : S.Resp r → Async S α} {x : S.Resp r} {q : Async S α} {l : Log S} :
    Replays (k x) l q → Replays (.await r k) (⟨r, x⟩ :: l) q

namespace Async.Replays

variable {p q : Async S α} {l : Log S} {a : α}

theorem ret (h : Replays (.ret a) l q) : l = [] ∧ q = .ret a := by
  cases h
  exact ⟨rfl, rfl⟩

theorem await_inv {r : S.Req} {k : S.Resp r → Async S α} (h : Replays (.await r k) l q) :
    (l = [] ∧ q = .await r k) ∨ ∃ x l', l = ⟨r, x⟩ :: l' ∧ Replays (k x) l' q := by
  cases h with
  | refl => exact .inl ⟨rfl, rfl⟩
  | await h => exact .inr ⟨_, _, rfl, h⟩

theorem trans {q' : Async S α} {l' : Log S} (h : Replays p l q) (h' : Replays q l' q') :
    Replays p (l ++ l') q' := by
  induction h with
  | refl => exact h'
  | emit _ ih => exact .emit (ih h')
  | await _ ih => exact .await (ih h')

theorem returns {r : S.Req} {k : S.Resp r → Async S α} (h : Replays (.await r k) l (.ret a)) :
    ∃ x l', l = ⟨r, x⟩ :: l' ∧ Replays (k x) l' (.ret a) :=
  h.await_inv.resolve_left fun h => by cases h.2

end Async.Replays

/-- With some answers `p` gets as far as asking for `r`. -/
def Async.Asks (p : Async S α) (r : S.Req) : Prop := ∃ l k, p.Replays l (.await r k)

theorem Async.Replays.bind {p q : Async S α} {l : Log S} (h : p.Replays l q)
    (f : α → Async S β) : (p.bind f).Replays l (q.bind f) := by
  induction h with
  | refl => exact .refl _
  | emit _ ih => exact .emit ih
  | await _ ih => exact .await ih

theorem Async.Asks.of_replays {p q : Async S α} {l : Log S} {r : S.Req} (h : p.Replays l q)
    (hq : q.Asks r) : p.Asks r := by
  obtain ⟨l', k, hk⟩ := hq
  exact ⟨l ++ l', k, h.trans hk⟩

theorem asks_bind {q : ExceptT ε (Async S) α} {f : α → ExceptT ε (Async S) β} {a : α} {l : Log S}
    {r : S.Req} (h : q.run.Replays l (.ret (.ok a))) (hf : (f a).run.Asks r) :
    (q >>= f).run.Asks r :=
  .of_replays (Async.Replays.bind h _) hf

/-- `p` asks for nothing outside `P`, whatever it is answered. -/
def Async.Only (P : S.Req → Prop) : Async S α → Prop
  | .ret _ => True
  | .emit _ p => p.Only P
  | .await r k => P r ∧ ∀ x, (k x).Only P

theorem Async.Only.asks {P : S.Req → Prop} {p : Async S α} (h : p.Only P) {r : S.Req}
    (hr : p.Asks r) : P r := by
  obtain ⟨l, k, hreplays⟩ := hr
  generalize hq : Async.await r k = q at hreplays
  induction hreplays with
  | refl =>
    subst hq
    exact h.1
  | emit _ ih => exact ih h hq
  | await _ ih => exact ih (h.2 _) hq

theorem Async.Only.bind {P : S.Req → Prop} {p : Async S α} {f : α → Async S β} (h : p.Only P)
    (hf : ∀ a, (f a).Only P) : (p.bind f).Only P := by
  induction p with
  | ret a => exact hf a
  | emit y p ih => exact ih h
  | await r k ih => exact ⟨h.1, fun x => ih x (h.2 x)⟩

theorem Async.Only.mono {P P' : S.Req → Prop} {p : Async S α} (h : p.Only P)
    (hP : ∀ r, P r → P' r) : p.Only P' := by
  induction p with
  | ret a => trivial
  | emit y p ih => exact ih h
  | await r k ih => exact ⟨hP r h.1, fun x => ih x (h.2 x)⟩

theorem Async.Only.wp {exec : Exec S σ ω} {K : Contract S σ ω} {P : S.Req → Prop} {p : Async S α}
    (hp : p.Only P) (h : ∀ l o r t, P r → K.inv t → K.step l o r t →
      K.inv (exec o r t).1 ∧ K.guar t (exec o r t).1) (hstop : ∀ t, K.inv t → K.stop t)
    (s : σ) (l : Log S) : wp exec K (fun _ _ _ => True) p s l := by
  induction p generalizing s l with
  | ret a => exact fun _ _ _ => trivial
  | emit y p ih => exact ih hp s l
  | await r k ih =>
    intro t _ ht
    refine ⟨hstop t ht, fun o ho => ?_⟩
    obtain ⟨hinv, hguar⟩ := h l o r t hp.1 ht ho
    exact ⟨hinv, hguar, ih _ (hp.2 _) _ _⟩

def OnlyE (P : S.Req → Prop) (q : ExceptT ε (Async S) α) : Prop := q.run.Only P

namespace OnlyE

variable {P : S.Req → Prop} {q : ExceptT ε (Async S) α}

theorem pure (a : α) : OnlyE P (Pure.pure a : ExceptT ε (Async S) α) := trivial

theorem throw (e : ε) : OnlyE P (MonadExcept.throw e : ExceptT ε (Async S) α) := trivial

theorem bind {f : α → ExceptT ε (Async S) β} (h : OnlyE P q) (hf : ∀ a, OnlyE P (f a)) :
    OnlyE P (q >>= f) :=
  Async.Only.bind h fun
    | .ok a => hf a
    | .error _ => trivial

theorem tryCatch {f : ε → ExceptT ε (Async S) α} (h : OnlyE P q) (hf : ∀ e, OnlyE P (f e)) :
    OnlyE P (MonadExcept.tryCatch q f) :=
  Async.Only.bind h fun
    | .ok _ => trivial
    | .error e => hf e

end OnlyE

theorem Async.Only.log {P : S.Req → Prop} {p q : Async S α} {l : Log S} (h : p.Only P)
    (hl : p.Replays l q) : ∀ e ∈ l, P e.1 := by
  induction hl with
  | refl => simp
  | emit _ ih => exact ih h
  | await _ ih => exact List.forall_mem_cons.mpr ⟨h.1, ih (h.2 _)⟩

/-- `p` asks at most `n` times for what `P` describes. -/
def Async.AtMost (P : S.Req → Bool) : Nat → Async S α → Prop
  | _, .ret _ => True
  | n, .emit _ p => p.AtMost P n
  | n, .await r k =>
    if P r then ∃ m, n = m + 1 ∧ ∀ x, (k x).AtMost P m else ∀ x, (k x).AtMost P n

namespace Async.AtMost

variable {P : S.Req → Bool} {p q : Async S α} {m n : Nat}

theorem mono (h : p.AtMost P m) (hmn : m ≤ n) : p.AtMost P n := by
  induction p generalizing m n with
  | ret a => trivial
  | emit y p ih => exact ih h hmn
  | await r k ih =>
    unfold AtMost at h ⊢
    split
    · next hr =>
      rw [if_pos hr] at h
      obtain ⟨m', rfl, hk⟩ := h
      obtain ⟨n', rfl⟩ : ∃ n', n = n' + 1 := ⟨n - 1, by omega⟩
      exact ⟨n', rfl, fun x => ih x (hk x) (by omega)⟩
    · next hr =>
      rw [if_neg hr] at h
      exact fun x => ih x (h x) hmn

theorem bind {f : α → Async S β} (h : p.AtMost P m) (hf : ∀ a, (f a).AtMost P n) :
    (p.bind f).AtMost P (m + n) := by
  induction p generalizing m with
  | ret a => exact (hf a).mono (Nat.le_add_left n m)
  | emit y p ih => exact ih h
  | await r k ih =>
    unfold AtMost at h
    unfold Async.bind AtMost
    split
    · next hr =>
      rw [if_pos hr] at h
      obtain ⟨m', rfl, hk⟩ := h
      exact ⟨m' + n, by omega, fun x => ih x (hk x)⟩
    · next hr =>
      rw [if_neg hr] at h
      exact fun x => ih x (h x)

theorem of_only (h : p.Only fun r => P r = false) : p.AtMost P 0 := by
  induction p with
  | ret a => trivial
  | emit y p ih => exact ih h
  | await r k ih =>
    unfold AtMost
    rw [if_neg (by simp [h.1])]
    exact fun x => ih x (h.2 x)

theorem log {l : Log S} (h : p.AtMost P n) (hl : p.Replays l q) :
    l.countP (fun e => P e.1) ≤ n := by
  induction hl generalizing n with
  | refl => exact Nat.zero_le n
  | emit _ ih => exact ih h
  | @await r k x l q _ ih =>
    unfold AtMost at h
    rw [List.countP_cons]
    split at h
    · next hr =>
      obtain ⟨m, rfl, hk⟩ := h
      rw [if_pos hr]
      exact Nat.add_le_add_right (ih (hk x)) 1
    · next hr =>
      rw [if_neg hr]
      exact ih (h x)

end Async.AtMost

def AtMostE (P : S.Req → Bool) (n : Nat) (q : ExceptT ε (Async S) α) : Prop := q.run.AtMost P n

namespace AtMostE

variable {P : S.Req → Bool} {q : ExceptT ε (Async S) α} {f : α → ExceptT ε (Async S) β} {m n : Nat}

theorem pure (a : α) : AtMostE P n (Pure.pure a : ExceptT ε (Async S) α) := trivial

theorem bind (h : AtMostE P m q) (hf : ∀ a, AtMostE P n (f a)) : AtMostE P (m + n) (q >>= f) :=
  Async.AtMost.bind h fun
    | .ok a => hf a
    | .error _ => trivial

theorem bind_only (h : OnlyE (fun r => P r = false) q) (hf : ∀ a, AtMostE P n (f a)) :
    AtMostE P n (q >>= f) :=
  Nat.zero_add n ▸ bind (Async.AtMost.of_only h) hf

end AtMostE

/-- With the answers of the log, the computation ends with `b`. -/
def Done (q : ExceptT ε (Async S) α) (l : Log S) (b : Except ε α) : Prop :=
  q.run.Replays l (.ret b)

section Done

variable {l : Log S}

theorem Async.Replays.bind_inv {p : Async S α} {f : α → Async S β} {b : β}
    (h : (p.bind f).Replays l (.ret b)) :
    ∃ l₁ l₂ a, l = l₁ ++ l₂ ∧ p.Replays l₁ (.ret a) ∧ (f a).Replays l₂ (.ret b) := by
  induction p generalizing l with
  | ret a => exact ⟨[], l, a, rfl, .refl _, h⟩
  | emit y p ih =>
    cases h with
    | emit h =>
      obtain ⟨l₁, l₂, a, rfl, h₁, h₂⟩ := ih h
      exact ⟨l₁, l₂, a, rfl, .emit h₁, h₂⟩
  | await r k ih =>
    obtain ⟨x, l', rfl, hk⟩ := h.returns
    obtain ⟨l₁, l₂, a, rfl, h₁, h₂⟩ := ih x hk
    exact ⟨⟨r, x⟩ :: l₁, l₂, a, rfl, .await h₁, h₂⟩

theorem done_pure {a : α} {b : Except ε α} :
    Done (pure a : ExceptT ε (Async S) α) l b ↔ l = [] ∧ b = .ok a := by
  constructor
  · intro h
    obtain ⟨rfl, hb⟩ := Async.Replays.ret h
    exact ⟨rfl, Async.ret.inj hb⟩
  · rintro ⟨rfl, rfl⟩
    exact .refl _

theorem done_throw {e : ε} {b : Except ε α} :
    Done (throw e : ExceptT ε (Async S) α) l b ↔ l = [] ∧ b = .error e := by
  constructor
  · intro h
    obtain ⟨rfl, hb⟩ := Async.Replays.ret h
    exact ⟨rfl, Async.ret.inj hb⟩
  · rintro ⟨rfl, rfl⟩
    exact .refl _

theorem done_bind {q : ExceptT ε (Async S) α} {f : α → ExceptT ε (Async S) β} {b : Except ε β} :
    Done (q >>= f) l b ↔
      (∃ l₁ l₂ a, l = l₁ ++ l₂ ∧ Done q l₁ (.ok a) ∧ Done (f a) l₂ b) ∨
        ∃ e, Done q l (.error e) ∧ b = .error e := by
  constructor
  · intro h
    obtain ⟨l₁, l₂, e | a, rfl, h₁, h₂⟩ := Async.Replays.bind_inv h
    · obtain ⟨rfl, hb⟩ := Async.Replays.ret h₂
      exact .inr ⟨e, by rwa [List.append_nil], Async.ret.inj hb⟩
    · exact .inl ⟨l₁, l₂, a, rfl, h₁, h₂⟩
  · rintro (⟨l₁, l₂, a, rfl, h₁, h₂⟩ | ⟨e, he, rfl⟩)
    · exact (Async.Replays.bind h₁ _).trans h₂
    · exact List.append_nil l ▸ (Async.Replays.bind he _).trans (.refl _)

theorem done_bind_ok {q : ExceptT ε (Async S) α} {f : α → ExceptT ε (Async S) β} {b : β} :
    Done (q >>= f) l (.ok b) ↔ ∃ l₁ l₂ a, l = l₁ ++ l₂ ∧ Done q l₁ (.ok a) ∧ Done (f a) l₂ (.ok b) := by
  rw [done_bind]
  refine ⟨fun h => h.resolve_right ?_, .inl⟩
  rintro ⟨e, -, he⟩
  cases he

theorem done_map {q : ExceptT ε (Async S) α} {g : α → β} {b : Except ε β} :
    Done (g <$> q) l b ↔ ∃ c, Done q l c ∧ b = c.map g := by
  constructor
  · intro h
    obtain ⟨l₁, l₂, e | a, rfl, h₁, h₂⟩ := Async.Replays.bind_inv h
    · obtain ⟨rfl, hb⟩ := Async.Replays.ret h₂
      exact ⟨.error e, by rwa [List.append_nil], Async.ret.inj hb⟩
    · obtain ⟨rfl, hb⟩ := Async.Replays.ret h₂
      exact ⟨.ok a, by rwa [List.append_nil], Async.ret.inj hb⟩
  · rintro ⟨e | a, hc, rfl⟩
    · exact List.append_nil l ▸ (Async.Replays.bind hc _).trans (.refl _)
    · exact List.append_nil l ▸ (Async.Replays.bind hc _).trans (.refl _)

theorem done_tryCatch {q : ExceptT ε (Async S) α} {f : ε → ExceptT ε (Async S) α}
    {b : Except ε α} :
    Done (tryCatch q f) l b ↔
      (∃ a, Done q l (.ok a) ∧ b = .ok a) ∨
        ∃ l₁ l₂ e, l = l₁ ++ l₂ ∧ Done q l₁ (.error e) ∧ Done (f e) l₂ b := by
  constructor
  · intro h
    obtain ⟨l₁, l₂, e | a, rfl, h₁, h₂⟩ := Async.Replays.bind_inv h
    · exact .inr ⟨l₁, l₂, e, rfl, h₁, h₂⟩
    · obtain ⟨rfl, hb⟩ := Async.Replays.ret h₂
      exact .inl ⟨a, by rwa [List.append_nil], Async.ret.inj hb⟩
  · rintro (⟨a, ha, rfl⟩ | ⟨l₁, l₂, e, rfl, h₁, h₂⟩)
    · exact List.append_nil l ▸ (Async.Replays.bind ha _).trans (.refl _)
    · exact (Async.Replays.bind h₁ _).trans h₂

end Done

/-- With answers that `P` permits, `p` may return this. -/
def Async.Returns (P : (r : S.Req) → S.Resp r → Prop) : Async S α → α → Prop
  | .ret a, b => b = a
  | .emit _ p, b => p.Returns P b
  | .await r k, b => ∃ x, P r x ∧ (k x).Returns P b

section Returns

variable {P : (r : S.Req) → S.Resp r → Prop}

theorem Async.returns_bind {p : Async S α} {f : α → Async S β} {b : β} :
    (p.bind f).Returns P b ↔ ∃ a, p.Returns P a ∧ (f a).Returns P b := by
  induction p with
  | ret a => exact ⟨fun h => ⟨a, rfl, h⟩, fun ⟨_, ha, h⟩ => ha ▸ h⟩
  | emit y p ih => exact ih
  | await r k ih =>
    constructor
    · rintro ⟨x, hx, h⟩
      obtain ⟨a, ha, h⟩ := (ih x).mp h
      exact ⟨a, ⟨x, hx, ha⟩, h⟩
    · rintro ⟨a, ⟨x, hx, ha⟩, h⟩
      exact ⟨x, hx, (ih x).mpr ⟨a, ha, h⟩⟩

def ReturnsE (P : (r : S.Req) → S.Resp r → Prop) (q : ExceptT ε (Async S) α) (b : Except ε α) :
    Prop := q.run.Returns P b

theorem returnsE_pure {a : α} {b : Except ε α} :
    ReturnsE P (pure a : ExceptT ε (Async S) α) b ↔ b = .ok a := Iff.rfl

theorem returnsE_throw {e : ε} {b : Except ε α} :
    ReturnsE P (throw e : ExceptT ε (Async S) α) b ↔ b = .error e := Iff.rfl

theorem returnsE_bind {q : ExceptT ε (Async S) α} {f : α → ExceptT ε (Async S) β}
    {b : Except ε β} : ReturnsE P (q >>= f) b ↔
      (∃ a, ReturnsE P q (.ok a) ∧ ReturnsE P (f a) b) ∨
        ∃ e, ReturnsE P q (.error e) ∧ b = .error e := by
  refine Async.returns_bind.trans ⟨?_, ?_⟩
  · rintro ⟨_ | a, ha, h⟩
    · exact .inr ⟨_, ha, h⟩
    · exact .inl ⟨a, ha, h⟩
  · rintro (⟨a, ha, h⟩ | ⟨e, he, rfl⟩)
    · exact ⟨.ok a, ha, h⟩
    · exact ⟨.error e, he, rfl⟩

end Returns

namespace Pool

variable [DecidableEq ι] {exec : Exec S σ ω}

inductive Came (exec : Exec S σ ω) (P : Pool S σ ι α) (i : ι) : Event S ω ι α → Thread S α → Prop
  | same {e : Event S ω ι α} {t : Thread S α} : P.threads i = some t → Came exec P i e t
  | spawned (p : Async S α) : Came exec P i (.spawn i p) { code := p }
  | emitted {o : ω} {l : Log S} {out : List S.Out} {y : S.Out} {p : Async S α} :
    P.threads i = some ⟨l, out, .emit y p⟩ → Came exec P i (.step i o) ⟨l, out ++ [y], p⟩
  | answered {o : ω} {l : Log S} {out : List S.Out} {r : S.Req} {k : S.Resp r → Async S α} :
    P.threads i = some ⟨l, out, .await r k⟩ → Came exec P i (.step i o)
      ⟨l ++ [⟨r, (exec o r P.state).2⟩], out, k (exec o r P.state).2⟩

theorem came {P : Pool S σ ι α} {e : Event S ω ι α} {i : ι} {t : Thread S α}
    (h : (P.next exec e).threads i = some t) : P.Came exec i e t := by
  cases e with
  | spawn j p =>
    cases hj : P.threads j with
    | some u =>
      simp only [Pool.next, hj] at h
      exact .same h
    | none =>
      simp only [Pool.next, hj] at h
      by_cases hij : i = j
      · subst hij
        rw [set_self, Option.some.injEq] at h
        exact h ▸ .spawned p
      · exact .same (by rwa [set_of_ne _ _ hij] at h)
  | kill j =>
    simp only [Pool.next] at h
    by_cases hij : i = j
    · subst hij
      simp at h
    · exact .same (by rwa [set_of_ne _ _ hij] at h)
  | step j o =>
    cases hj : P.threads j with
    | none =>
      simp only [Pool.next, hj] at h
      exact .same h
    | some u =>
      obtain ⟨l, out, code⟩ := u
      cases code with
      | ret a =>
        simp only [Pool.next, hj] at h
        exact .same h
      | emit y p =>
        simp only [Pool.next, hj] at h
        by_cases hij : i = j
        · subst hij
          rw [set_self, Option.some.injEq] at h
          exact h ▸ .emitted hj
        · exact .same (by rwa [set_of_ne _ _ hij] at h)
      | await r k =>
        simp only [Pool.next, hj] at h
        by_cases hij : i = j
        · subst hij
          rw [Function.update_self, Option.some.injEq] at h
          exact h ▸ .answered hj
        · exact .same (by rwa [Function.update_of_ne hij] at h)

theorem exists_step_of_log {P : Pool S σ ι α} {i : ι} (hP : P.threads i = none)
    {es : List (Event S ω ι α)} {t : Thread S α} (h : (P.run exec es).threads i = some t)
    {l l' : Log S} {r : S.Req} {x : S.Resp r} (hl : t.log = l ++ ⟨r, x⟩ :: l') :
    ∃ before o after out k, es = before ++ .step i o :: after ∧
      (P.run exec before).threads i = some ⟨l, out, .await r k⟩ ∧
      x = (exec o r (P.run exec before).state).2 := by
  induction es using List.reverseRecOn generalizing t l' with
  | nil =>
    rw [run_nil, hP] at h
    cases h
  | append_singleton es e ih =>
    rw [run_append, run_cons, run_nil] at h
    have hsnoc : (∃ (u : Thread S α) (l'' : Log S), (P.run exec es).threads i = some u ∧
        u.log = l ++ ⟨r, x⟩ :: l'') → ∃ before o after out k,
        es ++ [e] = before ++ .step i o :: after ∧
          (P.run exec before).threads i = some ⟨l, out, .await r k⟩ ∧
          x = (exec o r (P.run exec before).state).2 := by
      rintro ⟨u, l'', hu, hlog⟩
      obtain ⟨before, o, after, out, k, rfl, hk, hx⟩ := ih hu hlog
      exact ⟨before, o, after ++ [e], out, k, by simp, hk, hx⟩
    cases came h with
    | same hu => exact hsnoc ⟨t, l', hu, hl⟩
    | spawned p => simp at hl
    | emitted hu => exact hsnoc ⟨_, l', hu, hl⟩
    | @answered o l₀ out r₀ k hu =>
      rcases List.eq_nil_or_concat l' with rfl | ⟨l'', y, rfl⟩
      · obtain ⟨rfl, hlast⟩ := List.append_inj' hl rfl
        obtain ⟨rfl, hx⟩ := Sigma.mk.inj (List.cons.inj hlast).1
        exact ⟨es, o, [], out, k, rfl, hu, (eq_of_heq hx).symm⟩
      · refine hsnoc ⟨_, l'', hu, ?_⟩
        rw [List.concat_eq_append, ← List.cons_append, ← List.append_assoc] at hl
        exact (List.append_inj' hl rfl).1

end Pool

end RagPlatform.Lib
