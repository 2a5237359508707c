import RagPlatform.Lib.Replay

/-! What a computation asks for in view of the answers it has had, and computations over two
signatures side by side. -/

namespace RagPlatform.Lib

variable {S T : Signature} {σ ω ι α β ε : Type}

/-- After the log `l`, every request of `p` is one that `G` permits at its point, and `Q` holds
where it returns. -/
def Async.Heeds (G : Log S → S.Req → Prop) (Q : Log S → α → Prop) : Async S α → Log S → Prop
  | .ret a, l => Q l a
  | .emit _ p, l => p.Heeds G Q l
  | .await r k, l => G l r ∧ ∀ x, (k x).Heeds G Q (l ++ [⟨r, x⟩])

namespace Async.Heeds

variable {G : Log S → S.Req → Prop} {Q Q' : Log S → α → Prop} {p q : Async S α} {l l' : Log S}

theorem mono (h : p.Heeds G Q l) (hQ : ∀ l a, Q l a → Q' l a) : p.Heeds G Q' l := by
  induction p generalizing l with
  | ret a => exact hQ l a h
  | emit y p ih => exact ih h
  | await r k ih => exact ⟨h.1, fun x => ih x (h.2 x)⟩

theorem bind {f : α → Async S β} {Q : Log S → β → Prop}
    (h : p.Heeds G (fun l a => (f a).Heeds G Q l) l) : (p.bind f).Heeds G Q l := by
  induction p generalizing l with
  | ret a => exact h
  | emit y p ih => exact ih h
  | await r k ih => exact ⟨h.1, fun x => ih x (h.2 x)⟩

theorem replays (h : p.Heeds G Q l) (hl : p.Replays l' q) : q.Heeds G Q (l ++ l') := by
  induction hl generalizing l with
  | refl => rwa [List.append_nil]
  | emit _ ih => exact ih h
  | @await r k x q l' _ ih =>
    have hx := ih (h.2 x)
    rwa [List.append_assoc] at hx

theorem map {f : α → β} {Q : Log S → β → Prop} (h : p.Heeds G (fun l a => Q l (f a)) l) :
    (f <$> p).Heeds G Q l :=
  bind h

theorem awaits {r : S.Req} {k : S.Resp r → Async S α} (h : p.Heeds G Q [])
    (hl : p.Replays l (.await r k)) : G l r :=
  (h.replays hl).1

/-- What `G` permits whatever the log is. -/
theorem of_only (h : p.Only fun r => ∀ l, G l r) : p.Heeds G (fun l' _ => l <+: l') l := by
  induction p generalizing l with
  | ret a => exact List.prefix_refl l
  | emit y p ih => exact ih h
  | await r k ih =>
    refine ⟨h.1 l, fun x => (ih x (h.2 x)).mono fun l' _ hl' => ?_⟩
    exact (List.prefix_append l _).trans hl'

end Async.Heeds

def HeedsE (G : Log S → S.Req → Prop) (Q : Log S → Except ε α → Prop)
    (q : ExceptT ε (Async S) α) (l : Log S) : Prop := q.run.Heeds G Q l

namespace HeedsE

variable {G : Log S → S.Req → Prop} {q : ExceptT ε (Async S) α} {l : Log S}

theorem pure {Q : Log S → Except ε α → Prop} {a : α} (h : Q l (.ok a)) :
    HeedsE G Q (Pure.pure a) l := h

theorem throw {Q : Log S → Except ε α → Prop} {e : ε} (h : Q l (.error e)) :
    HeedsE G Q (MonadExcept.throw e) l := h

theorem mono {Q Q' : Log S → Except ε α → Prop} (h : HeedsE G Q q l) (hQ : ∀ l b, Q l b → Q' l b) :
    HeedsE G Q' q l :=
  Async.Heeds.mono h hQ

theorem bind {Q : Log S → Except ε α → Prop} {Q' : Log S → Except ε β → Prop}
    {f : α → ExceptT ε (Async S) β} (h : HeedsE G Q q l)
    (hok : ∀ l a, Q l (.ok a) → HeedsE G Q' (f a) l)
    (herror : ∀ l e, Q l (.error e) → Q' l (.error e)) : HeedsE G Q' (q >>= f) l :=
  Async.Heeds.bind (Async.Heeds.mono h fun
    | l, .ok a, ha => hok l a ha
    | l, .error e, he => herror l e he)

theorem map {Q : Log S → Except ε α → Prop} {Q' : Log S → Except ε β → Prop} {g : α → β}
    (h : HeedsE G Q q l) (hQ : ∀ l b, Q l b → Q' l (b.map g)) : HeedsE G Q' (g <$> q) l :=
  Async.Heeds.bind (Async.Heeds.mono h fun
    | l, .ok a, ha => hQ l (.ok a) ha
    | l, .error e, he => hQ l (.error e) he)

theorem tryCatch {Q Q' : Log S → Except ε α → Prop} {f : ε → ExceptT ε (Async S) α}
    (h : HeedsE G Q q l) (hok : ∀ l a, Q l (.ok a) → Q' l (.ok a))
    (herror : ∀ l e, Q l (.error e) → HeedsE G Q' (f e) l) :
    HeedsE G Q' (MonadExcept.tryCatch q f) l :=
  Async.Heeds.bind (Async.Heeds.mono h fun
    | l, .ok a, ha => hok l a ha
    | l, .error e, he => herror l e he)

end HeedsE

def Signature.sum (S T : Signature) : Signature :=
  ⟨S.Req ⊕ T.Req, Sum.elim S.Resp T.Resp, S.Out ⊕ T.Out⟩

def Async.inl : Async S α → Async (S.sum T) α
  | .ret a => .ret a
  | .emit y p => .emit (.inl y) p.inl
  | .await r k => .await (.inl r) fun x => (k x).inl

def Log.inl (l : Log S) : Log (S.sum T) := l.map fun e => ⟨.inl e.1, e.2⟩

theorem Log.inl_append (l l' : Log S) :
    (Log.inl (l ++ l') : Log (S.sum T)) = Log.inl l ++ Log.inl l' := List.map_append

theorem Async.Heeds.inl {G : Log S → S.Req → Prop} {Q : Log S → α → Prop} {p : Async S α}
    {l : Log S} (h : p.Heeds G Q l) :
    (p.inl : Async (S.sum T) α).Heeds (fun l' r' => ∃ l r, l' = Log.inl l ∧ r' = .inl r ∧ G l r)
      (fun l' a => ∃ l, l' = Log.inl l ∧ Q l a) (Log.inl l) := by
  induction p generalizing l with
  | ret a => exact ⟨l, rfl, h⟩
  | emit y p ih => exact ih h
  | await r k ih =>
    refine ⟨⟨l, r, rfl, rfl, h.1⟩, fun x => ?_⟩
    have hx := ih x (h.2 x)
    rw [Log.inl_append] at hx
    exact hx

namespace Pool

variable [DecidableEq ι] {exec : Exec S σ ω}

theorem next_state (P : Pool S σ ι α) (e : Event S ω ι α) : (P.next exec e).state = P.state ∨
    ∃ i o l out r k, e = .step i o ∧ P.threads i = some ⟨l, out, .await r k⟩ ∧
      (P.next exec e).state = (exec o r P.state).1 := by
  cases e with
  | spawn i p =>
    left
    simp only [Pool.next]
    split
    · rfl
    · rfl
  | kill i => exact .inl rfl
  | step i o =>
    cases hi : P.threads i with
    | none => exact .inl (by simp only [Pool.next, hi])
    | some t =>
      obtain ⟨l, out, code⟩ := t
      cases code with
      | ret a => exact .inl (by simp only [Pool.next, hi])
      | emit y p => exact .inl (by simp only [Pool.next, hi, set_state])
      | await r k => exact .inr ⟨i, o, l, out, r, k, rfl, hi, by simp only [Pool.next, hi]⟩

theorem state_run {R : Rules S σ ω ι α} {I : σ → Prop}
    (hI : ∀ l o r s, R.step l o r s → I s → I (exec o r s).1) {P : Pool S σ ι α}
    {es : List (Event S ω ι α)} (hes : P.Obeys exec R es) (h : I P.state) :
    I (P.run exec es).state := by
  induction es generalizing P with
  | nil => exact h
  | cons e es ih =>
    refine ih hes.2 ?_
    rcases (P.next_state e : (P.next exec e).state = P.state ∨ _) with
      hs | ⟨i, o, l, out, r, f, rfl, hi, hs⟩
    · rwa [hs]
    · rw [hs]
      have hstep : R.step l o r P.state := by simpa only [Allows, hi] using hes.1
      exact hI l o r _ hstep h

theorem replays_thread {R : Rules S σ ω ι α} {code : ι → Async S α}
    (hR : ∀ i p s, R.spawn i p s → p = code i) {P : Pool S σ ι α} (hP : ∀ i, P.threads i = none)
    {es : List (Event S ω ι α)} (hes : P.Obeys exec R es) {i : ι} {t : Thread S α}
    (h : (P.run exec es).threads i = some t) : (code i).Replays t.log t.code := by
  induction es using List.reverseRecOn generalizing t with
  | nil =>
    rw [run_nil, hP] at h
    cases h
  | append_singleton es e ih =>
    rw [obeys_append] at hes
    rw [run_append, run_cons, run_nil] at h
    cases came h with
    | same hu => exact ih hes.1 hu
    | spawned p =>
      rw [hR _ _ _ hes.2.1]
      exact .refl _
    | emitted hu =>
      have hlast := (ih hes.1 hu).trans (.emit (.refl _))
      rwa [List.append_nil] at hlast
    | answered hu => exact (ih hes.1 hu).trans (.await (.refl _))

theorem replays_spawned {P : Pool S σ ι α} {i : ι} (hP : P.threads i = none)
    {es : List (Event S ω ι α)} {t : Thread S α} (h : (P.run exec es).threads i = some t) :
    ∃ p, .spawn i p ∈ es ∧ p.Replays t.log t.code := by
  induction es using List.reverseRecOn generalizing t with
  | nil =>
    rw [run_nil, hP] at h
    cases h
  | append_singleton es e ih =>
    rw [run_append, run_cons, run_nil] at h
    cases came h with
    | same hu =>
      obtain ⟨p, hp, hreplays⟩ := ih hu
      exact ⟨p, List.mem_append_left _ hp, hreplays⟩
    | spawned p => exact ⟨p, List.mem_append_right _ (List.mem_singleton_self _), .refl _⟩
    | emitted hu =>
      obtain ⟨p, hp, hreplays⟩ := ih hu
      have hlast := hreplays.trans (.emit (.refl _))
      rw [List.append_nil] at hlast
      exact ⟨p, List.mem_append_left _ hp, hlast⟩
    | answered hu =>
      obtain ⟨p, hp, hreplays⟩ := ih hu
      exact ⟨p, List.mem_append_left _ hp, hreplays.trans (.await (.refl _))⟩

theorem heeds_thread {R : Rules S σ ω ι α} {G : Log S → S.Req → Prop} {Q : Log S → α → Prop}
    (hR : ∀ i p s, R.spawn i p s → p.Heeds G Q []) {P : Pool S σ ι α}
    (hP : ∀ i, P.threads i = none) {es : List (Event S ω ι α)} (hes : P.Obeys exec R es) {i : ι}
    {t : Thread S α} (h : (P.run exec es).threads i = some t) : t.code.Heeds G Q t.log := by
  induction es using List.reverseRecOn generalizing t with
  | nil =>
    rw [run_nil, hP] at h
    cases h
  | append_singleton es e ih =>
    rw [obeys_append] at hes
    rw [run_append, run_cons, run_nil] at h
    cases came h with
    | same hu => exact ih hes.1 hu
    | spawned p => exact hR _ _ _ hes.2.1
    | emitted hu =>
      have hbefore := ih hes.1 hu
      exact hbefore
    | answered hu =>
      have hbefore := ih hes.1 hu
      exact hbefore.2 _

end Pool

end RagPlatform.Lib
