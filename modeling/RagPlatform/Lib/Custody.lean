import RagPlatform.Lib.Replay

/-! Things that may be left undone, and the computations that see to them. -/

namespace RagPlatform.Lib

/-- What may be left undone in a state, how a step can pass it on, and where a computation waits
while it sees to it.  `step` singles out the answers under consideration. -/
structure Duty (S : Signature) (σ ω κ : Type) where
  due : σ → κ → Prop
  passed : σ → σ → κ → Prop
  place : κ → S.Req → Prop := fun _ _ => True
  step : Log S → ω → S.Req → σ → Prop := fun _ _ _ _ => True

variable {S : Signature} {σ ω κ α β : Type} (exec : Exec S σ ω) (D : Duty S σ ω κ)

/-- After this step nobody has to see to `k` who did not before. -/
def Duty.Rid (k : κ) (s t : σ) : Prop := ¬D.due t k ∨ D.passed s t k

/-- `p` sees to `k` until it is done or passed on; if `p` ends before, it ends in `Q`. -/
def Async.Minds (k : κ) (Q : α → Log S → Prop) : Async S α → Log S → Prop
  | .ret a, l => Q a l
  | .emit _ p, l => p.Minds k Q l
  | .await r c, l => D.place k r ∧ ∀ o s, D.step l o r s →
      D.Rid k s (exec o r s).1 ∨ (c (exec o r s).2).Minds k Q (l ++ [⟨r, (exec o r s).2⟩])

/-- Whatever `p` makes due is one of `K`, and from then on `p` sees to it. -/
def Async.Careful (K : κ → Prop) (Q : κ → α → Log S → Prop) : Async S α → Log S → Prop
  | .ret _, _ => True
  | .emit _ p, l => p.Careful K Q l
  | .await r c, l => ∀ o s, D.step l o r s →
      (∀ k, ¬D.due s k → D.due (exec o r s).1 k → K k ∧ (D.passed s (exec o r s).1 k ∨
        (c (exec o r s).2).Minds exec D k (Q k) (l ++ [⟨r, (exec o r s).2⟩]))) ∧
      (c (exec o r s).2).Careful K Q (l ++ [⟨r, (exec o r s).2⟩])

namespace Async

variable {exec D}
variable {k : κ} {K : κ → Prop} {p : Async S α} {l : Log S}

theorem Minds.mono {Q Q' : α → Log S → Prop} (h : p.Minds exec D k Q l)
    (hQ : ∀ a l, Q a l → Q' a l) : p.Minds exec D k Q' l := by
  induction p generalizing l with
  | ret a => exact hQ a l h
  | emit y p ih => exact ih h
  | await r c ih => exact ⟨h.1, fun o s ho => (h.2 o s ho).imp_right (ih _)⟩

theorem Minds.bind {Q : β → Log S → Prop} {f : α → Async S β}
    (h : p.Minds exec D k (fun a l => (f a).Minds exec D k Q l) l) :
    (p.bind f).Minds exec D k Q l := by
  induction p generalizing l with
  | ret a => exact h
  | emit y p ih => exact ih h
  | await r c ih => exact ⟨h.1, fun o s ho => (h.2 o s ho).imp_right (ih _)⟩

theorem Careful.bind {Q : κ → β → Log S → Prop} {f : α → Async S β}
    (h : p.Careful exec D K (fun k a l => (f a).Minds exec D k (Q k) l) l)
    (hf : ∀ a l, (f a).Careful exec D K Q l) : (p.bind f).Careful exec D K Q l := by
  induction p generalizing l with
  | ret a => exact hf a l
  | emit y p ih => exact ih h
  | await r c ih =>
    intro o s ho
    obtain ⟨hopen, hc⟩ := h o s ho
    refine ⟨fun k hk hk' => ?_, ih _ hc⟩
    obtain ⟨hK, hminds⟩ := hopen k hk hk'
    exact ⟨hK, hminds.imp_right Minds.bind⟩

theorem Careful.mono {Q Q' : κ → α → Log S → Prop} (h : p.Careful exec D K Q l)
    (hQ : ∀ k, K k → ∀ a l, Q k a l → Q' k a l) : p.Careful exec D K Q' l := by
  induction p generalizing l with
  | ret a => trivial
  | emit y p ih => exact ih h
  | await r c ih =>
    intro o s ho
    obtain ⟨hopen, hc⟩ := h o s ho
    refine ⟨fun k hk hk' => ?_, ih _ hc⟩
    obtain ⟨hK, hminds⟩ := hopen k hk hk'
    exact ⟨hK, hminds.imp_right fun hm => hm.mono (hQ k hK)⟩

/-- Where `p` will be once it has handed out what it can. -/
def pending : Async S α → α ⊕ S.Req
  | .ret a => .inl a
  | .emit _ p => p.pending
  | .await r _ => .inr r

theorem Minds.pending {Q : α → Log S → Prop} (h : p.Minds exec D k Q l) :
    (∃ a, p.pending = .inl a ∧ Q a l) ∨ ∃ r, p.pending = .inr r ∧ D.place k r := by
  induction p with
  | ret a => exact .inl ⟨a, rfl, h⟩
  | emit y p ih => exact ih h
  | await r c => exact .inr ⟨r, rfl, h.1⟩

theorem Only.careful {Q : κ → α → Log S → Prop}
    (h : p.Only fun r => ∀ o s k, D.due (exec o r s).1 k → D.due s k) (l : Log S) :
    p.Careful exec D K Q l := by
  induction p generalizing l with
  | ret a => trivial
  | emit y p ih => exact ih h l
  | await r c ih => exact fun o s _ => ⟨fun k hk hk' => absurd (h.1 o s k hk') hk, ih _ (h.2 _) _⟩

end Async

section Fallible

variable {ε : Type}

def MindsE (exec : Exec S σ ω) (D : Duty S σ ω κ) (k : κ) (Q : Except ε α → Log S → Prop)
    (q : ExceptT ε (Async S) α) (l : Log S) : Prop := q.run.Minds exec D k Q l

def CarefulE (exec : Exec S σ ω) (D : Duty S σ ω κ) (K : κ → Prop)
    (Q : κ → Except ε α → Log S → Prop) (q : ExceptT ε (Async S) α) (l : Log S) : Prop :=
  q.run.Careful exec D K Q l

/-- What is left to see to of `q >>= f` once `q` has ended. -/
def mindsBind (exec : Exec S σ ω) (D : Duty S σ ω κ) (k : κ) (Q : Except ε β → Log S → Prop)
    (f : α → ExceptT ε (Async S) β) : Except ε α → Log S → Prop
  | .ok a, l => MindsE exec D k Q (f a) l
  | .error e, l => Q (.error e) l

/-- What is left to see to of `tryCatch q h` once `q` has ended. -/
def mindsTry (exec : Exec S σ ω) (D : Duty S σ ω κ) (k : κ) (Q : Except ε α → Log S → Prop)
    (h : ε → ExceptT ε (Async S) α) : Except ε α → Log S → Prop
  | .ok a, l => Q (.ok a) l
  | .error e, l => MindsE exec D k Q (h e) l

variable {exec D} {k : κ} {K : κ → Prop} {q : ExceptT ε (Async S) α} {l : Log S}

namespace MindsE

theorem pure {Q : Except ε α → Log S → Prop} {a : α} (h : Q (.ok a) l) :
    MindsE exec D k Q (Pure.pure a) l := h

theorem throw {Q : Except ε α → Log S → Prop} {e : ε} (h : Q (.error e) l) :
    MindsE exec D k Q (MonadExcept.throw e) l := h

theorem mono {Q Q' : Except ε α → Log S → Prop} (h : MindsE exec D k Q q l)
    (hQ : ∀ r l, Q r l → Q' r l) : MindsE exec D k Q' q l := Async.Minds.mono h hQ

theorem bind {Q : Except ε β → Log S → Prop} {f : α → ExceptT ε (Async S) β}
    (h : MindsE exec D k (mindsBind exec D k Q f) q l) : MindsE exec D k Q (q >>= f) l := by
  refine Async.Minds.bind (Async.Minds.mono h fun r l hr => ?_)
  cases r with
  | ok a => exact hr
  | error e => exact hr

theorem tryCatch {Q : Except ε α → Log S → Prop} {f : ε → ExceptT ε (Async S) α}
    (h : MindsE exec D k (mindsTry exec D k Q f) q l) :
    MindsE exec D k Q (MonadExcept.tryCatch q f) l := by
  refine Async.Minds.bind (Async.Minds.mono h fun r l hr => ?_)
  cases r with
  | ok a => exact hr
  | error e => exact hr

end MindsE

namespace CarefulE

theorem pure {Q : κ → Except ε α → Log S → Prop} (a : α) (l : Log S) :
    CarefulE exec D K Q (Pure.pure a) l := trivial

theorem throw {Q : κ → Except ε α → Log S → Prop} (e : ε) (l : Log S) :
    CarefulE exec D K Q (MonadExcept.throw e : ExceptT ε (Async S) α) l := trivial

theorem of_only {Q : κ → Except ε α → Log S → Prop}
    (h : OnlyE (fun r => ∀ o s k, D.due (exec o r s).1 k → D.due s k) q) (l : Log S) :
    CarefulE exec D K Q q l := Async.Only.careful h l

theorem bind {Q : κ → Except ε β → Log S → Prop} {f : α → ExceptT ε (Async S) β}
    (h : CarefulE exec D K (fun k => mindsBind exec D k (Q k) f) q l)
    (hf : ∀ a l, CarefulE exec D K Q (f a) l) : CarefulE exec D K Q (q >>= f) l := by
  refine Async.Careful.bind (Async.Careful.mono h fun k _ r l hr => ?_) fun r l => ?_
  · cases r with
    | ok a => exact hr
    | error e => exact hr
  · cases r with
    | ok a => exact hf a l
    | error e => trivial

theorem tryCatch {Q : κ → Except ε α → Log S → Prop} {f : ε → ExceptT ε (Async S) α}
    (h : CarefulE exec D K (fun k => mindsTry exec D k (Q k) f) q l)
    (hf : ∀ e l, CarefulE exec D K Q (f e) l) :
    CarefulE exec D K Q (MonadExcept.tryCatch q f) l := by
  refine Async.Careful.bind (Async.Careful.mono h fun k _ r l hr => ?_) fun r l => ?_
  · cases r with
    | ok a => exact hr
    | error e => exact hr
  · cases r with
    | ok a => trivial
    | error e => exact hf e l

end CarefulE

end Fallible

end RagPlatform.Lib
