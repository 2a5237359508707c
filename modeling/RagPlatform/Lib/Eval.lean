import RagPlatform.Lib.Async

/-! Computations alone in a world that answers every await by itself. -/

namespace RagPlatform.Lib

abbrev Handler (S : Signature) (σ : Type) := (r : S.Req) → σ → σ × S.Resp r

variable {S : Signature} {σ α β ε : Type} (h : Handler S σ)

def Async.eval : Async S α → σ → σ × α
  | .ret a, s => (s, a)
  | .emit _ p, s => p.eval s
  | .await r k, s => (k (h r s).2).eval (h r s).1

theorem Async.eval_bind (p : Async S α) (f : α → Async S β) (s : σ) :
    (p.bind f).eval h s = (f (p.eval h s).2).eval h (p.eval h s).1 := by
  induction p generalizing s with
  | ret a => rfl
  | emit y p ih => exact ih s
  | await r k ih => exact ih _ _

def Async.told : Async S α → σ → List S.Out
  | .ret _, _ => []
  | .emit y p, s => y :: p.told s
  | .await r k, s => (k (h r s).2).told (h r s).1

theorem Async.told_bind (p : Async S α) (f : α → Async S β) (s : σ) :
    (p.bind f).told h s = p.told h s ++ (f (p.eval h s).2).told h (p.eval h s).1 := by
  induction p generalizing s with
  | ret a => rfl
  | emit y p ih => exact congrArg (y :: ·) (ih s)
  | await r k ih => exact ih _ _

def evalE (q : ExceptT ε (Async S) α) (s : σ) : σ × Except ε α := q.run.eval h s

section Fallible

variable {h} {q : ExceptT ε (Async S) α} {s s' : σ} {a : α} {e : ε}

@[simp] theorem evalE_pure : evalE h (pure a : ExceptT ε (Async S) α) s = (s, .ok a) := rfl

@[simp] theorem evalE_throw : evalE h (throw e : ExceptT ε (Async S) α) s = (s, .error e) := rfl

theorem evalE_bind (q : ExceptT ε (Async S) α) (f : α → ExceptT ε (Async S) β) (s : σ) :
    evalE h (q >>= f) s =
      match evalE h q s with
      | (s', .ok a) => evalE h (f a) s'
      | (s', .error e) => (s', .error e) := by
  change (Async.bind q.run _).eval h s = _
  rw [Async.eval_bind]
  simp only [evalE]
  generalize q.run.eval h s = x
  obtain ⟨s', _ | a⟩ := x
  · rfl
  · rfl

theorem evalE_bind_ok {f : α → ExceptT ε (Async S) β} (hq : evalE h q s = (s', .ok a)) :
    evalE h (q >>= f) s = evalE h (f a) s' := by
  rw [evalE_bind, hq]

theorem evalE_bind_error {f : α → ExceptT ε (Async S) β} (hq : evalE h q s = (s', .error e)) :
    evalE h (q >>= f) s = (s', .error e) := by
  rw [evalE_bind, hq]

theorem exists_of_evalE_bind {f : α → ExceptT ε (Async S) β} {b : β}
    (hq : evalE h (q >>= f) s = (s', .ok b)) :
    ∃ s₁ a, evalE h q s = (s₁, .ok a) ∧ evalE h (f a) s₁ = (s', .ok b) := by
  rw [evalE_bind] at hq
  split at hq
  · next s₁ a hfirst => exact ⟨s₁, a, hfirst, hq⟩
  · cases hq

theorem evalE_tryCatch (q : ExceptT ε (Async S) α) (f : ε → ExceptT ε (Async S) α) (s : σ) :
    evalE h (tryCatch q f) s =
      match evalE h q s with
      | (s', .ok a) => (s', .ok a)
      | (s', .error e) => evalE h (f e) s' := by
  change (Async.bind q.run _).eval h s = _
  rw [Async.eval_bind]
  simp only [evalE]
  generalize q.run.eval h s = x
  obtain ⟨s', _ | a⟩ := x
  · rfl
  · rfl

theorem evalE_tryCatch_ok {f : ε → ExceptT ε (Async S) α} (hq : evalE h q s = (s', .ok a)) :
    evalE h (tryCatch q f) s = (s', .ok a) := by
  rw [evalE_tryCatch, hq]

theorem evalE_tryCatch_error {f : ε → ExceptT ε (Async S) α} (hq : evalE h q s = (s', .error e)) :
    evalE h (tryCatch q f) s = evalE h (f e) s' := by
  rw [evalE_tryCatch, hq]

end Fallible

theorem told_bind_ok {h : Handler S σ} {q : ExceptT ε (Async S) α}
    {f : α → ExceptT ε (Async S) β} {s s' : σ} {a : α} (hq : evalE h q s = (s', .ok a)) :
    (q >>= f).run.told h s = q.run.told h s ++ (f a).run.told h s' := by
  change (Async.bind q.run _).told h s = _
  have hrun : q.run.eval h s = (s', .ok a) := hq
  rw [Async.told_bind, hrun]
  rfl

/-- Alone in the world, `q` hands out `ys` and ends like this. -/
structure Tells (q : ExceptT ε (Async S) α) (s : σ) (ys : List S.Out) (r : σ × Except ε α) :
    Prop where
  eval : evalE h q s = r
  told : q.run.told h s = ys

namespace Tells

variable {h} {q : ExceptT ε (Async S) α} {s s' : σ} {ys zs : List S.Out} {a : α}

theorem pure (a : α) (s : σ) : Tells h (Pure.pure a : ExceptT ε (Async S) α) s [] (s, .ok a) :=
  ⟨rfl, rfl⟩

theorem bind {f : α → ExceptT ε (Async S) β} {r : σ × Except ε β} (hq : Tells h q s ys (s', .ok a))
    (hf : Tells h (f a) s' zs r) : Tells h (q >>= f) s (ys ++ zs) r where
  eval := (evalE_bind_ok hq.eval).trans hf.eval
  told := by rw [told_bind_ok hq.eval, hq.told, hf.told]

end Tells

/-- A consumer reads `n` of the values handed out and then closes the generator: it stops where the
last one was handed out.  `none` unless it was exhausted before. -/
def Async.consume : Nat → Async S α → σ → σ × Log S × Option α
  | 0, _, s => (s, [], none)
  | _ + 1, .ret a, s => (s, [], some a)
  | n + 1, .emit _ p, s => p.consume n s
  | n + 1, .await r k, s =>
    let x := (k (h r s).2).consume (n + 1) (h r s).1
    (x.1, ⟨r, (h r s).2⟩ :: x.2.1, x.2.2)

end RagPlatform.Lib
