import RagPlatform.Lib.Eval
import RagPlatform.RuntimeLaws

/-! One computation alone on the platform. -/

namespace RagPlatform

open Lib

abbrev Surroundings := Call → World → Oracle

def Surroundings.handler (env : Surroundings) : Handler api World := fun c w => exec (env c w) c w

def Io.eval {α : Type} (env : Surroundings) (p : Io α) (w : World) : World × Except Exn α :=
  evalE env.handler p w

/-- The events `p` sends. -/
def Io.told {α : Type} (env : Surroundings) (p : Io α) (w : World) : List ServerEvent :=
  p.run.told env.handler w

/-- The response of `p` is read up to its `n`th event, and the connection closed there. -/
def Io.consume {α : Type} (env : Surroundings) (n : Nat) (p : Io α) (w : World) :
    World × Log api × Option (Except Exn α) := p.run.consume env.handler n w

section

variable {env : Surroundings} {α β : Type} {p : Io α} {w w' : World} {a : α} {e : Exn}

namespace Io

@[simp] theorem eval_pure : Io.eval env (pure a) w = (w, .ok a) := rfl

@[simp] theorem eval_raise : Io.eval env (raise e : Io α) w = (w, .error e) := rfl

@[simp] theorem eval_ofExcept (x : Except Exn α) : Io.eval env (Io.ofExcept x) w = (w, x) := rfl

@[simp] theorem eval_perform (c : Call) : Io.eval env (perform c) w = exec (env c w) c w := rfl

theorem eval_bind_ok {f : α → Io β} (h : Io.eval env p w = (w', .ok a)) :
    Io.eval env (p >>= f) w = Io.eval env (f a) w' := evalE_bind_ok h

theorem eval_bind_error {f : α → Io β} (h : Io.eval env p w = (w', .error e)) :
    Io.eval env (p >>= f) w = (w', .error e) := evalE_bind_error h

theorem eval_tryCatch_ok {f : Exn → Io α} (h : Io.eval env p w = (w', .ok a)) :
    Io.eval env (tryCatch p f) w = (w', .ok a) := evalE_tryCatch_ok h

theorem eval_tryCatch_error {f : Exn → Io α} (h : Io.eval env p w = (w', .error e)) :
    Io.eval env (tryCatch p f) w = Io.eval env (f e) w' := evalE_tryCatch_error h

theorem told_bind_ok {f : α → Io β} (h : Io.eval env p w = (w', .ok a)) :
    Io.told env (p >>= f) w = Io.told env p w ++ Io.told env (f a) w' := Lib.told_bind_ok h

@[simp] theorem consume_zero (p : Io α) : Io.consume env 0 p w = (w, [], none) := by
  simp [Io.consume, Async.consume]

theorem consume_emit (n : Nat) (event : ServerEvent) (f : Unit → Io α) :
    Io.consume env (n + 1) (emit event >>= f) w = Io.consume env n (f ()) w := rfl

theorem consume_perform (n : Nat) {c : Call} {x : Reply c} (f : Reply c → Io α)
    (h : exec (env c w) c w = (w', .ok x)) :
    Io.consume env (n + 1) (perform c >>= f) w =
      ((Io.consume env (n + 1) (f x) w').1, ⟨c, .ok x⟩ :: (Io.consume env (n + 1) (f x) w').2.1,
        (Io.consume env (n + 1) (f x) w').2.2) := by
  change (Async.await c _).consume env.handler (n + 1) w = _
  simp only [Async.consume, Surroundings.handler, h]
  rfl

end Io

theorem eval_perform_of_no_fault {c : Call} (h : (env c w).fault = none) :
    Io.eval env (perform c) w = serve (env c w) c w := exec_of_no_fault h

end

end RagPlatform
