import RagPlatform.Api.Deps
import RagPlatform.RatelimitLaws
import RagPlatform.RuntimeLaws

/-! One check of the rate limiter, and the counter of its window. -/

namespace RagPlatform

open Lib

def window (time : Nat) : Nat := time / 1000000 / windowSeconds

section

variable (limit : Int) (key : Str)

def ruling (time count : Nat) : Except Exn Unit :=
  if (count : Int) > limit then
    .error (.rateLimited (max (windowSeconds - time / 1000000 % windowSeconds) 1 : Nat))
  else .ok ()

def unlimited (e : Exn) : Async api (Except Exn Unit) :=
  .ret (if e.isRedisError then .ok () else .error e)

def afterIncr (time count : Nat) : Async api (Except Exn Unit) :=
  if count = 1 then
    .await (.expire (bucket key (window time)) (windowSeconds + 5)) fun
      | .ok _ => .ret (ruling limit time count)
      | .error e => unlimited e
  else .ret (ruling limit time count)

def afterTime (time : Nat) : Async api (Except Exn Unit) :=
  .await (.incr (bucket key (window time))) fun
    | .ok count => afterIncr limit key time count
    | .error e => unlimited e

theorem decide_run (time count : Nat) :
    (if (count : Int) > limit then
      raise (.rateLimited (max (windowSeconds - time / 1000000 % windowSeconds) 1 : Nat))
    else pure () : Io Unit).run = .ret (ruling limit time count) := by
  unfold ruling
  split
  · rfl
  · rfl

theorem fail_open (f : Nat → Io Unit) (e : Exn) :
    ((if e.isRedisError then pure none else raise e : Io (Option Nat)) >>= fun
      | none => pure ()
      | some count => f count).run = unlimited e := by
  unfold unlimited
  split
  · rfl
  · rfl

theorem check_run : (RateLimiter.check limit key).run = .await .time fun
    | .ok time => afterTime limit key time
    | .error e => .ret (.error e) := by
  change @Async.await api _ .time _ = _
  congr 1
  funext x
  obtain e | time := x
  · rfl
  change @Async.await api _ (.incr (bucket key (window time))) _ = _
  unfold afterTime
  congr 1
  funext y
  obtain e | count := y
  · exact fail_open _ e
  · change Async.bind (Async.bind (Async.bind (if count = 1 then _ else _) _) _) _ =
      afterIncr limit key time count
    unfold afterIncr
    split
    · change @Async.await api _ (.expire (bucket key (window time)) (windowSeconds + 5)) _ = _
      congr 1
      funext z
      obtain e | ⟨⟩ := z
      · exact fail_open _ e
      · exact decide_run limit time count
    · exact decide_run limit time count

inductive Stage : Log api → Async api (Except Exn Unit) → Prop
  | fresh : Stage [] (RateLimiter.check limit key).run
  | read (time : Nat) : Stage [⟨.time, .ok time⟩] (afterTime limit key time)
  | first (time : Nat) : Stage [⟨.time, .ok time⟩, ⟨.incr (bucket key (window time)), .ok 1⟩]
      (afterIncr limit key time 1)
  | decided (time count : Nat) (l : Log api) :
    Stage (⟨.time, .ok time⟩ :: ⟨.incr (bucket key (window time)), .ok count⟩ :: l)
      (.ret (ruling limit time count))

end

/-- What Redis has under the key of a window after so many calls. -/
def Kept (r : Redis) (key : Str) (n count : Nat) : Prop :=
  if count = 0 then r.get? (bucket key n) = none
  else ∃ expiresAt : Option Nat, r.get? (bucket key n) = some ⟨count, expiresAt⟩ ∧
    ∀ e, expiresAt = some e → (n * 60 + 65) * 1000000 ≤ e

theorem bucket_window {key : Str} {m n : Nat} (h : bucket key m = bucket key n) : m = n := by
  unfold bucket at h
  have h' := List.append_cancel_left h
  rw [Nat.toString_eq_repr, Nat.toString_eq_repr, Nat.toList_repr, Nat.toList_repr] at h'
  rw [← Nat.ofDigitChars_ten_toDigits (n := m), h', Nat.ofDigitChars_ten_toDigits]

section

variable {r : Redis} {key b : Str} {n count now : Nat}

theorem Kept.of_ne (h : Kept r key n count) {c : Counter} (hb : b ≠ bucket key n) :
    Kept (r.set b c) key n count := by
  unfold Kept at h ⊢
  rwa [Dict.get?_set_of_ne r c hb.symm]

theorem Kept.expire_of_ne (h : Kept r key n count) {seconds : Nat} (hb : b ≠ bucket key n) :
    Kept (r.expire now b seconds) key n count := by
  unfold Redis.expire
  cases r.live now b with
  | none => exact h
  | some c => exact h.of_ne hb

theorem Kept.live (h : Kept r key n count) (hnow : now < (n * 60 + 65) * 1000000) :
    r.live now (bucket key n) = r.get? (bucket key n) := by
  unfold Kept at h
  unfold Redis.live
  split at h
  · rw [h]
    rfl
  · obtain ⟨expiresAt, hget, hexp⟩ := h
    rw [hget]
    refine Option.filter_eq_some_iff.mpr ⟨rfl, ?_⟩
    cases expiresAt with
    | none => rfl
    | some e =>
      have := hexp e rfl
      exact decide_eq_true (by omega)

theorem Kept.incr (h : Kept r key n count) (hnow : now < (n * 60 + 65) * 1000000) :
    (r.incr now (bucket key n)).2 = count + 1 ∧
      Kept (r.incr now (bucket key n)).1 key n (count + 1) := by
  have hlive := h.live hnow
  unfold Kept at h ⊢
  unfold Redis.incr
  rw [hlive, if_neg (Nat.succ_ne_zero _), Dict.get?_set_self]
  split at h
  · next h0 =>
    rw [h]
    subst h0
    exact ⟨rfl, none, rfl, fun e he => by cases he⟩
  · obtain ⟨expiresAt, hget, hexp⟩ := h
    rw [hget]
    exact ⟨rfl, expiresAt, rfl, hexp⟩

theorem ttl_covers (h : n * 60 * 1000000 ≤ now) :
    (n * 60 + 65) * 1000000 ≤ now + (windowSeconds + 5) * 1000000 := by
  rw [Nat.add_mul]
  exact Nat.add_le_add_right h _

theorem Kept.expire (h : Kept r key n count) (hnow : n * 60 * 1000000 ≤ now) :
    Kept (r.expire now (bucket key n) (windowSeconds + 5)) key n count := by
  unfold Redis.expire
  cases hlive : r.live now (bucket key n) with
  | none => exact h
  | some c =>
    have hget : r.get? (bucket key n) = some c := (Option.filter_eq_some_iff.mp hlive).1
    unfold Kept at h ⊢
    split at h
    · rw [h] at hget
      cases hget
    · next h0 =>
      obtain ⟨expiresAt, hget', -⟩ := h
      rw [hget] at hget'
      obtain rfl := Option.some.inj hget'
      rw [if_neg h0, Dict.get?_set_self]
      refine ⟨some (now + (windowSeconds + 5) * 1000000), rfl, fun e he => ?_⟩
      rw [← Option.some.inj he]
      exact ttl_covers hnow

end

theorem window_bounds {time n : Nat} (h : window time = n) :
    n * 60 * 1000000 ≤ time ∧ time < (n * 60 + 60) * 1000000 := by
  unfold window windowSeconds at h
  omega

theorem Stage.ended {limit : Int} {key : Str} {l : Log api} {r : Except Exn Unit}
    (h : Stage limit key l (.ret r)) : ∃ time count l',
      l = ⟨.time, .ok time⟩ :: ⟨.incr (bucket key (window time)), .ok count⟩ :: l' ∧
        r = ruling limit time count := by
  generalize hcode : Async.ret r = code at h
  cases h with
  | fresh =>
    rw [check_run] at hcode
    cases hcode
  | read time => cases hcode
  | first time =>
    simp only [afterIncr, if_true] at hcode
    cases hcode
  | decided time count l =>
    cases hcode
    exact ⟨time, count, l, rfl, rfl⟩

theorem ruling_ok {limit : Int} {time count : Nat} (h : 0 ≤ limit) :
    ruling limit time count = .ok () ↔ count ≤ limit.toNat := by
  unfold ruling
  split
  · simp only [reduceCtorEq, false_iff]
    omega
  · simp only [true_iff]
    omega

theorem ruling_error {limit : Int} {time count : Nat} {e : Exn}
    (h : ruling limit time count = .error e) : ∃ r : Nat, e = .rateLimited r ∧ 1 ≤ r ∧ r ≤ 60 ∧
      ∀ later, time + r * 1000000 ≤ later → window time < window later := by
  unfold ruling at h
  split at h
  · cases h
    refine ⟨_, rfl, ?_, ?_, fun later hlater => ?_⟩
    · exact le_max_right _ _
    · unfold windowSeconds
      omega
    · unfold window windowSeconds at *
      omega
  · cases h

end RagPlatform
