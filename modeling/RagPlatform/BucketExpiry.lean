import RagPlatform.Lib.Debts
import RagPlatform.System
import RagPlatform.Throttling

/-! Whether every bucket of the rate limiter expires some day. -/

namespace RagPlatform

open Lib

/-- What happens to the checks of any number of processes: one is called, goes on to its next
command, which may fail, or dies. -/
inductive CheckEvent (ι : Type)
  | call (i : ι) (limit : Int) (key : Str)
  | step (i : ι) (o : Oracle)
  | die (i : ι)

section

variable {ι : Type}

def CheckEvent.event : CheckEvent ι → Event api Oracle ι (Except Exn Unit)
  | .call i limit key => .spawn i (RateLimiter.check limit key).run
  | .step i o => .step i o
  | .die i => .kill i

def Unexpiring (r : Redis) (b : Str) : Prop :=
  "ratelimit:".toList <+: b ∧ ∃ c, r.get? b = some c ∧ c.expiresAt = none

/-- The call has created the bucket and is about to set its time to live. -/
def Creating (t : Thread api (Except Exn Unit)) (b : Str) : Prop :=
  ⟨.incr b, .ok 1⟩ ∈ t.log ∧ ∃ seconds k, t.code = .await (.expire b seconds) k

/-- The buckets without a time to live, and the calls that are about to set one. -/
def bucketDebts (P : Checks ι) : Debts ι Str where
  due := Unexpiring P.state.redis
  owes i b := ∃ t, P.threads i = some t ∧ Creating t b

/-- A bucket is created and the answer is lost, or its creator dies or fails before it expires. -/
def Orphans (P : Checks ι) : CheckEvent ι → Prop
  | .call .. => False
  | .die i => ∃ t b, P.threads i = some t ∧ Creating t b
  | .step i o => ∃ t, P.threads i = some t ∧
    ((∃ b k name, t.code = .await (.incr b) k ∧ P.state.redis.live o.now b = none ∧
      o.fault = some (.lostAck name)) ∨
    ∃ b seconds k name, t.code = .await (.expire b seconds) k ∧ o.fault = some (.raised name))

variable [DecidableEq ι]

def checked (P : Checks ι) (e : CheckEvent ι) : Checks ι := Pool.next exec P e.event

end

inductive Stands : Thread api (Except Exn Unit) → Prop
  | fresh (limit : Int) (key : Str) (out : List ServerEvent) :
    Stands ⟨[], out, (RateLimiter.check limit key).run⟩
  | read (limit : Int) (key : Str) (out : List ServerEvent) (time : Nat) :
    Stands ⟨[⟨.time, .ok time⟩], out, afterTime limit key time⟩
  | created (limit : Int) (key : Str) (out : List ServerEvent) (time : Nat) :
    Stands ⟨[⟨.time, .ok time⟩, ⟨.incr (bucket key (window time)), .ok 1⟩], out,
      afterIncr limit key time 1⟩
  | ended (l : Log api) (out : List ServerEvent) (r : Except Exn Unit) : Stands ⟨l, out, .ret r⟩

section

variable {l : Log api} {out : List ServerEvent} {b : Str} {limit : Int} {key : Str} {time : Nat}

theorem not_creating_ret {r : Except Exn Unit} : ¬Creating ⟨l, out, .ret r⟩ b := by
  rintro ⟨-, _, _, h⟩
  cases h

theorem not_creating_fresh : ¬Creating ⟨l, out, (RateLimiter.check limit key).run⟩ b := by
  rw [check_run]
  rintro ⟨-, _, _, h⟩
  cases h

theorem not_creating_read : ¬Creating ⟨l, out, afterTime limit key time⟩ b := by
  rintro ⟨-, _, _, h⟩
  cases h

theorem creating_created : Creating ⟨[⟨.time, .ok time⟩, ⟨.incr (bucket key (window time)), .ok 1⟩],
    out, afterIncr limit key time 1⟩ b ↔ b = bucket key (window time) := by
  constructor
  · rintro ⟨-, _, _, h⟩
    cases h
    rfl
  · rintro rfl
    exact ⟨by simp, _, _, rfl⟩

end

section

variable {r : Redis} {b b' : Str} {c : Counter} {now : Nat}

theorem incr_absent (h : r.live now b = none) : r.incr now b = (r.set b ⟨1, none⟩, 1) := by
  rw [Redis.incr, h]
  rfl

theorem incr_present (h : r.live now b = some c) :
    r.incr now b = (r.set b { c with count := c.count + 1 }, c.count + 1) := by
  rw [Redis.incr, h]
  rfl

theorem get?_of_live (h : r.live now b = some c) : r.get? b = some c :=
  (Option.filter_eq_some_iff.mp h).1

theorem Unexpiring.live (h : Unexpiring r b) : ∃ c, r.live now b = some c := by
  obtain ⟨-, c, hget, hnone⟩ := h
  refine ⟨c, Option.filter_eq_some_iff.mpr ⟨hget, ?_⟩⟩
  rw [hnone]
  rfl

theorem unexpiring_set : Unexpiring (r.set b c) b' ↔
    b' = b ∧ "ratelimit:".toList <+: b ∧ c.expiresAt = none ∨ b' ≠ b ∧ Unexpiring r b' := by
  by_cases hb : b' = b
  · subst hb
    simp [Unexpiring, Dict.get?_set_self]
  · simp [Unexpiring, Dict.get?_set_of_ne r c hb, hb]

theorem unexpiring_recount (h : r.get? b = some c) (n : Nat) :
    Unexpiring (r.set b { c with count := n }) b' ↔ Unexpiring r b' := by
  rw [unexpiring_set]
  by_cases hb : b' = b
  · subst hb
    simp [Unexpiring, h]
  · simp [hb]

theorem unexpiring_expire (h : Unexpiring r b) (seconds : Nat) :
    Unexpiring (r.expire now b seconds) b' ↔ b' ≠ b ∧ Unexpiring r b' := by
  obtain ⟨c, hlive⟩ := @Unexpiring.live r b now h
  rw [Redis.expire, hlive]
  dsimp only
  rw [unexpiring_set]
  simp

theorem not_unexpiring (h : r.live now b = none) : ¬Unexpiring r b := fun hb => by
  obtain ⟨c, hlive⟩ := @Unexpiring.live r b now hb
  rw [h] at hlive
  cases hlive

theorem prefix_bucket (key : Str) (n : Nat) : "ratelimit:".toList <+: bucket key n := by
  unfold bucket
  exact ((List.prefix_append _ key).trans (List.prefix_append _ _)).trans (List.prefix_append _ _)

theorem unexpiring_create {key : Str} {n : Nat} :
    Unexpiring (r.set (bucket key n) ⟨1, none⟩) b' ↔ b' = bucket key n ∨ Unexpiring r b' := by
  rw [unexpiring_set]
  constructor
  · rintro (⟨hb, -⟩ | ⟨-, h⟩)
    · exact .inl hb
    · exact .inr h
  · rintro (hb | h)
    · exact .inl ⟨hb, prefix_bucket key n, rfl⟩
    · by_cases hb : b' = bucket key n
      · exact .inl ⟨hb, prefix_bucket key n, rfl⟩
      · exact .inr ⟨hb, h⟩

def Tallied (r : Redis) : Prop := ∀ b c, r.get? b = some c → 1 ≤ c.count

theorem Tallied.set (h : Tallied r) (hc : 1 ≤ c.count) : Tallied (r.set b c) := by
  intro b' c' hget
  by_cases hb : b' = b
  · subst hb
    rw [Dict.get?_set_self] at hget
    exact Option.some.inj hget ▸ hc
  · exact h b' c' (by rwa [Dict.get?_set_of_ne r c hb] at hget)

theorem Tallied.incr (h : Tallied r) (now : Nat) (b : Str) : Tallied (r.incr now b).1 :=
  h.set (Nat.le_add_left 1 _)

theorem Tallied.expire (h : Tallied r) (now : Nat) (b : Str) (seconds : Nat) :
    Tallied (r.expire now b seconds) := by
  unfold Redis.expire
  split
  · exact h
  · next c hlive => exact h.set (h b c (get?_of_live hlive))

end

theorem exec_time (o : Oracle) (w : World) : exec o .time w = (w, .ok o.now) := by
  unfold exec
  cases o.fault <;> rfl

theorem exec_command {c : Call} (hc : c.instant = false) (o : Oracle) (w : World) :
    (o.fault = none ∧ exec o c w = serve o c w) ∨
    (∃ name, o.fault = some (.raised name) ∧ exec o c w = (w, .error (.other name))) ∨
    ∃ name, o.fault = some (.lostAck name) ∧
      exec o c w = ((serve o c w).1, .error (.other name)) := by
  unfold exec
  cases o.fault with
  | none => exact .inl ⟨rfl, rfl⟩
  | some f =>
    cases f with
    | raised name => exact .inr (.inl ⟨name, rfl, by rw [hc]; rfl⟩)
    | lostAck name => exact .inr (.inr ⟨name, rfl, by rw [hc]; rfl⟩)

section

variable {ι : Type} {P : Checks ι} {i : ι} {t : Thread api (Except Exn Unit)} {s : World}
variable {o : Oracle}

/-- All checks stand somewhere, and all counters have counted something. -/
structure Sane (P : Checks ι) : Prop where
  stands : ∀ i t, P.threads i = some t → Stands t
  counted : Tallied P.state.redis

theorem owes_of (hi : P.threads i = some t) {b : Str} : (bucketDebts P).owes i b ↔ Creating t b := by
  simp [bucketDebts, hi]

theorem orphans_incr {l : Log api} {out : List ServerEvent} {b : Str}
    {k : Except Exn Nat → Async api (Except Exn Unit)}
    (hi : P.threads i = some ⟨l, out, @Async.await api _ (.incr b) k⟩) : Orphans P (.step i o) ↔
      P.state.redis.live o.now b = none ∧ ∃ name, o.fault = some (.lostAck name) := by
  constructor
  · rintro ⟨t, ht, h⟩
    obtain rfl := Option.some.inj (hi.symm.trans ht)
    obtain ⟨b', k', name, hcode, hlive, hfault⟩ | ⟨b', seconds, k', name, hcode, -⟩ := h
    · cases hcode
      exact ⟨hlive, name, hfault⟩
    · cases hcode
  · rintro ⟨hlive, name, hfault⟩
    exact ⟨_, hi, .inl ⟨b, k, name, rfl, hlive, hfault⟩⟩

theorem orphans_expire {l : Log api} {out : List ServerEvent} {b : Str} {seconds : Nat}
    {k : Except Exn Unit → Async api (Except Exn Unit)}
    (hi : P.threads i = some ⟨l, out, @Async.await api _ (.expire b seconds) k⟩) :
    Orphans P (.step i o) ↔ ∃ name, o.fault = some (.raised name) := by
  constructor
  · rintro ⟨t, ht, h⟩
    obtain rfl := Option.some.inj (hi.symm.trans ht)
    obtain ⟨b', k', name, hcode, -⟩ | ⟨b', seconds', k', name, -, hfault⟩ := h
    · cases hcode
    · exact ⟨name, hfault⟩
  · rintro ⟨name, hfault⟩
    exact ⟨_, hi, .inr ⟨b, seconds, k, name, rfl, hfault⟩⟩

variable [DecidableEq ι]

theorem owes_update {u : Option (Thread api (Except Exn Unit))} {j : ι} {b : Str} :
    (bucketDebts (⟨s, Function.update P.threads i u⟩ : Checks ι)).owes j b ↔
      j = i ∧ (∃ t, u = some t ∧ Creating t b) ∨ j ≠ i ∧ (bucketDebts P).owes j b := by
  by_cases hj : j = i
  · subst hj
    simp [bucketDebts]
  · simp [bucketDebts, hj]

theorem Sane.update (h : Sane P) {u : Option (Thread api (Except Exn Unit))}
    (hu : ∀ t, u = some t → Stands t) (hs : Tallied s.redis) :
    Sane (⟨s, Function.update P.threads i u⟩ : Checks ι) where
  stands j t ht := by
    by_cases hj : j = i
    · subst hj
      exact hu t (by simpa using ht)
    · exact h.stands j t (by simpa [hj] using ht)
  counted := hs

theorem step_idle {u : Option (Thread api (Except Exn Unit))}
    (hold : ∀ b, ¬(bucketDebts P).owes i b) (hnew : ∀ t b, u = some t → ¬Creating t b)
    (hredis : ∀ b, Unexpiring s.redis b ↔ Unexpiring P.state.redis b) :
    Debts.Step (bucketDebts P) (bucketDebts (⟨s, Function.update P.threads i u⟩ : Checks ι)) := by
  refine .idle hredis fun j b => ?_
  rw [owes_update]
  by_cases hj : j = i
  · subst hj
    refine iff_of_false ?_ (hold b)
    rintro (⟨-, t, ht, hcreating⟩ | ⟨hne, -⟩)
    · exact hnew t b ht hcreating
    · exact hne rfl
  · simp [hj]

theorem owes_update_left {u : Option (Thread api (Except Exn Unit))}
    (hnew : ∀ t b, u = some t → ¬Creating t b) {j : ι} {b : Str} :
    (bucketDebts (⟨s, Function.update P.threads i u⟩ : Checks ι)).owes j b ↔
      j ≠ i ∧ (bucketDebts P).owes j b := by
  rw [owes_update]
  constructor
  · rintro (⟨-, t, ht, hcreating⟩ | h)
    · exact absurd hcreating (hnew t b ht)
    · exact h
  · exact .inr

theorem checked_await {l : Log api} {out : List ServerEvent} {c : Call}
    {k : Except Exn (Reply c) → Async api (Except Exn Unit)}
    (hi : P.threads i = some ⟨l, out, @Async.await api _ c k⟩) : checked P (.step i o) =
      ⟨(exec o c P.state).1, Function.update P.threads i
        (some ⟨l ++ [⟨c, (exec o c P.state).2⟩], out, k (exec o c P.state).2⟩)⟩ := by
  simp only [checked, CheckEvent.event, Pool.next, hi]

/-- The event is the breach it is held for, or a step of the debts. -/
def Deals (P : Checks ι) (e : CheckEvent ι) : Prop :=
  Sane (checked P e) ∧
    (Orphans P e ∧ Debts.Breach (bucketDebts P) (bucketDebts (checked P e)) ∨
      ¬Orphans P e ∧ Debts.Step (bucketDebts P) (bucketDebts (checked P e)))

theorem deals_call (h : Sane P) (limit : Int) (key : Str) : Deals P (.call i limit key) := by
  refine ⟨?_, .inr ⟨id, ?_⟩⟩
  · simp only [checked, CheckEvent.event, Pool.next]
    split
    · refine h.update (fun t ht => ?_) h.counted
      obtain rfl := Option.some.inj ht
      exact .fresh limit key []
    · exact h
  · simp only [checked, CheckEvent.event, Pool.next]
    split
    · next hi =>
      refine step_idle (fun b => ?_) (fun t b ht => ?_) fun b => Iff.rfl
      · rintro ⟨t, ht, -⟩
        rw [hi] at ht
        cases ht
      · obtain rfl := Option.some.inj ht
        exact not_creating_fresh
    · exact .idle (fun _ => Iff.rfl) fun _ _ => Iff.rfl

theorem deals_die (h : Sane P) : Deals P (.die i) := by
  have hnone (t : Thread api (Except Exn Unit)) (b : Str) (ht : none = some t) : ¬Creating t b := by
    cases ht
  refine ⟨h.update (fun t ht => by cases ht) h.counted, ?_⟩
  by_cases ho : Orphans P (.die i)
  · have ⟨t, b, ht, hb⟩ := ho
    exact .inl ⟨ho, .left i b ⟨t, ht, hb⟩ (fun _ => Iff.rfl) fun j b' => owes_update_left hnone⟩
  · refine .inr ⟨ho, step_idle (fun b hb => ?_) hnone fun _ => Iff.rfl⟩
    obtain ⟨t, ht, hcreating⟩ := hb
    exact ho ⟨t, b, ht, hcreating⟩

/-- A thread goes on as `t'`, in the world `s`. -/
theorem deals_step (h : Sane P) {t' : Thread api (Except Exn Unit)}
    (hnext : checked P (.step i o) = ⟨s, Function.update P.threads i (some t')⟩)
    (hstands : Stands t') (hcounted : Tallied s.redis)
    (hdebts : Orphans P (.step i o) ∧
        Debts.Breach (bucketDebts P) (bucketDebts ⟨s, Function.update P.threads i (some t')⟩) ∨
      ¬Orphans P (.step i o) ∧
        Debts.Step (bucketDebts P) (bucketDebts ⟨s, Function.update P.threads i (some t')⟩)) :
    Deals P (.step i o) := by
  unfold Deals
  rw [hnext]
  refine ⟨h.update (fun t ht => ?_) hcounted, hdebts⟩
  obtain rfl := Option.some.inj ht
  exact hstands

theorem deals_quietly (h : Sane P) (hi : P.threads i = some t) {t' : Thread api (Except Exn Unit)}
    (hnext : checked P (.step i o) = ⟨s, Function.update P.threads i (some t')⟩)
    (hstands : Stands t') (hcounted : Tallied s.redis) (ho : ¬Orphans P (.step i o))
    (hold : ∀ b, ¬Creating t b) (hnew : ∀ b, ¬Creating t' b)
    (hredis : ∀ b, Unexpiring s.redis b ↔ Unexpiring P.state.redis b) : Deals P (.step i o) := by
  refine deals_step h hnext hstands hcounted (.inr ⟨ho, step_idle (fun b => ?_) (fun t b ht => ?_)
    hredis⟩)
  · rw [owes_of hi]
    exact hold b
  · obtain rfl := Option.some.inj ht
    exact hnew b

theorem deals_fresh {limit : Int} {key : Str} {out : List ServerEvent} (h : Sane P)
    (hi : P.threads i = some ⟨[], out, (RateLimiter.check limit key).run⟩) :
    Deals P (.step i o) := by
  have ho : ¬Orphans P (.step i o) := by
    rintro ⟨t, ht, hcode⟩
    obtain rfl := Option.some.inj (hi.symm.trans ht)
    rw [check_run] at hcode
    obtain ⟨b, k, name, hcode, -⟩ | ⟨b, seconds, k, name, hcode, -⟩ := hcode
    · cases hcode
    · cases hcode
  refine deals_quietly h hi (s := P.state) ?_ (.read limit key out o.now) h.counted ho
    (fun b => not_creating_fresh) (fun b => not_creating_read) fun b => Iff.rfl
  rw [check_run] at hi
  rw [checked_await hi, exec_time]
  rfl

theorem deals_incur {t' : Thread api (Except Exn Unit)} {key : Str} {n : Nat} (h : Sane P)
    (hi : P.threads i = some t)
    (hnext : checked P (.step i o) = ⟨s, Function.update P.threads i (some t')⟩)
    (hstands : Stands t') (hcounted : Tallied s.redis) (ho : ¬Orphans P (.step i o))
    (hlive : P.state.redis.live o.now (bucket key n) = none) (hold : ∀ b, ¬Creating t b)
    (hnew : ∀ b, Creating t' b ↔ b = bucket key n)
    (hredis : s.redis = P.state.redis.set (bucket key n) ⟨1, none⟩) : Deals P (.step i o) := by
  have hi' (b : Str) : ¬(bucketDebts P).owes i b := by
    rw [owes_of hi]
    exact hold b
  refine deals_step h hnext hstands hcounted (.inr ⟨ho, .incur i (bucket key n)
    (not_unexpiring hlive) hi' (fun b => ?_) fun j b => ?_⟩)
  · change Unexpiring s.redis b ↔ _
    rw [hredis]
    exact unexpiring_create
  · rw [owes_update]
    constructor
    · rintro (⟨hj, t, ht, hcreating⟩ | ⟨-, hj⟩)
      · obtain rfl := Option.some.inj ht
        exact .inl ⟨hj, (hnew b).mp hcreating⟩
      · exact .inr hj
    · rintro (⟨hj, hb⟩ | hb)
      · exact .inl ⟨hj, t', rfl, (hnew b).mpr hb⟩
      · refine .inr ⟨?_, hb⟩
        rintro rfl
        exact hi' b hb

theorem deals_unowed {t' : Thread api (Except Exn Unit)} {key : Str} {n : Nat} (h : Sane P)
    (hi : P.threads i = some t)
    (hnext : checked P (.step i o) = ⟨s, Function.update P.threads i (some t')⟩)
    (hstands : Stands t') (hcounted : Tallied s.redis) (ho : Orphans P (.step i o))
    (hlive : P.state.redis.live o.now (bucket key n) = none) (hold : ∀ b, ¬Creating t b)
    (hnew : ∀ b, ¬Creating t' b)
    (hredis : s.redis = P.state.redis.set (bucket key n) ⟨1, none⟩) : Deals P (.step i o) := by
  refine deals_step h hnext hstands hcounted (.inl ⟨ho, .unowed (bucket key n)
    (not_unexpiring hlive) (fun b => ?_) fun j b => ?_⟩)
  · change Unexpiring s.redis b ↔ _
    rw [hredis]
    exact unexpiring_create
  · rw [owes_update_left fun t b ht => Option.some.inj ht ▸ hnew b]
    refine ⟨And.right, fun hb => ⟨?_, hb⟩⟩
    rintro rfl
    exact hold b ((owes_of hi).mp hb)

theorem deals_read {limit : Int} {key : Str} {out : List ServerEvent} {time : Nat} (h : Sane P)
    (hi : P.threads i = some ⟨[⟨.time, .ok time⟩], out, afterTime limit key time⟩) :
    Deals P (.step i o) := by
  have hnext := checked_await (o := o) hi
  have horphans := orphans_incr (o := o) hi
  have hcounted := h.counted.incr o.now (bucket key (window time))
  have hret {l : Log api} {r : Except Exn Unit} (b : Str) : ¬Creating ⟨l, out, .ret r⟩ b :=
    not_creating_ret
  have hread (b : Str) : ¬Creating ⟨[⟨.time, .ok time⟩], out, afterTime limit key time⟩ b :=
    not_creating_read
  obtain ⟨hfault, hexec⟩ | ⟨name, hfault, hexec⟩ | ⟨name, hfault, hexec⟩ :=
    exec_command (c := .incr (bucket key (window time))) rfl o P.state
  · rw [hexec] at hnext
    have ho : ¬Orphans P (.step i o) := by
      rw [horphans, hfault]
      rintro ⟨-, name, hname⟩
      cases hname
    simp only [serve] at hnext
    cases hlive : P.state.redis.live o.now (bucket key (window time)) with
    | none =>
      rw [incr_absent hlive] at hnext hcounted
      exact deals_incur h hi hnext (.created limit key out time) hcounted ho hlive hread
        (fun b => creating_created) rfl
    | some c =>
      rw [incr_present hlive] at hnext hcounted
      have hcount : c.count + 1 ≠ 1 := by
        have := h.counted _ c (get?_of_live hlive)
        omega
      simp only [afterIncr, hcount, if_false] at hnext
      exact deals_quietly h hi hnext (.ended ..) hcounted ho hread hret fun b =>
        unexpiring_recount (get?_of_live hlive) _
  · rw [hexec] at hnext
    refine deals_quietly h hi hnext (.ended ..) h.counted ?_ hread hret fun b => Iff.rfl
    rw [horphans, hfault]
    rintro ⟨-, name', hname⟩
    cases hname
  · rw [hexec] at hnext
    simp only [serve] at hnext
    cases hlive : P.state.redis.live o.now (bucket key (window time)) with
    | none =>
      rw [incr_absent hlive] at hnext hcounted
      exact deals_unowed h hi hnext (.ended ..) hcounted (horphans.mpr ⟨hlive, name, hfault⟩)
        hlive hread hret rfl
    | some c =>
      rw [incr_present hlive] at hnext hcounted
      refine deals_quietly h hi hnext (.ended ..) hcounted ?_ hread hret fun b =>
        unexpiring_recount (get?_of_live hlive) _
      rw [horphans, hlive]
      rintro ⟨hnone, -⟩
      cases hnone

theorem deals_created {limit : Int} {key : Str} {out : List ServerEvent} {time : Nat} (h : Sane P)
    (hs : (bucketDebts P).Sound) (hi : P.threads i = some
      ⟨[⟨.time, .ok time⟩, ⟨.incr (bucket key (window time)), .ok 1⟩], out,
        afterIncr limit key time 1⟩) : Deals P (.step i o) := by
  have howes : (bucketDebts P).owes i (bucket key (window time)) :=
    (owes_of hi).mpr (creating_created.mpr rfl)
  have hdue : Unexpiring P.state.redis (bucket key (window time)) := hs.due i _ howes
  have hcounted := h.counted.expire o.now (bucket key (window time)) (windowSeconds + 5)
  rw [afterIncr, if_pos rfl] at hi
  have hnext := checked_await (o := o) hi
  have horphans := orphans_expire (o := o) hi
  have hret {r : Except Exn Unit} {l : Log api} (t : Thread api (Except Exn Unit)) (b : Str)
      (ht : some ⟨l, out, .ret r⟩ = some t) : ¬Creating t b := Option.some.inj ht ▸ not_creating_ret
  obtain ⟨hfault, hexec⟩ | ⟨name, hfault, hexec⟩ | ⟨name, hfault, hexec⟩ :=
    exec_command (c := .expire (bucket key (window time)) (windowSeconds + 5)) rfl o P.state
  · rw [hexec] at hnext
    refine deals_step h hnext (.ended ..) hcounted (.inr ⟨?_, .settle i _ howes
      (fun b => unexpiring_expire hdue _) fun j b => owes_update_left hret⟩)
    rw [horphans, hfault]
    rintro ⟨name, hname⟩
    cases hname
  · rw [hexec] at hnext
    exact deals_step h hnext (.ended ..) h.counted (.inl ⟨horphans.mpr ⟨name, hfault⟩,
      .left i _ howes (fun b => Iff.rfl) fun j b => owes_update_left hret⟩)
  · rw [hexec] at hnext
    refine deals_step h hnext (.ended ..) hcounted (.inr ⟨?_, .settle i _ howes
      (fun b => unexpiring_expire hdue _) fun j b => owes_update_left hret⟩)
    rw [horphans, hfault]
    rintro ⟨name', hname⟩
    cases hname

theorem deals_nothing (h : Sane P) (hnext : checked P (.step i o) = P)
    (ho : ¬Orphans P (.step i o)) : Deals P (.step i o) := by
  unfold Deals
  rw [hnext]
  exact ⟨h, .inr ⟨ho, .idle (fun _ => Iff.rfl) fun _ _ => Iff.rfl⟩⟩

theorem deals (h : Sane P) (hs : (bucketDebts P).Sound) (e : CheckEvent ι) : Deals P e := by
  cases e with
  | call i limit key => exact deals_call h limit key
  | die i => exact deals_die h
  | step i o =>
    cases hi : P.threads i with
    | none =>
      refine deals_nothing h (by simp only [checked, CheckEvent.event, Pool.next, hi]) ?_
      rintro ⟨t, ht, -⟩
      rw [hi] at ht
      cases ht
    | some t =>
      have hstands := h.stands i t hi
      cases hstands with
      | fresh limit key out => exact deals_fresh h hi
      | read limit key out time => exact deals_read h hi
      | created limit key out time => exact deals_created h hs hi
      | ended l out r =>
        refine deals_nothing h (by simp only [checked, CheckEvent.event, Pool.next, hi]) ?_
        rintro ⟨t, ht, hcode⟩
        obtain rfl := Option.some.inj (hi.symm.trans ht)
        obtain ⟨b, k, name, hcode, -⟩ | ⟨b, seconds, k, name, hcode, -⟩ := hcode
        · cases hcode
        · cases hcode

theorem accounts : Debts.Accounts (checked (ι := ι)) bucketDebts Orphans Sane where
  keeps _ e h hs := (deals h hs e).1
  step _ e h hs ho := (deals h hs e).2.elim (fun hb => absurd hb.1 ho) And.right
  breach _ e h hs ho := (deals h hs e).2.elim And.right fun hb => absurd ho hb.1

end

/-- Every bucket has a time to live, but for those whose call is between its two commands. -/
def BucketsExpire {ι : Type} (P : Checks ι) : Prop :=
  ∀ b c, "ratelimit:".toList <+: b → P.state.redis.get? b = some c → c.expiresAt ≠ none ∨
    ∃ i t, P.threads i = some t ∧ Creating t b

def checks {ι : Type} [DecidableEq ι] (w : World) (es : List (CheckEvent ι)) : Checks ι :=
  es.foldl checked (Pool.init { w with redis := [] })

section

variable {ι : Type} (w : World)

theorem sane_init : Sane (Pool.init { w with redis := [] } : Checks ι) where
  stands i t ht := by cases ht
  counted b c hget := by cases hget

theorem sound_init : (bucketDebts (Pool.init { w with redis := [] } : Checks ι)).Sound where
  due i b h := by
    obtain ⟨t, ht, -⟩ := h
    cases ht
  single i b b' h := by
    obtain ⟨t, ht, -⟩ := h
    cases ht
  unique i j b h := by
    obtain ⟨t, ht, -⟩ := h
    cases ht

theorem covered_init : (bucketDebts (Pool.init { w with redis := [] } : Checks ι)).Covered := by
  rintro b ⟨-, c, hget, -⟩
  cases hget

theorem bucketsExpire_iff {P : Checks ι} : BucketsExpire P ↔ (bucketDebts P).Covered := by
  constructor
  · rintro h b ⟨hpre, c, hget, hnone⟩
    exact (h b c hpre hget).elim (fun hc => absurd hnone hc) id
  · intro h b c hpre hget
    by_cases hnone : c.expiresAt = none
    · exact .inr (h b ⟨hpre, c, hget, hnone⟩)
    · exact .inl hnone

/-- All along a run the buckets have a time to live, or are about to get one, exactly if none is
orphaned. -/
theorem buckets_expire_iff [DecidableEq ι] (es : List (CheckEvent ι)) :
    (∀ es', es' <+: es → BucketsExpire (checks w es')) ↔
      ∀ es' e, es' ++ [e] <+: es → ¬Orphans (checks w es') e := by
  refine Iff.trans ?_ (accounts.covered_iff (sane_init w) (sound_init w) (covered_init w))
  exact forall_congr' fun es' => imp_congr_right fun _ => bucketsExpire_iff

end

/-- Redis counts the first request of a window and is gone before EXPIRE. -/
theorem bucket_lingers :
    ¬∀ es : List (CheckEvent Unit), BucketsExpire (checks Sample.world es) := by
  intro h
  let es : List (CheckEvent Unit) := [.call () 60 "tenant:a".toList, .step () {}, .step () {},
    .step () { fault := some (.raised "ConnectionError".toList) }]
  have hended : ∃ l, (checks Sample.world es).threads () = some ⟨l, [], .ret (.ok ())⟩ := ⟨_, rfl⟩
  obtain hnone | ⟨⟨⟩, t, ht, hcreating⟩ :=
    h es "ratelimit:tenant:a:0".toList ⟨1, none⟩ (by decide) rfl
  · exact hnone rfl
  · obtain ⟨l, hl⟩ := hended
    obtain rfl := Option.some.inj (hl.symm.trans ht)
    exact not_creating_ret hcreating

end RagPlatform
