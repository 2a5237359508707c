import Mathlib.Data.List.Induction
import RagPlatform.Lib.Replay
import RagPlatform.Lib.Tickets
import RagPlatform.RatelimitCheck

/-! How many requests of a tenant the rate limiter lets through. -/

namespace RagPlatform

open Lib

section

variable {ι : Type}

abbrev Checks (ι : Type) := Pool api World ι (Except Exn Unit)

variable (settings : Settings) (claims : ι → TokenClaims)

/-- Thread `i` is the check of one request, with a token of its own.  Nothing fails, and INCR comes
less than five seconds after the clock was read. -/
def throttling : Pool.Rules api World Oracle ι (Except Exn Unit) where
  spawn i p _ := p = (enforceRateLimit settings (claims i)).run
  step l o c _ := o.fault = none ∧
    ∀ key, c = .incr key → ∀ time, ⟨.time, .ok time⟩ ∈ l → o.now < time + 5000000

def clock : Event api Oracle ι (Except Exn Unit) → Option Nat
  | .step _ o => some o.now
  | _ => none

/-- A run of the checks by themselves, by one clock, none of them cut short. -/
structure Orderly [DecidableEq ι] (w : World) (es : List (Event api Oracle ι (Except Exn Unit))) :
    Prop where
  obeys : (Pool.init w : Checks ι).Obeys exec (throttling settings claims) es
  clock : (es.filterMap clock).Pairwise (· ≤ ·)
  whole : ∀ i, .kill i ∉ es

variable (P : Checks ι)

def ReadAt (i : ι) (time : Nat) : Prop :=
  ∃ t l, P.threads i = some t ∧ t.log = ⟨.time, .ok time⟩ :: l

/-- A request with this log has been counted as number `count` of a window. -/
def CountedAs (l : Log api) (n count : Nat) : Prop :=
  ∃ time key l', l = ⟨.time, .ok time⟩ :: ⟨.incr key, .ok count⟩ :: l' ∧ window time = n

def Holds (tenantId : Uuid) (n : Nat) (i : ι) (count : Nat) : Prop :=
  (claims i).tenantId = tenantId ∧ ∃ t, P.threads i = some t ∧ CountedAs t.log n count

structure Tally (tenantId : Uuid) : Prop where
  stage : ∀ i t, P.threads i = some t →
    Stage settings.rateLimitPerMinute (rateLimitKey (claims i).tenantId) t.log t.code
  kept : ∀ n, ∃ count, Drawn (Holds claims P tenantId n) count ∧
    Kept P.state.redis (rateLimitKey tenantId) n count

end

section

variable {l : Log api} {n c time : Nat}

theorem not_countedAs_nil : ¬ CountedAs [] n c := by
  rintro ⟨_, _, _, h, -⟩
  cases h

theorem not_countedAs_time : ¬ CountedAs [⟨.time, .ok time⟩] n c := by
  rintro ⟨_, _, _, h, -⟩
  cases h

theorem countedAs_cons {key : Str} {count : Nat} {l' : Log api} :
    CountedAs (⟨.time, .ok time⟩ :: ⟨.incr key, .ok count⟩ :: l') n c ↔
      window time = n ∧ c = count := by
  constructor
  · rintro ⟨_, _, _, h, hw⟩
    cases h
    exact ⟨hw, rfl⟩
  · rintro ⟨hw, rfl⟩
    exact ⟨_, _, _, rfl, hw⟩

end

section

variable {ι : Type} [DecidableEq ι] {settings : Settings} {claims : ι → TokenClaims}
variable {P : Checks ι} {i : ι} {t : Thread api (Except Exn Unit)} {tenantId : Uuid} {s : World}

theorem holds_update {n c : Nat} {j : ι} :
    Holds claims ⟨s, Function.update P.threads i (some t)⟩ tenantId n j c ↔
      j ≠ i ∧ Holds claims P tenantId n j c ∨
        j = i ∧ (claims i).tenantId = tenantId ∧ CountedAs t.log n c := by
  by_cases hj : j = i
  · subst hj
    simp [Holds]
  · simp [Holds, hj]

theorem holds_update_same {u : Option (Thread api (Except Exn Unit))} (hu : P.threads i = u)
    (h : ∀ n c, CountedAs t.log n c ↔ ∃ t', u = some t' ∧ CountedAs t'.log n c) {n c : Nat} {j : ι} :
    Holds claims ⟨s, Function.update P.threads i (some t)⟩ tenantId n j c ↔
      Holds claims P tenantId n j c := by
  rw [holds_update]
  by_cases hj : j = i
  · subst hj
    simp [Holds, hu, h]
  · simp [hj]

theorem Tally.update (h : Tally settings claims P tenantId)
    (hstage : Stage settings.rateLimitPerMinute (rateLimitKey (claims i).tenantId) t.log t.code)
    (hkept : ∀ n, ∃ count,
      Drawn (Holds claims ⟨s, Function.update P.threads i (some t)⟩ tenantId n) count ∧
        Kept s.redis (rateLimitKey tenantId) n count) :
    Tally settings claims ⟨s, Function.update P.threads i (some t)⟩ tenantId where
  stage j u hu := by
    by_cases hj : j = i
    · subst hj
      simp only [Function.update_self, Option.some.injEq] at hu
      exact hu ▸ hstage
    · simp only [Function.update_of_ne hj] at hu
      exact h.stage j u hu
  kept := hkept

theorem Tally.spawn (h : Tally settings claims P tenantId) (hi : P.threads i = none) :
    Tally settings claims (P.set i (some { code := (enforceRateLimit settings (claims i)).run }))
      tenantId := by
  refine Tally.update h .fresh fun n => ?_
  obtain ⟨count, hd, hk⟩ := h.kept n
  refine ⟨count, hd.congr fun j c => holds_update_same hi fun n c => ?_, hk⟩
  simp [not_countedAs_nil]

theorem Tally.carry (h : Tally settings claims P tenantId) {u : Option (Thread api (Except Exn Unit))}
    (hi : P.threads i = u)
    (hstage : Stage settings.rateLimitPerMinute (rateLimitKey (claims i).tenantId) t.log t.code)
    (hsame : ∀ n c, CountedAs t.log n c ↔ ∃ t', u = some t' ∧ CountedAs t'.log n c)
    (hkept : ∀ n count, Kept P.state.redis (rateLimitKey tenantId) n count →
      Kept s.redis (rateLimitKey tenantId) n count) :
    Tally settings claims ⟨s, Function.update P.threads i (some t)⟩ tenantId :=
  h.update hstage fun n => by
    obtain ⟨count, hd, hk⟩ := h.kept n
    exact ⟨count, hd.congr fun j c => holds_update_same hi hsame, hkept n count hk⟩

theorem bucket_ne {u : Uuid} {m n : Nat} (h : ¬ (tenantId = u ∧ m = n)) :
    bucket (rateLimitKey tenantId) m ≠ bucket (rateLimitKey u) n := by
  intro he
  obtain rfl := bucket_tenant he
  exact h ⟨rfl, bucket_window he⟩

theorem Tally.incr (h : Tally settings claims P tenantId) {out : List ServerEvent} {time : Nat}
    {code code' : Async api (Except Exn Unit)} {now : Nat} {key : Str}
    (hkey : key = bucket (rateLimitKey (claims i).tenantId) (window time))
    (hi : P.threads i = some ⟨[⟨.time, .ok time⟩], out, code⟩) (hnow : now < time + 5000000)
    (hs : s.redis = (P.state.redis.incr now key).1)
    (hstage : Stage settings.rateLimitPerMinute (rateLimitKey (claims i).tenantId)
      [⟨.time, .ok time⟩, ⟨.incr key, .ok (P.state.redis.incr now key).2⟩] code') :
    Tally settings claims ⟨s, Function.update P.threads i (some
      ⟨[⟨.time, .ok time⟩, ⟨.incr key, .ok (P.state.redis.incr now key).2⟩], out, code'⟩)⟩
      tenantId := by
  refine h.update hstage fun n => ?_
  obtain ⟨count, hd, hk⟩ := h.kept n
  have hnone (c : Nat) : ¬ Holds claims P tenantId n i c := by
    rintro ⟨-, t', ht', hc⟩
    rw [hi] at ht'
    obtain rfl := Option.some.inj ht'
    exact not_countedAs_time hc
  by_cases hhere : (claims i).tenantId = tenantId ∧ window time = n
  · obtain ⟨rfl, rfl⟩ := hhere
    have hbound := (window_bounds (rfl : window time = window time)).2
    obtain ⟨hcount, hkept⟩ := hk.incr (show now < (window time * 60 + 65) * 1000000 by omega)
    rw [← hkey] at hcount hkept
    refine ⟨count + 1, (hd.draw hnone).congr fun j c => ?_, hs ▸ hkept⟩
    rw [holds_update, countedAs_cons, hcount]
    by_cases hj : j = i
    · subst hj
      simp [hnone]
    · simp [hj]
  · refine ⟨count, hd.congr fun j c => ?_, ?_⟩
    · rw [holds_update, countedAs_cons]
      by_cases hj : j = i
      · subst hj
        simp only [ne_eq, not_true_eq_false, false_and, true_and, false_or, hnone, iff_false]
        exact fun ht => hhere ⟨ht.1, ht.2.1⟩
      · simp [hj]
    · rw [hs, hkey]
      exact hk.of_ne (bucket_ne hhere)

theorem Tally.step (h : Tally settings claims P tenantId) {o : Oracle}
    (ho : P.Allows (throttling settings claims) (.step i o))
    (hclock : ∀ t, P.threads i = some t → ∀ time, ⟨.time, .ok time⟩ ∈ t.log → time ≤ o.now) :
    Tally settings claims (P.next exec (.step i o)) tenantId := by
  cases hi : P.threads i with
  | none => simpa only [Pool.next, hi] using h
  | some t =>
    obtain ⟨l, out, code⟩ := t
    have hstage := h.stage i _ hi
    have htime := hclock _ hi
    generalize hlimit : settings.rateLimitPerMinute = limit at hstage
    simp only at hstage
    cases hstage with
    | fresh =>
      rw [check_run] at hi
      simp only [Pool.Allows, hi] at ho
      have hserve : exec o .time P.state = (P.state, .ok o.now) := exec_of_no_fault ho.1
      simp only [Pool.next, hi, hserve, List.nil_append]
      refine h.carry hi (hlimit ▸ .read o.now) (fun n c => ?_) fun _ _ hk => hk
      exact iff_of_false not_countedAs_time (by simp [not_countedAs_nil])
    | read time =>
      simp only [afterTime] at hi
      simp only [Pool.Allows, hi] at ho
      generalize hkey : bucket _ _ = key at hi ho
      have hserve : exec o (.incr key) P.state =
          ({ P.state with redis := (P.state.redis.incr o.now key).1 },
            .ok (P.state.redis.incr o.now key).2) := exec_of_no_fault ho.1
      simp only [Pool.next, hi, hserve, List.cons_append, List.nil_append]
      refine h.incr hkey.symm hi (ho.2 key rfl time (by simp)) rfl ?_
      rw [hlimit, ← hkey]
      generalize (P.state.redis.incr o.now _).2 = count
      by_cases hfirst : count = 1
      · subst hfirst
        exact .first time
      · simp only [afterIncr, hfirst, if_false]
        exact .decided time count []
    | first time =>
      simp only [afterIncr, if_true] at hi
      simp only [Pool.Allows, hi] at ho
      generalize hkey : bucket _ _ = key at hi ho
      have hserve : exec o (.expire key (windowSeconds + 5)) P.state =
          ({ P.state with redis := P.state.redis.expire o.now key (windowSeconds + 5) }, .ok ()) :=
        exec_of_no_fault ho.1
      simp only [Pool.next, hi, hserve, List.cons_append, List.nil_append]
      rw [← hkey] at hi ⊢
      refine h.carry hi (hlimit ▸ .decided time 1 _) (fun n c => ?_) fun n count hk => ?_
      · simp only [Option.some.injEq, exists_eq_left']
        exact countedAs_cons.trans countedAs_cons.symm
      · by_cases hhere : (claims i).tenantId = tenantId ∧ window time = n
        · obtain ⟨rfl, rfl⟩ := hhere
          have hread : time ≤ o.now := htime time (by simp)
          exact hk.expire ((window_bounds rfl).1.trans hread)
        · exact hk.expire_of_ne (bucket_ne hhere)
    | decided time count l => simpa only [Pool.next, hi] using h

end

section

variable {ι : Type} [DecidableEq ι] {settings : Settings} {claims : ι → TokenClaims} {w : World}
variable {es : List (Event api Oracle ι (Except Exn Unit))} {tenantId : Uuid}

theorem read_le {i : ι} {t : Thread api (Except Exn Unit)} {o : Oracle} {time : Nat}
    (hclock : ((es ++ [Event.step i o]).filterMap clock).Pairwise (· ≤ ·))
    (ht : ((Pool.init w : Checks ι).run exec es).threads i = some t)
    (hmem : ⟨.time, .ok time⟩ ∈ t.log) : time ≤ o.now := by
  obtain ⟨l, l', hl⟩ := List.append_of_mem hmem
  obtain ⟨before, o', after, out, k, rfl, -, hx⟩ := Pool.exists_step_of_log rfl ht hl
  have hnow : time = o'.now := by
    rcases exec_cases o' .time ((Pool.init w : Checks ι).run exec before).state with he | ⟨_, he, -⟩
    · rw [he] at hx
      exact Except.ok.inj hx
    · rw [he] at hx
      cases hx
  rw [List.filterMap_append, List.pairwise_append] at hclock
  rw [hnow]
  exact hclock.2.2 _ (List.mem_filterMap.mpr ⟨.step i o', by simp, rfl⟩) _ (by simp [clock])

theorem Orderly.init {e : Event api Oracle ι (Except Exn Unit)}
    (h : Orderly settings claims w (es ++ [e])) : Orderly settings claims w es where
  obeys := ((Pool.obeys_append exec _ es [e] _).mp h.obeys).1
  clock := by
    have hc := h.clock
    rw [List.filterMap_append, List.pairwise_append] at hc
    exact hc.1
  whole i hi := h.whole i (List.mem_append_left _ hi)

theorem tally (hw : ∀ n, w.redis.get? (bucket (rateLimitKey tenantId) n) = none)
    (h : Orderly settings claims w es) :
    Tally settings claims ((Pool.init w : Checks ι).run exec es) tenantId := by
  induction es using List.reverseRecOn with
  | nil =>
    refine ⟨fun i t ht => (by cases ht), fun n => ⟨0, .zero ?_, hw n⟩⟩
    rintro i c ⟨-, t, ht, -⟩
    cases ht
  | append_singleton es e ih =>
    have hp := ih h.init
    have he := ((Pool.obeys_append exec _ es [e] _).mp h.obeys).2.1
    rw [Pool.run_append, Pool.run_cons, Pool.run_nil]
    cases e with
    | spawn i p =>
      obtain rfl : p = (enforceRateLimit settings (claims i)).run := he
      cases hi : ((Pool.init w : Checks ι).run exec es).threads i with
      | none =>
        simp only [Pool.next, hi]
        exact hp.spawn hi
      | some t => simpa only [Pool.next, hi] using hp
    | kill i => exact absurd (List.mem_append_right _ (List.mem_singleton_self _)) (h.whole i)
    | step i o => exact hp.step he fun t ht time hmem => read_le h.clock ht hmem

end

def AllEnded {ι : Type} (P : Checks ι) : Prop := ∀ i t, P.threads i = some t → ∃ r, t.code = .ret r

def Ended {ι : Type} (P : Checks ι) (i : ι) (r : Except Exn Unit) : Prop :=
  ∃ t, P.threads i = some t ∧ t.code = .ret r

/-- The requests of the tenant by the window of their clock reading. -/
def made {ι : Type} (claims : ι → TokenClaims) (P : Checks ι) (tenantId : Uuid) (n : Nat) : Set ι :=
  {i | (claims i).tenantId = tenantId ∧ ∃ time, ReadAt P i time ∧ window time = n}

section

variable {ι : Type} {settings : Settings} {claims : ι → TokenClaims} {P : Checks ι}
variable {tenantId : Uuid}

theorem Tally.ended (h : Tally settings claims P tenantId) (hall : AllEnded P) {i : ι}
    {time : Nat} (hi : (claims i).tenantId = tenantId) (hread : ReadAt P i time) :
    ∃ count, Holds claims P tenantId (window time) i count ∧
      ∀ r, Ended P i r ↔ r = ruling settings.rateLimitPerMinute time count := by
  obtain ⟨t, l, ht, hl⟩ := hread
  obtain ⟨r, hr⟩ := hall i t ht
  have hstage := h.stage i t ht
  rw [hr] at hstage
  obtain ⟨time', count, l', hlog, rfl⟩ := hstage.ended
  rw [hl] at hlog
  cases hlog
  refine ⟨count, ⟨hi, t, ht, time, _, l', hl, rfl⟩, fun r => ?_⟩
  constructor
  · rintro ⟨t', ht', hr'⟩
    rw [ht] at ht'
    obtain rfl := Option.some.inj ht'
    rw [hr] at hr'
    injection hr' with hr'
    exact hr'.symm
  · rintro rfl
    exact ⟨t, ht, hr⟩

theorem Holds.read {n count : Nat} {i : ι} (h : Holds claims P tenantId n i count) :
    ∃ time, ReadAt P i time ∧ window time = n := by
  obtain ⟨-, t, ht, time, key, l, hl, hn⟩ := h
  exact ⟨time, ⟨t, _, ht, hl⟩, hn⟩

theorem Tally.made_eq (h : Tally settings claims P tenantId) (hall : AllEnded P) (n : Nat) :
    made claims P tenantId n = {i | ∃ count, Holds claims P tenantId n i count} := by
  ext i
  constructor
  · rintro ⟨hi, time, hread, rfl⟩
    obtain ⟨count, hc, -⟩ := h.ended hall hi hread
    exact ⟨count, hc⟩
  · rintro ⟨count, hc⟩
    exact ⟨hc.1, hc.read⟩

theorem Tally.admitted_eq (h : Tally settings claims P tenantId) (hall : AllEnded P)
    (hlimit : 0 ≤ settings.rateLimitPerMinute) (n : Nat) :
    {i ∈ made claims P tenantId n | Ended P i (.ok ())} =
      {i | ∃ count ≤ settings.rateLimitPerMinute.toNat, Holds claims P tenantId n i count} := by
  obtain ⟨total, hd, -⟩ := h.kept n
  ext i
  constructor
  · rintro ⟨⟨hi, time, hread, rfl⟩, hok⟩
    obtain ⟨count, hc, hended⟩ := h.ended hall hi hread
    exact ⟨count, (ruling_ok hlimit).mp ((hended _).mp hok).symm, hc⟩
  · rintro ⟨count, hle, hc⟩
    obtain ⟨time, hread, rfl⟩ := hc.read
    obtain ⟨count', hc', hended⟩ := h.ended hall hc.1 hread
    obtain rfl := hd.once hc hc'
    exact ⟨⟨hc.1, time, hread, rfl⟩, (hended _).mpr ((ruling_ok hlimit).mpr hle).symm⟩

end

namespace Sample

def strict : Settings := { rateLimitPerMinute := 1 }

def rivals (i : Nat) : TokenClaims := ⟨⟨1⟩, ⟨i⟩⟩

def rival (i : Nat) : Event api Oracle Nat (Except Exn Unit) :=
  .spawn i (enforceRateLimit strict (rivals i)).run

def tick (i seconds : Nat) : Event api Oracle Nat (Except Exn Unit) :=
  .step i { now := seconds * 1000000 }

/-- The second request is counted after the window in which it was made. -/
def rush : List (Event api Oracle Nat (Except Exn Unit)) :=
  [rival 0, rival 1, tick 0 58, tick 1 59, tick 0 60, tick 0 60, tick 1 63]

def isThrottling (l : Log api) (o : Oracle) (c : Call) (_ : World) : Bool :=
  o.fault.isNone && match c with
    | .incr _ => l.all fun x =>
      match x with
      | ⟨.time, .ok time⟩ => o.now < time + 5000000
      | _ => true
    | _ => true

theorem throttling_of_isThrottling (l : Log api) (o : Oracle) (c : Call) (w : World)
    (h : isThrottling l o c w = true) : (throttling strict rivals).step l o c w := by
  simp only [isThrottling, Bool.and_eq_true, Option.isNone_iff_eq_none] at h
  refine ⟨h.1, ?_⟩
  rintro key rfl time hmem
  simpa using List.all_eq_true.mp h.2 _ hmem

theorem orderly_rush : Orderly strict rivals {} rush where
  obeys := by
    refine Pool.obeys_of_checks exec throttling_of_isThrottling (fun i p hp s => ?_) (by decide)
    simp [rush, rival, tick] at hp
    rcases hp with ⟨rfl, rfl⟩ | ⟨rfl, rfl⟩
    · rfl
    · rfl
  clock := by decide
  whole i hi := by simp [rush, rival, tick] at hi

theorem ended_rush : AllEnded ((Pool.init {} : Checks Nat).run exec rush) := by
  intro i t ht
  match i with
  | 0 => cases ht; exact ⟨_, rfl⟩
  | 1 => cases ht; exact ⟨_, rfl⟩
  | i + 2 => cases ht

end Sample

end RagPlatform
