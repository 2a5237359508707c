import RagPlatform.Lib.Replay

/-! Where the things come from that a computation hands out: from the answers it has had. -/

namespace RagPlatform.Lib

variable {S : Signature} {σ ω ι α β ε : Type}

/-- What answers hold, and what may be asked for and handed out in view of that. -/
structure Policy (S : Signature) where
  told : (r : S.Req) → S.Resp r → Prop
  asks : S.Req → Prop
  shows : S.Out → Prop

/-- With answers as the policy has them, `p` keeps to the policy and ends in `Q`. -/
def Async.Follows (π : Policy S) (Q : α → Prop) : Async S α → Prop
  | .ret a => Q a
  | .emit y p => π.shows y ∧ p.Follows π Q
  | .await r k => π.asks r ∧ ∀ x, π.told r x → (k x).Follows π Q

namespace Async.Follows

variable {π : Policy S} {Q Q' : α → Prop} {p : Async S α}

theorem mono (h : p.Follows π Q) (hQ : ∀ a, Q a → Q' a) : p.Follows π Q' := by
  induction p with
  | ret a => exact hQ a h
  | emit y p ih => exact ⟨h.1, ih h.2⟩
  | await r k ih => exact ⟨h.1, fun x hx => ih x (h.2 x hx)⟩

theorem bind {f : α → Async S β} {Q : β → Prop} (h : p.Follows π fun a => (f a).Follows π Q) :
    (p.bind f).Follows π Q := by
  induction p with
  | ret a => exact h
  | emit y p ih => exact ⟨h.1, ih h.2⟩
  | await r k ih => exact ⟨h.1, fun x hx => ih x (h.2 x hx)⟩

end Async.Follows

/-- What is returned satisfies `R`; an exception may carry anything. -/
def FollowsE (π : Policy S) (R : α → Prop) (q : ExceptT ε (Async S) α) : Prop :=
  q.run.Follows π fun r => ∀ a, r = .ok a → R a

namespace FollowsE

variable {π : Policy S} {R : α → Prop} {R' : β → Prop} {q : ExceptT ε (Async S) α}

theorem pure {a : α} (h : R a) : FollowsE π R (Pure.pure a : ExceptT ε (Async S) α) :=
  fun _ ha => Except.ok.inj ha ▸ h

theorem throw (e : ε) : FollowsE π R (MonadExcept.throw e : ExceptT ε (Async S) α) :=
  fun _ ha => by cases ha

theorem bind {f : α → ExceptT ε (Async S) β} (h : FollowsE π R q)
    (hf : ∀ a, R a → FollowsE π R' (f a)) : FollowsE π R' (q >>= f) := by
  refine Async.Follows.bind (Async.Follows.mono h fun r hr => ?_)
  cases r with
  | ok a => exact hf a (hr a rfl)
  | error e => exact throw e

theorem tryCatch {f : ε → ExceptT ε (Async S) α} (h : FollowsE π R q)
    (hf : ∀ e, FollowsE π R (f e)) : FollowsE π R (MonadExcept.tryCatch q f) := by
  refine Async.Follows.bind (Async.Follows.mono h fun r hr => ?_)
  cases r with
  | ok a => exact pure (hr a rfl)
  | error e => exact hf e

end FollowsE

namespace Pool

variable [DecidableEq ι] {exec : Exec S σ ω}

def Visits (exec : Exec S σ ω) (P : Pool S σ ι α) (es : List (Event S ω ι α)) (s : σ) : Prop :=
  ∃ before, before <+: es ∧ s = (P.run exec before).state

theorem Visits.keeps {I : σ → Prop} (hI : ∀ o r s, I s → I (exec o r s).1) {P : Pool S σ ι α}
    (hP : I P.state) {es : List (Event S ω ι α)} {s : σ} (h : P.Visits exec es s) : I s := by
  obtain ⟨before, -, rfl⟩ := h
  clear es
  induction before generalizing P with
  | nil => exact hP
  | cons e before ih =>
    refine ih ?_
    cases e with
    | kill i => exact hP
    | spawn i p =>
      simp only [Pool.next]
      split
      · exact hP
      · exact hP
    | step i o =>
      cases hi : P.threads i with
      | none => simpa only [Pool.next, hi] using hP
      | some t =>
        obtain ⟨l, out, code⟩ := t
        cases code with
        | ret a => simpa only [Pool.next, hi] using hP
        | emit y p => simpa only [Pool.next, hi, set_state] using hP
        | await r k => simpa only [Pool.next, hi] using hI o r _ hP

/-- A thread that was not there at first: where the answers it gets are as the policy has them, all
it has asked for and handed out since keeps to the policy. -/
theorem follows_run {π : Policy S} {Q : α → Prop} {P : Pool S σ ι α} {i : ι}
    (hP : P.threads i = none) {es : List (Event S ω ι α)}
    (hspawn : ∀ p, .spawn i p ∈ es → p.Follows π Q)
    (htold : ∀ before o r, before ++ [.step i o] <+: es → (∃ l out k,
      (P.run exec before).threads i = some ⟨l, out, .await r k⟩) →
        π.told r (exec o r (P.run exec before).state).2)
    {t : Thread S α} (h : (P.run exec es).threads i = some t) :
    t.code.Follows π Q ∧ (∀ y ∈ t.out, π.shows y) ∧ ∀ e ∈ t.log, π.asks e.1 := by
  induction es using List.reverseRecOn generalizing t with
  | nil =>
    rw [run_nil, hP] at h
    cases h
  | append_singleton es e ih =>
    rw [run_append, run_cons, run_nil] at h
    have hold {u : Thread S α} (hu : (P.run exec es).threads i = some u) :=
      ih (fun p hp => hspawn p (List.mem_append_left _ hp))
        (fun before o r hb => htold before o r (hb.trans (List.prefix_append _ _))) hu
    cases came h with
    | same hu => exact hold hu
    | spawned p =>
      refine ⟨hspawn p (List.mem_append_right _ (List.mem_singleton_self _)), ?_, ?_⟩
      · exact fun y hy => absurd hy List.not_mem_nil
      · exact fun e he => absurd he List.not_mem_nil
    | emitted hu =>
      obtain ⟨⟨hy, hcode⟩, hout, hlog⟩ := hold hu
      refine ⟨hcode, fun z hz => ?_, hlog⟩
      rcases List.mem_append.mp hz with hz | hz
      · exact hout z hz
      · exact List.mem_singleton.mp hz ▸ hy
    | @answered o l out r k hu =>
      obtain ⟨⟨hr, hk⟩, hout, hlog⟩ := hold hu
      refine ⟨hk _ (htold es o r (List.prefix_refl _) ⟨l, out, k, hu⟩), hout, fun e he => ?_⟩
      rcases List.mem_append.mp he with he | he
      · exact hlog e he
      · exact List.mem_singleton.mp he ▸ hr

end Pool

end RagPlatform.Lib
