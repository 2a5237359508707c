import RagPlatform.Frontend.Proxy
import RagPlatform.Lib.Replay

/-! What the parts of the proxy await, and how they end. -/

namespace RagPlatform

open Lib

def WebCall.isUpstream : WebCall → Bool
  | .fetchUpstream _ => true
  | _ => false

section

variable {origin : Url.Origin} {req : NextRequest} {P : web.Req → Prop}

theorem only_await {call : WebCall} (h : P call) : OnlyE P (await call) := ⟨h, fun _ => trivial⟩

theorem only_fulfilled {α : Type} (a : Option α) : OnlyE P (fulfilled a) := by
  cases a with
  | none => exact .throw _
  | some a => exact .pure a

theorem only_tokenFor (h : ∀ call : WebCall, call.isUpstream = false → P call) (id : Nat)
    (session : Web.Session) (now : Int) (force : Bool) :
    OnlyE P (tokenFor origin id session now force) := by
  unfold tokenFor
  split
  · exact .pure _
  · refine .bind (only_await (h _ rfl)) fun x => .bind (only_fulfilled x) fun status => ?_
    split
    · exact .bind (only_await (h _ rfl)) fun x => only_fulfilled x
    · exact .throw _

theorem only_readBody (hform : P .formData) (htext : P .text) : OnlyE P (readBody req) := by
  unfold readBody
  split
  · split
    · exact .bind (only_await hform) fun x => .bind (only_fulfilled x) fun _ => .pure _
    · exact .bind (only_await htext) fun x => .bind (only_fulfilled x) fun _ => .pure _
  · exact .pure _

end

def liveSession : Web.Session := ⟨[], [], some ['t'], 60001⟩

theorem cachedToken_live : cachedToken liveSession 0 false = some ['t'] := by decide

section

variable {α β : Type} {l : Log web} {call : WebCall}

theorem done_await_bind {f : call.Resp → Web β} {b : Except WebError β} :
    Done (await call >>= f) l b ↔ ∃ x l', l = ⟨call, x⟩ :: l' ∧ Done (f x) l' b := by
  constructor
  · intro h
    exact Async.Replays.returns h
  · rintro ⟨x, l', rfl, h⟩
    exact .await h

theorem done_fulfilled {a : Option α} {b : Except WebError α} :
    Done (fulfilled a) l b ↔ l = [] ∧ b = a.elim (.error .rejected) .ok := by
  cases a with
  | none => exact done_throw
  | some a => exact done_pure

theorem done_fulfilled_bind {a : Option α} {f : α → Web β} {b : Except WebError β} :
    Done (fulfilled a >>= f) l b ↔
      (∃ v, a = some v ∧ Done (f v) l b) ∨ a = none ∧ l = [] ∧ b = .error .rejected := by
  cases a with
  | none =>
    constructor
    · intro h
      exact .inr ⟨rfl, done_throw.mp h⟩
    · rintro (⟨v, hv, -⟩ | ⟨-, h⟩)
      · cases hv
      · exact done_throw.mpr h
  | some a =>
    constructor
    · intro h
      exact .inl ⟨a, rfl, h⟩
    · rintro (⟨v, hv, h⟩ | ⟨hnone, -⟩)
      · cases hv
        exact h
      · cases hnone

end

section

variable {origin : Url.Origin} {req : NextRequest} {path : List Str} {l : Log web}

theorem done_token {id : Nat} {session : Web.Session} {now : Int} {force : Bool}
    {b : Except WebError (Option Str)}
    (h : Done (tryCatch (some <$> tokenFor origin id session now force) fun _ => pure none) l b) :
    ∃ c, Done (tokenFor origin id session now force) l c ∧ b = .ok c.toOption := by
  obtain ⟨a, ha, rfl⟩ | ⟨l₁, l₂, e, rfl, he, hb⟩ := done_tryCatch.mp h
  · obtain ⟨e | t, hc, heq⟩ := done_map.mp ha
    · cases heq
    · cases heq
      exact ⟨.ok t, hc, rfl⟩
  · obtain ⟨rfl, rfl⟩ := done_pure.mp hb
    obtain ⟨c, hc, heq⟩ := done_map.mp he
    cases c with
    | error e => exact ⟨.error e, by rwa [List.append_nil], rfl⟩
    | ok t => cases heq

theorem done_refresh {id : Nat} {session : Web.Session} {now : Int} {b : Except WebError Str}
    (h : Done (tokenFor origin id session now true) l b) :
    (∃ t status, b = .ok t ∧ l = [⟨.fetchToken (tokenUrl origin) session.clientId
      session.clientSecret, some status⟩, ⟨.keepToken id, some t⟩]) ∨
      ∃ e, b = .error e ∧ ∀ id t, ⟨.keepToken id, some t⟩ ∉ l := by
  have hcached : cachedToken session now true = none := rfl
  unfold tokenFor at h
  rw [hcached] at h
  obtain ⟨x, l₁, rfl, h₁⟩ := done_await_bind.mp h
  obtain ⟨status, rfl, h₂⟩ | ⟨rfl, rfl, rfl⟩ := done_fulfilled_bind.mp h₁
  · split at h₂
    · obtain ⟨y, l₂, rfl, h₃⟩ := done_await_bind.mp h₂
      obtain ⟨rfl, rfl⟩ := done_fulfilled.mp h₃
      cases y with
      | some t => exact .inl ⟨t, status, rfl, rfl⟩
      | none => exact .inr ⟨_, rfl, by simp⟩
    · obtain ⟨rfl, rfl⟩ := done_throw.mp h₂
      exact .inr ⟨_, rfl, by simp⟩
  · exact .inr ⟨_, rfl, by simp⟩

end

end RagPlatform
