import RagPlatform.Gateway
import RagPlatform.Isolation.Answers

/-! Whole requests and deliveries ask alike in both runs. -/

namespace RagPlatform

open Lib

variable {t : Uuid} {v : View} {ext : External} {settings : Settings}

/-- Whatever the header says, at whatever time, it says it of this tenant. -/
def Speaks (ext : External) (settings : Settings) (t : Uuid) (authorization : Option Str) : Prop :=
  ∀ now c, claims ext settings authorization now = .ok c → c.tenantId = t

theorem like_getCurrentTenant {authorization : Option Str}
    (h : Speaks ext settings t authorization) :
    Like t (fun _ c c' => c = c' ∧ c.tenantId = t) v (getCurrentTenant ext settings authorization)
      (getCurrentTenant ext settings authorization) := by
  refine .bindEq (.same (c := .time) trivial) fun w _ time => ?_
  cases hc : claims ext settings authorization (time / 1000000) with
  | error e => exact .throw e
  | ok c =>
    rw [ofExcept_ok_bind]
    refine Like.bindEq (.same (c := .getCredential c.credentialId) trivial) fun u _ credential => ?_
    cases credential with
    | none => exact .throw _
    | some credential =>
      simp only
      split
      · exact .throw _
      · exact .pure fun _ _ => ⟨rfl, h _ c hc⟩

theorem like_hit (window : Nat) :
    Like t (fun _ => Eq) v (hit (bucket (rateLimitKey t) window))
      (hit (bucket (rateLimitKey t) window)) := by
  refine .bindEq (.same (c := .incr _) ⟨window, rfl⟩) fun w _ count => ?_
  split
  · exact .bindEq (.same (c := .expire _ _) ⟨window, rfl⟩) fun _ _ _ => .pureEq count
  · exact .pureEq count

theorem like_countHit (window : Nat) :
    Like t (fun _ => Eq) v (countHit (bucket (rateLimitKey t) window))
      (countHit (bucket (rateLimitKey t) window)) := by
  refine .tryEq (.bindEq (like_hit window) fun _ _ _ => .pureEq _) fun w _ e => ?_
  split
  · exact .pureEq none
  · exact .raise e

theorem like_check (limit : Int) :
    Like t (fun _ => Eq) v (RateLimiter.check limit (rateLimitKey t))
      (RateLimiter.check limit (rateLimitKey t)) := by
  refine .bindEq (.same (c := .time) trivial) fun w _ time =>
    .bindEq (like_countHit _) fun u _ count => ?_
  cases count with
  | none => exact .pureEq ()
  | some count =>
    simp only
    split
    · exact .raise _
    · exact .pureEq ()

abbrev LikeOutcome (t : Uuid) (v : View) (p p' : Io Outcome) : Prop :=
  Like t (fun w => w.Relates) v p p'

theorem like_plain {α : Type} {p p' : Io α} {f : α → Outcome} (h : Like t (fun _ => Eq) v p p')
    (hf : ∀ a g, Nominal.rename g (f a) = f a) (hn : ∀ a n, ¬ Nominal.Mentions (f a) n) :
    LikeOutcome t v (p >>= fun a => pure (f a)) (p' >>= fun a => pure (f a)) :=
  .bindEq h fun _ _ a => .pure fun w _ => ⟨(hf a w.name).symm, fun n h => absurd h (hn a n)⟩

theorem like_endpoint (endpoint : Endpoint) :
    LikeOutcome t v ((endpoint.job t).code ext settings) ((endpoint.job t).code ext settings) := by
  cases endpoint with
  | upload file => exact like_plain (like_uploadDocument file) (fun _ _ => rfl) fun _ _ h => h
  | uploadBatch files =>
    exact like_plain (like_uploadDocumentsBatch files) (fun _ _ => rfl) fun _ _ h => h
  | list limit offset =>
    exact like_plain (like_listDocuments limit offset) (fun _ _ => rfl) fun _ _ h => h
  | get documentId => exact like_plain (like_getDocument documentId) (fun _ _ => rfl) fun _ _ h => h
  | events documentId polls =>
    exact like_plain (like_documentEvents documentId polls) (fun _ _ => rfl) fun _ _ h => h
  | delete documentId =>
    exact like_plain (like_deleteDocument documentId) (fun _ _ => rfl) fun _ _ h => h
  | search body =>
    exact .bind (like_searchEndpoint settings body) fun _ _ _ _ h => .pure fun _ hw =>
      ⟨congrArg Outcome.results (h.mono hw.1).eq, (h.mono hw.1).known⟩
  | answer body =>
    exact .bind (like_answer settings body) fun _ _ _ _ h => .pure fun _ hw =>
      ⟨congrArg Outcome.answer (h.mono hw.1).eq, (h.mono hw.1).known⟩
  | usage days => exact like_plain (like_usageSummary days) (fun _ _ => rfl) fun _ _ h => h

theorem like_admitted {c : TokenClaims} (hc : c.tenantId = t) (endpoint : Endpoint) :
    LikeOutcome t v (admitted ext settings c endpoint) (admitted ext settings c endpoint) := by
  subst hc
  exact .bindEq (like_check settings.rateLimitPerMinute) fun _ _ _ => like_endpoint endpoint

theorem like_request {authorization : Option Str} (h : Speaks ext settings t authorization)
    (endpoint : Endpoint) :
    LikeOutcome t v ((Visit.request authorization endpoint).code ext settings)
      ((Visit.request authorization endpoint).code ext settings) :=
  .bind (like_getCurrentTenant h) fun _ _ _ _ hc => hc.1 ▸ like_admitted hc.2 endpoint

theorem like_deliver {documentId : Uuid} (h : documentId ∈ v.documents) (retries : Nat) :
    LikeOutcome t v ((Visit.deliver retries documentId).code ext settings)
      ((Visit.deliver retries documentId).code ext settings) :=
  like_plain (like_ingestDocument h retries) (fun _ _ => rfl) fun _ _ h => h

end RagPlatform
