import RagPlatform.ProxyPaths

/-! What a proxied request does when upstream refuses the token it came with. -/

namespace RagPlatform

open Lib

def WebCall.readsBody : WebCall → Bool
  | .formData | .text => true
  | _ => false

def upstreamSent : Log web → List (UpstreamRequest × Option UpstreamResponse)
  | [] => []
  | ⟨.fetchUpstream r, x⟩ :: l => (r, x) :: upstreamSent l
  | _ :: l => upstreamSent l

def Rejected : (c : WebCall) × c.Resp → Prop
  | ⟨.formData, x⟩ => x = none
  | ⟨.text, x⟩ => x = none
  | _ => False

def ReadOnce (l : Log web) : Prop :=
  l.Pairwise fun e e' => e.1.readsBody = true → e'.1.readsBody = true → Rejected e'

/-- No request is attempted more than twice, and if the first attempt is answered with 401 and a
fresh token is issued then, the second is the first one with that token, and answers the client. -/
structure RefreshesOnce (origin : Url.Origin) (req : NextRequest) (path : List Str) : Prop where
  twice : ∀ l q, (proxy origin req path).run.Replays l q → (upstreamSent l).length ≤ 2
  retried : ∀ before r u after id t b,
    Done (proxy origin req path) (before ++ ⟨.fetchUpstream r, some u⟩ :: after) b →
    ReadOnce (before ++ ⟨.fetchUpstream r, some u⟩ :: after) → upstreamSent before = [] →
    u.status = 401 → ⟨.keepToken id, some t⟩ ∈ after →
    ∃ r' x, upstreamSent after = [(r', x)] ∧
      r' = { r with authorization := "Bearer ".toList ++ t } ∧
      ∀ u', x = some u' → b = .ok (passOn u')

theorem length_upstreamSent (l : Log web) :
    (upstreamSent l).length = l.countP fun e => e.1.isUpstream := by
  induction l with
  | nil => rfl
  | cons e l ih =>
    obtain ⟨c, x⟩ := e
    cases c with
    | fetchUpstream r => simp [upstreamSent, WebCall.isUpstream, ih]
    | _ => simp [upstreamSent, WebCall.isUpstream, ih]

theorem upstreamSent_append (l l' : Log web) :
    upstreamSent (l ++ l') = upstreamSent l ++ upstreamSent l' := by
  induction l with
  | nil => rfl
  | cons e l ih =>
    obtain ⟨c, x⟩ := e
    cases c with
    | fetchUpstream r => simp [upstreamSent, ih]
    | _ => simp [upstreamSent, ih]

section

variable {origin : Url.Origin} {req : NextRequest} {path : List Str} {l : Log web}

def Local (c : web.Req) : Prop := WebCall.isUpstream c = false

theorem upstreamSent_of_local (h : ∀ e ∈ l, Local e.1) : upstreamSent l = [] := by
  refine List.length_eq_zero_iff.mp ((length_upstreamSent l).trans ?_)
  exact List.countP_eq_zero.mpr fun e he => by simp [show e.1.isUpstream = false from h e he]

theorem upstreamSent_tokenFor {id : Nat} {session : Web.Session} {now : Int} {force : Bool}
    {b : Except WebError Str} (h : Done (tokenFor origin id session now force) l b) :
    upstreamSent l = [] :=
  upstreamSent_of_local (Async.Only.log (only_tokenFor (fun _ hc => hc) id session now force) h)

def bodiless (origin : Url.Origin) (req : NextRequest) (path : List Str) (token : Str) :
    UpstreamRequest where
  method := req.method
  url := upstreamUrl origin path req.search
  authorization := "Bearer ".toList ++ token
  contentType := none
  body := none

/-- The token of a log, if it has one that was issued in it, is this. -/
def Fresh (l : Log web) (token : Str) : Prop := ∀ id t, ⟨.keepToken id, some t⟩ ∈ l → t = token

/-- A token that is issued for the second attempt is the one it sends, and without one none is
kept. -/
theorem kept_refresh {id : Nat} {session : Web.Session} {now : Int} {c : Except WebError Str}
    (h : Done (tokenFor origin id session now true) l c) :
    (∀ token, c = .ok token → Fresh l token) ∧
      ∀ e, c = .error e → ∀ id t, ⟨.keepToken id, some t⟩ ∉ l := by
  obtain ⟨t, status, rfl, rfl⟩ | ⟨e, rfl, hkept⟩ := done_refresh h
  · refine ⟨fun token htoken id' t' ht => ?_, fun e he => by cases he⟩
    cases htoken
    exact (by simpa using ht : id' = id ∧ t' = t).2
  · refine ⟨fun token htoken => ?_, fun _ _ id' t => hkept id' t⟩
    cases htoken

theorem done_retry {p : Web ProxyResponse} {u : UpstreamResponse} {b : Except WebError ProxyResponse}
    (h : Done (if u.status = 401 then p else pure (passOn u)) l b) :
    (u.status ≠ 401 ∧ l = [] ∧ b = .ok (passOn u)) ∨ (u.status = 401 ∧ Done p l b) := by
  by_cases h401 : u.status = 401
  · rw [if_pos h401] at h
    exact .inr ⟨h401, h⟩
  · rw [if_neg h401] at h
    obtain ⟨rfl, rfl⟩ := done_pure.mp h
    exact .inl ⟨h401, rfl, rfl⟩

theorem done_attempt {again : Option (Web ProxyResponse)} {b : Except WebError ProxyResponse}
    (hm : req.method ≠ .post) (h : Done (attempt origin req path again) l b) :
    (upstreamSent l = [] ∧ (again = none → ∀ id t, ⟨.keepToken id, some t⟩ ∉ l)) ∨
      ∃ l₁ token x l₂, l = l₁ ++ ⟨.fetchUpstream (bodiless origin req path token), x⟩ :: l₂ ∧
        upstreamSent l₁ = [] ∧ (again = none → Fresh l₁ token) ∧
        ((x = none ∧ l₂ = [] ∧ b = .error .rejected) ∨
          (∃ u, x = some u ∧ (∀ p ∈ again, u.status ≠ 401) ∧ l₂ = [] ∧ b = .ok (passOn u)) ∨
            ∃ u p, x = some u ∧ again = some p ∧ u.status = 401 ∧ Done p l₂ b) := by
  unfold attempt at h
  split at h
  · obtain ⟨x, l', rfl, h₁⟩ := done_await_bind.mp h
    cases x with
    | none =>
      obtain ⟨rfl, -⟩ := done_pure.mp h₁
      exact .inl ⟨rfl, fun _ => by simp⟩
    | some x =>
      obtain ⟨id, session, now⟩ := x
      obtain ⟨l₁, l₂, token, rfl, htoken, h₂⟩ | ⟨e, he, -⟩ := done_bind.mp h₁
      · obtain ⟨c, hc, heq⟩ := done_token htoken
        cases heq
        have hlocal := upstreamSent_tokenFor hc
        have hkept (hnone : again = none) := kept_refresh (by subst hnone; exact hc)
        cases c with
        | error e =>
          obtain ⟨rfl, -⟩ := done_pure.mp h₂
          refine .inl ⟨by rw [List.append_nil]; exact hlocal, fun hnone id' t ht => ?_⟩
          exact (hkept hnone).2 e rfl id' t (by simpa using ht)
        | ok token =>
          have hbody : readBody req = pure (none, none) := by rw [readBody, if_neg hm]
          change Done (readBody req >>= _) l₂ b at h₂
          rw [hbody] at h₂
          obtain ⟨x, l₃, rfl, h₃⟩ := done_await_bind.mp h₂
          refine .inr ⟨⟨.getSession req.sid, some (id, session, now)⟩ :: l₁, token, x, l₃, rfl,
            hlocal, fun hnone id' t ht => (hkept hnone).1 token rfl id' t (by simpa using ht), ?_⟩
          obtain ⟨u, rfl, h₄⟩ | ⟨rfl, rfl, rfl⟩ := done_fulfilled_bind.mp h₃
          · cases again with
            | none =>
              obtain ⟨rfl, rfl⟩ := done_pure.mp h₄
              exact .inr (.inl ⟨u, rfl, by simp, rfl, rfl⟩)
            | some p =>
              obtain ⟨h401, rfl, rfl⟩ | ⟨h401, hp⟩ := done_retry h₄
              · exact .inr (.inl ⟨u, rfl, fun _ _ => h401, rfl, rfl⟩)
              · exact .inr (.inr ⟨u, p, rfl, rfl, h401, hp⟩)
          · exact .inl ⟨rfl, rfl, rfl⟩
      · obtain ⟨c, -, hc⟩ := done_token he
        cases hc
  · obtain ⟨rfl, -⟩ := done_pure.mp h
    exact .inl ⟨rfl, fun _ => by simp⟩

theorem atMost_attempt {again : Option (Web ProxyResponse)} {n : Nat}
    (h : ∀ p ∈ again, AtMostE WebCall.isUpstream n p) :
    AtMostE WebCall.isUpstream (1 + n) (attempt origin req path again) := by
  unfold attempt
  split
  · refine .bind_only (only_await rfl) fun x => ?_
    cases x with
    | none => exact .pure _
    | some x =>
      refine .bind_only (.tryCatch (.bind (only_tokenFor (fun _ hc => hc) ..) fun _ => .pure _)
        fun _ => .pure _) fun token => ?_
      cases token with
      | none => exact .pure _
      | some token =>
        refine .bind_only (only_readBody rfl rfl) fun sent => .bind (m := 1) ?_ fun x =>
          .bind_only (only_fulfilled x) fun u => ?_
        · exact ⟨0, rfl, fun _ => trivial⟩
        · cases again with
          | none => exact .pure _
          | some p =>
            show AtMostE _ _ (if u.status = 401 then p else _)
            split
            · exact h p rfl
            · exact .pure _
  · exact .pure _

theorem atMost_proxy : AtMostE WebCall.isUpstream 2 (proxy origin req path) := by
  have hlast : AtMostE WebCall.isUpstream (1 + 0) (attempt origin req path none) :=
    atMost_attempt fun p hp => by cases hp
  refine atMost_attempt (n := 1) fun p hp => ?_
  obtain rfl := Option.some.inj hp
  exact hlast

theorem upstreamSent_split (before : Log web) (r : UpstreamRequest) (x : Option UpstreamResponse)
    (after : Log web) : upstreamSent (before ++ ⟨.fetchUpstream r, x⟩ :: after) =
      upstreamSent before ++ (r, x) :: upstreamSent after := by
  rw [upstreamSent_append]
  rfl

theorem first_sent {before before' after after' : Log web} {r r' : UpstreamRequest}
    {x x' : Option UpstreamResponse} (h : before ++ ⟨.fetchUpstream r, x⟩ :: after =
      before' ++ ⟨.fetchUpstream r', x'⟩ :: after') (hb : upstreamSent before = [])
    (hb' : upstreamSent before' = []) : before = before' ∧ r = r' ∧ x = x' ∧ after = after' := by
  rcases List.append_eq_append_iff.mp h with ⟨between, rfl, hsplit⟩ | ⟨between, rfl, hsplit⟩
  · cases between with
    | nil =>
      obtain ⟨hhead, rfl⟩ := List.cons.inj hsplit
      cases hhead
      exact ⟨(List.append_nil _).symm, rfl, rfl, rfl⟩
    | cons e between =>
      obtain ⟨rfl, -⟩ := List.cons.inj hsplit
      rw [upstreamSent_split] at hb'
      simp at hb'
  · cases between with
    | nil =>
      obtain ⟨hhead, rfl⟩ := List.cons.inj hsplit
      cases hhead
      exact ⟨List.append_nil _, rfl, rfl, rfl⟩
    | cons e between =>
      obtain ⟨rfl, -⟩ := List.cons.inj hsplit
      rw [upstreamSent_split] at hb
      simp at hb

/-- The body of a `POST` is read, and it can be refused. -/
theorem done_readBody (h : req.method = .post) : ∃ call : WebCall, call.readsBody = true ∧
    (∃ x body, ¬ Rejected ⟨call, x⟩ ∧ Done (readBody req) [⟨call, x⟩] (.ok body)) ∧
      ∃ x, Rejected ⟨call, x⟩ ∧ Done (readBody req) [⟨call, x⟩] (.error .rejected) := by
  unfold readBody
  rw [if_pos h]
  split
  · exact ⟨.formData, rfl, ⟨some [], _, nofun, done_await_bind.mpr ⟨_, _, rfl, .refl _⟩⟩,
      none, rfl, done_await_bind.mpr ⟨_, _, rfl, .refl _⟩⟩
  · exact ⟨.text, rfl, ⟨some [], _, nofun, done_await_bind.mpr ⟨_, _, rfl, .refl _⟩⟩,
      none, rfl, done_await_bind.mpr ⟨_, _, rfl, .refl _⟩⟩

theorem done_attempt_token {again : Option (Web ProxyResponse)} {id : Nat} {session : Web.Session}
    {now : Int} {token : Str} {l₁ l₂ l₃ : Log web} {b : Except WebError ProxyResponse}
    (hproxied : isProxied path = true)
    (htoken : Done (tokenFor origin id session now again.isNone) l₁ (.ok token))
    (h : (Done (readBody req) l₂ (.error .rejected) ∧ l₃ = [] ∧ b = .error .rejected) ∨
      ∃ body u p l, Done (readBody req) l₂ (.ok body) ∧ again = some p ∧ u.status = 401 ∧
        l₃ = ⟨.fetchUpstream ⟨req.method, upstreamUrl origin path req.search,
          "Bearer ".toList ++ token, body.1, body.2⟩, some u⟩ :: l ∧ Done p l b) :
    Done (attempt origin req path again)
      (⟨.getSession req.sid, some (id, session, now)⟩ :: (l₁ ++ (l₂ ++ l₃))) b := by
  unfold attempt
  rw [if_pos hproxied]
  refine done_await_bind.mpr ⟨_, _, rfl, done_bind.mpr (.inl ⟨l₁, _, some token, rfl, ?_, ?_⟩)⟩
  · exact done_tryCatch.mpr (.inl ⟨_, done_map.mpr ⟨_, htoken, rfl⟩, rfl⟩)
  · obtain ⟨hread, rfl, rfl⟩ | ⟨body, u, p, l, hread, rfl, h401, rfl, hp⟩ := h
    · rw [List.append_nil]
      exact done_bind.mpr (.inr ⟨_, hread, rfl⟩)
    · refine done_bind.mpr (.inl ⟨l₂, _, body, rfl, hread, done_await_bind.mpr ⟨_, _, rfl, ?_⟩⟩)
      refine done_fulfilled_bind.mpr (.inl ⟨u, rfl, ?_⟩)
      change Done (if u.status = 401 then p else _) l b
      rwa [if_pos h401]

/-- A `POST` that is refused upstream for its token finds, with the fresh one, its body consumed. -/
theorem second_unsent (hproxied : isProxied path = true) (hpost : req.method = .post) :
    ∃ before r u after id t b,
      Done (proxy origin req path) (before ++ ⟨.fetchUpstream r, some u⟩ :: after) b ∧
      ReadOnce (before ++ ⟨.fetchUpstream r, some u⟩ :: after) ∧ upstreamSent before = [] ∧
      u.status = 401 ∧ ⟨.keepToken id, some t⟩ ∈ after ∧ upstreamSent after = [] := by
  obtain ⟨call, hreads, ⟨x, body, hx, hfirst⟩, y, hy, hsecond⟩ := done_readBody hpost
  have hsend (z : call.Resp) : upstreamSent [⟨call, z⟩] = [] := by
    cases call with
    | fetchUpstream r => cases hreads
    | _ => rfl
  have hcached : Done (tokenFor origin 0 liveSession 0 false) [] (.ok ['t']) := by
    unfold tokenFor
    rw [cachedToken_live]
    exact .refl _
  have hfresh : Done (tokenFor origin 0 liveSession 0 true)
      [⟨.fetchToken (tokenUrl origin) [] [], some 200⟩, ⟨.keepToken 0, some ['n']⟩] (.ok ['n']) :=
    done_await_bind.mpr ⟨_, _, rfl, done_await_bind.mpr ⟨_, _, rfl, .refl _⟩⟩
  have hlast : Done (attempt origin req path none) _ (.error .rejected) :=
    done_attempt_token hproxied hfresh (.inl ⟨hsecond, rfl, rfl⟩)
  have hall : Done (proxy origin req path) _ (.error .rejected) :=
    done_attempt_token hproxied hcached
      (.inr ⟨body, ⟨401, none, []⟩, _, _, hfirst, rfl, rfl, rfl, hlast⟩)
  refine ⟨[⟨.getSession req.sid, some (0, liveSession, 0)⟩, ⟨call, x⟩], _, _, _, 0, ['n'], _,
    hall, ?_, ?_, rfl, ?_, ?_⟩
  · simp [ReadOnce, WebCall.readsBody, hy]
  · exact hsend x
  · simp
  · exact hsend y

theorem not_refreshes_post (hproxied : isProxied path = true) (hpost : req.method = .post) :
    ¬ RefreshesOnce origin req path := by
  intro h
  obtain ⟨before, r, u, after, id, t, b, hdone, honce, hbefore, hu, ht, hafter⟩ :=
    @second_unsent origin req path hproxied hpost
  obtain ⟨r', x, hsent, -⟩ := h.retried before r u after id t b hdone honce hbefore hu ht
  rw [hafter] at hsent
  cases hsent

/-- A refresh is transparent exactly for the requests that have no body to read again. -/
theorem refreshes_once_iff (origin : Url.Origin) (req : NextRequest) (path : List Str) :
    RefreshesOnce origin req path ↔ (isProxied path = true → req.method ≠ .post) := by
  constructor
  · intro h hproxied hpost
    exact not_refreshes_post hproxied hpost h
  · intro hcond
    refine ⟨fun l q hl => ?_, fun before r u after id t b h _ hbefore hu ht => ?_⟩
    · rw [length_upstreamSent]
      exact Async.AtMost.log atMost_proxy hl
    · have hproxied : isProxied path = true := by
        by_contra hnot
        unfold proxy attempt at h
        rw [if_neg hnot] at h
        obtain ⟨hnil, -⟩ := done_pure.mp h
        simp at hnil
      have hm := hcond hproxied
      obtain ⟨hnone, -⟩ | ⟨l₁, token, x, l₂, heq, hl₁, -, hend⟩ := done_attempt hm h
      · rw [upstreamSent_split] at hnone
        simp at hnone
      obtain ⟨rfl, rfl, rfl, rfl⟩ := first_sent heq hbefore hl₁
      obtain ⟨hx, -⟩ | ⟨u', hu', hnot, -⟩ | ⟨u', p, hu', hp, -, hlast⟩ := hend
      · cases hx
      · cases hu'
        exact absurd hu (hnot _ rfl)
      cases hp
      obtain ⟨-, hkept⟩ | ⟨l₃, token', x', l₄, rfl, hl₃, hfresh, hend⟩ := done_attempt hm hlast
      · exact absurd ht (hkept rfl id t)
      obtain ⟨rfl, hb⟩ : l₄ = [] ∧ ∀ u', x' = some u' → b = .ok (passOn u') := by
        obtain ⟨rfl, rfl, -⟩ | ⟨v, rfl, -, rfl, rfl⟩ | ⟨v, p, -, hp, -⟩ := hend
        · exact ⟨rfl, nofun⟩
        · exact ⟨rfl, fun u' hu' => Option.some.inj hu' ▸ rfl⟩
        · cases hp
      have htoken : t = token' := hfresh rfl id t (by simpa using ht)
      subst htoken
      refine ⟨_, x', ?_, rfl, hb⟩
      rw [upstreamSent_split, hl₃]
      rfl

end

namespace Sample

def jsonPost : NextRequest :=
  ⟨.post, some ['s'], some "application/json".toList, [], search_opens_nil⟩

end Sample

/-- A question asked while the token dies is lost. -/
theorem question_lost : ¬ RefreshesOnce Sample.localhost Sample.jsonPost ["answers".toList] :=
  not_refreshes_post (by decide) rfl

end RagPlatform
