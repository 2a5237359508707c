import RagPlatform.Frontend.ProxyLaws
import RagPlatform.Lib.UrlLaws

/-! Which paths of the API the proxy can be made to ask for. -/

namespace RagPlatform

open Lib Move

def apiRoot : Str := ['v', '1']

/-- The path of the URL is that of an allow-listed resource, or lies below it. -/
def Reaches (url : Str) : Prop := ∃ name ∈ allowed, Url.Below apiRoot name (Url.pathOf url)

/-- The segments of the URL from `/v1` on, as the path array and the query spell them. -/
def targetSegments (path : List Str) (search : Str) : List Str :=
  Url.pieces (Url.clean ("v1/".toList ++ Str.join "/".toList path ++ search))

/-- At some point the segments are at the root and go down to `v1`, come back there from any
detour, go down to an allow-listed name, and never have more dot-dots than names from there on. -/
def StaysBelow (segments : List Str) : Prop :=
  ∃ before detour name after, name ∈ allowed ∧
    segments.map Url.moveOf = before ++ .down apiRoot :: (detour ++ .down name :: after) ∧
    Sinks before ∧ Stays detour ∧ downs detour ≤ ups detour ∧ Stays after

theorem plain_apiRoot : Url.PlainSegment apiRoot := by
  refine ⟨?_, by simp [apiRoot], by simp [apiRoot]⟩
  simp [apiRoot, Url.inPathSet]

theorem plain_allowed {name : Str} (h : name ∈ allowed) : Url.PlainSegment name := by
  have hall : allowed.all (fun name => name.all (fun c => !Url.inPathSet c && c != '%' && c != '/') &&
      !name.isEmpty) = true := by decide
  have hname := List.all_eq_true.mp hall name h
  simp only [Bool.and_eq_true, List.all_eq_true, Bool.not_eq_true', bne_iff_ne,
    List.isEmpty_eq_false_iff] at hname
  exact ⟨fun c hc => (hname.1 c hc).1, fun hslash => (hname.1 _ hslash).2 rfl, hname.2⟩

theorem upstreamUrl_eq (origin : Url.Origin) (path : List Str) (search : Str) :
    upstreamUrl origin path search =
      origin.text ++ '/' :: ("v1/".toList ++ Str.join "/".toList path ++ search) := by
  have hv1 : "/v1/".toList = '/' :: "v1/".toList := by decide
  unfold upstreamUrl
  simp only [hv1, List.append_assoc, List.cons_append]

theorem reaches_iff (origin : Url.Origin) (path : List Str) (search : Str) :
    Reaches (upstreamUrl origin path search) ↔ StaysBelow (targetSegments path search) := by
  have hhead : ∀ c ∈ ("v1/".toList ++ Str.join "/".toList path ++ search).head?,
      Url.isC0OrSpace c = false := by
    have hv1 : "v1/".toList = ['v', '1', '/'] := by decide
    simp only [hv1, List.cons_append, List.head?_cons, Option.mem_def, Option.some.injEq]
    rintro c rfl
    decide
  unfold Reaches
  rw [upstreamUrl_eq, origin.pathOf hhead]
  constructor
  · rintro ⟨name, hname, hbelow⟩
    obtain ⟨before, detour, after, hsplit⟩ :=
      walk_below_iff.mp ((Url.below_pathState plain_apiRoot (plain_allowed hname) _).mp hbelow)
    exact ⟨before, detour, name, after, hname, hsplit⟩
  · rintro ⟨before, detour, name, after, hname, hsplit⟩
    exact ⟨name, hname, (Url.below_pathState plain_apiRoot (plain_allowed hname) _).mpr
      (walk_below_iff.mpr ⟨before, detour, after, hsplit⟩)⟩

section Requests

variable (origin : Url.Origin) (req : NextRequest) (path : List Str)

def OnlyTo (url : Str) (call : WebCall) : Prop := ∀ r, call = .fetchUpstream r → r.url = url

variable {origin req path} {url : Str}

theorem onlyTo_local (call : WebCall) (h : call.isUpstream = false) : OnlyTo url call := by
  rintro r rfl
  cases h

theorem onlyTo_attempt {again : Option (Web ProxyResponse)}
    (h : ∀ p ∈ again, OnlyE (OnlyTo (upstreamUrl origin path req.search)) p) :
    OnlyE (OnlyTo (upstreamUrl origin path req.search)) (attempt origin req path again) := by
  unfold attempt
  split
  · refine .bind (only_await nofun) fun x => ?_
    cases x with
    | none => exact .pure _
    | some x =>
      refine .bind (.tryCatch (.bind (only_tokenFor onlyTo_local ..) fun _ => .pure _)
        fun _ => .pure _) fun token => ?_
      cases token with
      | none => exact .pure _
      | some token =>
        refine .bind (only_readBody nofun nofun) fun sent => .bind (only_await ?_) fun x =>
          .bind (only_fulfilled x) fun upstream => ?_
        · rintro r ⟨⟩
          rfl
        · cases again with
          | none => exact .pure _
          | some p =>
            show OnlyE _ (if upstream.status = 401 then p else _)
            split
            · exact h p rfl
            · exact .pure _
  · exact .pure _

theorem refused (h : isProxied path = false) (r : UpstreamRequest) :
    ¬ (proxy origin req path).run.Asks (.fetchUpstream r) := by
  have hnone : OnlyE (fun _ => False) (proxy origin req path) := by
    unfold proxy attempt
    rw [if_neg (by simp [h])]
    exact .pure _
  exact fun hasks => Async.Only.asks hnone hasks

theorem replays_await (call : WebCall) (x : call.Resp) :
    (await call).run.Replays [⟨call, x⟩] (.ret (.ok x)) := .await (.refl _)

theorem replays_readBody (req : NextRequest) :
    ∃ l body, (readBody req).run.Replays l (.ret (.ok body)) := by
  unfold readBody
  split
  · split
    · exact ⟨[⟨.formData, some []⟩], _, .await (.refl _)⟩
    · exact ⟨[⟨.text, some []⟩], _, .await (.refl _)⟩
  · exact ⟨[], _, .refl _⟩

theorem sent (h : isProxied path = true) :
    ∃ r, (proxy origin req path).run.Asks (.fetchUpstream r) := by
  obtain ⟨l, body, hbody⟩ := replays_readBody req
  have htoken : tokenFor origin 0 liveSession 0 false = pure ['t'] := by
    unfold tokenFor
    rw [cachedToken_live]
  have hcaught : (tryCatch (some <$> tokenFor origin 0 liveSession 0 false)
      fun _ => pure none : Web (Option Str)).run.Replays [] (.ret (.ok (some ['t']))) := by
    rw [htoken]
    exact .refl _
  refine ⟨⟨req.method, upstreamUrl origin path req.search, "Bearer ".toList ++ ['t'], body.1,
    body.2⟩, ?_⟩
  unfold proxy attempt
  rw [if_pos h]
  refine asks_bind (replays_await (.getSession req.sid) (some (0, liveSession, 0))) ?_
  refine asks_bind hcaught (asks_bind hbody ?_)
  exact ⟨[], _, .refl _⟩

end Requests

theorem url_of_sent {origin : Url.Origin} {req : NextRequest} {path : List Str} {r : UpstreamRequest}
    (h : (proxy origin req path).run.Asks (.fetchUpstream r)) :
    r.url = upstreamUrl origin path req.search := by
  have honly : OnlyE (OnlyTo (upstreamUrl origin path req.search)) (proxy origin req path) :=
    onlyTo_attempt fun p hp => by
      obtain rfl := Option.some.inj hp
      exact onlyTo_attempt nofun
  exact Async.Only.asks honly h r rfl

/-- What the proxy sends stays with the allow-listed resources exactly if it refuses the path, or
the segments of the path stay there. -/
theorem proxy_confined_iff (origin : Url.Origin) (req : NextRequest) (path : List Str) :
    (∀ r, (proxy origin req path).run.Asks (.fetchUpstream r) → Reaches r.url) ↔
      (isProxied path = true → StaysBelow (targetSegments path req.search)) := by
  rw [← reaches_iff origin]
  constructor
  · intro h hproxied
    obtain ⟨r, hr⟩ := sent hproxied
    exact url_of_sent hr ▸ h r hr
  · intro h r hr
    cases hproxied : isProxied path with
    | false => exact absurd hr (refused hproxied r)
    | true => exact url_of_sent hr ▸ h hproxied

namespace Sample

def localhost : Url.Origin where
  scheme := ['h', 't', 't', 'p']
  authority := ['l', 'o', 'c', 'a', 'l', 'h', 'o', 's', 't', ':', '8', '0', '0', '0']
  special := .inl rfl
  ne_nil := nofun
  plain := by simp [Url.isSlash, Url.endsPath, Url.isC0OrSpace]

def formPost : NextRequest := ⟨.post, none, none, [], search_opens_nil⟩

/-- `documents/..%2Fauth%2Ftoken`, as a router decodes it. -/
def escape : List Str :=
  [['d', 'o', 'c', 'u', 'm', 'e', 'n', 't', 's'],
    ['.', '.', '/', 'a', 'u', 't', 'h', '/', 't', 'o', 'k', 'e', 'n']]

end Sample

/-- An encoded slash takes a request past the allow-list to the token endpoint. -/
theorem token_endpoint_reached :
    ∃ r, (proxy Sample.localhost Sample.formPost Sample.escape).run.Asks (.fetchUpstream r) ∧
      Url.pathOf r.url = "/v1/auth/token".toList ∧ ¬ Reaches r.url := by
  have hpath : Url.pathOf (upstreamUrl Sample.localhost Sample.escape Sample.formPost.search) =
      "/v1/auth/token".toList := by decide
  have hfar : ¬ ∃ name ∈ allowed, Url.Below apiRoot name "/v1/auth/token".toList := by decide
  have hproxied : isProxied Sample.escape = true := by decide
  obtain ⟨r, hr⟩ := @sent Sample.localhost Sample.formPost Sample.escape hproxied
  refine ⟨r, hr, ?_, ?_⟩
  · rw [url_of_sent hr, hpath]
  · unfold Reaches
    rwa [url_of_sent hr, hpath]

end RagPlatform
