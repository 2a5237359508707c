import RagPlatform.Admission
import RagPlatform.Sessions

/-! From the session of a browser to the tenant that its requests are served for. -/

namespace RagPlatform

open Lib

section

variable {ι κ : Type} [DecidableEq κ] (ext : External) (settings : Settings) (w : World)

/-- The gateway has answered a request for a token with this one. -/
def HandsOut (moves : List (Move κ)) (clientId clientSecret token : Str) : Prop :=
  ∃ j l out tok, (∀ visit, .start j visit ∈ moves →
      visit = .issueToken "client_credentials".toList clientId clientSecret) ∧
    (gateway ext settings w moves).threads j = some ⟨l, out, .ret (.ok (.token tok))⟩ ∧
      tok.accessToken = token

/-- A token that is kept is one that was handed out for the credential it was asked for with. -/
def KeepsHanded (handed : Str → Str → Str → Prop) (l : Log server) (o : WebOracle) :
    server.Req → Prop
  | .inl (.keepToken id) => ∀ url clientId clientSecret status token,
    l.getLast? = some ⟨.inl (.fetchToken url clientId clientSecret), status⟩ →
      o.answer (.inl (.keepToken id)) = some token → handed clientId clientSecret token
  | _ => True

def fetching (handed : Str → Str → Str → Prop) :
    Pool.Rules server Sessions WebOracle ι Web.Reply where
  spawn _ _ _ := True
  step l o r _ := KeepsHanded handed l o r

end

section

variable {ι : Type} [DecidableEq ι] {origin : Url.Origin} {visits : ι → Web.Visit}
  {es : List (Happening ι)} {handed : Str → Str → Str → Prop}

theorem handed_of_issued
    (h : (Pool.init noSessions : Frontend ι).Obeys Sessions.exec (fetching handed) es)
    {clientId clientSecret token : Str} (hissued : Issued es clientId clientSecret token) :
    handed clientId clientSecret token := by
  obtain ⟨before, j, o, later, l, out, url, status, id, k, rfl, hj, ho⟩ := hissued
  have hallows := ((Pool.obeys_append ..).mp h).2.1
  unfold served at hj
  simp only [Pool.Allows] at hallows
  rw [hj] at hallows
  exact hallows url clientId clientSecret (some status) token List.getLast?_concat ho

theorem created_of_found (h : Runs origin visits es) {i : ι} {t : Thread server Web.Reply}
    (ht : (served es).threads i = some t) {req : NextRequest} {l : Log web} {id : Nat}
    {session : Web.Session} (hl : t.log = Log.inl l) (hfound : Found req l id session) :
    ∃ sid, req.sid = some sid ∧ ∀ c, (sid, c) ∈ (served es).state.created ↔
      c = (session.clientId, session.clientSecret) := by
  obtain ⟨before, o, later, rfl, hget⟩ := found_stored rfl ht (hl ▸ List.prefix_refl _) hfound
  obtain ⟨sid, hsid, hstored, hobject⟩ := getSession_eq_some hget
  obtain ⟨session', hsession', hcreated⟩ :=
    (sound_served (runs_append.mp h).1).stored sid id hstored
  obtain rfl := Option.some.inj (hobject.symm.trans hsession')
  have hmem := (later_served h).created hcreated
  refine ⟨sid, hsid, fun c => ⟨fun hc => ?_, ?_⟩⟩
  · exact (Prod.ext_iff.mp (List.inj_on_of_nodup_map (sound_served h).once hc hmem rfl)).2
  · rintro rfl
    exact hmem

end

namespace Sample

def answersOf : WebOracle where
  answer
    | .inl (.keepToken _) => some granted.accessToken
    | .inr .json => some (.string clientId, .string (generateClientSecret ['b']))
    | call => (serving 'a' "" 200).answer call
  now := 0
  expiresIn := 60

def proxying : List (Happening Nat) :=
  arrival 0 :: List.replicate 3 (.step 0 answersOf) ++
    arrival 2 :: List.replicate 3 (.step 2 answersOf)

theorem runs_proxying : Runs localhost twoVisits proxying :=
  ⟨rfl, trivial, trivial, nofun, rfl, trivial, trivial, trivial, trivial⟩

theorem asking_proxying : ∃ r : UpstreamRequest, r.authorization = bearer granted.accessToken ∧
    Asking (served proxying) 2 (.inl (.fetchUpstream r)) := by
  refine ⟨_, ?_, _, _, _, rfl⟩
  rfl

theorem fetching_proxying : (Pool.init noSessions : Frontend Nat).Obeys Sessions.exec
    (fetching (HandsOut signingExt brief world granting)) proxying := by
  refine ⟨trivial, trivial, trivial, trivial, trivial, trivial, trivial, ?_, trivial⟩
  intro url id secret status token hlast htoken
  cases hlast
  obtain rfl := Option.some.inj htoken
  obtain ⟨l, out, hissued, -⟩ := issued_granting
  have hid : jsTrim clientId = clientId := by decide
  have hsecret : jsTrim (generateClientSecret ['b']) = generateClientSecret ['b'] := by decide
  rw [hid, hsecret]
  exact ⟨1, l, out, granted, fun visit h => by simpa [granting, issuing] using h, hissued, rfl⟩

theorem issued_of_token {tenant tenant' credential credential' : Uuid} {secret : Str} {ttl : Int}
    {issued issued' : Nat}
    (h : (createAccessToken signingExt tenant credential secret ttl issued).1 =
      (createAccessToken signingExt tenant' credential' secret ttl issued').1) :
    issued = issued' := by
  have hfields := congrArg (fields 6) h
  simp only [createAccessToken, signingExt, fields_sign, List.cons.injEq] at hfields
  have hnumber := congrArg ofNumber hfields.2.2.2.2.1
  rw [ofNumber_number, ofNumber_number] at hnumber
  exact Int.ofNat.inj hnumber

end Sample

end RagPlatform
