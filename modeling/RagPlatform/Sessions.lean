import Mathlib.Data.List.Nodup
import RagPlatform.Frontend.ProxyLaws
import RagPlatform.Frontend.Session
import RagPlatform.ProxyPaths

/-! Whose token a request goes upstream with, when many sessions share a web server. -/

namespace RagPlatform

open Lib

def callsApi : server.Req → Bool
  | .inl (.fetchToken ..) | .inl (.fetchUpstream _) => true
  | _ => false

def DrawsFresh (o : WebOracle) (s : Sessions) : server.Req → Prop
  | .inr (.createSession clientId clientSecret) =>
    o.answer (.inr (.createSession clientId clientSecret)) ∉ s.created.map Prod.fst
  | _ => True

section

variable {ι : Type} (origin : Url.Origin) (visits : ι → Web.Visit)

abbrev Frontend (ι : Type) := Pool server Sessions ι Web.Reply

abbrev Happening (ι : Type) := Event server WebOracle ι Web.Reply

def visiting : Pool.Rules server Sessions WebOracle ι Web.Reply where
  spawn i p _ := p = (visits i).code origin
  step _ o r s := DrawsFresh o s r

def noSessions : Sessions := ⟨[], [], []⟩

variable [DecidableEq ι]

def served (es : List (Happening ι)) : Frontend ι := (Pool.init noSessions).run Sessions.exec es

def Asking (P : Frontend ι) (i : ι) (call : server.Req) : Prop :=
  ∃ l out k, P.threads i = some ⟨l, out, .await call k⟩

/-- In the course of the run a request for a token that was made with this credential was answered
with this token. -/
def Issued (es : List (Happening ι)) (clientId clientSecret token : Str) : Prop :=
  ∃ before j o later l out url status id k, es = before ++ .step j o :: later ∧
    (served before).threads j = some ⟨l ++ [⟨.inl (.fetchToken url clientId clientSecret),
      some status⟩], out, .await (.inl (.keepToken id)) k⟩ ∧
    o.answer (.inl (.keepToken id)) = some token

/-- In the course of the run the session was created, and then destroyed. -/
def Destroyed (es : List (Happening ι)) (sid : Str) : Prop :=
  ∃ before j o later, es = before ++ .step j o :: later ∧
    Asking (served before) j (.inr (.destroySession (some sid))) ∧
    sid ∈ (served before).state.created.map Prod.fst

structure KeepsTenantsApart (es : List (Happening ι)) : Prop where
  own : ∀ i req path r, visits i = .proxied req path →
    Asking (served es) i (.inl (.fetchUpstream r)) →
      ∃ sid clientId clientSecret token, req.sid = some sid ∧
        (∀ c, (sid, c) ∈ (served es).state.created ↔ c = (clientId, clientSecret)) ∧
        r.authorization = "Bearer ".toList ++ token ∧ Issued es clientId clientSecret token
  closed : ∀ before i later req path sid, es = before ++ .spawn i ((visits i).code origin) :: later →
    (served before).threads i = none → visits i = .proxied req path → req.sid = some sid →
      Destroyed before sid → ∀ call, callsApi call = true → ¬ Asking (served es) i call

end

/-- The log has a token for the session it found: the one that the session held, or one that was
asked for with the session's credential. -/
def HasToken (l : Log web) (id : Nat) (session : Web.Session) (token : Str) : Prop :=
  session.token = some token ∨ ∃ l₁ url status l₂, l = l₁ ++
    ⟨.fetchToken url session.clientId session.clientSecret, some status⟩ ::
      ⟨.keepToken id, some token⟩ :: l₂

def Found (req : NextRequest) (l : Log web) (id : Nat) (session : Web.Session) : Prop :=
  ∃ now, ⟨.getSession req.sid, some (id, session, now)⟩ ∈ l

def Knows (req : NextRequest) (l : Log web) : web.Req → Prop
  | .fetchToken _ clientId clientSecret => ∃ id session, Found req l id session ∧
    clientId = session.clientId ∧ clientSecret = session.clientSecret
  | .keepToken id => ∃ l₁ session url status, Found req l₁ id session ∧
    l = l₁ ++ [⟨.fetchToken url session.clientId session.clientSecret, some status⟩]
  | .fetchUpstream r => ∃ id session token, Found req l id session ∧ HasToken l id session token ∧
    r.authorization = "Bearer ".toList ++ token
  | _ => True

section

variable {origin : Url.Origin} {req : NextRequest} {path : List Str} {l l' : Log web} {id : Nat}
  {session : Web.Session} {token : Str}

theorem Found.mono (h : Found req l id session) (hl : l <+: l') : Found req l' id session := by
  obtain ⟨now, hmem⟩ := h
  exact ⟨now, hl.subset hmem⟩

theorem HasToken.mono (h : HasToken l id session token) (hl : l <+: l') :
    HasToken l' id session token := by
  obtain h | ⟨l₁, url, status, l₂, rfl⟩ := h
  · exact .inl h
  · obtain ⟨l₃, rfl⟩ := hl
    exact .inr ⟨l₁, url, status, l₂ ++ l₃, by simp⟩

theorem heeds_await {call : WebCall} (h : Knows req l call) :
    HeedsE (Knows req) (fun l' b => ∃ x, l' = l ++ [⟨call, x⟩] ∧ b = .ok x) (await call) l :=
  ⟨h, fun x => ⟨x, rfl, rfl⟩⟩

theorem heeds_fulfilled {α : Type} (a : Option α) :
    HeedsE (Knows req) (fun l' b => l' = l ∧ ∀ v, b = .ok v → a = some v) (fulfilled a) l := by
  cases a with
  | none => exact .throw ⟨rfl, nofun⟩
  | some a => exact .pure ⟨rfl, fun v hv => congrArg some (Except.ok.inj hv)⟩

theorem heeds_tokenFor (h : Found req l id session) (now : Int) (force : Bool) :
    HeedsE (Knows req) (fun l' b => Found req l' id session ∧
      ∀ token, b = .ok token → HasToken l' id session token)
      (tokenFor origin id session now force) l := by
  unfold tokenFor
  split
  · next t ht =>
    refine .pure ⟨h, fun token htoken => .inl ?_⟩
    obtain rfl := Except.ok.inj htoken
    unfold cachedToken at ht
    split at ht
    · cases ht
    · exact (Option.filter_eq_some_iff.mp ht).1
  · refine .bind (heeds_await ⟨id, session, h, rfl, rfl⟩) ?_ ?_
    · rintro l' x ⟨x', rfl, hx⟩
      obtain rfl := Except.ok.inj hx
      refine .bind (heeds_fulfilled x) ?_ ?_
      · rintro l' status ⟨rfl, hstatus⟩
        obtain rfl := hstatus status rfl
        split
        · refine .bind (heeds_await ⟨l, session, _, status, h, rfl⟩) ?_ ?_
          · rintro l' y ⟨y', rfl, hy⟩
            obtain rfl := Except.ok.inj hy
            refine .mono (heeds_fulfilled y) ?_
            rintro l' b ⟨rfl, hb⟩
            refine ⟨(h.mono (List.prefix_append ..)).mono (List.prefix_append ..), ?_⟩
            rintro token rfl
            obtain rfl := hb token rfl
            exact .inr ⟨l, tokenUrl origin, status, [], by simp⟩
          · rintro l' e ⟨x, -, hx⟩
            cases hx
        · exact .throw ⟨h.mono (List.prefix_append ..), nofun⟩
      · rintro l' e ⟨rfl, -⟩
        exact ⟨h.mono (List.prefix_append ..), nofun⟩
    · rintro l' e ⟨x, -, hx⟩
      cases hx

theorem heeds_token (h : Found req l id session) (now : Int) (force : Bool) :
    HeedsE (Knows req) (fun l' b => Found req l' id session ∧
      ∀ token, b = .ok (some token) → HasToken l' id session token)
      (tryCatch (some <$> tokenFor origin id session now force) fun _ => pure none) l := by
  refine .tryCatch (Q := fun l' b => Found req l' id session ∧
    ∀ token, b = .ok (some token) → HasToken l' id session token) ?_ (fun _ _ ha => ha) ?_
  · refine .map (heeds_tokenFor h now force) ?_
    rintro l' (e | t) ⟨hfound, hhas⟩
    · exact ⟨hfound, nofun⟩
    · refine ⟨hfound, fun token ht => ?_⟩
      cases ht
      exact hhas t rfl
  · rintro l' e ⟨hfound, -⟩
    exact .pure ⟨hfound, nofun⟩

theorem heeds_attempt {again : Option (Web ProxyResponse)}
    (h : ∀ p ∈ again, ∀ l, HeedsE (Knows req) (fun _ _ => True) p l) (l : Log web) :
    HeedsE (Knows req) (fun _ _ => True) (attempt origin req path again) l := by
  unfold attempt
  split
  · refine .bind (heeds_await trivial) ?_ fun _ _ _ => trivial
    rintro l' x ⟨x', rfl, hx⟩
    obtain rfl := Except.ok.inj hx
    cases x with
    | none => exact .pure trivial
    | some x =>
      obtain ⟨id, session, now⟩ := x
      have hfound : Found req (l ++ [⟨.getSession req.sid, some (id, session, now)⟩]) id session :=
        ⟨now, by simp⟩
      refine .bind (heeds_token hfound now again.isNone) ?_ fun _ _ _ => trivial
      rintro l₁ token ⟨hfound, htoken⟩
      cases token with
      | none => exact .pure trivial
      | some token =>
        refine .bind (Async.Heeds.of_only (only_readBody (fun _ => trivial) fun _ => trivial))
          (fun l₂ sent hl₂ => ?_) fun _ _ _ => trivial
        have hhas : HasToken l₂ id session token := (htoken token rfl).mono hl₂
        refine .bind (heeds_await ⟨id, session, token, hfound.mono hl₂, hhas, rfl⟩) ?_
          fun _ _ _ => trivial
        rintro l₃ x -
        refine .bind (heeds_fulfilled x) (fun l₄ u _ => ?_) fun _ _ _ => trivial
        cases again with
        | none => exact .pure trivial
        | some p =>
          show HeedsE _ _ (if u.status = 401 then p else _) _
          split
          · exact h p rfl l₄
          · exact .pure trivial
  · exact .pure trivial

theorem heeds_proxy : HeedsE (Knows req) (fun _ _ => True) (proxy origin req path) [] :=
  heeds_attempt (fun p hp l => by
    obtain rfl := Option.some.inj hp
    exact heeds_attempt (fun p hp => by cases hp) l) []

end

/-- Every session in the store is one that was created for its credential. -/
structure Sessions.Sound (s : Sessions) : Prop where
  stored : ∀ sid id, s.store.get? sid = some id → ∃ session, s.objects[id]? = some session ∧
    (sid, session.clientId, session.clientSecret) ∈ s.created
  once : (s.created.map Prod.fst).Nodup

structure Sessions.Later (s s' : Sessions) : Prop where
  created : s.created ⊆ s'.created
  object : ∀ (id : Nat) (session : Web.Session), s.objects[id]? = some session →
    ∃ session' : Web.Session, s'.objects[id]? = some session' ∧
      session'.clientId = session.clientId ∧ session'.clientSecret = session.clientSecret
  closed : ∀ sid ∈ s.created.map Prod.fst, s.store.get? sid = none → s'.store.get? sid = none

section

variable {s s' s'' : Sessions} {o : WebOracle} {sid clientId clientSecret token : Str}
  {expiresAt : Int} {id : Nat} {session : Web.Session}

theorem Sessions.Later.refl (s : Sessions) : s.Later s :=
  ⟨fun _ h => h, fun _ session h => ⟨session, h, rfl, rfl⟩, fun _ _ h => h⟩

theorem Sessions.Later.trans (h : s.Later s') (h' : s'.Later s'') : s.Later s'' where
  created := fun _ hc => h'.created (h.created hc)
  object id session hsession := by
    obtain ⟨session₁, h₁, hid, hsecret⟩ := h.object id session hsession
    obtain ⟨session₂, h₂, hid', hsecret'⟩ := h'.object id session₁ h₁
    exact ⟨session₂, h₂, hid'.trans hid, hsecret'.trans hsecret⟩
  closed sid hsid hnone := by
    refine h'.closed sid ?_ (h.closed sid hsid hnone)
    obtain ⟨c, hc, rfl⟩ := List.mem_map.mp hsid
    exact List.mem_map_of_mem (h.created hc)

theorem sound_createSession (h : s.Sound) (hfresh : sid ∉ s.created.map Prod.fst) :
    (createSession sid clientId clientSecret s).Sound where
  stored sid' id hget := by
    by_cases heq : sid' = sid
    · subst heq
      obtain rfl := Option.some.inj ((Dict.get?_set_self ..).symm.trans hget)
      exact ⟨⟨clientId, clientSecret, none, 0⟩, by simp [createSession], .head _⟩
    · have hold : s.store.get? sid' = some id := (Dict.get?_set_of_ne _ _ heq).symm.trans hget
      obtain ⟨session, hsession, hcreated⟩ := h.stored sid' id hold
      refine ⟨session, ?_, .tail _ hcreated⟩
      exact (List.getElem?_append_left (List.getElem?_eq_some_iff.mp hsession).1).trans hsession
  once := List.nodup_cons.mpr ⟨hfresh, h.once⟩

theorem later_createSession (hfresh : sid ∉ s.created.map Prod.fst) :
    s.Later (createSession sid clientId clientSecret s) where
  created := fun _ => .tail _
  object id session hsession := ⟨session,
    (List.getElem?_append_left (List.getElem?_eq_some_iff.mp hsession).1).trans hsession, rfl, rfl⟩
  closed sid' hsid hnone := by
    have hne : sid' ≠ sid := by
      rintro rfl
      exact hfresh hsid
    exact (Dict.get?_set_of_ne _ _ hne).trans hnone

theorem object_createSession
    (h : (createSession sid clientId clientSecret s).objects[id]? = some session) :
    s.objects[id]? = some session ∨ session.token = none := by
  refine (Nat.lt_or_ge id s.objects.length).imp (fun hlt => ?_) fun hge => ?_
  · exact (List.getElem?_append_left hlt).symm.trans h
  · have hnew := List.mem_of_getElem? ((List.getElem?_append_right hge).symm.trans h)
    obtain rfl := List.mem_singleton.mp hnew
    rfl

theorem get?_destroySession (sid : Option Str) (s : Sessions) (sid' : Str) :
    (destroySession sid s).store.get? sid' =
      if sid = some sid' ∧ sid' ≠ [] then none else s.store.get? sid' := by
  cases sid with
  | none => rfl
  | some sid =>
    by_cases hempty : sid = []
    · subst hempty
      rw [if_neg fun h => h.2 (Option.some.inj h.1).symm]
      rfl
    · change Dict.get? (if sid = [] then s.store else s.store.delete sid) sid' = _
      rw [if_neg hempty]
      refine (Dict.get?_delete s.store sid sid').trans (if_congr ?_ rfl rfl)
      constructor
      · rintro rfl
        exact ⟨rfl, hempty⟩
      · rintro ⟨heq, -⟩
        exact (Option.some.inj heq).symm

theorem sound_destroySession (h : s.Sound) (sid : Option Str) : (destroySession sid s).Sound where
  stored sid' id hget := by
    rw [get?_destroySession] at hget
    split at hget
    · cases hget
    · exact h.stored sid' id hget
  once := h.once

theorem later_destroySession (sid : Option Str) (s : Sessions) : s.Later (destroySession sid s) where
  created := fun _ h => h
  object := fun _ session h => ⟨session, h, rfl, rfl⟩
  closed sid' _ hnone := by
    rw [get?_destroySession, hnone, ite_self]

theorem object_keepToken (id' : Nat) : (keepToken id token expiresAt s).objects[id']? =
    (s.objects[id']?).map fun session =>
      if id = id' then { session with token := some token, tokenExpiresAt := expiresAt }
      else session := by
  simp only [keepToken, List.getElem?_modify]
  rfl

theorem later_keepToken : s.Later (keepToken id token expiresAt s) where
  created := fun _ h => h
  object id' session h := by
    rw [object_keepToken, h]
    refine ⟨_, rfl, ?_⟩
    split
    · exact ⟨rfl, rfl⟩
    · exact ⟨rfl, rfl⟩
  closed := fun _ _ h => h

theorem sound_keepToken (h : s.Sound) : (keepToken id token expiresAt s).Sound where
  stored sid id' hget := by
    obtain ⟨session, hsession, hcreated⟩ := h.stored sid id' hget
    obtain ⟨session', h', hid, hsecret⟩ := later_keepToken.object id' session hsession
    exact ⟨session', h', by rwa [hid, hsecret]⟩
  once := h.once

theorem exec_step (h : s.Sound) {r : server.Req} (hfresh : DrawsFresh o s r) :
    (Sessions.exec o r s).1.Sound ∧ s.Later (Sessions.exec o r s).1 := by
  cases r with
  | inl call =>
    cases call with
    | keepToken id =>
      simp only [Sessions.exec]
      split
      · exact ⟨sound_keepToken h, later_keepToken⟩
      · exact ⟨h, .refl s⟩
    | _ => exact ⟨h, .refl s⟩
  | inr call =>
    cases call with
    | json => exact ⟨h, .refl s⟩
    | createSession clientId clientSecret =>
      exact ⟨sound_createSession h hfresh, later_createSession hfresh⟩
    | destroySession sid => exact ⟨sound_destroySession h sid, later_destroySession sid s⟩

end

section

variable {ι : Type} [DecidableEq ι] {origin : Url.Origin} {visits : ι → Web.Visit}
  {es before later : List (Happening ι)}

/-- The run is one of visits, in which session ids are drawn afresh. -/
def Runs (origin : Url.Origin) (visits : ι → Web.Visit) (es : List (Happening ι)) : Prop :=
  (Pool.init noSessions : Frontend ι).Obeys Sessions.exec (visiting origin visits) es

theorem runs_append : Runs origin visits (es ++ later) ↔
    Runs origin visits es ∧ (served es).Obeys Sessions.exec (visiting origin visits) later :=
  Pool.obeys_append ..

theorem served_append : (served (es ++ later) : Frontend ι) = (served es).run Sessions.exec later :=
  Pool.run_append ..

theorem served_event {e : Happening ι} (h : Runs origin visits (es ++ [e])) :
    (served (es ++ [e])).state = (served es).state ∨
      ∃ i o r, e = .step i o ∧ Asking (served es) i r ∧ DrawsFresh o (served es).state r ∧
        (served (es ++ [e])).state = (Sessions.exec o r (served es).state).1 := by
  rw [served_append]
  obtain hsame | ⟨i, o, l, out, r, k, rfl, hi, hstate⟩ := Pool.next_state (served es) e
  · exact .inl hsame
  · refine .inr ⟨i, o, r, rfl, ⟨l, out, k, hi⟩, ?_, hstate⟩
    have hallows := (runs_append.mp h).2.1
    simp only [Pool.Allows] at hallows
    rw [hi] at hallows
    exact hallows

theorem sound_served (h : Runs origin visits es) : (served es).state.Sound := by
  induction es using List.reverseRecOn with
  | nil => exact ⟨nofun, .nil⟩
  | append_singleton es e ih =>
    have hes := ih (runs_append.mp h).1
    obtain hsame | ⟨i, o, r, -, -, hfresh, hstate⟩ := served_event h
    · rwa [hsame]
    · rw [hstate]
      exact (exec_step hes hfresh).1

theorem later_served (h : Runs origin visits (before ++ later)) :
    (served before).state.Later (served (before ++ later)).state := by
  induction later using List.reverseRecOn with
  | nil =>
    rw [List.append_nil]
    exact .refl _
  | append_singleton later e ih =>
    rw [← List.append_assoc] at h ⊢
    have hlater := (runs_append.mp h).1
    refine (ih hlater).trans ?_
    obtain hsame | ⟨i, o, r, -, -, hfresh, hstate⟩ := served_event h
    · rw [hsame]
      exact .refl _
    · rw [hstate]
      exact (exec_step (sound_served hlater) hfresh).2

theorem replays_visit (h : Runs origin visits es) {i : ι} {t : Thread server Web.Reply}
    (ht : (served es).threads i = some t) : ((visits i).code origin).Replays t.log t.code :=
  Pool.replays_thread (R := visiting origin visits) (fun _ _ _ hp => hp) (fun _ => rfl) h ht

theorem knows_asking (h : Runs origin visits es) {i : ι} {req : NextRequest} {path : List Str}
    (hi : visits i = .proxied req path) {l : Log server} {out : List server.Out} {r : server.Req}
    {k : server.Resp r → Async server Web.Reply}
    (ht : (served es).threads i = some ⟨l, out, .await r k⟩) :
    ∃ l' call, l = Log.inl l' ∧ r = .inl call ∧ Knows req l' call := by
  have hreplays := replays_visit h ht
  rw [hi] at hreplays
  have hheeds : ((proxy origin req path).run.inl : Async server _).Heeds _ _ [] :=
    Async.Heeds.inl heeds_proxy
  exact Async.Heeds.awaits (.map (Q := fun _ _ => True) (hheeds.mono fun _ _ _ => trivial)) hreplays

def KeepsNone (r : server.Req) : Prop := ∀ id, r ≠ .inl (.keepToken id)

theorem only_login : (login origin).Only KeepsNone := by
  have hask (call : SessionCall) : (ask call).Only KeepsNone := ⟨nofun, fun _ => trivial⟩
  unfold login
  refine .bind (hask .json) fun body => ?_
  split
  · trivial
  · split
    · trivial
    · refine .bind ⟨nofun, fun _ => trivial⟩ fun status => ?_
      split
      · trivial
      · split
        · trivial
        · split
          · exact .bind (hask _) fun sid => trivial
          · trivial

theorem proxied_of_keeping (h : Runs origin visits es) {i : ι} {id : Nat}
    (hasking : Asking (served es) i (.inl (.keepToken id))) :
    ∃ req path, visits i = .proxied req path := by
  obtain ⟨l, out, k, ht⟩ := hasking
  have hreplays := replays_visit h ht
  have hnot (honly : ((visits i).code origin).Only KeepsNone) : False :=
    Async.Only.asks honly ⟨l, k, hreplays⟩ id rfl
  cases hv : visits i with
  | proxied req path => exact ⟨req, path, rfl⟩
  | login =>
    rw [hv] at hnot
    exact (hnot (Async.Only.bind only_login fun _ => trivial)).elim
  | logout sid =>
    rw [hv] at hnot
    exact (hnot ⟨nofun, fun _ => trivial⟩).elim
  | authenticated sid =>
    rw [hv] at hnot
    exact (hnot ⟨nofun, fun _ => trivial⟩).elim

theorem found_stored {P : Frontend ι} {i : ι} (hP : P.threads i = none)
    {t : Thread server Web.Reply} (ht : (P.run Sessions.exec es).threads i = some t) {l : Log web}
    (hl : Log.inl l <+: t.log) {req : NextRequest} {id : Nat} {session : Web.Session}
    (hfound : Found req l id session) :
    ∃ before o later, es = before ++ .step i o :: later ∧
      getSession req.sid (P.run Sessions.exec before).state = some (id, session) := by
  obtain ⟨now, hmem⟩ := hfound
  obtain ⟨l₁, l₂, rfl⟩ := List.append_of_mem hmem
  obtain ⟨l', hl'⟩ := hl
  have hlog : t.log = Log.inl l₁ ++ ⟨.inl (.getSession req.sid), some (id, session, now)⟩ ::
      (Log.inl l₂ ++ l') := by
    rw [← hl', Log.inl_append, List.append_assoc]
    rfl
  obtain ⟨before, o, later, out, k, rfl, -, hx⟩ := Pool.exists_step_of_log hP ht hlog
  refine ⟨before, o, later, rfl, ?_⟩
  obtain ⟨x, hget, heq⟩ := Option.map_eq_some_iff.mp hx.symm
  cases heq
  exact hget

theorem getSession_eq_some {sid : Option Str} {s : Sessions} {id : Nat} {session : Web.Session}
    (h : getSession sid s = some (id, session)) :
    ∃ sid', sid = some sid' ∧ s.store.get? sid' = some id ∧ s.objects[id]? = some session := by
  cases sid with
  | none => cases h
  | some sid =>
    change (if sid = [] then none else _) = _ at h
    split at h
    · cases h
    · obtain ⟨id', hid, h₁⟩ := Option.bind_eq_some_iff.mp h
      obtain ⟨session', hsession, h₂⟩ := Option.bind_eq_some_iff.mp h₁
      cases h₂
      exact ⟨sid, rfl, hid, hsession⟩

theorem Issued.mono {clientId clientSecret token : Str} (h : Issued es clientId clientSecret token)
    (later : List (Happening ι)) : Issued (es ++ later) clientId clientSecret token := by
  obtain ⟨before, j, o, rest, l, out, url, status, id, k, rfl, hj, ho⟩ := h
  exact ⟨before, j, o, rest ++ later, l, out, url, status, id, k, by simp, hj, ho⟩

theorem answer_keepToken {o : WebOracle} {id : Nat} {s : Sessions} {token : Str}
    (h : (Sessions.exec o (.inl (.keepToken id)) s).2 = some token) :
    o.answer (.inl (.keepToken id)) = some token := by
  simp only [Sessions.exec] at h
  split at h
  · next token' htoken => exact htoken.trans h
  · cases h

theorem kept_for_credential (h : Runs origin visits es) {i : ι} {id : Nat}
    (hasking : Asking (served es) i (.inl (.keepToken id))) {session : Web.Session}
    (hsession : (served es).state.objects[id]? = some session) :
    ∃ l out url status k, (served es).threads i = some ⟨l ++ [⟨.inl (.fetchToken url
      session.clientId session.clientSecret), some status⟩], out, .await (.inl (.keepToken id)) k⟩ := by
  obtain ⟨req, path, hi⟩ := proxied_of_keeping h hasking
  obtain ⟨l, out, k, ht⟩ := hasking
  obtain ⟨l', call, rfl, hcall, hknows⟩ := knows_asking h hi ht
  obtain rfl := Sum.inl.inj hcall
  obtain ⟨l₁, session₁, url, status, hfound, rfl⟩ := hknows
  obtain ⟨before, o, later, rfl, hget⟩ :=
    found_stored rfl ht (Log.inl_append l₁ _ ▸ List.prefix_append ..) hfound
  obtain ⟨-, -, -, hobject⟩ := getSession_eq_some hget
  obtain ⟨session₂, h₂, hid, hsecret⟩ := (later_served h).object id session₁ hobject
  obtain rfl := Option.some.inj (h₂.symm.trans hsession)
  refine ⟨Log.inl l₁, out, url, status, k, ht.trans ?_⟩
  rw [Log.inl_append, hid, hsecret]
  rfl

theorem issued_of_held (h : Runs origin visits es) {id : Nat} {session : Web.Session} {token : Str}
    (hsession : (served es).state.objects[id]? = some session) (htoken : session.token = some token) :
    Issued es session.clientId session.clientSecret token := by
  induction es using List.reverseRecOn generalizing id session token with
  | nil => cases hsession
  | append_singleton es e ih =>
    have hes := (runs_append.mp h).1
    obtain hsame | ⟨i, o, r, rfl, hasking, hfresh, hstate⟩ := served_event h
    · rw [hsame] at hsession
      exact (ih hes hsession htoken).mono _
    · rw [hstate] at hsession
      cases r with
      | inl call =>
        cases call with
        | keepToken id' =>
          simp only [Sessions.exec] at hsession
          split at hsession
          · next token' hanswer =>
            obtain ⟨session₀, h₀, heq⟩ := Option.map_eq_some_iff.mp
              (object_keepToken id ▸ hsession)
            split at heq
            · next hid =>
              subst hid heq
              obtain rfl := Option.some.inj htoken
              obtain ⟨l, out, url, status, k, hi⟩ := kept_for_credential hes hasking h₀
              exact ⟨es, i, o, [], l, out, url, status, id', k, rfl, hi, hanswer⟩
            · subst heq
              exact (ih hes h₀ htoken).mono _
          · exact (ih hes hsession htoken).mono _
        | _ => exact (ih hes hsession htoken).mono _
      | inr call =>
        cases call with
        | createSession clientId clientSecret =>
          obtain hold | hnone := object_createSession hsession
          · exact (ih hes hold htoken).mono _
          · rw [hnone] at htoken
            cases htoken
        | _ => exact (ih hes hsession htoken).mono _

theorem issued_of_hasToken (h : Runs origin visits es) {i : ι} {t : Thread server Web.Reply}
    (ht : (served es).threads i = some t) {l : Log web} (hl : t.log = Log.inl l)
    {req : NextRequest} {id : Nat} {session : Web.Session} {token : Str}
    (hfound : Found req l id session) (hhas : HasToken l id session token) :
    Issued es session.clientId session.clientSecret token := by
  obtain hheld | ⟨l₁, url, status, l₂, rfl⟩ := hhas
  · obtain ⟨before, o, later, rfl, hget⟩ := found_stored rfl ht (hl ▸ List.prefix_refl _) hfound
    obtain ⟨-, -, -, hobject⟩ := getSession_eq_some hget
    exact (issued_of_held (runs_append.mp h).1 hobject hheld).mono _
  · have hlog : t.log = (Log.inl l₁ ++ [⟨.inl (.fetchToken url session.clientId
        session.clientSecret), some status⟩]) ++ ⟨.inl (.keepToken id), some token⟩ ::
          Log.inl l₂ := by
      rw [hl, Log.inl_append, List.append_assoc]
      rfl
    obtain ⟨before, o, later, out, k, rfl, hi, hx⟩ := Pool.exists_step_of_log (by rfl) ht hlog
    exact ⟨before, i, o, later, _, out, url, status, id, k, rfl, hi, answer_keepToken hx.symm⟩

theorem served_answer {i : ι} {o : WebOracle} {r : server.Req} (h : Asking (served es) i r) :
    (served (es ++ [.step i o])).state = (Sessions.exec o r (served es).state).1 := by
  obtain ⟨l, out, k, hi⟩ := h
  rw [served_append]
  simp only [Pool.run_cons, Pool.run_nil, Pool.next, hi]

theorem getSession_of_gone {sid : Str} {s : Sessions} (h : sid = [] ∨ s.store.get? sid = none) :
    getSession (some sid) s = none := by
  change (if sid = [] then none else _) = _
  split
  · rfl
  · next hne =>
    rw [h.resolve_left hne]
    rfl

theorem gone_of_destroyed {sid : Str} (h : Runs origin visits (es ++ later))
    (hsid : Destroyed es sid) : getSession (some sid) (served (es ++ later)).state = none := by
  obtain ⟨before, j, o, rest, rfl, hasking, hcreated⟩ := hsid
  refine getSession_of_gone ((eq_or_ne sid []).imp_right fun hne => ?_)
  rw [← List.singleton_append (l := rest), ← List.append_assoc, List.append_assoc] at h ⊢
  refine (later_served h).closed sid ?_ ?_
  · rwa [served_answer hasking]
  · rw [served_answer hasking]
    exact (get?_destroySession ..).trans (if_pos ⟨rfl, hne⟩)

end

/-- In every run, what a session sends upstream goes with a token for the credential it was created
for, and nothing goes upstream for a session that is gone. -/
theorem sessions_never_mix {ι : Type} [DecidableEq ι] (origin : Url.Origin) (visits : ι → Web.Visit)
    (es : List (Happening ι)) (h : Runs origin visits es) :
    KeepsTenantsApart origin visits es where
  own i req path r hi := by
    rintro ⟨l, out, k, ht⟩
    obtain ⟨l, call, rfl, hcall, hknows⟩ := knows_asking h hi ht
    obtain rfl := Sum.inl.inj hcall
    obtain ⟨id, session, token, hfound, hhas, hauthorization⟩ := hknows
    obtain ⟨before, o, later, hes, hget⟩ := found_stored rfl ht (List.prefix_refl _) hfound
    obtain ⟨sid, hsid, hstored, hobject⟩ := getSession_eq_some hget
    have hrun : Runs origin visits (before ++ .step i o :: later) := hes ▸ h
    obtain ⟨session', hsession', hcreated⟩ :=
      (sound_served (runs_append.mp hrun).1).stored sid id hstored
    obtain rfl := Option.some.inj (hobject.symm.trans hsession')
    have hmem : (sid, session.clientId, session.clientSecret) ∈ (served es).state.created :=
      hes ▸ (later_served hrun).created hcreated
    refine ⟨sid, session.clientId, session.clientSecret, token, hsid, fun c => ⟨fun hc => ?_, ?_⟩,
      hauthorization, issued_of_hasToken h ht rfl hfound hhas⟩
    · exact (Prod.ext_iff.mp (List.inj_on_of_nodup_map (sound_served h).once hc hmem rfl)).2
    · rintro rfl
      exact hmem
  closed before i later req path sid hes hnone hi hsid hdestroyed call hcalls := by
    rintro ⟨l, out, k, ht⟩
    obtain ⟨l, call, rfl, rfl, hknows⟩ := knows_asking h hi ht
    have hfound : ∃ id session, Found req l id session := by
      cases call with
      | fetchToken url clientId clientSecret =>
        obtain ⟨id, session, hfound, -⟩ := hknows
        exact ⟨id, session, hfound⟩
      | fetchUpstream r =>
        obtain ⟨id, session, -, hfound, -⟩ := hknows
        exact ⟨id, session, hfound⟩
      | _ => cases hcalls
    obtain ⟨id, session, hfound⟩ := hfound
    subst hes
    rw [served_append] at ht
    obtain ⟨mid, o, rest, hmid, hget⟩ := found_stored hnone ht (List.prefix_refl _) hfound
    rw [hmid, ← List.append_assoc] at h
    rw [← served_append, hsid, gone_of_destroyed (runs_append.mp h).1 hdestroyed] at hget
    cases hget

namespace Sample

def listingFor (sid : Char) : NextRequest := ⟨.get, some [sid], none, [], search_opens_nil⟩

def documentsPath : List Str := ["documents".toList]

/-- Two tenants log in and list their documents; then the first one logs out and tries again. -/
def twoVisits : Nat → Web.Visit
  | 0 | 1 => .login
  | 3 => .proxied (listingFor 'b') documentsPath
  | 4 => .logout (some ['a'])
  | _ => .proxied (listingFor 'a') documentsPath

/-- What the surroundings of tenant `who` say. -/
def serving (who : Char) (token : String) (status : Nat) : WebOracle where
  answer
    | .inl (.getSession _) => none
    | .inl (.fetchToken ..) => some 200
    | .inl (.keepToken _) => some token.toList
    | .inl .formData => some []
    | .inl .text => some []
    | .inl (.fetchUpstream _) => some ⟨status, none, []⟩
    | .inr .json => some (.string [who, 'i'], .string [who, 'x'])
    | .inr (.createSession ..) => [who]
    | .inr (.destroySession _) => ()
  now := 0
  expiresIn := 3600

def arrival (i : Nat) : Happening Nat := .spawn i ((twoVisits i).code localhost)

def stepA (i : Nat) (token : String) : Happening Nat := .step i (serving 'a' token 200)

def stepB (i : Nat) (token : String) : Happening Nat := .step i (serving 'b' token 200)

def bothUpstream : List (Happening Nat) :=
  [arrival 0, arrival 1, stepA 0 "", stepB 1 "", stepA 0 "", stepB 1 "", stepA 0 "", stepB 1 "",
    arrival 2, arrival 3, stepA 2 "", stepB 3 "", stepA 2 "", stepB 3 "", stepB 3 "tb",
    stepA 2 "ta"]

def refreshed : List (Happening Nat) :=
  bothUpstream ++ [.step 2 (serving 'a' "" 401), stepA 2 "", stepA 2 "", stepA 2 "ua"]

def loggedOut : List (Happening Nat) :=
  refreshed ++ [arrival 4, stepA 2 "", stepB 3 "", stepA 4 "", arrival 5, stepA 5 ""]

/-- The header that thread `i` is about to send upstream. -/
def sent (es : List (Happening Nat)) (i : Nat) : Option Str :=
  match (served es).threads i with
  | some ⟨_, _, .await (.inl (.fetchUpstream r)) _⟩ => some r.authorization
  | _ => none

end Sample

theorem sessions_never_mix_refreshed :
    KeepsTenantsApart Sample.localhost Sample.twoVisits Sample.refreshed ∧
    Sample.sent Sample.bothUpstream 2 = some "Bearer ta".toList ∧
    Sample.sent Sample.refreshed 2 = some "Bearer ua".toList ∧
    Sample.sent Sample.refreshed 3 = some "Bearer tb".toList ∧
    KeepsTenantsApart Sample.localhost Sample.twoVisits Sample.loggedOut ∧
      Destroyed (Sample.loggedOut.take 24) ['a'] := by
  have hend : Runs Sample.localhost Sample.twoVisits Sample.loggedOut := by
    refine ⟨rfl, rfl, trivial, trivial, trivial, trivial, nofun, ?_, rfl, rfl, trivial, trivial,
      trivial, trivial, trivial, trivial, trivial, trivial, trivial, trivial, rfl, trivial, trivial,
      trivial, rfl, trivial, trivial⟩
    exact List.not_mem_cons_of_ne_of_not_mem (show (['b'] : Str) ≠ ['a'] by decide) List.not_mem_nil
  have hstart := (runs_append.mp hend).1
  refine ⟨sessions_never_mix _ _ _ hstart, by decide +kernel, by decide +kernel, by decide +kernel,
    sessions_never_mix _ _ _ hend, ?_⟩
  refine ⟨Sample.loggedOut.take 23, 4, Sample.serving 'a' "" 200, [], rfl, ⟨_, _, _, rfl⟩, ?_⟩
  exact .tail _ (.head _)

end RagPlatform
