import Mathlib.Data.List.Nodup
import RagPlatform.Lib.Heed
import RagPlatform.Lib.Sourcing
import RagPlatform.RatelimitLaws
import RagPlatform.Regular
import RagPlatform.Revocation

/-! From a created credential to the requests its tokens admit. -/

namespace RagPlatform

open Lib

theorem removeAll_of_not_mem {c : Char} {old s : Str} (n : Nat) (h : c ∉ s) :
    removeAll (c :: old) n s = s := by
  induction s generalizing n with
  | nil => cases n <;> rfl
  | cons d s ih =>
    rw [List.mem_cons, not_or] at h
    cases n with
    | zero => rfl
    | succ n =>
      have hprefix : (c :: old).isPrefixOf (d :: s) = false := by
        simp [List.isPrefixOf, h.1]
      rw [removeAll, hprefix, ih n h.2]
      rfl

theorem stripBraces_of_not_mem {s : Str} (h : '\x7b' ∉ s ∧ '\x7d' ∉ s) : stripBraces s = s := by
  have hdrop (t : Str) (ht : ∀ c ∈ t, c ∈ s) :
      t.dropWhile (fun c => c = '\x7b' || c = '\x7d') = t := by
    cases t with
    | nil => rfl
    | cons c t =>
      have hc : c ≠ '\x7b' ∧ c ≠ '\x7d' := by
        constructor
        · rintro rfl
          exact h.1 (ht _ List.mem_cons_self)
        · rintro rfl
          exact h.2 (ht _ List.mem_cons_self)
      rw [List.dropWhile_cons_of_neg]
      simp [hc.1, hc.2]
  unfold stripBraces
  simp only
  rw [hdrop s fun _ hc => hc, hdrop s.reverse fun _ hc => List.mem_reverse.mp hc,
    List.reverse_reverse]

namespace Uuid

theorem not_mem_str {u : Uuid} {c : Char} (hdash : c ≠ '-') (hc : hexValue c = none) :
    c ∉ u.str := by
  intro h
  rcases mem_str h with h | h
  · exact hdash h
  · have hdigit := digit_of_mem_hex h
    rw [hc] at hdigit
    cases hdigit

theorem length_hex {u : Uuid} (h : u.toNat < 2 ^ 128) : u.hex.length = 32 := by
  have hdigits : (Nat.toDigits 16 u.toNat).length ≤ 32 :=
    (Nat.length_toDigits_le_iff (by decide) (by decide)).mpr (by simpa using h)
  simp only [hex, List.length_append, List.length_replicate]
  omega

/-- What `str` writes, `UUID` reads. -/
theorem ofStr_str {u : Uuid} (h : u.toNat < 2 ^ 128) : ofStr u.str = some u := by
  have hu : 'u' ∉ u.str := not_mem_str (by decide) (by decide)
  have hbraces : '\x7b' ∉ u.str ∧ '\x7d' ∉ u.str :=
    ⟨not_mem_str (by decide) (by decide), not_mem_str (by decide) (by decide)⟩
  have hurn : removeAll "urn:".toList u.str.length u.str = u.str := removeAll_of_not_mem _ hu
  have huuid : removeAll "uuid:".toList u.str.length u.str = u.str := removeAll_of_not_mem _ hu
  unfold ofStr
  simp only [hurn, huuid, stripBraces_of_not_mem hbraces]
  rw [str_filter, if_pos (length_hex h), hexNumber_hex]
  rfl

end Uuid

def ApiCredential.identity (c : ApiCredential) : ApiCredential :=
  { c with lastUsedAt := none, revokedAt := none }

theorem ApiCredential.same_of_identity {c d : ApiCredential} (h : c.identity = d.identity) :
    c.id = d.id ∧ c.tenantId = d.tenantId ∧ c.clientId = d.clientId := by
  simp only [identity, mk.injEq] at h
  exact ⟨h.1, h.2.1, h.2.2.1⟩

namespace Credentials

def identities (cs : Credentials) : List ApiCredential := cs.rows.map (·.identity)

theorem identity_patchRow (id : Uuid) (p : CredentialPatch) (c : ApiCredential) :
    (patchRow id p c).identity = c.identity := by
  unfold patchRow
  split <;> rfl

theorem identities_insert {cs cs' : Credentials} {c : ApiCredential} (h : cs.insert c = .ok cs') :
    cs'.identities = cs.identities ++ [c.identity] := by
  unfold insert at h
  split at h
  · obtain rfl := Except.ok.inj h
    simp [identities, add]
  · cases h

theorem identities_update {cs cs' : Credentials} {id : Uuid} {p : CredentialPatch}
    (h : cs.update id p = .ok cs') : cs'.identities = cs.identities := by
  rcases update_ok h with ⟨-, rfl⟩ | ⟨-, -, rfl⟩
  · rfl
  · simp [identities, patch, identity_patchRow]

theorem identity_eq {cs : Credentials} {c d : ApiCredential} (hc : c.identity ∈ cs.identities)
    (hd : d.identity ∈ cs.identities) (h : c.clientId = d.clientId) : c.identity = d.identity := by
  obtain ⟨c', hc', hce⟩ := List.mem_map.mp hc
  obtain ⟨d', hd', hde⟩ := List.mem_map.mp hd
  have hclient : c'.clientId = d'.clientId :=
    (ApiCredential.same_of_identity hce).2.2.trans
      (h.trans (ApiCredential.same_of_identity hde).2.2.symm)
  rw [← hce, ← hde, List.inj_on_of_nodup_map cs.uq hc' hd' hclient]

theorem byId_of_identity {cs : Credentials} {c : ApiCredential} (h : c.identity ∈ cs.identities) :
    ∃ d, cs.byId c.id = some d ∧ d.identity = c.identity := by
  obtain ⟨d, hd, hde⟩ := List.mem_map.mp h
  have hid : d.id = c.id := (ApiCredential.same_of_identity hde).1
  cases hfound : cs.byId c.id with
  | none => exact absurd (decide_eq_true hid) (List.find?_eq_none.mp hfound d hd)
  | some e =>
    have he := List.inj_on_of_nodup_map cs.pk (List.mem_of_find?_eq_some hfound) hd
      ((cs.byId_id hfound).trans hid.symm)
    exact ⟨e, rfl, he ▸ hde⟩

end Credentials

theorem serve_identities (o : Oracle) (c : Call) (t : World) :
    t.credentials.identities <+: (serve o c t).1.credentials.identities := by
  cases c with
  | commitCredential i =>
    simp only [serve]
    cases hu : t.credentials.update i.loaded.id i.patch with
    | error e => exact List.prefix_refl _
    | ok cs =>
      simp only [World.writeCredentials, Credentials.identities_update hu]
      exact List.prefix_refl _
  | insertCredential new =>
    simp only [serve, World.insertCredential]
    split
    · cases hi : t.credentials.insert (new.row o.uuid) with
      | error e => exact List.prefix_refl _
      | ok cs =>
        simp only [World.writeCredentials, Credentials.identities_insert hi]
        exact List.prefix_append _ _
    · exact List.prefix_refl _
  | insertDocument d =>
    simp only [serve]
    cases t.db.insertDocument (d.row o.uuid o.now) <;> exact List.prefix_refl _
  | commit txn =>
    simp only [serve]
    cases t.db.commit txn o.skip <;> exact List.prefix_refl _
  | insertUsage u =>
    simp only [serve, World.insertUsage]
    split
    · exact List.prefix_refl _
    · split <;> exact List.prefix_refl _
  | getTenant | sumSizeBytes | getDocument | deleteChunks | rollback | deleteDocument
  | embedDocuments | delay | findTenant | findCredential | time | loopTime | sleep | isDisconnected
  | getCredential | incr | expire | countDocuments | listDocuments | embedQuery | denseSearch
  | keywordSearch | rerank | generate | stream | usageRollup => exact List.prefix_refl _

theorem exec_identities (o : Oracle) (c : Call) (t : World) :
    t.credentials.identities <+: (exec o c t).1.credentials.identities := by
  rcases exec_cases o c t with he | ⟨_, -, he | ⟨-, he⟩⟩
  · rw [he]
    exact serve_identities o c t
  · rw [he]
  · rw [he]
    exact serve_identities o c t

/-- The token library: what it has signed it reads back, from the time of issue to the expiry. -/
structure Signs (ext : External) (jwtSecret : Str) : Prop where
  valid : ∀ (p : TokenPayload) (now : Nat), p.iat ≤ now → (now : Int) < p.exp →
    ext.jwtDecode (ext.jwtEncode p jwtSecret) jwtSecret p.iss now = some ⟨p.tid, p.sub⟩
  invalid : ∀ (p : TokenPayload) (now : Nat), ¬(p.iat ≤ now ∧ (now : Int) < p.exp) →
    ext.jwtDecode (ext.jwtEncode p jwtSecret) jwtSecret p.iss now = none

def bearer (token : Str) : Str := "Bearer ".toList ++ token

def expired : Exn := .authentication "invalid or expired token".toList

def unknownCredential : Exn := .authentication "credential revoked or unknown".toList

theorem claims_bearer {ext : External} {settings : Settings} (hsigns : Signs ext settings.jwtSecret)
    (claim : TokenClaims) (htenant : claim.tenantId.toNat < 2 ^ 128)
    (hcredential : claim.credentialId.toNat < 2 ^ 128) (issued now : Nat) :
    claims ext settings (some (bearer (createAccessToken ext claim.tenantId claim.credentialId
      settings.jwtSecret settings.jwtTtlSeconds issued).1)) now =
        if issued ≤ now ∧ (now : Int) < issued + settings.jwtTtlSeconds then .ok claim
        else .error expired := by
  have hbearer (token : Str) : isBearer (bearer token) = true := rfl
  have hdrop (token : Str) : (bearer token).drop 7 = token := rfl
  simp only [claims, hbearer, if_true, hdrop, createAccessToken, decodeAccessToken]
  set payload : TokenPayload := ⟨issuer, claim.credentialId.str, claim.tenantId.str, issued,
    issued + settings.jwtTtlSeconds⟩ with hpayload
  by_cases hlive : issued ≤ now ∧ (now : Int) < issued + settings.jwtTtlSeconds
  · rw [if_pos hlive, hsigns.valid payload now (Int.ofNat_le.mpr hlive.1) hlive.2]
    simp only [hpayload, Uuid.ofStr_str htenant, Uuid.ofStr_str hcredential]
  · rw [if_neg hlive, hsigns.invalid payload now fun h => hlive ⟨Int.ofNat_le.mp h.1, h.2⟩]
    rfl

section

variable {ext : External} {settings : Settings} {l : Log api}

theorem log_of_created {slug randomId randomSecret clientId secret : Str}
    (h : Done ((Visit.createCredential slug randomId randomSecret).code ext settings) l
      (.ok (.credential clientId secret))) :
    ∃ tenant, l = [⟨.findTenant slug, .ok (some tenant)⟩,
      ⟨.insertCredential ⟨tenant.id, clientId, hashSecret ext secret⟩, .ok ()⟩] := by
  obtain ⟨_, _, created, rfl, hcreate, hend⟩ := done_bind_ok.mp h
  obtain ⟨rfl, hcreated⟩ := done_pure.mp hend
  obtain ⟨rfl, rfl⟩ := Outcome.credential.inj (Except.ok.inj hcreated)
  obtain ⟨_, _, tenant, rfl, hresolve, hstored⟩ := done_bind_ok.mp hcreate
  obtain ⟨_, _, row, rfl, hfind, hfound⟩ := done_bind_ok.mp hresolve
  obtain rfl := done_perform.mp hfind
  cases row with
  | none => cases (done_throw.mp hfound).2
  | some tenant' =>
    obtain ⟨rfl, htenant⟩ := done_pure.mp hfound
    obtain rfl := Except.ok.inj htenant
    obtain ⟨_, _, u, rfl, hinsert, hpair⟩ := done_bind_ok.mp hstored
    obtain rfl := done_perform.mp hinsert
    obtain ⟨rfl, hprinted⟩ := done_pure.mp hpair
    obtain rfl := Except.ok.inj hprinted
    exact ⟨tenant, rfl⟩

theorem row_of_checkClient {secret : Str} {row : Option ApiCredential} {credential : ApiCredential}
    (h : checkClient ext secret row = .ok credential) :
    row = some credential ∧ secretMatches ext secret credential.secretHash = true := by
  cases row with
  | none => cases h
  | some c =>
    simp only [checkClient] at h
    split at h
    · cases h
    · next hgood =>
      obtain rfl := Except.ok.inj h
      exact ⟨rfl, by simpa using (not_or.mp hgood).2⟩

theorem log_of_issued {grantType clientId secret : Str} {tok : TokenResponse}
    (h : Done ((Visit.issueToken grantType clientId secret).code ext settings) l
      (.ok (.token tok))) :
    ∃ l₀ l₁ credential time, l = l₀ ++ ⟨.findCredential clientId, .ok (some credential)⟩ :: l₁ ∧
      secretMatches ext secret credential.secretHash = true ∧ ⟨.time, .ok time⟩ ∈ l₁ ∧
      tok.accessToken = (createAccessToken ext credential.tenantId
        credential.id settings.jwtSecret settings.jwtTtlSeconds (time / 1000000)).1 := by
  obtain ⟨_, _, token, rfl, hissue, hend⟩ := done_bind_ok.mp h
  obtain ⟨rfl, htoken⟩ := done_pure.mp hend
  obtain rfl := Outcome.token.inj (Except.ok.inj htoken)
  obtain ⟨l₀, _, u, rfl, -, hgrant⟩ := done_bind_ok.mp hissue
  split at hgrant
  · cases (done_throw.mp hgrant).2
  · obtain ⟨_, _, row, rfl, hfind, hrow⟩ := done_bind_ok.mp hgrant
    obtain rfl := done_perform.mp hfind
    obtain ⟨_, _, credential, rfl, hcheck, hknown⟩ := done_bind_ok.mp hrow
    obtain ⟨rfl, hchecked⟩ := done_ofExcept.mp hcheck
    obtain ⟨rfl, hsecret⟩ := row_of_checkClient hchecked.symm
    obtain ⟨_, _, now, rfl, -, htouched⟩ := done_bind_ok.mp hknown
    obtain ⟨_, _, u, rfl, -, hcommitted⟩ := done_bind_ok.mp htouched
    obtain ⟨_, _, time, rfl, hclock, hlast⟩ := done_bind_ok.mp hcommitted
    obtain rfl := done_perform.mp hclock
    obtain ⟨rfl, htok⟩ := done_pure.mp hlast
    obtain rfl := Except.ok.inj htok
    refine ⟨l₀, _, credential, time, List.append_nil _, hsecret, ?_, rfl⟩
    exact List.mem_append_right _ (List.mem_append_right _ (List.mem_append_right _
      (List.mem_append_right _ (List.mem_append_left _ (List.mem_singleton_self _)))))

def Vouches (c : TokenClaims) (row : Option ApiCredential) : Prop :=
  ∃ credential, row = some credential ∧ credential.revokedAt = none ∧
    credential.tenantId = c.tenantId

def vouched (c : TokenClaims) : Option ApiCredential → Io TokenClaims
  | none => raise unknownCredential
  | some credential =>
    if credential.revokedAt.isSome ∨ credential.tenantId ≠ c.tenantId then raise unknownCredential
    else return c

theorem getCurrentTenant_eq (authorization : Option Str) :
    getCurrentTenant ext settings authorization = (do
      let time ← perform .time
      let c ← Io.ofExcept (claims ext settings authorization (time / 1000000))
      let row ← perform (.getCredential c.credentialId)
      vouched c row) := by
  unfold getCurrentTenant
  refine congrArg _ (funext fun time => congrArg _ (funext fun c => congrArg _ ?_))
  refine funext fun row => ?_
  cases row with
  | none => rfl
  | some credential => rfl

theorem vouched_eq (c : TokenClaims) (row : Option ApiCredential) :
    (Vouches c row ∧ vouched c row = pure c) ∨
      ¬ Vouches c row ∧ vouched c row = raise unknownCredential := by
  cases row with
  | none =>
    refine .inr ⟨?_, rfl⟩
    rintro ⟨_, he, -⟩
    cases he
  | some credential =>
    by_cases hrow : credential.revokedAt.isSome ∨ credential.tenantId ≠ c.tenantId
    · refine .inr ⟨?_, if_pos hrow⟩
      rintro ⟨d, he, hlive, htenant⟩
      obtain rfl := Option.some.inj he
      rcases hrow with hrow | hrow
      · rw [hlive] at hrow
        cases hrow
      · exact hrow htenant
    · refine .inl ⟨?_, if_neg hrow⟩
      rw [not_or, Option.not_isSome_iff_eq_none, ne_eq, not_not] at hrow
      exact ⟨credential, rfl, hrow⟩

theorem log_of_request {authorization : Option Str} {endpoint : Endpoint} {now : Nat}
    {rest : Log api} {code : Async api (Except Exn Outcome)}
    (h : ((Visit.request authorization endpoint).code ext settings).run.Replays
      (⟨.time, .ok now⟩ :: rest) code) :
    (∃ e, claims ext settings authorization (now / 1000000) = .error e ∧ rest = [] ∧
      code = .ret (.error e)) ∨
    ∃ c, claims ext settings authorization (now / 1000000) = .ok c ∧ (rest = [] ∨
      ∃ x rest', rest = ⟨.getCredential c.credentialId, x⟩ :: rest' ∧ ∀ row, x = .ok row →
        (Vouches c row → (admitted ext settings c endpoint).run.Replays rest' code) ∧
          (¬ Vouches c row → rest' = [] ∧ code = .ret (.error unknownCredential))) := by
  have hcode : (Visit.request authorization endpoint).code ext settings =
      getCurrentTenant ext settings authorization >>= fun c =>
        admitted ext settings c endpoint := rfl
  rw [hcode, getCurrentTenant_eq] at h
  rcases Async.Replays.await_inv h with ⟨hnil, -⟩ | ⟨x, l', hcons, hrest⟩
  · cases hnil
  · obtain ⟨hx, rfl⟩ := List.cons.inj hcons
    obtain rfl := (eq_of_heq (Sigma.mk.inj hx).2).symm
    have hclaims : ((Io.ofExcept (claims ext settings authorization (now / 1000000)) >>= fun c =>
        perform (.getCredential c.credentialId) >>= vouched c) >>= fun c =>
          admitted ext settings c endpoint).run.Replays rest code := hrest
    cases hc : claims ext settings authorization (now / 1000000) with
    | error e =>
      rw [hc] at hclaims
      obtain ⟨rfl, rfl⟩ := Async.Replays.ret hclaims
      exact .inl ⟨e, rfl, rfl, rfl⟩
    | ok c =>
      rw [hc] at hclaims
      refine .inr ⟨c, rfl, ?_⟩
      have hread : ((perform (.getCredential c.credentialId) >>= vouched c) >>= fun c =>
          admitted ext settings c endpoint).run.Replays rest code := hclaims
      rcases Async.Replays.await_inv hread with ⟨hnil, -⟩ | ⟨x, rest', rfl, hlater⟩
      · exact .inl hnil
      · refine .inr ⟨x, rest', rfl, ?_⟩
        rintro row rfl
        have hvouched : (vouched c row >>= fun c => admitted ext settings c endpoint).run.Replays
            rest' code := hlater
        rcases vouched_eq c row with ⟨hyes, he⟩ | ⟨hno, he⟩
        · rw [he] at hvouched
          exact ⟨fun _ => hvouched, fun hno => absurd hyes hno⟩
        · rw [he] at hvouched
          obtain ⟨rfl, rfl⟩ := Async.Replays.ret hvouched
          exact ⟨fun hyes => absurd hyes hno, fun _ => ⟨rfl, rfl⟩⟩

end

section

variable {ι : Type} [DecidableEq ι] {ext : External} {settings : Settings} {w : World}
  {moves moves' : List (Move ι)}

theorem replays_visited {i : ι} {t : Thread api (Except Exn Outcome)}
    (hi : (gateway ext settings w moves).threads i = none)
    (ht : (gateway ext settings w (moves ++ moves')).threads i = some t) :
    ∃ visit, .start i visit ∈ moves' ∧ (visit.code ext settings).run.Replays t.log t.code := by
  rw [gateway_append] at ht
  obtain ⟨p, hp, hreplays⟩ := Pool.replays_spawned hi ht
  obtain ⟨move, hmove, he⟩ := List.mem_map.mp hp
  cases move with
  | start k visit =>
    simp only [Move.event, Event.spawn.injEq] at he
    obtain ⟨rfl, rfl⟩ := he
    exact ⟨visit, hmove, hreplays⟩
  | answer => cases he
  | kill => cases he

theorem identities_run (P : Platform ι) (es : List (Event api Oracle ι (Except Exn Outcome))) :
    P.state.credentials.identities <+: (P.run exec es).state.credentials.identities :=
  Pool.Visits.keeps
    (I := fun t : World => P.state.credentials.identities <+: t.credentials.identities)
    (fun o c t h => h.trans (exec_identities o c t)) (List.prefix_refl _)
    ⟨es, List.prefix_refl _, rfl⟩

theorem tenants_gateway (P : Platform ι) (es : List (Event api Oracle ι (Except Exn Outcome))) :
    (P.run exec es).state.db.tenants = P.state.db.tenants :=
  Pool.Visits.keeps (I := fun t : World => t.db.tenants = P.state.db.tenants)
    (fun o c t h => (tenants_exec o c t).trans h) rfl ⟨es, List.prefix_refl _, rfl⟩

theorem identity_of_created {i : ι} {slug randomId randomSecret clientId secret : Str}
    (hcreate : ∀ visit, .start i visit ∈ moves →
      visit = .createCredential slug randomId randomSecret) {l : Log api} {out : List ServerEvent}
    (hcreated : (gateway ext settings w moves).threads i =
      some ⟨l, out, .ret (.ok (.credential clientId secret))⟩) :
    ∃ tenant ∈ w.db.tenants, tenant.slug = slug ∧ ∃ c : ApiCredential, c.clientId = clientId ∧
      c.tenantId = tenant.id ∧
        c.identity ∈ (gateway ext settings w moves).state.credentials.identities := by
  obtain ⟨visit, hstart, hdone⟩ := replays_visited
    (show (gateway ext settings w []).threads i = none from rfl) hcreated
  obtain rfl := hcreate visit hstart
  obtain ⟨tenant, rfl⟩ := log_of_created hdone
  obtain ⟨before, o, after, out', k, hmoves, hawaits, hx⟩ :=
    exists_answer hcreated (l := [⟨.findTenant slug, .ok (some tenant)⟩]) rfl
  obtain ⟨before', o', after', out'', k', hmoves', -, hx'⟩ :=
    exists_answer hawaits (l := []) rfl
  have hfind := hx'
  rw [exec_ok hx'.symm] at hfind
  have hfound : (gateway ext settings w before').state.db.tenants.find? (·.slug = slug) =
    some tenant := (Except.ok.inj hfind).symm
  have htenant := List.mem_of_find?_eq_some hfound
  rw [gateway, tenants_gateway] at htenant
  refine ⟨tenant, htenant, by simpa using List.find?_some hfound, ?_⟩
  have hserve := exec_ok hx.symm
  rw [hserve] at hx
  have hstep := gateway_answer (o := o) hawaits
  rw [hserve] at hstep
  simp only [serve, World.insertCredential] at hx hstep
  split at hx
  · next hany =>
    rw [if_pos hany] at hstep
    cases hi : (gateway ext settings w before).state.credentials.insert
        ((⟨tenant.id, clientId, hashSecret ext secret⟩ : NewCredential).row o.uuid) with
    | error e =>
      rw [hi] at hx
      cases hx
    | ok cs =>
      rw [hi] at hstep
      refine ⟨(⟨tenant.id, clientId, hashSecret ext secret⟩ : NewCredential).row o.uuid, rfl, rfl,
        ?_⟩
      have hprefix := identities_run (gateway ext settings w (before ++ [.answer i o]))
        (after.map (Move.event ext settings))
      rw [← gateway_append, List.append_assoc, List.singleton_append, ← hmoves, hstep] at hprefix
      refine hprefix.subset ?_
      simp only [World.writeCredentials, Credentials.identities_insert hi]
      exact List.mem_append_right _ (List.mem_singleton_self _)
  · cases hx

theorem identity_of_issued {j : ι} {grantType clientId secret : Str}
    (hissue : ∀ visit, .start j visit ∈ moves → visit = .issueToken grantType clientId secret)
    {tok : TokenResponse} {l : Log api} {out : List ServerEvent}
    (hissued : (gateway ext settings w moves).threads j = some ⟨l, out, .ret (.ok (.token tok))⟩) :
    ∃ (c : ApiCredential) (time : Nat), ⟨.time, .ok time⟩ ∈ l ∧ c.clientId = clientId ∧
      secretMatches ext secret c.secretHash = true ∧
      c.identity ∈ (gateway ext settings w moves).state.credentials.identities ∧
        tok.accessToken = (createAccessToken ext c.tenantId c.id settings.jwtSecret
          settings.jwtTtlSeconds (time / 1000000)).1 := by
  obtain ⟨visit, hstart, hdone⟩ := replays_visited
    (show (gateway ext settings w []).threads j = none from rfl) hissued
  obtain rfl := hissue visit hstart
  obtain ⟨l₀, l₁, c, time, rfl, hsecret, htime, htok⟩ := log_of_issued hdone
  obtain ⟨before, o, after, out', k, hmoves, -, hx⟩ := exists_answer hissued rfl
  have hfind := hx
  rw [exec_ok hx.symm] at hfind
  have hfound : (gateway ext settings w before).state.credentials.byClientId clientId = some c :=
    (Except.ok.inj hfind).symm
  have hprefix := identities_run (gateway ext settings w before)
    ((.answer j o :: after).map (Move.event ext settings))
  rw [← gateway_append, ← hmoves] at hprefix
  refine ⟨c, time, List.mem_append_right _ (List.mem_cons_of_mem _ htime), ?_, hsecret, ?_, htok⟩
  · simpa using List.find?_some hfound
  · exact hprefix.subset (List.mem_map_of_mem (List.mem_of_find?_eq_some hfound))

/-- What a request with a good token comes to: the row of its credential is read, which is that of
the client, and the request is admitted for the tenant unless the row has been revoked. -/
def Judged (ext : External) (settings : Settings) (claim : TokenClaims) (clientId : Str)
    (endpoint : Endpoint) (rest : Log api) (code : Async api (Except Exn Outcome)) : Prop :=
  rest = [] ∨ ∃ x rest', rest = ⟨.getCredential claim.credentialId, x⟩ :: rest' ∧
    ∀ row, x = .ok row → ∃ c, row = some c ∧ c.clientId = clientId ∧ c.tenantId = claim.tenantId ∧
      (c.revokedAt = none → (admitted ext settings claim endpoint).run.Replays rest' code) ∧
        (c.revokedAt ≠ none → rest' = [] ∧ code = .ret (.error unknownCredential))

theorem row_of_issued {k : ι} {c : ApiCredential}
    (hc : c.identity ∈ (gateway ext settings w moves).state.credentials.identities)
    (hidle : (gateway ext settings w moves).threads k = none)
    {t : Thread api (Except Exn Outcome)}
    (ht : (gateway ext settings w (moves ++ moves')).threads k = some t) {l l' : Log api}
    {row : Option ApiCredential} (hl : t.log = l ++ ⟨.getCredential c.id, .ok row⟩ :: l') :
    ∃ d, row = some d ∧ d.identity = c.identity := by
  rw [gateway_append] at ht
  obtain ⟨before, o, after, out, f, -, -, hx⟩ := Pool.exists_step_of_log hidle ht hl
  rw [exec_ok hx.symm] at hx
  obtain ⟨d, hd, hid⟩ := Credentials.byId_of_identity ((identities_run _ before).subset hc)
  exact ⟨d, (Except.ok.inj hx).trans hd, hid⟩

theorem judged_of_token {k : ι} (hsigns : Signs ext settings.jwtSecret)
    (hids : ∀ c ∈ (gateway ext settings w moves).state.credentials.rows,
      c.tenantId.toNat < 2 ^ 128 ∧ c.id.toNat < 2 ^ 128)
    {c : ApiCredential}
    (hc : c.identity ∈ (gateway ext settings w moves).state.credentials.identities)
    {token : Str} {issued : Nat} (htoken : token = (createAccessToken ext c.tenantId c.id
      settings.jwtSecret settings.jwtTtlSeconds issued).1)
    (hidle : (gateway ext settings w moves).threads k = none) {endpoint : Endpoint}
    (hask : ∀ visit, .start k visit ∈ moves' → visit = .request (some (bearer token)) endpoint)
    {now : Nat} {rest : Log api} {shown : List ServerEvent}
    {code : Async api (Except Exn Outcome)}
    (ht : (gateway ext settings w (moves ++ moves')).threads k =
      some ⟨⟨.time, .ok now⟩ :: rest, shown, code⟩) :
    if issued ≤ now / 1000000 ∧ ((now / 1000000 : Nat) : Int) < issued + settings.jwtTtlSeconds then
      Judged ext settings ⟨c.tenantId, c.id⟩ c.clientId endpoint rest code
    else rest = [] ∧ code = .ret (.error expired) := by
  obtain ⟨visit, hstart, hreplays⟩ := replays_visited hidle ht
  obtain rfl := hask visit hstart
  obtain ⟨e, he, heid⟩ := List.mem_map.mp hc
  have hbits : c.tenantId.toNat < 2 ^ 128 ∧ c.id.toNat < 2 ^ 128 := by
    obtain ⟨hid, howner, -⟩ := ApiCredential.same_of_identity heid
    rw [← hid, ← howner]
    exact hids e he
  have hclaims := claims_bearer hsigns ⟨c.tenantId, c.id⟩ hbits.1 hbits.2 issued (now / 1000000)
  rw [← htoken] at hclaims
  split
  · next hlive =>
    rw [if_pos hlive] at hclaims
    rcases log_of_request hreplays with ⟨e, he, -⟩ | ⟨claim, he, hrest⟩
    · rw [hclaims] at he
      cases he
    · rw [hclaims] at he
      obtain rfl := Except.ok.inj he
      rcases hrest with hnil | ⟨x, rest', rfl, hrow⟩
      · exact .inl hnil
      · refine .inr ⟨x, rest', rfl, ?_⟩
        rintro row rfl
        obtain ⟨d, rfl, hd⟩ := row_of_issued hc hidle ht (l := [⟨.time, .ok now⟩]) rfl
        obtain ⟨-, hdowner, hdclient⟩ := ApiCredential.same_of_identity hd
        refine ⟨d, rfl, hdclient, hdowner, fun hlive => ?_, fun hrevoked => ?_⟩
        · exact (hrow _ rfl).1 ⟨d, rfl, hlive, hdowner⟩
        · refine (hrow _ rfl).2 ?_
          rintro ⟨e, he, hlive, -⟩
          obtain rfl := Option.some.inj he
          exact hrevoked hlive
  · next hdead =>
    rw [if_neg hdead] at hclaims
    rcases log_of_request hreplays with ⟨e, he, hnil, hcode⟩ | ⟨claim, he, -⟩
    · rw [hclaims] at he
      obtain rfl := Except.error.inj he
      exact ⟨hnil, hcode⟩
    · rw [hclaims] at he
      cases he

end

namespace Sample

/-- A field of a token: its characters, each after a comma, and a full stop. -/
def field : Str → Str
  | [] => ['.']
  | c :: s => ',' :: c :: field s

def unfield : Str → Str × Str
  | ',' :: c :: s => (c :: (unfield s).1, (unfield s).2)
  | '.' :: s => ([], s)
  | s => ([], s)

theorem unfield_field (s t : Str) : unfield (field s ++ t) = (s, t) := by
  induction s with
  | nil => rfl
  | cons c s ih =>
    simp only [field, List.cons_append, unfield, ih]

def fields : Nat → Str → List Str
  | 0, _ => []
  | n + 1, s => (unfield s).1 :: fields n (unfield s).2

theorem fields_flatMap (ss : List Str) : fields ss.length (ss.flatMap field) = ss := by
  induction ss with
  | nil => rfl
  | cons s ss ih =>
    simp only [List.length_cons, fields, List.flatMap_cons, unfield_field, ih]

def number : Int → Str
  | .ofNat n => '+' :: List.replicate n '1'
  | .negSucc n => '-' :: List.replicate n '1'

def ofNumber : Str → Int
  | '-' :: s => .negSucc s.length
  | s => .ofNat (s.length - 1)

theorem ofNumber_number (n : Int) : ofNumber (number n) = n := by
  cases n with
  | ofNat n => simp [number, ofNumber]
  | negSucc n => simp [number, ofNumber]

def sign (p : TokenPayload) (secret : Str) : Str :=
  [secret, p.iss, p.sub, p.tid, number p.iat, number p.exp].flatMap field

def checkSigned (secret issuer : Str) (now : Nat) : List Str → Option JwtPayload
  | [secret', iss, sub, tid, iat, exp] =>
    if secret' = secret ∧ iss = issuer ∧ ofNumber iat ≤ now ∧ (now : Int) < ofNumber exp then
      some ⟨tid, sub⟩
    else none
  | _ => none

def signingExt : External :=
  { ext with
    jwtEncode := sign
    jwtDecode := fun token secret issuer now => checkSigned secret issuer now (fields 6 token) }

theorem fields_sign (p : TokenPayload) (secret : Str) :
    fields 6 (sign p secret) = [secret, p.iss, p.sub, p.tid, number p.iat, number p.exp] :=
  fields_flatMap [secret, p.iss, p.sub, p.tid, number p.iat, number p.exp]

theorem signs_signingExt (secret : Str) : Signs signingExt secret where
  valid p now hissued hlive := by
    simp only [signingExt, fields_sign, checkSigned, ofNumber_number, true_and]
    exact if_pos ⟨hissued, hlive⟩
  invalid p now hdead := by
    simp only [signingExt, fields_sign, checkSigned, ofNumber_number, true_and]
    exact if_neg hdead

def brief : Settings := { jwtTtlSeconds := 60 }

def clientId : Str := generateClientId ['a']

def creating : Visit := .createCredential [] ['a'] ['b']

def issuing : Visit := .issueToken "client_credentials".toList clientId (generateClientSecret ['b'])

def granting : List (Move Nat) :=
  .start 0 creating :: List.replicate 2 (.answer 0 oracle) ++
    .start 1 issuing :: List.replicate 7 (.answer 1 oracle)

def granted : TokenResponse :=
  ⟨(createAccessToken signingExt tenantId documentId brief.jwtSecret brief.jwtTtlSeconds 0).1, 60⟩

def listing : List (Move Nat) :=
  .start 2 (.request (some (bearer granted.accessToken)) (.list 10 0)) ::
    List.replicate 2 (.answer 2 { oracle with now := 1000000 })

def printed (clientId : Str) : Async api (Except Exn Outcome) → Bool
  | .ret (.ok (.credential id _)) => id = clientId
  | _ => false

theorem created_granting : ∃ l out secret, (gateway signingExt brief world granting).threads 0 =
    some ⟨l, out, .ret (.ok (.credential clientId secret))⟩ := by
  have hended : ((gateway signingExt brief world granting).threads 0).any
      (fun t => printed clientId t.code) = true := by decide +kernel
  obtain ⟨⟨l, out, code⟩, ht, hcode⟩ := (Option.any_eq_true _ _).mp hended
  unfold printed at hcode
  split at hcode
  · next id secret hret =>
    obtain rfl := of_decide_eq_true hcode
    exact ⟨l, out, secret, hret ▸ ht⟩
  · cases hcode

def hands (tok : TokenResponse) : Async api (Except Exn Outcome) → Bool
  | .ret (.ok (.token ⟨accessToken, expiresIn⟩)) =>
    accessToken = tok.accessToken ∧ expiresIn = tok.expiresIn
  | _ => false

def atEpoch : (e : (c : Call) × Except Exn (Reply c)) → Bool
  | ⟨.time, .ok time⟩ => time = (0 : Nat)
  | _ => true

theorem issued_granting : ∃ l out, (gateway signingExt brief world granting).threads 1 =
    some ⟨l, out, .ret (.ok (.token granted))⟩ ∧ l.all atEpoch = true := by
  have hended : ((gateway signingExt brief world granting).threads 1).any
      (fun t => hands granted t.code && t.log.all atEpoch) = true := by decide +kernel
  obtain ⟨⟨l, out, code⟩, ht, hcode⟩ := (Option.any_eq_true _ _).mp hended
  obtain ⟨hcode, hlog⟩ := Bool.and_eq_true_iff.mp hcode
  unfold hands at hcode
  split at hcode
  · next accessToken expiresIn hret =>
    obtain ⟨rfl, rfl⟩ := of_decide_eq_true hcode
    exact ⟨l, out, hret ▸ ht, hlog⟩
  · cases hcode

theorem asked_listing : ∃ rest out code,
    (gateway signingExt brief world (granting ++ listing)).threads 2 =
      some ⟨⟨.time, .ok 1000000⟩ :: rest, out, code⟩ := ⟨_, _, _, rfl⟩

end Sample

end RagPlatform
