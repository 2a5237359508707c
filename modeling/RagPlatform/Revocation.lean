import RagPlatform.Gateway
import RagPlatform.Lib.Replay
import RagPlatform.SystemLaws

/-! Credentials that have been revoked. -/

namespace RagPlatform

open Lib

def Revoked (id : Uuid) (w : World) : Prop :=
  ∃ row, w.credentials.byId id = some row ∧ row.revokedAt.isSome

/-- The one UPDATE that could undo a revocation is not asked for. -/
def Call.Spares : Call → Prop
  | .commitCredential i => i.patch.revokedAt ≠ some none
  | _ => True

section

variable {id : Uuid} {o : Oracle} {c : Call} {t : World}

theorem Credentials.update_ok {cs cs' : Credentials} {p : CredentialPatch}
    (h : cs.update id p = .ok cs') :
    p = {} ∧ cs' = cs ∨ p ≠ {} ∧ (cs.byId id).isSome ∧ cs' = cs.patch id p := by
  unfold Credentials.update at h
  split at h
  · next hp => exact .inl ⟨hp, (Except.ok.inj h).symm⟩
  · next hp =>
    split at h
    · cases h
    · next hid => exact .inr ⟨hp, by simpa [Option.isSome_iff_ne_none] using hid, (Except.ok.inj h).symm⟩

theorem revoked_patch {cs : Credentials} {i : Uuid} {p : CredentialPatch}
    (hp : p.revokedAt ≠ some none) (h : ∃ row, cs.byId id = some row ∧ row.revokedAt.isSome) :
    ∃ row, (cs.patch i p).byId id = some row ∧ row.revokedAt.isSome := by
  obtain ⟨row, hrow, hrevoked⟩ := h
  refine ⟨_, by rw [Credentials.byId_patch, hrow]; rfl, ?_⟩
  unfold Credentials.patchRow
  split
  · cases hr : p.revokedAt with
    | none => simpa [CredentialPatch.apply, hr] using hrevoked
    | some at' =>
      cases at' with
      | none => exact absurd hr hp
      | some now => simp [CredentialPatch.apply, hr]
  · exact hrevoked

theorem serve_revoked (hc : c.Spares) (h : Revoked id t) : Revoked id (serve o c t).1 := by
  cases c with
  | commitCredential i =>
    simp only [serve]
    cases hu : t.credentials.update i.loaded.id i.patch with
    | error e => exact h
    | ok cs =>
      rcases Credentials.update_ok hu with ⟨-, rfl⟩ | ⟨-, -, rfl⟩
      · exact h
      · exact revoked_patch hc h
  | insertCredential new =>
    simp only [serve, World.insertCredential]
    split
    · cases hi : t.credentials.insert (new.row o.uuid) with
      | error e => exact h
      | ok cs =>
        obtain ⟨row, hrow, hrevoked⟩ := h
        unfold Credentials.insert at hi
        split at hi
        · next hf =>
          obtain rfl := Except.ok.inj hi
          exact ⟨row, t.credentials.byId_add hf hrow, hrevoked⟩
        · cases hi
    · exact h
  | insertDocument d =>
    simp only [serve]
    cases t.db.insertDocument (d.row o.uuid o.now) <;> exact h
  | commit txn =>
    simp only [serve]
    cases t.db.commit txn o.skip <;> exact h
  | insertUsage u =>
    simp only [serve, World.insertUsage]
    split
    · exact h
    · split <;> exact h
  | getTenant | sumSizeBytes | getDocument | deleteChunks | rollback | deleteDocument
  | embedDocuments | delay | findTenant | findCredential | time | loopTime | sleep | isDisconnected
  | getCredential | incr | expire | countDocuments | listDocuments | embedQuery | denseSearch
  | keywordSearch | rerank | generate | stream | usageRollup => exact h

theorem exec_revoked (hc : c.Spares) (h : Revoked id t) : Revoked id (exec o c t).1 := by
  rcases exec_cases o c t with he | ⟨_, -, he | ⟨-, he⟩⟩
  · rw [he]; exact serve_revoked hc h
  · rw [he]; exact h
  · rw [he]; exact serve_revoked hc h

end

def lasting (id : Uuid) : Contract api World Oracle where
  inv _ := True
  rely s t := Revoked id s → Revoked id t
  guar s t := Revoked id s → Revoked id t
  rely_refl _ h := h
  rely_trans h h' hs := h' (h hs)

section

variable {ext : External} {settings : Settings} {id : Uuid}

theorem lasting_call {c : Call} (hc : c.Spares) :
    Keeps exec (lasting id) (fun _ => True) (perform c) :=
  keeps_perform (fun _ _ => trivial) fun _ _ _ _ _ => ⟨trivial, exec_revoked hc⟩

theorem lasting_commits {txn : Txn} {t : World} :
    Commits (lasting id) txn t (fun _ => True) fun _ => True :=
  fun _ _ _ => ⟨⟨trivial, trivial, fun h => h⟩, fun _ _ =>
    ⟨trivial, fun h => h, trivial, fun _ _ => trivial⟩⟩

theorem lasting_api : ApiProof (lasting id) ext settings Instance.Fresh where
  guar_refl _ h := h
  stop _ _ := trivial
  register _ _ _ _ := keeps_register (fun _ _ => trivial) (fun _ h => h)
    fun _ _ _ _ _ _ => ⟨trivial, exec_revoked trivial⟩
  fail _ _ _ _ _ := lasting_commits
  delay _ _ _ _ _ _ := ⟨trivial, exec_revoked trivial⟩
  meter _ _ _ _ _ _ := ⟨trivial, exec_revoked trivial⟩
  delete _ _ _ _ _ _ := ⟨trivial, exec_revoked trivial⟩

theorem lasting_task (retries : Nat) (documentId : Uuid) :
    Keeps exec (lasting id) (fun _ => True) (ingestDocument ext settings retries documentId) :=
  keeps_ingestDocument
    (.of_wpE fun _ _ => ⟨_, (ProcessProof.of_commits (fun _ h => h) (fun _ _ => trivial)
      fun _ _ _ => lasting_commits).wpE_process trivial⟩)
    fun _ => keeps_markFailed (fun _ _ => trivial) (fun _ h => h)
      fun _ _ _ _ _ _ _ => lasting_commits

theorem lasting_rateLimit (limit : Int) (key : Str) :
    Keeps exec (lasting id) (fun _ => True) (RateLimiter.check limit key) := by
  refine .bind (lasting_call trivial) fun time _ => .bind (R := fun _ => True) ?_ fun count _ => ?_
  · refine .tryCatch (.bind (R := fun _ => True) ?_ fun _ _ => .pure trivial) fun e => ?_
    · refine .bind (lasting_call trivial) fun count _ => ?_
      split
      · exact .bind (lasting_call trivial) fun _ _ => .pure trivial
      · exact .pure trivial
    · split
      · exact .pure trivial
      · exact .throw e
  · cases count with
    | none => exact .pure trivial
    | some count =>
      simp only
      split
      · exact .throw _
      · exact .pure trivial

theorem touched_patch (credential : ApiCredential) (now : Nat) :
    (touched credential now).patch.revokedAt = none := if_pos rfl

theorem revoked_patch_revokedAt (credential : ApiCredential) (now : Nat) :
    (revoked credential now).patch.revokedAt =
      if credential.revokedAt.isSome then none else some (some now) := by
  cases h : credential.revokedAt with
  | none => simp [revoked, CredentialInstance.patch, CredentialInstance.load, h]
  | some at' => simp [revoked, CredentialInstance.patch, CredentialInstance.load, h]

theorem lasting_issueToken (grantType clientId clientSecret : Str) :
    Keeps exec (lasting id) (fun _ => True)
      (issueToken ext settings grantType clientId clientSecret) := by
  refine .bind (lasting_rateLimit _ _) fun _ _ => ?_
  split
  · exact .throw _
  · exact .bind (lasting_call trivial) fun row _ => .bind (keeps_ofExcept _) fun credential _ =>
      .bind (lasting_call trivial) fun now _ =>
        .bind (lasting_call (by simp [Call.Spares, touched_patch])) fun _ _ =>
          .bind (lasting_call trivial) fun _ _ => .pure trivial

theorem lasting_createCredential (slug randomId randomSecret : Str) :
    Keeps exec (lasting id) (fun _ => True)
      (createCredential ext slug randomId randomSecret) := by
  refine .bind (R := fun _ => True) (.bind (lasting_call trivial) fun tenant _ => ?_) fun tenant _ =>
    .bind (lasting_call trivial) fun _ _ => .pure trivial
  cases tenant with
  | none => exact .throw _
  | some tenant => exact .pure trivial

theorem lasting_revokeCredential (clientId : Str) :
    Keeps exec (lasting id) (fun _ => True) (revokeCredential ext clientId) := by
  refine .bind (lasting_call trivial) fun row _ => ?_
  cases row with
  | none => exact .throw _
  | some credential =>
    refine .bind (lasting_call trivial) fun now _ =>
      .bind (lasting_call ?_) fun _ _ => .pure trivial
    simp only [Call.Spares, revoked_patch_revokedAt]
    split
    · simp
    · simp

theorem lasting_getCurrentTenant (authorization : Option Str) :
    Keeps exec (lasting id) (fun _ => True) (getCurrentTenant ext settings authorization) := by
  refine .bind (lasting_call trivial) fun time _ => .bind (keeps_ofExcept _) fun claims _ =>
    .bind (lasting_call trivial) fun credential _ => ?_
  cases credential with
  | none => exact .throw _
  | some credential =>
    simp only
    split
    · exact .throw _
    · exact .pure trivial

theorem lasting_visit (visit : Visit) :
    Keeps exec (lasting id) (fun _ => True) (visit.code ext settings) := by
  cases visit with
  | request authorization endpoint =>
    exact .bind (lasting_getCurrentTenant authorization) fun claims _ =>
      .bind (lasting_rateLimit _ _) fun _ _ => lasting_api.keeps_job lasting_task _
  | deliver retries documentId =>
    exact lasting_api.keeps_job lasting_task (.deliver retries documentId)
  | issueToken grantType clientId clientSecret =>
    exact .bind (lasting_issueToken _ _ _) fun _ _ => .pure trivial
  | createCredential slug randomId randomSecret =>
    exact .bind (lasting_createCredential _ _ _) fun _ _ => .pure trivial
  | revokeCredential clientId =>
    exact .bind (lasting_revokeCredential clientId) fun _ _ => .pure trivial

end

section

variable {ι : Type} [DecidableEq ι] {ext : External} {settings : Settings} {w : World}
  {moves moves' : List (Move ι)} {i : ι}

theorem gateway_append : gateway ext settings w (moves ++ moves') =
    (gateway ext settings w moves).run exec (moves'.map (Move.event ext settings)) := by
  rw [gateway, List.map_append, Pool.run_append]
  rfl

theorem revoked_permanent {id : Uuid} (moves' : List (Move ι))
    (h : Revoked id (gateway ext settings w moves).state) :
    Revoked id (gateway ext settings w (moves ++ moves')).state := by
  let R : Pool.Rules api World Oracle ι (Except Exn Outcome) :=
    { spawn := fun _ p _ => ∃ visit : Visit, p = visit.code ext settings
      step := fun _ _ _ _ => True }
  have hobeys (moves : List (Move ι)) (P : Platform ι) :
      P.Obeys exec R (moves.map (Move.event ext settings)) := by
    refine Pool.obeys_of_forall exec (fun i p hp s => ?_) fun _ _ _ _ => trivial
    obtain ⟨move, -, hm⟩ := List.mem_map.mp hp
    cases move with
    | start j visit =>
      simp only [Move.event, Event.spawn.injEq] at hm
      exact ⟨visit, hm.2.symm⟩
    | answer j o => cases hm
    | kill j => cases hm
  have hspawn (i : ι) (p : Async api (Except Exn Outcome)) (s : World)
      (hp : ∃ visit : Visit, p = visit.code ext settings) (_ : (lasting id).inv s) :
      wp exec (lasting id) (fun _ _ _ => True) p s [] := by
    obtain ⟨visit, rfl⟩ := hp
    exact wp_mono (lasting_visit visit s []) fun _ _ _ _ _ => trivial
  have hgood : (gateway ext settings w moves).Good exec (lasting id) fun _ _ _ => True :=
    (Pool.Good.run (R := R) (fun h => h) hspawn (fun _ _ _ _ _ => trivial)
      (Pool.good_init trivial) (hobeys moves _)).1
  have hlater := (Pool.Good.run (R := R) (fun h => h) hspawn (fun _ _ _ _ _ => trivial) hgood
    (hobeys moves' _)).2
  rw [gateway_append]
  exact hlater h

theorem gateway_answer {l : Log api} {out : List ServerEvent} {c : Call}
    {k : Except Exn (Reply c) → Async api (Except Exn Outcome)} {o : Oracle}
    (h : (gateway ext settings w moves).threads i = some ⟨l, out, .await c k⟩) :
    (gateway ext settings w (moves ++ [.answer i o])).state =
      (exec o c (gateway ext settings w moves).state).1 := by
  rw [gateway_append]
  change (Pool.next exec _ (.step i o)).state = _
  simp only [Pool.next, h]

theorem exists_answer {t : Thread api (Except Exn Outcome)}
    (ht : (gateway ext settings w moves).threads i = some t) {l l' : Log api} {c : Call}
    {x : Except Exn (Reply c)} (hl : t.log = l ++ ⟨c, x⟩ :: l') :
    ∃ before o after out k, moves = before ++ .answer i o :: after ∧
      (gateway ext settings w before).threads i = some ⟨l, out, .await c k⟩ ∧
      x = (exec o c (gateway ext settings w before).state).2 := by
  obtain ⟨es, o, es', out, k, hes, hk, hx⟩ := Pool.exists_step_of_log rfl ht hl
  obtain ⟨before, rest, rfl, rfl, hrest⟩ := List.map_eq_append_iff.mp hes
  obtain ⟨move, after, rfl, hmove, -⟩ := List.map_eq_cons_iff.mp hrest
  cases move with
  | start j visit => cases hmove
  | kill j => cases hmove
  | answer j o' =>
    simp only [Move.event, Event.step.injEq] at hmove
    obtain ⟨rfl, rfl⟩ := hmove
    exact ⟨before, o', after, out, k, rfl, hk, hx⟩

end

section

variable {ext : External} {settings : Settings} {l : Log api}

theorem replays_perform {α : Type} {c : Call} {f : Reply c → Io α} {r : Except Exn α}
    (h : (perform c >>= f).run.Replays l (.ret r)) : ∃ x l', l = ⟨c, x⟩ :: l' ∧
      match x with
      | .ok a => (f a).run.Replays l' (.ret r)
      | .error e => l' = [] ∧ r = .error e := by
  obtain ⟨x, l', rfl, hx⟩ := Async.Replays.returns h
  refine ⟨x, l', rfl, ?_⟩
  cases x with
  | ok a => exact hx
  | error e =>
    obtain ⟨rfl, hr⟩ := Async.Replays.ret hx
    exact ⟨rfl, by injection hr⟩

def Passed (ext : External) (settings : Settings) (authorization : Option Str) (l : Log api)
    (c : TokenClaims) : Prop :=
  (getCurrentTenant ext settings authorization).run.Replays l (.ret (.ok c))

theorem Passed.log {authorization : Option Str} {c : TokenClaims}
    (h : Passed ext settings authorization l c) :
    ∃ time row, l = [⟨.time, .ok time⟩, ⟨.getCredential c.credentialId, .ok (some row)⟩] ∧
      row.revokedAt = none ∧ row.tenantId = c.tenantId := by
  obtain ⟨e | time, l₁, rfl, h₁⟩ := replays_perform h
  · cases h₁.2
  cases hc : claims ext settings authorization (time / 1000000) with
  | error e =>
    simp only [hc] at h₁
    cases (Async.Replays.ret h₁).2
  | ok claims =>
    simp only [hc] at h₁
    obtain ⟨e | found, l₂, rfl, h₂⟩ := replays_perform h₁
    · cases h₂.2
    cases found with
    | none => cases (Async.Replays.ret h₂).2
    | some row =>
      simp only at h₂
      split at h₂
      · cases (Async.Replays.ret h₂).2
      · next hrow =>
        simp only [not_or, Bool.not_eq_true, Option.isSome_eq_false_iff, Option.isNone_iff_eq_none,
          ne_eq, not_not] at hrow
        obtain ⟨rfl, hr⟩ := Async.Replays.ret h₂
        cases hr
        exact ⟨time, row, rfl, hrow.1, hrow.2⟩

def RevokedBy (ext : External) (clientId : Str) (l : Log api) (credential : ApiCredential) : Prop :=
  (revokeCredential ext clientId).run.Replays l (.ret (.ok credential))

theorem RevokedBy.log {clientId : Str} {credential : ApiCredential}
    (h : RevokedBy ext clientId l credential) :
    ∃ row now, l = [⟨.findCredential clientId, .ok (some row)⟩, ⟨.time, .ok now⟩,
        ⟨.commitCredential (revoked row now), .ok ()⟩] ∧
      credential = (revoked row now).current := by
  obtain ⟨e | found, l₁, rfl, h₁⟩ := replays_perform h
  · cases h₁.2
  cases found with
  | none => cases (Async.Replays.ret h₁).2
  | some row =>
    obtain ⟨e | now, l₂, rfl, h₂⟩ := replays_perform h₁
    · cases h₂.2
    obtain ⟨e | ⟨⟩, l₃, rfl, h₃⟩ := replays_perform h₂
    · cases h₃.2
    obtain ⟨rfl, hr⟩ := Async.Replays.ret h₃
    cases hr
    exact ⟨row, now, rfl, rfl⟩

end

theorem Credentials.byId_of_byClientId {cs : Credentials} {clientId : Str} {c : ApiCredential}
    (h : cs.byClientId clientId = some c) : cs.byId c.id = some c := by
  have hc : c ∈ cs.rows := List.mem_of_find?_eq_some h
  cases hd : cs.byId c.id with
  | none => exact absurd (decide_eq_true rfl) (List.find?_eq_none.mp hd c hc)
  | some d =>
    have hid := cs.byId_id hd
    rw [List.inj_on_of_nodup_map cs.pk (List.mem_of_find?_eq_some hd) hc hid]

theorem revoked_of_commit {o : Oracle} {t : World} {row : ApiCredential} {now : Nat}
    (hrow : row.revokedAt = none) (h : (exec o (.commitCredential (revoked row now)) t).2 = .ok ()) :
    Revoked row.id (exec o (.commitCredential (revoked row now)) t).1 := by
  have hpatch : (revoked row now).patch = { revokedAt := some (some now) } := by
    simp [revoked, CredentialInstance.patch, CredentialInstance.load, hrow]
  have he := exec_ok h
  rw [he] at h ⊢
  simp only [serve, hpatch] at h ⊢
  cases hu : t.credentials.update (revoked row now).loaded.id { revokedAt := some (some now) } with
  | error e =>
    rw [hu] at h
    cases h
  | ok cs =>
    rcases Credentials.update_ok hu with ⟨hp, -⟩ | ⟨-, hsome, rfl⟩
    · simp at hp
    · obtain ⟨d, hd⟩ := Option.isSome_iff_exists.mp hsome
      change t.credentials.byId row.id = some d at hd
      refine ⟨_, by rw [World.writeCredentials, Credentials.byId_patch, hd]; rfl, ?_⟩
      have hid : d.id = row.id := t.credentials.byId_id hd
      simp [Credentials.patchRow, hid, revoked, CredentialInstance.load, CredentialPatch.apply]

section

variable {ι : Type} [DecidableEq ι] {ext : External} {settings : Settings} {w : World}
  {moves : List (Move ι)} {i : ι} {t : Thread api (Except Exn Outcome)} {l : Log api}

theorem revoked_of_revokedBy (ht : (gateway ext settings w moves).threads i = some t)
    {clientId : Str} {credential : ApiCredential} (hl : l <+: t.log)
    (h : RevokedBy ext clientId l credential) :
    Revoked credential.id (gateway ext settings w moves).state := by
  obtain ⟨row, now, rfl, rfl⟩ := h.log
  obtain ⟨rest, hlog⟩ := hl
  cases hrow : row.revokedAt with
  | some at' =>
    obtain ⟨before, o, after, out, k, rfl, -, hx⟩ := exists_answer ht (l := []) hlog.symm
    have he := exec_ok hx.symm
    rw [he] at hx
    refine revoked_permanent _ ⟨row, Credentials.byId_of_byClientId (Except.ok.inj hx).symm, ?_⟩
    rw [hrow]
    rfl
  | none =>
    obtain ⟨before, o, after, out, k, rfl, hk, hx⟩ := exists_answer ht
      (l := [⟨.findCredential clientId, .ok (some row)⟩, ⟨.time, .ok now⟩]) hlog.symm
    have hnow := revoked_of_commit hrow hx.symm
    rw [← gateway_answer hk] at hnow
    have hlater := revoked_permanent after hnow
    rwa [List.append_assoc] at hlater

/-- A request passes only on a credential that is live when it is read, and that no revocation has
reached at any time before. -/
theorem revocation_permanent (ht : (gateway ext settings w moves).threads i = some t)
    (hl : l <+: t.log) {authorization : Option Str} {c : TokenClaims}
    (hpassed : Passed ext settings authorization l c) :
    ∃ before o after l₀ out k row, moves = before ++ .answer i o :: after ∧
      (gateway ext settings w before).threads i =
        some ⟨l₀, out, .await (.getCredential c.credentialId) k⟩ ∧
      l = l₀ ++ [⟨.getCredential c.credentialId, .ok (some row)⟩] ∧
      (gateway ext settings w before).state.credentials.byId c.credentialId = some row ∧
      row.revokedAt = none ∧ row.tenantId = c.tenantId ∧
      ∀ early late, before = early ++ late →
        ¬ Revoked c.credentialId (gateway ext settings w early).state ∧
        ∀ j u clientId l' credential, (gateway ext settings w early).threads j = some u →
          l' <+: u.log → RevokedBy ext clientId l' credential →
            credential.id ≠ c.credentialId := by
  obtain ⟨time, row, rfl, hrevoked, htenant⟩ := hpassed.log
  obtain ⟨rest, hlog⟩ := hl
  obtain ⟨before, o, after, out, k, rfl, hk, hx⟩ :=
    exists_answer ht (l := [⟨.time, .ok time⟩]) hlog.symm
  have he := exec_ok hx.symm
  rw [he] at hx
  have hrow : (gateway ext settings w before).state.credentials.byId c.credentialId = some row :=
    (Except.ok.inj hx).symm
  have hearly (early late : List (Move ι)) (he : before = early ++ late) :
      ¬ Revoked c.credentialId (gateway ext settings w early).state := by
    intro h
    obtain ⟨row', hrow', hsome⟩ := revoked_permanent late h
    rw [← he, hrow] at hrow'
    rw [← Option.some.inj hrow', hrevoked] at hsome
    cases hsome
  refine ⟨before, o, after, _, out, k, row, rfl, hk, rfl, hrow, hrevoked, htenant,
    fun early late he => ⟨hearly early late he, ?_⟩⟩
  intro j u clientId l' credential hu hl' hby hid
  exact hearly early late he (hid ▸ revoked_of_revokedBy hu hl' hby)

end

namespace Sample

def credential : ApiCredential := ⟨⟨11⟩, tenantId, ['c'], [], none, none⟩

def badge : TokenClaims := ⟨tenantId, credential.id⟩

def badgeExt : External :=
  { ext with jwtDecode := fun _ _ _ _ => some ⟨tenantId.str, credential.id.str⟩ }

def guarded : World := { world with credentials := { rows := [credential] } }

/-- A request passes, the credential is revoked, and another request asks in vain. -/
def revoking : List (Move Nat) :=
  .start 0 (.request (some "Bearer a".toList) (.list 10 0)) :: List.replicate 2 (.answer 0 oracle) ++
    .start 1 (.revokeCredential ['c']) :: List.replicate 3 (.answer 1 oracle) ++
    .start 2 (.request (some "Bearer a".toList) (.list 10 0)) :: List.replicate 2 (.answer 2 oracle)

def checked : Log api :=
  [⟨.time, .ok 0⟩, ⟨.getCredential badge.credentialId, .ok (some credential)⟩]

theorem passed : Passed badgeExt {} (some "Bearer a".toList) checked badge :=
  .await (.await (.refl _))

theorem thread_checked : ∃ t, (gateway badgeExt {} guarded revoking).threads 0 = some t ∧
    t.log = checked := ⟨_, rfl, rfl⟩

end Sample

theorem revocation_permanent_sample : ∃ before o after row,
    Sample.revoking = before ++ .answer 0 o :: after ∧
      (gateway Sample.badgeExt {} Sample.guarded before).state.credentials.byId
        Sample.badge.credentialId = some row ∧ row.revokedAt = none ∧
      ∀ early late, before = early ++ late → ¬ Revoked Sample.badge.credentialId
        (gateway Sample.badgeExt {} Sample.guarded early).state := by
  obtain ⟨t, ht, hlog⟩ := Sample.thread_checked
  obtain ⟨before, o, after, -, -, -, row, hmoves, -, -, hrow, hlive, -, hearly⟩ :=
    revocation_permanent ht (hlog ▸ List.prefix_rfl) Sample.passed
  exact ⟨before, o, after, row, hmoves, hrow, hlive, fun early late he => (hearly early late he).1⟩

end RagPlatform
