import RagPlatform.Api.Duties
import RagPlatform.Worker.Broker
import RagPlatform.Worker.Duties

/-! A document that is `PENDING` or `PROCESSING` always has a message, a worker or a request that
will see to it. -/

namespace RagPlatform

open Lib

theorem payloads_exec {o : Oracle} {c : Call} {w : World} (h : Payloads w) :
    Payloads (exec o c w).1 := by
  intro id d hd
  have heffect := exec_effect o c w
  generalize (exec o c w).1.db = db at heffect hd
  cases heffect with
  | same => exact h id d hd
  | @insert e hfits _ =>
    rw [Database.document_add] at hd
    split at hd
    · exact Option.some.inj hd ▸ nofun
    · exact h id d hd
  | @commit t _ hcommit =>
    rw [document_commit hcommit] at hd
    split at hd
    · obtain ⟨e, he, rfl⟩ := Option.map_eq_some_iff.mp hd
      exact h _ e he
    · exact h id d hd
  | delete =>
    rw [Database.document_deleteDocument] at hd
    split at hd
    · cases hd
    · exact h id d hd

/-- The document a worker with this message is at; an API process may be at any. -/
def Serves (unacked : Option Message) (id : Uuid) : Prop :=
  ∀ message, unacked = some message → message.documentId = id

def Reorders (unacked : Option Message) (r : Except Exn Outcome) : Prop :=
  unacked.isSome ∧ ∃ countdown, r = .ok (.task (.retry countdown))

namespace Fleet

variable {ι : Type} [DecidableEq ι] (ext : External) (settings : Settings) (F : Fleet ι)

/-- The happenings under consideration.  A request dies neither between the INSERT of a row and
`delay`, nor while it marks a row that it could not enqueue. -/
def Allows : Incident ι → Prop
  | .answer i o => ∀ t, F.platform.threads i = some t → ∀ c k, t.code = .await c k →
      Heedful (F.unacked i).isSome t.log o c
  | .die i => F.unacked i = none → ∀ t, F.platform.threads i = some t →
      ∀ id c, t.code.pending = .inr c → ¬Handing id c
  | _ => True

def Obeys : List (Incident ι) → Fleet ι → Prop
  | [], _ => True
  | h :: hs, F => F.Allows h ∧ Obeys hs (F.next ext settings h)

end Fleet

abbrev Process := Thread api (Except Exn Outcome)

def Sees (unacked : Option Message) (id : Uuid) (t : Process) : Prop :=
  Serves unacked id ∧
    t.code.Minds exec (attendance unacked.isSome) id (fun r _ => Reorders unacked r) t.log

def Mindful (unacked : Option Message) (t : Process) : Prop :=
  t.code.Careful exec (attendance unacked.isSome) (Serves unacked)
    (fun _ r _ => Reorders unacked r) t.log

section

variable {ext : External} {settings : Settings}

theorem mindful_call (tenantId : Uuid) (endpoint : Endpoint) :
    Mindful none { code := (endpoint.job tenantId).code ext settings } := by
  unfold Mindful
  rw [show Serves none = fun _ => True from funext fun _ => eq_true nofun]
  exact careful_job _ endpoint

theorem mindful_delivery (message : Message) : Mindful (some message)
    { code := (Job.deliver message.retries message.documentId).code ext settings } := by
  unfold Mindful
  rw [show Serves (some message) = (· = message.documentId) from funext fun id =>
    propext ⟨fun h => (h message rfl).symm, fun h _ hm => Option.some.inj hm ▸ h.symm⟩]
  refine CarefulE.bind (careful_ingestDocument.mono fun _ _ r _ hr => ?_) fun _ _ => .pure _ _
  obtain ⟨countdown, rfl⟩ := hr
  exact ⟨rfl, countdown, rfl⟩

theorem sees_delivery (message : Message) : Sees (some message) message.documentId
    { code := (Job.deliver message.retries message.documentId).code ext settings } := by
  refine ⟨fun _ h => by rw [Option.some.inj h], MindsE.bind (minds_ingestDocument.mono ?_)⟩
  rintro r _ ⟨countdown, rfl⟩
  exact ⟨rfl, countdown, rfl⟩

end

namespace Fleet

variable {ι : Type} [DecidableEq ι] {ext : External} {settings : Settings} {F : Fleet ι}

structure Attended (F : Fleet ι) : Prop where
  payloads : Payloads F.state
  idle : ∀ i, F.platform.threads i = none → F.unacked i = none
  mindful : ∀ i t, F.platform.threads i = some t → Mindful (F.unacked i) t
  seen : ∀ id, Unsettled F.state id → (∃ message ∈ F.ready, message.documentId = id) ∨
    ∃ i t, F.platform.threads i = some t ∧ Sees (F.unacked i) id t

omit [DecidableEq ι] in
theorem attended_start {w : World} {ready : List Message} (hpayloads : Payloads w)
    (hready : ∀ id, Unsettled w id → ∃ message ∈ ready, message.documentId = id) :
    (start w ready : Fleet ι).Attended where
  payloads := hpayloads
  idle _ _ := rfl
  mindful _ _ ht := by cases ht
  seen id hid := .inl (hready id hid)

/-- What happens at thread `i` alone. -/
theorem Attended.change {F' : Fleet ι} {i : ι} {thread : Option Process} {unacked : Option Message}
    (h : F.Attended) (hthreads : F'.platform.threads = Function.update F.platform.threads i thread)
    (hunacked : F'.unacked = Function.update F.unacked i unacked) (hpayloads : Payloads F'.state)
    (hidle : thread = none → unacked = none) (hmindful : ∀ t, thread = some t → Mindful unacked t)
    (hseen : ∀ id, Unsettled F'.state id →
      (∃ message ∈ F'.ready, message.documentId = id) ∨
      (∃ j t, j ≠ i ∧ F.platform.threads j = some t ∧ Sees (F.unacked j) id t) ∨
      ∃ t, thread = some t ∧ Sees unacked id t) : F'.Attended where
  payloads := hpayloads
  idle j hj := by
    rw [hthreads] at hj
    rw [hunacked]
    by_cases hji : j = i
    · subst hji
      rw [Function.update_self] at hj ⊢
      exact hidle hj
    · rw [Function.update_of_ne hji] at hj ⊢
      exact h.idle j hj
  mindful j t ht := by
    rw [hthreads] at ht
    rw [hunacked]
    by_cases hji : j = i
    · subst hji
      rw [Function.update_self] at ht ⊢
      exact hmindful t ht
    · rw [Function.update_of_ne hji] at ht ⊢
      exact h.mindful j t ht
  seen id hid := by
    rw [hthreads, hunacked]
    rcases hseen id hid with hready | ⟨j, t, hji, ht, hsees⟩ | ⟨t, ht, hsees⟩
    · exact .inl hready
    · refine .inr ⟨j, t, ?_⟩
      rw [Function.update_of_ne hji, Function.update_of_ne hji]
      exact ⟨ht, hsees⟩
    · refine .inr ⟨i, t, ?_⟩
      rw [Function.update_self, Function.update_self]
      exact ⟨ht, hsees⟩

omit [DecidableEq ι] in
theorem ne_of_threads {i j : ι} {t : Process} (hi : F.platform.threads i = none)
    (hj : F.platform.threads j = some t) : j ≠ i := by
  rintro rfl
  rw [hi] at hj
  cases hj

theorem spawn_of_none {i : ι} (h : F.platform.threads i = none) (p : Io Outcome) :
    F.spawn i p = F.platform.set i (some { code := p }) := by
  simp only [spawn, Pool.next, h]

theorem spawn_of_some {i : ι} {t : Process} (h : F.platform.threads i = some t) (p : Io Outcome) :
    F.spawn i p = F.platform := by
  simp only [spawn, Pool.next, h]

theorem Attended.call (h : F.Attended) (i : ι) (tenantId : Uuid) (endpoint : Endpoint) :
    (F.next ext settings (.call i tenantId endpoint)).Attended := by
  cases hi : F.platform.threads i with
  | some t =>
    rw [next, spawn_of_some hi]
    exact h
  | none =>
    rw [next, spawn_of_none hi]
    have hunacked : F.unacked = Function.update F.unacked i none := by
      rw [← h.idle i hi, Function.update_eq_self]
    refine h.change rfl hunacked h.payloads (fun _ => rfl)
      (fun t ht => Option.some.inj ht ▸ mindful_call tenantId endpoint) fun id hid => ?_
    rcases h.seen id hid with hready | ⟨j, t, hj, hsees⟩
    · exact .inl hready
    · exact .inr (.inl ⟨j, t, ne_of_threads hi hj, hj, hsees⟩)

theorem Attended.take (h : F.Attended) (i : ι) (message : Message) :
    (F.next ext settings (.take i message)).Attended := by
  by_cases hm : message ∈ F.ready ∧ (F.platform.threads i).isNone
  · have hi : F.platform.threads i = none := Option.isNone_iff_eq_none.mp hm.2
    rw [next, if_pos hm, spawn_of_none hi]
    refine h.change rfl rfl h.payloads nofun
      (fun t ht => Option.some.inj ht ▸ mindful_delivery message) fun id hid => ?_
    rcases h.seen id hid with ⟨m, hmem, rfl⟩ | ⟨j, t, hj, hsees⟩
    · by_cases heq : m = message
      · exact .inr (.inr ⟨_, rfl, heq ▸ sees_delivery message⟩)
      · exact .inl ⟨m, (List.mem_erase_of_ne heq).mpr hmem, rfl⟩
    · exact .inr (.inl ⟨j, t, ne_of_threads hi hj, hj, hsees⟩)
  · rw [next, if_neg hm]
    exact h

/-- A process is gone, and the messages in `ready` go back to the queue. -/
theorem Attended.leave {i : ι} {ready : List Message} (h : F.Attended)
    (hready : ∀ id t, F.platform.threads i = some t → Sees (F.unacked i) id t →
      ∃ message ∈ ready, message.documentId = id) :
    ({ platform := F.platform.set i none, ready := F.ready ++ ready,
       unacked := Function.update F.unacked i none } : Fleet ι).Attended := by
  refine h.change rfl rfl h.payloads (fun _ => rfl) nofun fun id hid => ?_
  rcases h.seen id hid with ⟨m, hm, hid⟩ | ⟨j, t, hj, hsees⟩
  · exact .inl ⟨m, List.mem_append_left _ hm, hid⟩
  · by_cases hji : j = i
    · subst hji
      obtain ⟨m, hm, hid⟩ := hready id t hj hsees
      exact .inl ⟨m, List.mem_append_right _ hm, hid⟩
    · exact .inr (.inl ⟨j, t, hji, hj, hsees⟩)

theorem Attended.finish (h : F.Attended) (i : ι) :
    (F.next ext settings (.finish i)).Attended := by
  simp only [next]
  split
  · next l out r message hthread hunacked =>
    refine h.leave fun id t ht ⟨hserves, hminds⟩ => ?_
    obtain rfl := Option.some.inj (hthread.symm.trans ht)
    obtain ⟨-, countdown, rfl⟩ : Reorders _ r := hminds
    exact ⟨_, .head _, hserves message hunacked⟩
  · exact h

theorem Attended.die {i : ι} (h : F.Attended) (hallows : F.Allows (.die i)) :
    (F.next ext settings (.die i)).Attended := by
  refine h.leave fun id t ht ⟨hserves, hminds⟩ => ?_
  cases hunacked : F.unacked i with
  | some message => exact ⟨message, .head _, hserves message hunacked⟩
  | none =>
    -- a request that sees to a row is handing it on, and does not die there
    rw [hunacked] at hminds
    rcases hminds.pending with ⟨r, -, hr, -⟩ | ⟨c, hc, hplace | hplace⟩
    · cases hr
    · cases hplace
    · exact absurd hplace (hallows hunacked t ht id c hc)

theorem dispatched_self (w : World) : dispatched w w = [] := by
  simp [dispatched]

theorem Attended.step {i : ι} {t t' : Process} {w : World} (h : F.Attended)
    (hi : F.platform.threads i = some t) (hpayloads : Payloads w)
    (hmindful : Mindful (F.unacked i) t')
    (hkept : ∀ id, Unsettled w id → Unsettled F.state id → Sees (F.unacked i) id t →
      id ∈ w.queue.drop F.state.queue.length ∨ Sees (F.unacked i) id t')
    (hnew : ∀ id, Unsettled w id → ¬Unsettled F.state id →
      id ∈ w.queue.drop F.state.queue.length ∨ Sees (F.unacked i) id t') :
    ({ platform := ⟨w, Function.update F.platform.threads i (some t')⟩
       ready := F.ready ++ dispatched F.state w
       unacked := F.unacked } : Fleet ι).Attended := by
  refine h.change (i := i) rfl (Function.update_eq_self _ _).symm hpayloads nofun
    (fun u hu => Option.some.inj hu ▸ hmindful) fun id hid => ?_
  have hstep (hcase : id ∈ w.queue.drop F.state.queue.length ∨ Sees (F.unacked i) id t') :
      (∃ message ∈ F.ready ++ dispatched F.state w, message.documentId = id) ∨
        ∃ u, some t' = some u ∧ Sees (F.unacked i) id u := by
    rcases hcase with hqueue | hsees
    · exact .inl ⟨_, List.mem_append_right _ (List.mem_map_of_mem hqueue), rfl⟩
    · exact .inr ⟨t', rfl, hsees⟩
  by_cases hold : Unsettled F.state id
  · rcases h.seen id hold with ⟨m, hm, hid⟩ | ⟨j, u, hj, hsees⟩
    · exact .inl ⟨m, List.mem_append_left _ hm, hid⟩
    · by_cases hji : j = i
      · subst hji
        obtain rfl := Option.some.inj (hi.symm.trans hj)
        exact (hstep (hkept id hid hold hsees)).imp_right .inr
      · exact .inr (.inl ⟨j, u, hji, hj, hsees⟩)
  · exact (hstep (hnew id hid hold)).imp_right .inr

theorem Attended.answer {i : ι} {o : Oracle} (h : F.Attended) (hallows : F.Allows (.answer i o)) :
    (F.next ext settings (.answer i o)).Attended := by
  have hsame (hplatform : F.platform.next exec (.step i o) = F.platform) :
      (F.next ext settings (.answer i o)).Attended := by
    simp only [next, hplatform]
    rw [show dispatched F.state F.platform.state = [] from dispatched_self _, List.append_nil]
    exact h
  cases hi : F.platform.threads i with
  | none => exact hsame (by simp only [Pool.next, hi])
  | some t =>
    obtain ⟨l, out, code⟩ := t
    have hmindful : code.Careful .. := h.mindful i _ hi
    cases code with
    | ret r => exact hsame (by simp only [Pool.next, hi])
    | emit y p =>
      simp only [next, Pool.next, hi]
      exact h.step hi h.payloads hmindful (fun _ _ _ hsees => .inr hsees)
        fun _ hid hold => absurd hid hold
    | await c k =>
      simp only [next, Pool.next, hi]
      have hstep : (attendance (F.unacked i).isSome).step l o c F.state :=
        ⟨hallows _ hi c k rfl, h.payloads⟩
      obtain ⟨hopen, hmindful⟩ := hmindful o F.state hstep
      refine h.step hi (payloads_exec h.payloads) hmindful (fun id hid _ hsees => ?_)
        fun id hid hold => ?_
      · obtain ⟨hserves, hminds⟩ := hsees
        rcases hminds.2 o F.state hstep with (hsettled | hpassed) | hminds
        · exact absurd hid hsettled
        · exact .inl hpassed
        · exact .inr ⟨hserves, hminds⟩
      · obtain ⟨hserves, hcase⟩ := hopen id hold hid
        exact hcase.imp_right fun hminds => ⟨hserves, hminds⟩

theorem Attended.expire (h : F.Attended) (i : ι) :
    (F.next ext settings (.expire i)).Attended where
  payloads := h.payloads
  idle := h.idle
  mindful := h.mindful
  seen id hid := (h.seen id hid).imp_left fun ⟨m, hm, hmid⟩ => ⟨m, List.mem_append_left _ hm, hmid⟩

theorem Attended.next {incident : Incident ι} (h : F.Attended) (hallows : F.Allows incident) :
    (F.next ext settings incident).Attended := by
  cases incident with
  | call i tenantId endpoint => exact h.call i tenantId endpoint
  | take i message => exact h.take i message
  | answer i o => exact h.answer hallows
  | finish i => exact h.finish i
  | die i => exact h.die hallows
  | expire i => exact h.expire i

theorem Attended.run {hs : List (Incident ι)} (h : F.Attended) (hobeys : F.Obeys ext settings hs) :
    (F.run ext settings hs).Attended := by
  induction hs generalizing F with
  | nil => exact h
  | cons incident hs ih => exact ih (h.next hobeys.1) hobeys.2

/-- A message waits for a worker; or a worker has it, and has either not ended or ended with a retry;
or a request has yet to enqueue the document, or to mark it as failed. -/
def InHand (F : Fleet ι) (id : Uuid) : Prop :=
  (∃ message ∈ F.ready, message.documentId = id) ∨
  (∃ i t message, F.platform.threads i = some t ∧ F.unacked i = some message ∧
    message.documentId = id ∧ ((∃ c, t.code.pending = .inr c) ∨
      ∃ countdown, t.code.pending = .inl (.ok (.task (.retry countdown))))) ∨
  ∃ i t c, F.platform.threads i = some t ∧ F.unacked i = none ∧ t.code.pending = .inr c ∧
    Handing id c

omit [DecidableEq ι] in
theorem Attended.inHand {id : Uuid} (h : F.Attended) (hid : Unsettled F.state id) :
    F.InHand id := by
  rcases h.seen id hid with hready | ⟨i, t, ht, hserves, hminds⟩
  · exact .inl hready
  cases hunacked : F.unacked i with
  | some message =>
    refine .inr (.inl ⟨i, t, message, ht, hunacked, hserves message hunacked, ?_⟩)
    rcases hminds.pending with ⟨r, hr, -, countdown, rfl⟩ | ⟨c, hc, -⟩
    · exact .inr ⟨countdown, hr⟩
    · exact .inl ⟨c, hc⟩
  | none =>
    rw [hunacked] at hminds
    rcases hminds.pending with ⟨r, -, hr, -⟩ | ⟨c, hc, hplace | hplace⟩
    · cases hr
    · cases hplace
    · exact .inr (.inr ⟨i, t, c, ht, hunacked, hc, hplace⟩)

/-- In every state the platform reaches, each document that is `PENDING` or `PROCESSING` is in
somebody's hands. -/
theorem unsettled_inHand {w : World} {ready : List Message} {hs : List (Incident ι)}
    (hpayloads : Payloads w)
    (hready : ∀ id, Unsettled w id → ∃ message ∈ ready, message.documentId = id)
    (hobeys : (start w ready).Obeys ext settings hs) (id : Uuid)
    (hid : Unsettled ((start w ready).run ext settings hs).state id) :
    ((start w ready).run ext settings hs).InHand id :=
  ((attended_start hpayloads hready).run hobeys).inHand hid

omit [DecidableEq ι] in
/-- Once the queue is empty and every process has come to its end, all documents are `COMPLETED` or
`FAILED`. -/
theorem Attended.settled (h : F.Attended) (hready : F.ready = [])
    (hidle : ∀ i t, F.platform.threads i = some t → F.unacked i = none ∧ ∃ r, t.code.pending = .inl r)
    {id : Uuid} {d : Document} (hd : F.state.db.document id = some d) : d.status.terminal := by
  by_contra hopen
  rcases h.inHand ⟨d, hd, Bool.eq_false_of_not_eq_true hopen⟩ with
    ⟨m, hm, -⟩ | ⟨i, t, m, ht, hm, -⟩ | ⟨i, t, c, ht, -, hc, -⟩
  · rw [hready] at hm
    cases hm
  · rw [(hidle i t ht).1] at hm
    cases hm
  · obtain ⟨-, r, hr⟩ := hidle i t ht
    rw [hr] at hc
    cases hc

end Fleet

def Incident.Healthy {ι : Type} : Incident ι → Prop
  | .answer _ o => o.fault = none ∧ ∀ texts detail, o.embed texts ≠ .error (.notFound detail)
  | .die _ => False
  | _ => True

theorem heedful_of_healthy {o : Oracle} (hfault : o.fault = none)
    (hembed : ∀ texts detail, o.embed texts ≠ .error (.notFound detail)) (worker : Bool)
    (l : Log api) (c : Call) : Heedful worker l o c := by
  cases c with
  | insertDocument d => exact fun name h => by rw [hfault] at h; cases h
  | commit t => exact fun _ name h => by rw [hfault] at h; cases h
  | getDocument id => exact fun _ _ => hfault
  | embedDocuments texts => exact hembed texts
  | _ => trivial

namespace Fleet

variable {ι : Type} [DecidableEq ι] {ext : External} {settings : Settings} {F : Fleet ι}

theorem obeys_of_healthy {hs : List (Incident ι)} (h : ∀ incident ∈ hs, incident.Healthy) :
    F.Obeys ext settings hs := by
  induction hs generalizing F with
  | nil => trivial
  | cons incident hs ih =>
    refine ⟨?_, ih fun k hk => h k (.tail _ hk)⟩
    have hhealthy := h incident (.head _)
    cases incident with
    | answer i o => exact fun t _ c _ _ => heedful_of_healthy hhealthy.1 hhealthy.2 _ _ c
    | die i => exact hhealthy.elim
    | _ => trivial

end Fleet

namespace Sample

def uploading : List (Incident Nat) :=
  .call 0 tenantId (.upload note) :: List.replicate 3 (.answer 0 oracle)

theorem not_unsettled_world (id : Uuid) : ¬Unsettled world id := by
  rintro ⟨d, hd, -⟩
  cases hd

theorem obeys_uploading : (Fleet.start world []).Obeys ext {} uploading := by
  refine Fleet.obeys_of_healthy fun incident h => ?_
  rcases List.mem_cons.mp h with rfl | h
  · trivial
  · rw [List.eq_of_mem_replicate h]
    exact ⟨rfl, nofun⟩

theorem unsettled_inHand_uploading :
    ((Fleet.start world []).run ext {} uploading).InHand documentId :=
  Fleet.unsettled_inHand (fun _ _ hd => by cases hd)
    (fun id h => (not_unsettled_world id h).elim) obeys_uploading documentId ⟨_, rfl, rfl⟩

end Sample

end RagPlatform
