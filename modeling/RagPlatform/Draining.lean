import Mathlib.Data.Set.Finite.Basic
import RagPlatform.Attendance

/-! From every state there is a way to an empty queue, which leaves all documents settled. -/

namespace RagPlatform

open Lib

def Quiet : Call → Prop
  | .delay _ => False
  | _ => True

theorem queue_serve {o : Oracle} {c : Call} {w : World} (hc : Quiet c) :
    (serve o c w).1.queue = w.queue := by
  cases c with
  | delay id => exact hc.elim
  | insertDocument d =>
    simp only [serve]
    cases w.db.insertDocument (d.row o.uuid o.now) <;> rfl
  | commit txn =>
    simp only [serve]
    cases w.db.commit txn o.skip <;> rfl
  | insertUsage u =>
    simp only [serve, World.insertUsage]
    split
    · rfl
    · split <;> rfl
  | insertCredential new =>
    simp only [serve, World.insertCredential]
    split
    · cases w.credentials.insert (new.row o.uuid) <;> rfl
    · rfl
  | commitCredential i =>
    simp only [serve]
    cases w.credentials.update i.loaded.id i.patch <;> rfl
  | _ => rfl

theorem queue_exec {o : Oracle} {c : Call} {w : World} (hc : Quiet c) :
    (exec o c w).1.queue = w.queue := by
  rcases exec_cases o c w with he | ⟨_, -, he | ⟨-, he⟩⟩
  · rw [he]
    exact queue_serve hc
  · rw [he]
  · rw [he]
    exact queue_serve hc

section

variable {ext : External} {settings : Settings} {svc : IngestionService} {row : Document}
  {raw : Bytes}

theorem quiet_markFailed (session : Session) (documentId : Uuid) (message : Str) :
    OnlyE Quiet (markFailed session documentId message) := by
  cases session with
  | none =>
    refine .bind (only_perform trivial) fun row => ?_
    cases row with
    | none => exact .pure _
    | some d => exact only_perform trivial
  | some document => exact only_perform trivial

theorem quiet_embedBatches (batches : List (List ChunkDraft)) :
    OnlyE Quiet (IngestionService.embedBatches batches) := by
  induction batches with
  | nil => exact .pure _
  | cons batch batches ih =>
    exact .bind (only_perform trivial) fun _ => .bind ih fun _ => .pure _

theorem quiet_store : OnlyE Quiet (svc.store ext (started row) raw) := by
  refine .bind (only_ofExcept _) fun drafts => .bind ?_ fun embeddings =>
    .bind (only_perform trivial) fun doomed => ?_
  · unfold IngestionService.embedAll
    split
    · exact .throw _
    · split
      · exact .pure _
      · exact quiet_embedBatches _
  · split
    · exact .throw _
    · exact .bind (only_perform trivial) fun _ => .pure _

theorem quiet_onError (document : Instance) (e : Exn) :
    OnlyE Quiet (IngestionService.onError document e) := by
  refine .bind (only_perform trivial) fun _ => ?_
  cases e with
  | parse detail => exact .bind (quiet_markFailed _ _ _) fun _ => .throw _
  | _ => exact .throw _

theorem quiet_process (id : Uuid) : OnlyE Quiet (svc.process ext none id) := by
  rw [process_eq]
  refine .bind (only_perform trivial) fun found => ?_
  cases found with
  | none => exact .throw _
  | some row =>
    simp only [processRow]
    split
    · exact .pure _
    · split
      · exact .throw _
      · exact .bind (only_perform trivial) fun _ => .tryCatch quiet_store fun e =>
          quiet_onError (started row) e

theorem quiet_delivery (retries : Nat) (id : Uuid) :
    OnlyE Quiet ((Job.deliver retries id).code ext settings) := by
  refine .bind (.tryCatch (.bind (quiet_process id) fun _ => .pure _) fun e => ?_) fun _ => .pure _
  cases e with
  | parse detail => exact .pure _
  | notFound detail => exact .pure _
  | _ =>
    dsimp only
    split
    · exact .bind (quiet_markFailed _ _ _) fun _ => .pure _
    · exact .pure _

theorem retries_lt {retries : Nat} {id : Uuid} {l : Log api} {countdown : Int}
    (h : Done ((Job.deliver retries id).code ext settings) l (.ok (.task (.retry countdown)))) :
    (retries : Int) < settings.workerMaxRetries := by
  obtain ⟨_, _, result, rfl, hingest, hend⟩ := done_bind_ok.mp h
  obtain ⟨rfl, hresult⟩ := done_pure.mp hend
  obtain rfl := Outcome.task.inj (Except.ok.inj hresult)
  rcases done_tryCatch.mp hingest with ⟨a, hdone, hretry⟩ | ⟨_, _, e, rfl, -, hhandled⟩
  · obtain ⟨_, _, _, rfl, -, hpure⟩ := done_bind_ok.mp hdone
    rw [← hretry] at hpure
    cases (done_pure.mp hpure).2
  · by_contra hge
    rw [not_lt] at hge
    cases e with
    | parse detail => cases (done_pure.mp hhandled).2
    | notFound detail => cases (done_pure.mp hhandled).2
    | _ =>
      dsimp only at hhandled
      rw [if_pos hge] at hhandled
      obtain ⟨_, _, _, rfl, -, hpure⟩ := done_bind_ok.mp hhandled
      cases (done_pure.mp hpure).2

end

def Incident.thread {ι : Type} : Incident ι → ι
  | .call i _ _ | .take i _ | .answer i _ | .finish i | .die i | .expire i => i

/-- What workers do: they take messages, are answered, and acknowledge. -/
def Incident.Works {ι : Type} (o : Oracle) : Incident ι → Prop
  | .answer _ o' => o' = o
  | .take .. | .finish _ => True
  | _ => False

theorem Incident.Works.healthy {ι : Type} {o : Oracle} {incident : Incident ι}
    (h : incident.Works o) (hfault : o.fault = none)
    (hembed : ∀ texts detail, o.embed texts ≠ .error (.notFound detail)) : incident.Healthy := by
  cases incident with
  | answer i o' =>
    obtain rfl : o' = o := h
    exact ⟨hfault, hembed⟩
  | take i message => trivial
  | finish i => trivial
  | call i tenantId endpoint => exact h.elim
  | die i => exact h.elim
  | expire i => exact h.elim

def patience (settings : Settings) (message : Message) : Nat :=
  (settings.workerMaxRetries - message.retries).toNat + 1

namespace Fleet

variable {ι : Type} [DecidableEq ι] (ext : External) (settings : Settings) {F : Fleet ι}
  (o : Oracle) {i j : ι}

theorem run_append (hs hs' : List (Incident ι)) :
    F.run ext settings (hs ++ hs') = (F.run ext settings hs).run ext settings hs' :=
  List.foldl_append ..

/-- What is left when process `i` has been answered for as long as it asks. -/
structure Ended (F F' : Fleet ι) (i : ι) (t : Process) (r : Except Exn Outcome) : Prop where
  thread : ∃ l out, F'.platform.threads = Function.update F.platform.threads i
    (some ⟨t.log ++ l, out, .ret r⟩) ∧ t.code.Replays l (.ret r)
  unacked : F'.unacked = F.unacked
  ready : t.code.Only Quiet → F'.ready = F.ready

theorem Ended.after {F₁ F' : Fleet ι} {t t₁ : Process} {r : Except Exn Outcome} {l₁ : Log api}
    (h : Ended F₁ F' i t₁ r)
    (hthreads : F₁.platform.threads = Function.update F.platform.threads i (some t₁))
    (hunacked : F₁.unacked = F.unacked) (hlog : t₁.log = t.log ++ l₁)
    (hreplays : t.code.Replays l₁ t₁.code)
    (hquiet : t.code.Only Quiet → F₁.ready = F.ready ∧ t₁.code.Only Quiet) : Ended F F' i t r where
  thread := by
    obtain ⟨l, out, hended, hrest⟩ := h.thread
    refine ⟨l₁ ++ l, out, ?_, hreplays.trans hrest⟩
    rw [hended, hthreads, Function.update_idem, hlog, List.append_assoc]
  unacked := h.unacked.trans hunacked
  ready hcode := by
    obtain ⟨hready, hrest⟩ := hquiet hcode
    exact (h.ready hrest).trans hready

theorem exists_ended {t : Process} (ht : F.platform.threads i = some t) :
    ∃ n r, Ended F (F.run ext settings (List.replicate n (.answer i o))) i t r := by
  obtain ⟨log, out, code⟩ := t
  induction code generalizing F log out with
  | ret r =>
    refine ⟨0, r, ⟨[], out, ?_, .refl _⟩, rfl, fun _ => rfl⟩
    rw [List.append_nil, ← ht]
    exact (Function.update_eq_self _ _).symm
  | emit y p ih =>
    have hplatform : F.platform.next exec (.step i o) =
        F.platform.set i (some ⟨log, out ++ [y], p⟩) := by
      simp only [Pool.next, ht]
    have hthread : (F.next ext settings (.answer i o)).platform.threads i =
        some ⟨log, out ++ [y], p⟩ := by
      simp only [next, hplatform, Pool.set_self]
    obtain ⟨n, r, hended⟩ := ih log (out ++ [y]) hthread
    have hlog : log = log ++ [] := (List.append_nil log).symm
    refine ⟨n + 1, r, hended.after ?_ rfl hlog (.emit (.refl _)) fun hcode => ⟨?_, hcode⟩⟩
    · simp only [next, hplatform]
      rfl
    · simp only [next, hplatform]
      exact (congrArg (F.ready ++ ·) (dispatched_self _)).trans (List.append_nil _)
  | await c k ih =>
    have hplatform : F.platform.next exec (.step i o) = ⟨(exec o c F.state).1,
        Function.update F.platform.threads i (some ⟨log ++ [⟨c, (exec o c F.state).2⟩], out,
          k (exec o c F.state).2⟩)⟩ := by
      simp only [Pool.next, ht]
      rfl
    have hthread : (F.next ext settings (.answer i o)).platform.threads i =
        some ⟨log ++ [⟨c, (exec o c F.state).2⟩], out, k (exec o c F.state).2⟩ := by
      simp only [next, hplatform, Function.update_self]
    obtain ⟨n, r, hended⟩ := ih _ _ out hthread
    refine ⟨n + 1, r, hended.after ?_ rfl rfl (.await (.refl _)) fun hcode => ⟨?_, hcode.2 _⟩⟩
    · simp only [next, hplatform]
    · simp only [next, hplatform]
      have hqueue : dispatched F.state (exec o c F.state).1 = [] := by
        rw [dispatched, queue_exec hcode.1, List.drop_length]
        rfl
      rw [hqueue, List.append_nil]

theorem finish_eq {l : Log api} {out : List ServerEvent} {r : Except Exn Outcome}
    {message : Message} (ht : F.platform.threads i = some ⟨l, out, .ret r⟩)
    (hmessage : F.unacked i = some message) : F.next ext settings (.finish i) =
      { platform := F.platform.set i none
        ready := F.ready ++ republished message r
        unacked := Function.update F.unacked i none } := by
  simp only [next, ht, hmessage]

omit [DecidableEq ι] in
theorem works_answers (n : ℕ) :
    ∀ h ∈ List.replicate n (Incident.answer i o), Incident.Works o h := fun h hmem => by
  rw [List.eq_of_mem_replicate hmem]
  rfl

/-- Process `i` is answered for as long as it asks, then it acknowledges its message. -/
theorem exists_finished {t : Process} {message : Message} (ht : F.platform.threads i = some t)
    (hmessage : F.unacked i = some message) :
    ∃ (hs : List (Incident ι)) (l : Log api) (r : Except Exn Outcome), (∀ h ∈ hs, h.Works o) ∧
      t.code.Replays l (.ret r) ∧
      (F.run ext settings hs).platform.threads = Function.update F.platform.threads i none ∧
      (F.run ext settings hs).unacked = Function.update F.unacked i none ∧
      (t.code.Only Quiet → (F.run ext settings hs).ready = F.ready ++ republished message r) := by
  obtain ⟨n, r, hended⟩ := exists_ended ext settings o ht
  obtain ⟨l, out, hthreads, hreplays⟩ := hended.thread
  have hthread := congrFun hthreads i
  rw [Function.update_self] at hthread
  have hfinish := finish_eq ext settings hthread ((congrFun hended.unacked i).trans hmessage)
  have hrun : F.run ext settings (List.replicate n (.answer i o) ++ [.finish i]) =
      (F.run ext settings (List.replicate n (.answer i o))).next ext settings (.finish i) := by
    rw [run_append]
    rfl
  refine ⟨List.replicate n (.answer i o) ++ [.finish i], l, r,
    List.forall_mem_append.mpr ⟨works_answers o n, fun h hmem => ?_⟩, hreplays, ?_⟩
  · rw [List.mem_singleton.mp hmem]
    trivial
  · rw [hrun, hfinish]
    refine ⟨?_, congrArg (Function.update · i none) hended.unacked, fun hcode => ?_⟩
    · change Function.update (F.run ext settings _).platform.threads i none = _
      rw [hthreads, Function.update_idem]
    · rw [hended.ready hcode]

def AtRest (F : Fleet ι) (i : ι) : Prop :=
  F.unacked i = none ∧ ∀ t, F.platform.threads i = some t → ∃ r, t.code.pending = .inl r

omit [DecidableEq ι] in
theorem AtRest.congr {F' : Fleet ι} (h : F.AtRest i)
    (hthreads : F'.platform.threads i = F.platform.threads i)
    (hunacked : F'.unacked i = F.unacked i) : F'.AtRest i := by
  refine ⟨hunacked.trans h.1, fun t ht => h.2 t ?_⟩
  rw [← hthreads]
  exact ht

theorem exists_atRest (hidle : F.platform.threads i = none → F.unacked i = none) :
    ∃ hs : List (Incident ι), (∀ h ∈ hs, h.Works o) ∧ (F.run ext settings hs).AtRest i ∧
      ∀ j, j ≠ i → (F.run ext settings hs).platform.threads j = F.platform.threads j ∧
        (F.run ext settings hs).unacked j = F.unacked j := by
  cases ht : F.platform.threads i with
  | none =>
    refine ⟨[], nofun, ⟨hidle ht, fun t h => ?_⟩, fun j _ => ⟨rfl, rfl⟩⟩
    cases ht.symm.trans h
  | some t =>
    obtain ⟨n, r, hended⟩ := exists_ended ext settings o ht
    obtain ⟨l, out, hthreads, -⟩ := hended.thread
    have hthread := congrFun hthreads i
    rw [Function.update_self] at hthread
    cases hmessage : F.unacked i with
    | none =>
      refine ⟨_, works_answers o n, ⟨(congrFun hended.unacked i).trans hmessage, fun u hu => ⟨r, ?_⟩⟩,
        fun j hj => ⟨?_, congrFun hended.unacked j⟩⟩
      · rw [← Option.some.inj (hthread.symm.trans hu)]
        rfl
      · rw [hthreads, Function.update_of_ne hj]
    | some message =>
      obtain ⟨hs, -, -, hworks, -, hgone, hacked, -⟩ := exists_finished ext settings o ht hmessage
      refine ⟨hs, hworks, ⟨?_, fun u hu => ?_⟩, fun j hj => ⟨?_, ?_⟩⟩
      · rw [hacked, Function.update_self]
      · rw [hgone, Function.update_self] at hu
        cases hu
      · rw [hgone, Function.update_of_ne hj]
      · rw [hacked, Function.update_of_ne hj]

theorem exists_allAtRest (is : List ι)
    (hidle : ∀ i, F.platform.threads i = none → F.unacked i = none) :
    ∃ hs : List (Incident ι), (∀ h ∈ hs, h.Works o) ∧
      (∀ i ∈ is, (F.run ext settings hs).AtRest i) ∧
        ∀ j, j ∉ is → (F.run ext settings hs).platform.threads j = F.platform.threads j ∧
          (F.run ext settings hs).unacked j = F.unacked j := by
  induction is generalizing F with
  | nil => exact ⟨[], nofun, nofun, fun j _ => ⟨rfl, rfl⟩⟩
  | cons i is ih =>
    obtain ⟨hs, hworks, hrest, hsame⟩ := exists_atRest ext settings o (hidle i)
    have hidle' (j : ι) (hj : (F.run ext settings hs).platform.threads j = none) :
        (F.run ext settings hs).unacked j = none := by
      by_cases hji : j = i
      · rw [hji]
        exact hrest.1
      · rw [(hsame j hji).1] at hj
        exact (hsame j hji).2.trans (hidle j hj)
    obtain ⟨hs', hworks', hrest', hsame'⟩ := ih hidle'
    refine ⟨hs ++ hs', List.forall_mem_append.mpr ⟨hworks, hworks'⟩, ?_, fun j hj => ?_⟩
    · rw [run_append]
      intro k hk
      by_cases hmem : k ∈ is
      · exact hrest' k hmem
      · obtain rfl := (List.mem_cons.mp hk).resolve_right hmem
        exact hrest.congr (hsame' k hmem).1 (hsame' k hmem).2
    · rw [run_append]
      obtain ⟨hji, hmem⟩ := List.ne_and_not_mem_of_not_mem_cons hj
      exact ⟨(hsame' j hmem).1.trans (hsame j hji).1, (hsame' j hmem).2.trans (hsame j hji).2⟩

theorem exists_delivered {message : Message} (hmem : message ∈ F.ready)
    (hi : F.platform.threads i = none) (hu : F.unacked i = none) :
    ∃ hs : List (Incident ι), (∀ h ∈ hs, h.Works o) ∧
      (F.run ext settings hs).platform.threads = F.platform.threads ∧
      (F.run ext settings hs).unacked = F.unacked ∧
      ((F.run ext settings hs).ready = F.ready.erase message ∨
        (message.retries : Int) < settings.workerMaxRetries ∧ (F.run ext settings hs).ready =
          F.ready.erase message ++ [⟨message.documentId, message.retries + 1⟩]) := by
  let t : Process := { code := (Job.deliver message.retries message.documentId).code ext settings }
  let taken : Fleet ι :=
    { platform := F.platform.set i (some t)
      ready := F.ready.erase message
      unacked := Function.update F.unacked i (some message) }
  have htake : F.next ext settings (.take i message) = taken := by
    rw [next, if_pos ⟨hmem, Option.isNone_iff_eq_none.mpr hi⟩, spawn_of_none hi]
  obtain ⟨hs, l, r, hworks, hreplays, hthreads, hunacked, hqueue⟩ :=
    exists_finished ext settings o (F := taken) (i := i) (t := t) (Pool.set_self ..)
      (Function.update_self ..)
  have hrun : F.run ext settings (.take i message :: hs) = taken.run ext settings hs := by
    simp only [run, List.foldl_cons, htake]
  refine ⟨.take i message :: hs, List.forall_mem_cons.mpr ⟨trivial, hworks⟩, ?_⟩
  rw [hrun]
  refine ⟨?_, ?_, ?_⟩
  · rw [hthreads]
    change Function.update (Function.update F.platform.threads i (some t)) i none = _
    rw [Function.update_idem, ← hi, Function.update_eq_self]
  · rw [hunacked]
    change Function.update (Function.update F.unacked i (some message)) i none = _
    rw [Function.update_idem, ← hu, Function.update_eq_self]
  · rw [hqueue (quiet_delivery _ _)]
    cases r with
    | error e => exact .inl (List.append_nil _)
    | ok outcome =>
      cases outcome with
      | task result =>
        cases result with
        | done => exact .inl (List.append_nil _)
        | retry countdown => exact .inr ⟨retries_lt hreplays, rfl⟩
      | _ => exact .inl (List.append_nil _)

theorem exists_drained (hi : F.platform.threads i = none) (hu : F.unacked i = none) :
    ∃ hs : List (Incident ι), (∀ h ∈ hs, h.Works o) ∧ (F.run ext settings hs).ready = [] ∧
      (F.run ext settings hs).platform.threads = F.platform.threads ∧
        (F.run ext settings hs).unacked = F.unacked := by
  generalize hn : (F.ready.map (patience settings)).sum = n
  induction n using Nat.strongRecOn generalizing F with
  | ind n ih =>
    cases hready : F.ready with
    | nil => exact ⟨[], nofun, hready, rfl, rfl⟩
    | cons message rest =>
      have hmem : message ∈ F.ready := hready ▸ List.mem_cons_self
      obtain ⟨hs, hworks, hthreads, hunacked, hcase⟩ :=
        exists_delivered ext settings o hmem hi hu
      rw [hready, List.erase_cons_head] at hcase
      rw [hready, List.map_cons, List.sum_cons] at hn
      have hless : ((F.run ext settings hs).ready.map (patience settings)).sum < n := by
        rcases hcase with he | ⟨hretries, he⟩
        · rw [he, ← hn, patience]
          omega
        · rw [he, ← hn, List.map_append, List.sum_append, List.map_singleton, List.sum_singleton]
          simp only [patience]
          omega
      obtain ⟨hs', hworks', hempty, hthreads', hunacked'⟩ := ih _ hless
        (F := F.run ext settings hs) (hthreads ▸ hi) (hunacked ▸ hu) rfl
      refine ⟨hs ++ hs', List.forall_mem_append.mpr ⟨hworks, hworks'⟩, ?_⟩
      rw [run_append]
      exact ⟨hempty, hthreads'.trans hthreads, hunacked'.trans hunacked⟩

theorem exists_quiet [Infinite ι] {is : List ι}
    (hidle : ∀ i, F.platform.threads i = none → F.unacked i = none)
    (hbusy : ∀ i, F.platform.threads i ≠ none → i ∈ is) :
    ∃ hs : List (Incident ι), (∀ h ∈ hs, h.Works o) ∧ (F.run ext settings hs).ready = [] ∧
      ∀ i, (F.run ext settings hs).AtRest i := by
  obtain ⟨hs, hworks, hrest, hothers⟩ := exists_allAtRest ext settings o is hidle
  have hfresh (j : ι) (hj : j ∉ is) : F.platform.threads j = none := by
    by_contra hsome
    exact hj (hbusy j hsome)
  -- some worker has had nothing to do so far
  obtain ⟨i, hi⟩ := (List.finite_toSet is).exists_notMem
  obtain ⟨hthread, hunacked⟩ := hothers i hi
  obtain ⟨hs', hworks', hempty, hthreads, hacks⟩ := exists_drained ext settings o
    (hthread.trans (hfresh i hi)) (hunacked.trans (hidle i (hfresh i hi)))
  refine ⟨hs ++ hs', List.forall_mem_append.mpr ⟨hworks, hworks'⟩, ?_⟩
  rw [run_append]
  refine ⟨hempty, fun j => AtRest.congr ?_ (congrFun hthreads j) (congrFun hacks j)⟩
  by_cases hj : j ∈ is
  · exact hrest j hj
  · obtain ⟨hthread, hunacked⟩ := hothers j hj
    refine ⟨hunacked.trans (hidle j (hfresh j hj)), fun t ht => ?_⟩
    cases (hthread.trans (hfresh j hj)).symm.trans ht

theorem threads_next {incident : Incident ι}
    (h : (F.next ext settings incident).platform.threads j ≠ none) :
    F.platform.threads j ≠ none ∨ j = incident.thread := by
  by_cases hj : j = incident.thread
  · exact .inr hj
  left
  cases incident with
  | call i tenantId endpoint => rwa [next, spawn, Pool.next_of_ne exec _ hj] at h
  | take i message =>
    simp only [next] at h
    split at h
    · rwa [spawn, Pool.next_of_ne exec _ hj] at h
    · exact h
  | answer i o => rwa [next, Pool.next_of_ne exec _ hj] at h
  | finish i =>
    simp only [next] at h
    split at h
    · exact fun hnone => h ((Pool.set_of_ne F.platform none hj).trans hnone)
    · exact h
  | die i => exact fun hnone => h ((Pool.set_of_ne F.platform none hj).trans hnone)
  | expire i => exact h

theorem threads_run {hs : List (Incident ι)}
    (h : (F.run ext settings hs).platform.threads j ≠ none) :
    F.platform.threads j ≠ none ∨ j ∈ hs.map Incident.thread := by
  induction hs generalizing F with
  | nil => exact .inl h
  | cons incident hs ih =>
    rcases ih h with hnext | hmem
    · exact (threads_next ext settings hnext).imp_right fun hj => List.mem_cons.mpr (.inl hj)
    · exact .inr (List.mem_cons_of_mem _ hmem)

variable {ext settings o}

/-- Wherever a run has got to, all that is needed is that the workers go on and are answered: then
the queue runs empty, everybody comes to an end, and every document is `COMPLETED` or `FAILED`. -/
theorem drains [Infinite ι] {w : World} {ready : List Message} {hs : List (Incident ι)}
    (hpayloads : Payloads w)
    (hready : ∀ id, Unsettled w id → ∃ message ∈ ready, message.documentId = id)
    (hobeys : (start w ready).Obeys ext settings hs) (hfault : o.fault = none)
    (hembed : ∀ texts detail, o.embed texts ≠ .error (.notFound detail)) :
    ∃ later : List (Incident ι), (∀ h ∈ later, h.Works o) ∧
      ((start w ready).run ext settings (hs ++ later)).ready = [] ∧
      (∀ i, ((start w ready).run ext settings (hs ++ later)).AtRest i) ∧
      ∀ id d, ((start w ready).run ext settings (hs ++ later)).state.db.document id = some d →
        d.status.terminal := by
  have hattended := (attended_start hpayloads hready).run hobeys
  have hbusy (i : ι) (hi : ((start w ready).run ext settings hs).platform.threads i ≠ none) :
      i ∈ hs.map Incident.thread :=
    (threads_run ext settings hi).resolve_left fun hstart => hstart rfl
  obtain ⟨later, hworks, hempty, hrest⟩ := exists_quiet ext settings o hattended.idle hbusy
  have hlater : ((start w ready).run ext settings hs).Obeys ext settings later :=
    obeys_of_healthy fun h hh => Incident.Works.healthy (hworks h hh) hfault hembed
  have hend := hattended.run hlater
  rw [← run_append] at hempty hrest hend
  refine ⟨later, hworks, hempty, hrest, fun id d hd => ?_⟩
  exact hend.settled hempty (fun j t ht => ⟨(hrest j).1, (hrest j).2 t ht⟩) hd

end Fleet

namespace Sample

/-- The upload finds its worker. -/
theorem drains_uploading : ∃ later : List (Incident Nat), (∀ h ∈ later, h.Works oracle) ∧
    ((Fleet.start world []).run ext {} (uploading ++ later)).ready = [] ∧
    (∀ i, ((Fleet.start world []).run ext {} (uploading ++ later)).AtRest i) ∧
    ∀ id d, ((Fleet.start world []).run ext {} (uploading ++ later)).state.db.document id = some d →
      d.status.terminal :=
  Fleet.drains (fun _ _ hd => by cases hd) (fun id h => (not_unsettled_world id h).elim)
    obeys_uploading rfl nofun

end Sample

end RagPlatform
