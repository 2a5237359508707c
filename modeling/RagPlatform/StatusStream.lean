import RagPlatform.Api.Documents
import RagPlatform.Lib.Changes
import RagPlatform.Lib.Eval

/-! What the status stream of a document tells its client, whatever the polls meet. -/

namespace RagPlatform

open Lib

/-- What one turn of the loop meets: the row, the clock, and whether the client has gone. -/
structure Poll where
  row : Option Document
  now : Nat
  disconnected : Bool

def answering (polls : Nat → Poll) : Handler api Nat
  | .getDocument _, i => (i, .ok (polls i).row)
  | .loopTime, i => (i, .ok (polls i).now)
  | .isDisconnected, i => (i, .ok (polls i).disconnected)
  | .sleep _, i => (i + 1, .ok ())
  | _, i => (i, .error (.other []))

/-- With these polls, a computation emits the events and ends like this. -/
def Emits {α : Type} (polls : Nat → Poll) (p : Io α) (i : Nat) (events : List ServerEvent)
    (r : Nat × Except Exn α) : Prop := Tells (answering polls) p i events r

namespace Emits

variable {α β : Type} {polls : Nat → Poll} {p : Io α} {i j : Nat} {ys zs : List ServerEvent} {a : α}

theorem pure (a : α) (i : Nat) : Emits polls (Pure.pure a : Io α) i [] (i, .ok a) := Tells.pure a i

theorem bind {f : α → Io β} {r : Nat × Except Exn β} (hp : Emits polls p i ys (j, .ok a))
    (hf : Emits polls (f a) j zs r) : Emits polls (p >>= f) i (ys ++ zs) r := Tells.bind hp hf

end Emits

namespace Poll

def owned (tenantId : Uuid) (p : Poll) : Option Document := p.row.filter (·.tenantId = tenantId)

def closing (tenantId : Uuid) (deadline : Nat) (p : Poll) : Option ServerEvent :=
  match p.owned tenantId with
  | none => some (.error "document not found".toList)
  | some doc =>
    if doc.status.terminal then some (.documentDone doc.status)
    else if deadline < p.now then some (.timeout doc.status pollIntervalSeconds)
    else none

def Ends (tenantId : Uuid) (deadline : Nat) (p : Poll) : Prop :=
  p.closing tenantId deadline ≠ none ∨ p.disconnected = true

end Poll

def statusEvent (documentId : Uuid) (doc : Document) : ServerEvent :=
  .status documentId doc.status doc.chunkCount doc.errorMessage

def observed (tenantId : Uuid) (polls : Nat → Poll) (i n : Nat) : List Document :=
  (List.range' i n).filterMap fun j => (polls j).owned tenantId

section

variable {tenantId documentId : Uuid} {deadline i n : Nat} {polls : Nat → Poll}
variable {last : Option DocumentStatus} {doc : Document}

theorem owned_eq_some {p : Poll} :
    p.owned tenantId = some doc ↔ p.row = some doc ∧ doc.tenantId = tenantId := by
  simp [Poll.owned, Option.filter_eq_some_iff]

theorem owned_eq_none {p : Poll} :
    p.owned tenantId = none ↔ ∀ doc, p.row = some doc → doc.tenantId ≠ tenantId := by
  simp [Poll.owned, Option.filter_eq_none_iff]

/-- What a poll closes the stream with, in the order in which the loop asks. -/
inductive ClosesWith (tenantId : Uuid) (deadline : Nat) (p : Poll) : Option ServerEvent → Prop
  | error : p.owned tenantId = none →
    ClosesWith tenantId deadline p (some (.error "document not found".toList))
  | done {doc : Document} : p.owned tenantId = some doc → doc.status.terminal →
    ClosesWith tenantId deadline p (some (.documentDone doc.status))
  | timeout {doc : Document} : p.owned tenantId = some doc → ¬doc.status.terminal →
    deadline < p.now → ClosesWith tenantId deadline p (some (.timeout doc.status pollIntervalSeconds))
  | unclosed {doc : Document} : p.owned tenantId = some doc → ¬doc.status.terminal →
    ¬deadline < p.now → ClosesWith tenantId deadline p none

theorem closesWith (p : Poll) : ClosesWith tenantId deadline p (p.closing tenantId deadline) := by
  unfold Poll.closing
  split
  · next h => exact .error h
  · next doc h =>
    split
    · next hterminal => exact .done h hterminal
    · next hterminal =>
      split
      · next hlate => exact .timeout h hterminal hlate
      · next hlate => exact .unclosed h hterminal hlate

theorem observed_append (i m n : Nat) : observed tenantId polls i (m + n) =
    observed tenantId polls i m ++ observed tenantId polls (i + m) n := by
  rw [observed, ← List.range'_append_1, List.filterMap_append]
  rfl

theorem observed_one : observed tenantId polls i 1 = ((polls i).owned tenantId).toList := by
  cases h : (polls i).owned tenantId <;> simp [observed, h]

theorem emits_perform {c : Call} {j : Nat} {x : Reply c} (h : answering polls c i = (j, .ok x)) :
    Emits polls (perform c) i [] (j, .ok x) := ⟨h, rfl⟩

theorem emits_emit (event : ServerEvent) : Emits polls (emit event) i [event] (i, .ok ()) :=
  ⟨rfl, rfl⟩

theorem emits_getDocument :
    Emits polls (perform (.getDocument documentId)) i [] (i, .ok (polls i).row) := emits_perform rfl

theorem emits_loopTime : Emits polls (perform .loopTime) i [] (i, .ok (polls i).now) :=
  emits_perform rfl

theorem emits_isDisconnected :
    Emits polls (perform .isDisconnected) i [] (i, .ok (polls i).disconnected) := emits_perform rfl

theorem emits_reportChange (documentId : Uuid) (last : Option DocumentStatus) (doc : Document) :
    Emits polls (reportChange documentId last doc) i
      ((changes (·.status) last [doc]).map (statusEvent documentId)) (i, .ok ()) := by
  unfold reportChange
  rw [changes, changes]
  split
  · exact .pure () i
  · exact emits_emit _

theorem emits_reportStatus_none (last : Option DocumentStatus)
    (h : (polls i).owned tenantId = none) :
    Emits polls (reportStatus tenantId documentId last (polls i).row) i
      [.error "document not found".toList] (i, .ok none) := by
  cases hrow : (polls i).row with
  | none => exact (emits_emit _).bind (.pure none i)
  | some doc =>
    have hreport : reportStatus tenantId documentId last (some doc) =
        emit (.error "document not found".toList) >>= fun _ => pure none :=
      if_pos (owned_eq_none.mp h doc hrow)
    rw [hreport]
    exact (emits_emit _).bind (.pure none i)

theorem emits_reportStatus_done (last : Option DocumentStatus)
    (h : (polls i).owned tenantId = some doc) (hterminal : doc.status.terminal = true) :
    Emits polls (reportStatus tenantId documentId last (polls i).row) i
      ((changes (·.status) last [doc]).map (statusEvent documentId) ++ [.documentDone doc.status])
      (i, .ok none) := by
  obtain ⟨hrow, hown⟩ := owned_eq_some.mp h
  have hreport : reportStatus tenantId documentId last (some doc) =
      reportChange documentId last doc >>= fun _ =>
        emit (.documentDone doc.status) >>= fun _ => pure none := by
    unfold reportStatus
    simp only [hown, hterminal, ne_eq, not_true_eq_false, if_false, if_true]
  rw [hrow, hreport]
  exact (emits_reportChange documentId last doc).bind ((emits_emit _).bind (.pure none i))

theorem emits_reportStatus_on (last : Option DocumentStatus)
    (h : (polls i).owned tenantId = some doc) (hterminal : ¬doc.status.terminal = true) :
    Emits polls (reportStatus tenantId documentId last (polls i).row) i
      ((changes (·.status) last [doc]).map (statusEvent documentId))
      (i, .ok (some doc.status)) := by
  obtain ⟨hrow, hown⟩ := owned_eq_some.mp h
  have hreport : reportStatus tenantId documentId last (some doc) =
      reportChange documentId last doc >>= fun _ => pure (some doc.status) := by
    unfold reportStatus
    simp only [hown, hterminal, ne_eq, not_true_eq_false, if_false, Bool.false_eq_true]
  rw [hrow, hreport,
    ← List.append_nil (List.map (statusEvent documentId) (changes (·.status) last [doc]))]
  exact (emits_reportChange documentId last doc).bind (.pure (some doc.status) i)

/-- The rest of the turn, after a report that does not end the stream. -/
def afterReport (tenantId documentId : Uuid) (deadline n : Nat) (status : DocumentStatus) :
    Io Bool := do
  let now ← perform .loopTime
  if now > deadline then do
    emit (.timeout status pollIntervalSeconds)
    return true
  else do
    let disconnected ← perform .isDisconnected
    if disconnected then return true
    else do
      perform (.sleep pollIntervalSeconds)
      eventStream tenantId documentId deadline n (some status)

theorem emits_turn_ended {ys : List ServerEvent}
    (h : Emits polls (reportStatus tenantId documentId last (polls i).row) i ys
      (i, .ok none)) (n : Nat) :
    Emits polls (eventStream tenantId documentId deadline (n + 1) last) i ys
      (i, .ok true) := by
  rw [← List.append_nil ys]
  exact emits_getDocument.bind (h.bind (.pure true i))

theorem emits_turn {ys zs : List ServerEvent} {status : DocumentStatus} {r : Nat × Except Exn Bool}
    (h : Emits polls (reportStatus tenantId documentId last (polls i).row) i ys
      (i, .ok (some status)))
    (hafter : Emits polls (afterReport tenantId documentId deadline n status) i zs r) :
    Emits polls (eventStream tenantId documentId deadline (n + 1) last) i (ys ++ zs) r :=
  emits_getDocument.bind (h.bind hafter)

theorem emits_timeout {status : DocumentStatus} (h : deadline < (polls i).now) :
    Emits polls (afterReport tenantId documentId deadline n status) i
      [.timeout status pollIntervalSeconds] (i, .ok true) := by
  refine emits_loopTime.bind ?_
  rw [if_pos h]
  exact (emits_emit _).bind (.pure true i)

theorem emits_disconnected {status : DocumentStatus} (h : ¬deadline < (polls i).now)
    (hgone : (polls i).disconnected = true) :
    Emits polls (afterReport tenantId documentId deadline n status) i [] (i, .ok true) := by
  refine emits_loopTime.bind ?_
  rw [if_neg h]
  refine emits_isDisconnected.bind ?_
  rw [if_pos hgone]
  exact .pure true i

theorem emits_sleep {status : DocumentStatus} {ys : List ServerEvent} {r : Nat × Except Exn Bool}
    (h : ¬deadline < (polls i).now) (hthere : ¬(polls i).disconnected = true)
    (hrest : Emits polls (eventStream tenantId documentId deadline n (some status))
      (i + 1) ys r) :
    Emits polls (afterReport tenantId documentId deadline n status) i ys r := by
  have hsleep : Emits polls (perform (.sleep pollIntervalSeconds)) i [] (i + 1, .ok ()) :=
    emits_perform rfl
  refine emits_loopTime.bind ?_
  rw [if_neg h]
  refine emits_isDisconnected.bind ?_
  rw [if_neg hthere]
  exact hsleep.bind hrest

theorem emits_last (h : (polls i).Ends tenantId deadline) (n : Nat) :
    Emits polls (eventStream tenantId documentId deadline (n + 1) last) i
      ((changes (·.status) last (observed tenantId polls i 1)).map (statusEvent documentId) ++
        ((polls i).closing tenantId deadline).toList) (i, .ok true) := by
  have hgone : (polls i).closing tenantId deadline = none → (polls i).disconnected = true :=
    fun hnone => h.resolve_left (not_not.mpr hnone)
  have hcloses := @closesWith tenantId deadline (polls i)
  rw [observed_one]
  generalize (polls i).closing tenantId deadline = closing at hcloses hgone
  cases hcloses with
  | error howned =>
    rw [howned]
    exact emits_turn_ended (emits_reportStatus_none last howned) n
  | done howned hterminal =>
    rw [howned]
    exact emits_turn_ended (emits_reportStatus_done last howned hterminal) n
  | timeout howned hterminal hlate =>
    rw [howned]
    exact emits_turn (emits_reportStatus_on last howned hterminal) (emits_timeout hlate)
  | unclosed howned hterminal hlate =>
    rw [howned]
    exact emits_turn (emits_reportStatus_on last howned hterminal)
      (emits_disconnected hlate (hgone rfl))

theorem owned_of_goes_on (h : ¬(polls i).Ends tenantId deadline) :
    ∃ doc, (polls i).owned tenantId = some doc ∧ ¬doc.status.terminal ∧
      ¬deadline < (polls i).now := by
  have hcloses := @closesWith tenantId deadline (polls i)
  rw [not_not.mp (not_or.mp h).1] at hcloses
  cases hcloses with
  | unclosed howned hterminal hlate => exact ⟨_, howned, hterminal, hlate⟩

theorem emits_next (h : ¬(polls i).Ends tenantId deadline) {ys : List ServerEvent}
    {r : Nat × Except Exn Bool}
    (hrest : Emits polls (eventStream tenantId documentId deadline n
      (latest (·.status) last (observed tenantId polls i 1))) (i + 1) ys r) :
    Emits polls (eventStream tenantId documentId deadline (n + 1) last) i
      ((changes (·.status) last (observed tenantId polls i 1)).map (statusEvent documentId) ++ ys)
      r := by
  obtain ⟨doc, howned, hterminal, hlate⟩ := owned_of_goes_on h
  rw [observed_one, howned] at hrest ⊢
  exact emits_turn (emits_reportStatus_on last howned hterminal)
    (emits_sleep hlate (not_or.mp h).2 hrest)

theorem emits_polls {m : Nat} (h : ∀ j ∈ List.range' i m, ¬(polls j).Ends tenantId deadline)
    {ys : List ServerEvent} {r : Nat × Except Exn Bool}
    (hrest : Emits polls (eventStream tenantId documentId deadline n
      (latest (·.status) last (observed tenantId polls i m))) (i + m) ys r) :
    Emits polls (eventStream tenantId documentId deadline (n + m) last) i
      ((changes (·.status) last (observed tenantId polls i m)).map (statusEvent documentId) ++ ys)
      r := by
  induction m generalizing i last with
  | zero => exact hrest
  | succ m ih =>
    have hobserved : observed tenantId polls i (m + 1) =
        observed tenantId polls i 1 ++ observed tenantId polls (i + 1) m := by
      rw [← observed_append, Nat.add_comm 1 m]
    rw [List.range'_succ, List.forall_mem_cons] at h
    rw [hobserved, latest_append, ← Nat.add_assoc, Nat.add_right_comm] at hrest
    rw [hobserved, changes_append, List.map_append, List.append_assoc]
    exact emits_next h.1 (ih h.2 hrest)

end

structure Reports (tenantId : Uuid) (polls : Nat → Poll) (n : Nat) (reported : List Document) :
    Prop where
  owned : ∀ doc ∈ reported, ∃ i < n, (polls i).row = some doc ∧ doc.tenantId = tenantId
  changes : (reported.map (·.status)).IsChain (· ≠ ·)

structure StreamOpen (tenantId : Uuid) (deadline : Nat) (polls : Nat → Poll) (n : Nat)
    (reported : List Document) : Prop extends Reports tenantId polls n reported where
  settled : ∀ doc ∈ reported, ¬doc.status.terminal
  goesOn : ∀ i < n, ¬(polls i).Ends tenantId deadline

/-- The stream has ended with poll `k`, and has been closed by one event or by the client. -/
structure StreamEnded (tenantId : Uuid) (deadline : Nat) (polls : Nat → Poll) (k : Nat)
    (reported : List Document) (closing : Option ServerEvent) : Prop
    extends Reports tenantId polls (k + 1) reported where
  settled : ∀ doc ∈ reported.dropLast, ¬doc.status.terminal
  latest : ∀ doc, (polls k).row = some doc → doc.tenantId = tenantId →
    (reported.map (·.status)).getLast? = some doc.status
  spoken : reported ≠ [] ∨ closing ≠ none
  closes : ∀ event, closing = some event → (∃ status, event = .documentDone status) ∨
    (∃ detail, event = .error detail) ∨ ∃ status seconds, event = .timeout status seconds
  done_iff : ∀ status, closing = some (.documentDone status) ↔
    ∃ doc, (polls k).row = some doc ∧ doc.tenantId = tenantId ∧ doc.status.terminal ∧
      doc.status = status
  error_iff : (∃ detail, closing = some (.error detail)) ↔
    ∀ doc, (polls k).row = some doc → doc.tenantId ≠ tenantId
  timeout_iff : ∀ status seconds, closing = some (.timeout status seconds) ↔
    (deadline < (polls k).now ∧ seconds = pollIntervalSeconds) ∧ ∃ doc, (polls k).row = some doc ∧
      doc.tenantId = tenantId ∧ ¬doc.status.terminal ∧ doc.status = status
  unclosed : closing = none → (polls k).disconnected = true

section

variable {tenantId documentId : Uuid} {deadline : Nat} {polls : Nat → Poll} {k n : Nat}

theorem reports_changes (tenantId : Uuid) (polls : Nat → Poll) (n : Nat) :
    Reports tenantId polls n (changes (·.status) none (observed tenantId polls 0 n)) where
  owned doc hdoc := by
    obtain ⟨i, hi, howned⟩ := List.mem_filterMap.mp ((changes_sublist _ _).subset hdoc)
    have hlt := (List.mem_range'_1.mp hi).2
    exact ⟨i, by omega, owned_eq_some.mp howned⟩
  changes := isChain_changes none _

theorem open_of_goes_on (h : ∀ i < n, ¬(polls i).Ends tenantId deadline) :
    StreamOpen tenantId deadline polls n (changes (·.status) none (observed tenantId polls 0 n)) where
  toReports := reports_changes tenantId polls n
  settled doc hdoc := by
    obtain ⟨i, hi, howned⟩ := (reports_changes tenantId polls n).owned doc hdoc
    obtain ⟨doc', howned', hterminal, -⟩ := owned_of_goes_on (h i hi)
    have hsame := Option.some.inj ((owned_eq_some.mpr howned).symm.trans howned')
    exact hsame ▸ hterminal
  goesOn := h

theorem exists_owned {p : Poll} {P : Document → Prop} :
    (∃ doc, p.row = some doc ∧ doc.tenantId = tenantId ∧ P doc) ↔
      ∃ doc, p.owned tenantId = some doc ∧ P doc := by
  simp only [owned_eq_some, and_assoc]

section

variable {p : Poll} {closing : Option ServerEvent}

theorem ClosesWith.done_iff (h : ClosesWith tenantId deadline p closing) (status : DocumentStatus) :
    closing = some (.documentDone status) ↔ ∃ doc, p.row = some doc ∧ doc.tenantId = tenantId ∧
      doc.status.terminal ∧ doc.status = status := by
  rw [exists_owned]
  cases h with
  | error howned => simp [howned]
  | done howned hterminal => simp [howned, hterminal]
  | timeout howned hterminal => simp [howned, hterminal]
  | unclosed howned hterminal => simp [howned, hterminal]

theorem ClosesWith.error_iff (h : ClosesWith tenantId deadline p closing) :
    (∃ detail, closing = some (.error detail)) ↔
      ∀ doc, p.row = some doc → doc.tenantId ≠ tenantId := by
  rw [← owned_eq_none]
  cases h with
  | error howned => simp [howned]
  | done howned => simp [howned]
  | timeout howned => simp [howned]
  | unclosed howned => simp [howned]

theorem ClosesWith.timeout_iff (h : ClosesWith tenantId deadline p closing)
    (status : DocumentStatus) (seconds : Nat) :
    closing = some (.timeout status seconds) ↔ (deadline < p.now ∧ seconds = pollIntervalSeconds) ∧
      ∃ doc, p.row = some doc ∧ doc.tenantId = tenantId ∧ ¬doc.status.terminal ∧
        doc.status = status := by
  rw [exists_owned]
  cases h with
  | error howned => simp [howned]
  | done howned hterminal => simp [howned, hterminal]
  | timeout howned hterminal hlate =>
    simp only [howned, Option.some.injEq, ServerEvent.timeout.injEq, exists_eq_left', hlate, true_and]
    exact ⟨fun ⟨hs, hp⟩ => ⟨hp.symm, hterminal, hs⟩, fun ⟨hp, _, hs⟩ => ⟨hs, hp.symm⟩⟩
  | unclosed howned hterminal hlate => simp [howned, hterminal, hlate]

theorem ClosesWith.kinds (h : ClosesWith tenantId deadline p closing) (event : ServerEvent)
    (hevent : closing = some event) : (∃ status, event = .documentDone status) ∨
      (∃ detail, event = .error detail) ∨ ∃ status seconds, event = .timeout status seconds := by
  cases h with
  | error => exact .inr (.inl ⟨_, (Option.some.inj hevent).symm⟩)
  | done => exact .inl ⟨_, (Option.some.inj hevent).symm⟩
  | timeout => exact .inr (.inr ⟨_, _, (Option.some.inj hevent).symm⟩)
  | unclosed => cases hevent

end

theorem mem_of_mem_dropLast {α : Type*} {x : α} {xs ys : List α} (hys : ys.length ≤ 1)
    (hx : x ∈ (xs ++ ys).dropLast) : x ∈ xs := by
  cases ys with
  | nil => exact List.dropLast_subset _ (by rwa [List.append_nil] at hx)
  | cons y ys =>
    obtain rfl : ys = [] := List.length_eq_zero_iff.mp (by simpa using hys)
    rwa [List.dropLast_concat] at hx

theorem ended_of_ends (h : (polls k).Ends tenantId deadline)
    (hgoes : ∀ i < k, ¬(polls i).Ends tenantId deadline) :
    StreamEnded tenantId deadline polls k
      (changes (·.status) none (observed tenantId polls 0 (k + 1)))
      ((polls k).closing tenantId deadline) := by
  have hcloses := @closesWith tenantId deadline (polls k)
  have hobserved : observed tenantId polls 0 (k + 1) =
      observed tenantId polls 0 k ++ ((polls k).owned tenantId).toList := by
    rw [observed_append, Nat.zero_add, observed_one]
  have hlatest (doc : Document) (howned : (polls k).owned tenantId = some doc) :
      ((changes (·.status) none (observed tenantId polls 0 (k + 1))).map (·.status)).getLast? =
        some doc.status := by
    have hlast := @getLast?_changes _ _ Document.status _ none (observed tenantId polls 0 (k + 1))
    rw [hobserved, latest_append, howned] at hlast
    rw [hobserved, howned]
    exact hlast
  refine ⟨reports_changes tenantId polls (k + 1), fun doc hdoc => ?_, fun doc hrow hown =>
    hlatest doc (owned_eq_some.mpr ⟨hrow, hown⟩), ?_, hcloses.kinds, hcloses.done_iff,
    hcloses.error_iff, hcloses.timeout_iff, fun hnone => h.resolve_left (not_not.mpr hnone)⟩
  · have hshort : (changes (·.status) (latest (·.status) none (observed tenantId polls 0 k))
        ((polls k).owned tenantId).toList).length ≤ 1 :=
      (changes_sublist _ _).length_le.trans (by cases (polls k).owned tenantId <;> simp)
    rw [hobserved, changes_append] at hdoc
    exact (open_of_goes_on hgoes).settled doc (mem_of_mem_dropLast hshort hdoc)
  · cases howned : (polls k).owned tenantId with
    | none =>
      obtain ⟨detail, hclosing⟩ := hcloses.error_iff.mpr (owned_eq_none.mp howned)
      exact .inr (hclosing ▸ Option.some_ne_none _)
    | some doc =>
      refine .inl fun hnil => ?_
      have hlast := hlatest doc howned
      rw [hnil] at hlast
      cases hlast

end

/-- Whatever the polls meet, the stream goes on up to the first that ends it, and follows the
protocol. -/
theorem stream_follows_protocol (tenantId documentId : Uuid) (deadline : Nat) (polls : Nat → Poll)
    (n : Nat) : ∃ k ended, ∃ reported : List Document, ∃ closing,
      Emits polls (eventStream tenantId documentId deadline n none) 0
        (reported.map (statusEvent documentId) ++ closing.toList) (k, .ok ended) ∧
      if ended then k < n ∧ StreamEnded tenantId deadline polls k reported closing
      else k = n ∧ closing = none ∧ StreamOpen tenantId deadline polls n reported := by
  classical
  by_cases h : ∃ k, k < n ∧ (polls k).Ends tenantId deadline
  · obtain ⟨hk, hends⟩ := Nat.find_spec h
    generalize hfirst : Nat.find h = k at hk hends
    have hgoes (i : Nat) (hi : i < k) : ¬(polls i).Ends tenantId deadline := fun hend =>
      Nat.find_min h (hfirst ▸ hi) ⟨hi.trans hk, hend⟩
    obtain ⟨m, rfl⟩ : ∃ m, n = m + 1 + k := ⟨n - k - 1, by omega⟩
    refine ⟨k, true, _, _, ?_, hk, ended_of_ends hends hgoes⟩
    have hlast := @emits_last tenantId documentId deadline k polls
      (latest (·.status) none (observed tenantId polls 0 k)) hends m
    have hpolls (j : Nat) (hj : j ∈ List.range' 0 k) : ¬(polls j).Ends tenantId deadline :=
      hgoes j (by simpa using hj)
    rw [observed_append, Nat.zero_add, changes_append, List.map_append, List.append_assoc]
    exact emits_polls hpolls (by rwa [Nat.zero_add])
  · have hgoes (i : Nat) (hi : i < n) : ¬(polls i).Ends tenantId deadline := fun hend =>
      h ⟨i, hi, hend⟩
    have hpolls (j : Nat) (hj : j ∈ List.range' 0 n) : ¬(polls j).Ends tenantId deadline :=
      hgoes j (by simpa using hj)
    have hzero : Emits polls (eventStream tenantId documentId deadline 0
        (latest (·.status) none (observed tenantId polls 0 n))) (0 + n) [] (n, .ok false) := by
      rw [Nat.zero_add]
      exact .pure false n
    refine ⟨n, false, _, none, ?_, rfl, rfl, open_of_goes_on hgoes⟩
    have hrun := emits_polls hpolls hzero
    rwa [Nat.zero_add] at hrun

end RagPlatform
