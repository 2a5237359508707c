import RagPlatform.System
import RagPlatform.Worker.TaskLaws

/-! The attempts of one ingestion task, one after the other. -/

namespace RagPlatform

open Lib

section

variable (ext : External) (settings : Settings) (id : Uuid) (attempts : Nat → Feed World Oracle)

/-- A task's executions: one that ends in a retry is followed by the next, one higher in
`request.retries`. -/
def executions : (fuel retries : Nat) → World → List (Option (Except Exn TaskResult)) × World
  | 0, _, w => ([], w)
  | fuel + 1, retries, w =>
    let w' := (delivery ext settings retries id).final exec (attempts retries) w
    match (delivery ext settings retries id).result exec (attempts retries) w with
    | some (.ok (.retry countdown)) =>
      let later := executions fuel (retries + 1) w'
      (some (.ok (.retry countdown)) :: later.1, later.2)
    | result => ([result], w')

/-- The state an attempt starts from if all the earlier ones took place. -/
def before (w : World) : Nat → World
  | 0 => w
  | n + 1 => (delivery ext settings n id).final exec (attempts n) (before w n)

/-- How `process` ends in an attempt. -/
def outcome (w : World) (n : Nat) : Option (Except Exn Instance) :=
  (processing ext settings id).result exec (attempts n) (before ext settings id attempts w n)

end

def Transient : Option (Except Exn Instance) → Prop
  | some (.error e) => e.transient
  | _ => False

instance : DecidablePred Transient
  | some (.error e) => inferInstanceAs (Decidable (e.transient = true))
  | some (.ok _) | none => .isFalse fun h => h

/-- How a task that ended on this outcome leaves the row; `D` says whether somebody deletes it. -/
def EndsIn (settings : Settings) (id : Uuid) (D : Prop) : Option (Except Exn Instance) → World → Prop
  | some (.ok _) => Remains id D (·.status = .completed)
  | some (.error (.parse detail)) => Remains id D (·.Marked detail)
  | some (.error (.notFound _)) => fun w => D ∧ w.db.document id = none
  | _ => Remains id D (·.Marked (exhaustedMessage settings))

/-- No exception of the embedder passes for a missing document. -/
def Oracle.Plain (o : Oracle) : Prop := ∀ texts detail, o.embed texts ≠ .error (.notFound detail)

def Deleted (id : Uuid) (attempts : Nat → Feed World Oracle) : Prop := ∃ n, Deletes id (attempts n)

/-- The attempts under consideration: they do not overlap with others on this row, none dies, the
embedder raises no `NotFoundError`, and when the last attempt gives up its mark is written. -/
structure Attempts (ext : External) (settings : Settings) (id : Uuid)
    (attempts : Nat → Feed World Oracle) (w : World) (m : Nat) : Prop where
  alive : ∀ n k, attempts n k ≠ none
  spares : ∀ n, Spares id (attempts n)
  embedder : ∀ n, (attempts n).Answers Oracle.Plain
  mark : ∀ w' e φ', (processing ext settings id).run exec (attempts m)
      (before ext settings id attempts w m) = (w', some (.error e, φ')) → e.transient →
    (exhaustion settings id).result exec φ' w' = some (.ok ())

variable {ext : External} {settings : Settings} {id : Uuid} {attempts : Nat → Feed World Oracle}
  {w : World} {m n : Nat} {D : Prop} {d : Document}

/-- Reading the row afresh, `mark_failed` leaves it marked whenever it returns. -/
theorem exhaustion_marks {w' w'' : World} {φ φ' : Feed World Oracle} {step : Oracle → Prop}
    (hw : Remains id D (fun _ => True) w') (hφ : φ.Respects (sparing id D step))
    (h : (exhaustion settings id).run exec φ w' = (w'', some (.ok (), φ'))) :
    Remains id D (·.Marked (exhaustedMessage settings)) w'' := by
  let End (r : Except Exn Unit) (w : World) : Prop := match r with
    | .ok _ => Remains id D (·.Marked (exhaustedMessage settings)) w
    | .error _ => True
  have hwp : wpE exec (sparing id D fun _ => True) (fun r w _ => End r w)
      (markFailed none id (exhaustedMessage settings)) w' [] := by
    refine wpE_markFailed End (Remains.stable fun _ => True) (fun _ => trivial)
      (fun _ _ _ => trivial) (fun r => ?_) (fun t ht _ hnone => (ht.gone hnone).mono fun _ h => h.elim)
      (fun _ _ _ _ => trivial) (fun t u row ht _ hrow htu hu => ?_) hw
    · cases r with
      | ok _ => exact Remains.stable _
      | error _ => exact fun _ _ _ _ _ => trivial
    · obtain rfl : row.id = id := Database.document_id hrow
      have hu' : Remains row.id D (· = row) u :=
        Remains.stable _ t u (.inl ⟨row, hrow, rfl⟩) htu hu
      refine commits_sparing (fun _ _ => trivial) fun db skip hc => ⟨?_, fun _ _ => trivial⟩
      refine Remains.commit (failTxn (.load row) _) hu' hc fun r hr => ?_
      rw [hr]
      exact failTxn_apply (.load row) _
  obtain ⟨-, -, -, hend⟩ := (wp_run hwp trivial (fun n t ht s hs => hφ n t ht s hs)
    (Async.runObeys_of_forall exec (fun _ _ _ _ _ _ => trivial) _ _ _)).2 _ _ _ h
  exact hend

section Attempt

variable (h : Attempts ext settings d.id attempts w m) (hraw : d.rawContent ≠ none)
  (hn : Remains d.id (Deleted d.id attempts) (·.file = d.file) (before ext settings d.id attempts w n))
include h hraw hn

theorem attempt_processing : ∃ w' r φ', (processing ext settings d.id).run exec (attempts n)
      (before ext settings d.id attempts w n) = (w', some (r, φ')) ∧
    Remains d.id (Deleted d.id attempts) (·.file = d.file) w' ∧
    Settles d.id (Deleted d.id attempts) Oracle.Plain r w' ∧
    φ'.Respects (sparing d.id (Deleted d.id attempts) Oracle.Plain) := by
  obtain ⟨w', r, φ', hrun⟩ := Async.run_of_alive exec (h.alive n)
    (processing ext settings d.id) (before ext settings d.id attempts w n)
  refine ⟨w', r, φ', hrun, ?_⟩
  rcases hn with ⟨row, hrow, hfile⟩ | hnone
  · have hid : row.id = d.id := Database.document_id hrow
    have hrec : row.Recordable := .inl (Document.rawContent_of_file hfile ▸ hraw)
    rw [← hid] at hrow hrun ⊢
    rw [← hfile]
    exact process_outcome hrec (.inl ⟨row, hrow, rfl⟩) (hid ▸ h.spares n) (fun hdel => ⟨n, hdel⟩)
      (h.embedder n) hrun
  · exact process_outcome (.inl hraw) (.inr hnone) (h.spares n) (fun hdel => ⟨n, hdel⟩)
      (h.embedder n) hrun

theorem attempt_settled (hs : ¬ Transient (outcome ext settings d.id attempts w n)) :
    (delivery ext settings n d.id).result exec (attempts n)
        (before ext settings d.id attempts w n) = some (.ok .done) ∧
      EndsIn settings d.id (Deleted d.id attempts) (outcome ext settings d.id attempts w n)
        (before ext settings d.id attempts w (n + 1)) := by
  obtain ⟨w', r, φ', hrun, -, hend, -⟩ := attempt_processing h hraw hn
  have hout : outcome ext settings d.id attempts w n = some r := (Async.result_of_run hrun).1
  rw [hout] at hs ⊢
  cases r with
  | ok document =>
    obtain ⟨hresult, hfinal⟩ := Async.result_of_run (delivery_ok n hrun)
    exact ⟨hresult, by rw [before, hfinal]; exact hend⟩
  | error e =>
    have he : e.transient = false := Bool.eq_false_iff.mpr hs
    obtain ⟨hresult, hfinal⟩ := Async.result_of_run (delivery_final n he hrun)
    refine ⟨hresult, ?_⟩
    rw [before, hfinal]
    cases e with
    | parse detail => exact hend
    | notFound detail =>
      exact (hend fun o ho texts => ho texts detail).resolve_left fun ⟨_, _, hfalse⟩ => hfalse
    | _ => cases he

theorem attempt_retried (hm : settings.workerMaxRetries = m) (hlt : n < m)
    (ht : Transient (outcome ext settings d.id attempts w n)) :
    (delivery ext settings n d.id).result exec (attempts n)
        (before ext settings d.id attempts w n) = some (.ok (.retry (backoff settings n))) ∧
      Remains d.id (Deleted d.id attempts) (·.file = d.file)
        (before ext settings d.id attempts w (n + 1)) := by
  obtain ⟨w', r, φ', hrun, hkept, -, -⟩ := attempt_processing h hraw hn
  have hout : outcome ext settings d.id attempts w n = some r := (Async.result_of_run hrun).1
  rw [hout] at ht
  cases r with
  | ok document => exact ht.elim
  | error e =>
    obtain ⟨hresult, hfinal⟩ := Async.result_of_run (delivery_retry n ht
      (by rw [hm]; exact_mod_cast hlt) hrun)
    exact ⟨hresult, by rw [before, hfinal]; exact hkept⟩

theorem attempt_exhausted (hm : settings.workerMaxRetries = m) (hlast : n = m)
    (ht : Transient (outcome ext settings d.id attempts w n)) :
    (delivery ext settings n d.id).result exec (attempts n)
        (before ext settings d.id attempts w n) = some (.ok .done) ∧
      EndsIn settings d.id (Deleted d.id attempts) (outcome ext settings d.id attempts w n)
        (before ext settings d.id attempts w (n + 1)) := by
  subst hlast
  obtain ⟨w', r, φ', hrun, hkept, -, hφ'⟩ := attempt_processing h hraw hn
  have hout : outcome ext settings d.id attempts w n = some r := (Async.result_of_run hrun).1
  rw [hout] at ht ⊢
  cases r with
  | ok document => exact ht.elim
  | error e =>
    obtain ⟨φ'', hmark⟩ := Async.run_of_result (h.mark _ _ _ hrun ht)
    have hmarked := exhaustion_marks (hkept.mono fun _ _ => trivial) hφ' hmark
    obtain ⟨hresult, hfinal⟩ := Async.result_of_run (delivery_exhausted n ht
      (by rw [hm]) hrun hmark)
    refine ⟨hresult, ?_⟩
    rw [before, hfinal]
    cases e with
    | parse detail => cases ht
    | notFound detail => cases ht
    | _ => exact hmarked

end Attempt

def retried (settings : Settings) (n k : Nat) : List (Option (Except Exn TaskResult)) :=
  (List.range' n k).map fun i => some (.ok (.retry (backoff settings i)))

theorem executions_eq (h : Attempts ext settings d.id attempts w m) (hraw : d.rawContent ≠ none)
    (hm : settings.workerMaxRetries = m) {fuel : Nat} (hfuel : m < n + fuel) (hle : n ≤ m)
    (hn : Remains d.id (Deleted d.id attempts) (·.file = d.file)
      (before ext settings d.id attempts w n)) :
    ∃ k, n + k ≤ m ∧ (∀ i < k, Transient (outcome ext settings d.id attempts w (n + i))) ∧
      (n + k < m → ¬ Transient (outcome ext settings d.id attempts w (n + k))) ∧
      executions ext settings d.id attempts fuel n (before ext settings d.id attempts w n) =
        (retried settings n k ++ [some (.ok .done)],
          before ext settings d.id attempts w (n + k + 1)) ∧
      EndsIn settings d.id (Deleted d.id attempts) (outcome ext settings d.id attempts w (n + k))
        (before ext settings d.id attempts w (n + k + 1)) := by
  induction fuel generalizing n with
  | zero => omega
  | succ fuel ih =>
    by_cases ht : Transient (outcome ext settings d.id attempts w n)
    · rcases Nat.lt_or_ge n m with hlt | hge
      · obtain ⟨hresult, hnext⟩ := attempt_retried h hraw hn hm hlt ht
        obtain ⟨k, hk, htrans, hstop, hrun, hend⟩ := ih (n := n + 1) (by omega) hlt hnext
        rw [Nat.add_right_comm n 1 k] at hk hstop hrun hend
        refine ⟨k + 1, hk, fun i hi => ?_, hstop, ?_, hend⟩
        · cases i with
          | zero => exact ht
          | succ i => exact Nat.add_right_comm n 1 i ▸ htrans i (by omega)
        · simp only [executions, hresult]
          rw [← before, hrun]
          rfl
      · obtain ⟨hresult, hend⟩ := attempt_exhausted h hraw hn hm (by omega) ht
        refine ⟨0, hle, fun i hi => (by omega), fun hlt => (by omega), ?_, hend⟩
        simp only [executions, hresult]
        rfl
    · obtain ⟨hresult, hend⟩ := attempt_settled h hraw hn ht
      refine ⟨0, hle, fun i hi => (by omega), fun _ => ht, ?_, hend⟩
      simp only [executions, hresult]
      rfl

theorem EndsIn.settled {r : Option (Except Exn Instance)} {row : Document}
    (h : EndsIn settings id D r w) (hrow : w.db.document id = some row) :
    row.status ≠ .pending ∧ row.status ≠ .processing := by
  have hmarked {detail : Str} (h : Remains id D (·.Marked detail) w) :
      row.status ≠ .pending ∧ row.status ≠ .processing := by
    simp [(h.here hrow).1]
  match r, h with
  | some (.ok _), h =>
    have hdone : row.status = .completed := h.here hrow
    simp [hdone]
  | some (.error e), h =>
    cases e with
    | notFound detail =>
      rw [h.2] at hrow
      cases hrow
    | _ => exact hmarked h
  | none, h => exact hmarked h

/-- The task is executed once for each transient failure and once more, `m + 1` times at most, with
the delay doubled each time; then the row is settled the way the last attempt ended. -/
theorem retries_settle (hd : w.db.document d.id = some d) (hraw : d.rawContent ≠ none)
    (hm : settings.workerMaxRetries = m) (h : Attempts ext settings d.id attempts w m)
    {fuel : Nat} (hfuel : m < fuel) :
    let outcome := outcome ext settings d.id attempts w
    let task := executions ext settings d.id attempts fuel 0 w
    (∀ j, (∀ i < j, Transient (outcome i)) → ¬ Transient (outcome j) →
      task.1.length = min (j + 1) (m + 1)) ∧
    ((∀ i ≤ m, Transient (outcome i)) → task.1.length = m + 1) ∧
    ∃ k, task.1.length = k + 1 ∧
      task.1 = (List.range k).map (fun i =>
        some (.ok (.retry (settings.workerRetryBackoffSeconds * 2 ^ i)))) ++ [some (.ok .done)] ∧
      EndsIn settings d.id (Deleted d.id attempts) (outcome k) task.2 ∧
      ∀ row, task.2.db.document d.id = some row →
        row.status ≠ .pending ∧ row.status ≠ .processing := by
  obtain ⟨k, hk, htrans, hstop, hrun, hend⟩ := executions_eq (n := 0) h hraw hm ((Nat.zero_add fuel).symm ▸ hfuel)
    (Nat.zero_le m) (.inl ⟨d, hd, rfl⟩)
  simp only [Nat.zero_add] at hk htrans hstop hrun hend
  have hlength : (executions ext settings d.id attempts fuel 0 w).1.length = k + 1 := by
    change (executions ext settings d.id attempts fuel 0 (before ext settings d.id attempts w 0)).1.length = _
    rw [hrun]
    simp [retried]
  refine ⟨fun j hj hjs => ?_, fun hall => ?_, k, hlength, ?_, ?_, fun row hrow => ?_⟩
  · rw [hlength]
    have hkj : k ≤ j := Nat.le_of_not_lt fun hlt => hjs (htrans j hlt)
    rcases Nat.lt_or_ge k m with hlt | hge
    · have hjk : j ≤ k := Nat.le_of_not_lt fun hlt' => hstop hlt (hj k hlt')
      omega
    · omega
  · rw [hlength]
    have hge : m ≤ k := Nat.le_of_not_lt fun hlt => hstop hlt (hall k hk)
    omega
  · change (executions ext settings d.id attempts fuel 0 (before ext settings d.id attempts w 0)).1 = _
    rw [hrun, retried, List.range_eq_range']
    rfl
  · change EndsIn _ _ _ _
      (executions ext settings d.id attempts fuel 0 (before ext settings d.id attempts w 0)).2
    rw [hrun]
    exact hend
  · change (executions ext settings d.id attempts fuel 0
      (before ext settings d.id attempts w 0)).2.db.document _ = _ at hrow
    rw [hrun] at hrow
    exact hend.settled hrow

namespace Sample

def oneRetry : Settings := { workerMaxRetries := 1 }

/-- The database is down, except when the last attempt comes to mark the row. -/
def outage (n : Nat) : Feed World Oracle :=
  fun k => some { oracle := if n = 1 ∧ 0 < k then oracle else failing }

def uploaded : World := state (whole 0 4 (.upload tenantId note))

theorem outage_attempts : Attempts ext oneRetry documentId outage uploaded 1 where
  alive _ _ h := by cases h
  spares n := spares_of_alone (fun _ _ ht => by rw [← Option.some.inj ht]) _
  embedder n k t ht texts detail := by
    rw [← Option.some.inj ht]
    dsimp only
    split <;> exact fun h => by cases h
  mark w' e φ' hrun _ := by
    have hfirst : (processing ext oneRetry documentId).run exec (outage 1)
        (before ext oneRetry documentId outage uploaded 1) =
          (uploaded, some (.error (.other "OperationalError".toList), (outage 1).tail)) := rfl
    rw [hfirst] at hrun
    cases hrun
    rfl

end Sample

theorem retries_settle_outage :
    (executions Sample.ext Sample.oneRetry Sample.documentId Sample.outage 2 0
      Sample.uploaded).1.length = 2 :=
  (retries_settle (d := (Sample.row (Sample.whole 0 4 (.upload Sample.tenantId Sample.note))).get
    (by decide)) (Option.some_get _).symm (by decide) rfl Sample.outage_attempts (by decide)).2.1
    (by decide)

end RagPlatform
