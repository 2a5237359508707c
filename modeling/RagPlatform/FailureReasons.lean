import RagPlatform.System
import RagPlatform.Worker.TaskLaws

/-! What a `ParseError` leaves on the row. -/

namespace RagPlatform

open Lib

section

variable (ext : External) (svc : IngestionService) (settings : Settings) (w : World) (id : Uuid)

/-- Whenever `process` raises a `ParseError`, the row carries its detail. -/
def ReasonsRecorded : Prop :=
  ∀ φ, Spares id φ → ∀ detail,
    (svc.process ext none id).run.result exec φ w = some (.error (.parse detail)) →
    Remains id (Deletes id φ) (·.Marked detail) ((svc.process ext none id).run.final exec φ w)

/-- Whenever it does so in a delivery, there is no further attempt, and none is needed. -/
def DeliveriesSettle : Prop :=
  ∀ retries φ, Spares id φ → ∀ detail,
    (processing ext settings id).result exec φ w = some (.error (.parse detail)) →
    (delivery ext settings retries id).result exec φ w = some (.ok .done) ∧
      ∀ row, ((delivery ext settings retries id).final exec φ w).db.document id = some row →
        row.status ≠ .pending ∧ row.status ≠ .processing

end

variable {ext : External} {svc : IngestionService} {settings : Settings} {w : World}
  {d : Document} {φ : Feed World Oracle}

theorem reasonsRecorded (hd : w.db.document d.id = some d) (hrec : d.Recordable) :
    ReasonsRecorded ext svc w d.id := by
  intro φ hφ detail hresult
  obtain ⟨φ', hrun⟩ := Async.run_of_result hresult
  have hany : φ.Answers fun _ => True := fun _ _ _ => trivial
  exact (process_outcome hrec (.inl ⟨d, hd, rfl⟩) hφ id hany hrun).2.1

theorem deliveriesSettle (h : ReasonsRecorded ext (ingestionService settings) w d.id) :
    DeliveriesSettle ext settings w d.id := by
  intro retries φ hφ detail hresult
  obtain ⟨φ', hrun⟩ := Async.run_of_result hresult
  obtain ⟨hdone, hfinal⟩ := Async.result_of_run (delivery_final retries rfl hrun)
  refine ⟨hdone, fun row hrow => ?_⟩
  have hmarked := (h φ hφ detail hresult).here (by rwa [hfinal] at hrow)
  simp [hmarked.1]

theorem process_noPayload (ext : External) (svc : IngestionService)
    (hd : w.db.document d.id = some d) (hraw : d.rawContent = none)
    (hstatus : d.status ≠ .completed) :
    (svc.process ext none d.id).run.run exec (.always {}) w =
      (w, some (.error (.parse noPayload), .always {})) := by
  change (Async.bind (.ret (Except.ok (w.db.document d.id))) _).run exec _ w = _
  rw [hd]
  simp only [Async.bind, ExceptT.bindCont, Option.getD_none, Instance.load, hstatus, if_false, hraw]
  rfl

/-- A `ParseError` is recorded on the row if and only if the row has a payload, is completed, or
carries the message about the missing payload already. -/
theorem parse_errors_recorded (hd : w.db.document d.id = some d) :
    (ReasonsRecorded ext svc w d.id ∧ DeliveriesSettle ext settings w d.id) ↔ d.Recordable := by
  constructor
  · rintro ⟨h, -⟩
    refine or_iff_not_imp_left.mpr fun hraw => or_iff_not_imp_left.mpr fun hstatus => ?_
    obtain ⟨hresult, hfinal⟩ :=
      Async.result_of_run (process_noPayload ext svc hd (not_not.mp hraw) hstatus)
    exact (h _ (spares_of_alone (Feed.alone_always _) d.id) _ hresult).here (by rw [hfinal]; exact hd)
  · intro hrec
    exact ⟨reasonsRecorded hd hrec, deliveriesSettle (reasonsRecorded hd hrec)⟩

namespace Sample

/-- A row from before the payloads were stored. -/
def legacy : Document where
  id := documentId
  tenantId := tenantId
  filename := "old.md".toList
  sourceType := .markdown
  contentSha256 := []
  sizeBytes := 3
  status := .pending
  rawContent := none
  errorMessage := none
  chunkCount := none
  createdAt := 0

def legacyWorld : World := { world with db := world.db.add legacy (by decide) }

def once : Feed World Oracle := .of [oracle]

end Sample

theorem parse_errors_recorded_note :
    ReasonsRecorded Sample.ext (ingestionService {})
      (Sample.state (Sample.whole 0 4 (.upload Sample.tenantId Sample.note))) Sample.documentId ∧
    DeliveriesSettle Sample.ext {}
      (Sample.state (Sample.whole 0 4 (.upload Sample.tenantId Sample.note))) Sample.documentId :=
  (parse_errors_recorded (d := (Sample.row (Sample.whole 0 4 (.upload Sample.tenantId
    Sample.note))).get (by decide)) (Option.some_get _).symm).mpr (by decide)

/-- The delivery of a row without payload ends for good, and the row is pending for ever. -/
theorem missing_payload_unrecorded :
    (processing Sample.ext {} Sample.documentId).result exec Sample.once Sample.legacyWorld =
        some (.error (.parse noPayload)) ∧
      (delivery Sample.ext {} 0 Sample.documentId).result exec Sample.once Sample.legacyWorld =
        some (.ok .done) ∧
      ((delivery Sample.ext {} 0 Sample.documentId).final exec Sample.once
        Sample.legacyWorld).db.document Sample.documentId = some Sample.legacy :=
  ⟨rfl, rfl, rfl⟩

end RagPlatform
