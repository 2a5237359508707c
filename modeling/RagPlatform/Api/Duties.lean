import RagPlatform.Duties
import RagPlatform.Gateway

/-! What an upload leaves undone once it has its row: nothing, or it hands the row on. -/

namespace RagPlatform

open Lib

section

variable {worker : Bool} {l : Log api}

theorem minds_enqueue {id : Uuid} {document : Instance}
    (Q : Except Exn Unit → Log api → Prop) (hid : document.loaded.id = id)
    (hcurrent : document.current.id = id) (hloaded : document.loaded.status.terminal = false) :
    MindsE exec (attendance worker) id Q (enqueue document) l := by
  refine .tryCatch (mindsE_perform (.inr (.inl (by rw [hcurrent]))) fun o w _ _ => ?_)
  have hsent : (attendance worker).Rid id w (serve o (.delay document.current.id) w).1 := by
    refine .inr ?_
    simp [attendance, serve, hcurrent]
  rcases exec_cases o (.delay document.current.id) w with he | ⟨name, hr, he | ⟨-, he⟩⟩
  · exact .inl (he ▸ hsent)
  · refine .inr ?_
    rw [hr]
    exact .bind (minds_fail _ hid hloaded rfl)
  · exact .inl (he ▸ hsent)

theorem only_enqueue (document : Instance) : OnlyE (fun c : Call => ¬c.Opens) (enqueue document) :=
  .tryCatch (only_perform id) fun _ => .bind (only_markFailed _ _ _) fun _ => .throw _

theorem opens_insert {o : Oracle} {d : NewDocument} {w : World} {k : Uuid}
    (hfault : ∀ name, o.fault ≠ some (.lostAck name)) (hk : ¬Unsettled w k)
    (hk' : Unsettled (exec o (.insertDocument d) w).1 k) :
    ∃ row, (exec o (.insertDocument d) w).2 = .ok row ∧ row.id = k ∧ row.status = .pending := by
  rcases exec_cases o (.insertDocument d) w with he | ⟨_, -, he | ⟨hlost, -⟩⟩
  · rw [he] at hk' ⊢
    simp only [serve] at hk' ⊢
    cases hinsert : w.db.insertDocument (d.row o.uuid o.now) with
    | error e =>
      rw [hinsert] at hk'
      exact absurd hk' hk
    | ok db =>
      refine ⟨_, rfl, ?_, rfl⟩
      by_contra hne
      rw [hinsert] at hk'
      obtain ⟨row, hrow, hopen⟩ := hk'
      obtain ⟨-, hfits, rfl⟩ := Database.insertDocument_ok hinsert
      refine hk ⟨row, ?_, hopen⟩
      rwa [World.write, Database.document_add, if_neg fun h => hne h.symm] at hrow
  · rw [he] at hk'
    exact absurd hk' hk
  · exact absurd hlost (hfault _)

def NewRow (k : Uuid) (r : Except Exn Instance) (_ : Log api) : Prop :=
  ∃ row, r = .ok (.load row) ∧ row.id = k ∧ row.status = .pending

theorem careful_register {ext : External} {svc : IngestionService} {tenantId : Uuid}
    {filename : Str} {raw : Bytes} {sourceType : DocumentSourceType} :
    CarefulE exec (attendance worker) (fun _ => True) NewRow
      (svc.register ext tenantId filename raw sourceType) l := by
  refine .bind (carefulE_of_only (only_perform id)) fun tenant l => ?_
  split
  · exact .throw _ _
  · refine .bind (carefulE_of_only ?_) fun _ l => .bind (.tryCatch (carefulE_perform ?_) ?_) ?_
    · unfold IngestionService.checkQuota
      split
      · refine .bind (only_perform id) fun (usedBytes : Nat) => ?_
        split
        · exact .throw _
        · exact .pure _
      · exact .pure _
    · intro o w ho _ k hk hk'
      obtain ⟨row, hrow, hid, hstatus⟩ := opens_insert ho hk hk'
      rw [hrow]
      exact ⟨trivial, row, rfl, hid, hstatus⟩
    · intro e l
      refine carefulE_of_only ?_
      cases e with
      | integrity => exact .bind (only_perform id) fun _ => .throw _
      | _ => exact .throw _
    · exact fun row l => .pure _ _

variable {ext : External} {settings : Settings} {tenantId : Uuid}
  {K : Uuid → Prop}

/-- `enqueue` follows a registration, and sees to its row. -/
theorem NewRow.minds {α : Type} {k : Uuid} {r : Except Exn Instance}
    {Q : Except Exn α → Log api → Prop} {f : Instance → Io α} (h : NewRow k r l) :
    mindsBind exec (attendance worker) k Q (fun document => enqueue document >>= fun _ => f document)
      r l := by
  obtain ⟨row, rfl, hid, hstatus⟩ := h
  exact .bind (minds_enqueue _ hid hid (by rw [Instance.load, hstatus]; rfl))

theorem careful_uploadDocument (Q : Uuid → Except Exn Document → Log api → Prop)
    (file : UploadFile) : CarefulE exec (attendance worker) (fun _ => True) Q
      (uploadDocument ext settings tenantId file) l :=
  .bind (carefulE_of_only (only_ofExcept _)) fun _ _ =>
    .bind (carefulE_of_only (only_checkSize _)) fun _ _ =>
      .bind (careful_register.mono fun _ _ _ _ => NewRow.minds) fun _ _ =>
        carefulE_of_only (.bind (only_enqueue _) fun _ => .pure _)

theorem careful_uploadBatchItem (Q : Uuid → Except Exn BatchItemResult → Log api → Prop)
    (file : UploadFile) : CarefulE exec (attendance worker) (fun _ => True) Q
      (uploadBatchItem ext settings tenantId file) l := by
  refine .tryCatch (.bind (carefulE_of_only (only_checkSize _)) fun _ _ =>
    .bind (carefulE_of_only (only_ofExcept _)) fun _ _ =>
      .bind (careful_register.mono fun _ _ _ _ => NewRow.minds) fun _ _ =>
        carefulE_of_only (.bind (only_enqueue _) fun _ => .pure _)) fun e l => ?_
  split
  · exact .pure _ _
  · exact .throw _ _

theorem careful_uploadBatchItems (Q : Uuid → Except Exn (List BatchItemResult) → Log api → Prop)
    (files : List UploadFile) : CarefulE exec (attendance worker) (fun _ => True) Q
      (uploadBatchItems ext settings tenantId files) l := by
  induction files generalizing Q l with
  | nil => exact .pure _ _
  | cons file files ih =>
    exact .bind (careful_uploadBatchItem _ file) fun _ _ => .bind (ih _) fun _ _ => .pure _ _

theorem careful_job (Q : Uuid → Except Exn Outcome → Log api → Prop) (endpoint : Endpoint) :
    CarefulE exec (attendance worker) (fun _ => True) Q ((endpoint.job tenantId).code ext settings)
      l := by
  have haside {α : Type} {q : Io α} (f : α → Outcome) (h : OnlyE Call.Aside q) :
      CarefulE exec (attendance worker) (fun _ => True) Q (q >>= fun a => pure (f a)) l :=
    carefulE_of_only (.bind (Async.Only.mono h fun _ => Call.Aside.not_opens) fun _ => .pure _)
  cases endpoint with
  | upload file => exact .bind (careful_uploadDocument _ file) fun _ _ => .pure _ _
  | uploadBatch files =>
    exact .bind (.bind (careful_uploadBatchItems _ files) fun _ _ => .pure _ _) fun _ _ => .pure _ _
  | list limit offset => exact haside .documents (aside_listDocuments limit offset)
  | get documentId => exact haside (fun found => .polled found.1 found.2) aside_getDocument
  | events documentId polls => exact haside .events (aside_documentEvents polls)
  | delete documentId =>
    exact carefulE_of_only (.bind (.bind (Async.Only.mono aside_getOwned fun _ =>
      Call.Aside.not_opens) fun _ => only_perform id) fun _ => .pure _)
  | search body => exact haside .results (aside_search settings body)
  | answer body => exact haside .answer (aside_answer settings body)
  | usage days => exact haside .usage (aside_usageSummary days)

end

end RagPlatform
