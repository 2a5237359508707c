import RagPlatform.Duties
import RagPlatform.Worker.Tasks

/-! What a delivery leaves undone: nothing, or it asks for another one. -/

namespace RagPlatform

open Lib

theorem nul_not_mem_nat (n : Nat) : nul ∉ (toString n).toList := by
  intro h
  rw [Nat.toString_eq_ofList_toDigits, String.toList_ofList] at h
  exact absurd (Nat.isDigit_of_mem_toDigits (by decide) (by decide) h) (by decide)

theorem nul_not_mem_int (n : Int) : nul ∉ (toString n).toList := by
  cases n with
  | ofNat n => exact nul_not_mem_nat n
  | negSucc n =>
    change nul ∉ ("-" ++ toString (n + 1)).toList
    rw [String.toList_append, List.mem_append]
    exact not_or.mpr ⟨by decide, nul_not_mem_nat _⟩

theorem storableText_exhaustedMessage (settings : Settings) :
    storableText ((exhaustedMessage settings).take 500) := by
  refine storableText_iff.mpr fun h => ?_
  have hmem := List.mem_of_mem_take h
  simp only [exhaustedMessage, String.toList_append, List.mem_append] at hmem
  rcases hmem with (h | h) | h
  · exact absurd h (by decide)
  · exact nul_not_mem_int _ h
  · exact absurd h (by decide)

theorem minds_exhaustion {id : Uuid} {l : Log api} (settings : Settings)
    (Q : Except Exn Unit → Log api → Prop) (hl : l ≠ []) :
    MindsE exec (attendance true) id Q (markFailed none id (exhaustedMessage settings)) l := by
  refine mindsE_perform_bind (.inl rfl) fun o w ho _ => ?_
  have hfault : o.fault = none := ho rfl hl
  rw [exec_of_no_fault hfault]
  cases hrow : w.db.document id with
  | none =>
    refine .inl (.inl ?_)
    rintro ⟨d, hd, -⟩
    rw [show (serve o (.getDocument id) w).1 = w from rfl, hrow] at hd
    cases hd
  | some d =>
    cases hstatus : d.status.terminal with
    | true =>
      refine .inl (.inl ?_)
      rintro ⟨e, he, hopen⟩
      rw [show (serve o (.getDocument id) w).1 = w from rfl, hrow] at he
      rw [← Option.some.inj he, hstatus] at hopen
      cases hopen
    | false =>
      have hid : d.id = id := Database.document_id hrow
      refine .inr ?_
      simp only [serve, hrow, mindsBind]
      have hloaded : (Instance.load d).loaded.status.terminal = false := hstatus
      exact minds_fail Q hid hloaded (storableText_exhaustedMessage settings)

def NotGone {α : Type} (r : Except Exn α) (l : Log api) : Prop :=
  (∀ detail, r ≠ .error (.notFound detail)) ∧ l ≠ []

section

variable {ext : External} {svc : IngestionService} {l : Log api} {row : Document} {raw : Bytes}

theorem notGone_error {α : Type} {e : Exn} (he : ∀ detail, e ≠ .notFound detail) (hl : l ≠ []) :
    NotGone (.error e : Except Exn α) l :=
  ⟨fun detail h => he detail (Except.error.inj h), hl⟩

theorem minds_embedBatches {id : Uuid} (batches : List (List ChunkDraft)) (hl : l ≠ []) :
    MindsE exec (attendance true) id NotGone (IngestionService.embedBatches batches) l := by
  induction batches generalizing l with
  | nil => exact .pure ⟨nofun, hl⟩
  | cons batch batches ih =>
    refine mindsE_perform_bind (.inl rfl) fun o w ho _ => .inr ?_
    have hraises : ∀ detail, (exec o (.embedDocuments (batch.map (·.text))) w).2 ≠
        .error (.notFound detail) := by
      intro detail h
      rcases exec_cases o (.embedDocuments (batch.map (·.text))) w with he | ⟨name, hr, -⟩
      · exact ho detail (by rw [he] at h; exact h)
      · rw [hr] at h
        cases h
    cases hr : (exec o (.embedDocuments (batch.map (·.text))) w).2 with
    | error e => exact notGone_error (fun detail h => hraises detail (hr.trans (h ▸ rfl))) (by simp)
    | ok first =>
      refine .bind ((ih (by simp)).mono fun r l h => ?_)
      cases r with
      | error e => exact notGone_error (fun detail he => h.1 detail (he ▸ rfl)) h.2
      | ok rest => exact ⟨nofun, h.2⟩

theorem minds_embedAll {id : Uuid} (drafts : List ChunkDraft) (hl : l ≠ []) :
    MindsE exec (attendance true) id NotGone (svc.embedAll drafts) l := by
  unfold IngestionService.embedAll
  split
  · exact .throw (notGone_error nofun hl)
  · split
    · exact .pure ⟨nofun, hl⟩
    · exact minds_embedBatches _ hl

theorem minds_store (hl : l ≠ []) : MindsE exec (attendance true) row.id
    (fun r l => ∃ e, r = .error e ∧ NotGone r l) (svc.store ext (started row) raw) l := by
  unfold IngestionService.store
  have herror {e : Exn} {l : Log api} (he : ∀ detail, e ≠ .notFound detail) (hl : l ≠ []) :
      ∃ e', (.error e : Except Exn Instance) = .error e' ∧
        NotGone (.error e : Except Exn Instance) l :=
    ⟨e, rfl, notGone_error he hl⟩
  cases hp : svc.parseAndChunk ext raw (started row).current.sourceType with
  | error e =>
    refine .throw (herror (fun detail hgone => ?_) hl)
    subst hgone
    rcases ProcessProof.parseAndChunk_error hp with he | ⟨_, he⟩
    · cases he
    · cases he
  | ok drafts =>
    rw [ofExcept_ok_bind]
    refine .bind ((minds_embedAll drafts hl).mono fun r l hr => ?_)
    cases r with
    | error e => exact herror (fun detail he => hr.1 detail (he ▸ rfl)) hr.2
    | ok embeddings =>
      refine mindsE_perform_bind (.inl rfl) fun o w _ _ => .inr ?_
      rcases exec_cases o (.deleteChunks (started row).current.id) w with he | ⟨name, hname, -⟩
      · rw [he]
        simp only [serve, mindsBind]
        split
        · exact .throw (herror (fun _ h => by cases h) (by simp))
        · refine mindsE_perform_bind (.inl rfl) fun o w _ _ => ?_
          rcases exec_commit o (storeTxn row _ drafts embeddings) w with
            ⟨db, hdb, hstate, -⟩ | ⟨e, htr, hexec⟩
          · refine .inl (.inl ?_)
            change ¬Unsettled (exec o (.commit (storeTxn row _ drafts embeddings)) w).1 row.id
            rw [hstate]
            exact settled_of_commit (t := storeTxn row _ drafts embeddings) rfl rfl rfl hdb
          · refine .inr ?_
            change mindsBind exec _ _ _ _ (exec o (.commit (storeTxn row _ drafts embeddings)) w).2 _
            rw [hexec]
            exact herror (fun detail he => by rw [he] at htr; cases htr) (by simp)
      · rw [hname]
        exact herror (fun _ h => by cases h) (by simp)

/-- What is left of an attempt that will be made again, or given up with a mark. -/
def Failing (r : Except Exn Instance) (l : Log api) : Prop :=
  ∃ e, r = .error e ∧ e.transient ∧ l ≠ []

theorem minds_onError {e : Exn} (he : ∀ detail, e ≠ .notFound detail) :
    MindsE exec (attendance true) row.id Failing (IngestionService.onError (started row) e) l := by
  refine mindsE_perform_bind (.inl rfl) fun o w _ _ => .inr ?_
  rcases exec_cases o .rollback w with hexec | ⟨name, hname, -⟩
  · rw [hexec]
    simp only [serve, mindsBind]
    cases e with
    | parse detail =>
      refine .bind (mindsE_perform (.inl rfl) fun o w ho _ => ?_)
      rcases exec_commit o (failTxn (started row) detail) w with
        ⟨db, hdb, hstate, -⟩ | ⟨e, htr, hexec⟩
      · refine .inl (.inl ?_)
        change ¬Unsettled (exec o (.commit (failTxn (started row) detail)) w).1 row.id
        rw [hstate]
        exact settled_of_commit (t := failTxn (started row) detail) rfl rfl rfl hdb
      · refine .inr ?_
        change mindsBind exec _ _ _ _ (exec o (.commit (failTxn (started row) detail)) w).2 _
        rw [hexec]
        exact ⟨e, rfl, htr, by simp⟩
    | notFound detail => exact absurd rfl (he detail)
    | _ => exact .bind (.pure (.throw ⟨_, rfl, rfl, by simp⟩))
  · rw [hname]
    exact ⟨_, rfl, rfl, by simp⟩

/-- From the commit of `PROCESSING` on. -/
theorem minds_started (hl : l ≠ []) : MindsE exec (attendance true) row.id Failing
    (tryCatch (svc.store ext (started row) raw) (IngestionService.onError (started row))) l := by
  refine .tryCatch ((minds_store hl).mono fun r l hr => ?_)
  obtain ⟨e, rfl, hgone, -⟩ := hr
  exact minds_onError fun detail he => hgone detail (he ▸ rfl)

theorem minds_startCommit {o : Oracle} {w : World} : mindsBind exec (attendance true) row.id Failing
    (fun _ => tryCatch (svc.store ext (started row) raw) (IngestionService.onError (started row)))
    (exec o (.commit (startTxn row)) w).2
    (l ++ [⟨.commit (startTxn row), (exec o (.commit (startTxn row)) w).2⟩]) := by
  rcases exec_commit o (startTxn row) w with ⟨db, -, -, hr | ⟨name, -, hr⟩⟩ | ⟨e, htr, hexec⟩
  · rw [hr]
    exact minds_started (by simp)
  · rw [hr]
    exact ⟨_, rfl, rfl, by simp⟩
  · rw [hexec]
    exact ⟨e, rfl, htr, by simp⟩

/-- `process` once it has read the row. -/
def processRow (ext : External) (svc : IngestionService) (id : Uuid) :
    Option Document → Io Instance
  | none => raise (.notFound s!"document {id} not found".toList)
  | some row =>
    if row.status = .completed then return .load row
    else
      match row.rawContent with
      | none =>
        raise (.parse "no stored payload for this document (uploaded pre-async-pipeline)".toList)
      | some raw => do
        perform (.commit (startTxn row))
        tryCatch (svc.store ext (started row) raw) (IngestionService.onError (started row))

theorem process_eq (id : Uuid) :
    svc.process ext none id = perform (.getDocument id) >>= processRow ext svc id := by
  unfold IngestionService.process
  refine congrArg (perform (.getDocument id) >>= ·) (funext fun found => ?_)
  cases found with
  | none => rfl
  | some row =>
    change (if row.status = .completed then _ else _) = if row.status = .completed then _ else _
    refine if_congr Iff.rfl rfl ?_
    cases hraw : row.rawContent with
    | none => simp only [Option.getD_none, Instance.load, hraw]
    | some raw =>
      simp only [Option.getD_none, Instance.load, hraw, save, bind_assoc, pure_bind]
      rfl

theorem minds_process {id : Uuid} :
    MindsE exec (attendance true) id Failing (svc.process ext none id) l := by
  rw [process_eq]
  refine mindsE_perform_bind (.inl rfl) fun o w _ hw => ?_
  rcases exec_cases o (.getDocument id) w with he | ⟨name, hname, -⟩
  · rw [he]
    cases hrow : w.db.document id with
    | none =>
      refine .inl (.inl ?_)
      rintro ⟨d, hd, -⟩
      rw [show (serve o (.getDocument id) w).1 = w from rfl, hrow] at hd
      cases hd
    | some row =>
      obtain rfl : row.id = id := Database.document_id hrow
      by_cases hdone : row.status = .completed
      · refine .inl (.inl ?_)
        rintro ⟨d, hd, hopen⟩
        rw [show (serve o (.getDocument row.id) w).1 = w from rfl, hrow] at hd
        rw [← Option.some.inj hd, hdone] at hopen
        cases hopen
      · refine .inr ?_
        simp only [serve, hrow, mindsBind, processRow, if_neg hdone]
        cases hraw : row.rawContent with
        | none => exact absurd hraw (hw _ row hrow)
        | some raw =>
          exact mindsE_perform_bind (.inl rfl) fun o w _ _ => .inr minds_startCommit
  · refine .inr ?_
    rw [hname]
    exact ⟨_, rfl, rfl, by simp⟩

theorem only_embedBatches (batches : List (List ChunkDraft)) :
    OnlyE (fun c : Call => ¬c.Opens) (IngestionService.embedBatches batches) := by
  induction batches with
  | nil => exact .pure _
  | cons batch batches ih =>
    exact .bind (only_perform nofun) fun _ => .bind ih fun _ => .pure _

theorem only_store : OnlyE (fun c : Call => ¬c.Opens) (svc.store ext (started row) raw) := by
  refine .bind (only_ofExcept _) fun drafts => .bind ?_ fun embeddings =>
    .bind (only_perform nofun) fun doomed => ?_
  · unfold IngestionService.embedAll
    split
    · exact .throw _
    · split
      · exact .pure _
      · exact only_embedBatches _
  · split
    · exact .throw _
    · exact .bind (only_perform nofun) fun _ => .pure _

theorem only_onError (document : Instance) (e : Exn) :
    OnlyE (fun c : Call => ¬c.Opens) (IngestionService.onError document e) := by
  refine .bind (only_perform nofun) fun _ => ?_
  cases e with
  | parse detail => exact .bind (only_markFailed _ _ _) fun _ => .throw _
  | _ => exact .throw _

theorem careful_process {id : Uuid} : CarefulE exec (attendance true) (· = id)
    (fun _ => Failing) (svc.process ext none id) l := by
  rw [process_eq]
  refine carefulE_read_bind nofun fun o w row _ hw hrow => ?_
  cases row with
  | none => exact .throw _ _
  | some row =>
    obtain rfl : row.id = id := Database.document_id (document_of_read hrow)
    simp only [processRow]
    split
    · exact .pure _ _
    · cases hraw : row.rawContent with
      | none => exact .throw _ _
      | some raw =>
        refine carefulE_perform_bind fun o w _ _ => ⟨fun k hk hk' => ?_, fun _ _ =>
          carefulE_of_only (.tryCatch only_store fun e => only_onError (started row) e)⟩
        obtain rfl : k = row.id := opens_commit hk hk'
        exact ⟨rfl, minds_startCommit⟩

def Retried (r : Except Exn TaskResult) (_ : Log api) : Prop :=
  ∃ countdown, r = .ok (.retry countdown)

theorem minds_handler {settings : Settings} {retries : Nat} {id : Uuid} (hl : l ≠ []) :
    MindsE exec (attendance true) id Retried
      (if (retries : Int) ≥ settings.workerMaxRetries then do
        markFailed none id (exhaustedMessage settings)
        return .done
      else return .retry (backoff settings retries)) l := by
  split
  · exact .bind ((minds_exhaustion settings _ hl))
  · exact .pure ⟨_, rfl⟩

theorem minds_ingestDocument {settings : Settings} {retries : Nat} {id : Uuid} :
    MindsE exec (attendance true) id Retried (ingestDocument ext settings retries id) l := by
  refine .tryCatch (.bind (minds_process.mono fun r l hr => ?_))
  obtain ⟨e, rfl, he, hl⟩ := hr
  cases e with
  | parse detail => cases he
  | notFound detail => cases he
  | _ => exact minds_handler hl

theorem careful_ingestDocument {settings : Settings} {retries : Nat} {id : Uuid} :
    CarefulE exec (attendance true) (· = id) (fun _ => Retried)
      (ingestDocument ext settings retries id) l := by
  refine .tryCatch (.bind (Async.Careful.mono careful_process fun k hk r l hr => ?_)
    fun _ _ => .pure _ _)
    fun e l => carefulE_of_only ?_
  · obtain rfl : k = id := hk
    obtain ⟨e, rfl, he, hl⟩ := hr
    cases e with
    | parse detail => cases he
    | notFound detail => cases he
    | _ => exact minds_handler hl
  · cases e with
    | parse detail => exact .pure _
    | notFound detail => exact .pure _
    | _ =>
      simp only
      split
      · exact .bind (only_markFailed _ _ _) fun _ => .pure _
      · exact .pure _

end

end RagPlatform
