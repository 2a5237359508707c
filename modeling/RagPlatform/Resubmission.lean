import RagPlatform.SystemLaws

/-! What a failed enqueue leaves behind, and what becomes of the same upload afterwards. -/

namespace RagPlatform

open Lib

def Registered (tenantId : Uuid) (sha : Str) (db : Database) : Prop :=
  ∃ id d, db.document id = some d ∧ d.tenantId = tenantId ∧ d.contentSha256 = sha

section Rows

variable {tenantId : Uuid} {sha : Str} {db db' : Database}

theorem registered_commit {txn : Txn} {skip : Nat} (h : Registered tenantId sha db)
    (hc : db.commit txn skip = .ok db') : Registered tenantId sha db' := by
  obtain ⟨id, d, hd, ht, hs⟩ := h
  have hd' := document_commit hc id
  rw [hd] at hd'
  split at hd'
  · exact ⟨id, _, hd', ht, hs⟩
  · exact ⟨id, d, hd', ht, hs⟩

theorem registered_insert {d : Document} (h : db.insertDocument d = .ok db') :
    Registered d.tenantId d.contentSha256 db' := by
  obtain ⟨-, hf, rfl⟩ := Database.insertDocument_ok h
  exact ⟨d.id, d, by rw [Database.document_add, if_pos rfl], rfl, rfl⟩

theorem not_fits {d : Document} (h : Registered d.tenantId d.contentSha256 db) : ¬ db.Fits d := by
  obtain ⟨id, e, he, ht, hs⟩ := h
  exact fun hf => hf.2.2 e (Database.document_eq_some.mp he).1 (by rw [ht, hs])

end Rows

def alone : Contract api World Oracle where
  inv _ := True
  rely := Eq
  guar _ _ := True
  rely_refl _ := rfl
  rely_trans := Eq.trans

theorem respects_alone {φ : Feed World Oracle} (h : φ.Alone) : φ.Respects alone :=
  fun n t ht s _ => ⟨by rw [h n t ht]; rfl, trivial⟩

def LooksRefused (e : Exn) : Prop := e.detail = Exn.queueUnavailable.detail

theorem not_looksRefused {e : Exn} (h : e.detail.bind List.head? ≠ some 'I') : ¬ LooksRefused e := by
  intro he
  rw [LooksRefused] at he
  rw [he] at h
  exact h (by decide)

theorem not_looksRefused_sourceType {filename : Str} {e : Exn}
    (h : sourceTypeForFilename filename = .error e) : ¬ LooksRefused e := by
  simp only [sourceTypeForFilename] at h
  split at h
  · cases h
  · cases h
    have hhead : ("unsupported file extension '".toList).head? = some 'u' := by decide
    refine not_looksRefused ?_
    simp only [Exn.detail, Option.bind_some, List.head?_append, hhead, Option.some_or]
    decide

section Attempt

variable {ext : External} {settings : Settings} {svc : IngestionService} {tenantId : Uuid}
  {α : Type} {s : World} {l : Log api}

theorem wpE_alone_throw {E : Except Exn α → World → Log api → Prop} {e : Exn}
    (h : E (.error e) s l) : wpE exec alone E (throw e : Io α) s l :=
  wpE_throw fun _ hst _ => hst ▸ h

theorem wpE_alone_pure {E : Except Exn α → World → Log api → Prop} {a : α}
    (h : E (.ok a) s l) : wpE exec alone E (pure a : Io α) s l :=
  wpE_pure fun _ hst _ => hst ▸ h

theorem wpE_alone_read_bind {β : Type} {c : Call} {E : Except Exn β → World → Log api → Prop}
    {f : Reply c → Io β} (hc : c.Reads) (hraise : ∀ name l', E (.error (.other name)) s l')
    (h : ∀ o l', afterBind exec alone E f (serve o c s).2 s l') :
    wpE exec alone E (perform c >>= f) s l :=
  wpE_read_bind hc (fun _ => trivial) fun t hst _ => by
    subst hst
    exact ⟨trivial, fun name l' => wpE_alone_throw (hraise name l'), fun o _ => h o _⟩

theorem wpE_attempt_checkQuota (raw : Bytes) :
    wpE exec alone (fun r _ _ => ∀ e, r = .error e → ¬ LooksRefused e)
      (svc.checkQuota tenantId raw) s l := by
  unfold IngestionService.checkQuota
  split
  · refine wpE_alone_read_bind (Call.reads_sumSizeBytes _) (fun name l' e he => ?_) fun o l' => ?_
    · cases he
      exact not_looksRefused (by simp [Exn.detail])
    · simp only [serve, afterBind]
      split
      · refine wpE_alone_throw fun e he => ?_
        cases he
        have hhead : (toString "Tenant storage quota exceeded: ").toList.head? = some 'T' := by decide
        refine not_looksRefused ?_
        simp only [Exn.detail, Option.bind_some, String.toList_append, List.head?_append, hhead,
          Option.some_or]
        decide
      · exact wpE_alone_pure fun e he => by cases he
  · exact wpE_alone_pure fun e he => by cases he

theorem wpE_attempt_insert {d : NewDocument} :
    wpE exec alone (fun r w _ => match r with
      | .ok _ => Registered d.tenantId d.contentSha256 w.db
      | .error e => ¬ LooksRefused e) (IngestionService.insert d) s l := by
  refine wpE_tryCatch (wpE_perform fun t _ _ => ⟨trivial, fun o _ => ⟨trivial, trivial, ?_⟩⟩)
  rintro u rfl -
  cases hr : (exec o (.insertDocument d) t).2 with
  | ok row =>
    obtain ⟨-, rfl, hins⟩ := exec_insertDocument_ok hr
    exact wpE_alone_pure (registered_insert hins)
  | error e =>
    have hplain : e.detail = none := by
      rcases exec_cases o (.insertDocument d) t with he | ⟨name, he, -⟩
      · rw [he] at hr
        simp only [serve, Database.insertDocument] at hr
        split at hr
        · split at hr
          · cases hr
          · cases hr; rfl
        · cases hr; rfl
      · rw [he] at hr; cases hr; rfl
    simp only [afterTry]
    split
    · refine wpE_alone_read_bind Call.reads_rollback (fun name l' => ?_) fun o l' =>
        wpE_alone_throw ?_
      · exact not_looksRefused (by simp [Exn.detail])
      · exact not_looksRefused (by decide)
    · exact wpE_alone_throw (not_looksRefused (by simp [hplain]))

theorem wpE_attempt_register (filename : Str) (raw : Bytes) (sourceType : DocumentSourceType) :
    wpE exec alone (fun r w _ => match r with
      | .ok _ => Registered tenantId (ext.sha256 raw) w.db
      | .error e => ¬ LooksRefused e) (svc.register ext tenantId filename raw sourceType) s l := by
  refine wpE_alone_read_bind (Call.reads_getTenant _) (fun name l' => ?_) fun o l' => ?_
  · exact not_looksRefused (by simp [Exn.detail])
  simp only [serve, afterBind]
  split
  · refine wpE_alone_throw (not_looksRefused ?_)
    have hhead : (toString "tenant ").toList.head? = some 't' := by decide
    simp only [Exn.detail, Option.bind_some, String.toList_append, List.head?_append, hhead,
      Option.some_or]
    decide
  · refine wpE_bind (wpE_mono (wpE_attempt_checkQuota raw) fun r t l'' _ hr => ?_)
    cases r with
    | error e => exact wpE_alone_throw (hr e rfl)
    | ok u =>
      refine wpE_bind (wpE_mono wpE_attempt_insert fun r t l'' _ hr => ?_)
      cases r with
      | error e => exact wpE_alone_throw hr
      | ok row => exact wpE_alone_pure hr

theorem wpE_attempt_enqueue {sha : Str} {document : Instance}
    (hs : Registered tenantId sha s.db) :
    wpE exec alone (fun _ w _ => Registered tenantId sha w.db) (enqueue document) s l := by
  refine wpE_tryCatch (wpE_perform fun t hst _ => ⟨trivial, fun o _ => ⟨trivial, trivial, ?_⟩⟩)
  rintro u rfl -
  subst hst
  have hdb : (exec o (.delay document.current.id) s).1.db = s.db := by
    have he := exec_effect o (.delay document.current.id) s
    generalize (exec o (.delay document.current.id) s).1.db = db at he
    cases he
    rfl
  cases (exec o (.delay document.current.id) s).2 with
  | ok _ => exact wpE_alone_pure (by rwa [hdb])
  | error e =>
    refine wpE_bind (wpE_commit (failTxn document "could not enqueue ingestion".toList)
      (fun w => Registered tenantId sha w.db) (fun w => Registered tenantId sha w.db)
      (fun t ht _ => ⟨trivial, fun l o _ => ?_⟩) (fun w t l' hw hwt _ => ?_)
      (fun e w t l' _ hw hwt _ => ?_))
    · have hreg : Registered tenantId sha t.db := by rw [← ht, hdb]; exact hs
      exact ⟨⟨hreg, trivial, trivial⟩, fun db hc =>
        ⟨trivial, trivial, registered_commit hreg hc, fun _ _ => registered_commit hreg hc⟩⟩
    · exact wpE_alone_throw (hwt ▸ hw)
    · exact wpE_alone_throw (hwt ▸ hw)

theorem wpE_attempt_submit {β : Type} (g : Instance → β) (filename : Str) (file : UploadFile)
    (sourceType : DocumentSourceType) :
    wpE exec alone (fun r w _ => match r with
      | .ok b => ∃ document, b = g document
      | .error e => LooksRefused e → Registered tenantId (ext.sha256 file.raw) w.db)
      (do
        let document ← svc.register ext tenantId filename file.raw sourceType
        enqueue document
        return g document) s l := by
  refine wpE_bind (wpE_mono (wpE_attempt_register filename file.raw sourceType)
    fun r t l' _ hr => ?_)
  cases r with
  | error e => exact wpE_alone_throw fun he => absurd he hr
  | ok document =>
    refine wpE_bind (wpE_mono (wpE_attempt_enqueue hr) fun r t l'' _ hr => ?_)
    cases r with
    | error e => exact wpE_alone_throw fun _ => hr
    | ok _ => exact wpE_alone_pure ⟨document, rfl⟩

theorem checkSize_eq (settings : Settings) (file : UploadFile) : checkSize settings file = pure () ∨
    ∃ e, checkSize settings file = throw e ∧ ¬ LooksRefused e := by
  unfold checkSize
  split
  · refine .inr ⟨_, rfl, not_looksRefused ?_⟩
    have hhead : (toString "file is ").toList.head? = some 'f' := by decide
    simp only [Exn.detail, Option.bind_some, String.toList_append, List.head?_append, hhead,
      Option.some_or]
    decide
  · exact .inl rfl

theorem wpE_attempt_upload (file : UploadFile) :
    wpE exec alone (fun r w _ => r = .error .queueUnavailable →
      Registered tenantId (ext.sha256 file.raw) w.db)
      (uploadDocument ext settings tenantId file) s l := by
  unfold uploadDocument
  cases ht : sourceTypeForFilename (file.name []) with
  | error e =>
    refine wpE_alone_throw fun he => absurd ?_ (not_looksRefused_sourceType ht)
    cases he
    rfl
  | ok sourceType =>
    rw [ofExcept_ok_bind]
    rcases checkSize_eq settings file with hsize | ⟨e, hsize, he⟩
    · rw [hsize, pure_bind]
      refine wpE_mono (wpE_attempt_submit (fun document => document.current) _ file sourceType)
        fun r t l' _ hr he => ?_
      subst he
      exact hr rfl
    · rw [hsize]
      refine wpE_alone_throw fun he' => absurd ?_ he
      cases he'
      rfl

theorem wpE_attempt_batchItem (file : UploadFile) :
    wpE exec alone (fun r w _ => ∀ item, r = .ok item →
      item.error = Exn.queueUnavailable.detail → Registered tenantId (ext.sha256 file.raw) w.db)
      (uploadBatchItem ext settings tenantId file) s l := by
  refine wpE_tryCatch (wpE_mono (E := fun r w _ => match r with
    | .ok item => item.error = none
    | .error e => LooksRefused e → Registered tenantId (ext.sha256 file.raw) w.db) ?_
    fun r t l' _ hr => ?_)
  · rcases checkSize_eq settings file with hsize | ⟨e, hsize, he⟩
    · rw [hsize, pure_bind]
      cases ht : sourceTypeForFilename (file.name "upload".toList) with
      | error e => exact wpE_alone_throw fun he => absurd he (not_looksRefused_sourceType ht)
      | ok sourceType =>
        rw [ofExcept_ok_bind]
        refine wpE_mono (wpE_attempt_submit (fun document => ({
          filename := file.name "upload".toList, document := some document.current } :
            BatchItemResult)) _ file sourceType) fun r t l' _ hr => ?_
        cases r with
        | error e => exact hr
        | ok item => obtain ⟨document, rfl⟩ := hr; rfl
    · rw [hsize]
      exact wpE_alone_throw fun he' => absurd he' he
  · cases r with
    | ok item =>
      refine wpE_alone_pure fun item' he herror => ?_
      cases he
      rw [hr] at herror
      cases herror
    | error e =>
      simp only [afterTry]
      split
      · next detail hdetail =>
        refine wpE_alone_pure fun item' he herror => ?_
        cases he
        exact hr (hdetail.trans herror)
      · exact wpE_alone_throw fun item he => by cases he

end Attempt

/-- The row is there, every await is answered, and the queue does not grow. -/
def resubmission (tenantId : Uuid) (sha : Str) (queue : List Uuid) :
    Contract api World Oracle where
  inv w := Registered tenantId sha w.db ∧ w.queue = queue
  rely := Eq
  guar _ _ := True
  step _ o _ _ := o.fault = none
  stop w := w.queue = queue
  rely_refl _ := rfl
  rely_trans := Eq.trans

section Again

variable {ext : External} {settings : Settings} {tenantId : Uuid} {queue : List Uuid}

theorem keeps_again_register (filename : Str) (file : UploadFile)
    (sourceType : DocumentSourceType) :
    Keeps exec (resubmission tenantId (ext.sha256 file.raw) queue) (fun _ => False)
      ((apiIngestionService settings).register ext tenantId filename file.raw sourceType) := by
  have hinsert : Keeps exec (resubmission tenantId (ext.sha256 file.raw) queue) (fun _ => False)
      (perform (.insertDocument
        (IngestionService.newDocument ext tenantId filename file.raw sourceType))) := ?_
  · refine (keeps_register_of_insert (K := resubmission tenantId (ext.sha256 file.raw) queue)
      (fun t (h : Registered .. ∧ _) => h.2) (fun _ => trivial) hinsert).mono ?_
    rintro _ ⟨_, h, _⟩
    exact h
  refine fun s l => wpE_perform fun t _ ht => ⟨ht.2, fun o ho => ?_⟩
  have hreg : Registered tenantId (ext.sha256 file.raw) t.db := ht.1
  have herror : ∃ e, exec o (.insertDocument (IngestionService.newDocument ext tenantId filename
      file.raw sourceType)) t = (t, .error e) := by
    rw [exec_of_no_fault ho]
    simp only [serve, Database.insertDocument]
    split
    · rw [dif_neg (not_fits hreg)]
      exact ⟨_, rfl⟩
    · exact ⟨_, rfl⟩
  obtain ⟨e, he⟩ := herror
  rw [he]
  exact ⟨ht, trivial, fun _ _ _ _ h => by cases h⟩

theorem keeps_again_upload (file : UploadFile) :
    Keeps exec (resubmission tenantId (ext.sha256 file.raw) queue) (fun _ => False)
      (uploadDocument ext settings tenantId file) :=
  .bind (keeps_ofExcept _) fun _ _ => .bind (ApiProof.keeps_checkSize file) fun _ _ =>
    .bind (keeps_again_register _ file _) fun _ h => h.elim

theorem keeps_again_batchItem (file : UploadFile) :
    Keeps exec (resubmission tenantId (ext.sha256 file.raw) queue) (fun item => item.document = none)
      (uploadBatchItem ext settings tenantId file) := by
  refine .tryCatch (.bind (ApiProof.keeps_checkSize file) fun _ _ =>
    .bind (keeps_ofExcept _) fun _ _ => .bind (keeps_again_register _ file _)
      fun _ h => h.elim) fun e => ?_
  split
  · exact .pure rfl
  · exact .throw e

theorem again_outcome {α : Type} {R : α → Prop} {p : Io α} {w : World} {φ : Feed World Oracle}
    {sha : Str} (h : Keeps exec (resubmission tenantId sha w.queue) R p)
    (hw : Registered tenantId sha w.db) (hφ : φ.Alone) (hanswers : φ.Answers fun o => o.fault = none) :
    (∀ a, Async.result exec p.run φ w = some (.ok a) → R a) ∧
      (Async.final exec p.run φ w).queue = w.queue := by
  have hrun := wp_outcome (h w []) ⟨hw, rfl⟩ (fun n t ht s hs => by rw [hφ n t ht]; exact ⟨rfl, hs⟩)
    fun n t ht _ _ _ => hanswers n t ht
  cases hr : Async.result exec p.run φ w with
  | none => exact ⟨fun a ha => (by cases ha), hrun.1 hr⟩
  | some r =>
    obtain ⟨hinv, l, hR⟩ := hrun.2 r hr
    exact ⟨fun a ha => hR a (Option.some.inj ha), hinv.2⟩

/-- An upload that ended in `QueueUnavailableError` cannot be repeated: the same file is never
accepted afterwards, and nothing is enqueued for it. -/
theorem refused_upload_never_accepted (file : UploadFile) (w : World) {φ ψ : Feed World Oracle}
    (hφ : φ.Alone) (hψ : ψ.Alone) (hanswers : ψ.Answers fun o => o.fault = none) :
    let upload := (uploadDocument ext settings tenantId file).run
    let item := (uploadBatchItem ext settings tenantId file).run
    (upload.result exec φ w = some (.error .queueUnavailable) →
      (∀ document, upload.result exec ψ (upload.final exec φ w) ≠ some (.ok document)) ∧
      (upload.final exec ψ (upload.final exec φ w)).queue = (upload.final exec φ w).queue) ∧
    ∀ refused, item.result exec φ w = some (.ok refused) →
      refused.error = Exn.queueUnavailable.detail →
      (∀ again, item.result exec ψ (item.final exec φ w) = some (.ok again) →
        again.document = none) ∧
      (item.final exec ψ (item.final exec φ w)).queue = (item.final exec φ w).queue := by
  refine ⟨fun hfirst => ?_, fun refused hfirst hrefused => ?_⟩
  · have hattempt : wpE exec alone _ (uploadDocument ext settings tenantId file) w [] :=
      wpE_attempt_upload file
    have hrun := wp_outcome hattempt trivial (respects_alone hφ) fun _ _ _ _ _ _ => trivial
    obtain ⟨-, -, hreg⟩ := hrun.2 _ hfirst
    exact again_outcome (p := uploadDocument ext settings tenantId file) (keeps_again_upload file)
      (hreg rfl) hψ hanswers
  · have hattempt : wpE exec alone _ (uploadBatchItem ext settings tenantId file) w [] :=
      wpE_attempt_batchItem file
    have hrun := wp_outcome hattempt trivial (respects_alone hφ) fun _ _ _ _ _ _ => trivial
    obtain ⟨-, -, hreg⟩ := hrun.2 _ hfirst
    exact again_outcome (p := uploadBatchItem ext settings tenantId file)
      (keeps_again_batchItem file) (hreg refused rfl hrefused) hψ hanswers

end Again

namespace Sample

/-- An upload whose enqueue is refused; its last await marks the row. -/
def refusing : Feed World Oracle := .of [oracle, oracle, oracle, failing, oracle]

def answering : Feed World Oracle := .of (.replicate 5 oracle)

theorem answering_answers : answering.Answers fun o => o.fault = none :=
  Feed.answers_of fun o ho => by rw [List.eq_of_mem_replicate ho]; rfl

def noteUpload : Async api (Except Exn Document) := (uploadDocument ext {} tenantId note).run

end Sample

theorem refused_upload_never_accepted_note :
    (∀ document, Sample.noteUpload.result exec Sample.answering
      (Sample.noteUpload.final exec Sample.refusing Sample.world) ≠ some (.ok document)) ∧
    (Sample.noteUpload.final exec Sample.answering
      (Sample.noteUpload.final exec Sample.refusing Sample.world)).queue =
        (Sample.noteUpload.final exec Sample.refusing Sample.world).queue :=
  (refused_upload_never_accepted Sample.note Sample.world (Feed.alone_of _) (Feed.alone_of _)
    Sample.answering_answers).1 (by rfl)

/-- The broker is back and there is room for the file, but the row of the failed attempt is in the
way. -/
theorem retry_after_queueUnavailable_refused :
    Sample.noteUpload.result exec Sample.refusing Sample.world = some (.error .queueUnavailable) ∧
      Sample.noteUpload.result exec Sample.answering
        (Sample.noteUpload.final exec Sample.refusing Sample.world) =
          some (.error .duplicateDocument) ∧
      (Sample.noteUpload.final exec Sample.answering
        (Sample.noteUpload.final exec Sample.refusing Sample.world)).queue = [] :=
  ⟨rfl, rfl, rfl⟩

end RagPlatform
