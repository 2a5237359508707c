import RagPlatform.History
import RagPlatform.Ingestion.ParserLaws
import RagPlatform.Services.Ingestion

/-! A rule for `process` and `markFailed`: what has to be shown of each commit and each ending. -/

namespace RagPlatform

open Lib

def startTxn (row : Document) : Txn :=
  ⟨(Instance.load row).set { status := some .processing }, [], []⟩

def started (row : Document) : Instance :=
  ((Instance.load row).set { status := some .processing }).flushed

def failTxn (document : Instance) (message : Str) : Txn :=
  ⟨document.set { status := some .failed, errorMessage := some (some (message.take 500)) }, [], []⟩

def stored (row : Document) (chunkCount : Nat) : Instance :=
  (started row).set (IngestionService.completion chunkCount)

def storeTxn (row : Document) (doomed : List Nat) (drafts : List ChunkDraft)
    (embeddings : List Embedding) : Txn :=
  ⟨stored row drafts.length, doomed,
    IngestionService.newChunks (started row).current drafts embeddings⟩

theorem startTxn_patch (row : Document) : (startTxn row).document.patch =
    { status := if row.status = .processing then none else some .processing } := by
  simp only [startTxn, Instance.patch, Instance.set, Instance.load, Patch.apply, Option.getD_some,
    Option.getD_none, if_true]
  rfl

theorem failTxn_patch (document : Instance) (message : Str) :
    (failTxn document message).document.patch =
      { status := if document.loaded.status = .failed then none else some .failed
        errorMessage := if document.loaded.errorMessage = some (message.take 500) then none
          else some (some (message.take 500))
        chunkCount := document.patch.chunkCount } := by
  simp only [failTxn, Instance.patch, Instance.set, Patch.apply, Option.getD_some, Option.getD_none]
  rfl

theorem storeTxn_patch (row : Document) (doomed : List Nat) (drafts : List ChunkDraft)
    (embeddings : List Embedding) : (storeTxn row doomed drafts embeddings).document.patch =
      { status := some .completed
        errorMessage := if row.errorMessage = none then none else some none
        chunkCount := if row.chunkCount = some drafts.length then none
          else some (some drafts.length) } := by
  simp only [storeTxn, stored, started, IngestionService.completion, Instance.patch, Instance.set,
    Instance.flushed, Instance.load, Patch.apply, Option.getD_some, Option.getD_none,
    reduceCtorEq, if_false]
  rfl

def Document.Marked (detail : Str) (row : Document) : Prop :=
  row.status = .failed ∧ row.errorMessage = some (detail.take 500)

instance (detail : Str) (row : Document) : Decidable (row.Marked detail) :=
  inferInstanceAs (Decidable (_ ∧ _))

theorem startTxn_apply (d : Document) :
    (startTxn d).document.patch.apply d = (started d).current := by
  rw [startTxn_patch]
  by_cases hs : d.status = .processing
  · simp [Patch.apply, started, Instance.set, Instance.load, Instance.flushed, hs]
  · simp [Patch.apply, started, Instance.set, Instance.load, Instance.flushed, hs]

theorem failTxn_apply (document : Instance) (detail : Str) :
    ((failTxn document detail).document.patch.apply document.loaded).Marked detail := by
  rw [failTxn_patch]
  constructor
  · by_cases hs : document.loaded.status = .failed
    · simp [Patch.apply, hs]
    · simp [Patch.apply, hs]
  · by_cases hm : document.loaded.errorMessage = some (detail.take 500)
    · simp [Patch.apply, hm]
    · simp [Patch.apply, hm]

def Document.completed (d : Document) (chunkCount : Nat) : Document :=
  { d with status := .completed, errorMessage := none, chunkCount := some chunkCount }

theorem storeTxn_apply (d : Document) (doomed : List Nat) (drafts : List ChunkDraft)
    (embeddings : List Embedding) :
    (storeTxn d doomed drafts embeddings).document.patch.apply (started d).current =
      d.completed drafts.length := by
  rw [storeTxn_patch]
  by_cases hm : d.errorMessage = none
  · by_cases hn : d.chunkCount = some drafts.length
    · simp [Patch.apply, started, Document.completed, Instance.set, Instance.load,
        Instance.flushed, hm, hn]
    · simp [Patch.apply, started, Document.completed, Instance.set, Instance.load,
        Instance.flushed, hm, hn]
  · by_cases hn : d.chunkCount = some drafts.length
    · simp [Patch.apply, started, Document.completed, Instance.set, Instance.load,
        Instance.flushed, hm, hn]
    · simp [Patch.apply, started, Document.completed, Instance.set, Instance.load,
        Instance.flushed, hm, hn]

@[simp] theorem startTxn_id (row : Document) : (startTxn row).document.loaded.id = row.id := rfl

@[simp] theorem storeTxn_id (row : Document) (doomed : List Nat) (drafts : List ChunkDraft)
    (embeddings : List Embedding) :
    (storeTxn row doomed drafts embeddings).document.loaded.id = row.id := rfl

@[simp] theorem failTxn_id (document : Instance) (message : Str) :
    (failTxn document message).document.loaded.id = document.loaded.id := rfl

section Rules

variable {K : Contract api World Oracle} {α : Type} {s : World} {l : Log api}

/-- The commit of `txn` at `t` keeps the contract, leads to `Done`, and if it raises to `Fail`. -/
def Commits (K : Contract api World Oracle) (txn : Txn) (t : World) (Done Fail : World → Prop) :
    Prop :=
  ∀ l o, K.step l o (.commit txn) t →
    (Fail t ∧ K.inv t ∧ K.guar t t) ∧ ∀ db, t.db.commit txn o.skip = .ok db →
      K.inv { t with db := db } ∧ K.guar t { t with db := db } ∧ Done { t with db := db } ∧
        ∀ name, o.fault = some (.lostAck name) → Fail { t with db := db }

theorem Commits.mono {txn : Txn} {t : World} {Done Done' Fail Fail' : World → Prop}
    (h : Commits K txn t Done Fail) (hdone : ∀ w, Done w → Done' w) (hfail : ∀ w, Fail w → Fail' w) :
    Commits K txn t Done' Fail' := by
  intro l o ho
  obtain ⟨⟨hf, hinv, hguar⟩, hok⟩ := h l o ho
  refine ⟨⟨hfail t hf, hinv, hguar⟩, fun db hc => ?_⟩
  obtain ⟨hinv', hguar', hd, hlost⟩ := hok db hc
  exact ⟨hinv', hguar', hdone _ hd, fun name hname => hfail _ (hlost name hname)⟩

theorem wpE_commit {E : Except Exn Unit → World → Log api → Prop} (txn : Txn)
    (Done Fail : World → Prop)
    (h : ∀ t, K.rely s t → K.inv t → K.stop t ∧ Commits K txn t Done Fail)
    (hdone : ∀ w u l', Done w → K.rely w u → K.inv u → E (.ok ()) u l')
    (hfail : ∀ e w u l', e.transient → Fail w → K.rely w u → K.inv u → E (.error e) u l') :
    wpE exec K E (perform (.commit txn)) s l := by
  refine wpE_perform fun t hst ht => ⟨(h t hst ht).1, fun o ho => ?_⟩
  obtain ⟨⟨hfail₀, hinv₀, hguar₀⟩, hok⟩ := (h t hst ht).2 l o ho
  rcases exec_commit o txn t with ⟨db, hdb, h₁, h₂⟩ | ⟨e, htr, he⟩
  · obtain ⟨hinv, hguar, hd, hlost⟩ := hok db hdb
    rw [h₁]
    refine ⟨hinv, hguar, fun u hu hu' => ?_⟩
    rcases h₂ with h₂ | ⟨name, hf, h₂⟩
    · rw [h₂]; exact hdone _ u _ hd hu hu'
    · rw [h₂]; exact hfail _ _ u _ rfl (hlost name hf) hu hu'
  · rw [he]
    exact ⟨hinv₀, hguar₀, fun u hu hu' => hfail _ _ u _ htr hfail₀ hu hu'⟩

theorem wpE_commit_bind {E : Except Exn α → World → Log api → Prop} {f : Unit → Io α} (txn : Txn)
    (Done Fail : World → Prop)
    (h : ∀ t, K.rely s t → K.inv t → K.stop t ∧ Commits K txn t Done Fail)
    (hdone : ∀ w l', Done w → wpE exec K E (f ()) w l')
    (hfail : ∀ e w l', e.transient → Fail w → wpE exec K E (throw e) w l') :
    wpE exec K E (perform (.commit txn) >>= f) s l :=
  wpE_bind (wpE_commit txn Done Fail h (fun w _ l' hw hu _ => wpE_rely (hdone w l' hw) hu)
    (fun e w _ l' he hw hu _ => wpE_rely (hfail e w l' he hw) hu))

def Instance.Fresh (i : Instance) : Prop := ∃ d id now, i = .load (NewDocument.row d id now)

theorem exec_insertDocument_ok {o : Oracle} {d : NewDocument} {t : World} {row : Document}
    (h : (exec o (.insertDocument d) t).2 = .ok row) :
    o.fault = none ∧ row = d.row o.uuid o.now ∧
      t.db.insertDocument row = .ok (exec o (.insertDocument d) t).1.db := by
  cases hf : o.fault with
  | some f => cases f <;> simp [exec, hf, Call.instant] at h
  | none =>
    rw [exec_of_no_fault hf] at h ⊢
    simp only [serve] at h ⊢
    cases hi : t.db.insertDocument (d.row o.uuid o.now) with
    | error e => rw [hi] at h; cases h
    | ok db =>
      rw [hi] at h
      cases h
      exact ⟨trivial, rfl, hi⟩

theorem keeps_checkQuota {svc : IngestionService} {tenantId : Uuid} {raw : Bytes}
    (hstop : ∀ t, K.inv t → K.stop t) (hguar : ∀ t, K.guar t t) :
    Keeps exec K (fun _ => True) (svc.checkQuota tenantId raw) := by
  unfold IngestionService.checkQuota
  split
  · refine .bind (keeps_read hstop hguar (Call.reads_sumSizeBytes _)) fun used _ => ?_
    split
    · exact .throw _
    · exact .pure trivial
  · exact .pure trivial

/-- What holds of a row once it is inserted holds of it when `register` returns it. -/
theorem wpE_register {ext : External} {svc : IngestionService} {tenantId : Uuid} {filename : Str}
    {raw : Bytes} {sourceType : DocumentSourceType} {R : Document → World → Prop}
    (hstop : ∀ t, K.inv t → K.stop t) (hguar : ∀ t, K.guar t t) (hR : ∀ row, K.Stable (R row))
    (hinsert : ∀ s l, wpE exec K (fun r w _ => ∀ row, r = .ok row → R row w)
      (perform (.insertDocument
        (IngestionService.newDocument ext tenantId filename raw sourceType))) s l) :
    wpE exec K (fun r w _ => ∀ i, r = .ok i → ∃ row, i = .load row ∧ R row w)
      (svc.register ext tenantId filename raw sourceType) s l := by
  have hthrow {γ : Type} {R' : γ → World → Prop} (e : Exn) (s : World) (l : Log api) :
      wpE exec K (fun r w _ => ∀ b, r = .ok b → R' b w) (throw e : Io γ) s l :=
    wpE_throw fun _ _ _ _ h => by cases h
  refine wpE_bind (wpE_mono (keeps_read hstop hguar (Call.reads_getTenant _) s l)
    fun r t l' _ _ => ?_)
  cases r with
  | error e => exact hthrow e t l'
  | ok tenant =>
    simp only [afterBind]
    split
    · exact hthrow _ t l'
    · refine wpE_bind (wpE_mono (keeps_checkQuota hstop hguar t l') fun r t l' _ _ => ?_)
      cases r with
      | error e => exact hthrow e t l'
      | ok _ =>
        refine wpE_bind (wpE_mono (E := fun r w _ => ∀ row, r = .ok row → R row w) ?_
          fun r t l' _ hr => ?_)
        · refine wpE_tryCatch (wpE_mono (hinsert t l') fun r t l' _ hr => ?_)
          cases r with
          | ok row =>
            exact wpE_pure fun u htu hu row' hrow' =>
              Except.ok.inj hrow' ▸ hR row t u (hr row rfl) htu hu
          | error e =>
            simp only [afterTry]
            split
            · refine wpE_bind (wpE_mono (keeps_read hstop hguar Call.reads_rollback t l')
                fun r t l' _ _ => ?_)
              cases r with
              | ok _ => exact hthrow _ t l'
              | error e => exact hthrow e t l'
            · exact hthrow _ t l'
        · cases r with
          | error e => exact hthrow e t l'
          | ok row =>
            exact wpE_pure fun u htu hu i hi =>
              ⟨row, (Except.ok.inj hi).symm, hR row t u (hr row rfl) htu hu⟩

/-- A guarantee about the bare INSERT is one about `register`. -/
theorem keeps_register_of_insert {ext : External} {svc : IngestionService} {tenantId : Uuid}
    {filename : Str} {raw : Bytes} {sourceType : DocumentSourceType} {R : Document → Prop}
    (hstop : ∀ t, K.inv t → K.stop t) (hguar : ∀ t, K.guar t t)
    (hinsert : Keeps exec K R (perform (.insertDocument
      (IngestionService.newDocument ext tenantId filename raw sourceType)))) :
    Keeps exec K (fun i => ∃ row, R row ∧ i = .load row)
      (svc.register ext tenantId filename raw sourceType) := by
  refine .bind (keeps_read hstop hguar (Call.reads_getTenant _)) fun tenant _ => ?_
  split
  · exact .throw _
  · refine .bind (keeps_checkQuota hstop hguar) fun _ _ =>
      .bind (.tryCatch hinsert fun e => ?_) fun row hrow => .pure ⟨row, hrow, rfl⟩
    split
    · exact .bind (keeps_read hstop hguar Call.reads_rollback) fun _ _ => .throw _
    · exact .throw _

theorem keeps_register {ext : External} {svc : IngestionService} {tenantId : Uuid} {filename : Str}
    {raw : Bytes} {sourceType : DocumentSourceType} (hstop : ∀ t, K.inv t → K.stop t)
    (hguar : ∀ t, K.guar t t)
    (hinsert : ∀ l o d t, K.inv t → K.step l o (.insertDocument d) t →
      K.inv (exec o (.insertDocument d) t).1 ∧ K.guar t (exec o (.insertDocument d) t).1) :
    Keeps exec K Instance.Fresh (svc.register ext tenantId filename raw sourceType) := by
  refine (keeps_register_of_insert (R := fun row => ∃ d id now, row = NewDocument.row d id now) hstop
    hguar fun s l => wpE_perform fun t hst ht => ⟨hstop t ht, fun o ho =>
      ⟨(hinsert l o _ t ht ho).1, (hinsert l o _ t ht ho).2, fun u _ _ row hrow =>
        ⟨_, _, _, (exec_insertDocument_ok hrow).2.1⟩⟩⟩).mono ?_
  rintro _ ⟨_, ⟨d, id, now, rfl⟩, rfl⟩
  exact ⟨d, id, now, rfl⟩

/-- Some await under consideration makes the embedder raise `e`. -/
def EmbedRaises (K : Contract api World Oracle) (e : Exn) : Prop :=
  ∃ l o texts t, K.step l o (.embedDocuments texts) t ∧ o.embed texts = .error e

/-- Awaits under consideration give these embeddings, batch after batch. -/
inductive Embeds (K : Contract api World Oracle) : List (List ChunkDraft) → List Embedding → Prop
  | nil : Embeds K [] []
  | cons {batch : List ChunkDraft} {batches : List (List ChunkDraft)}
      {first rest : List Embedding} (l : Log api) (o : Oracle) (t : World) :
    K.step l o (.embedDocuments (batch.map (·.text))) t →
    o.embed (batch.map (·.text)) = .ok first → Embeds K batches rest →
    Embeds K (batch :: batches) (first ++ rest)

variable {ext : External} {svc : IngestionService} {id : Uuid}

/-- How `_embed_all` ends. -/
def EmbedEnd (K : Contract api World Oracle) (svc : IngestionService) (drafts : List ChunkDraft) :
    Except Exn (List Embedding) → Prop
  | .ok embeddings => svc.batchSize < 0 ∧ embeddings = [] ∨
      0 < svc.batchSize ∧ Embeds K (slices svc.batchSize.toNat drafts) embeddings
  | .error e => e.transient ∨ EmbedRaises K e

theorem wpE_embedBatches {M : World → Prop} (hM : K.Stable M) (hguar : ∀ t, K.guar t t)
    (hstop : ∀ t, M t → K.inv t → K.stop t) (batches : List (List ChunkDraft)) (hs : M s) :
    wpE exec K (fun r w _ => M w ∧ match r with
      | .ok embeddings => Embeds K batches embeddings
      | .error e => e.transient ∨ EmbedRaises K e)
      (IngestionService.embedBatches batches) s l := by
  induction batches generalizing s l with
  | nil => exact wpE_pure fun t hst ht => ⟨hM s t hs hst ht, .nil⟩
  | cons batch batches ih =>
    refine wpE_read_bind (Call.reads_embedDocuments _) hguar fun t hst ht => ?_
    have hMt := hM s t hs hst ht
    refine ⟨hstop t hMt ht, fun name l' => wpE_throw fun u htu hu =>
      ⟨hM t u hMt htu hu, .inl rfl⟩, fun o ho => ?_⟩
    change afterBind exec K _ _ (o.embed (batch.map (·.text))) t _
    cases he : o.embed (batch.map (·.text)) with
    | error e =>
      exact wpE_throw fun u htu hu => ⟨hM t u hMt htu hu, .inr ⟨_, o, _, t, ho, he⟩⟩
    | ok first =>
      refine wpE_bind (wpE_mono (ih hMt) fun r u l' _ hr => ?_)
      cases r with
      | error e => exact wpE_throw fun v huv hv => ⟨hM u v hr.1 huv hv, hr.2⟩
      | ok rest =>
        exact wpE_pure fun v huv hv => ⟨hM u v hr.1 huv hv, .cons _ o t ho he hr.2⟩

theorem wpE_embedAll {M : World → Prop} (hM : K.Stable M) (hguar : ∀ t, K.guar t t)
    (hstop : ∀ t, M t → K.inv t → K.stop t) (drafts : List ChunkDraft) (hs : M s) :
    wpE exec K (fun r w _ => M w ∧ EmbedEnd K svc drafts r) (svc.embedAll drafts) s l := by
  unfold IngestionService.embedAll
  split
  · exact wpE_throw fun t hst ht => ⟨hM s t hs hst ht, .inl rfl⟩
  · next hne =>
    split
    · next hneg => exact wpE_pure fun t hst ht => ⟨hM s t hs hst ht, .inl ⟨hneg, rfl⟩⟩
    · next hnn =>
      refine wpE_mono (wpE_embedBatches hM hguar hstop _ hs) fun r t l' _ hr => ⟨hr.1, ?_⟩
      cases r with
      | ok embeddings => exact .inr ⟨by omega, hr.2⟩
      | error e => exact hr.2

theorem wpE_markFailed {M : World → Prop} (End : Except Exn Unit → World → Prop) {message : Str}
    (hM : K.Stable M) (hguar : ∀ t, K.guar t t) (hstop : ∀ t, M t → K.inv t → K.stop t)
    (hend : ∀ r, K.Stable (End r))
    (habsent : ∀ t, M t → K.inv t → t.db.document id = none → End (.ok ()) t)
    (hraise : ∀ t name, M t → K.inv t → End (.error (.other name)) t)
    (hcommit : ∀ t u row, M t → K.inv t → t.db.document id = some row → K.rely t u → K.inv u →
      Commits K (failTxn (.load row) message) u (End (.ok ()))
        fun w => ∀ e, e.transient → End (.error e) w)
    (hs : M s) : wpE exec K (fun r w _ => End r w) (markFailed none id message) s l := by
  refine wpE_read_bind (Call.reads_getDocument id) hguar fun t hst ht => ?_
  have hMt := hM s t hs hst ht
  refine ⟨hstop t hMt ht, fun name l' => wpE_throw fun u htu hu =>
    hend _ t u (hraise t name hMt ht) htu hu, fun o _ => ?_⟩
  have hserve : (serve o (.getDocument id) t).2 = .ok (t.db.document id) := rfl
  rw [hserve]
  cases hrow : t.db.document id with
  | none =>
    change wpE exec K _ (pure ()) t _
    exact wpE_pure fun u htu hu => hend _ t u (habsent t hMt ht hrow) htu hu
  | some row =>
    change wpE exec K _ (perform (.commit (failTxn (.load row) message))) t _
    exact wpE_commit (failTxn (.load row) message) (End (.ok ()))
      (fun w => ∀ e, e.transient → End (.error e) w) (fun u htu hu => ⟨hstop u (hM t u hMt htu hu) hu,
      hcommit t u row hMt ht hrow htu hu⟩)
      (fun w u l' hw hwu hu => hend _ w u hw hwu hu)
      (fun e w u l' he hw hwu hu => hend _ w u (hw e he) hwu hu)

theorem keeps_markFailed {message : Str} (hstop : ∀ t, K.inv t → K.stop t) (hguar : ∀ t, K.guar t t)
    (h : ∀ t u row, K.inv t → t.db.document id = some row → K.rely t u → K.inv u →
      Commits K (failTxn (.load row) message) u (fun _ => True) fun _ => True) :
    Keeps exec K (fun _ => True) (markFailed none id message) :=
  .of_wpE fun _ _ => ⟨_, wpE_markFailed (M := fun _ => True) (fun _ _ => True)
    (fun _ _ _ _ _ => trivial) hguar (fun t _ => hstop t) (fun _ _ _ _ _ _ => trivial)
    (fun _ _ _ _ => trivial) (fun _ _ _ _ => trivial) (fun t u row _ ht hrow htu hu =>
      (h t u row ht hrow htu hu).mono (fun _ _ => trivial) fun _ _ _ _ => trivial) trivial⟩

theorem keeps_fail {document : Instance} {message : Str} (hstop : ∀ t, K.inv t → K.stop t)
    (h : ∀ t, K.inv t → Commits K (failTxn document message) t (fun _ => True) fun _ => True) :
    Keeps exec K (fun _ => True) (markFailed (some document) id message) :=
  fun _ _ => wpE_commit (failTxn document message) (fun _ => True) (fun _ => True)
    (fun t _ ht => ⟨hstop t ht, h t ht⟩) (fun _ _ _ _ _ _ _ _ => trivial)
    (fun _ _ _ _ _ _ _ _ _ _ => trivial)

def noPayload : Str :=
  "no stored payload for this document (uploaded pre-async-pipeline)".toList

/-- What a `ParseError` inside the `try` block says. -/
def ParseReason (K : Contract api World Oracle) (ext : External) (svc : IngestionService)
    (row : Document) (detail : Str) : Prop :=
  (∃ raw, row.rawContent = some raw ∧
    svc.parseAndChunk ext raw row.sourceType = .error (.parse detail)) ∨
    EmbedRaises K (.parse detail)

/-- What is stored for a row: drafts of its payload, one embedding each, in place of the chunks
seen some time before. -/
structure Prepared (K : Contract api World Oracle) (ext : External) (svc : IngestionService)
    (row : Document) (doomed : List Nat) (drafts : List ChunkDraft) (embeddings : List Embedding)
    (t : World) : Prop where
  payload : ∃ raw, row.rawContent = some raw ∧
    svc.parseAndChunk ext raw row.sourceType = .ok drafts
  embedded : EmbedEnd K svc drafts (.ok embeddings)
  length : drafts.length = embeddings.length
  doomed : ∃ u, K.rely u t ∧ doomed = (u.db.chunksOf row.id).map (·.id)

/-- A proof about `process`: `Pre` holds before its first commit, `Mid` between that and the last
one, `Fail` whenever it gives up, and `End` relates what it returns to where it ends. -/
structure ProcessProof (K : Contract api World Oracle) (ext : External) (svc : IngestionService)
    (id : Uuid) (Pre : World → Prop) (Mid : Document → World → Prop) (Fail : World → Prop)
    (End : Except Exn Instance → World → Prop) : Prop where
  guar_refl : ∀ t, K.guar t t
  pre_stable : K.Stable Pre
  mid_stable : ∀ row, K.Stable (Mid row)
  fail_stable : K.Stable Fail
  end_stable : ∀ r, K.Stable (End r)
  pre_fail : ∀ t, Pre t → Fail t
  mid_fail : ∀ row t, Mid row t → Fail t
  stop : ∀ t, Fail t → K.inv t → K.stop t
  transient : ∀ e t, e.transient → Fail t → K.inv t → End (.error e) t
  absent : ∀ t, Pre t → K.inv t → t.db.document id = none →
    End (.error (.notFound s!"document {id} not found".toList)) t
  completed : ∀ t row, Pre t → K.inv t → t.db.document id = some row → row.status = .completed →
    End (.ok (.load row)) t
  payload : ∀ t row, Pre t → K.inv t → t.db.document id = some row → row.status ≠ .completed →
    row.rawContent = none → End (.error (.parse noPayload)) t
  start : ∀ t u row, Pre t → K.inv t → t.db.document id = some row → row.status ≠ .completed →
    row.rawContent ≠ none → K.rely t u → K.inv u → Commits K (startTxn row) u (Mid row) Fail
  gone : ∀ t detail, Fail t → K.inv t → EmbedRaises K (.notFound detail) →
    End (.error (.notFound detail)) t
  fail : ∀ t row detail, Mid row t → K.inv t → ParseReason K ext svc row detail →
    Commits K (failTxn (started row) detail) t (End (.error (.parse detail))) Fail
  store : ∀ t row doomed drafts embeddings, Mid row t → K.inv t →
    Prepared K ext svc row doomed drafts embeddings t →
    Commits K (storeTxn row doomed drafts embeddings) t
      (End (.ok (stored row drafts.length).flushed)) Fail

theorem newChunks_documentId {document : Document} {drafts : List ChunkDraft}
    {embeddings : List Embedding} {c : NewChunk}
    (h : c ∈ IngestionService.newChunks document drafts embeddings) :
    c.documentId = document.id := by
  obtain ⟨x, -, rfl⟩ := List.mem_map.mp h
  rfl

theorem chunksOf_store_of_ne {row : Document} {doomed : List Nat} {drafts : List ChunkDraft}
    {embeddings : List Embedding} {u t : Database} {db : Database} {skip : Nat} {j : Uuid}
    (hg : u.Grows t) (hdoomed : doomed = (u.chunksOf row.id).map (·.id))
    (hc : t.commit (storeTxn row doomed drafts embeddings) skip = .ok db) (hj : j ≠ row.id) :
    db.chunksOf j = t.chunksOf j := by
  have hadded (c : NewChunk) (h : c ∈ (storeTxn row doomed drafts embeddings).added) :
      c.documentId = row.id := newChunks_documentId h
  rw [chunksOf_commit hc, Database.numberChunks_filter_of_ne hadded hj, List.append_nil,
    List.filter_eq_self]
  intro c hcmem
  obtain ⟨hmem, hid⟩ := Database.mem_chunksOf.mp hcmem
  refine decide_eq_true fun hdoom => ?_
  rw [storeTxn, hdoomed] at hdoom
  obtain ⟨c', hc', hcid⟩ := List.mem_map.mp hdoom
  obtain ⟨hmem', hid'⟩ := Database.mem_chunksOf.mp hc'
  have := hg.chunk_eq hmem' hmem hcid
  exact hj (hid.symm.trans (this ▸ hid'))

theorem chunksOf_store {row : Document} {doomed : List Nat} {drafts : List ChunkDraft}
    {embeddings : List Embedding} {t db : Database} {skip : Nat}
    (hc : t.commit (storeTxn row doomed drafts embeddings) skip = .ok db) :
    db.chunksOf row.id = (t.chunksOf row.id).filter (·.id ∉ doomed) ++
      numberChunks (t.nextChunkId + skip)
        (IngestionService.newChunks (started row).current drafts embeddings) := by
  rw [chunksOf_commit hc]
  congr 1
  exact Database.numberChunks_filter_self fun c hcmem => newChunks_documentId hcmem

namespace ProcessProof

/-- Where every commit keeps the contract, so does `process`. -/
theorem of_commits (hguar : ∀ t, K.guar t t) (hstop : ∀ t, K.inv t → K.stop t)
    (h : ∀ txn t, K.inv t → Commits K txn t (fun _ => True) fun _ => True) :
    ProcessProof K ext svc id (fun _ => True) (fun _ _ => True) (fun _ => True)
      (fun _ _ => True) where
  guar_refl := hguar
  pre_stable _ _ _ _ _ := trivial
  mid_stable _ _ _ _ _ _ := trivial
  fail_stable _ _ _ _ _ := trivial
  end_stable _ _ _ _ _ _ := trivial
  pre_fail _ _ := trivial
  mid_fail _ _ _ := trivial
  stop t _ := hstop t
  transient _ _ _ _ _ := trivial
  absent _ _ _ _ := trivial
  completed _ _ _ _ _ _ := trivial
  payload _ _ _ _ _ _ _ := trivial
  start _ u _ _ _ _ _ _ _ hu := h _ u hu
  gone _ _ _ _ _ := trivial
  fail t _ _ _ ht _ := h _ t ht
  store t _ _ _ _ _ ht _ := h _ t ht

variable {Pre : World → Prop} {Mid : Document → World → Prop} {Fail : World → Prop}
  {End : Except Exn Instance → World → Prop}

theorem wpE_raise (h : ProcessProof K ext svc id Pre Mid Fail End) {e : Exn} (he : e.transient)
    (hs : Fail s) : wpE exec K (fun r w _ => End r w) (throw e) s l :=
  wpE_throw fun t hst ht => h.transient e t he (h.fail_stable s t hs hst ht) ht

/-- Where the body of the `try` block ends. -/
def StoreEnd (K : Contract api World Oracle) (ext : External) (svc : IngestionService)
    (Mid : Document → World → Prop) (Fail : World → Prop)
    (End : Except Exn Instance → World → Prop) (row : Document) :
    Except Exn Instance → World → Prop
  | .ok document, w => End (.ok document) w
  | .error e, w => (e.transient ∧ Fail w) ∨
      Mid row w ∧ ((∃ detail, e = .parse detail ∧ ParseReason K ext svc row detail) ∨
        ∃ detail, e = .notFound detail ∧ EmbedRaises K e)

theorem StoreEnd.of_embed {row : Document} {drafts : List ChunkDraft} {e : Exn} {t : World}
    (hfail : ∀ t, Mid row t → Fail t) (ht : Mid row t) (he : EmbedEnd K svc drafts (.error e)) :
    StoreEnd K ext svc Mid Fail End row (.error e) t := by
  cases htr : e.transient with
  | true => exact .inl ⟨htr, hfail t ht⟩
  | false =>
    have hraises : EmbedRaises K e := he.resolve_left (by simp [htr])
    cases e with
    | parse detail => exact .inr ⟨ht, .inl ⟨detail, rfl, .inr hraises⟩⟩
    | notFound detail => exact .inr ⟨ht, .inr ⟨detail, rfl, hraises⟩⟩
    | _ => simp [Exn.transient] at htr

theorem wpE_storeRaise (h : ProcessProof K ext svc id Pre Mid Fail End) (row : Document) {e : Exn}
    (he : e.transient) (hs : Fail s) :
    wpE exec K (fun r w _ => StoreEnd K ext svc Mid Fail End row r w) (throw e) s l :=
  wpE_throw fun t hst ht => .inl ⟨he, h.fail_stable s t hs hst ht⟩

theorem parseAndChunk_error {raw : Bytes} {sourceType : DocumentSourceType} {e : Exn}
    (h : svc.parseAndChunk ext raw sourceType = .error e) :
    e.transient ∨ ∃ detail, e = .parse detail := by
  simp only [IngestionService.parseAndChunk, bind, Except.bind] at h
  cases hp : parseDocument ext raw sourceType with
  | error e' =>
    rw [hp] at h
    cases h
    exact .inr (parseDocument_error hp)
  | ok blocks =>
    rw [hp] at h
    simp only [chunkBlocks] at h
    split at h
    · cases h; exact .inl rfl
    · split at h
      · cases h; exact .inl rfl
      · simp at h

theorem wpE_store (h : ProcessProof K ext svc id Pre Mid Fail End) {row : Document} {raw : Bytes}
    (hraw : row.rawContent = some raw) (hs : Mid row s) :
    wpE exec K (fun r w _ => StoreEnd K ext svc Mid Fail End row r w)
      (svc.store ext (started row) raw) s l := by
  unfold IngestionService.store
  cases hp : svc.parseAndChunk ext raw row.sourceType with
  | error e =>
    rw [show (started row).current.sourceType = row.sourceType from rfl, hp, ofExcept_error_bind]
    refine wpE_throw fun t hst ht => ?_
    have hMid := h.mid_stable row s t hs hst ht
    rcases parseAndChunk_error hp with he | ⟨detail, rfl⟩
    · exact .inl ⟨he, h.mid_fail row t hMid⟩
    · exact .inr ⟨hMid, .inl ⟨detail, rfl, .inl ⟨raw, hraw, hp⟩⟩⟩
  | ok drafts =>
    rw [show (started row).current.sourceType = row.sourceType from rfl, hp, ofExcept_ok_bind]
    refine wpE_bind (wpE_mono (wpE_embedAll (h.mid_stable row) h.guar_refl
      (fun t hMid => h.stop t (h.mid_fail row t hMid)) drafts hs) fun r t l' _ hr => ?_)
    cases r with
    | error e =>
      exact wpE_throw fun u htu hu =>
        StoreEnd.of_embed (h.mid_fail row) (h.mid_stable row t u hr.1 htu hu) hr.2
    | ok embeddings =>
      refine wpE_read_bind (Call.reads_deleteChunks _) h.guar_refl fun u htu hu => ?_
      have hMid := h.mid_stable row t u hr.1 htu hu
      have hFail := h.mid_fail row u hMid
      refine ⟨h.stop u hFail hu, fun name l' => h.wpE_storeRaise row rfl hFail, fun o _ => ?_⟩
      simp only [serve, afterBind]
      split
      · exact h.wpE_storeRaise row rfl hFail
      · next hlen =>
        refine wpE_commit_bind _ (End (.ok (stored row drafts.length).flushed))
          Fail (fun v huv hv => ?_)
          (fun w l' hw => wpE_pure fun t hst ht => h.end_stable _ w t hw hst ht)
          (fun e w l' he hw => h.wpE_storeRaise row he hw)
        have hMid' := h.mid_stable row u v hMid huv hv
        exact ⟨h.stop v (h.mid_fail row v hMid') hv, h.store v row _ drafts embeddings hMid' hv
          ⟨⟨raw, hraw, hp⟩, hr.2, not_not.mp hlen, u, huv, rfl⟩⟩

theorem wpE_onError (h : ProcessProof K ext svc id Pre Mid Fail End) {row : Document} {e : Exn}
    (hs : StoreEnd K ext svc Mid Fail End row (.error e) s) :
    wpE exec K (fun r w _ => End r w) (IngestionService.onError (started row) e) s l := by
  have hfail : Fail s := hs.elim (·.2) fun hs => h.mid_fail row s hs.1
  unfold IngestionService.onError
  refine wpE_read_bind Call.reads_rollback h.guar_refl fun t hst ht => ?_
  have hFail := h.fail_stable s t hfail hst ht
  refine ⟨h.stop t hFail ht, fun name l' => h.wpE_raise rfl hFail, fun o _ => ?_⟩
  simp only [serve, afterBind]
  rcases hs with ⟨htr, -⟩ | ⟨hMid, ⟨detail, rfl, hreason⟩ | ⟨detail, rfl, hraises⟩⟩
  · cases e with
    | parse detail => simp [Exn.transient] at htr
    | _ => exact h.wpE_raise htr hFail
  · have hMid := h.mid_stable row s t hMid hst ht
    refine wpE_bind (wpE_commit (failTxn (started row) detail)
      (End (.error (.parse detail))) Fail (fun u htu hu => ?_)
      (fun w u l' hw hu hu' => ?_) (fun e w u l' he hw hu hu' => ?_))
    · have hMid := h.mid_stable row t u hMid htu hu
      exact ⟨h.stop u (h.mid_fail row u hMid) hu, h.fail u row detail hMid hu hreason⟩
    · exact wpE_throw fun v huv hv => h.end_stable _ w v hw (K.rely_trans hu huv) hv
    · exact h.wpE_raise he (h.fail_stable w u hw hu hu')
  · exact wpE_throw fun u htu hu => h.gone u detail (h.fail_stable t u hFail htu hu) hu hraises

theorem wpE_process_session (h : ProcessProof K ext svc id Pre Mid Fail End) {session : Session}
    (hsession : ∀ i, session = some i →
      ∃ row, i = .load row ∧ K.inv s ∧ s.db.document id = some row) (hs : Pre s) :
    wpE exec K (fun r w _ => End r w) (svc.process ext session id) s l := by
  unfold IngestionService.process
  refine wpE_read_bind (Call.reads_getDocument _) h.guar_refl fun t hst ht => ?_
  have hPre := h.pre_stable s t hs hst ht
  refine ⟨h.stop t (h.pre_fail t hPre) ht, fun name l' => h.wpE_raise rfl (h.pre_fail t hPre),
    fun o _ => ?_⟩
  simp only [serve, afterBind]
  cases hfound : t.db.document id with
  | none =>
    exact wpE_throw fun u htu hu => h.end_stable _ t u (h.absent t hPre ht hfound) htu hu
  | some found =>
    -- The row the session works on was there at `v`, just now or when the call began.
    obtain ⟨row, v, hheld, hPre, hv, hrow, hvt⟩ : ∃ row v, session.getD (.load found) = .load row ∧
        Pre v ∧ K.inv v ∧ v.db.document id = some row ∧ K.rely v t := by
      cases hi : session with
      | none => exact ⟨found, t, rfl, hPre, ht, hfound, K.rely_refl t⟩
      | some i =>
        obtain ⟨row, rfl, hinv, hrow⟩ := hsession i hi
        exact ⟨row, s, rfl, hs, hinv, hrow, hst⟩
    simp only [hheld]
    split
    · next hdone =>
      exact wpE_pure fun u htu hu =>
        h.end_stable _ v u (h.completed v row hPre hv hrow hdone) (K.rely_trans hvt htu) hu
    · next hdone =>
      cases hraw : row.rawContent with
      | none =>
        simp only [Instance.load, hraw]
        exact wpE_throw fun u htu hu => h.end_stable _ v u
          (h.payload v row hPre hv hrow hdone hraw) (K.rely_trans hvt htu) hu
      | some raw =>
        simp only [Instance.load, hraw]
        refine wpE_bind (wpE_commit_bind (startTxn row) (Mid row) Fail
          (fun u htu hu => ?_) (fun w l' hw => wpE_pure fun u hwu hu => ?_)
          (fun e w l' he hw => wpE_throw fun u hwu hu => ?_))
        · have hvu := K.rely_trans hvt htu
          have hFail := h.fail_stable v u (h.pre_fail v hPre) hvu hu
          exact ⟨h.stop u hFail hu, h.start v u row hPre hv hrow hdone (by simp [hraw]) hvu hu⟩
        · refine wpE_tryCatch (wpE_mono (h.wpE_store hraw (h.mid_stable row w u hw hwu hu))
            fun r v l'' _ hr => ?_)
          cases r with
          | ok document => exact wpE_pure fun x hvx hx => h.end_stable _ v x hr hvx hx
          | error e => exact h.wpE_onError hr
        · exact h.wpE_raise he (h.fail_stable w u hw hwu hu)

theorem wpE_process (h : ProcessProof K ext svc id Pre Mid Fail End) (hs : Pre s) :
    wpE exec K (fun r w _ => End r w) (svc.process ext none id) s l :=
  h.wpE_process_session (fun _ hi => by cases hi) hs

end ProcessProof

end Rules

end RagPlatform
