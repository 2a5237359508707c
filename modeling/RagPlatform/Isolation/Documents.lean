import RagPlatform.Isolation.Calls
import RagPlatform.Services.IngestionLaws

/-! Uploads, processing and the document endpoints ask alike in both runs. -/

namespace RagPlatform

open Lib

variable {α β γ δ : Type} {t : Uuid} {v : View}

/-- The two computations ask alike for the tenant, and return values related by `Q`. -/
abbrev Like (t : Uuid) (Q : View → α → β → Prop) (v : View) (p : Io α) (p' : Io β) : Prop :=
  AlikeE (likeness t) Q v p p'

namespace Like

variable {Q : View → α → β → Prop}

theorem perform {c c' : Call} {R : View → Reply c → Reply c' → Prop}
    (hc : Call.Alike t v c c' R) : Like t R v (perform c) (perform c') :=
  .await ⟨R, hc, rfl⟩ fun _ hvw _ _ hx =>
    .ret fun _ hu => hx.mono fun _ _ h => (hc.mono hvw).reply_mono hu h

theorem same {c : Call} (hc : c.Of t) :
    Like t (fun _ => Eq) v (RagPlatform.perform c) (RagPlatform.perform c) :=
  perform (.same hc)

theorem ofExcept {x : Except Exn α} {x' : Except Exn β} (h : ∀ w, v ≤ w → Agree (Q w) x x') :
    Like t Q v (Io.ofExcept x) (Io.ofExcept x') := .ret h

theorem emit {y y' : ServerEvent} (h : v.Relates y y') :
    Like t (fun _ => Eq) v (emit y) (RagPlatform.emit y') :=
  Alike.emit h (.ret fun _ _ => .ok rfl)

theorem raise (e : Exn) : Like t Q v (raise e) (RagPlatform.raise e) := AlikeE.throw e

theorem pureEq (a : α) : Like t (fun _ => Eq) v (pure a) (pure a) := .pure fun _ _ => rfl

theorem exceptEq (x : Except Exn α) : Like t (fun _ => Eq) v (Io.ofExcept x) (Io.ofExcept x) := by
  cases x with
  | ok a => exact .pureEq a
  | error e => exact .raise e

theorem bindEq {R : View → γ → δ → Prop} {p p' : Io α} {f : α → Io γ} {f' : α → Io δ}
    (h : Like t (fun _ => Eq) v p p') (hf : ∀ w, v ≤ w → ∀ a, Like t R w (f a) (f' a)) :
    Like t R v (p >>= f) (p' >>= f') :=
  .bind h fun w hw a b hab => by subst hab; exact hf w hw a

theorem tryEq {p p' : Io α} {f f' : Exn → Io α} (h : Like t (fun _ => Eq) v p p')
    (hf : ∀ w, v ≤ w → ∀ e, Like t (fun _ => Eq) w (f e) (f' e)) :
    Like t (fun _ => Eq) v (tryCatch p f) (tryCatch p' f') :=
  .tryCatch h (fun _ _ _ _ _ hab => hab) hf

end Like

structure Instance.Held (t : Uuid) (v : View) (i : Instance) : Prop where
  loaded : i.loaded.id ∈ v.documents
  current : i.current.id ∈ v.documents
  tenantId : i.current.tenantId = t

namespace Instance.Held

variable {i : Instance}

theorem mono {w : View} (h : i.Held t v) (hvw : v ≤ w) : i.Held t w :=
  ⟨hvw.2 h.loaded, hvw.2 h.current, h.tenantId⟩

theorem load {d : Document} (hid : d.id ∈ v.documents) (ht : d.tenantId = t) :
    (Instance.load d).Held t v := ⟨hid, hid, ht⟩

theorem set (h : i.Held t v) (p : Patch) : (i.set p).Held t v := ⟨h.loaded, h.current, h.tenantId⟩

theorem flushed (h : i.Held t v) : i.flushed.Held t v := ⟨h.current, h.current, h.tenantId⟩

theorem owned (h : i.Held t v) : Txn.Owned t v ⟨i, [], []⟩ ⟨i, [], []⟩ where
  document := rfl
  doomed := ⟨rfl, fun _ ⟨_, hn, _⟩ => absurd hn List.not_mem_nil⟩
  added := rfl
  id := h.loaded
  chunks _ hn := absurd hn List.not_mem_nil

end Instance.Held

def BothHold (t : Uuid) (v : View) (i i' : Instance) : Prop := i = i' ∧ i.Held t v

theorem BothHold.mono {w : View} {i i' : Instance} (h : BothHold t v i i') (hvw : v ≤ w) :
    BothHold t w i i' := ⟨h.1, h.2.mono hvw⟩

theorem like_commit {txn txn' : Txn} (h : txn.Owned t v txn') :
    Like t (fun _ => Eq) v (perform (.commit txn)) (perform (.commit txn')) :=
  @Like.perform _ _ (.commit txn) (.commit txn') _ (.commit h)

theorem like_save {i : Instance} (h : i.Held t v) : Like t (BothHold t) v (save i) (save i) :=
  .bindEq (like_commit h.owned) fun _ hw _ => .pure fun _ hu =>
    ⟨rfl, (h.mono (hw.trans hu)).flushed⟩

theorem like_fail {i : Instance} (h : i.Held t v) (message : Str) :
    Like t (fun _ => Eq) v (perform (.commit (failTxn i message)))
      (perform (.commit (failTxn i message))) :=
  like_commit (h.set _).owned

theorem like_markFailed_some {i : Instance} (h : i.Held t v) (documentId : Uuid) (message : Str) :
    Like t (fun _ => Eq) v (markFailed (some i) documentId message)
      (markFailed (some i) documentId message) :=
  like_fail h message

theorem like_markFailed_none {documentId : Uuid} (h : documentId ∈ v.documents) (message : Str) :
    Like t (fun _ => Eq) v (markFailed none documentId message)
      (markFailed none documentId message) := by
  refine .bind (Like.perform (.getOwn h)) fun w hw row row' hrow => ?_
  obtain ⟨rfl, hrow⟩ := hrow
  cases row with
  | none => exact Like.pureEq ()
  | some d =>
    obtain ⟨hid, ht⟩ := hrow d rfl
    exact like_fail (.load (hid ▸ hw.2 h) ht) message

section Upload

variable {ext : External} {svc : IngestionService} {settings : Settings}

theorem like_checkQuota (raw : Bytes) :
    Like t (fun _ => Eq) v (svc.checkQuota t raw) (svc.checkQuota t raw) := by
  unfold IngestionService.checkQuota
  split
  · refine .bindEq (.same rfl) fun w _ used => ?_
    split
    · exact .raise _
    · exact .pureEq ()
  · exact .pureEq ()

theorem like_insert {d : NewDocument} (hd : d.tenantId = t) :
    Like t (fun w x x' => x = x' ∧ x.id ∈ w.documents ∧ x.tenantId = t) v
      (IngestionService.insert d) (IngestionService.insert d) := by
  refine .tryCatch (Like.perform (.insertDocument hd))
    (fun u w x x' huw h => ⟨h.1, huw.2 h.2.1, h.2.2⟩) fun w _ e => ?_
  cases e with
  | integrity => exact Like.bindEq (.same (c := .rollback) trivial) fun _ _ _ => .raise _
  | _ => exact Like.raise _

theorem like_register (filename : Str) (raw : Bytes) (sourceType : DocumentSourceType) :
    Like t (BothHold t) v (svc.register ext t filename raw sourceType)
      (svc.register ext t filename raw sourceType) := by
  refine .bindEq (.same (c := .getTenant t) trivial) fun w _ tenant => ?_
  split
  · exact .raise _
  · refine .bindEq (like_checkQuota raw) fun w _ _ => .bind (like_insert rfl) fun w _ d d' h => ?_
    obtain ⟨rfl, hid, ht⟩ := h
    exact .pure fun u hu => ⟨rfl, .load (hu.2 hid) ht⟩

theorem like_enqueue {i : Instance} (h : i.Held t v) :
    Like t (fun _ => Eq) v (enqueue i) (enqueue i) :=
  .tryEq (.same (c := .delay i.current.id) trivial) fun _ hw _ =>
    .bindEq (like_markFailed_some (h.mono hw) _ _) fun _ _ _ => .raise _

theorem like_checkSize (file : UploadFile) :
    Like t (fun _ => Eq) v (checkSize settings file) (checkSize settings file) := by
  unfold checkSize
  split
  · exact .raise _
  · exact .pureEq ()

theorem like_registered {p p' : Io Instance} (h : Like t (BothHold t) v p p') (f : Document → α) :
    Like t (fun _ => Eq) v (p >>= fun i => enqueue i >>= fun _ => pure (f i.current))
      (p' >>= fun i => enqueue i >>= fun _ => pure (f i.current)) := by
  refine .bind h fun w _ i i' hi => ?_
  obtain ⟨rfl, hi⟩ := hi
  exact Like.bindEq (like_enqueue hi) fun _ _ _ => .pureEq _

theorem like_uploadDocument (file : UploadFile) :
    Like t (fun _ => Eq) v (uploadDocument ext settings t file) (uploadDocument ext settings t file) :=
  .bindEq (.exceptEq _) fun _ _ _ => .bindEq (like_checkSize file) fun _ _ _ =>
    like_registered (like_register _ _ _) fun d => d

theorem like_uploadBatchItem (file : UploadFile) :
    Like t (fun _ => Eq) v (uploadBatchItem ext settings t file)
      (uploadBatchItem ext settings t file) := by
  refine .tryEq (.bindEq (like_checkSize file) fun _ _ _ => .bindEq (.exceptEq _) fun _ _ _ =>
    like_registered (like_register _ _ _) fun d =>
      BatchItemResult.mk (file.name "upload".toList) (some d) none) fun w _ e => ?_
  split
  · exact .pureEq _
  · exact .raise e

theorem like_uploadBatchItems (files : List UploadFile) :
    Like t (fun _ => Eq) v (uploadBatchItems ext settings t files)
      (uploadBatchItems ext settings t files) := by
  induction files generalizing v with
  | nil => exact .pureEq []
  | cons file files ih =>
    exact .bindEq (like_uploadBatchItem file) fun _ _ _ => .bindEq ih fun _ _ _ => .pureEq _

theorem like_uploadDocumentsBatch (files : List UploadFile) :
    Like t (fun _ => Eq) v (uploadDocumentsBatch ext settings t files)
      (uploadDocumentsBatch ext settings t files) :=
  .bindEq (like_uploadBatchItems files) fun _ _ _ => .pureEq _

theorem like_embedBatches (batches : List (List ChunkDraft)) :
    Like t (fun _ => Eq) v (IngestionService.embedBatches batches)
      (IngestionService.embedBatches batches) := by
  induction batches generalizing v with
  | nil => exact .pureEq []
  | cons batch batches ih =>
    exact .bindEq (.same (c := .embedDocuments _) trivial) fun _ _ _ => .bindEq ih fun _ _ _ => .pureEq _

theorem like_embedAll (drafts : List ChunkDraft) :
    Like t (fun _ => Eq) v (svc.embedAll drafts) (svc.embedAll drafts) := by
  unfold IngestionService.embedAll
  split
  · exact .raise _
  · split
    · exact .pureEq []
    · exact like_embedBatches _

theorem owned_store {i : Instance} (h : i.Held t v) (patch : Patch) {doomed doomed' : List Nat}
    (hdoomed : v.Relates doomed doomed') (drafts : List ChunkDraft) (embeddings : List Embedding) :
    Txn.Owned t v
      ⟨i.set patch, doomed, IngestionService.newChunks i.current drafts embeddings⟩
      ⟨i.set patch, doomed', IngestionService.newChunks i.current drafts embeddings⟩ where
  document := rfl
  doomed := hdoomed
  added := rfl
  id := h.loaded
  chunks n hn := by
    obtain ⟨row, -, rfl⟩ := List.mem_map.mp hn
    exact ⟨h.current, h.tenantId⟩

theorem like_store {i : Instance} (h : i.Held t v) (raw : Bytes) :
    Like t (BothHold t) v (svc.store ext i raw) (svc.store ext i raw) := by
  refine .bindEq (.exceptEq _) fun w hw drafts => .bindEq (like_embedAll drafts) fun u hu embeddings =>
    .bind (Like.perform (.deleteChunks ((h.mono (hw.trans hu)).current)))
      fun x hx doomed doomed' hdoomed => ?_
  have hi := h.mono ((hw.trans hu).trans hx)
  split
  · exact .throw _
  · exact Like.bindEq (like_commit (owned_store hi _ hdoomed drafts embeddings)) fun y hy _ =>
      .pure fun z hz => ⟨rfl, ((hi.mono (hy.trans hz)).set _).flushed⟩

theorem like_onError {i : Instance} (h : i.Held t v) (e : Exn) :
    Like t (BothHold t) v (IngestionService.onError i e) (IngestionService.onError i e) := by
  refine .bindEq (.same (c := .rollback) trivial) fun w hw _ => ?_
  cases e with
  | parse detail =>
    exact .bindEq (like_markFailed_some (h.mono hw) _ _) fun _ _ _ => .raise _
  | _ => exact .raise _

theorem like_process {documentId : Uuid} (h : documentId ∈ v.documents) :
    Like t (BothHold t) v (svc.process ext none documentId) (svc.process ext none documentId) := by
  refine .bind (Like.perform (.getOwn h)) fun w hw row row' hrow => ?_
  obtain ⟨rfl, hrow⟩ := hrow
  cases row with
  | none => exact .throw _
  | some row =>
    obtain ⟨hid, ht⟩ := hrow row rfl
    have hi : (Instance.load row).Held t w := .load (hid ▸ hw.2 h) ht
    simp only [Option.getD_none]
    split
    · exact .pure fun u hu => ⟨rfl, hi.mono hu⟩
    · split
      · exact .throw _
      · refine .bind (like_save (hi.set _)) fun u _ i i' hi => ?_
        obtain ⟨rfl, hi⟩ := hi
        exact .tryCatch (like_store hi _) (fun _ _ _ _ huw h => h.mono huw)
          fun x hx e => like_onError (hi.mono hx) e

theorem like_ingestDocument {documentId : Uuid} (h : documentId ∈ v.documents) (retries : Nat) :
    Like t (fun _ => Eq) v (ingestDocument ext settings retries documentId)
      (ingestDocument ext settings retries documentId) := by
  refine .tryEq (.bind (like_process h) fun _ _ _ _ _ => Like.pureEq _) fun w hw e => ?_
  split
  · exact .pureEq _
  · exact .pureEq _
  · split
    · exact .bindEq (like_markFailed_none (hw.2 h) _) fun _ _ _ => .pureEq _
    · exact .pureEq _

end Upload

theorem like_getOwned (documentId : Uuid) :
    Like t (fun w d d' => d = d' ∧ d.Belongs t documentId ∧ documentId ∈ w.documents) v
      (getOwned t documentId) (getOwned t documentId) := by
  refine .bind (Like.perform (.getDocument documentId)) fun w _ row row' hrow => ?_
  cases hrow with
  | own hid hrow =>
    cases row with
    | none => exact .throw _
    | some d =>
      have hd := hrow d rfl
      simp only [hd.2, if_true]
      exact .pure fun u hu => ⟨rfl, hd, hu.2 hid⟩
  | foreign hrow hrow' =>
    -- somebody else's document and no document look the same
    cases row with
    | none =>
      cases row' with
      | none => exact .throw _
      | some d' =>
        simp only [if_neg (hrow' d' rfl)]
        exact .throw _
    | some d =>
      cases row' with
      | none =>
        simp only [if_neg (hrow d rfl)]
        exact .throw _
      | some d' =>
        simp only [if_neg (hrow d rfl), if_neg (hrow' d' rfl)]
        exact .throw _

theorem like_getDocument (documentId : Uuid) :
    Like t (fun _ => Eq) v (getDocument t documentId) (getDocument t documentId) :=
  .bind (like_getOwned documentId) fun _ _ _ _ h => h.1 ▸ Like.pureEq _

theorem like_deleteDocument (documentId : Uuid) :
    Like t (fun _ => Eq) v (deleteDocument t documentId) (deleteDocument t documentId) := by
  refine .bind (like_getOwned documentId) fun w _ d d' h => ?_
  obtain ⟨rfl, hd, hid⟩ := h
  exact Like.perform (.deleteDocument (hd.1 ▸ hid))

theorem like_validate (valid : Bool) : Like t (fun _ => Eq) v (validate valid) (validate valid) := by
  cases valid with
  | true => exact .pureEq ()
  | false => exact .raise _

theorem like_listDocuments (limit offset : Int) :
    Like t (fun _ => Eq) v (listDocuments t limit offset) (listDocuments t limit offset) :=
  .bindEq (like_validate _) fun _ _ _ => .bindEq (.same rfl) fun _ _ _ =>
    .bindEq (.same rfl) fun _ _ _ => .pureEq _

end RagPlatform
