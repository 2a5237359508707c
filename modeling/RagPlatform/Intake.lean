import RagPlatform.Api.Documents
import RagPlatform.Services.IngestionOutcome
import RagPlatform.Surroundings

/-! What becomes of one upload: the checks before the INSERT, the row, the task. -/

namespace RagPlatform

open Lib

structure Shelf where
  known : Bool
  usedBytes : Nat
  hashes : List Str
  deriving DecidableEq

def Database.shelf (db : Database) (tenantId : Uuid) : Shelf where
  known := (db.tenants.find? (·.id = tenantId)).isSome
  usedBytes := db.usedBytes tenantId
  hashes := (db.documents.filter (·.tenantId = tenantId)).map (·.contentSha256)

def NewDocument.storable (d : NewDocument) : Bool :=
  storableText d.filename && d.filename.length ≤ 512 && d.sizeBytes ≤ 2147483647

def Shelf.add (s : Shelf) (d : NewDocument) : Shelf :=
  { s with usedBytes := s.usedBytes + d.sizeBytes, hashes := s.hashes ++ [d.contentSha256] }

section

variable (ext : External) (settings : Settings) (tenantId : Uuid)

def TooLarge (file : UploadFile) : Prop := (file.raw.length : Int) > settings.maxUploadBytes

instance (file : UploadFile) : Decidable (TooLarge settings file) :=
  inferInstanceAs (Decidable (_ > _))

def OverQuota (usedBytes : Nat) (file : UploadFile) : Prop :=
  settings.maxTenantStorageBytes > 0 ∧
    (usedBytes : Int) + file.raw.length > settings.maxTenantStorageBytes

instance (usedBytes : Nat) (file : UploadFile) : Decidable (OverQuota settings usedBytes file) :=
  inferInstanceAs (Decidable (_ ∧ _))

/-- The row a file is to be inserted as, when it passes the checks that come before. -/
def Shelf.offer (s : Shelf) (file : UploadFile) : Option NewDocument :=
  match sourceTypeForFilename (file.name "upload".toList) with
  | .error _ => none
  | .ok sourceType =>
    if TooLarge settings file ∨ s.known = false ∨ OverQuota settings s.usedBytes file then none
    else some (IngestionService.newDocument ext tenantId (file.name "upload".toList) file.raw
      sourceType)

def Shelf.next (s : Shelf) (file : UploadFile) : Shelf :=
  match s.offer ext settings tenantId file with
  | none => s
  | some d => if d.contentSha256 ∈ s.hashes then s else s.add d

end

def Document.anonymous (d : Document) : Document := { d with id := ⟨0⟩, createdAt := 0 }

def NewDocument.blank (d : NewDocument) : Document := d.row ⟨0⟩ 0

/-- Only the broker fails, and how it treats a task depends on what the task is about. -/
structure Healthy (env : Surroundings) (broker : Document → Option Fault) : Prop where
  database : ∀ c w, (∀ id, c ≠ .delay id) → (env c w).fault = none
  fresh : ∀ c w, (env c w).uuid ∉ w.db.issued.map Prod.fst
  enqueue : ∀ w id d, w.db.document id = some d → (env (.delay id) w).fault = broker d.anonymous

def refusedPatch : Patch :=
  { status := some .failed, errorMessage := some (some "could not enqueue ingestion".toList) }

/-- The row as it is left: a task that is not known to be on its way is given up. -/
def settle (fault : Option Fault) (d : Document) : Document :=
  if fault.isNone then d else refusedPatch.apply d

@[simp] theorem settle_id (fault : Option Fault) (d : Document) : (settle fault d).id = d.id := by
  unfold settle; split <;> rfl

def Fault.enqueues : Option Fault → Bool
  | none | some (.lostAck _) => true
  | some (.raised _) => false

/-- The row is in, under an id of its own, and so is its task unless the broker refused it. -/
structure Taken (broker : Document → Option Fault) (w w' : World) (d : NewDocument)
    (row : Document) : Prop where
  new : row.id ∉ w.db.issued.map Prod.fst
  same : row.anonymous = settle (broker d.blank) d.blank
  tenants : w'.db.tenants = w.db.tenants
  documents : w'.db.documents = w.db.documents ++ [row]
  queue : w'.queue = w.queue ++ if Fault.enqueues (broker d.blank) then [row.id] else []

inductive Intaken {β : Type} (broker : Document → Option Fault) (w : World) (d : NewDocument)
    (f : Instance → β) : World × Except Exn β → Prop
  | sunk : d.storable = false → Intaken broker w d f (w, .error .data)
  | duplicate : d.storable → d.contentSha256 ∈ (w.db.shelf d.tenantId).hashes →
      Intaken broker w d f (w, .error .duplicateDocument)
  | taken {w' : World} {row inserted : Document} : d.storable →
      d.contentSha256 ∉ (w.db.shelf d.tenantId).hashes → Taken broker w w' d row →
      inserted.anonymous = d.blank → Intaken broker w d f
        (w', if (broker d.blank).isNone then .ok (f (.load inserted)) else .error .queueUnavailable)

section

variable {env : Surroundings} {broker : Document → Option Fault}
variable {ext : External} {settings : Settings} {svc : IngestionService} {tenantId : Uuid} {w : World}

theorem eval_checkSize_tooLarge (env : Surroundings) (w : World) {file : UploadFile}
    (h : TooLarge settings file) :
    ∃ detail, Io.eval env (checkSize settings file) w = (w, .error (.fileTooLarge detail)) := by
  have hlarge : (file.raw.length : Int) > settings.maxUploadBytes := h
  unfold checkSize
  rw [if_pos hlarge]
  exact ⟨_, rfl⟩

theorem eval_checkSize {file : UploadFile} (h : ¬ TooLarge settings file) :
    Io.eval env (checkSize settings file) w = (w, .ok ()) := by
  have hfits : ¬ (file.raw.length : Int) > settings.maxUploadBytes := h
  unfold checkSize
  rw [if_neg hfits]
  rfl

variable (h : Healthy env broker)
include h

theorem Healthy.eval {c : Call} (hc : ∀ id, c ≠ .delay id) :
    Io.eval env (perform c) w = serve (env c w) c w := eval_perform_of_no_fault (h.database c w hc)

theorem eval_checkQuota_exceeded {file : UploadFile}
    (hq : OverQuota settings (w.db.usedBytes tenantId) file) :
    Io.eval env ((apiIngestionService settings).checkQuota tenantId file.raw) w =
      (w, .error (.storageQuotaExceeded (w.db.usedBytes tenantId) file.raw.length
        settings.maxTenantStorageBytes)) := by
  have hsum : Io.eval env (perform (.sumSizeBytes tenantId)) w =
      (w, .ok (w.db.usedBytes tenantId)) := h.eval nofun
  have hlimit : (apiIngestionService settings).maxTenantStorage > 0 := hq.1
  have hover : (w.db.usedBytes tenantId : Int) + file.raw.length >
    (apiIngestionService settings).maxTenantStorage := hq.2
  unfold IngestionService.checkQuota
  rw [if_pos hlimit, Io.eval_bind_ok hsum, if_pos hover]
  rfl

theorem eval_checkQuota {file : UploadFile}
    (hq : ¬ OverQuota settings (w.db.usedBytes tenantId) file) :
    Io.eval env ((apiIngestionService settings).checkQuota tenantId file.raw) w = (w, .ok ()) := by
  have hsum : Io.eval env (perform (.sumSizeBytes tenantId)) w =
      (w, .ok (w.db.usedBytes tenantId)) := h.eval nofun
  unfold IngestionService.checkQuota
  split
  · next hlimit =>
    have hover : ¬ (w.db.usedBytes tenantId : Int) + file.raw.length >
      (apiIngestionService settings).maxTenantStorage := fun hover => hq ⟨hlimit, hover⟩
    rw [Io.eval_bind_ok hsum, if_neg hover]
    rfl
  · rfl

theorem eval_getTenant : Io.eval env (perform (.getTenant tenantId)) w =
    (w, .ok (w.db.tenants.find? (·.id = tenantId))) := h.eval nofun

theorem eval_register_refused (ext : External) {file : UploadFile} (filename : Str)
    (sourceType : DocumentSourceType)
    (hr : (w.db.shelf tenantId).known = false ∨
      OverQuota settings (w.db.shelf tenantId).usedBytes file) : ∃ e : Exn, e.isRagPlatformError ∧
      Io.eval env ((apiIngestionService settings).register ext tenantId filename file.raw sourceType)
        w = (w, .error e) := by
  unfold IngestionService.register
  rw [Io.eval_bind_ok (eval_getTenant h)]
  cases ht : w.db.tenants.find? (·.id = tenantId) with
  | none => exact ⟨_, rfl, rfl⟩
  | some t =>
    rcases hr with hr | hr
    · simp [Database.shelf, ht] at hr
    · exact ⟨_, rfl, Io.eval_bind_error (eval_checkQuota_exceeded h hr)⟩

theorem eval_register (ext : External) {file : UploadFile} (filename : Str)
    (sourceType : DocumentSourceType)
    (hknown : (w.db.shelf tenantId).known)
    (hq : ¬ OverQuota settings (w.db.shelf tenantId).usedBytes file) :
    Io.eval env ((apiIngestionService settings).register ext tenantId filename file.raw sourceType)
      w = Io.eval env (IngestionService.insert
        (IngestionService.newDocument ext tenantId filename file.raw sourceType) >>= fun document =>
          pure (.load document)) w := by
  unfold IngestionService.register
  rw [Io.eval_bind_ok (eval_getTenant h)]
  cases ht : w.db.tenants.find? (·.id = tenantId) with
  | none => simp [Database.shelf, ht] at hknown
  | some t => exact Io.eval_bind_ok (eval_checkQuota h hq)

theorem eval_insert {d : NewDocument} (hknown : (w.db.shelf d.tenantId).known) :
    (d.storable = false ∧ Io.eval env (IngestionService.insert d) w = (w, .error .data)) ∨
    (d.storable ∧ d.contentSha256 ∈ (w.db.shelf d.tenantId).hashes ∧
      Io.eval env (IngestionService.insert d) w = (w, .error .duplicateDocument)) ∨
    (d.storable ∧ d.contentSha256 ∉ (w.db.shelf d.tenantId).hashes ∧
      ∃ (id : Uuid) (createdAt : Nat) (hf : w.db.Fits (d.row id createdAt)),
        Io.eval env (IngestionService.insert d) w =
          ({ w with db := w.db.add (d.row id createdAt) hf }, .ok (d.row id createdAt))) := by
  set o := env (.insertDocument d) w with ho
  set row := d.row o.uuid o.now with hrow
  have hperform : Io.eval env (perform (.insertDocument d)) w =
      w.write row (w.db.insertDocument row) := h.eval (by simp)
  have hstorable : row.storable = d.storable := rfl
  have hdup : d.contentSha256 ∈ (w.db.shelf d.tenantId).hashes ↔
      ∃ e ∈ w.db.documents, (e.tenantId, e.contentSha256) = (d.tenantId, d.contentSha256) := by
    simp [Database.shelf, and_assoc]
  cases hs : d.storable with
  | false =>
    refine .inl ⟨rfl, ?_⟩
    simp only [Database.insertDocument, hstorable, hs, Bool.false_eq_true, if_false,
      World.write] at hperform
    exact Io.eval_tryCatch_error hperform
  | true =>
    simp only [Database.insertDocument, hstorable, hs, if_true] at hperform
    by_cases hmem : d.contentSha256 ∈ (w.db.shelf d.tenantId).hashes
    · have hfits : ¬ w.db.Fits row := by
        obtain ⟨e, he, hkey⟩ := hdup.mp hmem
        exact fun hf => hf.2.2 e he hkey
      rw [dif_neg hfits] at hperform
      refine .inr (.inl ⟨rfl, hmem, (Io.eval_tryCatch_error hperform).trans ?_⟩)
      exact Io.eval_bind_ok (h.eval (by simp))
    · have hfits : w.db.Fits row := by
        refine ⟨h.fresh _ w, ?_, fun e he hkey => hmem (hdup.mpr ⟨e, he, hkey⟩)⟩
        obtain ⟨t, ht⟩ := Option.isSome_iff_exists.mp hknown
        have hid : t.id = d.tenantId := by simpa using List.find?_some ht
        exact ⟨t, List.mem_of_find?_eq_some ht, hid⟩
      rw [dif_pos hfits] at hperform
      exact .inr (.inr ⟨rfl, hmem, o.uuid, o.now, hfits, Io.eval_tryCatch_ok hperform⟩)

theorem eval_markRefused {row : Document} (hrow : w.db.document row.id = some row)
    (hstatus : row.status = .pending) (herror : row.errorMessage = none) :
    ∃ db, Io.eval env (markFailed (some (.load row)) row.id "could not enqueue ingestion".toList) w =
        ({ w with db := db }, .ok ()) ∧ db.tenants = w.db.tenants ∧
      db.documents = (w.db.patch row.id refusedPatch).documents := by
  have hpatch : (failTxn (.load row) "could not enqueue ingestion".toList).document.patch =
      refusedPatch := by
    rw [failTxn_patch]
    simp only [Instance.load, Instance.patch, hstatus, herror, if_true]
    rfl
  set txn := failTxn (.load row) "could not enqueue ingestion".toList with htxn
  set o := env (.commit txn) w with ho
  obtain ⟨db, hc⟩ := commit_isOk txn o.skip (by rw [hpatch]; rfl) hrow rfl w.db.admits_nil
  have hcommit : Io.eval env (perform (.commit txn)) w = w.write () (w.db.commit txn o.skip) :=
    h.eval (by simp)
  rw [hc] at hcommit
  obtain ⟨db₁, hu, hr⟩ := commit_ok hc
  obtain ⟨-, ha, rfl⟩ := Database.replaceChunks_ok hr
  refine ⟨_, hcommit, ?_⟩
  rw [hpatch] at hu
  rcases Database.update_ok hu with ⟨hp, -⟩ | ⟨-, -, -, rfl⟩
  · exact absurd hp (by decide)
  · exact ⟨rfl, rfl⟩

theorem eval_enqueue {row : Document} (hrow : w.db.document row.id = some row)
    (hstatus : row.status = .pending) (herror : row.errorMessage = none) :
    ∃ w', Io.eval env (enqueue (.load row)) w = (w', if (broker row.anonymous).isNone then .ok ()
        else .error .queueUnavailable) ∧ w'.db.tenants = w.db.tenants ∧
      w'.db.documents = (if (broker row.anonymous).isNone then w.db.documents
        else (w.db.patch row.id refusedPatch).documents) ∧
      w'.queue = w.queue ++ if Fault.enqueues (broker row.anonymous) then [row.id] else [] := by
  have hfault := h.enqueue w row.id row hrow
  set o := env (.delay row.id) w with ho
  have hperform : Io.eval env (perform (.delay row.id)) w = exec o (.delay row.id) w := rfl
  -- once the broker has failed, the row is marked, whether or not the task went through
  have hfailed (w₁ : World) (name : Str) (hdb : w₁.db = w.db)
      (hp : Io.eval env (perform (.delay row.id)) w = (w₁, .error (.other name))) :
      ∃ w', Io.eval env (enqueue (.load row)) w = (w', .error .queueUnavailable) ∧
        w'.db.tenants = w.db.tenants ∧
        w'.db.documents = (w.db.patch row.id refusedPatch).documents ∧ w'.queue = w₁.queue := by
    obtain ⟨db, hm, ht, hd⟩ := eval_markRefused h (w := w₁)
      (by rw [hdb]; exact hrow) hstatus herror
    rw [hdb] at ht hd
    exact ⟨_, (Io.eval_tryCatch_error hp).trans (Io.eval_bind_ok hm), ht, hd, rfl⟩
  cases hb : broker row.anonymous with
  | none =>
    rw [hb] at hfault
    rw [exec_of_no_fault hfault] at hperform
    exact ⟨_, Io.eval_tryCatch_ok hperform, rfl, rfl, rfl⟩
  | some fault =>
    rw [hb] at hfault
    cases fault with
    | raised name =>
      have he : exec o (.delay row.id) w = (w, .error (.other name)) := by
        simp only [exec, hfault]
        rfl
      obtain ⟨w', hw', ht, hd, hq⟩ := hfailed w name rfl (hperform.trans he)
      exact ⟨w', hw', ht, hd, hq.trans (List.append_nil _).symm⟩
    | lostAck name =>
      have he : exec o (.delay row.id) w =
          ({ w with queue := w.queue ++ [row.id] }, .error (.other name)) := by
        simp only [exec, hfault]
        rfl
      exact hfailed { w with queue := w.queue ++ [row.id] } name rfl (hperform.trans he)

omit h in
theorem patch_add {db : Database} {row : Document} (hf : db.Fits row) (p : Patch) :
    ((db.add row hf).patch row.id p).documents = db.documents ++ [p.apply row] := by
  have hothers : db.documents.map (Database.patchRow row.id p) = db.documents := by
    refine (List.map_congr_left fun d hd => ?_).trans (List.map_id _)
    have hne : d.id ≠ row.id := fun hid =>
      hf.1 (hid ▸ List.mem_map.mpr ⟨_, db.documents_issued d hd, rfl⟩)
    exact if_neg hne
  change (db.documents ++ [row]).map (Database.patchRow row.id p) = _
  rw [List.map_append, hothers]
  simp [Database.patchRow]

theorem eval_intake {β : Type} (ext : External) {file : UploadFile} (filename : Str)
    (sourceType : DocumentSourceType) (f : Instance → β) (hknown : (w.db.shelf tenantId).known)
    (hq : ¬ OverQuota settings (w.db.shelf tenantId).usedBytes file) :
    Intaken broker w (IngestionService.newDocument ext tenantId filename file.raw sourceType) f
      (Io.eval env (do
        let document ← (apiIngestionService settings).register ext tenantId filename file.raw
          sourceType
        enqueue document
        return f document) w) := by
  set d := IngestionService.newDocument ext tenantId filename file.raw sourceType with hd
  have hregister := eval_register h ext filename sourceType hknown hq
  rcases eval_insert h (d := d) hknown with ⟨hs, hi⟩ | ⟨hs, hmem, hi⟩ | ⟨hs, hmem, id, at', hf, hi⟩
  · rw [Io.eval_bind_error (hregister.trans (Io.eval_bind_error hi))]
    exact .sunk hs
  · rw [Io.eval_bind_error (hregister.trans (Io.eval_bind_error hi))]
    exact .duplicate hs hmem
  · set row := d.row id at' with hrow
    have hr := hregister.trans (Io.eval_bind_ok hi)
    have hlookup : (w.db.add row hf).document row.id = some row := by
      rw [Database.document_add, if_pos rfl]
    obtain ⟨w', he, ht, hdocs, hqueue⟩ := eval_enqueue h
      (w := { w with db := w.db.add row hf }) hlookup rfl rfl
    have hblank : row.anonymous = d.blank := rfl
    rw [hblank] at he hdocs hqueue
    have hresult : Io.eval env (enqueue (.load row) >>= fun _ => pure (f (.load row)))
        { w with db := w.db.add row hf } = (w', if (broker d.blank).isNone then .ok (f (.load row))
          else .error .queueUnavailable) := by
      split at he
      · next hb => rw [if_pos hb]; exact Io.eval_bind_ok he
      · next hb => rw [if_neg hb]; exact Io.eval_bind_error he
    rw [Io.eval_bind_ok hr, hresult]
    have htaken : Taken broker w w' d (settle (broker d.blank) row) := by
      refine ⟨?_, ?_, ht, ?_, ?_⟩
      · rw [settle_id]
        exact hf.1
      · unfold settle
        split
        · exact hblank
        · rfl
      · rw [hdocs]
        unfold settle
        split
        · rfl
        · exact patch_add hf refusedPatch
      · rw [hqueue, settle_id]
    exact .taken hs hmem htaken hblank

end

end RagPlatform
