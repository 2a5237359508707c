import RagPlatform.History
import RagPlatform.Regular
import RagPlatform.SystemLaws

/-! The column `size_bytes`: how revision 0004 fills it in, and what it says from then on. -/

namespace RagPlatform

open Lib

/-- A row of `documents` at revision 0003. -/
structure Document0003 where
  id : Uuid
  tenantId : Uuid
  filename : Str
  sourceType : DocumentSourceType
  contentSha256 : Str
  status : DocumentStatus
  rawContent : Option Bytes
  errorMessage : Option Str
  chunkCount : Option Nat
  createdAt : Nat

/-- `ADD COLUMN size_bytes INTEGER NOT NULL DEFAULT 0` -/
def addSizeBytes (d : Document0003) : Document := { d with sizeBytes := 0 }

/-- `UPDATE documents SET size_bytes = octet_length(raw_content) WHERE raw_content IS NOT NULL` -/
def backfill (d : Document) : Document :=
  match d.rawContent with
  | none => d
  | some raw => { d with sizeBytes := raw.length }

def upgrade0004 (rows : List Document0003) : List Document := (rows.map addSizeBytes).map backfill

/-- `DROP COLUMN size_bytes` -/
def downgrade0004 (rows : List Document) : List Document0003 := rows.map fun d => { d with }

/-- `coalesce(octet_length(raw_content), 0)` -/
def Document.octets (d : Document) : Nat := (d.rawContent.map List.length).getD 0

/-- The columns that say something about the payload are right. -/
structure Document.Accurate (ext : External) (d : Document) : Prop where
  size : d.sizeBytes = d.octets
  digest : ∀ raw, d.rawContent = some raw → d.contentSha256 = ext.sha256 raw

def Database.storedBytes (db : Database) (tenantId : Uuid) : Nat :=
  ((db.documents.filter (·.tenantId = tenantId)).map Document.octets).sum

section

variable {ext : External} {db db' : Database} {tenantId : Uuid} {d : Document}

theorem Document.Accurate.apply (h : d.Accurate ext) (p : Patch) : (p.apply d).Accurate ext :=
  ⟨h.size, h.digest⟩

theorem accurate_upgrade {rows : List Document0003}
    (h : ∀ d ∈ rows, ∀ raw, d.rawContent = some raw → d.contentSha256 = ext.sha256 raw) :
    ∀ d ∈ upgrade0004 rows, d.Accurate ext := by
  intro d hd
  obtain ⟨e, he, rfl⟩ := List.mem_map.mp hd
  obtain ⟨r, hr, rfl⟩ := List.mem_map.mp he
  have hdigest := h r hr
  cases hraw : r.rawContent with
  | none => exact ⟨by simp [backfill, addSizeBytes, Document.octets, hraw],
      by simp [backfill, addSizeBytes, hraw]⟩
  | some raw =>
    rw [hraw] at hdigest
    exact ⟨by simp [backfill, addSizeBytes, Document.octets, hraw],
      by simpa [backfill, addSizeBytes, hraw] using hdigest⟩

theorem upgrade_downgrade {rows : List Document} (h : ∀ d ∈ rows, d.Accurate ext) :
    upgrade0004 (downgrade0004 rows) = rows := by
  simp only [upgrade0004, downgrade0004, List.map_map]
  refine (List.map_congr_left fun d hd => ?_).trans (List.map_id rows)
  have hsize := (h d hd).size
  obtain ⟨id, tenantId, filename, sourceType, contentSha256, sizeBytes, status, rawContent,
    _, _, _⟩ := d
  cases rawContent with
  | none =>
    obtain rfl : sizeBytes = 0 := hsize
    rfl
  | some raw =>
    obtain rfl : sizeBytes = raw.length := hsize
    rfl

theorem usedBytes_eq_storedBytes (h : ∀ d ∈ db.documents, d.Accurate ext) :
    db.usedBytes tenantId = db.storedBytes tenantId := by
  unfold Database.usedBytes Database.storedBytes
  congr 1
  exact List.map_congr_left fun d hd => (h d (List.mem_filter.mp hd).1).size

theorem accurate_exec {o : Oracle} {c : Call} {w : World} (hc : Call.Regular ext c)
    (h : ∀ d ∈ w.db.documents, d.Accurate ext) :
    ∀ d ∈ (exec o c w).1.db.documents, d.Accurate ext := by
  have heffect := exec_effect o c w
  generalize (exec o c w).1.db = db at heffect
  cases heffect with
  | same => exact h
  | insert =>
    cases hc with
    | aside hc => exact hc.elim
    | insert tenantId filename raw sourceType =>
      intro d hd
      rcases List.mem_append.mp hd with hd | hd
      · exact h d hd
      · obtain rfl := List.mem_singleton.mp hd
        exact ⟨rfl, fun raw' hraw => by rw [← Option.some.inj hraw]; rfl⟩
  | commit hcommit =>
    obtain ⟨db₁, hu, hr⟩ := commit_ok hcommit
    obtain ⟨-, ha, rfl⟩ := Database.replaceChunks_ok hr
    rcases Database.update_ok hu with ⟨-, rfl⟩ | ⟨-, -, -, rfl⟩
    · exact h
    · intro d hd
      obtain ⟨e, he, rfl⟩ := List.mem_map.mp hd
      unfold Database.patchRow
      split
      · exact (h e he).apply _
      · exact h e he
  | delete => exact fun d hd => h d (List.mem_filter.mp hd).1

def accounting (ext : External) : Contract api World Oracle where
  inv w := ∀ d ∈ w.db.documents, d.Accurate ext
  rely _ _ := True
  guar _ _ := True
  rely_refl _ := trivial
  rely_trans _ _ := trivial

/-- From the first request after the upgrade on: the quota counts what is stored, no tenant stores
the same bytes twice, and the revision can be taken back and applied again. -/
theorem size_bytes_accurate {ι : Type} [DecidableEq ι] {settings : Settings} {w : World}
    {rows : List Document0003} (hrows : w.db.documents = upgrade0004 rows)
    (hdigest : ∀ d ∈ rows, ∀ raw, d.rawContent = some raw → d.contentSha256 = ext.sha256 raw)
    (acts : List (Act ι)) :
    (∀ t, (after ext settings w acts).db.usedBytes t = (after ext settings w acts).db.storedBytes t) ∧
    (∀ d ∈ (after ext settings w acts).db.documents, ∀ e ∈ (after ext settings w acts).db.documents,
      d.tenantId = e.tenantId → d.rawContent.isSome → d.rawContent = e.rawContent → d = e) ∧
    upgrade0004 (downgrade0004 (after ext settings w acts).db.documents) =
      (after ext settings w acts).db.documents := by
  have hstart : ∀ d ∈ w.db.documents, d.Accurate ext := by
    rw [hrows]
    exact accurate_upgrade hdigest
  have haccurate : ∀ d ∈ (after ext settings w acts).db.documents, d.Accurate ext :=
    run_inv (K := accounting ext) (keeps_regular (fun _ _ _ _ hc hinv _ =>
      ⟨accurate_exec hc hinv, trivial⟩) fun _ _ => trivial) (fun h => h) (fun _ _ _ _ _ => trivial)
      hstart (guarded_true w acts)
  generalize after ext settings w acts = s at haccurate
  refine ⟨fun t => usedBytes_eq_storedBytes haccurate, fun d hd e he htenant hsome hraw => ?_,
    upgrade_downgrade haccurate⟩
  obtain ⟨raw, hd'⟩ := Option.isSome_iff_exists.mp hsome
  refine List.inj_on_of_nodup_map s.db.documents_uq hd he (Prod.ext htenant ?_)
  exact ((haccurate d hd).digest raw hd').trans ((haccurate e he).digest raw (hraw ▸ hd')).symm

end

namespace Sample

/-- A row from before payloads were stored, and one from after. -/
def legacyRows : List Document0003 :=
  [{ id := ⟨1⟩, tenantId := tenantId, filename := "old.md".toList, sourceType := .markdown,
     contentSha256 := "0".toList, status := .completed, rawContent := none, errorMessage := none,
     chunkCount := some 1, createdAt := 0 },
   { id := ⟨2⟩, tenantId := tenantId, filename := "other.md".toList, sourceType := .markdown,
     contentSha256 := sha256 other.raw, status := .completed, rawContent := some other.raw,
     errorMessage := none, chunkCount := some 1, createdAt := 1 }]

def upgraded : World :=
  { world with
    db :=
      { world.db with
        documents := upgrade0004 legacyRows
        issued := [(⟨1⟩, tenantId), (⟨2⟩, tenantId)]
        issued_once := by decide
        documents_issued := by decide
        documents_pk := by decide
        documents_uq := by decide
        chunks_fk := List.forall_mem_nil _ } }

theorem size_bytes_accurate_upgraded :
    (after ext {} upgraded (whole 0 4 (.upload tenantId note))).db.usedBytes tenantId =
      (after ext {} upgraded (whole 0 4 (.upload tenantId note))).db.storedBytes tenantId := by
  have hdigest : ∀ d ∈ legacyRows, ∀ raw, d.rawContent = some raw →
      d.contentSha256 = ext.sha256 raw := by
    intro d hd raw hraw
    rcases List.mem_pair.mp hd with rfl | rfl
    · cases hraw
    · cases hraw
      rfl
  exact (size_bytes_accurate rfl hdigest _).1 tenantId

example : (after ext {} upgraded (whole 0 4 (.upload tenantId note))).db.usedBytes tenantId = 6 := rfl

end Sample

end RagPlatform
