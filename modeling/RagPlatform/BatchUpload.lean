import RagPlatform.Intake
import RagPlatform.System

/-! A batch of uploads against the same uploads one after another, and what one bad file does to
the others. -/

namespace RagPlatform

open Lib

section

variable {env : Surroundings} {broker : Document → Option Fault}
variable {ext : External} {settings : Settings} {tenantId : Uuid} {w : World} {file : UploadFile}

theorem offer_some {s : Shelf} {d : NewDocument}
    (h : s.offer ext settings tenantId file = some d) :
    ¬ TooLarge settings file ∧ s.known ∧ ¬ OverQuota settings s.usedBytes file ∧
      ∃ sourceType, sourceTypeForFilename (file.name "upload".toList) = .ok sourceType ∧
        d = IngestionService.newDocument ext tenantId (file.name "upload".toList) file.raw
          sourceType := by
  unfold Shelf.offer at h
  split at h
  · cases h
  · next sourceType ht =>
    split at h
    · cases h
    · next hn =>
      simp only [not_or, Bool.not_eq_false] at hn
      exact ⟨hn.1, hn.2.1, hn.2.2, sourceType, ht, (Option.some.inj h).symm⟩

theorem offer_tenantId {s : Shelf} {d : NewDocument}
    (h : s.offer ext settings tenantId file = some d) : d.tenantId = tenantId := by
  obtain ⟨-, -, -, -, -, rfl⟩ := offer_some h
  rfl

theorem sourceType_name (file : UploadFile) :
    (∃ e, sourceTypeForFilename (file.name "upload".toList) = .error (.unsupportedDocumentType e) ∧
      ∃ e', sourceTypeForFilename (file.name []) = .error (.unsupportedDocumentType e')) ∨
    ∃ sourceType, sourceTypeForFilename (file.name "upload".toList) = .ok sourceType ∧
      sourceTypeForFilename (file.name []) = .ok sourceType := by
  have hnamed (name : Str) : (∃ e, sourceTypeForFilename name = .error (.unsupportedDocumentType e)) ∨
      ∃ sourceType, sourceTypeForFilename name = .ok sourceType := by
    unfold sourceTypeForFilename
    split
    · exact .inr ⟨_, rfl⟩
    · exact .inl ⟨_, rfl⟩
  unfold UploadFile.name
  split
  · exact .inl ⟨_, rfl, _, rfl⟩
  · exact .inl ⟨_, rfl, _, rfl⟩
  · next name _ _ =>
    rcases hnamed name with ⟨e, he⟩ | ⟨t, ht⟩
    · exact .inl ⟨e, he, e, he⟩
    · exact .inr ⟨t, ht, ht⟩

def rejection (file : UploadFile) (detail : Str) : BatchItemResult where
  filename := file.name "upload".toList
  error := some detail

def acceptance (file : UploadFile) (document : Document) : BatchItemResult where
  filename := file.name "upload".toList
  document := some document

theorem eval_ofExcept_ok {α : Type} (a : α) : Io.eval env (Io.ofExcept (.ok a)) w = (w, .ok a) := rfl

variable (h : Healthy env broker)
include h

theorem eval_uploadBatchItem_refused
    (ho : (w.db.shelf tenantId).offer ext settings tenantId file = none) :
    ∃ detail, Io.eval env (uploadBatchItem ext settings tenantId file) w =
      (w, .ok (rejection file detail)) := by
  have hcaught {e : Exn} (he : e.isRagPlatformError)
      (hb : Io.eval env (do
        checkSize settings file
        let sourceType ← Io.ofExcept (sourceTypeForFilename (file.name "upload".toList))
        let document ← (apiIngestionService settings).register ext tenantId
          (file.name "upload".toList) file.raw sourceType
        enqueue document
        return acceptance file document.current) w = (w, .error e)) :
      ∃ detail, Io.eval env (uploadBatchItem ext settings tenantId file) w =
        (w, .ok (rejection file detail)) := by
    obtain ⟨detail, hdetail⟩ := Option.isSome_iff_exists.mp he
    refine ⟨detail, (Io.eval_tryCatch_error hb).trans ?_⟩
    simp only [hdetail]
    rfl
  by_cases hsize : TooLarge settings file
  · obtain ⟨detail, hd⟩ := eval_checkSize_tooLarge env w hsize
    exact hcaught (e := .fileTooLarge detail) rfl (Io.eval_bind_error hd)
  rcases sourceType_name file with ⟨e, he, -⟩ | ⟨sourceType, ht, -⟩
  · refine hcaught (e := .unsupportedDocumentType e) rfl
      ((Io.eval_bind_ok (eval_checkSize hsize)).trans ?_)
    rw [he]
    exact Io.eval_bind_error rfl
  · have hr : (w.db.shelf tenantId).known = false ∨
        OverQuota settings (w.db.shelf tenantId).usedBytes file := by
      simp only [Shelf.offer, ht, hsize, false_or] at ho
      split at ho
      · assumption
      · cases ho
    obtain ⟨e, he, hreg⟩ := eval_register_refused h ext (file.name "upload".toList)
      sourceType hr
    refine hcaught he ((Io.eval_bind_ok (eval_checkSize hsize)).trans ?_)
    rw [ht]
    exact (Io.eval_bind_ok rfl).trans (Io.eval_bind_error hreg)

theorem eval_uploadDocument_refused
    (ho : (w.db.shelf tenantId).offer ext settings tenantId file = none) :
    ∃ e, Io.eval env (uploadDocument ext settings tenantId file) w = (w, .error e) := by
  unfold uploadDocument
  rcases sourceType_name file with ⟨-, -, e, he⟩ | ⟨sourceType, ht, ht'⟩
  · rw [he]
    exact ⟨_, Io.eval_bind_error rfl⟩
  rw [ht']
  by_cases hsize : TooLarge settings file
  · obtain ⟨detail, hd⟩ := eval_checkSize_tooLarge env w hsize
    exact ⟨_, (Io.eval_bind_ok rfl).trans (Io.eval_bind_error hd)⟩
  · have hr : (w.db.shelf tenantId).known = false ∨
        OverQuota settings (w.db.shelf tenantId).usedBytes file := by
      simp only [Shelf.offer, ht, hsize, false_or] at ho
      split at ho
      · assumption
      · cases ho
    obtain ⟨e, -, hreg⟩ := eval_register_refused h ext (file.name "upload".toList)
      sourceType hr
    exact ⟨e, (Io.eval_bind_ok rfl).trans
      ((Io.eval_bind_ok (eval_checkSize hsize)).trans (Io.eval_bind_error hreg))⟩

theorem eval_uploadDocument {d : NewDocument}
    (ho : (w.db.shelf tenantId).offer ext settings tenantId file = some d) :
    Intaken broker w d (·.current) (Io.eval env (uploadDocument ext settings tenantId file) w) := by
  obtain ⟨hsize, hknown, hquota, sourceType, ht, rfl⟩ := offer_some ho
  rcases sourceType_name file with ⟨e, he, -⟩ | ⟨t, ht₁, ht'⟩
  · rw [he] at ht
    cases ht
  obtain rfl : t = sourceType := Except.ok.inj (ht₁.symm.trans ht)
  unfold uploadDocument
  rw [ht', Io.eval_bind_ok (eval_ofExcept_ok t), Io.eval_bind_ok (eval_checkSize hsize)]
  exact eval_intake h ext _ _ (·.current) hknown hquota

theorem eval_uploadBatchItem {d : NewDocument}
    (ho : (w.db.shelf tenantId).offer ext settings tenantId file = some d) :
    (d.storable = false ∧
      Io.eval env (uploadBatchItem ext settings tenantId file) w = (w, .error .data)) ∨
    (d.storable ∧ d.contentSha256 ∈ (w.db.shelf tenantId).hashes ∧ ∃ detail,
      Io.eval env (uploadBatchItem ext settings tenantId file) w =
        (w, .ok (rejection file detail))) ∨
    (d.storable ∧ d.contentSha256 ∉ (w.db.shelf tenantId).hashes ∧
      ∃ (w' : World) (row inserted : Document) (detail : Str), Taken broker w w' d row ∧
        inserted.anonymous = d.blank ∧
        Io.eval env (uploadBatchItem ext settings tenantId file) w =
          (w', .ok (if (broker d.blank).isNone then acceptance file inserted
            else rejection file detail))) := by
  obtain ⟨hsize, hknown, hquota, sourceType, ht, rfl⟩ := offer_some ho
  have hbody := eval_intake h ext (file.name "upload".toList) sourceType
    (fun i => acceptance file i.current) hknown hquota
  have hitem {w' : World} {r : Except Exn BatchItemResult}
      (hb : Io.eval env (do
        let document ← (apiIngestionService settings).register ext tenantId
          (file.name "upload".toList) file.raw sourceType
        enqueue document
        return acceptance file document.current) w = (w', r)) :
      Io.eval env (do
        checkSize settings file
        let sourceType ← Io.ofExcept (sourceTypeForFilename (file.name "upload".toList))
        let document ← (apiIngestionService settings).register ext tenantId
          (file.name "upload".toList) file.raw sourceType
        enqueue document
        return acceptance file document.current) w = (w', r) := by
    rw [Io.eval_bind_ok (eval_checkSize hsize), ht, Io.eval_bind_ok (eval_ofExcept_ok sourceType)]
    exact hb
  generalize hx : Io.eval env _ w = x at hbody
  cases hbody with
  | sunk hs => exact .inl ⟨hs, (Io.eval_tryCatch_error (hitem hx)).trans rfl⟩
  | duplicate hs hmem =>
    exact .inr (.inl ⟨hs, hmem, _, (Io.eval_tryCatch_error (hitem hx)).trans rfl⟩)
  | @taken w' row inserted hs hmem htaken hinserted =>
    refine .inr (.inr ⟨hs, hmem, w', row, inserted,
      "Ingestion queue is unavailable; try again shortly".toList, htaken, hinserted, ?_⟩)
    cases hb : (broker _).isNone with
    | true =>
      rw [hb] at hx
      exact Io.eval_tryCatch_ok (hitem hx)
    | false =>
      rw [hb] at hx
      exact (Io.eval_tryCatch_error (hitem hx)).trans rfl

end

@[simp] theorem settle_tenantId (fault : Option Fault) (d : Document) :
    (settle fault d).tenantId = d.tenantId := by
  unfold settle; split <;> rfl

@[simp] theorem settle_contentSha256 (fault : Option Fault) (d : Document) :
    (settle fault d).contentSha256 = d.contentSha256 := by
  unfold settle; split <;> rfl

@[simp] theorem settle_sizeBytes (fault : Option Fault) (d : Document) :
    (settle fault d).sizeBytes = d.sizeBytes := by
  unfold settle; split <;> rfl

theorem Taken.shelf {broker : Document → Option Fault} {w w' : World} {d : NewDocument}
    {row : Document} (h : Taken broker w w' d row) :
    w'.db.shelf d.tenantId = (w.db.shelf d.tenantId).add d := by
  have htenant : row.tenantId = d.tenantId :=
    (congrArg Document.tenantId h.same).trans (settle_tenantId _ _)
  have hsha : row.contentSha256 = d.contentSha256 :=
    (congrArg Document.contentSha256 h.same).trans (settle_contentSha256 _ _)
  have hsize : row.sizeBytes = d.sizeBytes :=
    (congrArg Document.sizeBytes h.same).trans (settle_sizeBytes _ _)
  simp [Database.shelf, Database.usedBytes, Shelf.add, h.tenants, h.documents, htenant, hsha, hsize]

section

variable (ext : External) (settings : Settings) (tenantId : Uuid)

/-- Every file that gets as far as the INSERT fits the columns. -/
def Shelf.Storable : Shelf → List UploadFile → Prop
  | _, [] => True
  | s, file :: files => (∀ d ∈ s.offer ext settings tenantId file, d.storable) ∧
      Storable (s.next ext settings tenantId file) files

instance Shelf.decStorable : (s : Shelf) → (files : List UploadFile) →
    Decidable (s.Storable ext settings tenantId files)
  | _, [] => .isTrue trivial
  | s, file :: files =>
    have := decStorable (s.next ext settings tenantId file) files
    inferInstanceAs (Decidable (_ ∧ _))

theorem Shelf.storable_append (s : Shelf) (pre post : List UploadFile) :
    s.Storable ext settings tenantId (pre ++ post) ↔ s.Storable ext settings tenantId pre ∧
      (pre.foldl (Shelf.next ext settings tenantId) s).Storable ext settings tenantId post := by
  induction pre generalizing s with
  | nil => simp [Storable]
  | cons file pre ih => simp [Storable, ih, and_assoc]

end

section

variable {env : Surroundings} {broker : Document → Option Fault}
variable {ext : External} {settings : Settings} {tenantId : Uuid} {w w' : World}
  {file : UploadFile} {files pre post : List UploadFile}

inductive Dealt (w w' : World) (r : BatchItemResult) : Prop
  | rejected : w' = w → r.document = none → r.error.isSome → Dealt w w' r
  | registered : w'.db.documents ≠ w.db.documents → Dealt w w' r

theorem eval_items_cons {r : BatchItemResult} (hr : Io.eval env
    (uploadBatchItem ext settings tenantId file) w = (w', .ok r)) :
    Io.eval env (uploadBatchItems ext settings tenantId (file :: files)) w =
      match Io.eval env (uploadBatchItems ext settings tenantId files) w' with
      | (w'', .ok rs) => (w'', .ok (r :: rs))
      | (w'', .error e) => (w'', .error e) := by
  refine (Io.eval_bind_ok hr).trans ?_
  generalize hx : Io.eval env (uploadBatchItems ext settings tenantId files) w' = x
  obtain ⟨w'', e | rs⟩ := x
  · exact Io.eval_bind_error hx
  · exact Io.eval_bind_ok hx

theorem eval_items_append {rs rs' : List BatchItemResult} {w'' : World}
    (hpre : Io.eval env (uploadBatchItems ext settings tenantId pre) w = (w', .ok rs))
    (hpost : Io.eval env (uploadBatchItems ext settings tenantId post) w' = (w'', .ok rs')) :
    Io.eval env (uploadBatchItems ext settings tenantId (pre ++ post)) w = (w'', .ok (rs ++ rs')) := by
  induction pre generalizing w rs with
  | nil =>
    cases hpre
    exact hpost
  | cons file pre ih =>
    generalize hx : Io.eval env (uploadBatchItem ext settings tenantId file) w = x at hpre
    obtain ⟨w₁, e | r⟩ := x
    · rw [show Io.eval env (uploadBatchItems ext settings tenantId (file :: pre)) w = (w₁, .error e)
        from Io.eval_bind_error hx] at hpre
      cases hpre
    · rw [eval_items_cons hx] at hpre
      rw [List.cons_append, eval_items_cons hx]
      generalize hy : Io.eval env (uploadBatchItems ext settings tenantId pre) w₁ = y at hpre
      obtain ⟨w₂, e | rs₂⟩ := y
      · cases hpre
      · cases hpre
        rw [ih hy]
        rfl

variable (h : Healthy env broker)
include h

theorem eval_item_storable
    (hs : ∀ d ∈ (w.db.shelf tenantId).offer ext settings tenantId file, d.storable) :
    ∃ w' r, Io.eval env (uploadBatchItem ext settings tenantId file) w = (w', .ok r) ∧
      w'.db.shelf tenantId = (w.db.shelf tenantId).next ext settings tenantId file ∧
      Dealt w w' r := by
  cases ho : (w.db.shelf tenantId).offer ext settings tenantId file with
  | none =>
    obtain ⟨detail, he⟩ := eval_uploadBatchItem_refused h ho
    refine ⟨w, _, he, ?_, .rejected rfl rfl rfl⟩
    simp only [Shelf.next, ho]
  | some d =>
    have htenant := offer_tenantId ho
    rcases eval_uploadBatchItem h ho with ⟨hf, -⟩ | ⟨-, hmem, detail, he⟩ |
      ⟨-, hmem, w', row, inserted, detail, ht, -, he⟩
    · rw [hs _ ho] at hf
      cases hf
    · refine ⟨w, _, he, ?_, .rejected rfl rfl rfl⟩
      simp only [Shelf.next, ho, hmem, if_true]
    · refine ⟨w', _, he, ?_, .registered ?_⟩
      · simp only [Shelf.next, ho, hmem, if_false]
        exact htenant ▸ ht.shelf
      · rw [ht.documents]
        simp

theorem eval_items_storable (hs : (w.db.shelf tenantId).Storable ext settings tenantId files) :
    ∃ w' rs, Io.eval env (uploadBatchItems ext settings tenantId files) w = (w', .ok rs) ∧
      rs.length = files.length ∧
      w'.db.shelf tenantId =
        files.foldl (Shelf.next ext settings tenantId) (w.db.shelf tenantId) := by
  induction files generalizing w with
  | nil => exact ⟨w, [], rfl, rfl, rfl⟩
  | cons file files ih =>
    obtain ⟨w₁, r, hr, hshelf, -⟩ := eval_item_storable h hs.1
    obtain ⟨w₂, rs, hrs, hlen, hshelf'⟩ := ih (w := w₁) (by rw [hshelf]; exact hs.2)
    refine ⟨w₂, r :: rs, by rw [eval_items_cons hr, hrs], congrArg (· + 1) hlen, ?_⟩
    rw [hshelf', hshelf, List.foldl_cons]

theorem eval_items_sunk (hs : ¬ (w.db.shelf tenantId).Storable ext settings tenantId files) :
    ∃ w' e, Io.eval env (uploadBatchItems ext settings tenantId files) w = (w', .error e) := by
  induction files generalizing w with
  | nil => exact absurd trivial hs
  | cons file files ih =>
    by_cases hfile : ∀ d ∈ (w.db.shelf tenantId).offer ext settings tenantId file, d.storable
    · obtain ⟨w₁, r, hr, hshelf, -⟩ := eval_item_storable h hfile
      obtain ⟨w₂, e, he⟩ := ih (w := w₁) fun hrest => hs ⟨hfile, hshelf ▸ hrest⟩
      exact ⟨w₂, e, by rw [eval_items_cons hr, he]⟩
    · push Not at hfile
      obtain ⟨d, ho, hd⟩ := hfile
      rcases eval_uploadBatchItem h ho with ⟨-, he⟩ | ⟨hd', -⟩ | ⟨hd', -⟩
      · exact ⟨w, .data, Io.eval_bind_error he⟩
      · exact absurd hd' hd
      · exact absurd hd' hd

omit h in
theorem eval_batch {rs : List BatchItemResult}
    (hitems : Io.eval env (uploadBatchItems ext settings tenantId files) w = (w', .ok rs)) :
    Io.eval env (uploadDocumentsBatch ext settings tenantId files) w =
      (w', .ok ⟨(rs.filter (·.document.isSome)).length,
        rs.length - (rs.filter (·.document.isSome)).length, rs⟩) := Io.eval_bind_ok hitems

end

section

variable (env : Surroundings) (ext : External) (settings : Settings) (tenantId : Uuid)

/-- The state in which the files before a file leave the platform. -/
def worldAfter (files : List UploadFile) (w : World) : World :=
  (Io.eval env (uploadBatchItems ext settings tenantId files) w).1

def Unregistered (w : World) (file : UploadFile) : Prop :=
  (worldAfter env ext settings tenantId [file] w).db.documents = w.db.documents

/-- The batch is answered file by file, and a file that cannot be registered costs the others
nothing: without it they fare the same. -/
def Isolates (w : World) (files : List UploadFile) : Prop :=
  ∃ w' out, Io.eval env (uploadDocumentsBatch ext settings tenantId files) w = (w', .ok out) ∧
    out.results.length = files.length ∧
    ∀ pre file post, files = pre ++ file :: post →
      Unregistered env ext settings tenantId (worldAfter env ext settings tenantId pre w) file →
      ∃ rs r rs' out', out.results = rs ++ r :: rs' ∧ rs.length = pre.length ∧
        r.document = none ∧ r.error.isSome ∧ out'.results = rs ++ rs' ∧
        Io.eval env (uploadDocumentsBatch ext settings tenantId (pre ++ post)) w = (w', .ok out')

end

section

variable {env : Surroundings} {broker : Document → Option Fault}
variable {ext : External} {settings : Settings} {tenantId : Uuid} {w : World}
  {files : List UploadFile}

/-- A batch isolates its bad files unless one that gets as far as the INSERT does not fit. -/
theorem batch_isolates_iff (h : Healthy env broker) :
    Isolates env ext settings tenantId w files ↔
      (w.db.shelf tenantId).Storable ext settings tenantId files := by
  constructor
  · rintro ⟨w', out, hout, -, -⟩
    by_contra hs
    obtain ⟨w₁, e, he⟩ := eval_items_sunk h hs
    rw [show Io.eval env (uploadDocumentsBatch ext settings tenantId files) w = (w₁, .error e) from
      Io.eval_bind_error he] at hout
    cases hout
  · intro hs
    obtain ⟨w', results, hitems, hlen, -⟩ := eval_items_storable h hs
    refine ⟨w', _, eval_batch hitems, hlen, ?_⟩
    rintro pre file post rfl hunregistered
    rw [Shelf.storable_append] at hs
    obtain ⟨w₁, rs, hpre, hrs, hshelf⟩ := eval_items_storable h hs.1
    rw [← hshelf] at hs
    obtain ⟨w₂, r, hr, hshelf', hdealt⟩ := eval_item_storable h hs.2.1
    obtain ⟨w₃, rs', hpost, -, -⟩ := eval_items_storable h (w := w₂) (hshelf' ▸ hs.2.2)
    have hfile : Io.eval env (uploadBatchItems ext settings tenantId (file :: post)) w₁ =
        (w₃, .ok (r :: rs')) := by rw [eval_items_cons hr, hpost]
    have hall := eval_items_append hpre hfile
    rw [hitems] at hall
    cases hall
    cases hdealt with
    | registered hne =>
      rw [Unregistered, worldAfter, worldAfter, hpre, eval_items_cons hr] at hunregistered
      exact absurd hunregistered hne
    | rejected hw hdocument herror =>
      subst hw
      exact ⟨rs, r, rs', _, rfl, hrs, hdocument, herror, rfl,
        eval_batch (eval_items_append hpre hpost)⟩

end

section

variable (env : Surroundings) (ext : External) (settings : Settings) (tenantId : Uuid)

def uploadEach : List UploadFile → World → World × List (Except Exn Document)
  | [], w => (w, [])
  | file :: files, w =>
    let x := Io.eval env (uploadDocument ext settings tenantId file) w
    let y := uploadEach files x.1
    (y.1, x.2 :: y.2)

end

/-- The ids name the same row, but for the id and the timestamp. -/
def SameTask (w w' : World) (id id' : Uuid) : Prop :=
  ∃ d d', w.db.document id = some d ∧ w'.db.document id' = some d' ∧ d.anonymous = d'.anonymous

/-- What two worlds that go back to `w₀` have taken in is the same. -/
structure SameIntake (w₀ w w' : World) : Prop where
  tenants : w.db.tenants = w'.db.tenants
  documents : w.db.documents.map (·.anonymous) = w'.db.documents.map (·.anonymous)
  queue : ∃ ids ids', w.queue = w₀.queue ++ ids ∧ w'.queue = w₀.queue ++ ids' ∧
    List.Forall₂ (SameTask w w') ids ids'

namespace SameIntake

variable {w₀ w w' v v' : World} {tenantId : Uuid}

theorem refl (w : World) : SameIntake w w w :=
  ⟨rfl, rfl, [], [], (List.append_nil _).symm, (List.append_nil _).symm, .nil⟩

theorem shelf (h : SameIntake w₀ w w') (tenantId : Uuid) :
    w.db.shelf tenantId = w'.db.shelf tenantId := by
  have hcolumn {α : Type} (f : Document → α) (hf : ∀ d, f d.anonymous = f d) (db : Database) :
      (db.documents.filter (·.tenantId = tenantId)).map f =
        ((db.documents.map (·.anonymous)).filter (·.tenantId = tenantId)).map f := by
    rw [List.filter_map, List.map_map]
    exact List.map_congr_left fun d _ => (hf d).symm
  simp only [Database.shelf, Database.usedBytes, h.tenants, hcolumn (·.sizeBytes) fun _ => rfl,
    hcolumn (·.contentSha256) fun _ => rfl, h.documents]

theorem taken {broker : Document → Option Fault} {d : NewDocument} {row row' : Document}
    (h : SameIntake w₀ w w') (ht : Taken broker w v d row) (ht' : Taken broker w' v' d row') :
    SameIntake w₀ v v' := by
  obtain ⟨ids, ids', hqueue, hqueue', htasks⟩ := h.queue
  have hsame : row.anonymous = row'.anonymous := ht.same.trans ht'.same.symm
  have hkept {x y : World} {r : Document} (hx : Taken broker x y d r) {id : Uuid} {e : Document}
      (he : x.db.document id = some e) : y.db.document id = some e := by
    simp only [Database.document, hx.documents, List.find?_append] at he ⊢
    rw [he]
    rfl
  have hadded {x y : World} {r : Document} (hx : Taken broker x y d r) :
      y.db.document r.id = some r :=
    Database.document_eq_some.mpr ⟨by simp [hx.documents], rfl⟩
  have hstill : List.Forall₂ (SameTask v v') ids ids' := by
    refine htasks.imp fun id id' htask => ?_
    obtain ⟨e, e', he, he', hee'⟩ := htask
    exact ⟨e, e', hkept ht he, hkept ht' he', hee'⟩
  have hnew : SameTask v v' row.id row'.id := ⟨row, row', hadded ht, hadded ht', hsame⟩
  refine ⟨by rw [ht.tenants, ht'.tenants, h.tenants], ?_, ?_⟩
  · simp only [ht.documents, ht'.documents, List.map_append, h.documents, List.map_singleton, hsame]
  · rw [ht.queue, ht'.queue, hqueue, hqueue', List.append_assoc, List.append_assoc]
    refine ⟨_, _, rfl, rfl, List.rel_append hstill ?_⟩
    split
    · exact .cons hnew .nil
    · exact .nil

end SameIntake

/-- The same verdict on a file: the same document but for its id and its timestamp, or none. -/
def SameVerdict (r : BatchItemResult) (x : Except Exn Document) : Prop :=
  r.document.map (·.anonymous) = x.toOption.map (·.anonymous)

section

variable {env env' : Surroundings} {broker : Document → Option Fault}
variable {ext : External} {settings : Settings} {tenantId : Uuid} {w₀ w w' : World}
  {file : UploadFile} {files : List UploadFile}
variable (h : Healthy env broker) (h' : Healthy env' broker)
include h h'

theorem item_same (hw : SameIntake w₀ w w')
    (hs : ∀ d ∈ (w.db.shelf tenantId).offer ext settings tenantId file, d.storable) :
    ∃ v r, Io.eval env (uploadBatchItem ext settings tenantId file) w = (v, .ok r) ∧
      r.filename = file.name "upload".toList ∧ r.document.isSome = !r.error.isSome ∧
      SameIntake w₀ v (Io.eval env' (uploadDocument ext settings tenantId file) w').1 ∧
      SameVerdict r (Io.eval env' (uploadDocument ext settings tenantId file) w').2 := by
  have hshelf := hw.shelf tenantId
  cases ho : (w.db.shelf tenantId).offer ext settings tenantId file with
  | none =>
    obtain ⟨detail, hitem⟩ := eval_uploadBatchItem_refused h ho
    obtain ⟨e, hsingle⟩ := eval_uploadDocument_refused h' (hshelf ▸ ho)
    exact ⟨w, _, hitem, rfl, rfl, by rw [hsingle]; exact hw, by rw [hsingle]; rfl⟩
  | some d =>
    have htenant := offer_tenantId ho
    have hsingle := eval_uploadDocument h' (hshelf ▸ ho)
    generalize Io.eval env' (uploadDocument ext settings tenantId file) w' = x at hsingle
    rcases eval_uploadBatchItem h ho with ⟨hf, -⟩ | ⟨hd, hmem, detail, hitem⟩ |
      ⟨hd, hmem, v, row, inserted, detail, ht, hinserted, hitem⟩
    · rw [hs d ho] at hf
      cases hf
    · refine ⟨w, _, hitem, rfl, rfl, ?_⟩
      cases hsingle with
      | sunk hf => rw [hd] at hf; cases hf
      | duplicate => exact ⟨hw, rfl⟩
      | taken _ hmem' => exact absurd (hshelf ▸ hmem) (htenant ▸ hmem')
    · cases hsingle with
      | sunk hf => rw [hd] at hf; cases hf
      | duplicate _ hmem' => exact absurd (hshelf ▸ htenant ▸ hmem') hmem
      | taken _ _ ht' hinserted' =>
        have hv := hw.taken ht ht'
        cases hb : (broker d.blank).isNone with
        | true =>
          rw [hb] at hitem
          exact ⟨v, _, hitem, rfl, rfl, hv, congrArg some (hinserted.trans hinserted'.symm)⟩
        | false =>
          rw [hb] at hitem
          exact ⟨v, _, hitem, rfl, rfl, hv, rfl⟩

theorem items_same (hw : SameIntake w₀ w w')
    (hs : (w.db.shelf tenantId).Storable ext settings tenantId files) :
    ∃ v rs, Io.eval env (uploadBatchItems ext settings tenantId files) w = (v, .ok rs) ∧
      rs.map (·.filename) = files.map (·.name "upload".toList) ∧
      (∀ r ∈ rs, r.document.isSome = !r.error.isSome) ∧
      SameIntake w₀ v (uploadEach env' ext settings tenantId files w').1 ∧
      List.Forall₂ SameVerdict rs (uploadEach env' ext settings tenantId files w').2 := by
  induction files generalizing w w' with
  | nil => exact ⟨w, [], rfl, rfl, by simp, hw, .nil⟩
  | cons file files ih =>
    obtain ⟨v, r, hr, hname, hone, hv, hverdict⟩ := item_same h h' hw hs.1
    obtain ⟨w₁, r₁, hr₁, hshelf, -⟩ := eval_item_storable h hs.1
    obtain ⟨rfl, rfl⟩ : v = w₁ ∧ r = r₁ := by
      rw [hr] at hr₁
      cases hr₁
      exact ⟨rfl, rfl⟩
    obtain ⟨v', rs, hrs, hnames, hones, hv', hverdicts⟩ := ih hv (hshelf ▸ hs.2)
    refine ⟨v', r :: rs, by rw [eval_items_cons hr, hrs], ?_, ?_, hv', .cons hverdict hverdicts⟩
    · rw [List.map_cons, List.map_cons, hname, hnames]
    · rintro x (_ | ⟨_, hx⟩)
      · exact hone
      · exact hones x hx

end

/-- `VARCHAR(512)`, and no NUL character. -/
def UploadFile.NameStorable (file : UploadFile) : Prop :=
  storableText (file.name "upload".toList) ∧ (file.name "upload".toList).length ≤ 512

theorem storable_of_names {ext : External} {settings : Settings} {tenantId : Uuid}
    {files : List UploadFile} (hsize : settings.maxUploadBytes ≤ 2147483647)
    (hnames : ∀ file ∈ files, file.NameStorable) (s : Shelf) :
    s.Storable ext settings tenantId files := by
  induction files generalizing s with
  | nil => trivial
  | cons file files ih =>
    refine ⟨fun d hd => ?_, ih (fun f hf => hnames f (.tail _ hf)) _⟩
    obtain ⟨hfits, -, -, sourceType, -, rfl⟩ := offer_some hd
    obtain ⟨htext, hlen⟩ := hnames file (.head _)
    have hbytes : file.raw.length ≤ 2147483647 := by
      unfold TooLarge at hfits
      omega
    simp only [NewDocument.storable, Bool.and_eq_true, decide_eq_true_eq]
    exact ⟨⟨htext, hlen⟩, hbytes⟩

/-- A batch does what its files would do in requests of their own, one after another. -/
theorem batch_sequential {env env' : Surroundings} {broker : Document → Option Fault}
    {ext : External} {settings : Settings} {tenantId : Uuid} {w : World} {files : List UploadFile}
    (h : Healthy env broker) (h' : Healthy env' broker)
    (hsize : settings.maxUploadBytes ≤ 2147483647) (hnames : ∀ file ∈ files, file.NameStorable) :
    ∃ w' out, Io.eval env (uploadDocumentsBatch ext settings tenantId files) w = (w', .ok out) ∧
      SameIntake w w' (uploadEach env' ext settings tenantId files w).1 ∧
      List.Forall₂ SameVerdict out.results (uploadEach env' ext settings tenantId files w).2 ∧
      out.results.map (·.filename) = files.map (·.name "upload".toList) ∧
      (∀ r ∈ out.results, r.document.isSome = !r.error.isSome) ∧
      out.accepted + out.rejected = files.length := by
  obtain ⟨w', rs, hitems, hfilenames, hone, hw', hverdicts⟩ :=
    items_same h h' (.refl w) (storable_of_names hsize hnames (w.db.shelf tenantId))
  refine ⟨w', _, eval_batch hitems, hw', hverdicts, hfilenames, hone, ?_⟩
  have hlen : rs.length = files.length := by
    rw [← List.length_map (f := fun r : BatchItemResult => r.filename), hfilenames, List.length_map]
  have hle : (rs.filter (·.document.isSome)).length ≤ rs.length := List.length_filter_le _ _
  simp only
  omega

namespace Sample

def surroundings (broker : Document → Option Fault) (now : Nat) : Surroundings := fun c w =>
  { oracle with
    uuid := ⟨(w.db.issued.map (·.1.toNat)).sum + 1⟩
    now := now
    fault :=
      match c with
      | .delay id => (w.db.document id).bind fun d => broker d.anonymous
      | _ => none }

theorem healthy (broker : Document → Option Fault) (now : Nat) :
    Healthy (surroundings broker now) broker where
  database c w hc := by
    cases c with
    | delay id => exact absurd rfl (hc id)
    | _ => rfl
  fresh c w hmem := by
    obtain ⟨x, hx, hid⟩ := List.mem_map.mp hmem
    have hle := List.single_le_sum (fun _ _ => Nat.zero_le _) _
      (List.mem_map_of_mem (f := fun y : Uuid × Uuid => y.1.toNat) hx)
    have heq : x.1.toNat = (w.db.issued.map (·.1.toNat)).sum + 1 := congrArg Uuid.toNat hid
    omega
  enqueue w id d hd := by simp only [surroundings, hd, Option.bind_some]

/-- The broker refuses the task for `other`. -/
def broker (d : Document) : Option Fault :=
  if d.filename = "other.md".toList then some (.raised "OperationalError".toList) else none

def longName : UploadFile := ⟨some (List.replicate 510 'a' ++ ".md".toList), [0xFF]⟩

end Sample

/-- Two files that go through, one that the broker refuses, and a duplicate. -/
theorem batch_sequential_sample : ∃ w' out,
    Io.eval (Sample.surroundings Sample.broker 0) (uploadDocumentsBatch Sample.ext {} Sample.tenantId
      [Sample.note, Sample.broken, Sample.other, Sample.note]) Sample.world = (w', .ok out) ∧
    SameIntake Sample.world w' (uploadEach (Sample.surroundings Sample.broker 1) Sample.ext {}
      Sample.tenantId [Sample.note, Sample.broken, Sample.other, Sample.note] Sample.world).1 ∧
    List.Forall₂ SameVerdict out.results (uploadEach (Sample.surroundings Sample.broker 1) Sample.ext
      {} Sample.tenantId [Sample.note, Sample.broken, Sample.other, Sample.note] Sample.world).2 ∧
    out.results.map (·.filename) = [Sample.note, Sample.broken, Sample.other, Sample.note].map
      (·.name "upload".toList) ∧
    (∀ r ∈ out.results, r.document.isSome = !r.error.isSome) ∧
    out.accepted + out.rejected = [Sample.note, Sample.broken, Sample.other, Sample.note].length :=
  batch_sequential (Sample.healthy Sample.broker 0) (Sample.healthy Sample.broker 1) (by decide)
    (by simp [UploadFile.NameStorable, Sample.note, Sample.broken, Sample.other, UploadFile.name,
      storableText])

/-- The broker refuses `other`, which costs nobody else anything. -/
theorem batch_isolates_iff_sample : Isolates (Sample.surroundings Sample.broker 0) Sample.ext {}
    Sample.tenantId Sample.world [Sample.note, Sample.other, Sample.note] :=
  (batch_isolates_iff (Sample.healthy Sample.broker 0)).mpr (by decide)

/-- A file whose name is too long is answered with a 500, and the one after it is never looked at. -/
theorem long_name_sinks_batch : ¬ Isolates (Sample.surroundings Sample.broker 0) Sample.ext {}
    Sample.tenantId Sample.world [Sample.longName, Sample.note] := by
  rintro ⟨w', out, hout, -⟩
  have hresult : (Io.eval (Sample.surroundings Sample.broker 0) (uploadDocumentsBatch Sample.ext {}
      Sample.tenantId [Sample.longName, Sample.note]) Sample.world).2.toOption.isSome = false := by
    decide +kernel
  rw [hout] at hresult
  cases hresult

end RagPlatform
