import RagPlatform.Isolation.Calls
import RagPlatform.Lib.Contest
import RagPlatform.Paging
import RagPlatform.Regular
import RagPlatform.Resubmission

/-! Uploads of one content that run side by side. -/

namespace RagPlatform

open Lib

def Outcome.accepted : Outcome → List Document
  | .document d => [d]
  | .batch b => b.results.filterMap (·.document)
  | _ => []

def digests (tenantId : Uuid) (documents : List Document) : List Str :=
  (documents.filter (·.tenantId = tenantId)).map (·.contentSha256)

/-- INSERTs compete for being the tenant's one row with a content. -/
def copies (tenantId : Uuid) : Contest api World Str where
  won c x :=
    match c, x with
    | .insertDocument _, .ok row => (digests tenantId [row]).head?
    | _, _ => none
  gone w sha := Registered tenantId sha w.db

section

variable {tenantId : Uuid} {o : Oracle} {c : Call} {w : World} {sha : Str} {l : Log api}

theorem digests_singleton (row : Document) : digests tenantId [row] =
    if row.tenantId = tenantId then [row.contentSha256] else [] := by
  by_cases h : row.tenantId = tenantId
  · simp [digests, h]
  · simp [digests, h]

theorem inserted_of_won (h : (copies tenantId).won c (exec o c w).2 = some sha) :
    ∃ d row, w.db.insertDocument row = .ok (exec o c w).1.db ∧ c = .insertDocument d ∧
      row = d.row o.uuid o.now ∧ row.tenantId = tenantId ∧ row.contentSha256 = sha := by
  cases c with
  | insertDocument d =>
    cases hx : (exec o (.insertDocument d) w).2 with
    | error e =>
      rw [hx] at h
      cases h
    | ok row =>
      obtain ⟨-, hrow, hinsert⟩ := exec_insertDocument_ok hx
      rw [hx] at h
      simp only [copies, digests_singleton] at h
      split at h
      · next htenant => exact ⟨d, row, hinsert, rfl, hrow, htenant, Option.some.inj h⟩
      · cases h
  | _ => cases h

theorem registered_exec (hc : Undeleted tenantId l o c w) (h : Registered tenantId sha w.db) :
    Registered tenantId sha (exec o c w).1.db := by
  have heffect := exec_effect o c w
  generalize (exec o c w).1.db = db at heffect
  cases heffect with
  | same => exact h
  | commit hcommit => exact registered_commit h hcommit
  | @insert new hfits =>
    obtain ⟨id, d, hd, ht, hs⟩ := h
    refine ⟨id, d, ?_, ht, hs⟩
    rw [Database.document_add, if_neg, hd]
    rintro rfl
    rw [Database.document_none_of_not_issued hfits.1] at hd
    cases hd
  | @delete gone =>
    obtain ⟨id, d, hd, ht, hs⟩ := h
    refine ⟨id, d, ?_, ht, hs⟩
    rw [Database.document_deleteDocument, if_neg, hd]
    rintro rfl
    exact hc _ rfl d hd ht

theorem fair_copies {step : Log api → Oracle → Call → World → Prop}
    (hstep : ∀ l o c w, step l o c w → Undeleted tenantId l o c w) :
    (copies tenantId).Fair exec step where
  there _ hwon hgone := by
    obtain ⟨d, row, hinsert, -, -, rfl, rfl⟩ := inserted_of_won hwon
    obtain ⟨-, hfits, -⟩ := Database.insertDocument_ok hinsert
    exact not_fits hgone hfits
  takes _ hwon := by
    obtain ⟨d, row, hinsert, -, -, rfl, rfl⟩ := inserted_of_won hwon
    exact registered_insert hinsert
  stays hok hgone := registered_exec (hstep _ _ _ _ hok) hgone

end

section

variable {ext : External} {settings : Settings} {tenantId owner : Uuid} {ks : List Str}

theorem earns_insert (d : NewDocument) : (copies owner).Earns ks (IngestionService.insert d)
    fun row => ks ++ digests owner [row] := by
  refine .tryCatch (fun l hl => ⟨trivial, fun x => ⟨List.prefix_append l _, fun row hrow => ?_⟩⟩)
    fun e => ?_
  · subst hrow
    rw [Contest.winnings_append]
    refine hl.append ?_
    rw [digests_singleton]
    split
    · next h => simp [Contest.winnings, copies, digests_singleton, h]
    · exact List.nil_sublist _
  · split
    · exact .bind (.idle _) fun _ => .throw
    · exact .throw

theorem earns_register (svc : IngestionService) (filename : Str) (raw : Bytes)
    (sourceType : DocumentSourceType) : (copies owner).Earns ks
      (svc.register ext tenantId filename raw sourceType) fun i => ks ++ digests owner [i.current] := by
  refine .bind (.idle _) fun tenant => ?_
  split
  · exact .throw
  · exact .bind (.idle _) fun _ => .bind (earns_insert _) fun row => .pure (.refl _)

theorem earns_uploadDocument (file : UploadFile) : (copies owner).Earns ks
    (uploadDocument ext settings tenantId file) fun d => ks ++ digests owner [d] :=
  .bind (.idle _) fun _ => .bind (.idle _) fun _ => .bind (earns_register _ _ _ _) fun _ =>
    .bind (.idle _) fun _ => .pure (.refl _)

theorem earns_uploadBatchItem (file : UploadFile) : (copies owner).Earns ks
    (uploadBatchItem ext settings tenantId file)
      fun r => ks ++ digests owner r.document.toList := by
  refine .tryCatch (.bind (.idle _) fun _ => .bind (.idle _) fun _ =>
    .bind (earns_register _ _ _ _) fun _ => .bind (.idle _) fun _ => .pure (.refl _)) fun e => ?_
  cases e.detail with
  | none => exact .throw
  | some detail => exact .pure (by simp [digests])

theorem earns_uploadBatchItems (files : List UploadFile) : (copies owner).Earns ks
    (uploadBatchItems ext settings tenantId files)
      fun rs => ks ++ digests owner (rs.filterMap (·.document)) := by
  induction files generalizing ks with
  | nil => exact .pure (by simp [digests])
  | cons file files ih =>
    refine .bind (earns_uploadBatchItem file) fun r => .bind ih fun rs => .pure ?_
    cases hr : r.document with
    | none => simp [hr, digests]
    | some d =>
      have hd : digests owner (d :: rs.filterMap (·.document)) =
          digests owner [d] ++ digests owner (rs.filterMap (·.document)) := by
        rw [digests, digests, digests, ← List.map_append, ← List.filter_append,
          List.singleton_append]
      simp [hr, hd]

theorem earns_job (job : Job) : (copies owner).Earns [] (job.code ext settings)
    fun a => digests owner a.accepted := by
  cases job with
  | upload => exact .bind (earns_uploadDocument _) fun _ => .pure (.refl _)
  | uploadBatch =>
    exact .bind (.bind (earns_uploadBatchItems _) fun rs => .pure (.refl _)) fun _ => .pure (.refl _)
  | _ => exact .bind (.idle _) fun _ => .pure (.refl _)

end

section

variable {ext : External} {settings : Settings} {tenantId : Uuid} {file : UploadFile}
  {l : Log api}

/-- An INSERT for the content was refused by a constraint, after the tenant had been found. -/
def RefusedInsert (tenantId : Uuid) (sha : Str) (l : Log api) : Prop :=
  (∃ t, ⟨.getTenant tenantId, .ok (some t)⟩ ∈ l) ∧
    ∃ d, d.tenantId = tenantId ∧ d.contentSha256 = sha ∧ ⟨.insertDocument d, .error .integrity⟩ ∈ l

def Call.Submits : Call → Prop
  | .getTenant _ | .sumSizeBytes _ | .insertDocument _ | .rollback | .delay _ | .commit _ => True
  | _ => False

/-- None of these statements raises the error of a duplicate itself. -/
def Plain (l : Log api) : Prop := ∀ c : Call, ⟨c, .error .duplicateDocument⟩ ∉ l

theorem Plain.left {l' : Log api} (h : Plain (l ++ l')) : Plain l :=
  fun c hc => h c (List.mem_append_left _ hc)

theorem Plain.right {l' : Log api} (h : Plain (l ++ l')) : Plain l' :=
  fun c hc => h c (List.mem_append_right _ hc)

theorem refused_insert {d : NewDocument} (hl : Plain l)
    (h : Done (IngestionService.insert d) l (.error .duplicateDocument)) :
    ⟨.insertDocument d, .error .integrity⟩ ∈ l := by
  rcases done_tryCatch.mp h with ⟨a, -, ha⟩ | ⟨l₁, l₂, e, rfl, h₁, h₂⟩
  · cases ha
  · obtain rfl := done_perform.mp h₁
    cases e with
    | integrity => exact List.mem_append_left _ (List.mem_singleton_self _)
    | duplicateDocument => exact absurd (List.mem_append_left _ (List.mem_singleton_self _)) (hl _)
    | _ => cases (done_throw.mp h₂).2

theorem done_checkQuota {svc : IngestionService} {raw : Bytes} (hl : Plain l) :
    ¬ Done (svc.checkQuota tenantId raw) l (.error .duplicateDocument) := by
  intro h
  unfold IngestionService.checkQuota at h
  split at h
  · rcases done_bind.mp h with ⟨l₁, l₂, used, rfl, -, h₂⟩ | ⟨e, h₁, he⟩
    · split at h₂
      · cases (done_throw.mp h₂).2
      · cases (done_pure.mp h₂).2
    · cases he
      obtain rfl := done_perform.mp h₁
      exact hl _ (List.mem_singleton_self _)
  · cases (done_pure.mp h).2

theorem refused_register {svc : IngestionService} {filename : Str} {raw : Bytes}
    {sourceType : DocumentSourceType} (hl : Plain l)
    (h : Done (svc.register ext tenantId filename raw sourceType) l (.error .duplicateDocument)) :
    RefusedInsert tenantId (ext.sha256 raw) l := by
  rcases done_bind.mp h with ⟨l₁, l₂, tenant, rfl, h₁, h₂⟩ | ⟨e, h₁, he⟩
  · obtain rfl := done_perform.mp h₁
    cases tenant with
    | none => cases (done_throw.mp h₂).2
    | some t =>
      rcases done_bind.mp h₂ with ⟨l₂, l₃, -, rfl, -, h₃⟩ | ⟨e, h₂, he⟩
      · rcases done_bind.mp h₃ with ⟨l₃, l₄, row, rfl, -, h₄⟩ | ⟨e, h₃, he⟩
        · cases (done_pure.mp h₄).2
        · cases he
          have hins := refused_insert hl.right.right h₃
          exact ⟨⟨t, List.mem_append_left _ (List.mem_singleton_self _)⟩, _, rfl, rfl,
            List.mem_append_right _ (List.mem_append_right _ hins)⟩
      · cases he
        exact absurd h₂ (done_checkQuota hl.right)
  · cases he
    obtain rfl := done_perform.mp h₁
    exact absurd (List.mem_singleton_self _) (hl _)

theorem done_enqueue {document : Instance} (hl : Plain l) :
    ¬ Done (enqueue document) l (.error .duplicateDocument) := by
  intro h
  rcases done_tryCatch.mp h with ⟨a, -, ha⟩ | ⟨l₁, l₂, e, rfl, -, h₂⟩
  · cases ha
  · rcases done_bind.mp h₂ with ⟨l₂, l₃, -, rfl, -, h₃⟩ | ⟨e, h₂, he⟩
    · cases (done_throw.mp h₃).2
    · cases he
      obtain rfl := done_perform.mp h₂
      exact hl.right _ (List.mem_singleton_self _)

theorem refused_uploadDocument (hl : Plain l)
    (h : Done (uploadDocument ext settings tenantId file) l (.error .duplicateDocument)) :
    RefusedInsert tenantId (ext.sha256 file.raw) l := by
  rcases done_bind.mp h with ⟨l₁, l₂, sourceType, rfl, -, h₂⟩ | ⟨e, h₁, he⟩
  · rcases done_bind.mp h₂ with ⟨l₂, l₃, -, rfl, -, h₃⟩ | ⟨e, h₂, he⟩
    · rcases done_bind.mp h₃ with ⟨l₃, l₄, document, rfl, -, h₄⟩ | ⟨e, h₃, he⟩
      · rcases done_bind.mp h₄ with ⟨l₄, l₅, -, rfl, -, h₅⟩ | ⟨e, h₄, he⟩
        · cases (done_pure.mp h₅).2
        · cases he
          exact absurd h₄ (done_enqueue hl.right.right.right)
      · cases he
        obtain ⟨⟨t, ht⟩, d, htenant, hsha, hd⟩ := refused_register hl.right.right h₃
        exact ⟨⟨t, List.mem_append_right _ (List.mem_append_right _ ht)⟩, d, htenant, hsha,
          List.mem_append_right _ (List.mem_append_right _ hd)⟩
    · cases he
      unfold checkSize at h₂
      split at h₂
      · cases (done_throw.mp h₂).2
      · cases (done_pure.mp h₂).2
  · cases he
    cases hsource : sourceTypeForFilename (file.name []) with
    | ok sourceType =>
      rw [hsource] at h₁
      cases (Async.Replays.ret h₁).2
    | error e =>
      rw [hsource] at h₁
      obtain rfl := Except.error.inj (Async.ret.inj (Async.Replays.ret h₁).2)
      simp only [sourceTypeForFilename] at hsource
      split at hsource
      · cases hsource
      · cases hsource

theorem submits_uploadDocument :
    OnlyE Call.Submits (uploadDocument ext settings tenantId file) := by
  refine .bind (only_ofExcept _) fun sourceType => .bind ?_ fun _ => .bind ?_ fun document =>
    .bind ?_ fun _ => .pure _
  · unfold checkSize
    split
    · exact .throw _
    · exact .pure _
  · refine .bind (only_perform trivial) fun tenant => ?_
    split
    · exact .throw _
    · refine .bind ?_ fun _ => .bind (.tryCatch (only_perform trivial) fun e => ?_) fun _ => .pure _
      · unfold IngestionService.checkQuota
        split
        · refine .bind (only_perform trivial) fun used => ?_
          split
          · exact .throw _
          · exact .pure _
        · exact .pure _
      · split
        · exact .bind (only_perform trivial) fun _ => .throw _
        · exact .throw _
  · exact .tryCatch (only_perform trivial) fun _ => .bind (only_perform trivial) fun _ => .throw _

theorem commit_raises {db : Database} {t : Txn} {skip : Nat} {e : Exn}
    (h : db.commit t skip = .error e) : e = .data ∨ e = .staleData ∨ e = .integrity := by
  cases hu : db.update t.document.loaded.id t.document.patch with
  | error e' =>
    simp only [Database.commit, hu, bind, Except.bind, Except.error.injEq] at h
    subst h
    simp only [Database.update] at hu
    split at hu
    · cases hu
    · split at hu
      · exact .inl (Except.error.inj hu).symm
      · split at hu
        · exact .inr (.inl (Except.error.inj hu).symm)
        · cases hu
  | ok db₁ =>
    simp only [Database.commit, hu, bind, Except.bind, Database.replaceChunks] at h
    split at h
    · split at h
      · cases h
      · exact .inr (.inr (Except.error.inj h).symm)
    · exact .inl (Except.error.inj h).symm

theorem exec_plain {o : Oracle} {c : Call} {w : World} (hc : c.Submits) :
    (exec o c w).2 ≠ .error .duplicateDocument := by
  intro h
  rcases exec_cases o c w with he | ⟨name, he, -⟩
  · rw [he] at h
    cases c with
    | insertDocument d =>
      simp only [serve] at h
      cases hinsert : w.db.insertDocument (d.row o.uuid o.now) with
      | ok db =>
        rw [hinsert] at h
        cases h
      | error e =>
        rw [hinsert] at h
        obtain rfl := Except.error.inj h
        simp only [Database.insertDocument] at hinsert
        split at hinsert
        · split at hinsert
          · cases hinsert
          · cases hinsert
        · cases hinsert
    | commit t =>
      simp only [serve] at h
      cases hcommit : w.db.commit t o.skip with
      | ok db =>
        rw [hcommit] at h
        cases h
      | error e =>
        rw [hcommit] at h
        obtain rfl := Except.error.inj h
        rcases commit_raises hcommit with hd | hd | hd <;> cases hd
    | getTenant | sumSizeBytes | rollback | delay => cases h
    | _ => exact absurd hc id
  · rw [he] at h
    cases h

end

section

variable {ι : Type} [DecidableEq ι] (ext : External) (settings : Settings) (w : World)
  (acts : List (Act ι))

/-- The rows of the tenant stay, and ids are new when they are handed out. -/
def Preserving (tenantId : Uuid) (l : Log api) (o : Oracle) (c : Call) (w : World) : Prop :=
  Undeleted tenantId l o c w ∧ Call.Fresh o w c

variable {ext settings w acts}

theorem tenants_run (es : List (Event api Oracle ι (Except Exn Outcome))) :
    ((Pool.init w : Platform ι).run exec es).state.db.tenants = w.db.tenants :=
  Pool.state_run (R := ⟨fun _ _ _ => True, fun _ _ _ _ => True⟩)
    (I := fun t : World => t.db.tenants = w.db.tenants)
    (fun _ o c t _ ht => (tenants_exec o c t).trans ht)
    (Pool.obeys_of_forall exec (fun _ _ _ _ => trivial) fun _ _ _ _ => trivial) rfl

theorem tenant_of_getTenant {o : Oracle} {tenantId : Uuid} {x : Tenant} {t : World}
    (h : (exec o (.getTenant tenantId) t).2 = .ok (some x)) :
    ∃ x ∈ t.db.tenants, x.id = tenantId := by
  rcases exec_cases o (.getTenant tenantId) t with he | ⟨name, he, -⟩
  · rw [he] at h
    have hfind : t.db.tenants.find? (·.id = tenantId) = some x := Except.ok.inj h
    exact ⟨x, List.mem_of_find?_eq_some hfind, by simpa using List.find?_some hfind⟩
  · rw [he] at h
    cases h

theorem registered_of_refused {o : Oracle} {d : NewDocument} {t : World}
    (hfresh : Call.Fresh o t (.insertDocument d)) (htenant : ∃ x ∈ t.db.tenants, x.id = d.tenantId)
    (h : (exec o (.insertDocument d) t).2 = .error .integrity) :
    Registered d.tenantId d.contentSha256 t.db := by
  rcases exec_cases o (.insertDocument d) t with he | ⟨name, he, -⟩
  · rw [he] at h
    simp only [serve] at h
    cases hinsert : t.db.insertDocument (d.row o.uuid o.now) with
    | ok db =>
      rw [hinsert] at h
      cases h
    | error e =>
      rw [hinsert] at h
      obtain rfl := Except.error.inj h
      simp only [Database.insertDocument] at hinsert
      split at hinsert
      · split at hinsert
        · cases hinsert
        · next hfits =>
          by_contra hnone
          refine hfits ⟨hfresh, htenant, fun e he hkey => hnone ⟨e.id, e, ?_, ?_, ?_⟩⟩
          · exact Database.document_eq_some.mpr ⟨he, rfl⟩
          · exact (Prod.mk.inj hkey).1
          · exact (Prod.mk.inj hkey).2
      · cases hinsert
  · rw [he] at h
    cases h

variable {tenantId : Uuid} {i j : ι}

theorem held_platform (hguard : Guarded ext settings w acts (Preserving tenantId)) :
    (platform ext settings w acts).Held (copies tenantId) :=
  (Pool.Held.init w).run (R := rules ext settings (Preserving tenantId))
    (fair_copies fun _ _ _ _ h => h.1) hguard

theorem digests_sublist {a : Outcome} (h : Returned ext settings w acts i (.ok a)) :
    (digests tenantId a.accepted).Sublist
      ((copies tenantId).winnings ((platform ext settings w acts).logOf i)) := by
  obtain ⟨l, out, ht⟩ := h
  have hheeds := Pool.heeds_thread (R := rules ext settings fun _ _ _ _ => True)
    (G := fun _ _ => True) (Q := fun l' r => [] <+: l' ∧ ∀ a, r = .ok a →
      (digests tenantId a.accepted).Sublist ((copies tenantId).winnings l'))
    (fun i p s hp => by
      obtain ⟨job, rfl⟩ := hp
      exact earns_job job [] (List.nil_sublist _))
    (fun _ => rfl) (guarded_true w acts) ht
  rw [Pool.logOf_eq ht]
  exact hheeds.2 a rfl

theorem registered_of_refused_upload {file : UploadFile}
    (hguard : Guarded ext settings w acts (Preserving tenantId))
    (hjob : ∀ job, .start i job ∈ acts → job = .upload tenantId file)
    (h : Returned ext settings w acts i (.error .duplicateDocument)) :
    Registered tenantId (ext.sha256 file.raw) (after ext settings w acts).db := by
  obtain ⟨l, out, ht⟩ := h
  obtain ⟨job, hstart, hreplays⟩ := replays_started ht
  obtain rfl := hjob job hstart
  -- what the log of the job says
  have hdone : Done (uploadDocument ext settings tenantId file) l (.error .duplicateDocument) := by
    rcases done_bind.mp hreplays with ⟨l₁, l₂, a, rfl, -, h₂⟩ | ⟨e, h₁, he⟩
    · cases (done_pure.mp h₂).2
    · cases he
      exact h₁
  have hplain : Plain l := by
    intro c hc
    obtain ⟨before, o, after, l', out', k, -, -, hx⟩ := exists_step ht hc
    exact exec_plain (submits_uploadDocument.log hdone _ hc) hx.symm
  obtain ⟨⟨x, hfound⟩, d, rfl, hsha, hrefused⟩ := refused_uploadDocument hplain hdone
  -- what the surroundings have answered
  obtain ⟨before₁, o₁, -, -, -, -, -, -, hx₁⟩ := exists_step ht hfound
  obtain ⟨before, o, after', l', out', k, hes, hk, hx⟩ := exists_step ht hrefused
  have htenant : ∃ x ∈ ((Pool.init w : Platform ι).run exec before).state.db.tenants,
      x.id = d.tenantId := by
    rw [tenants_run]
    have hthen := tenant_of_getTenant hx₁.symm
    rwa [tenants_run] at hthen
  rw [Guarded, hes, Pool.obeys_append] at hguard
  have hstep : Preserving d.tenantId l' o (.insertDocument d)
      ((Pool.init w : Platform ι).run exec before).state := by
    have hallows := hguard.2.1
    simp only [Pool.Allows, hk] at hallows
    exact hallows
  have hthere := registered_of_refused hstep.2 htenant hx.symm
  rw [hsha] at hthere
  have hafter := Pool.state_run (R := rules ext settings (Preserving d.tenantId))
    (I := fun t : World => Registered d.tenantId (ext.sha256 file.raw) t.db)
    (fun _ _ _ _ hok ht => registered_exec hok.1 ht) hguard.2 hthere
  rw [after, platform, hes, Pool.run_append]
  exact hafter

/-- Of all uploads of one content, one at most is accepted, and none is refused as a duplicate
where there is nothing it duplicates. -/
theorem accepted_once (hguard : Guarded ext settings w acts (Preserving tenantId)) :
    (∀ i a, Returned ext settings w acts i (.ok a) → (digests tenantId a.accepted).Nodup ∧
      ∀ sha ∈ digests tenantId a.accepted, Registered tenantId sha (after ext settings w acts).db) ∧
    (∀ i j a b, i ≠ j → Returned ext settings w acts i (.ok a) →
      Returned ext settings w acts j (.ok b) →
        (digests tenantId a.accepted).Disjoint (digests tenantId b.accepted)) ∧
    ∀ i file, (∀ job, .start i job ∈ acts → job = .upload tenantId file) →
      Returned ext settings w acts i (.error .duplicateDocument) →
        Registered tenantId (ext.sha256 file.raw) (after ext settings w acts).db := by
  have hheld := held_platform hguard
  refine ⟨fun i a h => ⟨?_, fun sha hsha => ?_⟩, fun i j a b hij ha hb sha hsha hsha' => ?_,
    fun i file hjob h => registered_of_refused_upload hguard hjob h⟩
  · exact hheld.nodup.sublist (digests_sublist h)
  · exact hheld.gone ((digests_sublist h).subset hsha)
  · exact hij (hheld.owner ((digests_sublist ha).subset hsha) ((digests_sublist hb).subset hsha'))

end

namespace Sample

/-- All three find the tenant before any of them inserts. -/
def twins : List (Act Nat) :=
  [.start 0 (.upload tenantId note), .start 1 (.uploadBatch tenantId [note, other]),
    .start 2 (.upload tenantId note), .answer 0 oracle, .answer 1 oracle, .answer 2 oracle] ++
  List.replicate 3 (.answer 0 oracle) ++ List.replicate 3 (.answer 2 later) ++
  List.replicate 8 (.answer 1 later)

def preserves (_ : Log api) (o : Oracle) (c : Call) (w : World) : Bool :=
  match c with
  | .insertDocument _ => o.uuid ∉ w.db.issued.map Prod.fst
  | .deleteDocument _ => false
  | _ => true

theorem accepted_once_twins : ∃ a b, Returned ext {} world twins 0 (.ok a) ∧
    Returned ext {} world twins 1 (.ok b) ∧
      Returned ext {} world twins 2 (.error .duplicateDocument) ∧
        (digests tenantId a.accepted).Disjoint (digests tenantId b.accepted) ∧
          Registered tenantId (sha256 note.raw) (after ext {} world twins).db := by
  have hguard : Guarded ext {} world twins (Preserving tenantId) := by
    refine guarded_of_checks preserves (fun _ _ c _ hc => ⟨fun id h => ?_, ?_⟩) rfl
    · subst h
      cases hc
    · cases c with
      | insertDocument d => simpa [preserves, Call.Fresh] using hc
      | _ => trivial
  obtain ⟨-, hapart, hrefused⟩ := accepted_once hguard
  have hjob (job : Job) (h : .start 2 job ∈ twins) : job = .upload tenantId note := by
    simpa [twins] using h
  refine ⟨_, _, ⟨_, _, rfl⟩, ⟨_, _, rfl⟩, ⟨_, _, rfl⟩, ?_, ?_⟩
  · exact hapart 0 1 _ _ (by decide) ⟨_, _, rfl⟩ ⟨_, _, rfl⟩
  · exact hrefused 2 note hjob ⟨_, _, rfl⟩

end Sample

end RagPlatform
