import RagPlatform.SystemLaws

/-! The storage quota of one tenant. -/

namespace RagPlatform

open Lib

/-- What the latest SUM over the tenant's rows answered this job. -/
def lastSum (tenantId : Uuid) (l : Log api) : Option Nat :=
  l.foldl (fun last x => match x with
    | ⟨.sumSizeBytes id, .ok used⟩ => if id = tenantId then some used else last
    | _ => last) none

/-- Since the SUM that let this upload pass, the tenant's total has not grown. -/
def sumStands (tenantId : Uuid) (l : Log api) : Call → World → Prop
  | .insertDocument d, w => d.tenantId = tenantId →
      ∀ used, lastSum tenantId l = some used → w.db.usedBytes tenantId ≤ used
  | _, _ => True

instance (tenantId : Uuid) (l : Log api) :
    (c : Call) → (w : World) → Decidable (sumStands tenantId l c w)
  | .insertDocument d, w =>
    match h : lastSum tenantId l with
    | none => .isTrue fun _ used hused => by rw [h] at hused; cases hused
    | some used => decidable_of_iff (d.tenantId = tenantId → w.db.usedBytes tenantId ≤ used)
        (by simp [sumStands, h])
  | .commit _, _ | .getTenant _, _ | .sumSizeBytes _, _ | .getDocument _, _ | .deleteChunks _, _
  | .rollback, _ | .deleteDocument _, _ | .embedDocuments _, _ | .delay _, _ | .time, _
  | .loopTime, _ | .sleep _, _ | .isDisconnected, _ | .getCredential _, _ | .incr _, _
  | .expire .., _ | .countDocuments _, _ | .listDocuments .., _ | .embedQuery _, _
  | .denseSearch .., _ | .keywordSearch .., _ | .rerank .., _ | .generate _, _ | .stream _, _
  | .insertUsage _, _ | .usageRollup .., _ | .findTenant _, _ | .findCredential _, _
  | .insertCredential _, _ | .commitCredential _, _ => .isTrue trivial

theorem lastSum_sum (tenantId : Uuid) (l : Log api) (used : Nat) :
    lastSum tenantId (l ++ [⟨.sumSizeBytes tenantId, .ok used⟩]) = some used := by
  simp [lastSum, List.foldl_append]

theorem usedBytes_commit {db db' : Database} {txn : Txn} {skip : Nat}
    (h : db.commit txn skip = .ok db') (tenantId : Uuid) :
    db'.usedBytes tenantId = db.usedBytes tenantId := by
  obtain ⟨db₁, hu, hr⟩ := commit_ok h
  obtain ⟨-, ha, rfl⟩ := Database.replaceChunks_ok hr
  rw [Database.usedBytes_replace]
  rcases Database.update_ok hu with ⟨-, rfl⟩ | ⟨-, -, -, rfl⟩
  · rfl
  · exact Database.usedBytes_patch tenantId

section

variable (settings : Settings) (tenantId : Uuid)

def WithinQuota (w : World) : Prop :=
  (w.db.usedBytes tenantId : Int) ≤ settings.maxTenantStorageBytes

def quota : Contract api World Oracle where
  inv w := WithinQuota settings tenantId w
  rely _ _ := True
  guar _ _ := True
  step l _ := sumStands tenantId l
  rely_refl _ := trivial
  rely_trans _ _ := trivial

end

section

variable {ext : External} {settings : Settings} {tenantId : Uuid}

theorem Effect.withinQuota {o : Oracle} {c : Call} {w w' : World}
    (he : Effect o w.db c w'.db) (h : WithinQuota settings tenantId w)
    (hc : ∀ d, c = .insertDocument d → d.tenantId = tenantId →
      (w.db.usedBytes tenantId : Int) + d.sizeBytes ≤ settings.maxTenantStorageBytes) :
    WithinQuota settings tenantId w' := by
  unfold WithinQuota at h ⊢
  generalize w'.db = db' at he
  cases he with
  | same => exact h
  | commit hc => rw [usedBytes_commit hc]; exact h
  | @delete id =>
    have hle : (w.db.deleteDocument id).usedBytes tenantId ≤ w.db.usedBytes tenantId :=
      Database.usedBytes_deleteDocument tenantId
    omega
  | @insert d hf _ =>
    rw [Database.usedBytes_add]
    by_cases ht : d.tenantId = tenantId
    · have := hc d rfl ht
      simp only [NewDocument.row, ht, if_true]
      omega
    · simpa [NewDocument.row, ht] using h

theorem quota_call {c : Call} (hc : ∀ d, c ≠ .insertDocument d) (o : Oracle) (t : World)
    (ht : WithinQuota settings tenantId t) : WithinQuota settings tenantId (exec o c t).1 :=
  (exec_effect o c t).withinQuota ht fun d hd => absurd hd (hc d)

theorem quota_keeps_read {c : Call} (hc : ∀ d, c ≠ .insertDocument d) :
    Keeps exec (quota settings tenantId) (fun _ => True) (perform c) :=
  keeps_perform (fun _ _ => trivial) fun _ o t ht _ => ⟨quota_call hc o t ht, trivial⟩

theorem quota_commits {txn : Txn} {t : World} (ht : WithinQuota settings tenantId t) :
    Commits (quota settings tenantId) txn t (fun _ => True) fun _ => True := by
  refine fun l o _ => ⟨⟨trivial, ht, trivial⟩, fun db hc => ⟨?_, trivial, trivial, fun _ _ => trivial⟩⟩
  change ((db.usedBytes tenantId : Nat) : Int) ≤ _
  rw [usedBytes_commit hc]
  exact ht

theorem quota_insert {d : NewDocument} {s : World} {l : Log api}
    (hd : d.tenantId = tenantId → ∃ used, lastSum tenantId l = some used ∧
      (used : Int) + d.sizeBytes ≤ settings.maxTenantStorageBytes) :
    wpE exec (quota settings tenantId) (fun _ _ _ => True) (IngestionService.insert d) s l := by
  refine wpE_tryCatch (wpE_perform fun t _ ht => ⟨trivial, fun o ho => ⟨?_, trivial, ?_⟩⟩)
  · refine (exec_effect o _ t).withinQuota ht fun d' hd' ht' => ?_
    cases hd'
    obtain ⟨used, hlast, hle⟩ := hd ht'
    have hstands : t.db.usedBytes tenantId ≤ used := ho ht' used hlast
    omega
  · intro u _ _
    cases (exec o (.insertDocument d) t).2 with
    | ok row => exact wpE_pure fun _ _ _ => trivial
    | error e =>
      simp only [afterTry]
      split
      · have hread : Keeps exec (quota settings tenantId) (fun _ => True) (do
            perform .rollback
            raise .duplicateDocument : Io Document) :=
          .bind (quota_keeps_read fun _ h => by cases h) fun _ _ => .throw _
        exact wpE_mono (hread u _) fun _ _ _ _ _ => trivial
      · exact wpE_throw fun _ _ _ => trivial

theorem quota_checkQuota (hlimit : 0 < settings.maxTenantStorageBytes) (id : Uuid) (raw : Bytes)
    (s : World) (l : Log api) :
    wpE exec (quota settings tenantId) (fun r _ l' => r = .ok () → id = tenantId →
      ∃ used, lastSum tenantId l' = some used ∧
        (used : Int) + raw.length ≤ settings.maxTenantStorageBytes)
      ((apiIngestionService settings).checkQuota id raw) s l := by
  simp only [IngestionService.checkQuota, apiIngestionService, gt_iff_lt, hlimit, if_true]
  refine wpE_perform_bind fun t _ ht => ⟨trivial, fun o _ =>
    ⟨quota_call (fun _ h => by cases h) o t ht, trivial, ?_⟩⟩
  cases hr : (exec o (.sumSizeBytes id) t).2 with
  | error e => exact wpE_throw fun _ _ _ hok => by cases hok
  | ok used =>
    simp only [afterBind]
    split
    · exact wpE_throw fun _ _ _ hok => by cases hok
    · next hle =>
      refine wpE_pure fun _ _ _ _ hid => ⟨used, ?_, by omega⟩
      subst hid
      exact lastSum_sum id l used

theorem quota_register (hlimit : 0 < settings.maxTenantStorageBytes) (id : Uuid) (filename : Str)
    (raw : Bytes) (sourceType : DocumentSourceType) :
    Keeps exec (quota settings tenantId) (fun _ => True)
      ((apiIngestionService settings).register ext id filename raw sourceType) := by
  refine .bind (quota_keeps_read fun _ h => by cases h) fun tenant _ => ?_
  split
  · exact .throw _
  · refine fun s l => wpE_mono (E := fun _ _ _ => True) ?_ fun _ _ _ _ _ _ _ => trivial
    refine wpE_bind (wpE_mono (quota_checkQuota hlimit id raw s l) fun r t l' _ hr => ?_)
    cases r with
    | error e => exact wpE_throw fun _ _ _ => trivial
    | ok u =>
      refine wpE_bind (wpE_mono (quota_insert fun hid => hr rfl hid) fun r t l' _ _ => ?_)
      cases r with
      | error e => exact wpE_throw fun _ _ _ => trivial
      | ok row => exact wpE_pure fun _ _ _ => trivial

theorem quota_api (hlimit : 0 < settings.maxTenantStorageBytes) :
    ApiProof (quota settings tenantId) ext settings fun _ => True where
  guar_refl _ := trivial
  stop _ _ := trivial
  register := quota_register hlimit
  fail _ _ _ _ ht := quota_commits ht
  delay _ o _ t ht _ := ⟨quota_call (fun _ h => by cases h) o t ht, trivial⟩
  meter _ o _ t ht _ := ⟨quota_call (fun _ h => by cases h) o t ht, trivial⟩
  delete _ o _ t ht _ := ⟨quota_call (fun _ h => by cases h) o t ht, trivial⟩

theorem quota_worker (retries : Nat) (documentId : Uuid) :
    Keeps exec (quota settings tenantId) (fun _ => True)
      (ingestDocument ext settings retries documentId) :=
  keeps_ingestDocument
    (.of_wpE fun _ _ => ⟨_, (ProcessProof.of_commits (fun _ => trivial) (fun _ _ => trivial)
      fun _ _ => quota_commits).wpE_process trivial⟩)
    fun _ => keeps_markFailed (fun _ _ => trivial) (fun _ => trivial)
      fun _ _ _ _ _ _ hu => quota_commits hu

/-- A tenant within its quota stays within it as long as uploads commit on a SUM that stands. -/
theorem quota_holds {ι : Type} [DecidableEq ι] {w : World} {acts : List (Act ι)}
    (hlimit : 0 < settings.maxTenantStorageBytes)
    (hw : (w.db.usedBytes tenantId : Int) ≤ settings.maxTenantStorageBytes)
    (h : Guarded ext settings w acts fun l _ => sumStands tenantId l) :
    ((after ext settings w acts).db.usedBytes tenantId : Int) ≤ settings.maxTenantStorageBytes :=
  run_inv (K := quota settings tenantId) ((quota_api hlimit).keeps_job quota_worker) (fun h => h)
    (fun _ _ _ _ h => h) hw h

end

namespace Sample

def tight : Settings := { maxTenantStorageBytes := 4 }

/-- Both uploads take their SUM before either of them commits. -/
def racing : List (Act Nat) :=
  whole 0 2 (.upload tenantId note) ++
    [.start 1 (.upload tenantId other), .answer 1 oracle, .answer 1 oracle,
      .answer 1 { oracle with uuid := ⟨8⟩ }, .answer 0 oracle]

def anotherOracle : Oracle := { oracle with uuid := ⟨8⟩ }

/-- The second upload takes its SUM once the first one has committed; a third is refused, and the
first document is deleted. -/
def sharing : List (Act Nat) :=
  [.start 0 (.upload tenantId note), .start 1 (.upload tenantId other), .answer 0 oracle,
    .answer 1 anotherOracle, .answer 0 oracle, .answer 0 oracle, .answer 1 anotherOracle,
    .start 2 (.delete tenantId documentId), .answer 2 oracle, .answer 1 anotherOracle,
    .answer 0 oracle, .answer 1 anotherOracle] ++
  whole 3 2 (.upload tenantId broken) ++ [.answer 2 oracle]

def roomy : Settings := { maxTenantStorageBytes := 6 }

end Sample

theorem quota_holds_sharing :
    (after Sample.ext Sample.roomy Sample.world (Sample.sharing.take 14)).db.usedBytes
        Sample.tenantId = 6 ∧
      (after Sample.ext Sample.roomy Sample.world Sample.sharing).db.usedBytes Sample.tenantId = 3 ∧
      ((after Sample.ext Sample.roomy Sample.world Sample.sharing).db.usedBytes
        Sample.tenantId : Int) ≤ Sample.roomy.maxTenantStorageBytes :=
  ⟨by decide +kernel, by decide +kernel, quota_holds (by decide) (by decide) (guarded_of_checks
    (fun l _ c w => decide (sumStands Sample.tenantId l c w))
    (fun _ _ _ _ h => of_decide_eq_true h) (by decide +kernel))⟩

theorem racing_uploads_exceed_quota :
    (Sample.world.db.usedBytes Sample.tenantId : Int) ≤ Sample.tight.maxTenantStorageBytes ∧
      ¬ ((after Sample.ext Sample.tight Sample.world Sample.racing).db.usedBytes Sample.tenantId :
        Int) ≤ Sample.tight.maxTenantStorageBytes := by
  decide

end RagPlatform
