import RagPlatform.SystemLaws

/-! How long a terminal status lasts. -/

namespace RagPlatform

open Lib

/-- The flushed row was not settled when it was loaded, unless the session left its status alone,
and it has not been settled otherwise since then. -/
def Txn.Orderly (t : Txn) (db : Database) : Prop :=
  (t.document.loaded.status.terminal → t.document.current.status = t.document.loaded.status) ∧
    ∀ d, db.document t.document.loaded.id = some d → d.status.terminal →
      d.status = t.document.loaded.status ∨ d.status = t.document.current.status

instance (t : Txn) (db : Database) : Decidable (t.Orderly db) :=
  match h : db.document t.document.loaded.id with
  | none => decidable_of_iff (t.document.loaded.status.terminal →
      t.document.current.status = t.document.loaded.status) (by simp [Txn.Orderly, h])
  | some d => decidable_of_iff ((t.document.loaded.status.terminal →
      t.document.current.status = t.document.loaded.status) ∧ (d.status.terminal →
      d.status = t.document.loaded.status ∨ d.status = t.document.current.status))
      (by simp [Txn.Orderly, h])

def orderly : Call → World → Prop
  | .commit t, w => t.Orderly w.db
  | _, _ => True

instance : (c : Call) → (w : World) → Decidable (orderly c w)
  | .commit t, w => inferInstanceAs (Decidable (t.Orderly w.db))
  | .getTenant _, _ | .sumSizeBytes _, _ | .insertDocument _, _ | .getDocument _, _
  | .deleteChunks _, _ | .rollback, _ | .deleteDocument _, _ | .embedDocuments _, _
  | .delay _, _ | .time, _ | .loopTime, _ | .sleep _, _ | .isDisconnected, _ | .getCredential _, _
  | .incr _, _ | .expire .., _ | .countDocuments _, _ | .listDocuments .., _ | .embedQuery _, _
  | .denseSearch .., _ | .keywordSearch .., _ | .rerank .., _ | .generate _, _ | .stream _, _
  | .insertUsage _, _ | .usageRollup .., _ | .findTenant _, _ | .findCredential _, _
  | .insertCredential _, _ | .commitCredential _, _ => .isTrue trivial

structure Settled (db db' : Database) : Prop extends db.Grows db' where
  status : ∀ id d d', db.document id = some d → db'.document id = some d' →
    d.status.terminal → d'.status = d.status

namespace Settled

variable {db db' db'' : Database}

theorem refl (db : Database) : Settled db db where
  toGrows := .refl db
  status id d d' hd hd' _ := by rw [Option.some.inj (hd.symm.trans hd')]

theorem trans (h : Settled db db') (h' : Settled db' db'') : Settled db db'' where
  toGrows := h.toGrows.trans h'.toGrows
  status id d d'' hd hd'' hterm := by
    obtain ⟨d', hd'⟩ := h'.gone' (h.issued' (Database.issued_of_document hd)) hd''
    have hs := h.status id d d' hd hd' hterm
    rw [h'.status id d' d'' hd' hd'' (hs ▸ hterm), hs]

end Settled

theorem Txn.Orderly.status {t : Txn} {db : Database} (h : t.Orderly db) {d : Document}
    (hd : db.document t.document.loaded.id = some d) (hterm : d.status.terminal) :
    (t.document.patch.apply d).status = d.status := by
  simp only [Patch.apply, Instance.patch]
  split
  · rfl
  · next hne =>
    rcases h.2 d hd hterm with hl | hc
    · exact absurd (h.1 (hl ▸ hterm)).symm hne
    · exact hc.symm

theorem Effect.settled {o : Oracle} {c : Call} {db db' : Database} (h : Effect o db c db')
    (horderly : ∀ t, c = .commit t → t.Orderly db) : Settled db db' := by
  refine ⟨h.grows, fun id d d' hd hd' hterm => ?_⟩
  cases h with
  | same => rw [Option.some.inj (hd.symm.trans hd')]
  | insert hf _ =>
    rw [Database.document_add] at hd'
    split at hd'
    · next hid => exact absurd (hid ▸ Database.issued_of_document hd) hf.1
    · rw [Option.some.inj (hd.symm.trans hd')]
  | commit hc =>
    rw [document_commit hc, hd] at hd'
    split at hd'
    · next hid =>
      rw [← Option.some.inj hd']
      exact (horderly _ rfl).status (hid ▸ hd) hterm
    · rw [Option.some.inj hd']
  | delete =>
    rw [Database.document_deleteDocument, hd] at hd'
    split at hd'
    · simp at hd'
    · rw [Option.some.inj hd']

def settling : Contract api World Oracle where
  inv _ := True
  rely t u := Settled t.db u.db
  guar t u := Settled t.db u.db
  step _ _ c w := orderly c w
  rely_refl t := .refl t.db
  rely_trans h h' := h.trans h'

def justLoaded (l : Log api) : Option DocumentStatus :=
  match l.getLast? with
  | some ⟨.getDocument _, .ok (some row)⟩ => some row.status
  | _ => none

/-- A delivery does not go on from a row that it loaded as failed, `mark_failed` not from one that
it loaded as completed (a delivery opens with the load of `process`, that of `mark_failed` comes
later), and nobody else has settled the row since the session last read or wrote it. -/
structure Txn.UpToDate (t : Txn) (l : Log api) (db : Database) : Prop where
  start : l.length = 1 → justLoaded l ≠ some .failed
  mark : l.length ≠ 1 → justLoaded l ≠ some .completed
  alone : ∀ d, db.document t.document.loaded.id = some d → d.status.terminal →
    d.status = t.document.loaded.status

instance (t : Txn) (l : Log api) (db : Database) : Decidable (t.UpToDate l db) :=
  decidable_of_iff ((l.length = 1 → justLoaded l ≠ some .failed) ∧
      (l.length ≠ 1 → justLoaded l ≠ some .completed) ∧
      ((db.document t.document.loaded.id).all fun d =>
        !d.status.terminal || decide (d.status = t.document.loaded.status)) = true)
    ⟨fun ⟨hstart, hmark, halone⟩ => ⟨hstart, hmark, fun d hd hterm => by
      simpa [hd, hterm] using halone⟩, fun h => ⟨h.start, h.mark, by
        cases hd : db.document t.document.loaded.id with
        | none => rfl
        | some d => cases hterm : d.status.terminal with
          | false => simp [hterm]
          | true => simpa [hterm] using h.alone d hd hterm⟩⟩

def upToDate (l : Log api) : Call → World → Prop
  | .commit t, w => t.UpToDate l w.db
  | _, _ => True

instance (l : Log api) : (c : Call) → (w : World) → Decidable (upToDate l c w)
  | .commit t, w => inferInstanceAs (Decidable (t.UpToDate l w.db))
  | .getTenant _, _ | .sumSizeBytes _, _ | .insertDocument _, _ | .getDocument _, _
  | .deleteChunks _, _ | .rollback, _ | .deleteDocument _, _ | .embedDocuments _, _
  | .delay _, _ | .time, _ | .loopTime, _ | .sleep _, _ | .isDisconnected, _ | .getCredential _, _
  | .incr _, _ | .expire .., _ | .countDocuments _, _ | .listDocuments .., _ | .embedQuery _, _
  | .denseSearch .., _ | .keywordSearch .., _ | .rerank .., _ | .generate _, _ | .stream _, _
  | .insertUsage _, _ | .usageRollup .., _ | .findTenant _, _ | .findCredential _, _
  | .insertCredential _, _ | .commitCredential _, _ => .isTrue trivial

theorem Txn.UpToDate.orderly {t : Txn} {l : Log api} {db : Database} (h : t.UpToDate l db)
    (hloaded : t.document.loaded.status.terminal →
      t.document.current.status = t.document.loaded.status) : t.Orderly db :=
  ⟨hloaded, fun d hd hterm => .inl (h.alone d hd hterm)⟩

/-- Settled rows stay, in a run of sessions that are up to date. -/
def abiding : Contract api World Oracle :=
  { settling with step := fun l _ c w => upToDate l c w }

theorem settled_exec {o : Oracle} {c : Call} {w : World} (hc : ∀ t, c ≠ .commit t) :
    Settled w.db (exec o c w).1.db :=
  (exec_effect o c w).settled fun t h => absurd h (hc t)

section

variable {ext : External} {settings : Settings} {s : World} {l : Log api}

theorem wpE_commit_abiding {E : Except Exn Unit → World → Log api → Prop} (txn : Txn)
    (hloaded : ∀ db, txn.UpToDate l db → txn.document.loaded.status.terminal →
      txn.document.current.status = txn.document.loaded.status)
    (hE : ∀ r u, E r u (l ++ [⟨.commit txn, r⟩])) :
    wpE exec abiding E (perform (.commit txn)) s l := by
  refine wpE_perform fun t _ _ => ⟨trivial, fun o ho => ⟨trivial, ?_, fun u _ _ => hE _ u⟩⟩
  refine (exec_effect o (.commit txn) t).settled fun _ h => ?_
  cases h
  exact ho.orderly (hloaded t.db ho)

theorem commits_abiding {txn : Txn} {t : World} (hloaded : txn.document.loaded.status.terminal →
      txn.document.current.status = txn.document.loaded.status) :
    Commits abiding txn t (fun _ => True) fun _ => True := by
  refine fun l o ho => ⟨⟨trivial, trivial, .refl t.db⟩, fun db hc => ?_⟩
  refine ⟨trivial, (Effect.commit (o := o) hc).settled fun _ h => ?_, trivial, fun _ _ => trivial⟩
  cases h
  exact ho.orderly hloaded

theorem keeps_commit_abiding {txn : Txn} (hloaded : txn.document.loaded.status.terminal →
      txn.document.current.status = txn.document.loaded.status) :
    Keeps exec abiding (fun _ => True) (perform (.commit txn)) :=
  fun _ _ => wpE_commit_abiding _ (fun _ _ => hloaded) fun _ _ _ _ => trivial

theorem keeps_call_abiding {c : Call} (hc : ∀ t, c ≠ .commit t) :
    Keeps exec abiding (fun _ => True) (perform c) :=
  keeps_perform (fun _ _ => trivial) fun _ _ _ _ _ => ⟨trivial, settled_exec hc⟩

/-- After the first commit of a delivery its session holds the row as `PROCESSING`. -/
theorem keeps_started (svc : IngestionService) (row : Document) (raw : Bytes) :
    Keeps exec abiding (fun _ => True)
      (tryCatch (svc.store ext (started row) raw) (IngestionService.onError (started row))) := by
  have hopen : ¬(started row).loaded.status.terminal := fun h => by cases h
  have hembed (drafts : List ChunkDraft) :
      Keeps exec abiding (fun _ => True) (svc.embedAll drafts) :=
    .of_wpE fun _ _ => ⟨_, wpE_embedAll (M := fun _ => True) (fun _ _ _ _ _ => trivial)
      (fun t => Settled.refl t.db) (fun _ _ _ => trivial) drafts trivial⟩
  refine .tryCatch (.bind (keeps_ofExcept _) fun drafts _ => .bind (hembed drafts) fun _ _ =>
    .bind (keeps_call_abiding fun _ h => by cases h) fun doomed _ => ?_) fun e =>
      .bind (keeps_call_abiding fun _ h => by cases h) fun _ _ => ?_
  · split
    · exact .throw _
    · exact .bind (keeps_commit_abiding fun h => absurd h hopen) fun _ _ => .pure trivial
  · cases e with
    | parse detail => exact .bind (keeps_commit_abiding fun h => absurd h hopen) fun _ _ => .throw _
    | _ => exact .throw _

/-- `process` goes on from an open row only: it returns a completed one, and the run has no delivery
that goes on from a failed one. -/
theorem abiding_process (svc : IngestionService) (id : Uuid) :
    wpE exec abiding (fun _ _ l => l ≠ []) (svc.process ext none id) s [] := by
  refine wpE_perform_bind fun t _ _ => ⟨trivial, fun o _ =>
    ⟨trivial, settled_exec fun _ h => (by cases h), ?_⟩⟩
  generalize (exec o (.getDocument id) t).2 = r
  generalize (exec o (.getDocument id) t).1 = u
  have hlogged : [(⟨.getDocument id, r⟩ : (c : Call) × Except Exn (Reply c))] ≠ [] := by simp
  cases r with
  | error e => exact wpE_throw fun _ _ _ => hlogged
  | ok found =>
    cases found with
    | none => exact wpE_throw fun _ _ _ => hlogged
    | some row =>
      simp only [afterBind, Option.getD_none]
      split
      · exact wpE_pure fun _ _ _ => hlogged
      · next hcompleted =>
        split
        · exact wpE_throw fun _ _ _ => hlogged
        · next raw hraw =>
          refine wp_mono (wp_log (Q := fun _ _ _ => True) ?_) fun _ _ l' _ hl' hnil => ?_
          · refine wpE_bind (wpE_bind (wpE_commit_abiding _ (fun db hdb hterm => ?_)
              fun r' v => ?_))
            · have hfailed : row.status ≠ .failed := fun h => hdb.start rfl (congrArg some h)
              have hopen : row.status.terminal = false := by
                cases hs : row.status with
                | completed => exact absurd hs hcompleted
                | failed => exact absurd hs hfailed
                | _ => rfl
              exact absurd hterm (Bool.eq_false_iff.mp hopen)
            · cases r' with
              | error e => exact wpE_throw fun _ _ _ => wpE_throw fun _ _ _ => trivial
              | ok _ =>
                exact wpE_pure fun v' _ _ =>
                  wpE_mono (keeps_started svc row raw v' _) fun _ _ _ _ _ => trivial
          · rw [hnil] at hl'
            exact hlogged (List.prefix_nil.mp hl'.2)

theorem abiding_markFailed (id : Uuid) (message : Str) (hl : l ≠ []) :
    wpE exec abiding (fun _ _ _ => True) (markFailed none id message) s l := by
  refine wpE_perform_bind fun t _ _ => ⟨trivial, fun o _ =>
    ⟨trivial, settled_exec fun _ h => (by cases h), ?_⟩⟩
  generalize (exec o (.getDocument id) t).2 = r
  generalize (exec o (.getDocument id) t).1 = u
  cases r with
  | error e => exact wpE_throw fun _ _ _ => trivial
  | ok found =>
    cases found with
    | none => exact wpE_pure fun _ _ _ => trivial
    | some row =>
      refine wpE_commit_abiding (failTxn (.load row) message) (fun db hdb hterm => ?_)
        fun _ _ => trivial
      have hcompleted : row.status ≠ .completed := fun h => by
        refine hdb.mark (fun hlength => hl ?_) ?_
        · simpa using hlength
        · simpa [justLoaded] using h
      cases hs : row.status with
      | failed => exact hs.symm
      | completed => exact absurd hs hcompleted
      | pending =>
        have hpending : row.status.terminal := hterm
        rw [hs] at hpending
        cases hpending
      | processing =>
        have hprocessing : row.status.terminal := hterm
        rw [hs] at hprocessing
        cases hprocessing

theorem abiding_ingestDocument (retries : Nat) (id : Uuid) :
    wpE exec abiding (fun _ _ _ => True) (ingestDocument ext settings retries id) s [] := by
  refine wpE_tryCatch (wpE_bind (wpE_mono (abiding_process _ id) fun r t l _ hl => ?_))
  cases r with
  | ok document => exact wpE_pure fun _ _ _ => wpE_pure fun _ _ _ => trivial
  | error e =>
    refine wpE_throw fun u _ _ => ?_
    simp only [afterTry]
    split
    · exact wpE_pure fun _ _ _ => trivial
    · exact wpE_pure fun _ _ _ => trivial
    · split
      · refine wpE_bind (wpE_mono (abiding_markFailed id _ hl) fun r v l' _ _ => ?_)
        cases r with
        | ok _ => exact wpE_pure fun _ _ _ => trivial
        | error e => exact wpE_throw fun _ _ _ => trivial
      · exact wpE_pure fun _ _ _ => trivial

theorem abiding_api : ApiProof abiding ext settings Instance.Fresh where
  guar_refl t := Settled.refl t.db
  stop _ _ := trivial
  register _ _ _ _ := keeps_register (fun _ _ => trivial) (fun t => Settled.refl t.db)
    fun _ _ _ _ _ _ => ⟨trivial, settled_exec fun _ h => by cases h⟩
  fail document message t hR _ := by
    obtain ⟨d, i, now, rfl⟩ := hR
    exact commits_abiding fun h => by cases h
  delay _ _ _ _ _ _ := ⟨trivial, settled_exec fun _ h => by cases h⟩
  meter _ _ _ _ _ _ := ⟨trivial, settled_exec fun _ h => by cases h⟩
  delete _ _ _ _ _ _ := ⟨trivial, settled_exec fun _ h => by cases h⟩

theorem abiding_job (job : Job) (s : World) :
    wp exec abiding (fun _ _ _ => True) (job.code ext settings).run s [] := by
  by_cases hjob : ∃ retries id, job = .deliver retries id
  · obtain ⟨retries, id, rfl⟩ := hjob
    refine wpE_bind (wpE_mono (abiding_ingestDocument retries id) fun r t l _ _ => ?_)
    cases r with
    | ok result => exact wpE_pure fun _ _ _ => trivial
    | error e => exact wpE_throw fun _ _ _ => trivial
  · have hrequest : ∀ retries id, job ≠ .deliver retries id :=
      fun retries id h => hjob ⟨retries, id, h⟩
    exact wp_mono (abiding_api.keeps_request hrequest s []) fun _ _ _ _ _ => trivial

/-- Once a committed state of a row is terminal, the later ones have the same status. -/
theorem terminal_status_final {ι : Type} [DecidableEq ι] {w : World} {acts acts' : List (Act ι)}
    (h : Guarded ext settings w (acts ++ acts') fun l _ => upToDate l) {id : Uuid}
    {d d' : Document} (hd : (after ext settings w acts).db.document id = some d)
    (hterm : d.status.terminal)
    (hd' : (after ext settings w (acts ++ acts')).db.document id = some d') :
    d'.status = d.status :=
  (run_wp (K := abiding) abiding_job (fun h => h) (fun _ _ _ _ h => h) trivial h).2.status
    id d d' hd hd' hterm

end

namespace Sample

/-- A file that is not UTF-8 is delivered twice, the second time up to the first commit. -/
def delivered : List (Act Nat) :=
  whole 0 4 (.upload tenantId broken) ++ whole 1 4 (.deliver 0 documentId)

def redelivered : List (Act Nat) := whole 2 2 (.deliver 0 documentId)

/-- A worker dies on the way; of the next two, which overlap, one completes the row and the other
one dies as well. -/
def survived : List (Act Nat) :=
  whole 0 4 (.upload tenantId note) ++ whole 1 3 (.deliver 0 documentId) ++ [.kill 1] ++
    whole 2 1 (.deliver 0 documentId) ++ whole 3 2 (.deliver 0 documentId) ++
    List.replicate 2 (.answer 2 oracle) ++ List.replicate 4 (.answer 3 oracle) ++ [.kill 2]

/-- The message comes once more, and the tenant goes on with another file. -/
def repeated : List (Act Nat) :=
  whole 4 6 (.deliver 0 documentId) ++ whole 5 4 (.upload tenantId other)

end Sample

theorem terminal_status_final_survived :
    (Sample.row (Sample.survived ++ Sample.repeated)).map (·.status) = some .completed := by
  have hguarded : Guarded Sample.ext {} Sample.world (Sample.survived ++ Sample.repeated)
      fun l _ => upToDate l :=
    guarded_of_checks (fun l _ c w => decide (upToDate l c w))
      (fun _ _ _ _ h => of_decide_eq_true h) (by decide +kernel)
  have hbefore : (Sample.row Sample.survived).map (·.status) = some .completed := by
    decide +kernel
  have hafter : (Sample.row (Sample.survived ++ Sample.repeated)).isSome := by decide +kernel
  obtain ⟨d, hd, hs⟩ := Option.map_eq_some_iff.mp hbefore
  obtain ⟨d', hd'⟩ := Option.isSome_iff_exists.mp hafter
  have hterm : d.status.terminal := by
    rw [hs]
    rfl
  rw [hd', Option.map_some, terminal_status_final hguarded hd hterm hd', hs]

/-- A second delivery takes a failed row back to `PROCESSING`. -/
theorem redelivery_unsettles :
    (Sample.row Sample.delivered).map (·.status) = some .failed ∧
      (Sample.row (Sample.delivered ++ Sample.redelivered)).map (·.status) = some .processing := by
  decide

end RagPlatform
