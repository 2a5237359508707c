import RagPlatform.Atomicity
import RagPlatform.Lifecycle

/-! When a row's status, error message and chunks agree. -/

namespace RagPlatform

open Lib

/-- An error message exactly on failed rows, chunks exactly for completed ones. -/
def Consistent (db : Database) : Prop :=
  ∀ id d, db.document id = some d → (d.errorMessage.isSome ↔ d.status = .failed) ∧
    (db.chunksOf id ≠ [] ↔ d.status = .completed)

section Commits

variable {db db' : Database} {skip : Nat}

theorem consistent_of_commit {txn : Txn} (h : Consistent db)
    (hc : db.commit txn skip = .ok db')
    (hother : ∀ id, id ≠ txn.document.loaded.id → db'.chunksOf id = db.chunksOf id)
    (hself : ∀ d, db.document txn.document.loaded.id = some d →
      ((txn.document.patch.apply d).errorMessage.isSome ↔
        (txn.document.patch.apply d).status = .failed) ∧
      (db'.chunksOf txn.document.loaded.id ≠ [] ↔
        (txn.document.patch.apply d).status = .completed)) : Consistent db' := by
  intro id d' hd'
  rw [document_commit hc] at hd'
  split at hd'
  · next hid =>
    obtain ⟨d, hd, rfl⟩ := Option.map_eq_some_iff.mp hd'
    subst hid
    exact hself d hd
  · next hid =>
    rw [hother id hid]
    exact h id d' hd'

theorem chunksOf_bare {txn : Txn} (hc : db.commit txn skip = .ok db') (hdoomed : txn.doomed = [])
    (hadded : txn.added = []) (id : Uuid) : db'.chunksOf id = db.chunksOf id := by
  rw [chunksOf_commit hc, hdoomed, hadded]
  simp [numberChunks]

/-- Neither settled nor marked, as a row is while it is worked on. -/
structure Open (d : Document) : Prop where
  status : d.status.terminal = false
  error : d.errorMessage = none

theorem Consistent.open (h : Consistent db) {id : Uuid} {d : Document}
    (hd : db.document id = some d) (hs : d.status.terminal = false) : Open d := by
  refine ⟨hs, ?_⟩
  have herror := (h id d hd).1
  cases he : d.errorMessage with
  | none => rfl
  | some m =>
    rw [he] at herror
    rw [herror.mp rfl] at hs
    cases hs

theorem Txn.Orderly.cases {t : Txn} (h : t.Orderly db)
    (hl : t.document.loaded.status.terminal = false) {d : Document}
    (hd : db.document t.document.loaded.id = some d) :
    d.status.terminal = false ∨ d.status = t.document.current.status := by
  cases hs : d.status.terminal with
  | false => exact .inl rfl
  | true =>
    rcases h.2 d hd hs with he | he
    · rw [he, hl] at hs; cases hs
    · exact .inr he

theorem Consistent.chunks_eq_nil (h : Consistent db) {id : Uuid} {d : Document}
    (hd : db.document id = some d) (hs : d.status ≠ .completed) : db.chunksOf id = [] :=
  not_not.mp fun hne => hs ((h id d hd).2.mp hne)

theorem not_terminal {s : DocumentStatus} (h : s.terminal = false) :
    s ≠ .completed ∧ s ≠ .failed := by
  cases s with
  | pending => simp
  | processing => simp
  | completed => cases h
  | failed => cases h

theorem consistent_start {row : Document} (h : Consistent db)
    (hc : db.commit (startTxn row) skip = .ok db') (ho : (startTxn row).Orderly db) :
    Consistent db' ∧ row.status.terminal = false := by
  have hrow : row.status.terminal = false := by
    cases hs : row.status.terminal with
    | false => rfl
    | true =>
      have hp : DocumentStatus.processing = row.status := ho.1 hs
      rw [← hp] at hs
      cases hs
  refine ⟨consistent_of_commit h hc (fun id _ => chunksOf_bare hc rfl rfl id) fun d hd => ?_, hrow⟩
  have hopen : d.status.terminal = false := (ho.cases hrow hd).elim id fun hp => hp ▸ rfl
  have hstatus : ((startTxn row).document.patch.apply d).status.terminal = false := by
    rw [startTxn_patch]
    simp only [Patch.apply]
    split
    · exact hopen
    · rfl
  have herror : ((startTxn row).document.patch.apply d).errorMessage = none := by
    rw [startTxn_patch]
    exact (h.open hd hopen).error
  obtain ⟨hcompleted, hfailed⟩ := not_terminal hstatus
  rw [chunksOf_bare hc rfl rfl, h.chunks_eq_nil hd (not_terminal hopen).1, herror]
  simp [hcompleted, hfailed]

theorem consistent_fail {document : Instance} {message : Str} (h : Consistent db)
    (hc : db.commit (failTxn document message) skip = .ok db')
    (ho : (failTxn document message).Orderly db) (hl : Open document.loaded) : Consistent db' := by
  refine consistent_of_commit h hc (fun id _ => chunksOf_bare hc rfl rfl id) fun d hd => ?_
  have hd' : d.status ≠ .completed := by
    rcases ho.cases hl.status hd with hs | hs
    · exact (not_terminal hs).1
    · rw [hs]
      exact fun he => by cases he
  rw [chunksOf_bare hc rfl rfl, h.chunks_eq_nil hd hd', failTxn_patch]
  simp [Patch.apply, (not_terminal hl.status).2, hl.error]

theorem consistent_refail {document : Instance} {message : Str} (h : Consistent db)
    (hc : db.commit (failTxn document message) skip = .ok db')
    (hl : document.loaded.status = .failed)
    (hnow : ∀ d, db.document document.loaded.id = some d → d.status = .failed) :
    Consistent db' := by
  refine consistent_of_commit h hc (fun id _ => chunksOf_bare hc rfl rfl id) fun d hd => ?_
  have hd' := hnow d hd
  have herror := (h _ d hd).1.mpr hd'
  rw [chunksOf_bare hc rfl rfl, h.chunks_eq_nil hd (by simp [hd']), failTxn_patch]
  simp only [Patch.apply, hl, if_true, Option.getD_none, hd']
  split
  · simpa using herror
  · simp

theorem consistent_store {row : Document} {doomed : List Nat} {drafts : List ChunkDraft}
    {embeddings : List Embedding} {u : Database} (h : Consistent db) (hu : u.Grows db)
    (hc : db.commit (storeTxn row doomed drafts embeddings) skip = .ok db')
    (ho : (storeTxn row doomed drafts embeddings).Orderly db)
    (hdoomed : doomed = (u.chunksOf row.id).map (·.id)) (hne : drafts ≠ [])
    (hlen : drafts.length = embeddings.length) (hl : Open row) : Consistent db' := by
  refine consistent_of_commit h hc (fun id hid => chunksOf_store_of_ne hu hdoomed hc hid)
    fun d hd => ?_
  have hd' : d.status ≠ .failed := by
    rcases ho.cases rfl hd with hs | hs
    · exact (not_terminal hs).2
    · rw [hs]
      exact fun he => by cases he
  have herror : d.errorMessage = none := by
    cases he : d.errorMessage with
    | none => rfl
    | some m => exact absurd ((h _ d hd).1.mp (by simp [he])) hd'
  have hchunks : db'.chunksOf row.id ≠ [] := by
    intro hnil
    have hmap := congrArg (List.map Chunk.entry) hnil
    rw [chunksOf_store hc, List.map_append, numberChunks_map_entry, newChunks_entries _ hlen,
      List.map_nil, List.append_eq_nil_iff] at hmap
    have hrange := entries_index (started row).current.tenantId drafts
    rw [hmap.2, List.map_nil, eq_comm, List.range_eq_nil] at hrange
    exact hne (List.length_eq_zero_iff.mp hrange)
  rw [storeTxn_id, storeTxn_patch]
  simp [Patch.apply, hl.error, herror, hchunks]

theorem Effect.consistent {o : Oracle} {c : Call} (he : Effect o db c db') (h : Consistent db)
    (hc : ∀ txn, c ≠ .commit txn) : Consistent db' := by
  cases he with
  | same => exact h
  | commit _ => exact absurd rfl (hc _)
  | @insert d hf _ =>
    intro id d' hd'
    rw [Database.document_add] at hd'
    split at hd'
    · next hid =>
      have hnone : db.document id = none := Database.document_none_of_not_issued (hid ▸ hf.1)
      have hnil : db.chunksOf id = [] := Database.chunksOf_of_document_none hnone
      cases hd'
      simp [hnil, NewDocument.row]
    · exact h id d' hd'
  | @delete j =>
    intro id d' hd'
    rw [Database.document_deleteDocument] at hd'
    split at hd'
    · cases hd'
    · next hj =>
      rw [Database.chunksOf_deleteDocument, if_neg hj]
      exact h id d' hd'

end Commits

def consistency : Contract api World Oracle where
  inv w := Consistent w.db
  rely t u := Settled t.db u.db
  guar t u := Settled t.db u.db
  step _ _ := orderly
  rely_refl := settling.rely_refl
  rely_trans := settling.rely_trans

theorem consistency_commits {txn : Txn} {t : World} {Done Fail : World → Prop}
    (ht : Consistent t.db) (hfail : ∀ u, Fail u)
    (h : txn.Orderly t.db → ∀ skip db, t.db.commit txn skip = .ok db →
      Consistent db ∧ Done { t with db := db }) : Commits consistency txn t Done Fail := by
  refine fun l o ho => ⟨⟨hfail t, ht, .refl t.db⟩, fun db hc => ?_⟩
  obtain ⟨hdb, hdone⟩ := h ho _ db hc
  exact ⟨hdb, (Effect.commit (o := o) hc).settled fun _ he => by cases he; exact ho, hdone,
    fun _ _ => hfail _⟩

theorem consistency_call {o : Oracle} {c : Call} {t : World} (ht : Consistent t.db)
    (hc : ∀ txn, c ≠ .commit txn) :
    Consistent (exec o c t).1.db ∧ Settled t.db (exec o c t).1.db :=
  ⟨(exec_effect o c t).consistent ht hc, (exec_effect o c t).settled fun _ he => absurd he (hc _)⟩

variable {ext : External} {settings : Settings}

theorem consistency_process (documentId : Uuid) :
    ProcessProof consistency ext (ingestionService settings) documentId (fun _ => True)
      (fun row _ => Open row) (fun _ => True) (fun _ _ => True) where
  guar_refl t := .refl t.db
  pre_stable _ _ _ _ _ := trivial
  mid_stable _ _ _ h _ _ := h
  fail_stable _ _ _ _ _ := trivial
  end_stable _ _ _ _ _ _ := trivial
  pre_fail _ _ := trivial
  mid_fail _ _ _ := trivial
  stop _ _ _ := trivial
  transient _ _ _ _ _ := trivial
  absent _ _ _ _ := trivial
  completed _ _ _ _ _ _ := trivial
  payload _ _ _ _ _ _ _ := trivial
  start t u row _ ht hrow _ _ _ hu := by
    refine consistency_commits hu (fun _ => trivial) fun ho skip db hc => ?_
    obtain ⟨hdb, hs⟩ := consistent_start hu hc ho
    exact ⟨hdb, ht.open hrow hs⟩
  gone _ _ _ _ _ := trivial
  fail t row detail hmid ht _ :=
    consistency_commits ht (fun _ => trivial) fun ho _ db hc =>
      ⟨consistent_fail ht hc ho ⟨rfl, hmid.error⟩, trivial⟩
  store t row doomed drafts embeddings hmid ht hp := by
    refine consistency_commits ht (fun _ => trivial) fun ho skip db hc => ⟨?_, trivial⟩
    obtain ⟨raw, -, hparse⟩ := hp.payload
    obtain ⟨u, hu, hdoomed⟩ := hp.doomed
    exact consistent_store ht hu.toGrows hc ho hdoomed (parseAndChunk_ne_nil hparse) hp.length hmid

theorem consistency_markFailed (documentId : Uuid) (message : Str) :
    Keeps exec consistency (fun _ => True) (markFailed none documentId message) := by
  refine keeps_markFailed (fun _ _ => trivial) (fun t => .refl t.db) fun t u row ht hrow htu hu => ?_
  refine consistency_commits hu (fun _ => trivial) fun ho skip db hc => ⟨?_, trivial⟩
  cases hs : row.status.terminal with
  | false => exact consistent_fail hu hc ho (ht.open hrow hs)
  | true =>
    have hfailed : row.status = .failed := (ho.1 hs).symm
    refine consistent_refail hu hc hfailed fun d hd => ?_
    have hid : row.id = documentId := Database.document_id hrow
    exact (htu.status documentId row d hrow (hid ▸ hd) hs).trans hfailed

theorem consistency_api : ApiProof consistency ext settings Instance.Fresh where
  guar_refl t := .refl t.db
  stop _ _ := trivial
  register _ _ _ _ := keeps_register (fun _ _ => trivial) (fun t => .refl t.db)
    fun _ _ _ _ ht _ => consistency_call ht fun _ h => by cases h
  fail document message t hR ht := by
    obtain ⟨d, i, now, rfl⟩ := hR
    exact consistency_commits ht (fun _ => trivial) fun ho _ db hc =>
      ⟨consistent_fail ht hc ho ⟨rfl, rfl⟩, trivial⟩
  delay _ _ _ _ ht _ := consistency_call ht fun _ h => by cases h
  meter _ _ _ _ ht _ := consistency_call ht fun _ h => by cases h
  delete _ _ _ _ ht _ := consistency_call ht fun _ h => by cases h

theorem consistency_keeps (job : Job) :
    Keeps exec consistency (fun _ => True) (job.code ext settings) :=
  consistency_api.keeps_job (fun _ documentId => keeps_ingestDocument
    (.of_wpE fun _ _ => ⟨_, (consistency_process documentId).wpE_process trivial⟩)
    (consistency_markFailed documentId)) job

/-- As long as no settled row is written over, every committed state is consistent. -/
theorem rows_consistent {ι : Type} [DecidableEq ι] {w : World} {acts : List (Act ι)}
    (hw : Consistent w.db) (h : Guarded ext settings w acts fun _ _ => orderly) :
    Consistent (after ext settings w acts).db :=
  run_inv (K := consistency) consistency_keeps (fun h => h) (fun _ _ _ _ h => h) hw h

theorem rows_consistent_survived :
    ((Sample.state Sample.survived).db.chunksOf Sample.documentId).map (·.content) =
        ["Hi.".toList] ∧ Consistent (Sample.state (Sample.survived ++ Sample.repeated)).db :=
  ⟨by decide +kernel, rows_consistent (fun id d hd => by cases hd)
    (guarded_of_checks (fun _ _ c w => decide (orderly c w))
      (fun _ _ _ _ h => of_decide_eq_true h) (by decide +kernel))⟩

/-- The restarted row is `PROCESSING` and still says why it failed. -/
theorem redelivery_contradicts :
    ¬ Consistent (Sample.state (Sample.delivered ++ Sample.redelivered)).db := by
  intro h
  have hrow : (Sample.row (Sample.delivered ++ Sample.redelivered)).map
      (fun d => (d.status, d.errorMessage.isSome)) = some (.processing, true) := by decide
  obtain ⟨d, hd, hs⟩ := Option.map_eq_some_iff.mp hrow
  simp only [Prod.mk.injEq] at hs
  have hfailed := (h Sample.documentId d hd).1.mp hs.2
  rw [hs.1] at hfailed
  cases hfailed

end RagPlatform
