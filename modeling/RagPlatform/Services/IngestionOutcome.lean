import RagPlatform.Services.IngestionLaws

/-! What one call makes of a row that nobody else touches, when every await is answered. -/

namespace RagPlatform

open Lib

structure Same (id : Uuid) (s t : World) : Prop where
  document : t.db.document id = s.db.document id
  chunks : t.db.chunksOf id = s.db.chunksOf id

theorem Same.refl (id : Uuid) (s : World) : Same id s s := ⟨rfl, rfl⟩

theorem Same.trans {id : Uuid} {s t u : World} (h : Same id s t) (h' : Same id t u) : Same id s u :=
  ⟨h'.document.trans h.document, h'.chunks.trans h.chunks⟩

theorem same_of_alone {φ : Feed World Oracle} {id : Uuid} (h : φ.Alone) (n : Nat)
    (t : Turn World Oracle) (ht : φ n = some t) (s : World) : Same id s (t.others s) := by
  rw [h n t ht]
  exact .refl id s

def Oracle.refuses (o : Oracle) : Bool :=
  match o.fault with
  | some (.raised _) => true
  | _ => false

theorem Oracle.exists_of_refuses {o : Oracle} (h : o.refuses) :
    ∃ name, o.fault = some (.raised name) := by
  unfold Oracle.refuses at h
  split at h
  · next name hname => exact ⟨name, hname⟩
  · cases h

def untouched (id : Uuid) (step : Log api → Oracle → Call → World → Prop) :
    Contract api World Oracle where
  inv _ := True
  rely := Same id
  guar _ _ := True
  step := step
  rely_refl := Same.refl id
  rely_trans := Same.trans

def Call.added : Call → List NewChunk
  | .commit txn => txn.added
  | _ => []

/-- Every await is answered, but the database refuses a commit with a row it does not accept. -/
def Answered (accepts : NewChunk → Bool) (o : Oracle) (c : Call) : Prop :=
  if c.added.all accepts then o.fault = none else o.refuses

instance (accepts : NewChunk → Bool) (o : Oracle) (c : api.Req) :
    Decidable (Answered accepts o c) :=
  inferInstanceAs (Decidable (if (Call.added c).all accepts then o.fault = none else o.refuses))

/-- The `n`-th await is answered by `os n`. -/
abbrev undisturbed (accepts : NewChunk → Bool) (id : Uuid) (os : Nat → Oracle) :
    Contract api World Oracle :=
  untouched id fun l o c _ => o = os l.length ∧ Answered accepts o c

section Commit

variable {db : Database} {row : Document}

theorem Database.update_isOk {id : Uuid} {p : Patch} (hp : p.storable)
    (hrow : db.document id = some row) : ∃ db', db.update id p = .ok db' := by
  simp only [Database.update, hp, hrow]
  split
  · exact ⟨_, rfl⟩
  · exact ⟨_, rfl⟩

theorem Database.Admits.update {db' : Database} {id : Uuid} {p : Patch} {doomed : List Nat}
    {added : List NewChunk} (h : db.Admits doomed added) (hu : db.update id p = .ok db') :
    db'.Admits doomed added := by
  rcases Database.update_ok hu with ⟨-, rfl⟩ | ⟨-, -, -, rfl⟩
  · exact h
  · refine ⟨fun c hc => ?_, h.2⟩
    obtain ⟨d, hd, hid⟩ := h.1 c hc
    exact ⟨_, List.mem_map_of_mem hd, by rw [patchRow_id, hid]⟩

theorem commit_isOk (txn : Txn) (skip : Nat) (hp : txn.document.patch.storable)
    (hrow : db.document txn.document.loaded.id = some row) (hs : txn.added.all NewChunk.storable)
    (ha : db.Admits txn.doomed txn.added) : ∃ db', db.commit txn skip = .ok db' := by
  obtain ⟨db₁, hu⟩ := Database.update_isOk hp hrow
  simp only [Database.commit, hu, bind, Except.bind, Database.replaceChunks, hs, if_true,
    dif_pos (ha.update hu)]
  exact ⟨_, rfl⟩

theorem commit_storable {db db' : Database} {txn : Txn} {skip : Nat}
    (h : db.commit txn skip = .ok db') : txn.added.all NewChunk.storable := by
  obtain ⟨db₁, -, hr⟩ := commit_ok h
  unfold Database.replaceChunks at hr
  split at hr
  · assumption
  · cases hr

theorem Database.admits_nil (db : Database) : db.Admits [] [] := by
  refine ⟨fun c hc => (by cases hc), ?_⟩
  rw [List.map_nil, List.append_nil]
  exact db.chunks_uq.sublist (List.filter_sublist.map _)

theorem Database.admits_newChunks (document : Document) {drafts : List ChunkDraft}
    {embeddings : List Embedding} (hrow : db.document document.id = some row) :
    db.Admits ((db.chunksOf document.id).map (·.id))
      (IngestionService.newChunks document drafts embeddings) := by
  refine ⟨fun c hc => ?_, List.Nodup.append ?_ ?_ ?_⟩
  · obtain ⟨hmem, hid⟩ := Database.document_eq_some.mp hrow
    exact ⟨row, hmem, hid.trans (newChunks_documentId hc).symm⟩
  · exact db.chunks_uq.sublist (List.filter_sublist.map _)
  · have hindex : (IngestionService.newChunks document drafts embeddings).map NewChunk.key =
        (List.range' 0 (drafts.zip embeddings).length).map fun i => (document.id, i) := by
      rw [IngestionService.newChunks, List.map_map, ← List.zipIdx_map_snd 0 (drafts.zip embeddings),
        List.map_map]
      rfl
    rw [hindex]
    exact List.Nodup.map (fun i j hij => (Prod.mk.inj hij).2) List.nodup_range'
  · intro k hk hk'
    obtain ⟨c, hc, rfl⟩ := List.mem_map.mp hk
    obtain ⟨n, hn, hkey⟩ := List.mem_map.mp hk'
    obtain ⟨hmem, hdoomed⟩ := List.mem_filter.mp hc
    have hid : c.documentId = document.id :=
      (Prod.mk.inj hkey).1.symm.trans (newChunks_documentId hn)
    exact (of_decide_eq_true hdoomed)
      (List.mem_map_of_mem (Database.mem_chunksOf.mpr ⟨hmem, hid⟩))

end Commit

/-- What the embedder answers from the `n`-th await on. -/
def embedFrom (os : Nat → Oracle) : Nat → List (List ChunkDraft) → Except Exn (List Embedding)
  | _, [] => .ok []
  | n, batch :: batches => do
    let first ← (os n).embed (batch.map (·.text))
    let rest ← embedFrom os (n + 1) batches
    return first ++ rest

def IngestionService.embeddings (svc : IngestionService) (os : Nat → Oracle) (n : Nat)
    (drafts : List ChunkDraft) : Except Exn (List Embedding) :=
  if svc.batchSize = 0 then .error .value
  else if svc.batchSize < 0 then .ok []
  else embedFrom os n (slices svc.batchSize.toNat drafts)

inductive Verdict
  | completed (chunks : List NewChunk)
  | failed (detail : Str)
  | stuck

/-- A `ParseError` is recorded if its detail can be stored; nothing else is. -/
def Verdict.raised : Exn → Verdict
  | .parse detail => if storableText (detail.take 500) then .failed detail else .stuck
  | _ => .stuck

def NewChunk.fit (accepts : NewChunk → Bool) (c : NewChunk) : Bool := c.storable && accepts c

theorem all_fit (accepts : NewChunk → Bool) (cs : List NewChunk) :
    cs.all (NewChunk.fit accepts) ↔ cs.all NewChunk.storable ∧ cs.all accepts := by
  simp only [List.all_eq_true, NewChunk.fit, Bool.and_eq_true, forall_and]

/-- The first two awaits load the row and commit `PROCESSING`; then it is the embedder's turn. -/
def verdict (accepts : NewChunk → Bool) (ext : External) (svc : IngestionService)
    (os : Nat → Oracle) (d : Document) (raw : Bytes) : Verdict :=
  match svc.parseAndChunk ext raw d.sourceType with
  | .error e => .raised e
  | .ok drafts =>
    match svc.embeddings os 2 drafts with
    | .error e => .raised e
    | .ok embeddings =>
      let chunks := IngestionService.newChunks d drafts embeddings
      if drafts.length = embeddings.length ∧ chunks.all (NewChunk.fit accepts) then
        .completed chunks
      else .stuck

def Chunk.new (c : Chunk) : NewChunk := { c with }

theorem numberChunks_map_new (start : Nat) (cs : List NewChunk) :
    (numberChunks start cs).map Chunk.new = cs := by
  induction cs generalizing start with
  | nil => rfl
  | cons c cs ih => rw [numberChunks, List.map_cons, ih]; rfl

def Verdict.Holds (d : Document) : Verdict → Except Exn Instance → World → Prop
  | .completed chunks, r, w => (∃ document, r = .ok document) ∧
      w.db.document d.id = some (d.completed chunks.length) ∧
      (w.db.chunksOf d.id).map Chunk.new = chunks
  | .failed detail, r, w => r = .error (.parse detail) ∧
      ∃ row, w.db.document d.id = some row ∧ row.status = .failed
  | .stuck, r, w => (∃ e, r = .error e) ∧
      ∃ row, w.db.document d.id = some row ∧ row.status = .processing

theorem Verdict.Holds.same {d : Document} {v : Verdict} {r : Except Exn Instance} {s t : World}
    (h : v.Holds d r s) (hst : Same d.id s t) : v.Holds d r t := by
  cases v with
  | completed chunks => exact ⟨h.1, hst.document.trans h.2.1, by rw [hst.chunks]; exact h.2.2⟩
  | failed detail =>
    obtain ⟨hr, row, hrow, hs⟩ := h
    exact ⟨hr, row, hst.document.trans hrow, hs⟩
  | stuck =>
    obtain ⟨hr, row, hrow, hs⟩ := h
    exact ⟨hr, row, hst.document.trans hrow, hs⟩

theorem Verdict.raised_of_transient {e : Exn} (h : e.transient) : Verdict.raised e = .stuck := by
  cases e with
  | parse detail => cases h
  | _ => rfl

theorem Verdict.raised_ne_completed (e : Exn) (chunks : List NewChunk) :
    Verdict.raised e ≠ .completed chunks := by
  cases e with
  | parse detail =>
    rw [Verdict.raised]
    split
    · simp
    · simp
  | _ => simp [Verdict.raised]

section Call

variable {accepts : NewChunk → Bool} {ext : External} {svc : IngestionService} {os : Nat → Oracle}
  {d : Document} {raw : Bytes} {s : World} {l : Log api} {id : Uuid}

section Rules

variable {β : Type} {E : Except Exn β → World → Log api → Prop}

theorem wpE_same_throw {e : Exn} (h : ∀ t, Same id s t → E (.error e) t l) :
    wpE exec (undisturbed accepts id os) E (throw e : Io β) s l := wpE_throw fun t hst _ => h t hst

theorem wpE_same_pure {b : β} (h : ∀ t, Same id s t → E (.ok b) t l) :
    wpE exec (undisturbed accepts id os) E (pure b : Io β) s l := wpE_pure fun t hst _ => h t hst

theorem wpE_answer_bind {c : Call} {f : Reply c → Io β}
    (h : ∀ t, Same id s t → afterBind exec (undisturbed accepts id os) E f
      (serve (os l.length) c t).2 (serve (os l.length) c t).1
      (l ++ [⟨c, (serve (os l.length) c t).2⟩]))
    (hc : ∀ o, Answered accepts o c → o.fault = none := by exact fun _ h => h) :
    wpE exec (undisturbed accepts id os) E (perform c >>= f) s l := by
  refine wpE_perform_bind fun t hst _ => ⟨trivial, fun o ho => ?_⟩
  obtain ⟨rfl, hanswered⟩ : o = os l.length ∧ _ := ho
  rw [exec_of_no_fault (hc _ hanswered)]
  exact ⟨trivial, trivial, h t hst⟩

def committed (accepts : NewChunk → Bool) (db : Database) (txn : Txn) (skip : Nat) (name : Str) :
    Except Exn Database :=
  if txn.added.all accepts then db.commit txn skip else .error (.other name)

theorem wpE_answer_commit {f : Unit → Io β} (txn : Txn)
    (h : ∀ t l' skip name, Same id s t → l'.length = l.length + 1 →
      match committed accepts t.db txn skip name with
      | .ok db => wpE exec (undisturbed accepts id os) E (f ()) { t with db := db } l'
      | .error e => wpE exec (undisturbed accepts id os) E (throw e) t l') :
    wpE exec (undisturbed accepts id os) E (perform (.commit txn) >>= f) s l := by
  by_cases ha : txn.added.all accepts
  · refine wpE_answer_bind (fun t hst => ?_) fun o ho => (if_pos ha).mp ho
    have h := fun l' => h t l' (os l.length).skip [] hst
    simp only [serve]
    simp only [committed, if_pos ha] at h
    cases hc : t.db.commit txn (os l.length).skip with
    | ok db =>
      rw [hc] at h
      exact h _ (by rw [List.length_append, List.length_singleton])
    | error e =>
      rw [hc] at h
      exact h _ (by rw [List.length_append, List.length_singleton])
  · refine wpE_perform_bind fun t hst _ => ⟨trivial, fun o ho => ?_⟩
    have hanswered : Answered accepts o (.commit txn) := ho.2
    obtain ⟨name, hfault⟩ := Oracle.exists_of_refuses ((if_neg ha).mp hanswered)
    have hexec : exec o (.commit txn) t = (t, .error (.other name)) := by
      unfold exec
      rw [hfault]
      rfl
    have h := fun l' => h t l' 0 name hst
    simp only [committed, if_neg ha] at h
    rw [hexec]
    exact ⟨trivial, trivial, h _ (by rw [List.length_append, List.length_singleton])⟩

end Rules

theorem committed_nil (db : Database) (txn : Txn) (h : txn.added = []) (skip : Nat) (name : Str) :
    committed accepts db txn skip name = db.commit txn skip := by
  rw [committed, h]
  rfl

theorem committed_transient {db : Database} {txn : Txn} {skip : Nat} {name : Str} {e : Exn}
    (h : committed accepts db txn skip name = .error e) : e.transient := by
  unfold committed at h
  split at h
  · exact commit_error h
  · rw [← Except.error.inj h]
    rfl

theorem committed_unfit (db : Database) (txn : Txn) (skip : Nat) (name : Str)
    (hs : ¬txn.added.all (NewChunk.fit accepts)) :
    ∃ e, committed accepts db txn skip name = .error e := by
  cases hc : committed accepts db txn skip name with
  | error e => exact ⟨e, rfl⟩
  | ok db' =>
    unfold committed at hc
    split at hc
    · next ha => exact absurd ((all_fit accepts _).mpr ⟨commit_storable hc, ha⟩) hs
    · cases hc

theorem stored_of_commit {t db : Database} {drafts : List ChunkDraft} {embeddings : List Embedding}
    {skip : Nat} (hrow : t.document d.id = some (started d).current)
    (hc : t.commit (storeTxn d ((t.chunksOf d.id).map (·.id)) drafts embeddings) skip = .ok db) :
    db.document d.id = some (d.completed drafts.length) ∧
      (db.chunksOf d.id).map Chunk.new = IngestionService.newChunks d drafts embeddings := by
  constructor
  · have hdoc := document_commit hc d.id
    rw [storeTxn_id, if_pos rfl, hrow, Option.map_some, storeTxn_apply] at hdoc
    exact hdoc
  · have hgone : (t.chunksOf d.id).filter (·.id ∉ (t.chunksOf d.id).map (·.id)) = [] :=
      List.filter_eq_nil_iff.mpr fun c hc => by simpa using ⟨c, hc, rfl⟩
    rw [chunksOf_store hc, hgone, List.nil_append, numberChunks_map_new]
    rfl

theorem store_commits {t : World} {drafts : List ChunkDraft} {embeddings : List Embedding}
    (hrow : t.db.document d.id = some (started d).current)
    (hlen : drafts.length = embeddings.length)
    (hs : (IngestionService.newChunks d drafts embeddings).all (NewChunk.fit accepts)) (skip : Nat)
    (name : Str) :
    ∃ db, committed accepts t.db (storeTxn d ((t.db.chunksOf d.id).map (·.id)) drafts embeddings)
        skip name = .ok db ∧
      ∀ document, (Verdict.completed (IngestionService.newChunks d drafts embeddings)).Holds d
        (.ok document) { t with db := db } := by
  have hpatch : (storeTxn d ((t.db.chunksOf d.id).map (·.id)) drafts
      embeddings).document.patch.storable := by
    rw [storeTxn_patch]
    by_cases hm : d.errorMessage = none
    · simp [Patch.storable, hm]
    · simp [Patch.storable, hm]
  obtain ⟨hstorable, haccepts⟩ := (all_fit accepts _).mp hs
  obtain ⟨db, hc⟩ := commit_isOk _ skip hpatch hrow hstorable
    (Database.admits_newChunks (started d).current hrow)
  have hlength : (IngestionService.newChunks d drafts embeddings).length = drafts.length := by
    simp [IngestionService.newChunks, hlen]
  obtain ⟨hdoc, hchunks⟩ := stored_of_commit hrow hc
  exact ⟨db, (if_pos haccepts).trans hc,
    fun document => ⟨⟨document, rfl⟩, by rw [hlength]; exact hdoc, hchunks⟩⟩

theorem start_commits {t : World} (hrow : t.db.document d.id = some d) (skip : Nat) :
    ∃ db, t.db.commit (startTxn d) skip = .ok db ∧ db.document d.id = some (started d).current := by
  obtain ⟨db, hc⟩ := commit_isOk (startTxn d) skip (by rw [startTxn_patch]; rfl) hrow rfl
    t.db.admits_nil
  have hdoc := document_commit hc d.id
  rw [startTxn_id, if_pos rfl, hrow, Option.map_some, startTxn_apply] at hdoc
  exact ⟨db, hc, hdoc⟩

theorem fail_commits {t : World} {detail : Str} (hm : d.errorMessage = none)
    (hrow : t.db.document d.id = some (started d).current) (hs : storableText (detail.take 500))
    (skip : Nat) : ∃ db, t.db.commit (failTxn (started d) detail) skip = .ok db ∧
      (Verdict.failed detail).Holds d (.error (.parse detail)) { t with db := db } := by
  have hpatch : (failTxn (started d) detail).document.patch.storable := by
    rw [failTxn_patch, show (started d).loaded.errorMessage = none from hm]
    exact hs
  obtain ⟨db, hc⟩ := commit_isOk (failTxn (started d) detail) skip hpatch hrow rfl
    t.db.admits_nil
  have hdoc := document_commit hc d.id
  rw [show (failTxn (started d) detail).document.loaded.id = d.id from rfl, if_pos rfl, hrow,
    Option.map_some] at hdoc
  exact ⟨db, hc, rfl, _, hdoc, (failTxn_apply (started d) detail).1⟩

theorem fail_unstorable (db : Database) {detail : Str} (hm : d.errorMessage = none)
    (hs : storableText (detail.take 500) = false) (skip : Nat) :
    ∃ e, db.commit (failTxn (started d) detail) skip = .error e := by
  have hpatch : (failTxn (started d) detail).document.patch.errorMessage =
      some (some (detail.take 500)) := by
    rw [failTxn_patch, show (started d).loaded.errorMessage = none from hm]
    rfl
  cases hc : db.commit (failTxn (started d) detail) skip with
  | error e => exact ⟨e, rfl⟩
  | ok db' =>
    obtain ⟨db₁, hu, -⟩ := commit_ok hc
    rcases Database.update_ok hu with ⟨hp, -⟩ | ⟨-, hp, -, -⟩
    · rw [hp] at hpatch
      cases hpatch
    · rw [Patch.storable, hpatch] at hp
      simp [hs] at hp

theorem wpE_embedBatches_answered (batches : List (List ChunkDraft)) :
    wpE exec (undisturbed accepts id os)
      (fun r w _ => r = embedFrom os l.length batches ∧ Same id s w)
      (IngestionService.embedBatches batches) s l := by
  induction batches generalizing s l with
  | nil => exact wpE_same_pure fun t hst => ⟨rfl, hst⟩
  | cons batch batches ih =>
    refine wpE_answer_bind fun t hst => ?_
    change afterBind exec _ _ _ ((os l.length).embed (batch.map (·.text))) t _
    have hfrom : embedFrom os l.length (batch :: batches) = (do
        let first ← (os l.length).embed (batch.map (·.text))
        let rest ← embedFrom os (l.length + 1) batches
        return first ++ rest) := rfl
    cases he : (os l.length).embed (batch.map (·.text)) with
    | error e =>
      rw [he] at hfrom
      exact wpE_same_throw fun u htu => ⟨hfrom.symm, hst.trans htu⟩
    | ok first =>
      rw [he] at hfrom
      refine wpE_bind (wpE_mono ih fun r u l' _ hr => ?_)
      obtain ⟨hr, htu⟩ := hr
      rw [List.length_append, List.length_singleton] at hr
      rw [← hr] at hfrom
      cases r with
      | error e => exact wpE_same_throw fun v huv => ⟨hfrom.symm, (hst.trans htu).trans huv⟩
      | ok rest => exact wpE_same_pure fun v huv => ⟨hfrom.symm, (hst.trans htu).trans huv⟩

theorem wpE_embedAll_answered (drafts : List ChunkDraft) :
    wpE exec (undisturbed accepts id os)
      (fun r w _ => r = svc.embeddings os l.length drafts ∧ Same id s w)
      (svc.embedAll drafts) s l := by
  unfold IngestionService.embedAll IngestionService.embeddings
  split
  · exact wpE_same_throw fun t hst => ⟨rfl, hst⟩
  · split
    · exact wpE_same_pure fun t hst => ⟨rfl, hst⟩
    · exact wpE_embedBatches_answered _

/-- How the body of the `try` block ends. -/
def Verdict.Reached (v : Verdict) (d : Document) : Except Exn Instance → World → Prop
  | .ok document, w => v.Holds d (.ok document) w
  | .error e, w => v = .raised e ∧ w.db.document d.id = some (started d).current

/-- The commit of the chunks is taken if and only if each of them fits. -/
theorem wpE_storeTxn_answered {drafts : List ChunkDraft} {embeddings : List Embedding}
    (hverdict : verdict accepts ext svc os d raw =
      if drafts.length = embeddings.length ∧
        (IngestionService.newChunks d drafts embeddings).all (NewChunk.fit accepts)
      then .completed (IngestionService.newChunks d drafts embeddings) else .stuck)
    (hlen : drafts.length = embeddings.length)
    (hrow : s.db.document d.id = some (started d).current) (document : Instance) :
    wpE exec (undisturbed accepts d.id os)
      (fun r w _ => (verdict accepts ext svc os d raw).Reached d r w)
      (perform (.commit (storeTxn d ((s.db.chunksOf d.id).map (·.id)) drafts embeddings)) >>=
        fun _ => pure document) s l := by
  refine wpE_answer_commit _ fun t l' skip name hst _ => ?_
  have ht := hst.document.trans hrow
  rw [show s.db.chunksOf d.id = t.db.chunksOf d.id from hst.chunks.symm]
  by_cases hs : (IngestionService.newChunks d drafts embeddings).all (NewChunk.fit accepts)
  · obtain ⟨db, hc, hholds⟩ := store_commits ht hlen hs skip name
    rw [hc]
    refine wpE_same_pure fun u htu => ?_
    rw [hverdict, if_pos ⟨hlen, hs⟩]
    exact (hholds _).same htu
  · obtain ⟨e, he⟩ := committed_unfit t.db
      (storeTxn d ((t.db.chunksOf d.id).map (·.id)) drafts embeddings) skip name hs
    rw [he]
    refine wpE_same_throw fun u htu => ⟨?_, htu.document.trans ht⟩
    rw [hverdict, if_neg fun h => hs h.2, Verdict.raised_of_transient (committed_transient he)]

theorem wpE_store_answered (hrow : s.db.document d.id = some (started d).current)
    (hl : l.length = 2) :
    wpE exec (undisturbed accepts d.id os)
      (fun r w _ => (verdict accepts ext svc os d raw).Reached d r w)
      (svc.store ext (started d) raw) s l := by
  unfold IngestionService.store
  cases hp : svc.parseAndChunk ext raw d.sourceType with
  | error e =>
    rw [show (started d).current.sourceType = d.sourceType from rfl, hp, ofExcept_error_bind]
    exact wpE_same_throw fun t hst => ⟨by simp only [verdict, hp], hst.document.trans hrow⟩
  | ok drafts =>
    rw [show (started d).current.sourceType = d.sourceType from rfl, hp, ofExcept_ok_bind]
    refine wpE_bind (wpE_mono (wpE_embedAll_answered drafts) fun r t l' _ hr => ?_)
    obtain ⟨hr, hst⟩ := hr
    rw [hl] at hr
    cases r with
    | error e =>
      exact wpE_same_throw fun u htu =>
        ⟨by simp only [verdict, hp, ← hr], (hst.trans htu).document.trans hrow⟩
    | ok embeddings =>
      have hverdict : verdict accepts ext svc os d raw =
          if drafts.length = embeddings.length ∧
            (IngestionService.newChunks d drafts embeddings).all (NewChunk.fit accepts)
          then .completed (IngestionService.newChunks d drafts embeddings) else .stuck := by
        simp only [verdict, hp, ← hr]
      refine wpE_answer_bind fun u htu => ?_
      simp only [serve, afterBind]
      have hu := (hst.trans htu).document.trans hrow
      split
      · next hne =>
        exact wpE_same_throw fun v huv =>
          ⟨by rw [hverdict, if_neg fun h => hne h.1]; rfl, huv.document.trans hu⟩
      · next hlen => exact wpE_storeTxn_answered hverdict (not_not.mp hlen) hu _

theorem wpE_onError_answered (hm : d.errorMessage = none) {e : Exn}
    (hrow : s.db.document d.id = some (started d).current) :
    wpE exec (undisturbed accepts d.id os) (fun r w _ => (Verdict.raised e).Holds d r w)
      (IngestionService.onError (started d) e) s l := by
  have hstuck {e' : Exn} {t : World} {l' : Log api}
      (ht : t.db.document d.id = some (started d).current) (hv : Verdict.raised e = .stuck) :
      wpE exec (undisturbed accepts d.id os) (fun r w _ => (Verdict.raised e).Holds d r w)
        (throw e') t l' :=
    wpE_same_throw fun u htu => hv ▸ ⟨⟨e', rfl⟩, _, htu.document.trans ht, rfl⟩
  unfold IngestionService.onError
  refine wpE_answer_bind fun t hst => ?_
  have ht := hst.document.trans hrow
  simp only [serve, afterBind]
  cases e with
  | parse detail =>
    refine wpE_answer_commit (failTxn (started d) detail) fun u l' skip name htu _ => ?_
    rw [committed_nil u.db (failTxn (started d) detail) rfl]
    have hu := htu.document.trans ht
    cases hs : storableText (detail.take 500) with
    | true =>
      obtain ⟨db, hc, hholds⟩ := fail_commits hm hu hs skip
      rw [hc]
      refine wpE_same_throw fun v huv => ?_
      rw [Verdict.raised, if_pos hs]
      exact hholds.same huv
    | false =>
      obtain ⟨e, he⟩ := fail_unstorable u.db hm hs skip
      rw [he]
      exact hstuck hu (by simp [Verdict.raised, hs])
  | _ => exact hstuck ht rfl

/-- One undisturbed call ends with the verdict.  An error message from before gets in the way of a
failure only. -/
theorem wpE_process_answered (hrow : s.db.document d.id = some d) (hraw : d.rawContent = some raw)
    (hm : d.errorMessage = none ∨ ∃ chunks, verdict accepts ext svc os d raw = .completed chunks)
    (hstatus : d.status ≠ .completed) {session : Session}
    (hsession : ∀ i, session = some i → i = .load d) :
    wpE exec (undisturbed accepts d.id os)
      (fun r w _ => (verdict accepts ext svc os d raw).Holds d r w)
      (svc.process ext session d.id) s [] := by
  unfold IngestionService.process
  refine wpE_answer_bind fun t hst => ?_
  have ht := hst.document.trans hrow
  have hheld : session.getD (.load d) = .load d := by
    cases hi : session with
    | none => rfl
    | some i => exact hsession i hi
  simp only [serve, afterBind, ht, hheld]
  simp only [Instance.load, hstatus, if_false, hraw]
  refine wpE_bind (wpE_answer_commit (startTxn d) fun u l' skip name htu hl => ?_)
  rw [committed_nil u.db (startTxn d) rfl]
  have hu := htu.document.trans ht
  obtain ⟨db, hc, hstarted⟩ := start_commits hu skip
  rw [hc]
  refine wpE_same_pure fun v huv => ?_
  refine wpE_tryCatch (wpE_mono (wpE_store_answered (huv.document.trans hstarted) hl)
    fun r x l'' _ hr => ?_)
  cases r with
  | ok document => exact wpE_same_pure fun y hxy => hr.same hxy
  | error e =>
    obtain ⟨hverdict, hx⟩ := hr
    rw [hverdict]
    refine wpE_onError_answered (hm.resolve_right fun hcompleted => ?_) hx
    obtain ⟨chunks, hchunks⟩ := hcompleted
    exact Verdict.raised_ne_completed e chunks (hverdict.symm.trans hchunks)

def oracles (φ : Feed World Oracle) (n : Nat) : Oracle := (φ n).elim {} (·.oracle)

theorem process_answered (ext : External) (svc : IngestionService) {φ : Feed World Oracle}
    {w : World} {session : Session} (halive : ∀ n, φ n ≠ none)
    (hanswers : (svc.process ext session d.id).run.RunObeys exec
      (fun _ o c _ => Answered accepts o c) φ w [])
    (hothers : ∀ n t, φ n = some t → ∀ s, Same d.id s (t.others s))
    (hrow : w.db.document d.id = some d) (hraw : d.rawContent = some raw)
    (hm : d.errorMessage = none ∨
      ∃ chunks, verdict accepts ext svc (oracles φ) d raw = .completed chunks)
    (hstatus : d.status ≠ .completed) (hsession : ∀ i, session = some i → i = .load d) :
    ∃ r, (svc.process ext session d.id).run.result exec φ w = some r ∧
      (verdict accepts ext svc (oracles φ) d raw).Holds d r
        ((svc.process ext session d.id).run.final exec φ w) := by
  have hwp : wpE exec (undisturbed accepts d.id (oracles φ)) _ (svc.process ext session d.id) w [] :=
    wpE_process_answered hrow hraw hm hstatus hsession
  obtain ⟨w', r, φ', hrun⟩ := Async.run_of_alive exec halive (svc.process ext session d.id).run w
  have hturns : (svc.process ext session d.id).run.RunObeys exec
      (fun l o _ _ => o = oracles φ l.length) φ w [] := by
    refine Async.runObeys_of_log exec (fun n t ht l' _ _ hl => ?_) _ _
    rw [hl, List.length_nil, Nat.zero_add, oracles, ht]
    rfl
  obtain ⟨-, hend⟩ := wp_outcome_of_obeys hwp trivial (fun n t ht s _ => ⟨hothers n t ht s, trivial⟩)
    (hturns.and exec hanswers)
  obtain ⟨hresult, -⟩ := Async.result_of_run hrun
  obtain ⟨-, -, hholds⟩ := hend r hresult
  exact ⟨r, hresult, hholds⟩

theorem answered_of_faultless {ext : External} {svc : IngestionService} {φ : Feed World Oracle}
    (h : φ.Answers fun o => o.fault = none) (session : Session) (id : Uuid) (w : World) :
    (svc.process ext session id).run.RunObeys exec
      (fun _ o c _ => Answered (fun _ => true) o c) φ w [] :=
  Async.runObeys_of_forall exec (fun n t ht _ _ _ =>
    (if_pos (List.all_eq_true.mpr fun _ _ => rfl)).mpr (h n t ht)) _ _ _

theorem fit_all : NewChunk.fit (fun _ => true) = NewChunk.storable :=
  funext fun c => Bool.and_true c.storable

end Call

end RagPlatform
