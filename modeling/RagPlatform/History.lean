import RagPlatform.RuntimeLaws

/-! What one await can make of the tables, and what none of them takes back. -/

namespace RagPlatform

open Lib

variable {o : Oracle}

inductive Effect (o : Oracle) (db : Database) : Call → Database → Prop
  | same {c : Call} : Effect o db c db
  | insert {d : NewDocument} (h : db.Fits (d.row o.uuid o.now)) :
    (d.row o.uuid o.now).storable = true → Effect o db (.insertDocument d) (db.add _ h)
  | commit {txn : Txn} {db' : Database} : db.commit txn o.skip = .ok db' → Effect o db (.commit txn) db'
  | delete {id : Uuid} : Effect o db (.deleteDocument id) (db.deleteDocument id)

theorem serve_effect (o : Oracle) (c : Call) (t : World) : Effect o t.db c (serve o c t).1.db := by
  cases c with
  | insertDocument d =>
    simp only [serve]
    cases h : t.db.insertDocument (d.row o.uuid o.now) with
    | error e => exact .same
    | ok db =>
      obtain ⟨hs, hf, rfl⟩ := Database.insertDocument_ok h
      exact .insert hf hs
  | commit txn =>
    simp only [serve]
    cases h : t.db.commit txn o.skip with
    | error e => exact .same
    | ok db => exact .commit h
  | deleteDocument id => exact .delete
  | insertUsage u =>
    simp only [serve, World.insertUsage]
    split
    · exact .same
    · split <;> exact .same
  | insertCredential c =>
    simp only [serve, World.insertCredential]
    split
    · cases t.credentials.insert (c.row o.uuid) <;> exact .same
    · exact .same
  | commitCredential i =>
    simp only [serve]
    cases t.credentials.update i.loaded.id i.patch <;> exact .same
  | getTenant | sumSizeBytes | getDocument | deleteChunks | rollback | embedDocuments | delay
  | findTenant | findCredential | time | loopTime | sleep | isDisconnected | getCredential | incr | expire | countDocuments
  | listDocuments | embedQuery | denseSearch | keywordSearch | rerank | generate | stream
  | usageRollup => exact .same

theorem exec_effect (o : Oracle) (c : Call) (t : World) : Effect o t.db c (exec o c t).1.db := by
  rcases exec_cases o c t with he | ⟨_, -, he | ⟨-, he⟩⟩
  · rw [he]; exact serve_effect o c t
  · rw [he]; exact .same
  · rw [he]; exact serve_effect o c t

theorem commit_ok {db db' : Database} {txn : Txn} {skip : Nat} (h : db.commit txn skip = .ok db') :
    ∃ db₁, db.update txn.document.loaded.id txn.document.patch = .ok db₁ ∧
      db₁.replaceChunks txn.doomed txn.added skip = .ok db' := by
  cases hu : db.update txn.document.loaded.id txn.document.patch with
  | error e => simp [Database.commit, hu, bind, Except.bind] at h
  | ok db₁ => exact ⟨db₁, rfl, by simpa [Database.commit, hu, bind, Except.bind] using h⟩

theorem commit_error {db : Database} {txn : Txn} {skip : Nat} {e : Exn}
    (h : db.commit txn skip = .error e) : e.transient := by
  cases hu : db.update txn.document.loaded.id txn.document.patch with
  | error e' =>
    simp only [Database.commit, hu, bind, Except.bind, Except.error.injEq] at h
    subst h
    simp only [Database.update] at hu
    split at hu
    · simp at hu
    · split at hu
      · cases hu; rfl
      · split at hu
        · cases hu; rfl
        · simp at hu
  | ok db₁ =>
    simp only [Database.commit, hu, bind, Except.bind, Database.replaceChunks] at h
    split at h
    · split at h
      · simp at h
      · cases h; rfl
    · cases h; rfl

/-- No statement writes to `tenants`. -/
theorem tenants_exec (o : Oracle) (c : Call) (t : World) :
    (exec o c t).1.db.tenants = t.db.tenants := by
  have heffect := exec_effect o c t
  generalize (exec o c t).1.db = db at heffect
  cases heffect with
  | same => rfl
  | insert => rfl
  | delete => rfl
  | commit hcommit =>
    obtain ⟨db₁, hu, hr⟩ := commit_ok hcommit
    obtain ⟨-, -, rfl⟩ := Database.replaceChunks_ok hr
    rcases Database.update_ok hu with ⟨-, rfl⟩ | ⟨-, -, -, rfl⟩
    · rfl
    · rfl

theorem exec_commit (o : Oracle) (txn : Txn) (t : World) :
    (∃ db, t.db.commit txn o.skip = .ok db ∧ (exec o (.commit txn) t).1 = { t with db := db } ∧
      ((exec o (.commit txn) t).2 = .ok () ∨ ∃ name, o.fault = some (.lostAck name) ∧
        (exec o (.commit txn) t).2 = .error (.other name))) ∨
      ∃ e, e.transient ∧ exec o (.commit txn) t = (t, .error e) := by
  have hserve : serve o (.commit txn) t = t.write () (t.db.commit txn o.skip) := rfl
  cases h : t.db.commit txn o.skip with
  | error e =>
    rw [h] at hserve
    rcases exec_cases o (.commit txn) t with he | ⟨name, hr, he⟩
    · exact .inr ⟨e, commit_error h, he.trans hserve⟩
    · refine .inr ⟨.other name, rfl, Prod.ext (he.elim id fun he => he.2.trans ?_) hr⟩
      rw [hserve]
      rfl
  | ok db =>
    rw [h] at hserve
    rcases exec_cases o (.commit txn) t with he | ⟨name, hr, he | ⟨hf, he⟩⟩
    · exact .inl ⟨db, rfl, by rw [he, hserve]; rfl, .inl (by rw [he, hserve]; rfl)⟩
    · exact .inr ⟨.other name, rfl, Prod.ext he hr⟩
    · exact .inl ⟨db, rfl, by rw [he, hserve]; rfl, .inr ⟨name, hf, hr⟩⟩

theorem document_commit {db db' : Database} {txn : Txn} {skip : Nat}
    (h : db.commit txn skip = .ok db') (id : Uuid) :
    db'.document id = if id = txn.document.loaded.id
      then (db.document id).map txn.document.patch.apply else db.document id := by
  obtain ⟨db₁, hu, hr⟩ := commit_ok h
  obtain ⟨-, ha, rfl⟩ := Database.replaceChunks_ok hr
  rw [Database.document_replace]
  rcases Database.update_ok hu with ⟨hp, rfl⟩ | ⟨-, -, -, rfl⟩
  · split
    · rw [hp]
      cases db₁.document id with
      | none => rfl
      | some d => rfl
    · rfl
  · split
    · next hid => subst hid; exact Database.document_patch_self
    · next hid => exact Database.document_patch_of_ne hid

theorem chunksOf_commit {db db' : Database} {txn : Txn} {skip : Nat}
    (h : db.commit txn skip = .ok db') (id : Uuid) :
    db'.chunksOf id = (db.chunksOf id).filter (·.id ∉ txn.doomed) ++
      (numberChunks (db.nextChunkId + skip) txn.added).filter (·.documentId = id) := by
  obtain ⟨db₁, hu, hr⟩ := commit_ok h
  obtain ⟨-, ha, rfl⟩ := Database.replaceChunks_ok hr
  rw [Database.chunksOf_replace]
  rcases Database.update_ok hu with ⟨-, rfl⟩ | ⟨-, -, -, rfl⟩
  · rfl
  · rfl

def Document.file (d : Document) : Document :=
  { d with status := .pending, errorMessage := none, chunkCount := none }

@[simp] theorem Patch.apply_file (p : Patch) (d : Document) : (p.apply d).file = d.file := rfl

theorem Document.tenantId_of_file {d e : Document} (h : d.file = e.file) : d.tenantId = e.tenantId :=
  congrArg (·.tenantId) h

theorem Document.sourceType_of_file {d e : Document} (h : d.file = e.file) :
    d.sourceType = e.sourceType := congrArg (·.sourceType) h

theorem Document.rawContent_of_file {d e : Document} (h : d.file = e.file) :
    d.rawContent = e.rawContent := congrArg (·.rawContent) h

namespace Database

/-- Ids are handed out once, a deleted row stays away, a chunk id names one row for ever. -/
structure Grows (db db' : Database) : Prop where
  issued : ∀ x ∈ db.issued, x ∈ db'.issued
  gone : ∀ id ∈ db.issued.map Prod.fst, db.document id = none → db'.document id = none
  file : ∀ id d d', db.document id = some d → db'.document id = some d' → d'.file = d.file
  nextChunkId : db.nextChunkId ≤ db'.nextChunkId
  chunks : ∀ c ∈ db'.chunks, c.id < db.nextChunkId → c ∈ db.chunks

namespace Grows

variable {db db' db'' : Database}

theorem refl (db : Database) : Grows db db where
  issued _ hx := hx
  gone _ _ h := h
  file id d d' hd hd' := by rw [Option.some.inj (hd.symm.trans hd')]
  nextChunkId := le_rfl
  chunks _ hc _ := hc

theorem gone' (h : Grows db db') {id : Uuid} (hid : id ∈ db.issued.map Prod.fst)
    {d : Document} (hd : db'.document id = some d) : ∃ e, db.document id = some e := by
  cases he : db.document id with
  | none => rw [h.gone id hid he] at hd; exact absurd hd (by simp)
  | some e => exact ⟨e, rfl⟩

theorem issued' (h : Grows db db') {id : Uuid} (hid : id ∈ db.issued.map Prod.fst) :
    id ∈ db'.issued.map Prod.fst := by
  obtain ⟨x, hx, rfl⟩ := List.mem_map.mp hid
  exact List.mem_map.mpr ⟨x, h.issued x hx, rfl⟩

theorem trans (h : Grows db db') (h' : Grows db' db'') : Grows db db'' where
  issued x hx := h'.issued x (h.issued x hx)
  gone id hid hd := h'.gone id (h.issued' hid) (h.gone id hid hd)
  file id d d'' hd hd'' := by
    obtain ⟨d', hd'⟩ := h'.gone' (h.issued' (issued_of_document hd)) hd''
    rw [h'.file id d' d'' hd' hd'', h.file id d d' hd hd']
  nextChunkId := h.nextChunkId.trans h'.nextChunkId
  chunks c hc hid := h.chunks c (h'.chunks c hc (hid.trans_le h.nextChunkId)) hid

theorem chunk_eq (h : Grows db db') {c c' : Chunk} (hc : c ∈ db.chunks) (hc' : c' ∈ db'.chunks)
    (hid : c.id = c'.id) : c' = c := by
  have hold : c' ∈ db.chunks := h.chunks c' hc' (hid ▸ db.chunks_seq c hc)
  exact List.inj_on_of_nodup_map db.chunks_pk hold hc hid.symm

theorem add {d : Document} (h : db.Fits d) : Grows db (db.add d h) where
  issued x hx := List.mem_cons_of_mem _ hx
  gone id hid hd := by
    have hne : id ≠ d.id := fun he => h.1 (he ▸ hid)
    rw [document_add, if_neg hne]
    exact hd
  file id e e' he he' := by
    have hne : id ≠ d.id := fun hid => h.1 (hid ▸ issued_of_document he)
    rw [document_add, if_neg hne] at he'
    rw [Option.some.inj (he.symm.trans he')]
  nextChunkId := le_rfl
  chunks c hc _ := hc

theorem commit {txn : Txn} {skip : Nat} (h : db.commit txn skip = .ok db') : Grows db db' := by
  have hdoc := document_commit h
  obtain ⟨db₁, hu, hr⟩ := commit_ok h
  obtain ⟨-, ha, rfl⟩ := replaceChunks_ok hr
  have hissued : db₁.issued = db.issued ∧ db₁.nextChunkId = db.nextChunkId ∧
      db₁.chunks = db.chunks := by
    rcases update_ok hu with ⟨-, rfl⟩ | ⟨-, -, -, rfl⟩
    · exact ⟨rfl, rfl, rfl⟩
    · exact ⟨rfl, rfl, rfl⟩
  refine ⟨fun x hx => ?_, fun id _ hd => ?_, fun id d d' hd hd' => ?_, ?_, fun c hc hid => ?_⟩
  · rw [issued_replace, hissued.1]; exact hx
  · rw [hdoc, hd]; simp
  · rw [hdoc, hd] at hd'
    split at hd'
    · rw [← Option.some.inj hd']; exact Patch.apply_file _ _
    · rw [Option.some.inj hd']
  · change db.nextChunkId ≤ db₁.nextChunkId + skip + _
    omega
  · rcases List.mem_append.mp hc with hc | hc
    · exact hissued.2.2 ▸ (List.mem_filter.mp hc).1
    · have := (mem_numberChunks hc).1.1
      omega

theorem deleteDocument (db : Database) (id : Uuid) : Grows db (db.deleteDocument id) where
  issued _ hx := hx
  gone j _ hd := by rw [document_deleteDocument, hd]; simp
  file j d d' hd hd' := by
    rw [document_deleteDocument, hd] at hd'
    split at hd'
    · simp at hd'
    · rw [Option.some.inj hd']
  nextChunkId := le_rfl
  chunks c hc _ := (List.mem_filter.mp hc).1

end Grows

end Database

theorem Effect.grows {c : Call} {db db' : Database} (h : Effect o db c db') : db.Grows db' := by
  cases h with
  | same => exact .refl _
  | insert hf _ => exact .add hf
  | commit hc => exact .commit hc
  | delete => exact .deleteDocument _ _

end RagPlatform
