import RagPlatform.Lib.Custody
import RagPlatform.Regular
import RagPlatform.Services.IngestionOutcome
import RagPlatform.StorableText

/-! Who sees to a row that is neither `COMPLETED` nor `FAILED`. -/

namespace RagPlatform

open Lib

def Unsettled (w : World) (id : Uuid) : Prop :=
  ∃ d, w.db.document id = some d ∧ d.status.terminal = false

/-- Every row has its payload, as all have that were uploaded since the column exists. -/
def Payloads (w : World) : Prop := ∀ id d, w.db.document id = some d → d.rawContent ≠ none

/-- The requests of an upload that has its row, but has not enqueued it yet. -/
def Handing (id : Uuid) (c : Call) : Prop :=
  c = .delay id ∨ ∃ t, c = .commit t ∧ t.document.loaded.id = id

/-- Answers that leave a row in somebody's hands: an INSERT reports its row, the write that marks a
row failed goes through, a worker that has failed once can read the row it is to mark, and no
embedder claims that a document is gone. -/
def Heedful (worker : Bool) (l : Log api) (o : Oracle) : Call → Prop
  | .insertDocument _ => ∀ name, o.fault ≠ some (.lostAck name)
  | .commit t => t.document.current.status = .failed → ∀ name, o.fault ≠ some (.raised name)
  | .getDocument _ => worker → l ≠ [] → o.fault = none
  | .embedDocuments texts => ∀ detail, o.embed texts ≠ .error (.notFound detail)
  | _ => True

/-- What is due of the rows, with a message as the way to pass it on. -/
def attendance (worker : Bool) : Duty api World Oracle Uuid where
  due := Unsettled
  passed w w' id := id ∈ w'.queue.drop w.queue.length
  place id c := worker ∨ Handing id c
  step l o c w := Heedful worker l o c ∧ Payloads w

section

variable {o : Oracle} {c : Call} {w : World} {id : Uuid} {worker : Bool}

def Call.Opens : Call → Prop
  | .insertDocument _ => True
  | .commit t => t.document.current.status.terminal = false
  | _ => False

theorem Call.Aside.not_opens {c : Call} (h : c.Aside) : ¬c.Opens := by
  cases c with
  | insertDocument d => exact absurd h id
  | commit t => exact absurd h id
  | _ => exact id

theorem commit_status {db db' : Database} {t : Txn} {skip : Nat} {d : Document}
    (h : db.commit t skip = .ok db') (hd : db'.document t.document.loaded.id = some d) :
    ∃ e, db.document t.document.loaded.id = some e ∧ d.status =
      if t.document.loaded.status = t.document.current.status then e.status
      else t.document.current.status := by
  rw [document_commit h, if_pos rfl] at hd
  obtain ⟨e, he, rfl⟩ := Option.map_eq_some_iff.mp hd
  refine ⟨e, he, ?_⟩
  simp only [Patch.apply, Instance.patch]
  split
  · rfl
  · rfl

theorem unsettled_of_exec (hc : ¬c.Opens) (h : Unsettled (exec o c w).1 id) : Unsettled w id := by
  obtain ⟨d, hd, hstatus⟩ := h
  have heffect := exec_effect o c w
  generalize (exec o c w).1.db = db at heffect hd
  cases heffect with
  | same => exact ⟨d, hd, hstatus⟩
  | insert => exact absurd trivial hc
  | @commit t _ hcommit =>
    have hterm : t.document.current.status.terminal = true := Bool.eq_true_of_not_eq_false hc
    by_cases hid : id = t.document.loaded.id
    · subst hid
      obtain ⟨e, he, hde⟩ := commit_status hcommit hd
      split at hde
      · exact ⟨e, he, hde ▸ hstatus⟩
      · rw [hde, hterm] at hstatus
        cases hstatus
    · rw [document_commit hcommit, if_neg hid] at hd
      exact ⟨d, hd, hstatus⟩
  | delete =>
    rw [Database.document_deleteDocument] at hd
    split at hd
    · cases hd
    · exact ⟨d, hd, hstatus⟩

theorem exec_fst_of_not_raised (h : ∀ name, o.fault ≠ some (.raised name)) :
    (exec o c w).1 = (serve o c w).1 := by
  unfold exec
  cases hf : o.fault with
  | none => rfl
  | some f =>
    cases f with
    | raised name => exact absurd hf (h name)
    | lostAck name =>
      cases c.instant with
      | true => rfl
      | false => rfl

theorem opens_commit {t : Txn} (h : ¬Unsettled w id)
    (h' : Unsettled (exec o (.commit t) w).1 id) : id = t.document.loaded.id := by
  by_contra hid
  refine h ?_
  obtain ⟨d, hd, hstatus⟩ := h'
  have heffect := exec_effect o (.commit t) w
  generalize (exec o (.commit t) w).1.db = db at heffect hd
  cases heffect with
  | same => exact ⟨d, hd, hstatus⟩
  | commit hcommit =>
    rw [document_commit hcommit, if_neg hid] at hd
    exact ⟨d, hd, hstatus⟩

theorem document_of_read {row : Option Document}
    (h : (exec o (.getDocument id) w).2 = .ok row) : w.db.document id = row := by
  rcases exec_cases o (.getDocument id) w with he | ⟨name, hname, -⟩
  · rw [he] at h
    exact Except.ok.inj h
  · rw [hname] at h
    cases h

theorem settled_of_commit {db : Database} {t : Txn} (hid : t.document.loaded.id = id)
    (hloaded : t.document.loaded.status.terminal = false)
    (hcurrent : t.document.current.status.terminal) (h : w.db.commit t o.skip = .ok db) :
    ¬Unsettled { w with db := db } id := by
  rintro ⟨d, hd, hstatus⟩
  subst hid
  obtain ⟨e, -, hde⟩ := commit_status h hd
  rw [if_neg fun heq => by rw [heq, hcurrent] at hloaded; cases hloaded] at hde
  rw [hde, hcurrent] at hstatus
  cases hstatus

theorem settled_of_fail {document : Instance} {message : Str} (hid : document.loaded.id = id)
    (hloaded : document.loaded.status.terminal = false)
    (hmessage : storableText (message.take 500)) (h : ∀ name, o.fault ≠ some (.raised name)) :
    ¬Unsettled (exec o (.commit (failTxn document message)) w).1 id := by
  rw [exec_fst_of_not_raised h]
  change ¬Unsettled (w.write () (w.db.commit (failTxn document message) o.skip)).1 id
  cases hc : w.db.commit (failTxn document message) o.skip with
  | ok db => exact settled_of_commit (t := failTxn document message) hid hloaded rfl hc
  | error e =>
    rintro ⟨d, hd, -⟩
    have hpatch : (failTxn document message).document.patch.storable := by
      rw [failTxn_patch]
      by_cases hm : document.loaded.errorMessage = some (message.take 500)
      · simp [Patch.storable, hm]
      · simp [Patch.storable, hm, hmessage]
    obtain ⟨db, hok⟩ := commit_isOk (failTxn document message) o.skip hpatch
      (by rw [failTxn_id, hid]; exact hd) rfl w.db.admits_nil
    rw [hok] at hc
    cases hc

end

section

variable {α : Type} {c : Call} {id : Uuid} {worker : Bool} {K : Uuid → Prop} {l : Log api}

theorem mindsE_perform {Q : Except Exn (Reply c) → Log api → Prop} (hplace : worker ∨ Handing id c)
    (h : ∀ o w, Heedful worker l o c → Payloads w →
      (attendance worker).Rid id w (exec o c w).1 ∨ Q (exec o c w).2 (l ++ [⟨c, (exec o c w).2⟩])) :
    MindsE exec (attendance worker) id Q (perform c) l :=
  ⟨hplace, fun o w ho => h o w ho.1 ho.2⟩

theorem mindsE_perform_bind {Q : Except Exn α → Log api → Prop} {f : Reply c → Io α}
    (hplace : worker ∨ Handing id c)
    (h : ∀ o w, Heedful worker l o c → Payloads w →
      (attendance worker).Rid id w (exec o c w).1 ∨
        mindsBind exec (attendance worker) id Q f (exec o c w).2 (l ++ [⟨c, (exec o c w).2⟩])) :
    MindsE exec (attendance worker) id Q (perform c >>= f) l :=
  .bind (mindsE_perform hplace h)

theorem carefulE_perform_bind {Q : Uuid → Except Exn α → Log api → Prop} {f : Reply c → Io α}
    (h : ∀ o w, Heedful worker l o c → Payloads w →
      (∀ k, ¬Unsettled w k → Unsettled (exec o c w).1 k → K k ∧
        mindsBind exec (attendance worker) k (Q k) f (exec o c w).2 (l ++ [⟨c, (exec o c w).2⟩])) ∧
      ∀ a, (exec o c w).2 = .ok a →
        CarefulE exec (attendance worker) K Q (f a) (l ++ [⟨c, .ok a⟩])) :
    CarefulE exec (attendance worker) K Q (perform c >>= f) l := by
  intro o w ho
  obtain ⟨hopen, hrest⟩ := h o w ho.1 ho.2
  generalize exec o c w = x at hopen hrest ⊢
  obtain ⟨w', r⟩ := x
  cases r with
  | ok a =>
    refine ⟨fun k hk hk' => ?_, hrest a rfl⟩
    obtain ⟨hK, hminds⟩ := hopen k hk hk'
    exact ⟨hK, .inr hminds⟩
  | error e =>
    refine ⟨fun k hk hk' => ?_, trivial⟩
    obtain ⟨hK, hminds⟩ := hopen k hk hk'
    exact ⟨hK, .inr hminds⟩

theorem carefulE_read_bind {Q : Uuid → Except Exn α → Log api → Prop} {f : Reply c → Io α}
    (hc : ¬c.Opens) (h : ∀ o w a, Heedful worker l o c → Payloads w → (exec o c w).2 = .ok a →
      CarefulE exec (attendance worker) K Q (f a) (l ++ [⟨c, .ok a⟩])) :
    CarefulE exec (attendance worker) K Q (perform c >>= f) l :=
  carefulE_perform_bind fun o w ho hw =>
    ⟨fun _ hk hk' => absurd (unsettled_of_exec hc hk') hk, fun a => h o w a ho hw⟩

theorem carefulE_perform {Q : Uuid → Except Exn (Reply c) → Log api → Prop}
    (h : ∀ o w, Heedful worker l o c → Payloads w → ∀ k, ¬Unsettled w k →
      Unsettled (exec o c w).1 k → K k ∧ Q k (exec o c w).2 (l ++ [⟨c, (exec o c w).2⟩])) :
    CarefulE exec (attendance worker) K Q (perform c) l := fun o w ho =>
  ⟨fun k hk hk' => (h o w ho.1 ho.2 k hk hk').imp_right .inr, trivial⟩

theorem carefulE_of_only {Q : Uuid → Except Exn α → Log api → Prop} {q : Io α}
    (h : OnlyE (fun c : Call => ¬c.Opens) q) : CarefulE exec (attendance worker) K Q q l :=
  .of_only (Async.Only.mono h fun _ hc _ _ _ => unsettled_of_exec hc) l

end

section

variable {α : Type} {id : Uuid} {worker : Bool} {l : Log api} {document : Instance}

theorem minds_fail {message : Str} (Q : Except Exn Unit → Log api → Prop)
    (hid : document.loaded.id = id) (hloaded : document.loaded.status.terminal = false)
    (hmessage : storableText (message.take 500)) :
    MindsE exec (attendance worker) id Q
      (markFailed (some document) document.current.id message) l :=
  mindsE_perform (.inr (.inr ⟨failTxn document message, rfl, hid⟩)) fun _ _ ho _ =>
    .inl (.inl (settled_of_fail hid hloaded hmessage (ho rfl)))

theorem only_markFailed (session : Session) (documentId : Uuid) (message : Str) :
    OnlyE (fun c : Call => ¬c.Opens) (markFailed session documentId message) := by
  cases session with
  | none =>
    refine .bind (only_perform id) fun row => ?_
    cases row with
    | none => exact .pure _
    | some d => exact only_perform (by rintro ⟨⟩)
  | some document => exact only_perform (by rintro ⟨⟩)

end

end RagPlatform
