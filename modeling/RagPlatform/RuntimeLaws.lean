import RagPlatform.DatabaseLaws
import RagPlatform.Runtime

/-! Rules for one await: what it may do to the tables, and what comes after it. -/

namespace RagPlatform

open Lib

variable {α β : Type} {o : Oracle} {c : Call} {s t : World} {l : Log api}

theorem exec_cases (o : Oracle) (c : Call) (t : World) :
    exec o c t = serve o c t ∨ ∃ name, (exec o c t).2 = .error (.other name) ∧
      ((exec o c t).1 = t ∨
        o.fault = some (.lostAck name) ∧ (exec o c t).1 = (serve o c t).1) := by
  unfold exec
  cases o.fault with
  | none => exact .inl rfl
  | some f =>
    cases c.instant with
    | true => exact .inl rfl
    | false =>
      cases f with
      | raised name => exact .inr ⟨name, rfl, .inl rfl⟩
      | lostAck name => exact .inr ⟨name, rfl, .inr ⟨rfl, rfl⟩⟩

theorem exec_ok {o : Oracle} {c : Call} {t : World} {x : Reply c} (h : (exec o c t).2 = .ok x) :
    exec o c t = serve o c t := by
  rcases exec_cases o c t with he | ⟨name, he, -⟩
  · exact he
  · rw [he] at h
    cases h

theorem exec_of_no_fault (h : o.fault = none) : exec o c t = serve o c t := by
  unfold exec
  rw [h]

def Call.Reads (c : Call) : Prop := ∀ o w, (serve o c w).1 = w

theorem Call.reads_getTenant (id : Uuid) : (Call.getTenant id).Reads := fun _ _ => rfl
theorem Call.reads_sumSizeBytes (id : Uuid) : (Call.sumSizeBytes id).Reads := fun _ _ => rfl
theorem Call.reads_getDocument (id : Uuid) : (Call.getDocument id).Reads := fun _ _ => rfl
theorem Call.reads_deleteChunks (id : Uuid) : (Call.deleteChunks id).Reads := fun _ _ => rfl
theorem Call.reads_rollback : Call.rollback.Reads := fun _ _ => rfl
theorem Call.reads_embedDocuments (texts : List Str) : (Call.embedDocuments texts).Reads :=
  fun _ _ => rfl
theorem Call.reads_time : Call.time.Reads := fun _ _ => rfl
theorem Call.reads_loopTime : Call.loopTime.Reads := fun _ _ => rfl
theorem Call.reads_sleep (seconds : Nat) : (Call.sleep seconds).Reads := fun _ _ => rfl
theorem Call.reads_isDisconnected : Call.isDisconnected.Reads := fun _ _ => rfl
theorem Call.reads_countDocuments (id : Uuid) : (Call.countDocuments id).Reads := fun _ _ => rfl
theorem Call.reads_listDocuments (id : Uuid) (limit offset : Nat) :
    (Call.listDocuments id limit offset).Reads := fun _ _ => rfl
theorem Call.reads_embedQuery (text : Str) : (Call.embedQuery text).Reads := fun _ _ => rfl
theorem Call.reads_denseSearch (id : Uuid) (e : Embedding) (k : Int) :
    (Call.denseSearch id e k).Reads := fun _ _ => rfl
theorem Call.reads_keywordSearch (id : Uuid) (query : Str) (k : Int) :
    (Call.keywordSearch id query k).Reads := fun _ _ => rfl
theorem Call.reads_rerank (query : Str) (texts : List Str) : (Call.rerank query texts).Reads :=
  fun _ _ => rfl
theorem Call.reads_generate (prompt : Prompt) : (Call.generate prompt).Reads := fun _ _ => rfl
theorem Call.reads_stream (prompt : Prompt) : (Call.stream prompt).Reads := fun _ _ => rfl
theorem Call.reads_usageRollup (id : Uuid) (since : Int) : (Call.usageRollup id since).Reads :=
  fun _ _ => rfl

theorem Call.Reads.exec (h : c.Reads) : (exec o c t).1 = t := by
  rcases exec_cases o c t with he | ⟨_, -, he | ⟨-, he⟩⟩
  · rw [he, h]
  · exact he
  · rw [he, h]

theorem ofExcept_ok_bind (a : α) (f : α → Io β) : (Io.ofExcept (.ok a) >>= f) = f a := rfl

theorem ofExcept_error_bind (e : Exn) (f : α → Io β) :
    (Io.ofExcept (.error e) >>= f) = throw e := rfl

section Rules

variable {K : Contract api World Oracle} {E : Except Exn β → World → Log api → Prop}

theorem wpE_perform {E : Except Exn (Reply c) → World → Log api → Prop}
    (h : ∀ t, K.rely s t → K.inv t → K.stop t ∧ ∀ o, K.step l o c t →
      K.inv (exec o c t).1 ∧ K.guar t (exec o c t).1 ∧
        ∀ u, K.rely (exec o c t).1 u → K.inv u →
          E (exec o c t).2 u (l ++ [⟨c, (exec o c t).2⟩])) :
    wpE exec K E (perform c) s l := h

theorem wpE_perform_bind {f : Reply c → Io β}
    (h : ∀ t, K.rely s t → K.inv t → K.stop t ∧ ∀ o, K.step l o c t →
      K.inv (exec o c t).1 ∧ K.guar t (exec o c t).1 ∧
        afterBind exec K E f (exec o c t).2 (exec o c t).1 (l ++ [⟨c, (exec o c t).2⟩])) :
    wpE exec K E (perform c >>= f) s l := by
  refine wpE_bind (wpE_perform fun t hst ht => ⟨(h t hst ht).1, fun o ho => ?_⟩)
  obtain ⟨hinv, hguar, hafter⟩ := (h t hst ht).2 o ho
  refine ⟨hinv, hguar, fun u hu _ => ?_⟩
  cases hr : (exec o c t).2 with
  | ok a => rw [hr] at hafter; exact wpE_rely hafter hu
  | error e => rw [hr] at hafter; exact wpE_rely hafter hu

theorem wpE_read_bind {f : Reply c → Io β} (hc : c.Reads) (hguar : ∀ t, K.guar t t)
    (h : ∀ t, K.rely s t → K.inv t → K.stop t ∧
      (∀ name l', wpE exec K E (throw (.other name)) t l') ∧ ∀ o, K.step l o c t →
        afterBind exec K E f (serve o c t).2 t (l ++ [⟨c, (serve o c t).2⟩])) :
    wpE exec K E (perform c >>= f) s l := by
  refine wpE_perform_bind fun t hst ht => ?_
  obtain ⟨hstop, herror, hserve⟩ := h t hst ht
  refine ⟨hstop, fun o ho => ?_⟩
  rw [hc.exec]
  refine ⟨ht, hguar t, ?_⟩
  rcases exec_cases o c t with he | ⟨name, he, -⟩
  · rw [he]; exact hserve o ho
  · rw [he]; exact herror name _

theorem keeps_perform (hstop : ∀ t, K.inv t → K.stop t)
    (h : ∀ l o t, K.inv t → K.step l o c t → K.inv (exec o c t).1 ∧ K.guar t (exec o c t).1) :
    Keeps exec K (fun _ => True) (perform c) :=
  fun _ l => wpE_perform fun t _ ht => ⟨hstop t ht, fun o ho =>
    ⟨(h l o t ht ho).1, (h l o t ht ho).2, fun _ _ _ _ _ => trivial⟩⟩

theorem keeps_read (hstop : ∀ t, K.inv t → K.stop t) (hguar : ∀ t, K.guar t t) (hc : c.Reads) :
    Keeps exec K (fun _ => True) (perform c) :=
  keeps_perform hstop fun _ _ t ht _ => by rw [hc.exec]; exact ⟨ht, hguar t⟩

theorem keeps_ofExcept (r : Except Exn α) : Keeps exec K (fun _ => True) (Io.ofExcept r) := by
  cases r with
  | ok a => exact .pure trivial
  | error e => exact .throw e

theorem keeps_emit (event : ServerEvent) : Keeps exec K (fun _ => True) (emit event) :=
  fun _ _ _ _ _ _ _ => trivial

end Rules

end RagPlatform
