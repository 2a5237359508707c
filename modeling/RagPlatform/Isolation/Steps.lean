import RagPlatform.Isolation.Calls

/-! One await: of the tenant's, and of somebody else's. -/

namespace RagPlatform

open Lib

namespace SameView

variable {t u : Uuid} {v x : View} {w w' w'' : World} {o : Oracle} {c c' : Call}

theorem insertUsage (h : SameView t v w w') (record : UsageRecord) :
    SameView t v (w.insertUsage record).1 (w'.insertUsage record).1 ∧
      Agree Eq (w.insertUsage record).2 (w'.insertUsage record).2 := by
  unfold World.insertUsage
  rw [h.rows.tenants]
  split
  · exact ⟨h, .error _⟩
  · split
    · refine ⟨{ h with usage := ?_ }, .ok rfl⟩
      simp only [List.filter_append, h.usage]
    · exact ⟨h, .error _⟩

theorem live (h : SameView t v w w') (window now : Nat) :
    w.redis.live now (bucket (rateLimitKey t) window) =
      w'.redis.live now (bucket (rateLimitKey t) window) := by
  rw [Redis.live, h.counters, Redis.live]

theorem setCounter (h : SameView t v w w') (key : Str) (counter : Counter) :
    SameView t v { w with redis := w.redis.set key counter }
      { w' with redis := w'.redis.set key counter } where
  __ := h
  counters window := by
    by_cases hkey : bucket (rateLimitKey t) window = key
    · simp only [hkey, Dict.get?_set_self]
    · simp only [Dict.get?_set_of_ne _ _ hkey, h.counters]

theorem incr (h : SameView t v w w') (window : Nat) :
    SameView t v (serve o (.incr (bucket (rateLimitKey t) window)) w).1
        (serve o (.incr (bucket (rateLimitKey t) window)) w').1 ∧
      Agree Eq (serve o (.incr (bucket (rateLimitKey t) window)) w).2
        (serve o (.incr (bucket (rateLimitKey t) window)) w').2 := by
  simp only [serve, Redis.incr, h.live]
  exact ⟨h.setCounter _ _, .ok rfl⟩

theorem expire (h : SameView t v w w') (window seconds : Nat) :
    SameView t v (serve o (.expire (bucket (rateLimitKey t) window) seconds) w).1
      (serve o (.expire (bucket (rateLimitKey t) window) seconds) w').1 := by
  simp only [serve, Redis.expire, h.live]
  split
  · exact { h with counters := h.counters }
  · exact h.setCounter _ _

theorem usageRollup (h : SameView t v w w') (since : Int) :
    usageRollup w.usageRecords t since = RagPlatform.usageRollup w'.usageRecords t since := by
  have hfilter (records : List UsageRecord) :
      (records.filter fun r => r.tenantId = t ∧ since ≤ r.createdAt) =
        (records.filter (·.tenantId = t)).filter fun r => since ≤ r.createdAt := by
    rw [List.filter_filter]
    refine List.filter_congr fun r _ => ?_
    rw [Bool.decide_and, Bool.and_comm]
  simp only [RagPlatform.usageRollup, hfilter, h.usage]

theorem same (h : SameView t v w w') (hc : c.Of t) :
    SameView t v (serve o c w).1 (serve o c w').1 ∧ Agree Eq (serve o c w).2 (serve o c w').2 := by
  have hdocuments : w.db.documents.filter (·.tenantId = t) =
    w'.db.documents.filter (·.tenantId = t) := h.rows.documents
  have hagree {α : Type} (x : Except Exn α) : Agree Eq x x := by
    cases x with
    | ok a => exact .ok rfl
    | error e => exact .error e
  cases c with
  | getTenant id => exact ⟨h, by simp only [serve, h.rows.tenants]; exact hagree _⟩
  | getCredential id => exact ⟨h, by simp only [serve, h.credentials]; exact hagree _⟩
  | sumSizeBytes id =>
    cases hc
    exact ⟨h, by simp only [serve, Database.usedBytes, hdocuments]; exact hagree _⟩
  | countDocuments id =>
    cases hc
    exact ⟨h, by simp only [serve, Database.countDocuments, hdocuments]; exact hagree _⟩
  | listDocuments id limit offset =>
    cases hc
    exact ⟨h, by simp only [serve, Database.listDocuments, hdocuments]; exact hagree _⟩
  | usageRollup id since =>
    cases hc
    exact ⟨h, by simp only [serve, h.usageRollup]; exact hagree _⟩
  | insertUsage usage => exact h.insertUsage (usage.row o.now)
  | incr key =>
    obtain ⟨window, rfl⟩ := hc
    exact h.incr window
  | expire key seconds =>
    obtain ⟨window, rfl⟩ := hc
    exact ⟨h.expire window seconds, hagree _⟩
  | delay id => exact ⟨{ h with counters := h.counters }, hagree _⟩
  | rollback | embedDocuments | time | loopTime | sleep | isDisconnected | embedQuery | rerank
  | generate | stream => exact ⟨h, hagree _⟩
  | insertDocument | getDocument | deleteChunks | commit | deleteDocument | denseSearch
  | keywordSearch | findTenant | findCredential | insertCredential | commitCredential =>
    exact hc.elim

theorem limited {k : Int} {f f' : Nat → List ChunkHit} (h : ∀ n, v.Relates (f n) (f' n)) :
    Agree v.Relates (limited k f) (RagPlatform.limited k f') := by
  unfold RagPlatform.limited
  split
  · exact .error _
  · exact .ok (h _)

theorem serve (h : SameView t v w w') {R : View → Reply c → Reply c' → Prop}
    (hc : Call.Alike t v c c' R) (hfresh : c.Fresh o w) : ∃ u, v ≤ u ∧
      SameView t u (serve o c w).1 (RagPlatform.serve o c' w').1 ∧
        Agree (R u) (RagPlatform.serve o c w).2 (RagPlatform.serve o c' w').2 := by
  cases hc with
  | same hc => exact ⟨v, le_rfl, h.same hc⟩
  | insertDocument hd => exact h.insertDocument hd hfresh
  | getDocument id => exact ⟨v, le_rfl, h, .ok (h.getDocument id)⟩
  | getOwn hid => exact ⟨v, le_rfl, h, .ok (h.getOwn hid)⟩
  | deleteChunks hid => exact ⟨v, le_rfl, h, .ok (h.deleteChunks hid)⟩
  | commit htxn => exact h.write (h.rows.commit htxn o.skip)
  | deleteDocument hid =>
    exact ⟨v, le_rfl, h.withDb (h.rows.deleteDocument _), .ok rfl⟩
  | denseSearch e k =>
    exact ⟨v, le_rfl, h, limited fun n => h.rows.denseSearch o.cosineDistance e n⟩
  | keywordSearch query k =>
    exact ⟨v, le_rfl, h, limited fun n => h.rows.keywordSearch o.tsRank query n⟩

theorem instant_eq {R : View → Reply c → Reply c' → Prop} (hc : Call.Alike t v c c' R) :
    c'.instant = c.instant := by
  cases hc with
  | same | insertDocument | getDocument | getOwn | deleteChunks | commit | deleteDocument
  | denseSearch | keywordSearch => rfl

theorem exec (h : SameView t v w w') {R : View → Reply c → Reply c' → Prop}
    (hc : Call.Alike t v c c' R) (hfresh : c.Fresh o w) : ∃ u, v ≤ u ∧
      SameView t u (exec o c w).1 (RagPlatform.exec o c' w').1 ∧
        Agree (R u) (RagPlatform.exec o c w).2 (RagPlatform.exec o c' w').2 := by
  obtain ⟨u, hvu, hu, hreply⟩ := h.serve hc hfresh
  unfold RagPlatform.exec
  rw [instant_eq hc]
  cases o.fault with
  | none => exact ⟨u, hvu, hu, hreply⟩
  | some f =>
    cases c.instant with
    | true => exact ⟨u, hvu, hu, hreply⟩
    | false =>
      cases f with
      | raised name => exact ⟨v, le_rfl, h, .error _⟩
      | lostAck name => exact ⟨u, hvu, hu, .error _⟩

section Other

variable (h : SameView t v w w') (htu : t ≠ u)
include h htu

theorem setCounter_other {window : Nat} {counter : Counter} :
    SameView t v { w with redis := w.redis.set (bucket (rateLimitKey u) window) counter } w' where
  __ := h
  counters m := by
    have hne : bucket (rateLimitKey t) m ≠ bucket (rateLimitKey u) window :=
      fun hkey => htu (bucket_tenant hkey)
    simp only [Dict.get?_set_of_ne _ _ hne, h.counters]

theorem insertUsage_other {record : UsageRecord} (hr : record.tenantId = u) :
    SameView t v (w.insertUsage record).1 w' := by
  unfold World.insertUsage
  split
  · exact h
  · split
    · refine { h with usage := ?_ }
      have hne : ¬ record.tenantId = t := fun hr' => htu (hr'.symm.trans hr)
      simp only [List.filter_append, List.filter_cons, hne, decide_false, Bool.false_eq_true,
        if_false, List.filter_nil, List.append_nil, h.usage]
    · exact h

theorem same_other (hc : c.Of u) : SameView t v (RagPlatform.serve o c w).1 w' := by
  cases c with
  | insertUsage usage => exact h.insertUsage_other htu hc
  | incr key =>
    obtain ⟨window, rfl⟩ := hc
    exact h.setCounter_other htu
  | expire key seconds =>
    obtain ⟨window, rfl⟩ := hc
    simp only [RagPlatform.serve, Redis.expire]
    split
    · exact { h with counters := h.counters }
    · exact h.setCounter_other htu
  | delay id => exact { h with counters := h.counters }
  | getTenant | getCredential | sumSizeBytes | countDocuments | listDocuments | usageRollup
  | rollback | embedDocuments | time | loopTime | sleep | isDisconnected | embedQuery | rerank
  | generate | stream => exact h
  | insertDocument | getDocument | deleteChunks | commit | deleteDocument | denseSearch
  | keywordSearch | findTenant | findCredential | insertCredential | commitCredential =>
    exact hc.elim

variable (hu : SameView u x w w'')
include hu

theorem serve_other {R : View → Reply c → Reply c' → Prop} (hc : Call.Alike u x c c' R) :
    SameView t v (RagPlatform.serve o c w).1 w' := by
  cases hc with
  | same hc => exact h.same_other htu hc
  | @insertDocument d hd =>
    simp only [RagPlatform.serve]
    cases hdb : w.db.insertDocument (d.row o.uuid o.now) with
    | error e => exact h
    | ok db =>
      obtain ⟨-, hf, rfl⟩ := Database.insertDocument_ok hdb
      exact { h with rows := h.rows.add_other htu hd hf }
  | @commit txn txn' htxn =>
    simp only [RagPlatform.serve]
    cases hdb : w.db.commit txn o.skip with
    | error e => exact h
    | ok db => exact { h with rows := h.rows.commit_other hu.rows htu htxn hdb }
  | deleteDocument hid =>
    exact { h with rows := h.rows.deleteDocument_other hu.rows htu hid }
  | getDocument | getOwn | deleteChunks | denseSearch | keywordSearch => exact h

theorem exec_other {R : View → Reply c → Reply c' → Prop} (hc : Call.Alike u x c c' R) :
    SameView t v (RagPlatform.exec o c w).1 w' := by
  rcases exec_cases o c w with he | ⟨_, -, he | ⟨-, he⟩⟩
  · rw [he]; exact h.serve_other htu hu hc
  · rw [he]; exact h
  · rw [he]; exact h.serve_other htu hu hc

end Other

end SameView

theorem unwinding :
    Pool.Unwinding exec (fun o c w => Call.Fresh o w c) likeness SameView where
  own := by
    rintro t v w w' o c c' _ ⟨R, hc, rfl⟩ h hfresh
    exact h.exec hc hfresh
  other := by
    rintro t u x v w w'' w' o c c' _ htu ⟨R, hc, rfl⟩ hu h -
    exact h.exec_other htu hu hc

end RagPlatform
