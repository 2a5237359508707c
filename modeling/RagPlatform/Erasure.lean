import RagPlatform.History
import RagPlatform.Regular
import RagPlatform.Sources
import RagPlatform.SystemLaws

/-! Once its deletion has been confirmed, nothing is left of a document. -/

namespace RagPlatform

open Lib

section

variable {ι : Type} [DecidableEq ι] (ext : External) (settings : Settings) (w : World)
  (acts acts' : List (Act ι))

/-- The states the platform goes through in the acts after the first ones. -/
def Since (t : World) : Prop :=
  ∃ before, before <+: acts' ∧ t = after ext settings w (acts ++ before)

variable {ext settings w acts acts'}

theorem since_of_visits {es : List (Event api Oracle ι (Except Exn Outcome))}
    (hes : es <+: acts'.map (Act.event ext settings)) :
    Since ext settings w acts acts' ((platform ext settings w acts).run exec es).state := by
  obtain ⟨rest, hrest⟩ := hes
  obtain ⟨before, later, rfl, rfl, -⟩ := List.map_eq_append_iff.mp hrest.symm
  refine ⟨before, List.prefix_append _ _, ?_⟩
  rw [after, platform, platform, List.map_append, Pool.run_append]

theorem sourced_thread {i : ι} {job : Job} (hi : (platform ext settings w acts).threads i = none)
    (hjob : ∀ job', .start i job' ∈ acts' → job' = job) {t : Thread api (Except Exn Outcome)}
    (ht : (platform ext settings w (acts ++ acts')).threads i = some t) :
    let since := Since ext settings w acts acts'
    t.code.Follows (sourcing ext settings since job.MayRead job.query)
        (fun r => ∀ a, r = .ok a → a.Sourced since job.MayRead) ∧
      (∀ y ∈ t.out, y.Sourced since job.MayRead) ∧
        ∀ e ∈ t.log, Call.Sourced ext settings since job.MayRead job.query e.1 := by
  intro since
  rw [platform, List.map_append, Pool.run_append] at ht
  refine Pool.follows_run hi (fun p hp => ?_) (fun before o r hbefore hawaits => ?_) ht
  · obtain ⟨act, hact, he⟩ := List.mem_map.mp hp
    cases act with
    | start j job' =>
      simp only [Act.event, Event.spawn.injEq] at he
      obtain ⟨rfl, rfl⟩ := he
      rw [hjob job' hact]
      exact follows_job fun _ h => h
    | answer => cases he
    | kill => cases he
  · obtain ⟨l, out, k, hk⟩ := hawaits
    have hnext : Since ext settings w acts acts' _ := since_of_visits hbefore
    rw [Pool.run_append, Pool.run_cons, Pool.run_nil] at hnext
    refine told_exec (since_of_visits ((List.prefix_append _ _).trans hbefore)) ?_
    simpa only [Pool.next, hk] using hnext

/-- Nothing is remembered between requests: the rows, passages and prompts of a job have all stood
in the tables, under its tenant, at some moment since it was started. -/
theorem shown_stood {i : ι} {job : Job} (hi : (platform ext settings w acts).threads i = none)
    (hjob : ∀ job', .start i job' ∈ acts' → job' = job) {l : Log api} {out : List ServerEvent}
    {code : Async api (Except Exn Outcome)}
    (ht : (platform ext settings w (acts ++ acts')).threads i = some ⟨l, out, code⟩) :
    (∀ e ∈ l, Call.Sourced ext settings (Since ext settings w acts acts') job.MayRead job.query
      e.1) ∧
      (∀ y ∈ out, y.Sourced (Since ext settings w acts acts') job.MayRead) ∧
        ∀ a, code = .ret (.ok a) → a.Sourced (Since ext settings w acts acts') job.MayRead := by
  obtain ⟨hcode, hout, hlog⟩ := sourced_thread hi hjob ht
  refine ⟨hlog, hout, ?_⟩
  rintro a rfl
  exact hcode a rfl

def ServerEvent.Shows (id : Uuid) : ServerEvent → Prop
  | .status documentId .. => documentId = id
  | .citations cs => ∃ c ∈ cs, c.documentId = id
  | _ => False

def Outcome.Shows (id : Uuid) : Outcome → Prop
  | .document d | .polled d _ => d.id = id
  | .batch b => ∃ r ∈ b.results, ∃ d, r.document = some d ∧ d.id = id
  | .documents l => ∃ d ∈ l.items, d.id = id
  | .results rs => ∃ r ∈ rs, r.documentId = id
  | .answer (some a) => ∃ c ∈ a.citations, c.documentId = id
  | _ => False

/-- The id has been handed out, and there is no row of it any more. -/
def Gone (id : Uuid) (t : World) : Prop :=
  id ∈ t.db.issued.map Prod.fst ∧ t.db.document id = none

theorem Gone.grows {id : Uuid} {t t' : World} (h : Gone id t) (hgrows : t.db.Grows t'.db) :
    Gone id t' :=
  ⟨hgrows.issued' h.1, hgrows.gone id h.1 h.2⟩

theorem Gone.exec {id : Uuid} {t : World} (h : Gone id t) (o : Oracle) (c : Call) :
    Gone id (exec o c t).1 :=
  h.grows (exec_effect o c t).grows

theorem gone_since {id : Uuid} (h : Gone id (after ext settings w acts)) {t : World}
    (ht : Since ext settings w acts acts' t) : Gone id t := by
  obtain ⟨before, -, rfl⟩ := ht
  refine Pool.Visits.keeps (I := Gone id) (fun o c t ht => ht.exec o c) h
    ⟨before.map (Act.event ext settings), List.prefix_refl _, ?_⟩
  rw [after, platform, List.map_append, Pool.run_append]
  rfl

theorem grows_run (P : Platform ι) (es : List (Event api Oracle ι (Except Exn Outcome))) :
    P.state.db.Grows (P.run exec es).state.db :=
  Pool.Visits.keeps (I := fun t : World => P.state.db.Grows t.db)
    (fun o c _ ht => ht.trans (exec_effect o c _).grows) (.refl _) ⟨es, List.prefix_refl _, rfl⟩

theorem log_of_deleted {tenantId id : Uuid} {l : Log api}
    (h : Done ((Job.delete tenantId id).code ext settings) l (.ok .deleted)) :
    ∃ d, l = [⟨.getDocument id, .ok (some d)⟩, ⟨.deleteDocument d.id, .ok ()⟩] := by
  obtain ⟨_, _, u, rfl, hdelete, hend⟩ := done_bind_ok.mp h
  obtain ⟨_, _, d, rfl, howned, hperform⟩ := done_bind_ok.mp hdelete
  obtain ⟨_, _, row, rfl, hget, hfound⟩ := done_bind_ok.mp howned
  obtain rfl := done_perform.mp hget
  obtain rfl := done_perform.mp hperform
  obtain ⟨rfl, -⟩ := done_pure.mp hend
  cases row with
  | none => cases (done_throw.mp hfound).2
  | some d' =>
    simp only at hfound
    split at hfound
    · obtain ⟨rfl, hd⟩ := done_pure.mp hfound
      obtain rfl := Except.ok.inj hd
      exact ⟨d, rfl⟩
    · cases (done_throw.mp hfound).2

theorem document_of_getDocument {o : Oracle} {id : Uuid} {t : World} {d : Document}
    (h : (exec o (.getDocument id) t).2 = .ok (some d)) : t.db.document id = some d := by
  rw [exec_ok h] at h
  exact Except.ok.inj h

theorem document_of_deleteDocument {o : Oracle} {id : Uuid} {t : World}
    (h : (exec o (.deleteDocument id) t).2 = .ok ()) :
    (exec o (.deleteDocument id) t).1 = { t with db := t.db.deleteDocument id } := by
  rw [exec_ok h]
  rfl

theorem gone_of_deleted {j : ι} {tenantId id : Uuid}
    (hjob : ∀ job, .start j job ∈ acts → job = .delete tenantId id)
    (h : Returned ext settings w acts j (.ok .deleted)) : Gone id (after ext settings w acts) := by
  obtain ⟨l, out, ht⟩ := h
  obtain ⟨job, hstart, hdone⟩ := replays_started ht
  obtain rfl := hjob job hstart
  obtain ⟨d, rfl⟩ := log_of_deleted hdone
  obtain ⟨before, o, later, out', k, hes, hawaits, hx⟩ :=
    Pool.exists_step_of_log (l := [⟨.getDocument id, .ok (some d)⟩]) rfl ht rfl
  obtain ⟨before', o', later', out'', k', rfl, -, hx'⟩ :=
    Pool.exists_step_of_log (l := []) rfl hawaits rfl
  -- the row has been read, so its id has been handed out
  have hread := document_of_getDocument hx'.symm
  have hid := (Database.document_eq_some.mp hread).2
  have hgrows : ((Pool.init w : Platform ι).run exec before').state.db.Grows
      ((Pool.init w : Platform ι).run exec (before' ++ .step j o' :: later')).state.db := by
    rw [Pool.run_append]
    exact grows_run _ _
  have hdeleted := document_of_deleteDocument hx.symm
  have hgone : Gone id ((Pool.init w : Platform ι).run exec
      ((before' ++ .step j o' :: later') ++ [.step j o])).state := by
    rw [Pool.run_append, Pool.run_cons, Pool.run_nil]
    simp only [Pool.next, hawaits]
    rw [hdeleted]
    refine ⟨hgrows.issued' (Database.issued_of_document hread), ?_⟩
    change (Database.deleteDocument _ _).document id = none
    rw [Database.document_deleteDocument, if_pos hid.symm]
  rw [after, platform, hes, List.append_cons (before' ++ .step j o' :: later'), Pool.run_append]
  exact hgone.grows (grows_run _ _)

theorem Gone.chunks {id : Uuid} {t : World} (h : Gone id t) :
    ∀ c ∈ t.db.chunks, c.documentId ≠ id := by
  rintro c hc rfl
  obtain ⟨d, hd, hid⟩ := t.db.chunks_fk c hc
  have hdoc := Database.document_eq_some.mpr ⟨hd, hid⟩
  rw [h.2] at hdoc
  cases hdoc

section

variable {since : World → Prop} {own : Uuid → Prop} {id : Uuid} (hgone : ∀ t, since t → Gone id t)
include hgone

theorem Stood.ne {d : Document} (h : Stood since own d) : d.id ≠ id := by
  rintro rfl
  obtain ⟨-, t, ht, hd⟩ := h
  rw [(hgone t ht).2] at hd
  cases hd

theorem Quoted.ne {c : RetrievedChunk} (h : Quoted since own c) : c.documentId ≠ id := by
  obtain ⟨hit, scores, ⟨t, tenantId, ht, -, x, hx, score, rfl⟩, rfl⟩ := h
  obtain ⟨row, hrow, hjoin⟩ := List.mem_filterMap.mp hx
  obtain ⟨d, -, rfl⟩ := Option.map_eq_some_iff.mp hjoin
  exact (hgone t ht).chunks row (List.mem_filter.mp hrow).1

theorem Cited.ne {cs : List Citation} (h : Cited since own cs) : ∀ x ∈ cs, x.documentId ≠ id := by
  intro x hx
  obtain ⟨c, hc, he⟩ := h x hx
  rw [he]
  exact hc.ne hgone

theorem ServerEvent.Sourced.not_shows {event : ServerEvent} (h : event.Sourced since own) :
    ¬ event.Shows id := by
  cases event with
  | status =>
    obtain ⟨d, hd, rfl, -⟩ := h
    exact hd.ne hgone
  | citations cs =>
    rintro ⟨x, hx, hid⟩
    exact Cited.ne hgone h x hx hid
  | _ => exact fun h => h

theorem Outcome.Sourced.not_shows {a : Outcome} (h : a.Sourced since own) : ¬ a.Shows id := by
  cases a with
  | document d => exact Stood.ne hgone h
  | polled d => exact Stood.ne hgone h
  | batch b =>
    rintro ⟨r, hr, d, hd, hid⟩
    exact (h r hr d hd).ne hgone hid
  | documents l =>
    rintro ⟨d, hd, hid⟩
    exact (h d hd).ne hgone hid
  | results rs =>
    rintro ⟨r, hr, hid⟩
    obtain ⟨c, hc, rfl⟩ := h r hr
    exact hc.ne hgone hid
  | answer r =>
    cases r with
    | none => exact fun h => h
    | some a =>
      rintro ⟨x, hx, hid⟩
      exact Cited.ne hgone h x hx hid
  | _ => exact fun h => h

end

/-- Once a deletion has been confirmed, no request or delivery that starts later shows the document,
quotes it, or sends a word of it to a model, whatever else is under way. -/
theorem erased {i j : ι} {tenantId id : Uuid} {job : Job}
    (hdelete : ∀ job', .start j job' ∈ acts → job' = .delete tenantId id)
    (hdeleted : Returned ext settings w acts j (.ok .deleted))
    (hi : (platform ext settings w acts).threads i = none)
    (hjob : ∀ job', .start i job' ∈ acts' → job' = job) {l : Log api} {out : List ServerEvent}
    {code : Async api (Except Exn Outcome)}
    (ht : (platform ext settings w (acts ++ acts')).threads i = some ⟨l, out, code⟩) :
    (∀ t, Since ext settings w acts acts' t →
      t.db.document id = none ∧ ∀ c ∈ t.db.chunks, c.documentId ≠ id) ∧
      (∀ e ∈ l, Call.Sourced ext settings (Since ext settings w acts acts') job.MayRead job.query
        e.1) ∧
        (∀ y ∈ out, ¬ y.Shows id) ∧ ∀ a, code = .ret (.ok a) → ¬ a.Shows id := by
  have hgone (t : World) (ht : Since ext settings w acts acts' t) : Gone id t :=
    gone_since (gone_of_deleted hdelete hdeleted) ht
  obtain ⟨hcode, hout, hlog⟩ := sourced_thread hi hjob ht
  refine ⟨fun t ht => ⟨(hgone t ht).2, (hgone t ht).chunks⟩, hlog,
    fun y hy => (hout y hy).not_shows hgone, ?_⟩
  rintro a rfl
  exact (hcode a rfl).not_shows hgone

end

namespace Sample

def anew : Oracle := { oracle with uuid := ⟨8⟩, now := 1 }

/-- Both are uploaded and indexed, then the first is deleted. -/
def tidied : List (Act Nat) :=
  whole 0 4 (.upload tenantId note) ++ whole 1 6 (.deliver 0 documentId) ++
    .start 2 (.upload tenantId other) :: List.replicate 4 (.answer 2 anew) ++
      whole 3 6 (.deliver 0 ⟨8⟩) ++ whole 4 2 (.delete tenantId documentId)

def inquiry : Job := .answer tenantId { query := "What is it?".toList, stream := true }

def asking : List (Act Nat) := whole 5 4 inquiry

def confirmed : Async api (Except Exn Outcome) → Bool
  | .ret (.ok .deleted) => true
  | _ => false

theorem deleted_tidied : Returned ext {} world tidied 4 (.ok .deleted) := by
  have hended : ((platform ext {} world tidied).threads 4).any (fun t => confirmed t.code) =
      true := by
    decide +kernel
  obtain ⟨⟨l, out, code⟩, ht, hcode⟩ := (Option.any_eq_true _ _).mp hended
  unfold confirmed at hcode
  split at hcode
  · next hret => exact ⟨l, out, hret ▸ ht⟩
  · cases hcode

def cites : ServerEvent → List Uuid
  | .citations cs => cs.map (·.documentId)
  | _ => []

theorem citing_asking : ∃ l out code, (platform ext {} world (tidied ++ asking)).threads 5 =
    some ⟨l, out, code⟩ ∧ out.flatMap cites = [⟨8⟩] := by
  have hciting : ((platform ext {} world (tidied ++ asking)).threads 5).any
      (fun t => t.out.flatMap cites = [⟨8⟩]) = true := by
    decide +kernel
  obtain ⟨⟨l, out, code⟩, ht, hcites⟩ := (Option.any_eq_true _ _).mp hciting
  exact ⟨l, out, code, ht, of_decide_eq_true hcites⟩

theorem idle_tidied : (platform ext {} world tidied).threads 5 = none := by
  have hnone : ((platform ext {} world tidied).threads 5).isNone = true := by decide +kernel
  exact Option.isNone_iff_eq_none.mp hnone

theorem shown_stood_tidied : ∃ l out code, (platform ext {} world (tidied ++ asking)).threads 5 =
    some ⟨l, out, code⟩ ∧ out.flatMap cites = [⟨8⟩] ∧
      ∀ y ∈ out, y.Sourced (Since ext {} world tidied asking) inquiry.MayRead := by
  obtain ⟨l, out, code, ht, hcites⟩ := citing_asking
  obtain ⟨-, hout, -⟩ :=
    shown_stood idle_tidied (fun job h => by simpa [asking, whole] using h) ht
  exact ⟨l, out, code, ht, hcites, hout⟩

theorem erased_tidied : ∃ l out code, (platform ext {} world (tidied ++ asking)).threads 5 =
    some ⟨l, out, code⟩ ∧ out.flatMap cites = [⟨8⟩] ∧ (∀ y ∈ out, ¬ y.Shows documentId) ∧
      ∀ e ∈ l, Call.Sourced ext {} (Since ext {} world tidied asking) inquiry.MayRead
        inquiry.query e.1 := by
  obtain ⟨l, out, code, ht, hcites⟩ := citing_asking
  obtain ⟨-, hlog, hout, -⟩ := erased (fun job h => by simpa [tidied, whole] using h)
    deleted_tidied idle_tidied (fun job h => by simpa [asking, whole] using h) ht
  exact ⟨l, out, code, ht, hcites, hout, hlog⟩

end Sample

end RagPlatform
