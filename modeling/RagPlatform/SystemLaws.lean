import RagPlatform.Services.IngestionLaws
import RagPlatform.System

/-! What has to be shown for all jobs to keep a contract, and what then holds along every run. -/

namespace RagPlatform

open Lib

variable {K : Contract api World Oracle} {ext : External} {settings : Settings}

/-- A proof about the API side: `R` is what `register` guarantees of the row it hands on. -/
structure ApiProof (K : Contract api World Oracle) (ext : External) (settings : Settings)
    (R : Instance → Prop) : Prop where
  guar_refl : ∀ t, K.guar t t
  stop : ∀ t, K.inv t → K.stop t
  register : ∀ tenantId filename raw sourceType, Keeps exec K R
    ((apiIngestionService settings).register ext tenantId filename raw sourceType)
  fail : ∀ document message t, R document → K.inv t →
    Commits K (failTxn document message) t (fun _ => True) fun _ => True
  delay : ∀ l o id t, K.inv t → K.step l o (.delay id) t →
    K.inv (exec o (.delay id) t).1 ∧ K.guar t (exec o (.delay id) t).1
  meter : ∀ l o u t, K.inv t → K.step l o (.insertUsage u) t →
    K.inv (exec o (.insertUsage u) t).1 ∧ K.guar t (exec o (.insertUsage u) t).1
  delete : ∀ l o id t, K.inv t → K.step l o (.deleteDocument id) t →
    K.inv (exec o (.deleteDocument id) t).1 ∧ K.guar t (exec o (.deleteDocument id) t).1

namespace ApiProof

variable {R : Instance → Prop}

theorem keeps_checkSize (file : UploadFile) :
    Keeps exec K (fun _ => True) (checkSize settings file) := by
  unfold checkSize
  split
  · exact .throw _
  · exact .pure trivial

theorem keeps_validate (valid : Bool) : Keeps exec K (fun _ => True) (validate valid) := by
  cases valid with
  | true => exact .pure trivial
  | false => exact .throw _

variable (h : ApiProof K ext settings R)
include h

theorem keeps_enqueue {document : Instance} (hR : R document) :
    Keeps exec K (fun _ => True) (enqueue document) :=
  .tryCatch (keeps_perform h.stop fun l o t => h.delay l o _ t) fun _ =>
    .bind (keeps_fail h.stop fun t => h.fail document _ t hR) fun _ _ => .throw _

theorem keeps_uploadDocument (tenantId : Uuid) (file : UploadFile) :
    Keeps exec K (fun _ => True) (uploadDocument ext settings tenantId file) :=
  .bind (keeps_ofExcept _) fun _ _ => .bind (keeps_checkSize file) fun _ _ =>
    .bind (h.register _ _ _ _) fun _ hR => .bind (h.keeps_enqueue hR) fun _ _ => .pure trivial

theorem keeps_uploadBatchItem (tenantId : Uuid) (file : UploadFile) :
    Keeps exec K (fun _ => True) (uploadBatchItem ext settings tenantId file) := by
  refine .tryCatch (.bind (keeps_checkSize file) fun _ _ => .bind (keeps_ofExcept _) fun _ _ =>
    .bind (h.register _ _ _ _) fun _ hR => .bind (h.keeps_enqueue hR) fun _ _ => .pure trivial)
    fun e => ?_
  split
  · exact .pure trivial
  · exact .throw e

theorem keeps_uploadBatchItems (tenantId : Uuid) (files : List UploadFile) :
    Keeps exec K (fun _ => True) (uploadBatchItems ext settings tenantId files) := by
  induction files with
  | nil => exact .pure trivial
  | cons file files ih =>
    exact .bind (h.keeps_uploadBatchItem tenantId file) fun _ _ => .bind ih fun _ _ => .pure trivial

theorem keeps_uploadDocumentsBatch (tenantId : Uuid) (files : List UploadFile) :
    Keeps exec K (fun _ => True) (uploadDocumentsBatch ext settings tenantId files) :=
  .bind (h.keeps_uploadBatchItems tenantId files) fun _ _ => .pure trivial

theorem keeps_call {c : Call} (hc : c.Reads) : Keeps exec K (fun _ => True) (perform c) :=
  keeps_read h.stop h.guar_refl hc

theorem keeps_getOwned (tenantId documentId : Uuid) :
    Keeps exec K (fun _ => True) (getOwned tenantId documentId) := by
  refine .bind (h.keeps_call (Call.reads_getDocument _)) fun row _ => ?_
  cases row with
  | none => exact .throw _
  | some document =>
    simp only
    split
    · exact .pure trivial
    · exact .throw _

theorem keeps_getDocument (tenantId documentId : Uuid) :
    Keeps exec K (fun _ => True) (getDocument tenantId documentId) :=
  .bind (h.keeps_getOwned tenantId documentId) fun _ _ => .pure trivial

theorem keeps_deleteDocument (tenantId documentId : Uuid) :
    Keeps exec K (fun _ => True) (deleteDocument tenantId documentId) :=
  .bind (h.keeps_getOwned tenantId documentId) fun _ _ =>
    keeps_perform h.stop fun l o t => h.delete l o _ t

theorem keeps_listDocuments (tenantId : Uuid) (limit offset : Int) :
    Keeps exec K (fun _ => True) (listDocuments tenantId limit offset) :=
  .bind (keeps_validate _) fun _ _ => .bind (h.keeps_call (Call.reads_countDocuments _)) fun _ _ =>
    .bind (h.keeps_call (Call.reads_listDocuments _ _ _)) fun _ _ => .pure trivial

omit h in
theorem keeps_reportStatus (tenantId documentId : Uuid) (lastStatus : Option DocumentStatus)
    (row : Option Document) :
    Keeps exec K (fun _ => True) (reportStatus tenantId documentId lastStatus row) := by
  cases row with
  | none => exact .bind (keeps_emit _) fun _ _ => .pure trivial
  | some doc =>
    simp only [reportStatus]
    split
    · exact .bind (keeps_emit _) fun _ _ => .pure trivial
    · refine .bind (R := fun _ => True) ?_ fun _ _ => ?_
      · unfold reportChange
        split
        · exact .pure trivial
        · exact keeps_emit _
      · split
        · exact .bind (keeps_emit _) fun _ _ => .pure trivial
        · exact .pure trivial

theorem keeps_eventStream (tenantId documentId : Uuid) (deadline polls : Nat)
    (lastStatus : Option DocumentStatus) :
    Keeps exec K (fun _ => True) (eventStream tenantId documentId deadline polls lastStatus) := by
  induction polls generalizing lastStatus with
  | zero => exact .pure trivial
  | succ polls ih =>
    refine .bind (h.keeps_call (Call.reads_getDocument _)) fun row _ =>
      .bind (keeps_reportStatus _ _ _ _) fun status _ => ?_
    cases status with
    | none => exact .pure trivial
    | some status =>
      refine .bind (h.keeps_call Call.reads_loopTime) fun now _ => ?_
      split
      · exact .bind (keeps_emit _) fun _ _ => .pure trivial
      · refine .bind (h.keeps_call Call.reads_isDisconnected) fun disconnected _ => ?_
        split
        · exact .pure trivial
        · exact .bind (h.keeps_call (Call.reads_sleep _)) fun _ _ => ih _

theorem keeps_documentEvents (tenantId documentId : Uuid) (polls : Nat) :
    Keeps exec K (fun _ => True) (documentEvents tenantId documentId polls) :=
  .bind (h.keeps_getOwned tenantId documentId) fun _ _ =>
    .bind (h.keeps_call Call.reads_loopTime) fun _ _ => h.keeps_eventStream _ _ _ _ _

theorem keeps_sources (svc : RetrievalService) (tenantId : Uuid) (query : Str) (mode : SearchMode) :
    Keeps exec K (fun _ => True) (svc.sources tenantId query mode) := by
  have hdense : Keeps exec K (fun _ => True) (svc.denseSource tenantId query) :=
    .bind (h.keeps_call (Call.reads_embedQuery _)) fun _ _ =>
      .bind (h.keeps_call (Call.reads_denseSearch _ _ _)) fun _ _ => .pure trivial
  have hkeyword : Keeps exec K (fun _ => True) (svc.keywordSource tenantId query) :=
    .bind (h.keeps_call (Call.reads_keywordSearch _ _ _)) fun _ _ => .pure trivial
  cases mode with
  | hybrid => exact .bind hdense fun _ _ => .bind hkeyword fun _ _ => .pure trivial
  | dense => exact .bind hdense fun _ _ => .pure trivial
  | keyword => exact .bind hkeyword fun _ _ => .pure trivial

theorem keeps_rerank (svc : RetrievalService) (query : Str) (g : Gathered) (ordered : List Nat) :
    Keeps exec K (fun _ => True) (svc.rerank query g ordered) := by
  unfold RetrievalService.rerank
  split
  · exact .pure trivial
  · refine .bind (keeps_ofExcept _) fun _ _ =>
      .bind (h.keeps_call (Call.reads_rerank _ _)) fun _ _ => ?_
    split
    · exact .throw _
    · exact .pure trivial

theorem keeps_search (svc : RetrievalService) (tenantId : Uuid) (query : Str) (mode : SearchMode)
    (topN : Option Int) : Keeps exec K (fun _ => True) (svc.search tenantId query mode topN) := by
  unfold RetrievalService.search
  split
  · exact .throw _
  · exact .bind (h.keeps_sources _ _ _ _) fun _ _ => .bind (keeps_ofExcept _) fun _ _ =>
      .bind (h.keeps_rerank _ _ _ _) fun _ _ => keeps_ofExcept _

theorem keeps_searchEndpoint (tenantId : Uuid) (body : SearchRequest) :
    Keeps exec K (fun _ => True) (search settings tenantId body) :=
  .bind (keeps_validate _) fun _ _ => .bind (h.keeps_search _ _ _ _ _) fun _ _ => .pure trivial

theorem keeps_recordUsage (tenantId : Uuid) (model : Str) (usage : LLMUsage) (cost : Option Rat) :
    Keeps exec K (fun _ => True) (AnswerService.recordUsage tenantId model usage cost) :=
  keeps_perform h.stop fun l o t => h.meter l o _ t

theorem keeps_streamEvents (svc : AnswerService) (tenantId : Uuid) (events : List StreamEvent) :
    Keeps exec K (fun _ => True) (svc.streamEvents tenantId events) := by
  induction events with
  | nil => exact .pure trivial
  | cons event events ih =>
    cases event with
    | textDelta text => exact .bind (keeps_emit _) fun _ _ => ih
    | streamEnd usage model =>
      exact .bind (h.keeps_recordUsage _ _ _ _) fun _ _ => .bind (keeps_emit _) fun _ _ => ih

theorem keeps_answerStream (svc : AnswerService) (tenantId : Uuid)
    (prepared : Option PreparedAnswer) :
    Keeps exec K (fun _ => True) (answerStream svc tenantId prepared) := by
  cases prepared with
  | none =>
    exact .bind (keeps_emit _) fun _ _ => .bind (keeps_emit _) fun _ _ => keeps_emit _
  | some prepared =>
    refine .bind (keeps_emit _) fun _ _ => .bind (h.keeps_call (Call.reads_stream _)) fun reply _ =>
      .bind (h.keeps_streamEvents _ _ _) fun _ _ => ?_
    split
    · exact .throw _
    · exact .pure trivial

theorem keeps_plainAnswer (svc : AnswerService) (tenantId : Uuid)
    (prepared : Option PreparedAnswer) :
    Keeps exec K (fun _ => True) (plainAnswer svc tenantId prepared) := by
  cases prepared with
  | none => exact .pure trivial
  | some prepared =>
    exact .bind (h.keeps_call (Call.reads_generate _)) fun _ _ => .bind (keeps_ofExcept _) fun _ _ =>
      .bind (h.keeps_recordUsage _ _ _ _) fun _ _ => .pure trivial

theorem keeps_answer (tenantId : Uuid) (body : AnswerRequest) :
    Keeps exec K (fun _ => True) (answer settings tenantId body) := by
  refine .bind (keeps_validate _) fun _ _ => .bind (R := fun _ => True)
    (.bind (h.keeps_search _ _ _ _ _) fun _ _ => .pure trivial) fun prepared _ => ?_
  split
  · exact .bind (h.keeps_answerStream _ _ _) fun _ _ => .pure trivial
  · exact .bind (h.keeps_plainAnswer _ _ _) fun _ _ => .pure trivial

theorem keeps_usageSummary (tenantId : Uuid) (days : Int) :
    Keeps exec K (fun _ => True) (usageSummary tenantId days) :=
  .bind (keeps_validate _) fun _ _ => .bind (h.keeps_call Call.reads_time) fun _ _ =>
    .bind (h.keeps_call (Call.reads_usageRollup _ _)) fun _ _ => .pure trivial

theorem keeps_request {job : Job} (hjob : ∀ retries documentId, job ≠ .deliver retries documentId) :
    Keeps exec K (fun _ => True) (job.code ext settings) := by
  cases job with
  | upload tenantId file =>
    exact .bind (h.keeps_uploadDocument tenantId file) fun _ _ => .pure trivial
  | uploadBatch tenantId files =>
    exact .bind (h.keeps_uploadDocumentsBatch tenantId files) fun _ _ => .pure trivial
  | list tenantId limit offset =>
    exact .bind (h.keeps_listDocuments tenantId limit offset) fun _ _ => .pure trivial
  | get tenantId documentId =>
    exact .bind (h.keeps_getDocument tenantId documentId) fun _ _ => .pure trivial
  | events tenantId documentId polls =>
    exact .bind (h.keeps_documentEvents tenantId documentId polls) fun _ _ => .pure trivial
  | delete tenantId documentId =>
    exact .bind (h.keeps_deleteDocument tenantId documentId) fun _ _ => .pure trivial
  | search tenantId body => exact .bind (h.keeps_searchEndpoint tenantId body) fun _ _ => .pure trivial
  | answer tenantId body => exact .bind (h.keeps_answer tenantId body) fun _ _ => .pure trivial
  | usage tenantId days =>
    exact .bind (h.keeps_usageSummary tenantId days) fun _ _ => .pure trivial
  | deliver retries documentId => exact absurd rfl (hjob retries documentId)

theorem keeps_job (htask : ∀ retries documentId,
      Keeps exec K (fun _ => True) (ingestDocument ext settings retries documentId)) (job : Job) :
    Keeps exec K (fun _ => True) (job.code ext settings) := by
  cases job with
  | deliver retries documentId => exact .bind (htask retries documentId) fun _ _ => .pure trivial
  | _ => exact h.keeps_request fun _ _ he => by cases he

end ApiProof

theorem keeps_ingestDocument {retries : Nat} {documentId : Uuid}
    (hprocess : Keeps exec K (fun _ => True)
      ((ingestionService settings).process ext none documentId))
    (hmark : ∀ message, Keeps exec K (fun _ => True) (markFailed none documentId message)) :
    Keeps exec K (fun _ => True) (ingestDocument ext settings retries documentId) := by
  refine .tryCatch (.bind hprocess fun _ _ => .pure trivial) fun e => ?_
  split
  · exact .pure trivial
  · exact .pure trivial
  · split
    · exact .bind (hmark _) fun _ _ => .pure trivial
    · exact .pure trivial

section Runs

variable {ι : Type} [DecidableEq ι] {step : Log api → Oracle → Call → World → Prop}
  {w : World} {acts acts' : List (Act ι)}

theorem guarded_of_checks (ok : Log api → Oracle → Call → World → Bool)
    (hok : ∀ l o c t, ok l o c t = true → step l o c t)
    (h : (Pool.init w : Platform ι).checks exec ok (acts.map (Act.event ext settings)) = true) :
    Guarded ext settings w acts step := by
  refine Pool.obeys_of_checks (R := rules ext settings step) exec hok (fun i p hp s => ?_) h
  obtain ⟨act, -, hact⟩ := List.mem_map.mp hp
  cases act with
  | start j job =>
    simp only [Act.event, Event.spawn.injEq] at hact
    exact ⟨job, hact.2.symm⟩
  | answer j o => cases hact
  | kill j => cases hact

theorem guarded_of_answers (h : ∀ i o, .answer i o ∈ acts → ∀ l c t, step l o c t) :
    Guarded ext settings w acts step := by
  refine Pool.obeys_of_steps exec (fun i p hp s => ?_) fun i o ho l c t => ?_
  · obtain ⟨act, -, hact⟩ := List.mem_map.mp hp
    cases act with
    | start j job =>
      simp only [Act.event, Event.spawn.injEq] at hact
      exact ⟨job, hact.2.symm⟩
    | answer j o => cases hact
    | kill j => cases hact
  · obtain ⟨act, hmem, hact⟩ := List.mem_map.mp ho
    cases act with
    | start j job => cases hact
    | answer j o' =>
      simp only [Act.event, Event.step.injEq] at hact
      obtain ⟨rfl, rfl⟩ := hact
      exact h _ _ hmem l c t
    | kill j => cases hact

theorem guarded_true (w : World) (acts : List (Act ι)) :
    Guarded ext settings w acts fun _ _ _ _ => True := by
  refine guarded_of_checks (fun _ _ _ _ => true) (fun _ _ _ _ _ => trivial) ?_
  generalize acts.map (Act.event ext settings) = es
  generalize (Pool.init w : Platform ι) = P
  induction es generalizing P with
  | nil => rfl
  | cons e es ih =>
    cases e with
    | spawn i p => exact ih _
    | kill i => exact ih _
    | step i o =>
      simp only [Pool.checks, ih, Bool.and_true]
      split <;> rfl

theorem run_wp
    (hjobs : ∀ (job : Job) s, wp exec K (fun _ _ _ => True) (job.code ext settings).run s [])
    (hK : ∀ {s t}, K.guar s t → K.rely s t) (hstep : ∀ l o c t, step l o c t → K.step l o c t)
    (hw : K.inv w) (hacts : Guarded ext settings w (acts ++ acts') step) :
    K.inv (after ext settings w acts) ∧
      K.rely (after ext settings w acts) (after ext settings w (acts ++ acts')) := by
  rw [Guarded, List.map_append, Pool.obeys_append] at hacts
  have hspawn (i : ι) (p : Async api (Except Exn Outcome)) (s : World)
      (hp : ∃ job : Job, p = job.code ext settings) (_ : K.inv s) :
      wp exec K (fun _ _ _ => True) p s [] := by
    obtain ⟨job, rfl⟩ := hp
    exact hjobs job s
  have hrun := Pool.Good.run (R := rules ext settings step) hK hspawn hstep (Pool.good_init hw)
    hacts.1
  have hrun' := Pool.Good.run (R := rules ext settings step) hK hspawn hstep hrun.1 hacts.2
  rw [← Pool.run_append, ← List.map_append] at hrun'
  exact ⟨hrun.1.1, hrun'.2⟩

theorem run_keeps (hjobs : ∀ job : Job, Keeps exec K (fun _ => True) (job.code ext settings))
    (hK : ∀ {s t}, K.guar s t → K.rely s t) (hstep : ∀ l o c t, step l o c t → K.step l o c t)
    (hw : K.inv w) (hacts : Guarded ext settings w (acts ++ acts') step) :
    K.inv (after ext settings w acts) ∧
      K.rely (after ext settings w acts) (after ext settings w (acts ++ acts')) :=
  run_wp (fun job s => wp_mono (hjobs job s []) fun _ _ _ _ _ => trivial) hK hstep hw hacts

theorem run_inv (hjobs : ∀ job : Job, Keeps exec K (fun _ => True) (job.code ext settings))
    (hK : ∀ {s t}, K.guar s t → K.rely s t) (hstep : ∀ l o c t, step l o c t → K.step l o c t)
    (hw : K.inv w) (hacts : Guarded ext settings w acts step) : K.inv (after ext settings w acts) := by
  rw [← List.append_nil acts] at hacts
  exact (run_keeps hjobs hK hstep hw hacts).1

end Runs

end RagPlatform
