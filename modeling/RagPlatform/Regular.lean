import RagPlatform.Lib.Heed
import RagPlatform.System

/-! What the jobs may ask of their surroundings. -/

namespace RagPlatform

open Lib

/-- The requests that touch neither the rows and chunks nor the queue. -/
def Call.Aside : Call → Prop
  | .insertDocument _ | .commit _ | .deleteDocument _ | .delay _ => False
  | _ => True

theorem only_perform {P : Call → Prop} {c : Call} (hc : P c) : OnlyE P (perform c) :=
  ⟨hc, fun _ => trivial⟩

theorem only_ofExcept {α : Type} {P : Call → Prop} (r : Except Exn α) :
    OnlyE P (Io.ofExcept r) := trivial

theorem only_validate {P : Call → Prop} (valid : Bool) : OnlyE P (validate valid) := by
  unfold validate
  split
  · exact .pure _
  · exact .throw _

section

variable {tenantId documentId : Uuid}

theorem aside_getOwned : OnlyE Call.Aside (getOwned tenantId documentId) := by
  refine .bind (only_perform trivial) fun row => ?_
  cases row with
  | none => exact .throw _
  | some document =>
    simp only
    split
    · exact .pure _
    · exact .throw _

theorem aside_listDocuments (limit offset : Int) :
    OnlyE Call.Aside (listDocuments tenantId limit offset) :=
  .bind (only_validate _) fun _ => .bind (only_perform trivial) fun _ =>
    .bind (only_perform trivial) fun _ => .pure _

theorem aside_getDocument : OnlyE Call.Aside (getDocument tenantId documentId) :=
  .bind aside_getOwned fun _ => .pure _

theorem aside_reportStatus (lastStatus : Option DocumentStatus) (row : Option Document) :
    OnlyE Call.Aside (reportStatus tenantId documentId lastStatus row) := by
  cases row with
  | none => exact trivial
  | some doc =>
    simp only [reportStatus]
    split
    · exact trivial
    · refine .bind ?_ fun _ => ?_
      · unfold reportChange
        split
        · exact .pure _
        · exact trivial
      · split
        · exact trivial
        · exact .pure _

theorem aside_eventStream (deadline polls : Nat) (lastStatus : Option DocumentStatus) :
    OnlyE Call.Aside (eventStream tenantId documentId deadline polls lastStatus) := by
  induction polls generalizing lastStatus with
  | zero => exact .pure _
  | succ polls ih =>
    refine .bind (only_perform trivial) fun row => .bind (aside_reportStatus _ row) fun status => ?_
    cases status with
    | none => exact .pure _
    | some status =>
      refine .bind (only_perform trivial) fun (now : Nat) => ?_
      split
      · exact trivial
      · refine .bind (only_perform trivial) fun disconnected => ?_
        split
        · exact .pure _
        · exact .bind (only_perform trivial) fun _ => ih _

theorem aside_documentEvents (polls : Nat) :
    OnlyE Call.Aside (documentEvents tenantId documentId polls) :=
  .bind aside_getOwned fun _ => .bind (only_perform trivial) fun _ => aside_eventStream _ _ _

theorem aside_sources (svc : RetrievalService) (query : Str) (mode : SearchMode) :
    OnlyE Call.Aside (svc.sources tenantId query mode) := by
  have hdense : OnlyE Call.Aside (svc.denseSource tenantId query) :=
    .bind (only_perform trivial) fun _ => .bind (only_perform trivial) fun _ => .pure _
  have hkeyword : OnlyE Call.Aside (svc.keywordSource tenantId query) :=
    .bind (only_perform trivial) fun _ => .pure _
  cases mode with
  | hybrid => exact .bind hdense fun _ => .bind hkeyword fun _ => .pure _
  | dense => exact .bind hdense fun _ => .pure _
  | keyword => exact .bind hkeyword fun _ => .pure _

theorem aside_rerank (svc : RetrievalService) (query : Str) (g : Gathered) (ordered : List Nat) :
    OnlyE Call.Aside (svc.rerank query g ordered) := by
  unfold RetrievalService.rerank
  split
  · exact .pure _
  · refine .bind (only_ofExcept _) fun contents => .bind (only_perform trivial) fun given => ?_
    split
    · exact .throw _
    · exact .pure _

theorem aside_retrieval (svc : RetrievalService) (query : Str) (mode : SearchMode)
    (topN : Option Int) : OnlyE Call.Aside (svc.search tenantId query mode topN) := by
  unfold RetrievalService.search
  split
  · exact .throw _
  · exact .bind (aside_sources _ _ _) fun _ => .bind (only_ofExcept _) fun _ =>
      .bind (aside_rerank _ _ _ _) fun _ => only_ofExcept _

theorem aside_search (settings : Settings) (body : SearchRequest) :
    OnlyE Call.Aside (search settings tenantId body) :=
  .bind (only_validate _) fun _ => .bind (aside_retrieval _ _ _ _) fun _ => .pure _

theorem aside_complete (svc : AnswerService) (p : PreparedAnswer) :
    OnlyE Call.Aside (svc.complete tenantId p) :=
  .bind (only_perform trivial) fun _ => .bind (only_ofExcept _) fun _ =>
    .bind (only_perform trivial) fun _ => .pure _

theorem aside_streamEvents (svc : AnswerService) (events : List StreamEvent) :
    OnlyE Call.Aside (svc.streamEvents tenantId events) := by
  induction events with
  | nil => exact .pure _
  | cons event events ih =>
    cases event with
    | textDelta text => exact ih
    | streamEnd usage model => exact .bind (only_perform trivial) fun _ => ih

theorem aside_stream (svc : AnswerService) (p : PreparedAnswer) :
    OnlyE Call.Aside (svc.stream tenantId p) := by
  refine .bind (q := emit (.citations p.citations)) trivial fun _ =>
    .bind (only_perform trivial) fun reply => .bind (aside_streamEvents svc _) fun _ => ?_
  cases reply.failure with
  | none => exact .pure _
  | some e => exact .throw _

theorem aside_answer (settings : Settings) (body : AnswerRequest) :
    OnlyE Call.Aside (answer settings tenantId body) := by
  refine .bind (only_validate _) fun _ =>
    .bind (.bind (aside_retrieval _ _ _ _) fun _ => .pure _) fun prepared => ?_
  split
  · refine .bind ?_ fun _ => .pure _
    cases prepared with
    | none => exact trivial
    | some p => exact aside_stream _ p
  · refine .bind ?_ fun _ => .pure _
    cases prepared with
    | none => exact .pure _
    | some p => exact aside_complete _ p

theorem aside_usageSummary (days : Int) : OnlyE Call.Aside (usageSummary tenantId days) :=
  .bind (only_validate _) fun _ => .bind (only_perform trivial) fun _ =>
    .bind (only_perform trivial) fun _ => .pure _

end

/-- What a job may ask for: a new row is that of a file, digest and size included. -/
inductive Call.Regular (ext : External) : Call → Prop
  | aside {c : Call} : c.Aside → Regular ext c
  | insert (tenantId : Uuid) (filename : Str) (raw : Bytes) (sourceType : DocumentSourceType) :
    Regular ext (.insertDocument (IngestionService.newDocument ext tenantId filename raw sourceType))
  | commit (t : Txn) : Regular ext (.commit t)
  | delete (id : Uuid) : Regular ext (.deleteDocument id)
  | delay (id : Uuid) : Regular ext (.delay id)

section

variable {ext : External} {settings : Settings} {tenantId : Uuid}

theorem Call.Aside.only_regular {α : Type} {q : Io α} (h : OnlyE Call.Aside q) :
    OnlyE (Call.Regular ext) q := Async.Only.mono h fun _ => .aside

theorem regular_markFailed (session : Session) (id : Uuid) (message : Str) :
    OnlyE (Call.Regular ext) (markFailed session id message) := by
  cases session with
  | none =>
    refine .bind (only_perform (.aside trivial)) fun row => ?_
    cases row with
    | none => exact .pure _
    | some d => exact only_perform (.commit _)
  | some document => exact only_perform (.commit _)

theorem regular_register (svc : IngestionService) (filename : Str) (raw : Bytes)
    (sourceType : DocumentSourceType) :
    OnlyE (Call.Regular ext) (svc.register ext tenantId filename raw sourceType) := by
  refine .bind (only_perform (.aside trivial)) fun tenant => ?_
  split
  · exact .throw _
  · refine .bind ?_ fun _ =>
      .bind (.tryCatch (only_perform (.insert ..)) fun e => ?_) fun _ => .pure _
    · unfold IngestionService.checkQuota
      split
      · refine .bind (only_perform (.aside trivial)) fun (usedBytes : Nat) => ?_
        split
        · exact .throw _
        · exact .pure _
      · exact .pure _
    · cases e with
      | integrity => exact .bind (only_perform (.aside trivial)) fun _ => .throw _
      | _ => exact .throw _

theorem regular_enqueue (document : Instance) :
    OnlyE (Call.Regular ext) (enqueue document) :=
  .tryCatch (only_perform (.delay _)) fun _ => .bind (regular_markFailed _ _ _) fun _ => .throw _

theorem only_checkSize {P : Call → Prop} (file : UploadFile) :
    OnlyE P (checkSize settings file) := by
  unfold checkSize
  split
  · exact .throw _
  · exact .pure _

theorem regular_uploadDocument (file : UploadFile) :
    OnlyE (Call.Regular ext) (uploadDocument ext settings tenantId file) :=
  .bind (only_ofExcept _) fun _ => .bind (only_checkSize _) fun _ =>
    .bind (regular_register _ _ _ _) fun _ => .bind (regular_enqueue _) fun _ => .pure _

theorem regular_uploadBatchItem (file : UploadFile) :
    OnlyE (Call.Regular ext) (uploadBatchItem ext settings tenantId file) := by
  refine .tryCatch (.bind (only_checkSize _) fun _ => .bind (only_ofExcept _) fun _ =>
    .bind (regular_register _ _ _ _) fun _ => .bind (regular_enqueue _) fun _ => .pure _) fun e => ?_
  split
  · exact .pure _
  · exact .throw _

theorem regular_uploadBatchItems (files : List UploadFile) :
    OnlyE (Call.Regular ext) (uploadBatchItems ext settings tenantId files) := by
  induction files with
  | nil => exact .pure _
  | cons file files ih =>
    exact .bind (regular_uploadBatchItem file) fun _ => .bind ih fun _ => .pure _

theorem regular_embedBatches (batches : List (List ChunkDraft)) :
    OnlyE (Call.Regular ext) (IngestionService.embedBatches batches) := by
  induction batches with
  | nil => exact .pure _
  | cons batch batches ih =>
    exact .bind (only_perform (.aside trivial)) fun _ => .bind ih fun _ => .pure _

theorem regular_process (svc : IngestionService) (session : Session) (documentId : Uuid) :
    OnlyE (Call.Regular ext) (svc.process ext session documentId) := by
  refine .bind (only_perform (.aside trivial)) fun row => ?_
  cases row with
  | none => exact .throw _
  | some row =>
    simp only
    split
    · exact .pure _
    · split
      · exact .throw _
      · refine .bind (.bind (only_perform (.commit _)) fun _ => .pure _) fun document =>
          .tryCatch (.bind (only_ofExcept _) fun drafts => .bind ?_ fun embeddings =>
            .bind (only_perform (.aside trivial)) fun doomed => ?_) fun e =>
          .bind (only_perform (.aside trivial)) fun _ => ?_
        · unfold IngestionService.embedAll
          split
          · exact .throw _
          · split
            · exact .pure _
            · exact regular_embedBatches _
        · split
          · exact .throw _
          · exact .bind (only_perform (.commit _)) fun _ => .pure _
        · cases e with
          | parse detail => exact .bind (regular_markFailed _ _ _) fun _ => .throw _
          | _ => exact .throw _

theorem regular_ingestDocument (retries : Nat) (documentId : Uuid) :
    OnlyE (Call.Regular ext) (ingestDocument ext settings retries documentId) := by
  refine .tryCatch (.bind (regular_process _ _ _) fun _ => .pure _) fun e => ?_
  cases e with
  | parse detail => exact .pure _
  | notFound detail => exact .pure _
  | _ =>
    simp only
    split
    · exact .bind (regular_markFailed _ _ _) fun _ => .pure _
    · exact .pure _

theorem regular_job (job : Job) : OnlyE (Call.Regular ext) (job.code ext settings) := by
  cases job with
  | upload tenantId file => exact .bind (regular_uploadDocument file) fun _ => .pure _
  | uploadBatch tenantId files =>
    exact .bind (.bind (regular_uploadBatchItems files) fun _ => .pure _) fun _ => .pure _
  | list tenantId limit offset =>
    exact .bind (Call.Aside.only_regular (aside_listDocuments limit offset)) fun _ => .pure _
  | get tenantId documentId =>
    exact .bind (Call.Aside.only_regular aside_getDocument) fun _ => .pure _
  | events tenantId documentId polls =>
    exact .bind (Call.Aside.only_regular (aside_documentEvents polls)) fun _ => .pure _
  | delete tenantId documentId =>
    exact .bind (.bind (Call.Aside.only_regular aside_getOwned) fun _ => only_perform (.delete _))
      fun _ => .pure _
  | search tenantId body =>
    exact .bind (Call.Aside.only_regular (aside_search settings body)) fun _ => .pure _
  | answer tenantId body =>
    exact .bind (Call.Aside.only_regular (aside_answer settings body)) fun _ => .pure _
  | usage tenantId days =>
    exact .bind (Call.Aside.only_regular (aside_usageSummary days)) fun _ => .pure _
  | deliver retries documentId =>
    exact .bind (regular_ingestDocument retries documentId) fun _ => .pure _

theorem keeps_regular {K : Contract api World Oracle}
    (h : ∀ l o c w, Call.Regular ext c → K.inv w → K.step l o c w →
      K.inv (exec o c w).1 ∧ K.guar w (exec o c w).1) (hstop : ∀ w, K.inv w → K.stop w) (job : Job) :
    Keeps exec K (fun _ => True) (job.code ext settings) :=
  .of_wpE fun s l => ⟨_, (regular_job job).wp h hstop s l⟩

end

theorem done_perform {l : Log api} {c : Call} {b : Except Exn (Reply c)} :
    Done (perform c) l b ↔ l = [⟨c, b⟩] := by
  constructor
  · intro h
    obtain ⟨x, l', rfl, hx⟩ := Async.Replays.returns h
    obtain ⟨rfl, hb⟩ := Async.Replays.ret hx
    rw [Async.ret.inj hb]
  · rintro rfl
    exact .await (.refl _)

theorem done_ofExcept {α : Type} {r b : Except Exn α} {l : Log api} :
    Done (Io.ofExcept r) l b ↔ l = [] ∧ b = r := by
  constructor
  · intro h
    obtain ⟨rfl, hb⟩ := Async.Replays.ret h
    exact ⟨rfl, Async.ret.inj hb⟩
  · rintro ⟨rfl, rfl⟩
    exact .refl _

section

variable {ι : Type} [DecidableEq ι] (ext : External) (settings : Settings) (w : World)
  (acts : List (Act ι))

def Returned (i : ι) (r : Except Exn Outcome) : Prop :=
  ∃ l out, (platform ext settings w acts).threads i = some ⟨l, out, .ret r⟩

variable {ext settings w acts}

theorem exists_step {i : ι} {t : Thread api (Except Exn Outcome)}
    (ht : (platform ext settings w acts).threads i = some t) {c : Call} {x : Except Exn (Reply c)}
    (hx : ⟨c, x⟩ ∈ t.log) : ∃ before o after l out k,
      acts.map (Act.event ext settings) = before ++ .step i o :: after ∧
        ((Pool.init w : Platform ι).run exec before).threads i = some ⟨l, out, .await c k⟩ ∧
          x = (exec o c ((Pool.init w : Platform ι).run exec before).state).2 := by
  obtain ⟨l, l', hl⟩ := List.append_of_mem hx
  obtain ⟨before, o, after, out, k, hes, hk, hanswer⟩ := Pool.exists_step_of_log rfl ht hl
  exact ⟨before, o, after, l, out, k, hes, hk, hanswer⟩

theorem replays_started {i : ι} {t : Thread api (Except Exn Outcome)}
    (ht : (platform ext settings w acts).threads i = some t) :
    ∃ job, .start i job ∈ acts ∧ (job.code ext settings).run.Replays t.log t.code := by
  obtain ⟨p, hp, hreplays⟩ := Pool.replays_spawned rfl ht
  obtain ⟨act, hact, he⟩ := List.mem_map.mp hp
  cases act with
  | start k job =>
    simp only [Act.event, Event.spawn.injEq] at he
    obtain ⟨rfl, rfl⟩ := he
    exact ⟨job, hact, hreplays⟩
  | answer => cases he
  | kill => cases he

end

end RagPlatform
