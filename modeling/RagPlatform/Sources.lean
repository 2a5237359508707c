import RagPlatform.Ingestion.WordLaws
import RagPlatform.Isolation.Retrieval
import RagPlatform.Lib.Sourcing
import RagPlatform.Retrieval.ServiceLaws
import RagPlatform.RuntimeLaws
import RagPlatform.Services.Markers
import RagPlatform.System

/-! Where the rows and passages come from that a job shows, or sends on to a model. -/

namespace RagPlatform

open Lib

def Job.MayRead : Job → Uuid → Prop
  | .upload tenantId _ | .uploadBatch tenantId _ | .list tenantId _ _ | .get tenantId _
  | .events tenantId _ _ | .delete tenantId _ | .search tenantId _ | .answer tenantId _
  | .usage tenantId _ => (· = tenantId)
  | .deliver _ _ => fun _ => True

def Job.query : Job → Option Str
  | .search _ body => some body.query
  | .answer _ body => some body.query
  | _ => none

section

variable (ext : External) (settings : Settings) (since : World → Prop) (own : Uuid → Prop)
  (asked : Option Str)

def Stood (d : Document) : Prop := own d.tenantId ∧ ∃ w, since w ∧ w.db.document d.id = some d

/-- The hit is a chunk that has stood there beside its document. -/
def Drawn (hit : ChunkHit) : Prop := ∃ w tenantId, since w ∧ own tenantId ∧
  ∃ x ∈ w.db.tenantRows tenantId, ∃ score, hit = x.1.hit x.2 score

def Quoted (c : RetrievedChunk) : Prop :=
  ∃ hit scores, Drawn since own hit ∧ c = hit.retrieved hit.chunkId scores

def Cited (citations : List Citation) : Prop :=
  ∀ x ∈ citations, ∃ c, Quoted since own c ∧ x = citation c x.marker

def Prompted (prompt : Prompt) : Prop := ∃ (chunks : List RetrievedChunk) (query : Str),
  asked = some query ∧ (∀ c ∈ chunks, Quoted since own c) ∧
    prompt = (getAnswerService settings).prompt (prepared chunks query)

/-- The texts are cut from the payload of a row that has stood there. -/
def Excerpted (texts : List Str) : Prop := ∃ (d : Document) (raw : Bytes)
  (drafts : List ChunkDraft), Stood since own d ∧ d.rawContent = some raw ∧
    (ingestionService settings).parseAndChunk ext raw d.sourceType = .ok drafts ∧
      ∀ text ∈ texts, text ∈ drafts.map (·.text)

def Call.Sourced : Call → Prop
  | .embedQuery text => asked = some text
  | .rerank query texts =>
    asked = some query ∧ ∀ text ∈ texts, ∃ hit, Drawn since own hit ∧ hit.content = text
  | .generate prompt | .stream prompt => Prompted settings since own asked prompt
  | .embedDocuments texts => Excerpted ext settings since own texts
  | _ => True

def ServerEvent.Sourced : ServerEvent → Prop
  | .status id st count message => ∃ d, Stood since own d ∧ d.id = id ∧ d.status = st ∧
      d.chunkCount = count ∧ d.errorMessage = message
  | .documentDone st | .timeout st _ => ∃ d, Stood since own d ∧ d.status = st
  | .citations cs => Cited since own cs
  | .error _ | .delta _ | .answerDone .. => True

def Outcome.Sourced : Outcome → Prop
  | .document d | .polled d _ => Stood since own d
  | .batch b => ∀ r ∈ b.results, ∀ d, r.document = some d → Stood since own d
  | .documents l => ∀ d ∈ l.items, Stood since own d
  | .results rs => ∀ r ∈ rs, ∃ c, Quoted since own c ∧ r = searchResultOut c
  | .answer (some a) => Cited since own a.citations
  | _ => True

def Told : (c : Call) → Except Exn (Reply c) → Prop
  | .getDocument id, .ok (some d) => d.id = id ∧ ∃ w, since w ∧ w.db.document d.id = some d
  | .insertDocument new, .ok d =>
    d.tenantId = new.tenantId ∧ ∃ w, since w ∧ w.db.document d.id = some d
  | .listDocuments tenantId _ _, .ok rows =>
    ∀ d ∈ rows, d.tenantId = tenantId ∧ ∃ w, since w ∧ w.db.document d.id = some d
  | .denseSearch tenantId _ _, .ok hits | .keywordSearch tenantId _ _, .ok hits =>
    ∀ hit ∈ hits, Drawn since (· = tenantId) hit
  | _, _ => True

def sourcing : Policy api where
  told := Told since
  asks := Call.Sourced ext settings since own asked
  shows := ServerEvent.Sourced since own

end

theorem told_exec {since : World → Prop} {o : Oracle} {c : Call} {w : World} (hw : since w)
    (hw' : since (exec o c w).1) : Told since c (exec o c w).2 := by
  rcases exec_cases o c w with he | ⟨name, he, -⟩
  · rw [he] at hw' ⊢
    cases c with
    | getDocument id =>
      cases hd : w.db.document id with
      | none => simp [Told, serve, hd]
      | some d =>
        have hid := (Database.document_eq_some.mp hd).2
        simp only [Told, serve, hd]
        exact ⟨hid, w, hw, hid ▸ hd⟩
    | insertDocument new =>
      cases hinsert : w.db.insertDocument (new.row o.uuid o.now) with
      | error e => simp [Told, serve, hinsert, World.write]
      | ok db =>
        obtain ⟨-, hfits, rfl⟩ := Database.insertDocument_ok hinsert
        simp only [serve, hinsert, World.write] at hw' ⊢
        refine ⟨rfl, _, hw', ?_⟩
        change (w.db.add _ hfits).document _ = _
        rw [Database.document_add, if_pos rfl]
    | listDocuments tenantId limit offset =>
      intro d hd
      have hrow : d ∈ w.db.documents.filter (·.tenantId = tenantId) :=
        (List.mem_insertionSort _).mp (List.mem_of_mem_drop (List.mem_of_mem_take hd))
      obtain ⟨hmem, htenant⟩ := List.mem_filter.mp hrow
      exact ⟨of_decide_eq_true htenant, w, hw, Database.document_eq_some.mpr ⟨hmem, rfl⟩⟩
    | denseSearch tenantId e k =>
      simp only [serve, limited]
      split
      · trivial
      · intro hit hhit
        obtain ⟨x, hx, rfl⟩ := List.mem_map.mp hhit
        have hrow := (List.mem_insertionSort _).mp (List.mem_of_mem_take hx)
        exact ⟨w, tenantId, hw, rfl, x, hrow, _, rfl⟩
    | keywordSearch tenantId q k =>
      simp only [serve, limited]
      split
      · trivial
      · intro hit hhit
        have hrow := (List.mem_insertionSort _).mp (List.mem_of_mem_take hhit)
        obtain ⟨x, hx, hscore⟩ := List.mem_filterMap.mp hrow
        obtain ⟨score, -, rfl⟩ := Option.map_eq_some_iff.mp hscore
        exact ⟨w, tenantId, hw, rfl, x, hx, score, rfl⟩
    | _ => trivial
  · rw [he]
    cases c <;> trivial

section

variable {ext : External} {settings : Settings} {since : World → Prop} {own : Uuid → Prop}
  {asked : Option Str} {tenantId documentId : Uuid}

theorem follows_perform {c : Call} {R : Reply c → Prop}
    (hc : c.Sourced ext settings since own asked) (hR : ∀ a, Told since c (.ok a) → R a) :
    FollowsE (sourcing ext settings since own asked) R (perform c) := by
  refine ⟨hc, fun x hx => ?_⟩
  rintro a rfl
  exact hR a hx

theorem follows_any {c : Call} (hc : c.Sourced ext settings since own asked) :
    FollowsE (sourcing ext settings since own asked) (fun _ => True) (perform c) :=
  follows_perform hc fun _ _ => trivial

theorem follows_emit {event : ServerEvent} (h : event.Sourced since own) :
    FollowsE (sourcing ext settings since own asked) (fun _ => True) (emit event) :=
  ⟨h, fun _ _ => trivial⟩

theorem follows_ofExcept {α : Type} {R : α → Prop} {r : Except Exn α} (h : ∀ a, r = .ok a → R a) :
    FollowsE (sourcing ext settings since own asked) R (Io.ofExcept r) := h

theorem follows_validate (valid : Bool) :
    FollowsE (sourcing ext settings since own asked) (fun _ => True) (validate valid) := by
  cases valid with
  | true => exact .pure trivial
  | false => exact .throw _

theorem follows_checkSize (file : UploadFile) :
    FollowsE (sourcing ext settings since own asked) (fun _ => True) (checkSize settings file) := by
  unfold checkSize
  split
  · exact .throw _
  · exact .pure trivial

theorem follows_markFailed (session : Session) (message : Str) :
    FollowsE (sourcing ext settings since own asked) (fun _ => True)
      (markFailed session documentId message) := by
  cases session with
  | none =>
    refine .bind (follows_any trivial) fun row _ => ?_
    cases row with
    | none => exact .pure trivial
    | some d => exact follows_any trivial
  | some document => exact follows_any trivial

theorem follows_checkQuota (svc : IngestionService) (raw : Bytes) :
    FollowsE (sourcing ext settings since own asked) (fun _ => True)
      (svc.checkQuota tenantId raw) := by
  unfold IngestionService.checkQuota
  split
  · refine .bind (follows_any trivial) fun _ _ => ?_
    split
    · exact .throw _
    · exact .pure trivial
  · exact .pure trivial

theorem follows_register (hown : own tenantId) (svc : IngestionService) (filename : Str)
    (raw : Bytes)
    (sourceType : DocumentSourceType) : FollowsE (sourcing ext settings since own asked)
      (fun i => Stood since own i.current) (svc.register ext tenantId filename raw sourceType) := by
  refine .bind (follows_any trivial) fun tenant _ => ?_
  split
  · exact .throw _
  · refine .bind (follows_checkQuota _ _) fun _ _ =>
      .bind (R := Stood since own) ?_ fun row hrow => .pure hrow
    refine .tryCatch (follows_perform trivial fun d hd => ⟨?_, hd.2⟩) fun e => ?_
    · rw [hd.1]
      exact hown
    · split
      · exact .bind (follows_any trivial) fun _ _ => .throw _
      · exact .throw _

theorem follows_enqueue (document : Instance) :
    FollowsE (sourcing ext settings since own asked) (fun _ => True) (enqueue document) :=
  .tryCatch (follows_any trivial) fun _ => .bind (follows_markFailed _ _) fun _ _ => .throw _

theorem follows_uploadDocument (hown : own tenantId) (file : UploadFile) :
    FollowsE (sourcing ext settings since own asked) (Stood since own)
      (uploadDocument ext settings tenantId file) :=
  .bind (follows_ofExcept fun _ _ => trivial) fun _ _ => .bind (follows_checkSize _) fun _ _ =>
    .bind (follows_register hown _ _ _ _) fun _ hd => .bind (follows_enqueue _) fun _ _ => .pure hd

def BatchItemResult.Sourced (since : World → Prop) (own : Uuid → Prop) (r : BatchItemResult) :
    Prop :=
  ∀ d, r.document = some d → Stood since own d

theorem follows_uploadBatchItem (hown : own tenantId) (file : UploadFile) :
    FollowsE (sourcing ext settings since own asked) (BatchItemResult.Sourced since own)
      (uploadBatchItem ext settings tenantId file) := by
  refine .tryCatch (.bind (follows_checkSize _) fun _ _ =>
    .bind (follows_ofExcept fun _ _ => trivial) fun _ _ =>
      .bind (follows_register hown _ _ _ _) fun i hi =>
        .bind (follows_enqueue _) fun _ _ => .pure fun d hd => ?_) fun e => ?_
  · exact Option.some.inj hd ▸ hi
  · split
    · exact .pure fun d hd => by cases hd
    · exact .throw _

theorem follows_uploadBatchItems (hown : own tenantId) (files : List UploadFile) :
    FollowsE (sourcing ext settings since own asked) (fun rs => ∀ r ∈ rs, r.Sourced since own)
      (uploadBatchItems ext settings tenantId files) := by
  induction files with
  | nil => exact .pure fun _ hr => by cases hr
  | cons file files ih =>
    exact .bind (follows_uploadBatchItem hown file) fun r hr => .bind ih fun rs hrs =>
      .pure (List.forall_mem_cons.mpr ⟨hr, hrs⟩)

theorem follows_getOwned (hown : own tenantId) : FollowsE (sourcing ext settings since own asked)
    (fun d => Stood since own d ∧ d.id = documentId) (getOwned tenantId documentId) := by
  refine .bind (follows_perform (R := fun row => ∀ d, row = some d →
    d.id = documentId ∧ ∃ w, since w ∧ w.db.document d.id = some d) trivial ?_) fun row hrow => ?_
  · rintro row hrow d rfl
    exact hrow
  · cases row with
    | none => exact .throw _
    | some d =>
      obtain ⟨hid, hstood⟩ := hrow d rfl
      simp only
      split
      · next htenant => exact .pure ⟨⟨htenant ▸ hown, hstood⟩, hid⟩
      · exact .throw _

theorem follows_listDocuments (hown : own tenantId) (limit offset : Int) :
    FollowsE (sourcing ext settings since own asked)
      (fun list => ∀ d ∈ list.items, Stood since own d)
      (listDocuments tenantId limit offset) := by
  refine .bind (follows_validate _) fun _ _ => .bind (follows_any trivial) fun _ _ =>
    .bind (follows_perform (R := fun rows => ∀ d ∈ rows, Stood since own d) trivial ?_)
      fun rows hrows => .pure hrows
  intro rows hrows d hd
  obtain ⟨htenant, hstood⟩ := hrows d hd
  exact ⟨htenant ▸ hown, hstood⟩

theorem follows_reportStatus (hown : own tenantId) (lastStatus : Option DocumentStatus)
    (row : Option Document) (hrow : ∀ d, row = some d →
      d.id = documentId ∧ ∃ w, since w ∧ w.db.document d.id = some d) :
    FollowsE (sourcing ext settings since own asked)
      (fun s => ∀ st, s = some st → ∃ d, Stood since own d ∧ d.status = st)
      (reportStatus tenantId documentId lastStatus row) := by
  cases row with
  | none => exact .bind (follows_emit trivial) fun _ _ => .pure fun _ hs => by cases hs
  | some d =>
    obtain ⟨hid, hstood⟩ := hrow d rfl
    simp only [reportStatus]
    split
    · exact .bind (follows_emit trivial) fun _ _ => .pure fun _ hs => by cases hs
    · next htenant =>
      have hd : Stood since own d := ⟨not_not.mp htenant ▸ hown, hstood⟩
      refine .bind (R := fun _ => True) ?_ fun _ _ => ?_
      · unfold reportChange
        split
        · exact .pure trivial
        · exact follows_emit ⟨d, hd, hid, rfl, rfl, rfl⟩
      · split
        · exact .bind (follows_emit ⟨d, hd, rfl⟩) fun _ _ => .pure fun _ hs => by cases hs
        · exact .pure fun st hs => ⟨d, hd, Option.some.inj hs⟩

theorem follows_eventStream (hown : own tenantId) (deadline polls : Nat)
    (lastStatus : Option DocumentStatus) :
    FollowsE (sourcing ext settings since own asked) (fun _ => True)
      (eventStream tenantId documentId deadline polls lastStatus) := by
  induction polls generalizing lastStatus with
  | zero => exact .pure trivial
  | succ polls ih =>
    refine .bind (follows_perform (R := fun row => ∀ d, row = some d →
      d.id = documentId ∧ ∃ w, since w ∧ w.db.document d.id = some d) trivial ?_) fun row hrow =>
        .bind (follows_reportStatus hown _ row hrow) fun s hs => ?_
    · rintro row hrow d rfl
      exact hrow
    · cases s with
      | none => exact .pure trivial
      | some st =>
        refine .bind (follows_any trivial) fun now _ => ?_
        split
        · exact .bind (follows_emit (hs st rfl)) fun _ _ => .pure trivial
        · refine .bind (follows_any trivial) fun disconnected _ => ?_
          split
          · exact .pure trivial
          · exact .bind (follows_any trivial) fun _ _ => ih _

theorem follows_documentEvents (hown : own tenantId) (polls : Nat) :
    FollowsE (sourcing ext settings since own asked) (fun _ => True)
      (documentEvents tenantId documentId polls) :=
  .bind (follows_getOwned hown) fun _ _ => .bind (follows_any trivial) fun _ _ =>
    follows_eventStream hown _ _ _

theorem follows_deleteDocument (hown : own tenantId) :
    FollowsE (sourcing ext settings since own asked) (fun _ => True)
      (deleteDocument tenantId documentId) :=
  .bind (follows_getOwned hown) fun _ _ => follows_any trivial

/-- All that a search has gathered comes from hits with the property. -/
def Gathered.All (P : ChunkHit → Prop) (g : Gathered) : Prop :=
  ∀ id hit, g.hits.get? id = some hit → P hit ∧ hit.chunkId = id

namespace Gathered.All

variable {P : ChunkHit → Prop} {g : Gathered}

theorem empty : ({} : Gathered).All P := fun id hit h => by cases h

theorem register (h : g.All P) {source : Str × List ChunkHit} (hsource : ∀ hit ∈ source.2, P hit) :
    (g.register source).All P := by
  intro id hit hhit
  rw [get?_hits_register, Option.or_eq_some_iff] at hhit
  rcases hhit with hhit | ⟨-, hhit⟩
  · exact h id hit hhit
  · exact ⟨hsource hit (List.mem_of_find?_eq_some hhit), by simpa using List.find?_some hhit⟩

theorem gathered {sources : List (Str × List ChunkHit)}
    (h : ∀ source ∈ sources, ∀ hit ∈ source.2, P hit) (hg : g.All P) :
    (sources.foldl Gathered.register g).All P := by
  induction sources generalizing g with
  | nil => exact hg
  | cons source sources ih =>
    rw [List.forall_mem_cons] at h
    exact ih h.2 (hg.register h.1)

theorem order {mode : SearchMode} {rrfK : Int} {rankLists : List (List Nat)}
    {ranked : Gathered × List Nat} (h : g.All P) (hr : g.order mode rrfK rankLists = .ok ranked) :
    ranked.1.All P := by
  unfold Gathered.order at hr
  split at hr
  · unfold Gathered.fused at hr
    cases hf : fuse rrfK rankLists with
    | error e =>
      rw [hf] at hr
      cases hr
    | ok scores =>
      rw [hf] at hr
      cases hr
      exact h
  · cases hr
    exact h

theorem content {ids : List Nat} {texts : List Str} (h : g.All P)
    (ht : ids.mapM g.content = .ok texts) :
    ∀ text ∈ texts, ∃ hit, P hit ∧ hit.content = text := by
  intro text htext
  obtain ⟨id, -, hcontent⟩ := mem_of_mapM ht htext
  unfold Gathered.content at hcontent
  split at hcontent
  · next hit hhit => exact ⟨hit, (h id hit hhit).1, Except.ok.inj hcontent⟩
  · cases hcontent

theorem chunks {ids : List Nat} {cs : List RetrievedChunk} (h : g.All P)
    (hc : ids.mapM g.chunk = .ok cs) :
    ∀ c ∈ cs, ∃ hit scores, P hit ∧ c = hit.retrieved hit.chunkId scores := by
  intro c hmem
  obtain ⟨id, -, hchunk⟩ := mem_of_mapM hc hmem
  unfold Gathered.chunk at hchunk
  split at hchunk
  · next hit scores hhit hscores =>
    obtain ⟨hP, rfl⟩ := h id hit hhit
    exact ⟨hit, scores, hP, (Except.ok.inj hchunk).symm⟩
  · cases hchunk

end Gathered.All

theorem follows_sources (hown : own tenantId) {query : Str} (hquery : asked = some query)
    (svc : RetrievalService) (mode : SearchMode) : FollowsE (sourcing ext settings since own asked)
      (fun sources => ∀ source ∈ sources, ∀ hit ∈ source.2, Drawn since own hit)
      (svc.sources tenantId query mode) := by
  have hdrawn {hits : List ChunkHit} (h : ∀ hit ∈ hits, Drawn since (· = tenantId) hit) :
      ∀ hit ∈ hits, Drawn since own hit := by
    intro hit hhit
    obtain ⟨w, t, hw, rfl, hrow⟩ := h hit hhit
    exact ⟨w, t, hw, hown, hrow⟩
  have hdense : FollowsE (sourcing ext settings since own asked) (fun source => ∀ hit ∈ source.2,
      Drawn since own hit) (svc.denseSource tenantId query) :=
    .bind (follows_any hquery) fun _ _ =>
      .bind (follows_perform trivial fun _ hhits => hdrawn hhits) fun _ hhits => .pure hhits
  have hkeyword : FollowsE (sourcing ext settings since own asked) (fun source => ∀ hit ∈ source.2,
      Drawn since own hit) (svc.keywordSource tenantId query) :=
    .bind (follows_perform trivial fun _ hhits => hdrawn hhits) fun _ hhits => .pure hhits
  cases mode with
  | hybrid =>
    exact .bind hdense fun _ hd => .bind hkeyword fun _ hk =>
      .pure (List.forall_mem_cons.mpr ⟨hd, List.forall_mem_singleton.mpr hk⟩)
  | dense => exact .bind hdense fun _ hd => .pure (List.forall_mem_singleton.mpr hd)
  | keyword => exact .bind hkeyword fun _ hk => .pure (List.forall_mem_singleton.mpr hk)

theorem follows_rerank {query : Str} (hquery : asked = some query) {g : Gathered}
    (hg : g.All (Drawn since own)) (svc : RetrievalService) (ordered : List Nat) :
    FollowsE (sourcing ext settings since own asked)
      (fun ranked => ranked.1.All (Drawn since own)) (svc.rerank query g ordered) := by
  unfold RetrievalService.rerank
  split
  · exact .pure hg
  · refine .bind (follows_ofExcept fun contents hc => hg.content hc) fun contents hcontents =>
      .bind (follows_perform (R := fun _ => True) ⟨hquery, hcontents⟩ fun _ _ => trivial)
        fun given _ => ?_
    split
    · exact .throw _
    · exact .pure hg

theorem follows_retrieval (hown : own tenantId) {query : Str} (hquery : asked = some query)
    (svc : RetrievalService) (mode : SearchMode) (topN : Option Int) :
    FollowsE (sourcing ext settings since own asked)
      (fun chunks => ∀ c ∈ chunks, Quoted since own c) (svc.search tenantId query mode topN) := by
  unfold RetrievalService.search
  split
  · exact .throw _
  · refine .bind (follows_sources hown hquery _ _) fun sources hsources =>
      .bind (follows_ofExcept fun ranked hr => Gathered.All.order ?_ hr) fun ranked hranked =>
        .bind (follows_rerank hquery hranked _ _) fun ranked hranked =>
          follows_ofExcept fun chunks hc => hranked.chunks hc
    exact Gathered.All.empty.gathered hsources

theorem follows_search (hown : own tenantId) {body : SearchRequest}
    (hquery : asked = some body.query) :
    FollowsE (sourcing ext settings since own asked)
      (fun rs => ∀ r ∈ rs, ∃ c, Quoted since own c ∧ r = searchResultOut c)
      (search settings tenantId body) :=
  .bind (follows_validate _) fun _ _ =>
    .bind (follows_retrieval hown hquery _ _ _) fun chunks hchunks => .pure fun r hr => by
      obtain ⟨c, hc, rfl⟩ := List.mem_map.mp hr
      exact ⟨c, hchunks c hc, rfl⟩

/-- The prompt and the citations that a search makes possible. -/
def Prepares (since : World → Prop) (own : Uuid → Prop) (asked : Option Str)
    (p : PreparedAnswer) : Prop :=
  ∃ chunks query, asked = some query ∧ (∀ c ∈ chunks, Quoted since own c) ∧
    p = prepared chunks query

theorem Prepares.prompted {p : PreparedAnswer} (h : Prepares since own asked p) :
    Prompted settings since own asked ((getAnswerService settings).prompt p) := by
  obtain ⟨chunks, query, hquery, hchunks, rfl⟩ := h
  exact ⟨chunks, query, hquery, hchunks, rfl⟩

theorem Prepares.cited {p : PreparedAnswer} (h : Prepares since own asked p) :
    Cited since own p.citations := by
  obtain ⟨chunks, query, -, hchunks, rfl⟩ := h
  intro x hx
  obtain ⟨⟨c, i⟩, hc, rfl⟩ := List.mem_map.mp hx
  exact ⟨c, hchunks c (List.fst_mem_of_mem_zipIdx hc), rfl⟩

theorem Prepares.citedOnly {p : PreparedAnswer} (h : Prepares since own asked p) {text : Str}
    {cited : List Citation} (hcited : citedOnly text p.citations = .ok cited) :
    Cited since own cited := by
  obtain ⟨chunks, query, -, hchunks, rfl⟩ := h
  by_cases hreadable : Readable text
  · obtain ⟨cited', hcited', -, -, hsource⟩ := citedOnly_prepared chunks query hreadable
    obtain rfl := Except.ok.inj (hcited.symm.trans hcited')
    intro x hx
    obtain ⟨c, hc, hxc⟩ := hsource x hx
    exact ⟨c, hchunks c (List.mem_of_getElem? hc), hxc⟩
  · rw [citedOnly_error _ hreadable] at hcited
    cases hcited

theorem follows_prepare (hown : own tenantId) {query : Str} (hquery : asked = some query)
    (svc : AnswerService) (topN : Int) :
    FollowsE (sourcing ext settings since own asked)
      (fun p => ∀ p', p = some p' → Prepares since own asked p')
      (svc.prepare tenantId query topN) := by
  refine .bind (follows_retrieval hown hquery _ _ _) fun chunks hchunks => .pure ?_
  intro p hp
  split at hp
  · cases hp
  · exact ⟨chunks, query, hquery, hchunks, (Option.some.inj hp).symm⟩

theorem follows_complete {p : PreparedAnswer} (hp : Prepares since own asked p) :
    FollowsE (sourcing ext settings since own asked) (fun a => Cited since own a.citations)
      ((getAnswerService settings).complete tenantId p) :=
  .bind (follows_perform (R := fun _ => True) hp.prompted fun _ _ => trivial) fun _ _ =>
    .bind (follows_ofExcept fun _ hc => hp.citedOnly hc) fun _ hcited =>
      .bind (follows_any trivial) fun _ _ => .pure hcited

theorem follows_streamEvents (svc : AnswerService) (events : List StreamEvent) :
    FollowsE (sourcing ext settings since own asked) (fun _ => True)
      (svc.streamEvents tenantId events) := by
  induction events with
  | nil => exact .pure trivial
  | cons event events ih =>
    cases event with
    | textDelta text => exact .bind (follows_emit trivial) fun _ _ => ih
    | streamEnd usage model =>
      exact .bind (follows_any trivial) fun _ _ => .bind (follows_emit trivial) fun _ _ => ih

theorem follows_stream {p : PreparedAnswer} (hp : Prepares since own asked p) :
    FollowsE (sourcing ext settings since own asked) (fun _ => True)
      ((getAnswerService settings).stream tenantId p) := by
  refine .bind (follows_emit hp.cited) fun _ _ =>
    .bind (follows_perform (R := fun _ => True) hp.prompted fun _ _ => trivial) fun reply _ =>
      .bind (follows_streamEvents _ _) fun _ _ => ?_
  cases reply.failure with
  | none => exact .pure trivial
  | some e => exact .throw _

theorem follows_answer (hown : own tenantId) {body : AnswerRequest}
    (hquery : asked = some body.query) : FollowsE (sourcing ext settings since own asked)
      (fun r => ∀ a, r = some a → Cited since own a.citations)
      (answer settings tenantId body) := by
  refine .bind (follows_validate _) fun _ _ =>
    .bind (follows_prepare hown hquery _ _) fun p hp => ?_
  split
  · refine .bind (R := fun _ => True) ?_ fun _ _ => .pure fun _ ha => by cases ha
    cases p with
    | none =>
      exact .bind (follows_emit fun x hx => by cases hx) fun _ _ =>
        .bind (follows_emit trivial) fun _ _ => follows_emit trivial
    | some p => exact follows_stream (hp p rfl)
  · refine .bind (R := fun a => Cited since own a.citations) ?_ fun a ha =>
      .pure fun _ he => Option.some.inj he ▸ ha
    cases p with
    | none => exact .pure fun x hx => by cases hx
    | some p => exact follows_complete (hp p rfl)

theorem follows_usageSummary (days : Int) :
    FollowsE (sourcing ext settings since own asked) (fun _ => True) (usageSummary tenantId days) :=
  .bind (follows_validate _) fun _ _ => .bind (follows_any trivial) fun _ _ =>
    .bind (follows_any trivial) fun _ _ => .pure trivial

theorem follows_embedBatches (texts : List Str) (htexts : ∀ ts, (∀ text ∈ ts, text ∈ texts) →
    Excerpted ext settings since own ts) {batches : List (List ChunkDraft)}
    (h : ∀ batch ∈ batches, ∀ draft ∈ batch, draft.text ∈ texts) :
    FollowsE (sourcing ext settings since own asked) (fun _ => True)
      (IngestionService.embedBatches batches) := by
  induction batches with
  | nil => exact .pure trivial
  | cons batch batches ih =>
    rw [List.forall_mem_cons] at h
    refine .bind (R := fun _ => True) (follows_any (htexts _ fun text ht => ?_)) fun _ _ =>
      .bind (ih h.2) fun _ _ => .pure trivial
    obtain ⟨draft, hdraft, rfl⟩ := List.mem_map.mp ht
    exact h.1 draft hdraft

theorem follows_embedAll {d : Document} (hd : Stood since own d) {raw : Bytes}
    (hraw : d.rawContent = some raw) {drafts : List ChunkDraft}
    (hdrafts : (ingestionService settings).parseAndChunk ext raw d.sourceType = .ok drafts) :
    FollowsE (sourcing ext settings since own asked) (fun _ => True)
      ((ingestionService settings).embedAll drafts) := by
  unfold IngestionService.embedAll
  split
  · exact .throw _
  · split
    · exact .pure trivial
    · next hzero hneg =>
      have hpos : 0 < (ingestionService settings).batchSize.toNat := by omega
      refine follows_embedBatches (drafts.map (·.text))
        (fun ts hts => ⟨d, raw, drafts, hd, hraw, hdrafts, hts⟩)
        fun batch hbatch draft hdraft => ?_
      refine List.mem_map_of_mem ?_
      rw [← flatten_slices hpos drafts]
      exact List.mem_flatten.mpr ⟨batch, hbatch, hdraft⟩

theorem follows_process (hown : ∀ t, own t) :
    FollowsE (sourcing ext settings since own asked) (fun _ => True)
      ((ingestionService settings).process ext none documentId) := by
  refine .bind (follows_perform (R := fun row => ∀ d, row = some d →
    ∃ w, since w ∧ w.db.document d.id = some d) trivial ?_) fun row hrow => ?_
  · rintro row hrow d rfl
    exact hrow.2
  · cases row with
    | none => exact .throw _
    | some d =>
      have hd : Stood since own d := ⟨hown _, hrow d rfl⟩
      simp only [Option.getD_none]
      split
      · exact .pure trivial
      · split
        · exact .throw _
        · next raw hraw =>
          refine .bind (R := fun i => i.current.sourceType = d.sourceType)
            (.bind (follows_any trivial) fun _ _ => .pure rfl) fun i hi =>
              .tryCatch
                (.bind (R := fun drafts =>
                  (ingestionService settings).parseAndChunk ext raw d.sourceType = .ok drafts)
                (follows_ofExcept fun drafts hdrafts => hi ▸ hdrafts) fun drafts hdrafts =>
                  .bind (follows_embedAll hd hraw hdrafts) fun embeddings _ =>
                    .bind (follows_any trivial) fun doomed _ => ?_) fun e =>
              .bind (follows_any trivial) fun _ _ => ?_
          · split
            · exact .throw _
            · exact .bind (follows_any trivial) fun _ _ => .pure trivial
          · cases e with
            | parse detail => exact .bind (follows_markFailed _ _) fun _ _ => .throw _
            | _ => exact .throw _

theorem follows_ingestDocument (hown : ∀ t, own t) (retries : Nat) :
    FollowsE (sourcing ext settings since own asked) (fun _ => True)
      (ingestDocument ext settings retries documentId) := by
  refine .tryCatch (.bind (follows_process hown) fun _ _ => .pure trivial) fun e => ?_
  cases e with
  | parse detail => exact .pure trivial
  | notFound detail => exact .pure trivial
  | _ =>
    simp only
    split
    · exact .bind (follows_markFailed _ _) fun _ _ => .pure trivial
    · exact .pure trivial

theorem follows_job {job : Job} (hown : ∀ t, job.MayRead t → own t) :
    FollowsE (sourcing ext settings since own job.query) (Outcome.Sourced since own)
      (job.code ext settings) := by
  cases job with
  | upload => exact .bind (follows_uploadDocument (hown _ rfl) _) fun _ hd => .pure hd
  | uploadBatch =>
    exact .bind (.bind (follows_uploadBatchItems (hown _ rfl) _) fun rs hrs =>
      .pure (R := fun b : DocumentBatchOut => ∀ r ∈ b.results, r.Sourced since own) hrs)
        fun b hb => .pure hb
  | list => exact .bind (follows_listDocuments (hown _ rfl) _ _) fun _ hl => .pure hl
  | get =>
    exact .bind (.bind (follows_getOwned (hown _ rfl)) fun _ hd =>
      .pure (R := fun found : Document × Option Nat => Stood since own found.1) hd.1)
        fun found hfound => .pure hfound
  | events => exact .bind (follows_documentEvents (hown _ rfl) _) fun _ _ => .pure trivial
  | delete => exact .bind (follows_deleteDocument (hown _ rfl)) fun _ _ => .pure trivial
  | search => exact .bind (follows_search (hown _ rfl) rfl) fun _ hrs => .pure hrs
  | answer =>
    refine .bind (follows_answer (hown _ rfl) rfl) fun r hr => .pure ?_
    cases r with
    | none => trivial
    | some a => exact hr a rfl
  | usage => exact .bind (follows_usageSummary _) fun _ _ => .pure trivial
  | deliver =>
    exact .bind (follows_ingestDocument (fun t => hown t trivial) _) fun _ _ => .pure trivial

end

end RagPlatform
