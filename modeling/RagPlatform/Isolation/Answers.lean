import RagPlatform.Isolation.Documents
import RagPlatform.Isolation.Retrieval

/-! Status streams, searches, answers and the usage rollup ask alike in both runs. -/

namespace RagPlatform

open Lib

variable {α : Type} {t : Uuid} {v : View}

theorem like_reportChange (documentId : Uuid) (lastStatus : Option DocumentStatus) (d : Document) :
    Like t (fun _ => Eq) v (reportChange documentId lastStatus d)
      (reportChange documentId lastStatus d) := by
  unfold reportChange
  split
  · exact .pureEq ()
  · exact .emit ⟨rfl, fun _ h => h.elim⟩

theorem like_reportStatus {documentId : Uuid} (lastStatus : Option DocumentStatus)
    {row row' : Option Document} (h : v.Shows t documentId row row') :
    Like t (fun _ => Eq) v (reportStatus t documentId lastStatus row)
      (reportStatus t documentId lastStatus row') := by
  have hgone : Like t (fun _ => Eq) v
      (reportStatus t documentId lastStatus none) (reportStatus t documentId lastStatus none) :=
    .bindEq (.emit ⟨rfl, fun _ h => h.elim⟩) fun _ _ _ => .pureEq none
  -- a row of somebody else's is reported as no row at all
  have hforeign (row : Option Document) (hrow : ∀ d ∈ row, d.tenantId ≠ t) :
      reportStatus t documentId lastStatus row = reportStatus t documentId lastStatus none := by
    cases row with
    | none => rfl
    | some d => exact if_pos (hrow d rfl)
  cases h with
  | own _ hrow =>
    cases row with
    | none => exact hgone
    | some d =>
      simp only [reportStatus, (hrow d rfl).2, ne_eq, not_true_eq_false, if_false]
      refine .bindEq (like_reportChange _ _ _) fun w _ _ => ?_
      split
      · exact .bindEq (.emit ⟨rfl, fun _ h => h.elim⟩) fun _ _ _ => .pureEq none
      · exact .pureEq _
  | foreign hrow hrow' =>
    rw [hforeign row hrow, hforeign row' hrow']
    exact hgone

theorem like_eventStream (documentId : Uuid) (deadline polls : Nat)
    (lastStatus : Option DocumentStatus) :
    Like t (fun _ => Eq) v (eventStream t documentId deadline polls lastStatus)
      (eventStream t documentId deadline polls lastStatus) := by
  induction polls generalizing v lastStatus with
  | zero => exact .pureEq false
  | succ polls ih =>
    refine .bind (Like.perform (.getDocument documentId)) fun w _ row row' hrow =>
      Like.bindEq (like_reportStatus lastStatus hrow) fun w _ status => ?_
    cases status with
    | none => exact .pureEq true
    | some status =>
      refine .bindEq (.same (c := .loopTime) trivial) fun w _ now => ?_
      split
      · exact .bindEq (.emit ⟨rfl, fun _ h => h.elim⟩) fun _ _ _ => .pureEq true
      · refine .bindEq (.same (c := .isDisconnected) trivial) fun w _ disconnected => ?_
        split
        · exact .pureEq true
        · exact .bindEq (.same (c := .sleep pollIntervalSeconds) trivial) fun _ _ _ => ih _

theorem like_documentEvents (documentId : Uuid) (polls : Nat) :
    Like t (fun _ => Eq) v (documentEvents t documentId polls)
      (documentEvents t documentId polls) :=
  .bind (like_getOwned documentId) fun _ _ _ _ _ =>
    Like.bindEq (.same (c := .loopTime) trivial) fun _ _ _ => like_eventStream _ _ _ _

theorem relates_nil [Nominal Nat α] : v.Relates ([] : List α) [] :=
  ⟨rfl, fun _ ⟨_, ha, _⟩ => absurd ha List.not_mem_nil⟩

theorem relates_cons [Nominal Nat α] {a a' : α} {as as' : List α} (h : v.Relates a a')
    (hs : v.Relates as as') : v.Relates (a :: as) (a' :: as') := by
  refine ⟨?_, ?_⟩
  · change a :: as = Nominal.rename v.name a' :: as'.map (Nominal.rename v.name)
    rw [h.eq, hs.eq]
    rfl
  · rintro n ⟨b, hb, hn⟩
    rcases List.mem_cons.mp hb with rfl | hb
    · exact h.known n hn
    · exact hs.known n ⟨b, hb, hn⟩

section Search

variable {svc : RetrievalService}

theorem like_denseSource (query : Str) : Like t (fun w => w.Relates) v (svc.denseSource t query)
    (svc.denseSource t query) :=
  .bindEq (.same (c := .embedQuery query) trivial) fun _ _ _ =>
    .bind (Like.perform (.denseSearch _ _)) fun _ _ _ _ h => .pure fun _ hu =>
      ⟨congrArg _ (h.mono hu.1).eq, (h.mono hu.1).known⟩

theorem like_keywordSource (query : Str) :
    Like t (fun w => w.Relates) v (svc.keywordSource t query) (svc.keywordSource t query) :=
  .bind (Like.perform (.keywordSearch _ _)) fun _ _ _ _ h => .pure fun _ hu =>
    ⟨congrArg _ (h.mono hu.1).eq, (h.mono hu.1).known⟩

theorem like_sources (query : Str) (mode : SearchMode) :
    Like t (fun w => w.Relates) v (svc.sources t query mode) (svc.sources t query mode) := by
  cases mode with
  | hybrid =>
    exact .bind (like_denseSource query) fun w _ _ _ hdense => .bind (like_keywordSource query)
      fun _ hu _ _ hkeyword => .pure fun _ hx => relates_cons (hdense.mono (hu.trans hx).1)
        (relates_cons (hkeyword.mono hx.1) relates_nil)
  | dense =>
    exact .bind (like_denseSource query) fun _ _ _ _ h => .pure fun _ hu =>
      relates_cons (h.mono hu.1) relates_nil
  | keyword =>
    exact .bind (like_keywordSource query) fun _ _ _ _ h => .pure fun _ hu =>
      relates_cons (h.mono hu.1) relates_nil

/-- The keys of `hits` come from the hits. -/
theorem Gathered.known_register {S : Set Nat} {g : Gathered} (hg : ∀ e ∈ g.hits, e.1 ∈ S)
    (source : Str × List ChunkHit) (hsource : ∀ hit ∈ source.2, hit.chunkId ∈ S) :
    ∀ e ∈ (g.register source).hits, e.1 ∈ S := by
  obtain ⟨name, hits⟩ := source
  simp only [register] at *
  induction hits generalizing g with
  | nil => exact hg
  | cons hit hits ih =>
    refine ih (fun e he => ?_) fun hit' h => hsource hit' (.tail _ h)
    rcases Dict.mem_setdefault he with he | rfl
    · exact hg e he
    · exact hsource hit (.head _)

theorem Gathered.known_foldl {S : Set Nat} (sources : List (Str × List ChunkHit))
    (hsources : ∀ n, Nominal.Mentions sources n → n ∈ S) {g : Gathered}
    (hg : ∀ e ∈ g.hits, e.1 ∈ S) : ∀ e ∈ (sources.foldl register g).hits, e.1 ∈ S := by
  induction sources generalizing g with
  | nil => exact hg
  | cons source sources ih =>
    refine ih (fun n ⟨s, hs, hn⟩ => hsources n ⟨s, .tail _ hs, hn⟩) ?_
    exact known_register hg source fun hit hhit =>
      hsources _ ⟨source, .head _, hit, hhit, rfl⟩

/-- The same ranking, under the names of whatever view comes later. -/
structure RankedAlike (v : View) (ranked ranked' : Gathered × List Nat) : Prop where
  eq : ∀ w, v ≤ w → ranked = renameRanked w.name ranked'
  known : ∀ e ∈ ranked'.1.hits, e.1 ∈ v.known

theorem RankedAlike.mono {w : View} {ranked ranked' : Gathered × List Nat}
    (h : RankedAlike v ranked ranked') (hvw : v ≤ w) : RankedAlike w ranked ranked' :=
  ⟨fun u hu => h.eq u (hvw.trans hu), fun e he => hvw.1.1 (h.known e he)⟩

def ranking (svc : RetrievalService) (mode : SearchMode) (sources : List (Str × List ChunkHit)) :
    Except Exn (Gathered × List Nat) :=
  (sources.foldl Gathered.register {}).order mode svc.rrfK
    (sources.map fun source => source.2.map (·.chunkId))

theorem ranking_rename {f : Nat → Nat} (hf : StrictMono f) (mode : SearchMode)
    (sources : List (Str × List ChunkHit)) : ranking svc mode (Nominal.rename f sources) =
      (ranking svc mode sources).map (renameRanked f) := by
  have hg := Gathered.foldl_register_rename hf.injective {} sources
  have hids : (Nominal.rename f sources).map (fun source => source.2.map (·.chunkId)) =
      (sources.map fun source => source.2.map (·.chunkId)).map (List.map f) := by
    change (sources.map (Nominal.rename f)).map _ = _
    rw [List.map_map, List.map_map]
    refine List.map_congr_left fun source _ => ?_
    change (source.2.map (Nominal.rename f)).map (·.chunkId) = (source.2.map (·.chunkId)).map f
    rw [List.map_map, List.map_map]
    rfl
  unfold ranking
  rw [hids, ← Gathered.order_rename hf, hg]
  rfl

theorem hits_order {g : Gathered} {mode : SearchMode} {rrfK : Int} {rankLists : List (List Nat)}
    {ranked : Gathered × List Nat} (h : g.order mode rrfK rankLists = .ok ranked) :
    ranked.1.hits = g.hits := by
  unfold Gathered.order at h
  split at h
  · unfold Gathered.fused at h
    cases hfuse : fuse rrfK rankLists with
    | error e => simp [hfuse, bind, Except.bind] at h
    | ok scores =>
      simp only [hfuse, bind, Except.bind, pure, Except.pure, Except.ok.injEq] at h
      exact h ▸ rfl
  · exact Except.ok.inj h ▸ rfl

theorem agree_ranking {mode : SearchMode} {sources sources' : List (Str × List ChunkHit)}
    (h : v.Relates sources sources') :
    Agree (RankedAlike v) (ranking svc mode sources) (ranking svc mode sources') := by
  have heq (w : View) (hw : v ≤ w) :
      ranking svc mode sources = (ranking svc mode sources').map (renameRanked w.name) := by
    rw [← ranking_rename w.strictMono, (h.mono hw.1).eq]
  cases hr : ranking svc mode sources' with
  | error e =>
    have hv := heq v le_rfl
    rw [hr] at hv
    exact hv ▸ .error e
  | ok ranked' =>
    have hv := heq v le_rfl
    rw [hr] at hv
    rw [hv]
    refine .ok ⟨fun w hw => ?_, ?_⟩
    · have hw := heq w hw
      rw [hv, hr] at hw
      exact Except.ok.inj hw
    · rw [hits_order hr]
      exact Gathered.known_foldl sources' h.known fun e he => absurd he List.not_mem_nil

theorem like_rerank (query : Str) {ranked ranked' : Gathered × List Nat}
    (h : RankedAlike v ranked ranked') :
    Like t RankedAlike v (svc.rerank query ranked.1 ranked.2)
      (svc.rerank query ranked'.1 ranked'.2) := by
  have hv := h.eq v le_rfl
  unfold RetrievalService.rerank
  have hnil : ranked.2 = [] ↔ ranked'.2 = [] := by rw [hv]; exact List.map_eq_nil_iff
  by_cases hnone : svc.reranker = .none ∨ ranked'.2 = []
  · rw [if_pos hnone, if_pos (hnone.imp_right hnil.mpr)]
    exact .pure fun u hu => h.mono hu
  · rw [if_neg hnone, if_neg fun hn => hnone (hn.imp_right hnil.mp)]
    have hcontents : ranked.2.mapM ranked.1.content = ranked'.2.mapM ranked'.1.content := by
      rw [hv]
      exact mapM_map_congr (ranked'.1.content_rename v.strictMono.injective) ranked'.2
    have hlength : ranked.2.length = ranked'.2.length := by rw [hv]; exact List.length_map ..
    rw [hcontents]
    refine .bindEq (.exceptEq _) fun w hw contents =>
      .bindEq (.same (c := .rerank query contents) trivial) fun u hu given => ?_
    rw [hlength]
    split
    · exact .raise _
    · refine .pure fun x hx => ⟨fun y hy => ?_, fun e he => ?_⟩
      · have hy := h.eq y (hw.trans (hu.trans (hx.trans hy)))
        rw [hy]
        exact Gathered.reranked_rename y.strictMono ranked'.1 ranked'.2 given
      · exact (hw.trans (hu.trans hx)).1.1 (h.known e he)

theorem Gathered.chunk_ok {g : Gathered} {id : Nat} {chunk : RetrievedChunk}
    (h : g.chunk id = .ok chunk) : ∃ hit, (id, hit) ∈ g.hits ∧ chunk.chunkId = id := by
  unfold Gathered.chunk at h
  cases hhit : g.hits.get? id with
  | none => simp [hhit] at h
  | some hit =>
    cases hscores : g.scores.get? id with
    | none => simp [hhit, hscores] at h
    | some scores =>
      simp only [hhit, hscores, Except.ok.injEq] at h
      exact ⟨hit, Dict.mem_of_get? hhit, h ▸ rfl⟩

theorem agree_chunks {ranked ranked' : Gathered × List Nat} (h : RankedAlike v ranked ranked')
    (n : Int) : Agree v.Relates ((upTo ranked.2 n).mapM ranked.1.chunk)
      ((upTo ranked'.2 n).mapM ranked'.1.chunk) := by
  have heq : (upTo ranked.2 n).mapM ranked.1.chunk =
      ((upTo ranked'.2 n).mapM ranked'.1.chunk).map (Nominal.rename v.name) := by
    rw [h.eq v le_rfl]
    simp only [renameRanked, upTo_map]
    exact Gathered.chunks_rename v.strictMono.injective ranked'.1 _
  rw [heq]
  cases hchunks : (upTo ranked'.2 n).mapM ranked'.1.chunk with
  | error e => exact .error e
  | ok chunks =>
    refine .ok ⟨rfl, ?_⟩
    rintro m ⟨chunk, hchunk, rfl⟩
    obtain ⟨id, -, hid⟩ := mem_of_mapM hchunks hchunk
    obtain ⟨hit, hhit, hchunk⟩ := Gathered.chunk_ok hid
    exact hchunk ▸ h.known _ hhit

theorem like_search (query : Str) (mode : SearchMode) (topN : Option Int) :
    Like t (fun w => w.Relates) v (svc.search t query mode topN) (svc.search t query mode topN) := by
  unfold RetrievalService.search
  split
  · exact .raise _
  · refine .bind (like_sources query mode) fun w _ sources sources' hsources =>
      .bind (Like.ofExcept fun u hu => agree_ranking (hsources.mono hu.1))
        fun u _ ranked ranked' hranked => .bind (like_rerank query hranked)
          fun x _ ranked ranked' hranked => Like.ofExcept fun y hy => agree_chunks (hranked.mono hy) _

end Search

theorem like_searchEndpoint (settings : Settings) (body : SearchRequest) :
    Like t (fun w => w.Relates) v (search settings t body) (search settings t body) := by
  refine .bindEq (like_validate _) fun w _ _ => .bind (like_search _ _ _) fun u _ rs rs' h =>
    .pure fun x hx => ?_
  have h := h.mono hx.1
  refine ⟨?_, ?_⟩
  · rw [h.eq]
    change (rs'.map _).map _ = (rs'.map _).map _
    rw [List.map_map, List.map_map]
    rfl
  · rintro n ⟨out, hout, rfl⟩
    obtain ⟨r, hr, rfl⟩ := List.mem_map.mp hout
    exact h.known _ ⟨r, hr, rfl⟩

theorem prepared_rename (f : Nat → Nat) (chunks : List RetrievedChunk) (query : Str) :
    prepared (Nominal.rename f chunks) query = Nominal.rename f (prepared chunks query) := by
  have hzip : (Nominal.rename f chunks).zipIdx 1 =
      (chunks.zipIdx 1).map (Prod.map (Nominal.rename f) id) := List.zipIdx_map ..
  have hpassages : ((Nominal.rename f chunks).zipIdx 1).map (fun x => passage x.1 x.2) =
      (chunks.zipIdx 1).map fun x => passage x.1 x.2 := by
    rw [hzip, List.map_map]
    rfl
  have hcitations : ((Nominal.rename f chunks).zipIdx 1).map (fun x => citation x.1 x.2) =
      ((chunks.zipIdx 1).map fun x => citation x.1 x.2).map (Nominal.rename f) := by
    rw [hzip, List.map_map, List.map_map]
    rfl
  have hrename (p : PreparedAnswer) : Nominal.rename f p =
      { p with citations := p.citations.map (Nominal.rename f) } := rfl
  rw [hrename]
  simp only [prepared, buildUserPrompt, hpassages, hcitations]

theorem relates_prepared {chunks chunks' : List RetrievedChunk} (h : v.Relates chunks chunks')
    (query : Str) : v.Relates (prepared chunks query) (prepared chunks' query) := by
  refine ⟨by rw [h.eq, prepared_rename], ?_⟩
  rintro n ⟨c, hc, rfl⟩
  obtain ⟨x, hx, rfl⟩ := List.mem_map.mp hc
  exact h.known _ ⟨x.1, List.fst_mem_of_mem_zipIdx hx, rfl⟩

def availableCitations (citations : List Citation) (d : Dict Nat Citation) : Dict Nat Citation :=
  citations.foldl (fun d c => d.set c.marker c) d

theorem availableCitations_rename (f : Nat → Nat) (citations : List Citation)
    (d : Dict Nat Citation) : (availableCitations citations d).rename id (Nominal.rename f) =
      availableCitations (Nominal.rename f citations) (d.rename id (Nominal.rename f)) := by
  induction citations generalizing d with
  | nil => rfl
  | cons c citations ih =>
    change (availableCitations citations (d.set c.marker c)).rename _ _ = _
    rw [ih, Dict.rename_set Function.injective_id]
    rfl

theorem mem_availableCitations {citations : List Citation} {d : Dict Nat Citation}
    {e : Nat × Citation} (h : e ∈ availableCitations citations d) : e ∈ d ∨ e.2 ∈ citations := by
  induction citations generalizing d with
  | nil => exact .inl h
  | cons c citations ih =>
    rcases ih h with h | h
    · rcases Dict.mem_set h with h | rfl
      · exact .inl h
      · exact .inr (.head _)
    · exact .inr (.tail _ h)

theorem citedOnly_rename (f : Nat → Nat) (text : Str) (citations : List Citation) :
    citedOnly text (Nominal.rename f citations) =
      (citedOnly text citations).map (Nominal.rename f) := by
  have hget (m : Nat) : (availableCitations (Nominal.rename f citations) []).get? m =
      ((availableCitations citations []).get? m).map (Nominal.rename f) := by
    have h := availableCitations_rename f citations []
    rw [← Dict.get?_rename Function.injective_id (Nominal.rename f), h]
    rfl
  change (do
    let markers ← (findMarkers none text).mapM markerValue
    let seen := (markers.filter fun m =>
      ((availableCitations (Nominal.rename f citations) []).get? m).isSome).dedup
    return (seen.insertionSort (· ≤ ·)).filterMap
      (availableCitations (Nominal.rename f citations) []).get? : Except Exn (List Citation)) = _
  simp only [citedOnly]
  cases (findMarkers none text).mapM markerValue with
  | error e => rfl
  | ok markers =>
    simp only [hget, Option.isSome_map, bind, Except.bind, pure, Except.pure, Except.map]
    exact congrArg Except.ok List.map_filterMap.symm

theorem citedOnly_mem {text : Str} {citations cited : List Citation}
    (h : citedOnly text citations = .ok cited) : ∀ c ∈ cited, c ∈ citations := by
  unfold citedOnly at h
  cases hmarkers : (findMarkers none text).mapM markerValue with
  | error e => simp [hmarkers, bind, Except.bind] at h
  | ok markers =>
    simp only [hmarkers, bind, Except.bind, pure, Except.pure, Except.ok.injEq] at h
    subst h
    intro c hc
    obtain ⟨m, -, hm⟩ := List.mem_filterMap.mp hc
    rcases mem_availableCitations (Dict.mem_of_get? hm) with h | h
    · exact absurd h List.not_mem_nil
    · exact h

section Service

variable {svc : AnswerService}

theorem like_prepare (query : Str) (topN : Int) :
    Like t (fun w => w.Relates) v (svc.prepare t query topN) (svc.prepare t query topN) := by
  refine .bind (like_search query .hybrid (some topN)) fun w _ chunks chunks' h =>
    .pure fun u hu => ?_
  have h := h.mono hu.1
  have hnil : chunks = [] ↔ chunks' = [] := by rw [h.eq]; exact List.map_eq_nil_iff
  by_cases hnone : chunks' = []
  · rw [if_pos hnone, if_pos (hnil.mpr hnone)]
    exact ⟨rfl, fun _ ⟨_, hp, _⟩ => nomatch hp⟩
  · rw [if_neg hnone, if_neg (hnil.not.mpr hnone)]
    have hp := relates_prepared h query
    refine ⟨congrArg some hp.eq, fun n ⟨p, hp', hn⟩ => hp.known n ?_⟩
    exact Option.some.inj hp' ▸ hn

theorem like_recordUsage (model : Str) (usage : LLMUsage) (cost : Option Rat) :
    Like t (fun _ => Eq) v (AnswerService.recordUsage t model usage cost)
      (AnswerService.recordUsage t model usage cost) :=
  .same (c := .insertUsage _) rfl

theorem like_complete {p p' : PreparedAnswer} (h : v.Relates p p') :
    Like t (fun w => w.Relates) v (svc.complete t p) (svc.complete t p') := by
  have hprompt : svc.prompt p = svc.prompt p' := by rw [h.eq]; rfl
  have hcited (w : View) (hw : v ≤ w) (text : Str) : Agree (fun cs cs' => w.Relates cs cs')
      (citedOnly text p.citations) (citedOnly text p'.citations) := by
    have h := h.mono hw.1
    rw [congrArg PreparedAnswer.citations h.eq]
    change Agree _ (citedOnly text (Nominal.rename w.name p'.citations)) _
    rw [citedOnly_rename]
    cases hcs : citedOnly text p'.citations with
    | error e => exact .error e
    | ok cs =>
      exact .ok ⟨rfl, fun n ⟨c, hc, hn⟩ => h.known n ⟨c, citedOnly_mem hcs c hc, hn⟩⟩
  unfold AnswerService.complete
  rw [hprompt]
  refine .bindEq (.same (c := .generate _) trivial) fun w hw result =>
    .bind (Like.ofExcept fun u hu => hcited u (hw.trans hu) result.text) fun u _ cs cs' hcs =>
      Like.bindEq (like_recordUsage _ _ _) fun x hx _ => .pure fun y hy => ?_
  have hcs := hcs.mono (hx.trans hy).1
  exact ⟨congrArg (AnswerResult.mk _ · _ _ _) hcs.eq, hcs.known⟩

theorem like_streamEvents (events : List StreamEvent) :
    Like t (fun _ => Eq) v (svc.streamEvents t events) (svc.streamEvents t events) := by
  induction events generalizing v with
  | nil => exact .pureEq ()
  | cons event events ih =>
    cases event with
    | textDelta text => exact .bindEq (.emit ⟨rfl, fun _ h => h.elim⟩) fun _ _ _ => ih
    | streamEnd usage model =>
      exact .bindEq (like_recordUsage _ _ _) fun _ _ _ =>
        .bindEq (.emit ⟨rfl, fun _ h => h.elim⟩) fun _ _ _ => ih

theorem like_stream {p p' : PreparedAnswer} (h : v.Relates p p') :
    Like t (fun _ => Eq) v (svc.stream t p) (svc.stream t p') := by
  have hprompt : svc.prompt p = svc.prompt p' := by rw [h.eq]; rfl
  have hcitations : v.Relates (ServerEvent.citations p.citations) (.citations p'.citations) :=
    ⟨congrArg (fun p : PreparedAnswer => ServerEvent.citations p.citations) h.eq, h.known⟩
  unfold AnswerService.stream
  rw [hprompt]
  refine .bindEq (.emit hcitations) fun w _ _ => .bindEq (.same (c := .stream _) trivial)
    fun u _ reply => .bindEq (like_streamEvents reply.events) fun x _ _ => ?_
  split
  · exact .raise _
  · exact .pureEq ()

theorem like_answerStream {p p' : Option PreparedAnswer} (h : v.Relates p p') :
    Like t (fun _ => Eq) v (answerStream svc t p) (answerStream svc t p') := by
  cases p' with
  | none =>
    rw [h.eq]
    exact .bindEq (.emit ⟨rfl, fun _ ⟨_, hc, _⟩ => absurd hc List.not_mem_nil⟩) fun _ _ _ =>
      .bindEq (.emit ⟨rfl, fun _ h => h.elim⟩) fun _ _ _ => .emit ⟨rfl, fun _ h => h.elim⟩
  | some p' =>
    rw [h.eq]
    exact like_stream ⟨rfl, fun n hn => h.known n ⟨p', rfl, hn⟩⟩

theorem like_plainAnswer {p p' : Option PreparedAnswer} (h : v.Relates p p') :
    Like t (fun w => w.Relates) v (plainAnswer svc t p) (plainAnswer svc t p') := by
  cases p' with
  | none =>
    rw [h.eq]
    exact .pure fun _ _ => ⟨rfl, fun _ ⟨_, hc, _⟩ => absurd hc List.not_mem_nil⟩
  | some p' =>
    rw [h.eq]
    exact like_complete ⟨rfl, fun n hn => h.known n ⟨p', rfl, hn⟩⟩

end Service

theorem like_answer (settings : Settings) (body : AnswerRequest) :
    Like t (fun w => w.Relates) v (answer settings t body) (answer settings t body) := by
  refine .bindEq (like_validate _) fun w _ _ => .bind (like_prepare _ _) fun u _ p p' hp => ?_
  split
  · exact Like.bindEq (like_answerStream hp) fun _ _ _ =>
      .pure fun _ _ => ⟨rfl, fun _ ⟨_, ha, _⟩ => nomatch ha⟩
  · refine .bind (like_plainAnswer hp) fun _ _ r r' hr => .pure fun x hx => ?_
    have hr := hr.mono hx.1
    refine ⟨congrArg some hr.eq, fun n ⟨a, ha, hn⟩ => hr.known n ?_⟩
    exact Option.some.inj ha ▸ hn

theorem like_usageSummary (days : Int) :
    Like t (fun _ => Eq) v (usageSummary t days) (usageSummary t days) :=
  .bindEq (like_validate _) fun _ _ _ => .bindEq (.same (c := .time) trivial) fun _ _ _ =>
    .bindEq (.same (c := .usageRollup t _) rfl) fun _ _ _ => .pureEq _

end RagPlatform
