import RagPlatform.ChunkWindows
import RagPlatform.Erasure
import RagPlatform.IndexAlignment
import RagPlatform.Ingestion.Sections
import RagPlatform.MarkdownText
import RagPlatform.Retrieval.Findings
import RagPlatform.Retrieval.Permitted
import RagPlatform.TextBudget

/-! Everything that has been ingested takes part in the searches. -/

namespace RagPlatform

open Lib

def Says (ext : External) (d : Document) (word : Str) : Prop :=
  ∃ raw blocks, d.rawContent = some raw ∧ parseDocument ext raw d.sourceType = .ok blocks ∧
    ∃ block ∈ blocks, word ∈ Str.words block.text

theorem mem_words_chunkBlocks {blocks : List Block} {target overlap : Int}
    {drafts : List ChunkDraft} (h : chunkBlocks blocks target overlap = .ok drafts)
    {block : Block} (hblock : block ∈ blocks) {word : Str} (hword : word ∈ Str.words block.text) :
    ∃ draft ∈ drafts, word ∈ Str.words draft.text := by
  obtain ⟨hlt, hsplits⟩ := splittable_of_ok h
  obtain ⟨vs, hchunked, hgreedy⟩ := exists_chunked hlt hsplits
  obtain rfl := Except.ok.inj (hchunked.chunks.symm.trans h)
  have hsaid : word ∈ (sentences blocks target).flatMap unitWords := by
    rw [words_sentences]
    exact List.mem_flatMap.mpr ⟨block, hblock, hword⟩
  obtain ⟨s, hs, hword⟩ := List.mem_flatMap.mp hsaid
  obtain ⟨i, hi, rfl⟩ := List.mem_iff_getElem.mp hs
  have hne : vs ≠ [] := fun hnil => by
    rw [hgreedy.nil_iff.mp hnil] at hi
    exact Nat.not_lt_zero i hi
  obtain ⟨v, hv, hstart, hstop⟩ := hchunked.tiles.covers hne hi
  refine ⟨_, List.mem_map_of_mem hv, ?_⟩
  rw [words_chunkOf]
  refine List.mem_flatMap.mpr ⟨_, ?_, hword⟩
  exact Window.mem_of_iff.mpr ⟨i, hstart, hstop, List.getElem?_eq_getElem hi⟩

theorem Says.drafted {ext : External} {svc : IngestionService} {d : Document} {word : Str}
    (h : Says ext d word) {drafts : List ChunkDraft} (hdrafts : Drafted ext svc d drafts) :
    ∃ draft ∈ drafts, word ∈ Str.words draft.text := by
  obtain ⟨raw, blocks, hraw, hparse, block, hblock, hword⟩ := h
  obtain ⟨raw', hraw', hok⟩ := hdrafts
  obtain rfl := Option.some.inj (hraw.symm.trans hraw')
  simp only [IngestionService.parseAndChunk, bind, Except.bind, hparse] at hok
  exact mem_words_chunkBlocks hok hblock hword

theorem says_markdown {ext : External} {d : Document} {raw : Bytes} {text : Str}
    (hraw : d.rawContent = some raw) (htype : d.sourceType = .markdown)
    (htext : utf8Decode raw = some text) {line : Str}
    (hline : line ∈ bodyLines (Str.splitlines text)) {word : Str}
    (hword : word ∈ Str.words line) : Says ext d word := by
  have hmem : word ∈ (sectionBlocks (markdownSections (Str.splitlines text))).flatMap
      (Str.words ·.text) := by
    rw [words_sectionBlocks]
    exact List.mem_flatMap.mpr ⟨line, hline, hword⟩
  obtain ⟨block, hblock, hword⟩ := List.mem_flatMap.mp hmem
  refine ⟨raw, _, hraw, ?_, block, hblock, hword⟩
  rw [htype, parseDocument, parseMarkdown_eq htext,
    if_neg fun hnil => List.not_mem_nil (hnil ▸ hblock)]

theorem Database.MayDense.mem_or {db : Database} {scoring : Scoring} {tenantId : Uuid}
    {queryEmbedding : Embedding} {k : Nat} {hits : List ChunkHit}
    (h : db.MayDense scoring tenantId queryEmbedding k hits) {x : Chunk × Document}
    (hx : x ∈ db.tenantRows tenantId) :
    let similarity := 1 - scoring.cosineDistance x.1.embedding queryEmbedding
    x.1.hit x.2 similarity ∈ hits ∨ hits.length = k ∧ ∀ hit ∈ hits, similarity ≤ hit.score := by
  obtain ⟨rows, hrows, rfl⟩ := h
  refine (hrows.mem_take_or hx k).imp (fun hmem => List.mem_map_of_mem hmem) fun hfull => ?_
  refine ⟨(List.length_map _).trans hfull.1, fun hit hhit => ?_⟩
  obtain ⟨y, hy, rfl⟩ := List.mem_map.mp hhit
  exact sub_le_sub_left (hfull.2 y hy) 1

theorem Database.MayDense.nodup {db : Database} {scoring : Scoring} {tenantId : Uuid}
    {queryEmbedding : Embedding} {k : Nat} {hits : List ChunkHit}
    (h : db.MayDense scoring tenantId queryEmbedding k hits) : (idsOf hits).Nodup := by
  obtain ⟨rows, hrows, rfl⟩ := h
  have hids : (rows.map (·.1.id)).Nodup :=
    (hrows.perm.map _).nodup_iff.mpr (db.nodup_tenantRows tenantId)
  rw [idsOf, List.map_map, List.map_take]
  exact hids.sublist (List.take_sublist ..)

theorem Database.MayKeyword.nodup {db : Database} {scoring : Scoring} {tenantId : Uuid}
    {query : Str} {k : Nat} {hits : List ChunkHit}
    (h : db.MayKeyword scoring tenantId query k hits) : (idsOf hits).Nodup := by
  obtain ⟨rows, hrows, rfl⟩ := h
  have hids : (idsOf rows).Nodup := (hrows.perm.map _).nodup_iff.mpr (db.nodup_matching ..)
  exact hids.sublist ((List.take_sublist ..).map _)

theorem Lists.hits_of_dense {l : Lists} {hit : ChunkHit} (h : hit ∈ l.dense) :
    l.gathered.hits.get? hit.chunkId = some hit := by
  rw [Lists.hits_gathered, Lists.hitOf, List.find?_append]
  have hfind : l.dense.find? (·.chunkId = hit.chunkId) = some hit := by
    obtain ⟨other, hother⟩ := Option.isSome_iff_exists.mp
      (List.find?_isSome.mpr ⟨hit, h, decide_eq_true rfl⟩ :
        (l.dense.find? (·.chunkId = hit.chunkId)).isSome)
    have hid : other.chunkId = hit.chunkId := by simpa using List.find?_some hother
    rw [hother, List.inj_on_of_nodup_map l.dense_nodup (List.mem_of_find?_eq_some hother) h hid]
  rw [hfind]
  rfl

def Concluded (settings : Settings) (body : SearchRequest) (l : Lists)
    (rs : List SearchResultOut) : Prop :=
  ∃ g ordered chunks, l.gathered.order l.mode settings.retrievalRrfK l.rankLists =
      .ok (g, ordered) ∧
    (ordered.take body.topN.toNat).mapM g.chunk = .ok chunks ∧ rs = chunks.map searchResultOut

theorem Concluded.mem_or {settings : Settings} {body : SearchRequest} {l : Lists}
    {rs : List SearchResultOut} (h : Concluded settings body l rs) {hit : ChunkHit}
    (hhit : hit ∈ l.dense) :
    (∃ r ∈ rs, r.documentId = hit.documentId ∧ r.chunkIndex = hit.chunkIndex ∧
        r.content = hit.content) ∨
      rs.length = body.topN.toNat ∧ ∀ r ∈ rs,
        rankKey (l.mark settings.retrievalRrfK r.chunkId) r.chunkId <
          rankKey (l.mark settings.retrievalRrfK hit.chunkId) hit.chunkId := by
  obtain ⟨g, ordered, chunks, horder, hchunks, rfl⟩ := h
  have hdivides : l.mode = .hybrid →
      ¬ Divides settings.retrievalRrfK (idsOf l.dense) (idsOf l.keyword) := by
    intro hm hzero
    rw [Lists.order_error hm hzero] at horder
    cases horder
  obtain ⟨g', ordered', horder', hhits, hnodup, hmem, hsorted, hnoted⟩ := Lists.order_ok hdivides
  obtain ⟨rfl, rfl⟩ := Prod.mk.inj (Except.ok.inj (horder.symm.trans horder'))
  have hhas (id : Nat) (hid : id ∈ ordered.take body.topN.toNat) : g.Has id :=
    (hnoted id (List.mem_of_mem_take hid)).1
  obtain ⟨chunks', hchunks', hids, hdata⟩ := mapM_chunk hhas
  obtain rfl := Except.ok.inj (hchunks.symm.trans hchunks')
  have hordered : hit.chunkId ∈ ordered := (hmem _).mpr (.inl (List.mem_map_of_mem hhit))
  rw [← List.take_append_drop body.topN.toNat ordered, List.mem_append] at hordered
  rcases hordered with htake | hdrop
  · left
    rw [← hids] at htake
    obtain ⟨c, hc, hid⟩ := List.mem_map.mp htake
    obtain ⟨hit', hget, hcopy⟩ := hdata c hc
    rw [hhits, hid, Lists.hits_of_dense hhit] at hget
    obtain rfl := Option.some.inj hget
    refine ⟨searchResultOut c, List.mem_map_of_mem hc, ?_⟩
    rw [hcopy]
    exact ⟨rfl, rfl, rfl⟩
  · right
    have hlen := List.length_pos_of_mem hdrop
    rw [List.length_drop] at hlen
    refine ⟨?_, fun r hr => ?_⟩
    · rw [List.length_map, ← List.length_map (f := (·.chunkId)), hids, List.length_take]
      omega
    · obtain ⟨c, hc, rfl⟩ := List.mem_map.mp hr
      have hshown : c.chunkId ∈ ordered.take body.topN.toNat := hids ▸ List.mem_map_of_mem hc
      rw [← List.take_append_drop body.topN.toNat ordered] at hsorted
      exact (List.pairwise_append.mp hsorted).2.2 _ hshown _ hdrop

section

variable {ext : External} {settings : Settings} {tenantId : Uuid} {body : SearchRequest}

def denseLog (settings : Settings) (tenantId : Uuid) (query : Str) (queryEmbedding : Embedding)
    (dense : List ChunkHit) : Log api :=
  [⟨.embedQuery query, .ok queryEmbedding⟩,
    ⟨.denseSearch tenantId queryEmbedding settings.retrievalKDense, .ok dense⟩]

/-- The answers to the statements of a mode, of which `dense` is one. -/
inductive Sought (settings : Settings) (tenantId : Uuid) (body : SearchRequest)
    (queryEmbedding : Embedding) (dense : List ChunkHit) : List ChunkHit → Log api → Prop
  | dense (hm : body.mode = .dense) : Sought settings tenantId body queryEmbedding dense []
      (denseLog settings tenantId body.query queryEmbedding dense)
  | hybrid (hm : body.mode = .hybrid) (keyword : List ChunkHit) :
      Sought settings tenantId body queryEmbedding dense keyword
        (denseLog settings tenantId body.query queryEmbedding dense ++
          [⟨.keywordSearch tenantId body.query settings.retrievalKKeyword, .ok keyword⟩])

def sourcesOf (mode : SearchMode) (dense keyword : List ChunkHit) : List (Str × List ChunkHit) :=
  match mode with
  | .hybrid => [("dense_cosine_sim".toList, dense), ("keyword_ts_rank".toList, keyword)]
  | .dense => [("dense_cosine_sim".toList, dense)]
  | .keyword => [("keyword_ts_rank".toList, keyword)]

theorem log_of_dense {query : Str} {l : Log api} {source : Str × List ChunkHit}
    (h : Done ((getRetrievalService settings).denseSource tenantId query) l (.ok source)) :
    ∃ queryEmbedding dense, source = ("dense_cosine_sim".toList, dense) ∧
      l = denseLog settings tenantId query queryEmbedding dense := by
  obtain ⟨_, _, queryEmbedding, rfl, hembed, hrest⟩ := done_bind_ok.mp h
  obtain ⟨_, _, dense, rfl, hdense, hend⟩ := done_bind_ok.mp hrest
  obtain rfl := done_perform.mp hembed
  obtain rfl := done_perform.mp hdense
  obtain ⟨rfl, hsource⟩ := done_pure.mp hend
  exact ⟨queryEmbedding, dense, Except.ok.inj hsource, rfl⟩

theorem log_of_sources (hmode : body.mode ≠ .keyword) {l : Log api}
    {sources : List (Str × List ChunkHit)}
    (h : Done ((getRetrievalService settings).sources tenantId body.query body.mode) l
      (.ok sources)) :
    ∃ queryEmbedding dense keyword, Sought settings tenantId body queryEmbedding dense keyword l ∧
      sources = sourcesOf body.mode dense keyword := by
  cases hm : body.mode with
  | keyword => exact absurd hm hmode
  | dense =>
    rw [hm] at h
    obtain ⟨_, _, source, rfl, hdense, hend⟩ := done_bind_ok.mp h
    obtain ⟨queryEmbedding, dense, rfl, rfl⟩ := log_of_dense hdense
    obtain ⟨rfl, hsources⟩ := done_pure.mp hend
    exact ⟨queryEmbedding, dense, [], .dense hm, Except.ok.inj hsources⟩
  | hybrid =>
    rw [hm] at h
    obtain ⟨_, _, source, rfl, hdense, hrest⟩ := done_bind_ok.mp h
    obtain ⟨queryEmbedding, dense, rfl, rfl⟩ := log_of_dense hdense
    obtain ⟨_, _, source, rfl, hkeyword, hend⟩ := done_bind_ok.mp hrest
    obtain ⟨_, _, keyword, rfl, hperform, hpure⟩ := done_bind_ok.mp hkeyword
    obtain rfl := done_perform.mp hperform
    obtain ⟨rfl, hsource⟩ := done_pure.mp hpure
    obtain rfl := Except.ok.inj hsource
    obtain ⟨rfl, hsources⟩ := done_pure.mp hend
    exact ⟨queryEmbedding, dense, keyword, .hybrid hm keyword, Except.ok.inj hsources⟩

theorem log_of_retrieved (hplain : settings.reranker = .none) (hmode : body.mode ≠ .keyword)
    (htop : 1 ≤ body.topN) {l : Log api} {chunks : List RetrievedChunk}
    (h : Done ((getRetrievalService settings).search tenantId body.query body.mode
      (some body.topN)) l (.ok chunks)) :
    ∃ queryEmbedding dense keyword, Sought settings tenantId body queryEmbedding dense keyword l ∧
      ∀ lists : Lists, lists.mode = body.mode → lists.dense = dense → lists.keyword = keyword →
        Concluded settings body lists (chunks.map searchResultOut) := by
  unfold RetrievalService.search at h
  split at h
  · cases (done_throw.mp h).2
  · obtain ⟨_, _, sources, rfl, hsources, hgathered⟩ := done_bind_ok.mp h
    obtain ⟨queryEmbedding, dense, keyword, hsought, rfl⟩ := log_of_sources hmode hsources
    obtain ⟨_, _, ranked, rfl, hordered, hranked⟩ := done_bind_ok.mp hgathered
    obtain ⟨rfl, horder⟩ := done_ofExcept.mp hordered
    obtain ⟨_, _, ranked', rfl, hrerank, hlast⟩ := done_bind_ok.mp hranked
    rw [RetrievalService.rerank, if_pos (.inl hplain)] at hrerank
    obtain ⟨rfl, hsame⟩ := done_pure.mp hrerank
    obtain rfl := Except.ok.inj hsame
    obtain ⟨rfl, hchunks⟩ := done_ofExcept.mp hlast
    refine ⟨queryEmbedding, dense, keyword, by simpa using hsought, ?_⟩
    rintro lists hm rfl rfl
    have hsame : sourcesOf body.mode lists.dense lists.keyword = lists.sources := by
      rw [← hm]
      rfl
    have hlimit : (getRetrievalService settings).limit (some body.topN) = body.topN :=
      if_neg (by omega)
    rw [hsame, ← hm] at horder
    rw [hlimit, upTo, if_pos (by omega)] at hchunks
    exact ⟨ranked.1, ranked.2, chunks, horder.symm, hchunks.symm, rfl⟩

theorem log_of_searched (hplain : settings.reranker = .none) (hmode : body.mode ≠ .keyword)
    {l : Log api} {rs : List SearchResultOut}
    (h : Done ((Job.search tenantId body).code ext settings) l (.ok (.results rs))) :
    ∃ queryEmbedding dense keyword, Sought settings tenantId body queryEmbedding dense keyword l ∧
      ∀ lists : Lists, lists.mode = body.mode → lists.dense = dense → lists.keyword = keyword →
        Concluded settings body lists rs := by
  obtain ⟨_, _, found, rfl, hsearch, hend⟩ := done_bind_ok.mp h
  obtain ⟨rfl, hfound⟩ := done_pure.mp hend
  obtain rfl := Outcome.results.inj (Except.ok.inj hfound)
  obtain ⟨_, _, u, rfl, hvalid, hrest⟩ := done_bind_ok.mp hsearch
  unfold validate at hvalid
  split at hvalid
  · next hbody =>
    obtain ⟨rfl, -⟩ := done_pure.mp hvalid
    obtain ⟨_, _, chunks, rfl, hretrieve, hend⟩ := done_bind_ok.mp hrest
    obtain ⟨rfl, hrs⟩ := done_pure.mp hend
    obtain rfl := Except.ok.inj hrs
    have htop : 1 ≤ body.topN := by
      simp only [SearchRequest.valid, Bool.and_eq_true, decide_eq_true_eq] at hbody
      exact hbody.1.2
    simpa using log_of_retrieved hplain hmode htop hretrieve
  · cases (done_throw.mp hvalid).2

end

/-- A passage is in the result; or the result is full of others that are ranked higher; or it is no
candidate, and the candidates are full of others that are at least as near. -/
def Competes (settings : Settings) (body : SearchRequest) (lists : Lists)
    (rs : List SearchResultOut) (d : Document) (j : Nat) (text : Str) (similarity : Rat) : Prop :=
  (∃ r ∈ rs, r.documentId = d.id ∧ r.chunkIndex = j ∧ r.content = text) ∨
  (rs.length = body.topN.toNat ∧ ∃ hit ∈ lists.dense, hit.documentId = d.id ∧
    hit.chunkIndex = j ∧ hit.content = text ∧ ∀ r ∈ rs,
      rankKey (lists.mark settings.retrievalRrfK r.chunkId) r.chunkId <
        rankKey (lists.mark settings.retrievalRrfK hit.chunkId) hit.chunkId) ∨
  lists.dense.length = settings.retrievalKDense.toNat ∧
    ∀ hit ∈ lists.dense, similarity ≤ hit.score

section

variable {e : Str → Embedding} {ext : External} {settings : Settings}

theorem Indexed.row {svc : IngestionService} {d : Document} {db : Database}
    (h : Indexed e ext svc d db) (hd : db.document d.id = some d) :
    ∃ drafts, Drafted ext svc d drafts ∧ ∀ j draft, drafts[j]? = some draft →
      ∃ c, (c, d) ∈ db.tenantRows d.tenantId ∧ c.documentId = d.id ∧ c.chunkIndex = j ∧
        c.content = draft.text ∧ c.embedding = e draft.text := by
  obtain ⟨drafts, hdrafted, -, -, hrows, -⟩ := h
  refine ⟨drafts, hdrafted, fun j draft hj => ?_⟩
  have hmem : indexRow e d (draft, j) ∈ (db.chunksOf d.id).map Chunk.new := by
    rw [hrows]
    exact List.mem_map_of_mem (List.mk_mem_zipIdx_iff_getElem?.mpr hj)
  obtain ⟨c, hc, hnew⟩ := List.mem_map.mp hmem
  obtain ⟨hchunk, hdocument⟩ := Database.mem_chunksOf.mp hc
  refine ⟨c, List.mem_filterMap.mpr ⟨c, List.mem_filter.mpr ⟨hchunk, ?_⟩, ?_⟩, hdocument,
    congrArg NewChunk.chunkIndex hnew, congrArg NewChunk.content hnew,
    congrArg NewChunk.embedding hnew⟩
  · exact decide_eq_true (congrArg NewChunk.tenantId hnew)
  · rw [Database.join, hdocument, hd]
    rfl

theorem Concluded.competes {body : SearchRequest} {lists : Lists} {rs : List SearchResultOut}
    (h : Concluded settings body lists rs) {db : Database} {scoring : Scoring}
    {queryEmbedding : Embedding} {c : Chunk} {d : Document}
    (hdense : db.MayDense scoring d.tenantId queryEmbedding settings.retrievalKDense.toNat
      lists.dense) (hrow : (c, d) ∈ db.tenantRows d.tenantId) (hc : c.documentId = d.id) :
    Competes settings body lists rs d c.chunkIndex c.content
      (1 - scoring.cosineDistance c.embedding queryEmbedding) := by
  rcases hdense.mem_or hrow with hhit | hfull
  · refine (h.mem_or hhit).imp ?_ fun hfull => .inl ⟨hfull.1, _, hhit, hc, rfl, rfl, hfull.2⟩
    rintro ⟨r, hr, hid, hindex, hcontent⟩
    exact ⟨r, hr, hid.trans hc, hindex, hcontent⟩
  · exact .inr (.inr hfull)

end

section

variable {ι : Type} [DecidableEq ι] {ext : External} {settings : Settings} {w : World}
  {acts acts' : List (Act ι)}

theorem Oracle.mayDense {o : Oracle} {tenantId : Uuid} {queryEmbedding : Embedding} {k : Int}
    {t : World} {hits : List ChunkHit}
    (h : .ok hits = (exec o (.denseSearch tenantId queryEmbedding k) t).2) :
    t.db.MayDense ⟨fun _ => queryEmbedding, o.cosineDistance, o.tsRank, fun _ _ => 0⟩ tenantId
      queryEmbedding k.toNat hits := by
  rw [exec_ok h.symm] at h
  simp only [serve, limited] at h
  split at h
  · cases h
  · obtain rfl := Except.ok.inj h
    exact t.db.mayDense_denseSearch _ tenantId queryEmbedding k.toNat

theorem Oracle.nodup_keyword {o : Oracle} {tenantId : Uuid} {query : Str} {k : Int} {t : World}
    {hits : List ChunkHit} (h : .ok hits = (exec o (.keywordSearch tenantId query k) t).2) :
    (idsOf hits).Nodup := by
  rw [exec_ok h.symm] at h
  simp only [serve, limited] at h
  split at h
  · cases h
  · obtain rfl := Except.ok.inj h
    exact Database.MayKeyword.nodup (Database.mayKeyword_iff (t.db)
      ⟨fun _ => [], o.cosineDistance, o.tsRank, fun _ _ => 0⟩ tenantId |>.mpr rfl)

theorem guarded_before {step : Log api → Oracle → Call → World → Prop} {before : List (Act ι)}
    (h : Guarded ext settings w acts step) (hbefore : before <+: acts) :
    Guarded ext settings w before step := by
  obtain ⟨rest, rfl⟩ := hbefore
  rw [Guarded, List.map_append, Pool.obeys_append] at h
  exact h.1

theorem Sought.keyword_out {tenantId : Uuid} {body : SearchRequest} {queryEmbedding : Embedding}
    {dense keyword : List ChunkHit} {l : Log api}
    (h : Sought settings tenantId body queryEmbedding dense keyword l) (hm : body.mode = .dense) :
    keyword = [] := by
  cases h with
  | dense => rfl
  | hybrid hm' =>
    rw [hm] at hm'
    cases hm'

section

variable {P : Platform ι} {i : ι} {es : List (Event api Oracle ι (Except Exn Outcome))}
  {t : Thread api (Except Exn Outcome)} {tenantId : Uuid} {body : SearchRequest}
  {queryEmbedding : Embedding} {dense keyword : List ChunkHit}
  (h : Sought settings tenantId body queryEmbedding dense keyword t.log)
  (hi : P.threads i = none) (ht : (P.run exec es).threads i = some t)
include h hi ht

theorem Sought.dense_step : ∃ before o, before <+: es ∧ .ok dense =
    (exec o (.denseSearch tenantId queryEmbedding settings.retrievalKDense)
      (P.run exec before).state).2 := by
  obtain ⟨l', hl⟩ : ∃ l', t.log = [⟨.embedQuery body.query, .ok queryEmbedding⟩] ++
      ⟨.denseSearch tenantId queryEmbedding settings.retrievalKDense, .ok dense⟩ :: l' := by
    generalize t.log = l at h
    cases h with
    | dense => exact ⟨_, rfl⟩
    | hybrid => exact ⟨_, rfl⟩
  obtain ⟨before, o, later, out, k, rfl, -, hx⟩ := Pool.exists_step_of_log hi ht hl
  exact ⟨before, o, List.prefix_append _ _, hx⟩

theorem Sought.keyword_nodup : (idsOf keyword).Nodup := by
  generalize hl : t.log = l at h
  cases h with
  | dense => exact List.nodup_nil
  | hybrid hm =>
    obtain ⟨before, o, later, out, k, -, -, hx⟩ := Pool.exists_step_of_log hi ht hl
    exact Oracle.nodup_keyword hx

end

variable {e : Str → Embedding}

end

namespace Sample

def ingesting : List (Act Nat) :=
  whole 0 4 (.upload tenantId note) ++ whole 1 6 (.deliver 0 documentId)

def hello : SearchRequest := { query := "Hi?".toList }

def searching : List (Act Nat) := whole 2 3 (.search tenantId hello)

/-- The vector that `oracle` has for every text. -/
def flat (_ : Str) : Embedding := .finite 1 :: List.replicate 383 (.finite 0)

theorem guarded_ingesting : Guarded ext {} world (ingesting ++ searching)
    fun _ o _ _ => Elementwise flat o := by
  refine guarded_of_answers fun i o ho _ _ _ => ?_
  have horacle : o = oracle := by
    simp only [ingesting, searching, whole, List.mem_append, List.mem_cons, List.mem_replicate,
      Act.answer.injEq, reduceCtorEq, false_or] at ho
    rcases ho with (⟨-, -, h⟩ | ⟨-, -, h⟩) | ⟨-, -, h⟩
    · exact h
    · exact h
    · exact h
  subst horacle
  exact fun _ _ h => (Except.ok.inj h).symm

def founds : Async api (Except Exn Outcome) → Option (List Str)
  | .ret (.ok (.results rs)) => some (rs.map (·.content))
  | _ => none

theorem found_searching : ∃ l out rs, (platform ext {} world (ingesting ++ searching)).threads 2 =
    some ⟨l, out, .ret (.ok (.results rs))⟩ ∧ rs.map (·.content) = ["Hi.".toList] := by
  have hfound : ((platform ext {} world (ingesting ++ searching)).threads 2).any
      (fun t => founds t.code = some ["Hi.".toList]) = true := by
    decide +kernel
  obtain ⟨⟨l, out, code⟩, ht, hcode⟩ := (Option.any_eq_true _ _).mp hfound
  have hcode := of_decide_eq_true hcode
  unfold founds at hcode
  split at hcode
  · next rs hret => exact ⟨l, out, rs, hret ▸ ht, Option.some.inj hcode⟩
  · cases hcode

theorem idle_ingesting : (platform ext {} world ingesting).threads 2 = none := by
  have hnone : ((platform ext {} world ingesting).threads 2).isNone = true := by decide +kernel
  exact Option.isNone_iff_eq_none.mp hnone

end Sample

end RagPlatform
