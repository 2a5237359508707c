import Mathlib.Data.List.Induction
import RagPlatform.Api.Deps
import RagPlatform.Lib.Fusion
import RagPlatform.Lib.Survey
import RagPlatform.Retrieval.Findings
import RagPlatform.Retrieval.Permitted

/-! The retrieval figures of the eval harness. -/

namespace RagPlatform

open Lib

/-- A line of `questions.jsonl`. -/
structure Question where
  question : Str
  expectedFile : Str
  expectedFact : Option Str := none

/-- `next((i for i, r in enumerate(retrieved, start=1) if r.filename == expected_file), None)` -/
def rankOf (expectedFile : Str) (retrieved : List RetrievedChunk) : Option Nat :=
  ((retrieved.zipIdx 1).find? (·.1.filename = expectedFile)).map Prod.snd

/-- `1.0 / rank if rank else 0.0` -/
def reciprocal : Option Nat → Rat
  | none => 0
  | some rank => 1 / rank

structure RankScore where
  reciprocalRanks : List Rat := []
  hits : Dict Nat Nat := [(1, 0), (3, 0), (5, 0)]

def RankScore.count (score : RankScore) (rank : Option Nat) : RankScore where
  reciprocalRanks := score.reciprocalRanks ++ [reciprocal rank]
  hits := score.hits.map fun e => (e.1, if rank.any (· ≤ e.1) then e.2 + 1 else e.2)

structure Figures where
  hit1 : Rat
  hit3 : Rat
  hit5 : Rat
  mrr5 : Rat
  deriving DecidableEq

def RankScore.figures (score : RankScore) (n : Nat) : Figures where
  hit1 := (score.hits.get? 1).getD 0 / n
  hit3 := (score.hits.get? 3).getD 0 / n
  hit5 := (score.hits.get? 5).getD 0 / n
  mrr5 := score.reciprocalRanks.sum / n

/-- `round(x, 3)` -/
def roundFigure (x : Rat) : Rat := pyRound (x * 1000) / 1000

def Figures.rounded (f : Figures) : Figures :=
  ⟨roundFigure f.hit1, roundFigure f.hit3, roundFigure f.hit5, roundFigure f.mrr5⟩

/-- `_service(top_n)` -/
def evalService (settings : Settings) (topN : Int) : RetrievalService where
  reranker := settings.reranker
  kDense := settings.retrievalKDense
  kKeyword := settings.retrievalKKeyword
  rrfK := settings.retrievalRrfK
  topN := topN

section

variable (svc : RetrievalService) (tenantId : Uuid) (questions : List Question) (topN : Int)

def scoreMode (mode : SearchMode) : Io Figures := do
  let score ← questions.foldlM (fun score item => do
    let retrieved ← svc.search tenantId item.question mode (some topN)
    return score.count (rankOf item.expectedFile retrieved)) ({} : RankScore)
  if questions.length = 0 then raise (.other "ZeroDivisionError".toList)
  else return (score.figures questions.length).rounded

/-- `_score_modes` -/
def scoreModes (modes : List SearchMode) : Io (Dict SearchMode Figures) :=
  modes.foldlM (fun out mode => do
    let figures ← scoreMode svc tenantId questions topN mode
    return out.set mode figures) []

def searches (mode : SearchMode) : Io (List (List RetrievedChunk)) :=
  questions.mapM fun item => svc.search tenantId item.question mode (some topN)

end

section

variable {file : Str} {retrieved : List RetrievedChunk} {rank : Nat}

theorem find?_zipIdx (p : RetrievedChunk → Bool) (retrieved : List RetrievedChunk) (start : Nat) :
    ((retrieved.zipIdx start).find? (p ·.1)).map Prod.snd =
      (retrieved.findIdx? p).map (· + start) := by
  induction retrieved generalizing start with
  | nil => rfl
  | cons r retrieved ih =>
    rw [List.zipIdx_cons, List.find?_cons, List.findIdx?_cons]
    cases hr : p r with
    | true => simp
    | false => simp [ih, Option.map_map, Function.comp_def, Nat.add_assoc, Nat.add_comm 1]

theorem rankOf_eq : rankOf file retrieved =
    (retrieved.findIdx? (·.filename = file)).map (· + 1) :=
  find?_zipIdx (fun r => decide (r.filename = file)) retrieved 1

theorem one_le_of_rankOf (h : rankOf file retrieved = some rank) : 1 ≤ rank := by
  rw [rankOf_eq, Option.map_eq_some_iff] at h
  obtain ⟨i, -, rfl⟩ := h
  exact Nat.le_add_left 1 i

theorem isSome_rankOf : (rankOf file retrieved).isSome ↔ ∃ r ∈ retrieved, r.filename = file := by
  rw [rankOf_eq]
  simp

theorem rank_le_iff (h : rankOf file retrieved = some rank) (n : Nat) :
    rank ≤ n ↔ ∃ r ∈ retrieved.take n, r.filename = file := by
  rw [← isSome_rankOf, rankOf_eq, List.findIdx?_take]
  rw [rankOf_eq, Option.map_eq_some_iff] at h
  obtain ⟨i, hi, rfl⟩ := h
  rw [hi, Option.bind_some, Option.isSome_map, Option.isSome_guard, decide_eq_true_iff]
  exact Nat.succ_le_iff

end

/-- A rank that is at most `k`. -/
def within (k : Int) : Option Nat → Bool
  | none => false
  | some rank => (rank : Int) ≤ k

/-- The reciprocal of a rank, which counts for nothing from a cut-off on. -/
def reciprocalWithin (k : Int) (rank : Option Nat) : Rat :=
  if within k rank then reciprocal rank else 0

def ranksOf (questions : List Question) (lists : List (List RetrievedChunk)) : List (Option Nat) :=
  (questions.zip lists).map fun e => rankOf e.1.expectedFile e.2

def figuresOf (questions : List Question) (lists : List (List RetrievedChunk)) : Figures :=
  ((ranksOf questions lists).foldl RankScore.count {}).figures questions.length

/-- The figures say what they are called, for a search of `topN` results. -/
structure Labelled (topN : Int) (ranks : List (Option Nat)) (f : Figures) : Prop where
  hit1 : f.hit1 = share Rat (within (min 1 topN)) ranks
  hit3 : f.hit3 = share Rat (within (min 3 topN)) ranks
  hit5 : f.hit5 = share Rat (within (min 5 topN)) ranks
  mrr5 : f.mrr5 = mean (reciprocalWithin 5) ranks
  between : f.hit1 ≤ f.mrr5 ∧ f.mrr5 ≤ f.hit5
  rising : f.hit1 ≤ f.hit3 ∧ f.hit3 ≤ f.hit5

section

variable {ranks : List (Option Nat)} {topN : Int}

theorem within_iff (k : Nat) (rank : Option Nat) : within k rank = rank.any (· ≤ k) := by
  cases rank with
  | none => rfl
  | some rank => simp [within]

theorem count_eq (ranks : List (Option Nat)) : ranks.foldl RankScore.count {} =
    ⟨ranks.map reciprocal, [(1, ranks.countP (within (1 : Nat))),
      (3, ranks.countP (within (3 : Nat))), (5, ranks.countP (within (5 : Nat)))]⟩ := by
  induction ranks using List.reverseRecOn with
  | nil => rfl
  | append_singleton ranks rank ih =>
    have hcount (k : Nat) : (ranks ++ [rank]).countP (within k) =
        if rank.any (· ≤ k) then ranks.countP (within k) + 1 else ranks.countP (within k) := by
      rw [List.countP_append, List.countP_singleton, within_iff]
      split
      · rfl
      · rfl
    rw [List.foldl_append, ih, List.map_append, hcount, hcount, hcount]
    rfl

theorem figures_eq (ranks : List (Option Nat)) :
    (ranks.foldl RankScore.count {}).figures ranks.length =
      ⟨share Rat (within 1) ranks, share Rat (within 3) ranks, share Rat (within 5) ranks,
        mean reciprocal ranks⟩ := by
  rw [count_eq]
  rfl

theorem within_of_le {k l : Int} (h : k ≤ l) {rank : Option Nat} (hk : within k rank) :
    within l rank := by
  cases rank with
  | none => cases hk
  | some rank => exact decide_eq_true ((of_decide_eq_true hk).trans h)

theorem reciprocal_nonneg (rank : Option Nat) : 0 ≤ reciprocal rank := by
  cases rank with
  | none => exact le_rfl
  | some rank => exact one_div_nonneg.mpr (Nat.cast_nonneg rank)

theorem reciprocalWithin_le (k : Int) (rank : Option Nat) :
    reciprocalWithin k rank ≤ reciprocal rank := by
  unfold reciprocalWithin
  split
  · exact le_rfl
  · exact reciprocal_nonneg rank

theorem one_le_reciprocal {rank : Option Nat} (h : ∀ r, rank = some r → 1 ≤ r)
    (hone : within 1 rank) : 1 ≤ reciprocal rank := by
  cases rank with
  | none => cases hone
  | some rank =>
    have hle : (rank : Int) ≤ 1 := of_decide_eq_true hone
    obtain rfl : rank = 1 := le_antisymm (by omega) (h rank rfl)
    simp [reciprocal]

theorem reciprocal_le_one {rank : Option Nat} (h : ∀ r, rank = some r → 1 ≤ r) :
    reciprocal rank ≤ 1 := by
  cases rank with
  | none => exact zero_le_one
  | some rank => exact div_le_one_of_le₀ (Nat.one_le_cast.mpr (h rank rfl)) (Nat.cast_nonneg rank)

theorem reciprocalWithin_eq_iff {k : Int} {r : Nat} (h : 1 ≤ r) :
    reciprocalWithin k (some r) = reciprocal (some r) ↔ (r : Int) ≤ k := by
  constructor
  · intro heq
    by_contra hlate
    have hr : (0 : Rat) < r := Nat.cast_pos.mpr h
    rw [reciprocalWithin, if_neg (by simpa [within] using hlate)] at heq
    exact (one_div_pos.mpr hr).ne heq
  · intro hle
    exact if_pos (decide_eq_true hle)

theorem mean_within_eq_iff (hpos : ∀ rank ∈ ranks, ∀ r, rank = some r → 1 ≤ r) (k : Int) :
    mean reciprocal ranks = mean (reciprocalWithin k) ranks ↔
      ∀ rank ∈ ranks, ∀ r, rank = some r → (r : Int) ≤ k := by
  rw [eq_comm, mean_eq_iff fun rank _ => reciprocalWithin_le k rank]
  refine forall₂_congr fun rank hrank => ?_
  cases rank with
  | none => exact iff_of_true rfl nofun
  | some r =>
    have hr := reciprocalWithin_eq_iff (k := k) (hpos _ hrank r rfl)
    simp [hr]

theorem hits_within_eq_iff (k : Int) :
    share Rat (within k) ranks = share Rat (within (min k topN)) ranks ↔
      ∀ rank ∈ ranks, ∀ r, rank = some r → (r : Int) ≤ k → (r : Int) ≤ topN := by
  rw [eq_comm, share_eq_iff fun rank _ => within_of_le (min_le_left k topN)]
  refine forall₂_congr fun rank _ => ?_
  cases rank with
  | none => exact iff_of_true nofun nofun
  | some r => simp +contextual [within]

theorem hits_le_mean (hpos : ∀ rank ∈ ranks, ∀ r, rank = some r → 1 ≤ r) :
    share Rat (within 1) ranks ≤ mean reciprocal ranks := by
  rw [share_eq_mean]
  refine mean_le fun rank hrank => ?_
  split
  · next hone => exact one_le_reciprocal (hpos rank hrank) hone
  · exact reciprocal_nonneg rank

theorem mean_le_hits (hpos : ∀ rank ∈ ranks, ∀ r, rank = some r → 1 ≤ r) (k : Int) :
    mean (reciprocalWithin k) ranks ≤ share Rat (within k) ranks := by
  rw [share_eq_mean]
  refine mean_le fun rank hrank => ?_
  unfold reciprocalWithin
  split
  · exact reciprocal_le_one (hpos rank hrank)
  · exact le_rfl

theorem labelled_iff (hpos : ∀ rank ∈ ranks, ∀ r, rank = some r → 1 ≤ r) :
    Labelled topN ranks ((ranks.foldl RankScore.count {}).figures ranks.length) ↔
      ∀ rank ∈ ranks, ∀ r, rank = some r → (r : Int) ≤ min 5 topN := by
  rw [figures_eq]
  constructor
  · intro hl rank hrank r hr
    have hfive := (mean_within_eq_iff hpos 5).mp hl.mrr5 rank hrank r hr
    exact le_min hfive ((hits_within_eq_iff 5).mp hl.hit5 rank hrank r hr hfive)
  · intro h
    have hhit (k : Int) : share Rat (within k) ranks = share Rat (within (min k topN)) ranks :=
      (hits_within_eq_iff k).mpr fun rank hrank r hr _ =>
        (h rank hrank r hr).trans (min_le_right 5 topN)
    have hmrr : mean reciprocal ranks = mean (reciprocalWithin 5) ranks :=
      (mean_within_eq_iff hpos 5).mpr fun rank hrank r hr =>
        (h rank hrank r hr).trans (min_le_left 5 topN)
    have hbound : mean reciprocal ranks ≤ share Rat (within 5) ranks :=
      hmrr.le.trans (mean_le_hits hpos 5)
    refine ⟨hhit 1, hhit 3, hhit 5, hmrr, ⟨hits_le_mean hpos, hbound⟩, ?_, ?_⟩
    · exact share_le fun x _ => within_of_le (by decide)
    · exact share_le fun x _ => within_of_le (by decide)

end

section

variable {svc : RetrievalService} {tenantId : Uuid} {questions : List Question} {topN : Int}
variable {σ : Type} {h : Handler api σ} {s s' : σ} {mode : SearchMode}

def tableOf (questions : List Question)
    (answers : List (SearchMode × List (List RetrievedChunk))) : Dict SearchMode Figures :=
  answers.foldl (fun out e => out.set e.1 (figuresOf questions e.2).rounded) []

theorem scoreMode_eq (hne : questions ≠ []) (mode : SearchMode) :
    scoreMode svc tenantId questions topN mode = (do
      let lists ← searches svc tenantId questions topN mode
      return (figuresOf questions lists).rounded) := by
  have hlength : questions.length ≠ 0 := mt List.length_eq_zero_iff.mp hne
  have hloop : questions.foldlM (fun score item => do
      let retrieved ← svc.search tenantId item.question mode (some topN)
      return score.count (rankOf item.expectedFile retrieved)) ({} : RankScore) = (do
        let lists ← searches svc tenantId questions topN mode
        return (ranksOf questions lists).foldl RankScore.count {}) := by
    simp only [ranksOf, List.foldl_map]
    exact foldlM_eq_mapM (fun item => svc.search tenantId item.question mode (some topN))
      (fun (score : RankScore) item retrieved => score.count (rankOf item.expectedFile retrieved))
      questions {}
  unfold scoreMode
  rw [hloop]
  simp only [hlength, if_false, bind_assoc, pure_bind, figuresOf]

theorem scoreModes_eq (hne : questions ≠ []) (modes : List SearchMode) :
    scoreModes svc tenantId questions topN modes = (do
      let lists ← modes.mapM (searches svc tenantId questions topN)
      return tableOf questions (modes.zip lists)) := by
  unfold scoreModes tableOf
  simp only [scoreMode_eq hne, bind_assoc, pure_bind]
  exact foldlM_eq_mapM (searches svc tenantId questions topN)
    (fun (out : Dict SearchMode Figures) mode lists =>
      out.set mode (figuresOf questions lists).rounded) modes []

theorem length_upTo {α : Type} (xs : List α) {n : Int} (hn : 0 ≤ n) :
    ((upTo xs n).length : Int) ≤ n := by
  rw [upTo, if_pos hn, List.length_take]
  omega

theorem length_search {query : Str} {retrieved : List RetrievedChunk} {n : Option Int}
    (hlimit : 0 ≤ svc.limit n)
    (hrun : evalE h (svc.search tenantId query mode n) s = (s', .ok retrieved)) :
    (retrieved.length : Int) ≤ svc.limit n := by
  unfold RetrievalService.search at hrun
  split at hrun
  · cases hrun
  · obtain ⟨_, sources, -, hrun⟩ := exists_of_evalE_bind hrun
    obtain ⟨_, ranked, -, hrun⟩ := exists_of_evalE_bind hrun
    obtain ⟨_, ranked', -, hrun⟩ := exists_of_evalE_bind hrun
    have hchunks : (upTo ranked'.2 (svc.limit n)).mapM ranked'.1.chunk = .ok retrieved :=
      congrArg Prod.snd hrun
    rw [length_of_mapM hchunks]
    exact length_upTo _ hlimit

/-- As many answers as questions, and no more results than were asked for. -/
def Fits (topN : Int) (questions : List Question) (answers : List (List RetrievedChunk)) : Prop :=
  List.Forall₂ (fun _ retrieved => 0 ≤ topN → (retrieved.length : Int) ≤ topN) questions answers

theorem fits_of_searches {settings : Settings} {answers : List (List RetrievedChunk)}
    (hrun : evalE h (searches (evalService settings topN) tenantId questions topN mode) s =
      (s', .ok answers)) : Fits topN questions answers := by
  refine forall₂_of_mapM (fun item _ s s' retrieved hitem htop => ?_) hrun
  have hlimit : (evalService settings topN).limit (some topN) = topN := by
    simp only [RetrievalService.limit, evalService]
    split
    · rfl
    · rfl
  exact hlimit ▸ length_search (hlimit.symm ▸ htop) hitem

/-- The expected file is among the first results, if it is among them at all. -/
def FoundEarly (topN : Int) (questions : List Question) (answers : List (List RetrievedChunk)) :
    Prop :=
  ∀ e ∈ questions.zip answers, (∃ r ∈ e.2, r.filename = e.1.expectedFile) →
    ∃ r ∈ e.2.take (min 5 topN).toNat, r.filename = e.1.expectedFile

theorem foundEarly_iff {answers : List (List RetrievedChunk)} : FoundEarly topN questions answers ↔
    ∀ rank ∈ ranksOf questions answers, ∀ r, rank = some r → (r : Int) ≤ min 5 topN := by
  unfold FoundEarly ranksOf
  rw [List.forall_mem_map]
  refine forall₂_congr fun e he => ?_
  rw [← isSome_rankOf]
  cases hrank : rankOf e.1.expectedFile e.2 with
  | none => simp
  | some rank =>
    have hone := one_le_of_rankOf hrank
    have hint : (rank : Int) ≤ min 5 topN ↔ rank ≤ (min 5 topN).toNat := by omega
    simp only [Option.isSome_some, true_implies, Option.some.injEq, forall_eq']
    rw [hint, rank_le_iff hrank]

theorem answers_labelled_iff {answers : List (List RetrievedChunk)}
    (hlength : answers.length = questions.length) :
    Labelled topN (ranksOf questions answers) (figuresOf questions answers) ↔
      FoundEarly topN questions answers := by
  have hranks : (ranksOf questions answers).length = questions.length := by
    simp [ranksOf, hlength]
  rw [foundEarly_iff, figuresOf, ← hranks]
  refine labelled_iff fun rank hrank r hr => ?_
  obtain ⟨e, -, rfl⟩ := List.mem_map.mp hrank
  exact one_le_of_rankOf hr

theorem Fits.foundEarly {answers : List (List RetrievedChunk)} (hfits : Fits topN questions answers)
    (hzero : 0 ≤ topN) (hfive : topN ≤ 5) : FoundEarly topN questions answers := by
  intro e he hfound
  have hle := List.forall₂_iff_zip.mp hfits
  have hshort : (e.2.length : Int) ≤ topN := hle.2 he hzero
  rwa [List.take_of_length_le (by omega)]

/-- For any answers to the searches the figures of each mode are what they are called exactly if no
expected file comes late; for a list of five at most it cannot. -/
theorem figures_labelled_iff (settings : Settings) (tenantId : Uuid) (questions : List Question)
    (modes : List SearchMode) (topN : Int) (hne : questions ≠ [])
    {lists : List (List (List RetrievedChunk))}
    (hrun : evalE h (modes.mapM (searches (evalService settings topN) tenantId questions topN)) s =
      (s', .ok lists)) :
    evalE h (scoreModes (evalService settings topN) tenantId questions topN modes) s =
      (s', .ok (tableOf questions (modes.zip lists))) ∧
    ∀ answers ∈ lists,
      (Labelled topN (ranksOf questions answers) (figuresOf questions answers) ↔
        FoundEarly topN questions answers) ∧
      (0 ≤ topN → topN ≤ 5 →
        Labelled topN (ranksOf questions answers) (figuresOf questions answers)) := by
  refine ⟨?_, fun answers hanswers => ?_⟩
  · rw [scoreModes_eq hne, evalE_bind_ok hrun]
    rfl
  · have hall : List.Forall₂ (fun _ answers => Fits topN questions answers) modes lists :=
      forall₂_of_mapM (fun mode _ s s' answers => fits_of_searches) hrun
    obtain ⟨mode, -, hfits⟩ := exists_of_forall₂ hall.flip hanswers
    have hiff : Labelled topN (ranksOf questions answers) (figuresOf questions answers) ↔
        FoundEarly topN questions answers := answers_labelled_iff hfits.length_eq.symm
    exact ⟨hiff, fun hzero hfive => hiff.mpr (Fits.foundEarly hfits hzero hfive)⟩

end

namespace Sample

def late : Question where
  question := "Q?".toList
  expectedFile := "f.md".toList

/-- Five chunks of another file before the first of the expected one. -/
def crowd : Findings where
  queryEmbedding := []
  dense := (List.range 5).map (fun id => { numbered id [] 0 with filename := "g.md".toList }) ++
    [numbered 5 [] 0]
  keyword := []
  rerank _ texts := texts.map fun _ => 0
  dense_nodup := by decide
  keyword_nodup := List.nodup_nil
  rerank_length _ _ := List.length_map _

def crowded : List RetrievedChunk := crowd.dense.map fun hit =>
  hit.retrieved hit.chunkId [("dense_cosine_sim".toList, 0)]

theorem searches_crowd :
    evalE crowd.answer (searches (evalService {} 10) ⟨0⟩ [late] 10 .dense) () =
      ((), .ok [crowded]) := rfl

theorem figures_crowded : figuresOf [late] [crowded] = ⟨0, 0, 0, 1 / 6⟩ := by decide +kernel

def crowdQuestions : List Question :=
  ["g.md", "f.md", "h.md"].map fun file =>
    { question := "Q?".toList, expectedFile := file.toList }

def crowdLists : List (List (List RetrievedChunk)) :=
  [List.replicate 3 crowded, List.replicate 3 []]

theorem searches_crowdLists :
    evalE crowd.answer ([SearchMode.dense, .keyword].mapM
      (searches (evalService {} 10) ⟨0⟩ crowdQuestions 10)) () = ((), .ok crowdLists) := rfl

end Sample

/-- The expected file comes sixth of ten results. -/
theorem mrr_beyond_five :
    evalE Sample.crowd.answer (searches (evalService {} 10) ⟨0⟩ [Sample.late] 10 .dense) () =
      ((), .ok [Sample.crowded]) ∧
    figuresOf [Sample.late] [Sample.crowded] = ⟨0, 0, 0, 1 / 6⟩ ∧
    ¬Labelled 10 (ranksOf [Sample.late] [Sample.crowded])
      (figuresOf [Sample.late] [Sample.crowded]) := by
  refine ⟨Sample.searches_crowd, Sample.figures_crowded, fun h => ?_⟩
  have hle := h.between.2
  rw [Sample.figures_crowded] at hle
  have hlt : (0 : Rat) < 1 / 6 := by norm_num
  exact absurd hle (not_le.mpr hlt)

theorem figures_labelled_crowd :
    ¬Labelled 10 (ranksOf Sample.crowdQuestions (List.replicate 3 Sample.crowded))
        (figuresOf Sample.crowdQuestions (List.replicate 3 Sample.crowded)) ∧
      Labelled 10 (ranksOf Sample.crowdQuestions (List.replicate 3 []))
        (figuresOf Sample.crowdQuestions (List.replicate 3 [])) := by
  have hiff := (figures_labelled_iff {} ⟨0⟩ Sample.crowdQuestions [.dense, .keyword] 10 (by decide)
    Sample.searches_crowdLists).2
  constructor
  · intro hlabelled
    have hearly := (hiff _ List.mem_cons_self).1.mp hlabelled
    exact absurd (hearly (Sample.late, Sample.crowded) (.tail _ (.head _)) (by decide +kernel))
      (by decide +kernel)
  · refine (hiff _ (List.mem_cons_of_mem _ List.mem_cons_self)).1.mpr ?_
    rintro ⟨item, answer⟩ he ⟨r, hr, -⟩
    obtain rfl := List.eq_of_mem_replicate (List.of_mem_zip he).2
    cases hr

end RagPlatform
