import RagPlatform.Evals.RunEval
import RagPlatform.Lib.Casing
import RagPlatform.Lib.Seams
import RagPlatform.Services.Markers

/-! The faithfulness of the answers, as the eval harness counts it. -/

namespace RagPlatform

open Lib

structure AnswerScore where
  correct : Nat := 0
  faithful : Nat := 0
  scored : Nat := 0
  deriving DecidableEq

def AnswerScore.count (tables : CaseTables) (score : AnswerScore) (fact : Str)
    (result : AnswerResult) : AnswerScore :=
  let correct := if tables.lowered fact <:+: tables.lowered result.answer
    then score.correct + 1 else score.correct
  let cited := Str.join [' '] (result.citations.map fun c => tables.lowered c.snippet)
  let faithful := if tables.lowered fact <:+: cited then score.faithful + 1 else score.faithful
  { score with correct := correct, faithful := faithful }

/-- `round(count / scored, 3) if scored else None` -/
def ratio (count scored : Nat) : Option Rat :=
  if scored = 0 then none else some (roundFigure (count / scored))

structure AnswerReport where
  scoredQuestions : Nat
  correctness : Option Rat
  faithfulness : Option Rat

def AnswerScore.report (score : AnswerScore) : AnswerReport :=
  ⟨score.scored, ratio score.correct score.scored, ratio score.faithful score.scored⟩

section

variable (tables : CaseTables) (settings : Settings) (tenantId : Uuid)

def scoreAnswer (score : AnswerScore) (item : Question) : Io AnswerScore :=
  match item.expectedFact with
  | none | some [] => return score
  | some fact => do
    let score := { score with scored := score.scored + 1 }
    let prepared ← (getAnswerService settings).prepare tenantId item.question settings.retrievalTopN
    match prepared with
    | none => return score
    | some prepared => do
      let result ← (getAnswerService settings).complete tenantId prepared
      return score.count tables fact result

def scoreAnswers (questions : List Question) : Io AnswerScore :=
  questions.foldlM (scoreAnswer tables settings tenantId) {}

/-- `run` -/
def answerEval (questions : List Question) : Io AnswerReport := do
  let score ← scoreAnswers tables settings tenantId questions
  return score.report

end

/-- A scored question, with the chunks that were retrieved for it and the answer, if there were
any. -/
structure Trial where
  fact : Str
  chunks : List RetrievedChunk
  result : Option AnswerResult

def scoredItem (item : Question) : Option (Str × Str) :=
  match item.expectedFact with
  | none | some [] => none
  | some fact => some (item.question, fact)

def trial (settings : Settings) (tenantId : Uuid) (item : Str × Str) : Io Trial := do
  let chunks ← (getRetrievalService settings).search tenantId item.1 .hybrid
    (some settings.retrievalTopN)
  if chunks = [] then return ⟨item.2, chunks, none⟩
  else do
    let result ← (getAnswerService settings).complete tenantId (prepared chunks item.1)
    return ⟨item.2, chunks, some result⟩

def trials (settings : Settings) (tenantId : Uuid) (questions : List Question) : Io (List Trial) :=
  (questions.filterMap scoredItem).mapM (trial settings tenantId)

def AnswerScore.add (tables : CaseTables) (score : AnswerScore) (t : Trial) : AnswerScore :=
  t.result.elim { score with scored := score.scored + 1 }
    ({ score with scored := score.scored + 1 }.count tables t.fact)

section

variable {tables : CaseTables} {settings : Settings} {tenantId : Uuid}

theorem scoreAnswer_of_none {item : Question} (h : scoredItem item = none) (score : AnswerScore) :
    scoreAnswer tables settings tenantId score item = pure score := by
  unfold scoredItem at h
  unfold scoreAnswer
  generalize item.expectedFact = fact at h
  cases fact with
  | none => rfl
  | some fact =>
    cases fact with
    | nil => rfl
    | cons c fact => cases h

theorem scoreAnswer_of_some {item : Question} {x : Str × Str} (h : scoredItem item = some x)
    (score : AnswerScore) : scoreAnswer tables settings tenantId score item = (do
      let t ← trial settings tenantId x
      return score.add tables t) := by
  unfold scoredItem at h
  unfold scoreAnswer
  generalize item.expectedFact = fact at h
  cases fact with
  | none => cases h
  | some fact =>
    cases fact with
    | nil => cases h
    | cons c fact =>
      obtain rfl := Option.some.inj h
      simp only [AnswerService.prepare, trial, bind_assoc, pure_bind]
      refine congrArg _ (funext fun chunks => ?_)
      by_cases hchunks : chunks = []
      · rw [if_pos hchunks, if_pos hchunks]
        rfl
      · rw [if_neg hchunks, if_neg hchunks]
        simp only [bind_assoc, pure_bind]
        rfl

theorem scoreAnswers_eq (questions : List Question) :
    scoreAnswers tables settings tenantId questions = (do
      let ts ← trials settings tenantId questions
      return ts.foldl (AnswerScore.add tables) {}) := by
  unfold scoreAnswers trials
  rw [← foldlM_answers (trial settings tenantId) (AnswerScore.add tables), List.foldlM_filterMap]
  congr 1
  funext score item
  cases hitem : scoredItem item with
  | none => exact scoreAnswer_of_none hitem score
  | some x => exact scoreAnswer_of_some hitem score

end

namespace Trial

variable (tables : CaseTables) (t : Trial)

/-- The chunks that the answer cites, in the order of the citations. -/
def cited : List RetrievedChunk :=
  t.result.elim [] fun r => r.citations.filterMap fun c => t.chunks[c.marker - 1]?

def grounded : Bool :=
  t.cited.any fun chunk => tables.lowered t.fact <:+: tables.lowered chunk.content

def snippets : List Str := t.cited.map fun chunk => tables.lowered (chunk.content.take 200)

def shown : Bool := (t.snippets tables).any fun snippet => tables.lowered t.fact <:+: snippet

def across : Bool := Straddles ' ' (tables.lowered t.fact) (t.snippets tables)

/-- The fact is in a cited chunk, but not in the beginning of one, nor across a seam of them. -/
def missed : Bool := t.grounded tables && !(t.shown tables || t.across tables)

/-- The fact is in no cited chunk, but across a seam, or at the cut of a beginning. -/
def spurious : Bool := (t.shown tables || t.across tables) && !t.grounded tables

structure Sound : Prop where
  fact : t.fact ≠ []
  cites : ∀ r, t.result = some r → Cites t.chunks r.answer r.citations

end Trial

section

variable {tables : CaseTables} {settings : Settings} {tenantId : Uuid} {t : Trial}
variable {σ : Type} {h : Handler api σ} {s s' : σ}

theorem cites_of_complete {svc : AnswerService} {chunks : List RetrievedChunk} {query : Str}
    {r : AnswerResult}
    (hrun : evalE h (svc.complete tenantId (prepared chunks query)) s = (s', .ok r)) :
    Cites chunks r.answer r.citations := by
  obtain ⟨_, result, -, hrun⟩ := exists_of_evalE_bind hrun
  obtain ⟨_, cited, hcited, hrun⟩ := exists_of_evalE_bind hrun
  obtain ⟨_, _, -, hrun⟩ := exists_of_evalE_bind hrun
  cases hrun
  have hcited' : citedOnly result.text (prepared chunks query).citations = .ok cited :=
    congrArg Prod.snd hcited
  by_cases hread : Readable result.text
  · obtain ⟨cited', heq, hcites⟩ := citedOnly_prepared chunks query hread
    obtain rfl := Except.ok.inj (hcited'.symm.trans heq)
    exact hcites
  · cases hcited'.symm.trans (citedOnly_error _ hread)

theorem sound_of_trial {x : Str × Str} (hfact : x.2 ≠ [])
    (hrun : evalE h (trial settings tenantId x) s = (s', .ok t)) : t.Sound := by
  obtain ⟨_, chunks, -, hrun⟩ := exists_of_evalE_bind hrun
  by_cases hchunks : chunks = []
  · rw [if_pos hchunks] at hrun
    cases hrun
    refine ⟨hfact, fun r hr => ?_⟩
    cases hr
  · rw [if_neg hchunks] at hrun
    obtain ⟨_, result, hcomplete, hrun⟩ := exists_of_evalE_bind hrun
    cases hrun
    refine ⟨hfact, fun r hr => ?_⟩
    obtain rfl := Option.some.inj hr
    exact cites_of_complete hcomplete

theorem fact_ne_nil {item : Question} {x : Str × Str} (h : scoredItem item = some x) :
    x.2 ≠ [] := by
  unfold scoredItem at h
  split at h
  · cases h
  · cases h
  · next fact hne _ =>
    obtain rfl := Option.some.inj h
    exact hne

theorem sound_of_trials {questions : List Question} {ts : List Trial}
    (hrun : evalE h (trials settings tenantId questions) s = (s', .ok ts)) :
    ∀ t ∈ ts, t.Sound := by
  have hall : List.Forall₂ (fun _ t => Trial.Sound t) (questions.filterMap scoredItem) ts := by
    refine forall₂_of_mapM (fun x hx s s' t ht => ?_) hrun
    obtain ⟨item, -, hitem⟩ := List.mem_filterMap.mp hx
    exact sound_of_trial (fact_ne_nil hitem) ht
  intro t ht
  obtain ⟨x, -, hsound⟩ := exists_of_forall₂ hall.flip ht
  exact hsound

theorem mem_cited (ht : t.Sound) {chunk : RetrievedChunk} : chunk ∈ t.cited ↔
    ∃ r digits, t.result = some r ∧ Marked r.answer digits ∧ 1 ≤ number digits ∧
      t.chunks[number digits - 1]? = some chunk := by
  unfold Trial.cited
  cases hr : t.result with
  | none => simp
  | some r =>
    obtain ⟨-, hmarkers, -⟩ := ht.cites r hr
    rw [Option.elim_some, List.mem_filterMap]
    constructor
    · rintro ⟨c, hc, hchunk⟩
      obtain ⟨⟨hone, -⟩, digits, hmarked, hnumber⟩ :=
        (hmarkers c.marker).mp (List.mem_map_of_mem hc)
      exact ⟨r, digits, rfl, hmarked, hnumber ▸ hone, hnumber ▸ hchunk⟩
    · rintro ⟨r', digits, hr', hmarked, hone, hchunk⟩
      obtain rfl := Option.some.inj hr'
      have hlt := (List.getElem?_eq_some_iff.mp hchunk).1
      obtain ⟨c, hc, hmarker⟩ := List.mem_map.mp
        ((hmarkers (number digits)).mpr ⟨⟨hone, by omega⟩, digits, hmarked, rfl⟩)
      exact ⟨c, hc, hmarker ▸ hchunk⟩

theorem map_snippet {chunks : List RetrievedChunk} {cited : List Citation} (f : Str → Str)
    (h : ∀ c ∈ cited, ∃ chunk, chunks[c.marker - 1]? = some chunk ∧ c = citation chunk c.marker) :
    cited.map (fun c => f c.snippet) =
      (cited.filterMap fun c => chunks[c.marker - 1]?).map fun chunk => f (chunk.content.take 200) := by
  induction cited with
  | nil => rfl
  | cons c cited ih =>
    obtain ⟨⟨chunk, hchunk, hc⟩, hrest⟩ := List.forall_mem_cons.mp h
    have hsnippet : c.snippet = chunk.content.take 200 := by rw [hc]; rfl
    rw [List.map_cons, ih hrest, List.filterMap_cons, hchunk, hsnippet, List.map_cons]

theorem faithful_add (ht : t.Sound) (score : AnswerScore) : (score.add tables t).faithful =
    if t.shown tables || t.across tables then score.faithful + 1 else score.faithful := by
  cases hr : t.result with
  | none =>
    have hnone : t.snippets tables = [] := by simp [Trial.snippets, Trial.cited, hr]
    have hstraddles : ¬Straddles ' ' (tables.lowered t.fact) [] := by
      rintro ⟨i, hi, -⟩
      exact Nat.not_lt_zero i hi
    simp [AnswerScore.add, hr, Trial.shown, Trial.across, hnone, hstraddles]
  | some r =>
    have hsnippets : r.citations.map (fun c => tables.lowered c.snippet) = t.snippets tables := by
      rw [map_snippet tables.lowered (ht.cites r hr).2.2, Trial.snippets, Trial.cited, hr]
      rfl
    have hfound : tables.lowered t.fact <:+: Str.join [' '] (t.snippets tables) ↔
        (t.shown tables || t.across tables) = true := by
      rw [Str.join, infix_intercalate (CaseTables.lowered_ne_nil ht.fact)]
      simp [Trial.shown, Trial.across]
    simp only [AnswerScore.add, hr, Option.elim_some, AnswerScore.count, hsnippets, hfound]

theorem scored_add (score : AnswerScore) (t : Trial) :
    (score.add tables t).scored = score.scored + 1 := by
  unfold AnswerScore.add
  cases t.result with
  | none => rfl
  | some r => rfl

theorem faithful_foldl {ts : List Trial} (hts : ∀ t ∈ ts, t.Sound) (score : AnswerScore) :
    (ts.foldl (AnswerScore.add tables) score).faithful =
      score.faithful + ts.countP fun t => t.shown tables || t.across tables := by
  induction ts generalizing score with
  | nil => rfl
  | cons t ts ih =>
    obtain ⟨ht, hrest⟩ := List.forall_mem_cons.mp hts
    rw [List.foldl_cons, ih hrest, faithful_add ht, List.countP_cons]
    split
    · omega
    · omega

theorem scored_foldl (ts : List Trial) (score : AnswerScore) :
    (ts.foldl (AnswerScore.add tables) score).scored = score.scored + ts.length := by
  induction ts generalizing score with
  | nil => rfl
  | cons t ts ih =>
    rw [List.foldl_cons, ih, scored_add, List.length_cons]
    omega

/-- For any retrieval and any answers: as many answers are counted as faithful as cite a chunk that
has the fact exactly if as many facts are missed as are found where no chunk has them. -/
theorem faithful_iff (tables : CaseTables) (settings : Settings) (tenantId : Uuid)
    (questions : List Question) {ts : List Trial}
    (hrun : evalE h (trials settings tenantId questions) s = (s', .ok ts)) :
    ∃ score, evalE h (scoreAnswers tables settings tenantId questions) s = (s', .ok score) ∧
      evalE h (answerEval tables settings tenantId questions) s = (s', .ok score.report) ∧
      score.scored = ts.length ∧
      (∀ t ∈ ts, ∀ chunk, chunk ∈ t.cited ↔
        ∃ r digits, t.result = some r ∧ Marked r.answer digits ∧ 1 ≤ number digits ∧
          t.chunks[number digits - 1]? = some chunk) ∧
      (score.faithful = ts.countP (·.grounded tables) ↔
        ts.countP (·.missed tables) = ts.countP (·.spurious tables)) := by
  have hsound := sound_of_trials hrun
  have hscore : evalE h (scoreAnswers tables settings tenantId questions) s =
      (s', .ok (ts.foldl (AnswerScore.add tables) {})) := by
    rw [scoreAnswers_eq, evalE_bind_ok hrun]
    rfl
  refine ⟨_, hscore, ?_, ?_, fun t ht chunk => mem_cited (hsound t ht), ?_⟩
  · unfold answerEval
    rw [evalE_bind_ok hscore]
    rfl
  · rw [scored_foldl]
    exact Nat.zero_add _
  · rw [faithful_foldl hsound, Nat.zero_add]
    exact countP_eq_iff _ _ ts

end

namespace Sample

def asciiTables : CaseTables where
  lower c := [c.toLower]
  cased := Char.isAlpha
  caseIgnorable c := c = '.'
  lower_ne_nil c := List.cons_ne_nil c.toLower []

def drills : Question where
  question := "How often are drills held?".toList
  expectedFile := "f.md".toList
  expectedFact := some "monthly".toList

/-- The fact comes after two hundred other characters. -/
def deep : Findings :=
  { crowd with
    dense := [numbered 1 (List.replicate 200 'a' ++ " Monthly.".toList) 0]
    dense_nodup := List.nodup_singleton 1 }

def deepChunk : RetrievedChunk :=
  (numbered 1 (List.replicate 200 'a' ++ " Monthly.".toList) 0).retrieved 1
    [("dense_cosine_sim".toList, 0), ("rrf".toList, 1 / 61)]

def quote : LLMResult := ⟨"Monthly [1].".toList, ⟨1, 1⟩, []⟩

def quoting : Handler api Unit
  | .generate _, s => (s, .ok quote)
  | .insertUsage _, s => (s, .ok ())
  | c, s => deep.answer c s

def quoted : Trial where
  fact := "monthly".toList
  chunks := [deepChunk]
  result := some ⟨quote.text, [citation deepChunk 1], some quote.model, some quote.usage, none⟩

theorem trials_quoting : evalE quoting (trials {} ⟨0⟩ [drills]) () = ((), .ok [quoted]) := by
  with_unfolding_all rfl

/-- Their fact is in both chunks' words as joined, in the second chunk, in none; the last has none. -/
def exam : List Question :=
  drills :: [some "a held", some "in may", some "yearly", none].map fun fact =>
    { question := "When?".toList, expectedFile := "f.md".toList
      expectedFact := fact.map String.toList }

def twoDeep : Findings :=
  { crowd with
    dense := [numbered 1 (List.replicate 200 'a' ++ " Monthly.".toList) 0,
      numbered 2 "Held in May.".toList 0]
    dense_nodup := by decide }

def examined : Handler api Unit
  | .generate _, s => (s, .ok ⟨"Monthly [1], or [2].".toList, ⟨1, 1⟩, []⟩)
  | .insertUsage _, s => (s, .ok ())
  | c, s => twoDeep.answer c s

def examChunks : List RetrievedChunk :=
  [deepChunk, (numbered 2 "Held in May.".toList 0).retrieved 2
    [("dense_cosine_sim".toList, 0), ("rrf".toList, 1 / 62)]]

def examTrial (fact : String) : Trial where
  fact := fact.toList
  chunks := examChunks
  result := some ⟨"Monthly [1], or [2].".toList,
    (examChunks.zipIdx 1).map fun x => citation x.1 x.2, some [], some ⟨1, 1⟩, none⟩

def examTrials : List Trial := ["monthly", "a held", "in may", "yearly"].map examTrial

theorem trials_examined : evalE examined (trials {} ⟨0⟩ exam) () = ((), .ok examTrials) := by
  with_unfolding_all rfl

end Sample

theorem faithful_exam : ∃ score,
    evalE Sample.examined (scoreAnswers Sample.asciiTables {} ⟨0⟩ Sample.exam) () =
      ((), .ok score) ∧ score.scored = 4 ∧
    Sample.examTrials.countP (·.missed Sample.asciiTables) = 1 ∧
    Sample.examTrials.countP (·.spurious Sample.asciiTables) = 1 ∧
    score.faithful = Sample.examTrials.countP (·.grounded Sample.asciiTables) := by
  obtain ⟨score, hscore, -, hscored, -, hiff⟩ :=
    faithful_iff Sample.asciiTables {} ⟨0⟩ Sample.exam Sample.trials_examined
  have hmissed : Sample.examTrials.countP (·.missed Sample.asciiTables) = 1 := by decide +kernel
  have hspurious : Sample.examTrials.countP (·.spurious Sample.asciiTables) = 1 := by decide +kernel
  exact ⟨score, hscore, hscored, hmissed, hspurious, hiff.mpr (hmissed.trans hspurious.symm)⟩

/-- The cited chunk has the fact, behind its snippet. -/
theorem fact_behind_snippet :
    evalE Sample.quoting (trials {} ⟨0⟩ [Sample.drills]) () = ((), .ok [Sample.quoted]) ∧
    [Sample.quoted].countP (·.grounded Sample.asciiTables) = 1 ∧
    evalE Sample.quoting (scoreAnswers Sample.asciiTables {} ⟨0⟩ [Sample.drills]) () =
      ((), .ok { correct := 1, faithful := 0, scored := 1 }) := by
  refine ⟨Sample.trials_quoting, by decide +kernel, ?_⟩
  have hscore : [Sample.quoted].foldl (AnswerScore.add Sample.asciiTables) {} =
      { correct := 1, faithful := 0, scored := 1 } := by decide +kernel
  rw [scoreAnswers_eq, evalE_bind_ok Sample.trials_quoting, hscore]
  rfl

end RagPlatform
