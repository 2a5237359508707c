import RagPlatform.Api.Deps
import RagPlatform.ChunkWindows
import RagPlatform.Cli
import RagPlatform.FusionOrder
import RagPlatform.Worker.Tasks

/-! Which of the accepted settings the platform can work with. -/

namespace RagPlatform

open Lib

def ElementWise {σ : Type} (h : Handler api σ) : Prop :=
  ∃ embed : Str → Embedding, ∀ texts s, (h (.embedDocuments texts) s).2 = .ok (texts.map embed)

/-- `sys.maxsize`: no list is longer. -/
def maxsize : Nat := 2 ^ 63 - 1

def FitsFloat (n : Int) : Prop := -floatBound < n ∧ n < floatBound

instance (n : Int) : Decidable (FitsFloat n) := inferInstanceAs (Decidable (_ ∧ _))

/-- `1.0 / n` turns `n` into a `float` first. -/
def contributeFloat (rrfK : Int) (fused : Dict Nat Rat) (entry : Nat × Nat) :
    Except Exn (Dict Nat Rat) :=
  if FitsFloat (rrfK + entry.2 + 1) then contribute rrfK fused entry else .error overflowError

def fuseFloats (rrfK : Int) (rankLists : List (List Nat)) : Except Exn (Dict Nat Rat) :=
  (rankLists.flatMap List.zipIdx).foldlM (contributeFloat rrfK) []

structure Workable (settings : Settings) : Prop where
  chunks : ∀ blocks, ∃ drafts,
    chunkBlocks blocks settings.chunkTargetTokens settings.chunkOverlapTokens = .ok drafts
  embeds : ∀ svc ∈ [ingestionService settings, cliIngestionService settings],
    ∀ (σ : Type) (h : Handler api σ), ElementWise h → ∀ drafts s, ∃ embeddings,
      (evalE h (svc.embedAll drafts) s).2 = .ok embeddings ∧ embeddings.length = drafts.length
  fuses : ∀ dense keyword, dense.length ≤ maxsize → keyword.length ≤ maxsize → ∃ fused,
    fuseFloats (getRetrievalService settings).rrfK [dense, keyword] = .ok fused
  /-- A chunk that is before another one in both lists does not get the lower score. -/
  ranks : ∀ dense keyword fused, dense.Nodup → keyword.Nodup →
    fuseFloats (getRetrievalService settings).rrfK [dense, keyword] = .ok fused →
    ∀ x y, placeOf dense x < placeOf dense y → placeOf keyword x < placeOf keyword y →
      ∀ score score', fused.get? x = some score → fused.get? y = some score' → ¬score < score'

section

variable {σ : Type} {h : Handler api σ} {embed : Str → Embedding}

theorem eval_embedBatches (hembed : ∀ texts s, (h (.embedDocuments texts) s).2 = .ok (texts.map embed))
    (batches : List (List ChunkDraft)) (s : σ) :
    (evalE h (IngestionService.embedBatches batches) s).2 =
      .ok (batches.flatten.map fun draft => embed draft.text) := by
  induction batches generalizing s with
  | nil => rfl
  | cons batch batches ih =>
    have hfirst : evalE h (perform (.embedDocuments (batch.map (·.text)))) s =
        ((h (.embedDocuments (batch.map (·.text))) s).1, .ok ((batch.map (·.text)).map embed)) :=
      Prod.ext rfl (hembed _ s)
    have hrest := ih (h (.embedDocuments (batch.map (·.text))) s).1
    rw [IngestionService.embedBatches, evalE_bind_ok hfirst, evalE_bind]
    generalize evalE h (IngestionService.embedBatches batches) _ = x at hrest ⊢
    obtain ⟨s', y⟩ := x
    obtain rfl : y = _ := hrest
    simp [Function.comp_def]

theorem eval_embedAll (hembed : ∀ texts s, (h (.embedDocuments texts) s).2 = .ok (texts.map embed))
    {svc : IngestionService} (hsize : 1 ≤ svc.batchSize) (drafts : List ChunkDraft) (s : σ) :
    (evalE h (svc.embedAll drafts) s).2 = .ok (drafts.map fun draft => embed draft.text) := by
  rw [IngestionService.embedAll, if_neg (by omega), if_neg (by omega), eval_embedBatches hembed,
    flatten_slices (by omega)]

theorem eval_embedAll_nonpos {svc : IngestionService} (hsize : ¬1 ≤ svc.batchSize)
    (drafts : List ChunkDraft) (s : σ) :
    (evalE h (svc.embedAll drafts) s).2 = if svc.batchSize = 0 then .error .value else .ok [] := by
  unfold IngestionService.embedAll
  by_cases hzero : svc.batchSize = 0
  · rw [if_pos hzero, if_pos hzero]
    rfl
  · rw [if_neg hzero, if_neg hzero, if_pos (by omega)]
    rfl

def uniform : Handler api Unit
  | .embedDocuments texts, s => (s, .ok (texts.map fun _ => []))
  | _, s => (s, .error .value)

theorem elementWise_uniform : ElementWise uniform := ⟨fun _ => [], fun _ _ => rfl⟩

end

section

variable {rrfK : Int} {dense keyword : List Nat}

theorem foldlM_contributeFloat {entries : List (Nat × Nat)} {fused fused' : Dict Nat Rat} :
    entries.foldlM (contributeFloat rrfK) fused = .ok fused' ↔
      (∀ e ∈ entries, FitsFloat (rrfK + e.2 + 1)) ∧
        entries.foldlM (contribute rrfK) fused = .ok fused' := by
  induction entries generalizing fused with
  | nil => simp
  | cons e entries ih =>
    rw [List.foldlM_cons, List.foldlM_cons, contributeFloat, List.forall_mem_cons]
    split
    · next hfits =>
      cases contribute rrfK fused e with
      | error e => exact ⟨fun h => (by cases h), fun h => (by cases h.2)⟩
      | ok d => exact ih.trans (and_congr_left' (and_iff_right hfits).symm)
    · next hfits => exact ⟨fun h => (by cases h), fun h => absurd h.1.1 hfits⟩

/-- Every place of the two lists has its `float`. -/
theorem fuseFloats_ok_iff {fused : Dict Nat Rat} : fuseFloats rrfK [dense, keyword] = .ok fused ↔
    (∀ i : Nat, i < dense.length ∨ i < keyword.length → FitsFloat (rrfK + i + 1)) ∧
      fuse rrfK [dense, keyword] = .ok fused := by
  rw [fuseFloats, foldlM_contributeFloat, ← fuse]
  refine and_congr_left' ⟨fun h i hi => ?_, fun h e he => h e.2 ?_⟩
  · simp only [List.flatMap_cons, List.flatMap_nil, List.append_nil] at h
    obtain hi | hi := hi
    · obtain ⟨e, he, rfl⟩ := mem_zipIdx_snd.mpr hi
      exact h e (List.mem_append_left _ he)
    · obtain ⟨e, he, rfl⟩ := mem_zipIdx_snd.mpr hi
      exact h e (List.mem_append_right _ he)
  · simp only [List.flatMap_cons, List.flatMap_nil, List.append_nil] at he
    exact (List.mem_append.mp he).imp List.snd_lt_of_mem_zipIdx List.snd_lt_of_mem_zipIdx

theorem exists_fuse (h : ¬Divides rrfK dense keyword) :
    ∃ fused, fuse rrfK [dense, keyword] = .ok fused := by
  have hentries : [dense, keyword].flatMap List.zipIdx = dense.zipIdx ++ keyword.zipIdx := by simp
  have hnonzero : ∀ e ∈ dense.zipIdx ++ keyword.zipIdx, rrfK + e.2 + 1 ≠ 0 :=
    fun e he hzero => h (divides_iff.mpr ⟨e, he, hzero⟩)
  exact ⟨_, by rw [fuse, hentries, foldlM_contribute hnonzero]⟩

theorem divides_of_neg (h : rrfK < 0) (keyword : List Nat) :
    Divides rrfK (List.range rrfK.natAbs) keyword := by
  refine ⟨rrfK.natAbs - 1, .inl ?_, by omega⟩
  rw [List.length_range]
  omega

theorem scores_of_neg (h : rrfK < -3) :
    ∃ fused score score', fuse rrfK [[0], [0, 1]] = .ok fused ∧ fused.get? 0 = some score ∧
      fused.get? 1 = some score' ∧ score < score' := by
  have hdivides : ¬Divides rrfK [0] [0, 1] := by
    rintro ⟨i, hi, hzero⟩
    simp only [List.length_cons, List.length_nil] at hi
    omega
  obtain ⟨fused, hfuse, -, hget⟩ := fuse_ok (List.nodup_singleton 0) (by decide) hdivides
  refine ⟨fused, _, _, hfuse, (hget 0).trans (if_pos (by decide)),
    (hget 1).trans (if_pos (by decide)), ?_⟩
  obtain ⟨a, rfl⟩ : ∃ a : Int, rrfK = -a - 2 := ⟨-rrfK - 2, by ring⟩
  have ha : (1 : Rat) < a := Int.cast_lt.mpr (show (1 : Int) < a by omega)
  have hfirst : rrfTerm (-a - 2) (some 0) = -(1 / ((a : Rat) + 1)) := by
    rw [rrfTerm, ← one_div_neg_eq_neg_one_div]
    push_cast
    ring_nf
  have hsecond : rrfTerm (-a - 2) (some 1) = -(1 / (a : Rat)) := by
    rw [rrfTerm, ← one_div_neg_eq_neg_one_div]
    push_cast
    ring_nf
  have hlt : 1 / (a : Rat) < 2 / (a + 1) :=
    (div_lt_div_iff₀ (by linarith) (by linarith)).mpr (by linarith)
  rw [show placeIn [0] 0 = some 0 from rfl, show placeIn [0, 1] 0 = some 0 from rfl,
    show placeIn [0] 1 = none from rfl, show placeIn [0, 1] 1 = some 1 from rfl, hfirst, hsecond,
    show rrfTerm (-a - 2) none = 0 from rfl]
  calc -(1 / ((a : Rat) + 1)) + -(1 / ((a : Rat) + 1)) = -(2 / (a + 1)) := by ring
    _ < -(1 / a) := neg_lt_neg hlt
    _ = 0 + -(1 / (a : Rat)) := (zero_add _).symm

theorem score_eq (hk : 0 ≤ rrfK) (hdense : dense.Nodup) (hkeyword : keyword.Nodup)
    {fused : Dict Nat Rat} (hfuse : fuse rrfK [dense, keyword] = .ok fused) {id : Nat} {score : Rat}
    (hget : fused.get? id = some score) :
    score = fusedScore (rrfWeight rrfK) [dense, keyword] id := by
  obtain ⟨fused', hfuse', -, hscores⟩ := fuse_ok hdense hkeyword (not_divides hk dense keyword)
  obtain rfl := Except.ok.inj (hfuse.symm.trans hfuse')
  rw [hscores] at hget
  split at hget
  · obtain rfl := Option.some.inj hget
    simp [fusedScore, rrfWeight_placeOf]
  · cases hget

theorem score_lt (hk : 0 ≤ rrfK) (hdense : dense.Nodup) (hkeyword : keyword.Nodup)
    {fused : Dict Nat Rat} (hfuse : fuse rrfK [dense, keyword] = .ok fused) {x y : Nat}
    (hd : placeOf dense x < placeOf dense y) (hw : placeOf keyword x < placeOf keyword y)
    {score score' : Rat} (hx : fused.get? x = some score) (hy : fused.get? y = some score') :
    score' < score := by
  rw [score_eq hk hdense hkeyword hfuse hx, score_eq hk hdense hkeyword hfuse hy]
  refine Dominates.fusedScore_lt (strictAnti_rrfWeight hk) ⟨fun l hl => ?_, dense,
    List.mem_cons_self, hd⟩
  obtain rfl | hl := List.mem_cons.mp hl
  · exact hd.le
  · obtain rfl := List.mem_singleton.mp hl
    exact hw.le

end

section

variable {settings : Settings}

theorem Workable.one_le_batchSize (h : Workable settings) : 1 ≤ settings.embedBatchSize := by
  by_contra hsize
  obtain ⟨embeddings, heval, hlength⟩ := h.embeds _ List.mem_cons_self Unit uniform
    elementWise_uniform [⟨[], 0, {}⟩] ()
  rw [eval_embedAll_nonpos hsize] at heval
  split at heval
  · cases heval
  · obtain rfl := Except.ok.inj heval
    cases hlength

theorem Workable.rrfK_nonneg (h : Workable settings) : 0 ≤ settings.retrievalRrfK := by
  by_contra hk
  by_cases hreach : settings.retrievalRrfK.natAbs ≤ maxsize
  · obtain ⟨fused, hfused⟩ := h.fuses (List.range settings.retrievalRrfK.natAbs) []
      (List.length_range.trans_le hreach) (Nat.zero_le _)
    cases (fuse_error (divides_of_neg (not_le.mp hk) [])).symm.trans (fuseFloats_ok_iff.mp hfused).2
  · have hbelow : settings.retrievalRrfK < -3 := by
      have hmaxsize : 3 ≤ maxsize := by decide
      omega
    obtain ⟨fused, hfused⟩ := h.fuses [0] [0, 1] (by decide) (by decide)
    obtain ⟨fused', score, score', hfuse, hx, hy, hlt⟩ := scores_of_neg hbelow
    obtain rfl := Except.ok.inj ((fuseFloats_ok_iff.mp hfused).2.symm.trans hfuse)
    exact h.ranks [0] [0, 1] fused (List.nodup_singleton 0) (by decide) hfused 0 1 (by decide)
      (by decide) score score' hx hy hlt

theorem Workable.rrfK_lt (h : Workable settings) :
    settings.retrievalRrfK + maxsize < floatBound := by
  obtain ⟨fused, hfused⟩ := h.fuses (List.range maxsize) [] List.length_range.le (Nat.zero_le _)
  have hpos : 0 < maxsize := by decide
  have hlast := ((fuseFloats_ok_iff.mp hfused).1 (maxsize - 1) (.inl (by
    rw [List.length_range]
    omega))).2
  change settings.retrievalRrfK + ((maxsize - 1 : Nat) : Int) + 1 < floatBound at hlast
  omega

theorem Workable.lt_target (h : Workable settings) : -floatBound < settings.chunkTargetTokens := by
  have htext : AllText [⟨['x'], {}⟩] := by
    rintro b hb
    obtain rfl := List.mem_singleton.mp hb
    exact ⟨'x', List.mem_singleton_self _, by decide⟩
  obtain ⟨drafts, hdrafts⟩ := h.chunks [⟨['x'], {}⟩]
  exact (splittable_of_ok hdrafts).2.resolve_left (sentences_ne_nil _ (List.cons_ne_nil _ _) htext)

/-- Batches need a size, and ranks a denominator; and both the denominators and the target have to be
within the range of a `float`. -/
theorem workable_iff (settings : Settings) :
    Workable settings ↔ 1 ≤ settings.embedBatchSize ∧ 0 ≤ settings.retrievalRrfK ∧
      settings.retrievalRrfK + maxsize < floatBound ∧ -floatBound < settings.chunkTargetTokens := by
  constructor
  · exact fun h => ⟨h.one_le_batchSize, h.rrfK_nonneg, h.rrfK_lt, h.lt_target⟩
  · rintro ⟨hsize, hk, hbound, htarget⟩
    refine ⟨fun blocks => ?_, fun svc hsvc σ h => ?_, fun dense keyword hd hw => ?_,
      fun dense keyword fused hdense hkeyword hfuse x y hd hw score score' hx hy => ?_⟩
    · obtain ⟨vs, hchunked, -⟩ := @exists_chunked blocks _ _ settings.chunking (.inr htarget)
      exact ⟨_, hchunked.chunks⟩
    · rintro ⟨embed, hembed⟩ drafts s
      have hsize' : 1 ≤ svc.batchSize := by
        obtain rfl | hsvc := List.mem_cons.mp hsvc
        · exact hsize
        · obtain rfl := List.mem_singleton.mp hsvc
          exact hsize
      exact ⟨_, eval_embedAll hembed hsize' drafts s, List.length_map _⟩
    · obtain ⟨fused, hfused⟩ := exists_fuse (not_divides hk dense keyword)
      refine ⟨fused, fuseFloats_ok_iff.mpr ⟨fun i hi => ?_, hfused⟩⟩
      change -floatBound < settings.retrievalRrfK + i + 1 ∧ settings.retrievalRrfK + i + 1 < floatBound
      have hlen : i < maxsize := hi.elim (·.trans_le hd) (·.trans_le hw)
      omega
    · exact (score_lt hk hdense hkeyword (fuseFloats_ok_iff.mp hfuse).2 hd hw hx hy).asymm

end

/-- Settings that the validator lets through. -/
theorem accepted_unworkable :
    ¬Workable { embedBatchSize := 0 } ∧ ¬Workable { retrievalRrfK := -1 } ∧
      ¬Workable { retrievalRrfK := 10 ^ 400 } ∧
      ¬Workable { chunkTargetTokens := -10 ^ 400, chunkOverlapTokens := -10 ^ 401
                  chunking := by decide +kernel } := by
  refine ⟨?_, ?_, ?_, ?_⟩
  · exact fun h => absurd h.one_le_batchSize (by decide)
  · exact fun h => absurd h.rrfK_nonneg (by decide)
  · exact fun h => absurd h.rrfK_lt (by decide +kernel)
  · exact fun h => absurd h.lt_target (by decide +kernel)

end RagPlatform
