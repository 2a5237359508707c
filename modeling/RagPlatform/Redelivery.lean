import RagPlatform.Services.IngestionOutcome
import RagPlatform.System

/-! Calls of `process` on one document, one after the other, cut short anywhere but in the commit
that completes it. -/

namespace RagPlatform

open Lib

/-- A call of `process`, or one of `mark_failed`, on a session of its own. -/
inductive Attempt
  | call (φ : Feed World Oracle)
  | mark (message : Str) (φ : Feed World Oracle)

namespace Attempt

def isCall : Attempt → Bool
  | .call _ => true
  | .mark .. => false

variable (ext : External) (svc : IngestionService) (id : Uuid)

def final : Attempt → World → World
  | .call φ, w => (svc.process ext none id).run.final exec φ w
  | .mark message φ, w => (markFailed none id message).run.final exec φ w

def Returned : Attempt → World → Prop
  | .call φ, w => ∃ document, (svc.process ext none id).run.result exec φ w = some (.ok document)
  | .mark .., _ => False

end Attempt

/-- The embedder is a function of the texts, and the commit that completes the document does not
both take effect and raise. -/
def Clean (emb : List Str → Except Exn (List Embedding)) (o : Oracle) (c : Call) : Prop :=
  o.embed = emb ∧ ∀ txn, c = .commit txn → txn.document.current.status = .completed →
    ∀ name, o.fault ≠ some (.lostAck name)

section

variable (ext : External) (svc : IngestionService) (id : Uuid)
  (emb : List Str → Except Exn (List Embedding))

/-- Nobody else touches the row during the attempt; it may die or raise at any await. -/
def Attempt.Admissible : Attempt → World → Prop
  | .call φ, w => (∀ n t, φ n = some t → ∀ s, Same id s (t.others s)) ∧
      (svc.process ext none id).run.RunObeys exec (fun _ o c _ => Clean emb o c) φ w []
  | .mark message φ, w => (∀ n t, φ n = some t → ∀ s, Same id s (t.others s)) ∧
      (markFailed none id message).run.RunObeys exec (fun _ o c _ => Clean emb o c) φ w []

def history (attempts : List Attempt) (w : World) : World :=
  attempts.foldl (fun w a => a.final ext svc id w) w

/-- Marks stand between calls that failed: once a call has returned there are calls only. -/
def Sequence : List Attempt → World → Prop
  | [], _ => True
  | a :: as, w => a.Admissible ext svc id emb w ∧
      (a.Returned ext svc id w → as.all Attempt.isCall) ∧ Sequence as (a.final ext svc id w)

def NoneReturned : List Attempt → World → Prop
  | [], _ => True
  | a :: as, w => ¬ a.Returned ext svc id w ∧ NoneReturned as (a.final ext svc id w)

end

/-- Not completed; the file, the chunk count and the chunks are those of the beginning. -/
def Unfinished (d : Document) (chunks : List Chunk) (w : World) : Prop :=
  (∃ row, w.db.document d.id = some row ∧ row.file = d.file ∧ row.chunkCount = d.chunkCount ∧
    row.status ≠ .completed) ∧ w.db.chunksOf d.id = chunks

def Finished (ext : External) (svc : IngestionService)
    (emb : List Str → Except Exn (List Embedding)) (d : Document) (w : World) : Prop :=
  ∃ raw drafts embeddings, d.rawContent = some raw ∧
    svc.parseAndChunk ext raw d.sourceType = .ok drafts ∧
    (∀ os : Nat → Oracle, (∀ n, (os n).embed = emb) → svc.embeddings os 2 drafts = .ok embeddings) ∧
    drafts.length = embeddings.length ∧
    (IngestionService.newChunks d drafts embeddings).all NewChunk.storable ∧
    w.db.document d.id = some (d.completed drafts.length) ∧
    (w.db.chunksOf d.id).map Chunk.new = IngestionService.newChunks d drafts embeddings

section Attempt

variable {ext : External} {svc : IngestionService} {emb : List Str → Except Exn (List Embedding)}
  {d : Document} {chunks : List Chunk} {w : World}

/-- Wherever an attempt dies, `P` holds. -/
def delivering (id : Uuid) (emb : List Str → Except Exn (List Embedding)) (P : World → Prop) :
    Contract api World Oracle :=
  { untouched id fun _ o c _ => Clean emb o c with stop := P }

theorem Unfinished.same {s t : World} (h : Unfinished d chunks s) (hst : Same d.id s t) :
    Unfinished d chunks t := by
  obtain ⟨⟨row, hrow, hcols⟩, hchunks⟩ := h
  exact ⟨⟨row, hst.document.trans hrow, hcols⟩, hst.chunks.trans hchunks⟩

theorem Finished.same {s t : World} (h : Finished ext svc emb d s) (hst : Same d.id s t) :
    Finished ext svc emb d t := by
  obtain ⟨raw, drafts, embeddings, hraw, hparse, hembed, hlen, hs, hrow, hchunks⟩ := h
  exact ⟨raw, drafts, embeddings, hraw, hparse, hembed, hlen, hs, hst.document.trans hrow,
    by rw [hst.chunks]; exact hchunks⟩

theorem Finished.of_file {row : Document} (h : Finished ext svc emb row w) (hfile : row.file = d.file) :
    Finished ext svc emb d w := by
  have hid : row.id = d.id := congrArg (·.id) hfile
  have hcompleted (n : Nat) : row.completed n = d.completed n := congrArg (·.completed n) hfile
  have hnew (drafts : List ChunkDraft) (embeddings : List Embedding) :
      IngestionService.newChunks row drafts embeddings =
        IngestionService.newChunks d drafts embeddings := by
    change IngestionService.newChunks row.file drafts embeddings = _
    rw [hfile]
    rfl
  obtain ⟨raw, drafts, embeddings, hraw, hparse, hembed, hlen, hs, hrow, hchunks⟩ := h
  rw [Document.rawContent_of_file hfile] at hraw
  rw [Document.sourceType_of_file hfile] at hparse
  rw [hnew] at hs hchunks
  rw [hid, hcompleted] at hrow
  rw [hid] at hchunks
  exact ⟨raw, drafts, embeddings, hraw, hparse, hembed, hlen, hs, hrow, hchunks⟩

theorem embedFrom_of_embeds {P : World → Prop} {id : Uuid} {batches : List (List ChunkDraft)}
    {embeddings : List Embedding} (h : Embeds (delivering id emb P) batches embeddings)
    {os : Nat → Oracle} (hos : ∀ n, (os n).embed = emb) (n : Nat) :
    embedFrom os n batches = .ok embeddings := by
  induction h generalizing n with
  | nil => rfl
  | cons l o t ho he _ ih =>
    have hembed : (os n).embed = o.embed := (hos n).trans ho.1.symm
    rw [embedFrom, hembed, he, ih (n + 1)]
    rfl

theorem commits_delivering {id : Uuid} {P : World → Prop} {txn : Txn} {t : World}
    {Done Fail : World → Prop} (hfail : Fail t)
    (h : ∀ db skip, t.db.commit txn skip = .ok db → Done { t with db := db } ∧
      (txn.document.current.status ≠ .completed → Fail { t with db := db })) :
    Commits (delivering id emb P) txn t Done Fail := by
  intro l o ho
  refine ⟨⟨hfail, trivial, trivial⟩, fun db hc => ⟨trivial, trivial, (h db _ hc).1, fun name hname => ?_⟩⟩
  exact (h db _ hc).2 fun hdone => ho.2 txn rfl hdone name hname

theorem commit_chunks {db db' : Database} {txn : Txn} {skip : Nat}
    (hc : db.commit txn skip = .ok db') (hd : txn.doomed = []) (ha : txn.added = []) (id : Uuid) :
    db'.chunksOf id = db.chunksOf id := by
  rw [chunksOf_commit hc, hd, ha]
  simp [numberChunks]

theorem unfinished_fail (document : Instance) {t : World} {db : Database} {detail : Str} {skip : Nat}
    (hrow : t.db.document document.loaded.id = some document.loaded)
    (hcurrent : document.current.chunkCount = document.loaded.chunkCount)
    (hfile : document.loaded.file = d.file) (hcount : document.loaded.chunkCount = d.chunkCount)
    (hchunks : t.db.chunksOf d.id = chunks)
    (hc : t.db.commit (failTxn document detail) skip = .ok db) :
    Unfinished d chunks { t with db := db } := by
  have hid : document.loaded.id = d.id := congrArg (·.id) hfile
  have hdoc := document_commit hc document.loaded.id
  rw [failTxn_id, if_pos rfl, hrow, Option.map_some, hid] at hdoc
  refine ⟨⟨_, hdoc, hfile, ?_, ?_⟩, (commit_chunks hc rfl rfl d.id).trans hchunks⟩
  · rw [failTxn_patch]
    simp [Patch.apply, Instance.patch, hcurrent, hcount]
  · rw [(failTxn_apply document detail).1]
    simp

theorem process_unfinished (hstatus : d.status ≠ .completed) :
    ProcessProof (delivering d.id emb (Unfinished d chunks)) ext svc d.id
      (fun w => w.db.document d.id = some d ∧ w.db.chunksOf d.id = chunks)
      (fun row w => row = d ∧ w.db.document d.id = some (started d).current ∧
        w.db.chunksOf d.id = chunks)
      (Unfinished d chunks)
      (fun r w => match r with
        | .ok _ => Finished ext svc emb d w
        | .error _ => Unfinished d chunks w) where
  guar_refl _ := trivial
  pre_stable _ _ hs hst _ := ⟨hst.document.trans hs.1, hst.chunks.trans hs.2⟩
  mid_stable _ _ _ hs hst _ := ⟨hs.1, hst.document.trans hs.2.1, hst.chunks.trans hs.2.2⟩
  fail_stable _ _ hs hst _ := hs.same hst
  end_stable r _ _ hs hst _ := by
    cases r with
    | ok _ => exact hs.same hst
    | error _ => exact hs.same hst
  pre_fail _ h := ⟨⟨d, h.1, rfl, rfl, hstatus⟩, h.2⟩
  mid_fail _ _ h := ⟨⟨_, h.2.1, rfl, rfl, nofun⟩, h.2.2⟩
  stop _ h _ := h
  transient _ _ _ h _ := h
  absent _ h _ hnone := by
    rw [h.1] at hnone
    cases hnone
  completed _ _ h _ hrow hdone := by
    rw [h.1] at hrow
    exact absurd (Option.some.inj hrow ▸ hdone) hstatus
  payload _ _ h _ _ _ _ := ⟨⟨d, h.1, rfl, rfl, hstatus⟩, h.2⟩
  start t u row h _ hrow _ _ htu _ := by
    rw [h.1] at hrow
    obtain rfl := Option.some.inj hrow
    have hu := htu.document.trans h.1
    have hchunks := htu.chunks.trans h.2
    refine commits_delivering ⟨⟨d, hu, rfl, rfl, hstatus⟩, hchunks⟩ fun db skip hc => ?_
    have hdoc := document_commit hc d.id
    rw [startTxn_id, if_pos rfl, hu, Option.map_some, startTxn_apply] at hdoc
    have hchunks' := (commit_chunks hc rfl rfl d.id).trans hchunks
    exact ⟨⟨rfl, hdoc, hchunks'⟩, fun _ => ⟨⟨_, hdoc, rfl, rfl, nofun⟩, hchunks'⟩⟩
  gone _ _ h _ _ := h
  fail t row detail h _ _ := by
    obtain ⟨rfl, hrow, hchunks⟩ := h
    refine commits_delivering ⟨⟨_, hrow, rfl, rfl, nofun⟩, hchunks⟩ fun db skip hc => ?_
    have hend := unfinished_fail (started row) hrow rfl rfl rfl hchunks hc
    exact ⟨hend, fun _ => hend⟩
  store t row doomed drafts embeddings h _ hp := by
    obtain ⟨rfl, hrow, hchunks⟩ := h
    refine commits_delivering ⟨⟨_, hrow, rfl, rfl, nofun⟩, hchunks⟩ fun db skip hc =>
      ⟨?_, fun hne => absurd rfl hne⟩
    obtain ⟨⟨raw, hraw, hparse⟩, hembed, hlen, u, hut, rfl⟩ := hp
    rw [show u.db.chunksOf row.id = t.db.chunksOf row.id from hut.chunks.symm] at hc
    obtain ⟨hdoc, hstored⟩ := stored_of_commit hrow hc
    obtain ⟨db₁, -, hr⟩ := commit_ok hc
    refine ⟨raw, drafts, embeddings, hraw, hparse, fun os hos => ?_, hlen,
      (Database.replaceChunks_ok hr).1, hdoc, hstored⟩
    rw [IngestionService.embeddings]
    rcases hembed with ⟨hneg, rfl⟩ | ⟨hpos, hembeds⟩
    · rw [if_neg (by omega), if_pos hneg]
    · rw [if_neg (by omega), if_neg (by omega)]
      exact embedFrom_of_embeds hembeds hos 2

theorem process_completed {row : Document} (hstatus : row.status = .completed) :
    ProcessProof (delivering d.id emb fun w => w.db.document d.id = some row ∧
        w.db.chunksOf d.id = chunks) ext svc d.id
      (fun w => w.db.document d.id = some row ∧ w.db.chunksOf d.id = chunks) (fun _ _ => False)
      (fun w => w.db.document d.id = some row ∧ w.db.chunksOf d.id = chunks)
      (fun _ w => w.db.document d.id = some row ∧ w.db.chunksOf d.id = chunks) where
  guar_refl _ := trivial
  pre_stable _ _ hs hst _ := ⟨hst.document.trans hs.1, hst.chunks.trans hs.2⟩
  mid_stable _ _ _ hs _ _ := hs
  fail_stable _ _ hs hst _ := ⟨hst.document.trans hs.1, hst.chunks.trans hs.2⟩
  end_stable _ _ _ hs hst _ := ⟨hst.document.trans hs.1, hst.chunks.trans hs.2⟩
  pre_fail _ h := h
  mid_fail _ _ h := h.elim
  stop _ h _ := h
  transient _ _ _ h _ := h
  absent _ h _ _ := h
  completed _ _ h _ _ _ := h
  payload _ _ h _ _ _ _ := h
  start _ _ _ h _ hrow hne _ _ _ := by
    rw [h.1] at hrow
    exact absurd (Option.some.inj hrow ▸ hstatus) hne
  gone _ _ h _ _ := h
  fail _ _ _ h _ _ := h.elim
  store _ _ _ _ _ h _ _ := h.elim

theorem markFailed_unfinished {message : Str} {s : World} {l : Log api} (hs : Unfinished d chunks s) :
    wpE exec (delivering d.id emb (Unfinished d chunks)) (fun _ w _ => Unfinished d chunks w)
      (markFailed none d.id message) s l := by
  refine wpE_markFailed (M := Unfinished d chunks) (fun _ w => Unfinished d chunks w)
    (fun _ _ hs hst _ => hs.same hst) (fun _ => trivial) (fun _ h _ => h)
    (fun _ _ _ hs hst _ => hs.same hst) (fun _ h _ _ => h) (fun _ _ h _ => h)
    (fun t u row h _ hrow htu _ => ?_) hs
  have hid : row.id = d.id := Database.document_id hrow
  have hu := h.same htu
  obtain ⟨⟨row', hrow', hfile, hcount, -⟩, hchunks⟩ := h
  obtain rfl : row' = row := Option.some.inj (hrow'.symm.trans hrow)
  have hloaded : u.db.document row'.id = some row' := by
    rw [hid]
    exact htu.document.trans hrow
  refine commits_delivering (fun _ _ => hu) fun db skip hc => ?_
  have hend := unfinished_fail (.load row') hloaded rfl hfile hcount (htu.chunks.trans hchunks) hc
  exact ⟨hend, fun _ _ _ => hend⟩

theorem respects_delivering {φ : Feed World Oracle} {id : Uuid} {P : World → Prop}
    (h : ∀ n t, φ n = some t → ∀ s, Same id s (t.others s)) : φ.Respects (delivering id emb P) :=
  fun n t ht s _ => ⟨h n t ht s, trivial⟩

theorem unfinished_attempt {a : Attempt} (h : Unfinished d chunks w)
    (ha : a.Admissible ext svc d.id emb w) :
    (¬ a.Returned ext svc d.id w → Unfinished d chunks (a.final ext svc d.id w)) ∧
      (a.Returned ext svc d.id w → Finished ext svc emb d (a.final ext svc d.id w)) := by
  cases a with
  | mark message φ =>
    refine ⟨fun _ => ?_, fun hret => hret.elim⟩
    have hwp : wpE exec (delivering d.id emb (Unfinished d chunks)) _ (markFailed none d.id message)
      w [] := markFailed_unfinished h
    obtain ⟨hdead, hend⟩ := wp_outcome_of_obeys hwp trivial (respects_delivering ha.1) ha.2
    cases hr : (markFailed none d.id message).run.result exec φ w with
    | none => exact hdead hr
    | some r =>
      obtain ⟨-, -, hend⟩ := hend r hr
      exact hend
  | call φ =>
    obtain ⟨⟨row, hrow, hfile, hcount, hstatus⟩, hchunks⟩ := h
    have hid : row.id = d.id := Database.document_id hrow
    have hback {w : World} (h : Unfinished row chunks w) : Unfinished d chunks w := by
      obtain ⟨⟨row', hrow', hfile', hcount', hstatus'⟩, hchunks'⟩ := h
      rw [hid] at hrow' hchunks'
      exact ⟨⟨row', hrow', hfile'.trans hfile, hcount'.trans hcount, hstatus'⟩, hchunks'⟩
    have hwp : wpE exec (delivering row.id emb (Unfinished row chunks)) _
        (svc.process ext none row.id) w [] :=
      (process_unfinished hstatus).wpE_process ⟨hid ▸ hrow, hid ▸ hchunks⟩
    rw [hid] at hwp
    obtain ⟨hdead, hend⟩ := wp_outcome_of_obeys hwp trivial (respects_delivering ha.1) ha.2
    simp only [Attempt.Returned, Attempt.final]
    cases hr : (svc.process ext none d.id).run.result exec φ w with
    | none => exact ⟨fun _ => hback (hdead hr), fun ⟨_, hret⟩ => (by cases hret)⟩
    | some r =>
      obtain ⟨-, -, hend⟩ := hend r hr
      cases r with
      | ok document =>
        exact ⟨fun hnot => absurd ⟨document, rfl⟩ hnot, fun _ => Finished.of_file hend hfile⟩
      | error e =>
        exact ⟨fun _ => hback hend, fun ⟨_, hret⟩ => (by cases hret)⟩

theorem completed_attempt {a : Attempt} {row : Document} (hrow : w.db.document d.id = some row)
    (hstatus : row.status = .completed) (hcall : a.isCall)
    (ha : a.Admissible ext svc d.id emb w) : Same d.id w (a.final ext svc d.id w) := by
  cases a with
  | mark message φ => cases hcall
  | call φ =>
    have hwp : wpE exec (delivering d.id emb _) _ (svc.process ext none d.id) w [] :=
      (process_completed hstatus).wpE_process ⟨hrow, rfl⟩
    obtain ⟨hdead, hend⟩ := wp_outcome_of_obeys hwp trivial (respects_delivering ha.1) ha.2
    cases hr : (svc.process ext none d.id).run.result exec φ w with
    | none =>
      obtain ⟨hrow', hchunks⟩ := hdead hr
      exact ⟨hrow'.trans hrow.symm, hchunks⟩
    | some r =>
      obtain ⟨-, -, hrow', hchunks⟩ := hend r hr
      exact ⟨hrow'.trans hrow.symm, hchunks⟩

end Attempt

section Sequences

variable {ext : External} {svc : IngestionService} {emb : List Str → Except Exn (List Embedding)}
  {d : Document} {chunks : List Chunk} {w : World} {as bs : List Attempt}

theorem sequence_append {id : Uuid} (h : Sequence ext svc id emb (as ++ bs) w) :
    Sequence ext svc id emb bs (history ext svc id as w) := by
  induction as generalizing w with
  | nil => exact h
  | cons a as ih => exact ih h.2.2

theorem completed_history {row : Document} (hrow : w.db.document d.id = some row)
    (hstatus : row.status = .completed) (hcalls : as.all Attempt.isCall)
    (h : Sequence ext svc d.id emb (as ++ bs) w) : Same d.id w (history ext svc d.id as w) := by
  induction as generalizing w with
  | nil => exact .refl d.id w
  | cons a as ih =>
    simp only [List.all_cons, Bool.and_eq_true] at hcalls
    have hsame := completed_attempt hrow hstatus hcalls.1 h.1
    exact hsame.trans (ih (hsame.document.trans hrow) hcalls.2 h.2.2)

theorem unfinished_history (h : Unfinished d chunks w)
    (hseq : Sequence ext svc d.id emb (as ++ bs) w) :
    (NoneReturned ext svc d.id as w ∧ Unfinished d chunks (history ext svc d.id as w)) ∨
      ((∃ row, (history ext svc d.id as w).db.document d.id = some row ∧ row.status = .completed) ∧
        bs.all Attempt.isCall ∧ ¬ NoneReturned ext svc d.id as w) := by
  induction as generalizing w with
  | nil => exact .inl ⟨trivial, h⟩
  | cons a as ih =>
    obtain ⟨ha, hcalls, hseq⟩ :
      _ ∧ (_ → (as ++ bs).all Attempt.isCall) ∧ Sequence ext svc d.id emb (as ++ bs) _ := hseq
    have hstep := unfinished_attempt h ha
    by_cases hret : a.Returned ext svc d.id w
    · obtain ⟨raw, drafts, embeddings, -, -, -, -, -, hrow, -⟩ := hstep.2 hret
      have hall := hcalls hret
      rw [List.all_append, Bool.and_eq_true] at hall
      have hsame := completed_history hrow rfl hall.1 hseq
      exact .inr ⟨⟨_, hsame.document.trans hrow, rfl⟩, hall.2, fun hnone => hnone.1 hret⟩
    · rcases ih (hstep.1 hret) hseq with hleft | hright
      · exact .inl ⟨⟨hret, hleft.1⟩, hleft.2⟩
      · exact .inr ⟨hright.1, hright.2.1, fun hnone => hright.2.2 hnone.2⟩

theorem finished_clean {clean : World} {ψ : Feed World Oracle} (h : Finished ext svc emb d w)
    (hclean : clean.db.document d.id = some d.file) (halive : ∀ n, ψ n ≠ none)
    (hanswers : ψ.Answers fun o => o.fault = none ∧ o.embed = emb)
    (hothers : ∀ n t, ψ n = some t → ∀ s, Same d.id s (t.others s)) :
    let once := (svc.process ext none d.id).run.final exec ψ clean
    (∃ document, (svc.process ext none d.id).run.result exec ψ clean = some (.ok document)) ∧
      w.db.document d.id = once.db.document d.id ∧
      (w.db.chunksOf d.id).map Chunk.new = (once.db.chunksOf d.id).map Chunk.new := by
  obtain ⟨raw, drafts, embeddings, hraw, hparse, hembed, hlen, hs, hrow, hchunks⟩ := h
  obtain ⟨r, hresult, hholds⟩ := process_answered ext svc (d := d.file) halive
    (answered_of_faultless (fun n t ht => (hanswers n t ht).1) none d.id clean) hothers hclean hraw
    (.inl rfl) nofun fun _ hi => by cases hi
  have hos (n : Nat) : (oracles ψ n).embed = emb := by
    obtain ⟨t, ht⟩ := Option.ne_none_iff_exists'.mp (halive n)
    rw [oracles, ht]
    exact (hanswers n t ht).2
  have hverdict : verdict (fun _ => true) ext svc (oracles ψ) d.file raw =
      .completed (IngestionService.newChunks d drafts embeddings) := by
    simp only [verdict, show d.file.sourceType = d.sourceType from rfl, hparse, hembed _ hos,
      fit_all]
    exact if_pos ⟨hlen, hs⟩
  rw [hverdict] at hholds
  obtain ⟨⟨document, rfl⟩, hdoc, hnew⟩ := hholds
  have hlength : (IngestionService.newChunks d drafts embeddings).length = drafts.length := by
    simp [IngestionService.newChunks, hlen]
  rw [hlength] at hdoc
  exact ⟨⟨document, hresult⟩, hrow.trans hdoc.symm, hchunks.trans hnew.symm⟩

/-- A cut-short attempt leaves the chunks and their count alone; the first call that returns leaves
what one undisturbed call makes of the fresh row; and no later call changes anything. -/
theorem process_idempotent {attempts : List Attempt} {clean : World} {ψ : Feed World Oracle}
    (hrow : w.db.document d.id = some d) (hstatus : d.status ≠ .completed)
    (hseq : Sequence ext svc d.id emb attempts w)
    (hclean : clean.db.document d.id = some d.file) (halive : ∀ n, ψ n ≠ none)
    (hanswers : ψ.Answers fun o => o.fault = none ∧ o.embed = emb)
    (hothers : ∀ n t, ψ n = some t → ∀ s, Same d.id s (t.others s)) :
    ∀ as a bs, attempts = as ++ a :: bs →
      let start := history ext svc d.id as w
      let done := a.final ext svc d.id start
      let once := (svc.process ext none d.id).run.final exec ψ clean
      (¬ a.Returned ext svc d.id start → done.db.chunksOf d.id = start.db.chunksOf d.id ∧
        (done.db.document d.id).map (·.chunkCount) =
          (start.db.document d.id).map (·.chunkCount)) ∧
      (NoneReturned ext svc d.id as w → a.Returned ext svc d.id start →
        (∃ document, (svc.process ext none d.id).run.result exec ψ clean = some (.ok document)) ∧
        done.db.document d.id = once.db.document d.id ∧
        (done.db.chunksOf d.id).map Chunk.new = (once.db.chunksOf d.id).map Chunk.new ∧
        ∀ cs ds, bs = cs ++ ds → Same d.id done (history ext svc d.id cs done)) := by
  rintro as a bs rfl
  have hstart : Unfinished d (w.db.chunksOf d.id) w := ⟨⟨d, hrow, rfl, rfl, hstatus⟩, rfl⟩
  obtain ⟨ha, hcalls, hlater⟩ := sequence_append hseq
  rcases unfinished_history hstart hseq with ⟨-, hun⟩ | ⟨⟨row, hrow', hdone⟩, hcall, hnot⟩
  · have hstep := unfinished_attempt hun ha
    refine ⟨fun hcut => ?_, fun _ hret => ?_⟩
    · obtain ⟨⟨row, hrow, -, hcount, -⟩, hchunks⟩ := hun
      obtain ⟨⟨row', hrow', -, hcount', -⟩, hchunks'⟩ := hstep.1 hcut
      exact ⟨hchunks'.trans hchunks.symm, by rw [hrow, hrow', Option.map_some, Option.map_some,
        hcount, hcount']⟩
    · have hfinished := hstep.2 hret
      obtain ⟨hresult, hdoc, hchunks⟩ := finished_clean hfinished hclean halive hanswers hothers
      refine ⟨hresult, hdoc, hchunks, ?_⟩
      rintro cs ds rfl
      obtain ⟨raw, drafts, embeddings, -, -, -, -, -, hrow, -⟩ := hfinished
      have hall := hcalls hret
      rw [List.all_append, Bool.and_eq_true] at hall
      exact completed_history hrow rfl hall.1 hlater
  · rw [List.all_cons, Bool.and_eq_true] at hcall
    have hsame := completed_attempt hrow' hdone hcall.1 ha
    exact ⟨fun _ => ⟨hsame.chunks, by rw [hsame.document]⟩, fun hnone => absurd hnone hnot⟩

end Sequences

theorem admissible_of_alone (ext : External) (svc : IngestionService) (id : Uuid) (w : World)
    {emb : List Str → Except Exn (List Embedding)} {φ : Feed World Oracle} (h : φ.Alone)
    (hφ : φ.Answers fun o => o.embed = emb ∧ ∀ name, o.fault ≠ some (.lostAck name)) :
    (Attempt.call φ).Admissible ext svc id emb w ∧
      ∀ message, (Attempt.mark message φ).Admissible ext svc id emb w := by
  have hobeys {α : Type} (p : Async api α) :
      p.RunObeys exec (fun _ o c _ => Clean emb o c) φ w [] :=
    Async.runObeys_of_forall exec (fun n t ht _ _ _ =>
      ⟨(hφ n t ht).1, fun _ _ _ name => (hφ n t ht).2 name⟩) p w []
  exact ⟨⟨same_of_alone h, hobeys _⟩, fun _ => ⟨same_of_alone h, hobeys _⟩⟩

namespace Sample

def cutShort : Attempt := .call (.of [oracle, failing])

def failureMark : Attempt := .mark "gave up".toList (.always oracle)

def complete : Attempt := .call (.always oracle)

def attempts : List Attempt := [cutShort, failureMark, complete, complete]

def uploadedNote : World := state (whole 0 4 (.upload tenantId note))

theorem not_returned :
    ¬ cutShort.Returned ext (ingestionService {}) documentId uploadedNote := by
  rintro ⟨document, h⟩
  cases h

theorem attempts_sequence : Sequence ext (ingestionService {}) documentId oracle.embed attempts
    uploadedNote := by
  have horacle : oracle.embed = oracle.embed ∧ ∀ name, oracle.fault ≠ some (.lostAck name) :=
    ⟨rfl, nofun⟩
  have hfailing : failing.embed = oracle.embed ∧ ∀ name, failing.fault ≠ some (.lostAck name) :=
    ⟨rfl, nofun⟩
  have halways (w : World) := admissible_of_alone ext (ingestionService {}) documentId w
    (Feed.alone_always oracle) (Feed.answers_always horacle)
  refine ⟨(admissible_of_alone _ _ _ _ (Feed.alone_of _) (Feed.answers_of fun o ho => ?_)).1,
    fun h => absurd h not_returned, (halways _).2 _, fun h => h.elim, (halways _).1, fun _ => rfl,
    (halways _).1, fun _ => rfl, trivial⟩
  simp only [List.mem_cons, List.not_mem_nil, or_false] at ho
  rcases ho with rfl | rfl
  · exact horacle
  · exact hfailing

def freshNote : Document := (row (whole 0 4 (.upload tenantId note))).get (by decide)

theorem complete_returned : complete.Returned ext (ingestionService {}) documentId
    (history ext (ingestionService {}) documentId [cutShort, failureMark] uploadedNote) := by
  have h : (((((ingestionService {}).process ext none documentId).run.result exec (.always oracle)
      (history ext (ingestionService {}) documentId [cutShort, failureMark] uploadedNote)).bind
        Except.toOption).isSome) = true := by decide +kernel
  obtain ⟨document, hd⟩ := Option.isSome_iff_exists.mp h
  obtain ⟨r, hr, hok⟩ := Option.bind_eq_some_iff.mp hd
  cases r with
  | ok document => exact ⟨document, hr⟩
  | error e => cases hok

end Sample

/-- The completed row after a call cut short, a mark and two whole calls. -/
theorem process_idempotent_note :
    (Sample.complete.final Sample.ext (ingestionService {}) Sample.documentId
        (history Sample.ext (ingestionService {}) Sample.documentId
          [Sample.cutShort, Sample.failureMark] Sample.uploadedNote)).db.document Sample.documentId =
      (((ingestionService {}).process Sample.ext none Sample.documentId).run.final exec
        (.always Sample.oracle) Sample.uploadedNote).db.document Sample.documentId :=
  ((process_idempotent (d := Sample.freshNote) (Option.some_get _).symm (by decide)
    Sample.attempts_sequence (by decide) (Feed.always_ne_none _)
    (Feed.answers_always ⟨rfl, rfl⟩) (same_of_alone (Feed.alone_always _))
    [Sample.cutShort, Sample.failureMark] Sample.complete [Sample.complete] rfl).2
    ⟨Sample.not_returned, fun h => h, trivial⟩ Sample.complete_returned).2.1

end RagPlatform
