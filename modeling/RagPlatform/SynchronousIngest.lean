import RagPlatform.Cli
import RagPlatform.Services.IngestionOutcome
import RagPlatform.System

/-! Where the `ingest` command leaves the row. -/

namespace RagPlatform

open Lib

/-- `process` records this exception on the row. -/
def Exn.Recorded (e : Exn) : Prop := ∃ detail, e = .parse detail ∧ storableText (detail.take 500)

/-- The payload does not parse, or the embedder answers every batch, with one vector for each chunk,
and the database takes every row; or else whatever is raised is a `ParseError`. -/
def Settleable (accepts : NewChunk → Bool) (ext : External) (svc : IngestionService)
    (os : Nat → Oracle) (d : Document) (raw : Bytes) : Prop :=
  match svc.parseAndChunk ext raw d.sourceType with
  | .error e => e.Recorded
  | .ok drafts =>
    match svc.embeddings os 2 drafts with
    | .error e => e.Recorded
    | .ok embeddings => drafts.length = embeddings.length ∧
        (IngestionService.newChunks d drafts embeddings).all (NewChunk.fit accepts)

section

variable {accepts : NewChunk → Bool} {ext : External} {svc : IngestionService} {settings : Settings}
  {os : Nat → Oracle} {d : Document} {raw : Bytes}

theorem raised_ne_stuck (e : Exn) : Verdict.raised e ≠ .stuck ↔ e.Recorded := by
  constructor
  · intro h
    cases e with
    | parse detail =>
      refine ⟨detail, rfl, ?_⟩
      by_contra hs
      exact h (if_neg hs)
    | _ => exact absurd rfl h
  · rintro ⟨detail, rfl, hs⟩
    simp [Verdict.raised, hs]

theorem settleable_iff :
    verdict accepts ext svc os d raw ≠ .stuck ↔ Settleable accepts ext svc os d raw := by
  simp only [verdict, Settleable]
  cases svc.parseAndChunk ext raw d.sourceType with
  | error e => exact raised_ne_stuck e
  | ok drafts =>
    cases he : svc.embeddings os 2 drafts with
    | error e => simpa only [he] using raised_ne_stuck e
    | ok embeddings =>
      simp only [he]
      split
      · next h => simpa using h
      · next h => simpa using h

theorem Verdict.Holds.terminal {v : Verdict} {r : Except Exn Instance} {w : World}
    (h : v.Holds d r w) :
    (∃ row, w.db.document d.id = some row ∧ row.status.terminal) ↔ v ≠ .stuck := by
  cases v with
  | completed chunks => exact ⟨fun _ => nofun, fun _ => ⟨_, h.2.1, rfl⟩⟩
  | failed detail =>
    obtain ⟨-, row, hrow, hs⟩ := h
    exact ⟨fun _ => nofun, fun _ => ⟨row, hrow, by rw [hs]; rfl⟩⟩
  | stuck =>
    obtain ⟨-, row, hrow, hs⟩ := h
    refine ⟨fun ⟨row', hrow', hterm⟩ => ?_, fun h => absurd rfl h⟩
    rw [hrow] at hrow'
    rw [← Option.some.inj hrow', hs] at hterm
    cases hterm

/-- The row as `register` has committed it. -/
def RegisteredRow (id : Uuid) (raw : Bytes) (sourceType : DocumentSourceType) (row : Document)
    (w : World) : Prop :=
  row.id = id → w.db.document id = some row ∧ row.rawContent = some raw ∧
    row.sourceType = sourceType ∧ row.errorMessage = none ∧ row.status = .pending

theorem register_row (id : Uuid) {tenantId : Uuid} {filename : Str} {sourceType : DocumentSourceType}
    {s : World} {l : Log api} :
    wpE exec (untouched id fun _ _ _ _ => True)
      (fun r w _ => ∀ i, r = .ok i → ∃ row, i = .load row ∧ RegisteredRow id raw sourceType row w)
      (svc.register ext tenantId filename raw sourceType) s l := by
  refine wpE_register (fun _ _ => trivial) (fun _ => trivial) (fun row s t hs hst _ hid => ?_)
    fun s l => wpE_perform fun t _ _ => ⟨trivial, fun o _ => ⟨trivial, trivial, ?_⟩⟩
  · obtain ⟨hrow, hcols⟩ := hs hid
    exact ⟨hst.document.trans hrow, hcols⟩
  · intro u hu _ row hrow hid
    obtain ⟨-, rfl, hins⟩ := exec_insertDocument_ok hrow
    obtain ⟨-, hfits, hadd⟩ := Database.insertDocument_ok hins
    refine ⟨hu.document.trans ?_, rfl, rfl, rfl, rfl⟩
    rw [hadd, Database.document_add, if_pos hid.symm]

theorem ingestPath_run {tenantId : Uuid} {path : Path} {sourceType : DocumentSourceType}
    {φ φ₁ : Feed World Oracle} {w w₁ : World} {document : Instance}
    (htype : sourceTypeForFilename path.name = .ok sourceType)
    (hreg : ((cliIngestionService settings).register ext tenantId path.name path.bytes
      sourceType).run.run exec φ w = (w₁, some (.ok document, φ₁))) :
    (ingestPath ext settings tenantId path).run.final exec φ w =
      ((cliIngestionService settings).process ext (some document) document.current.id).run.final
        exec φ₁ w₁ := by
  rw [ingestPath, htype, ofExcept_ok_bind, final_bind_pure, IngestionService.ingest, Async.final,
    run_bind_ok hreg]
  rfl

/-- `accepts` is what Postgres makes of a row beyond the checks of `NewChunk.storable`: the length of
the generated `tsv` above all.  Once `register` has committed and every statement is answered, `ingest`
leaves the row settled if and only if it comes to its end or meets a `ParseError`. -/
theorem cli_ingest_settles_iff (accepts : NewChunk → Bool) {tenantId : Uuid} {path : Path}
    {sourceType : DocumentSourceType} {φ φ₁ : Feed World Oracle} {w w₁ : World} (document : Instance)
    (htype : sourceTypeForFilename path.name = .ok sourceType)
    (hreg : ((cliIngestionService settings).register ext tenantId path.name path.bytes
      sourceType).run.run exec φ w = (w₁, some (.ok document, φ₁)))
    (halive : ∀ n, φ₁ n ≠ none)
    (hanswers : ((cliIngestionService settings).process ext (some document)
      document.current.id).run.RunObeys exec (fun _ o c _ => Answered accepts o c) φ₁ w₁ [])
    (hothers : ∀ n t, φ n = some t → ∀ s, Same document.current.id s (t.others s)) :
    (∃ row, ((ingestPath ext settings tenantId path).run.final exec φ w).db.document
        document.current.id = some row ∧ row.status.terminal) ↔
      Settleable accepts ext (cliIngestionService settings) (oracles φ₁) document.current
        path.bytes := by
  have hrespects {step : Log api → Oracle → Call → World → Prop} :
      φ.Respects (untouched document.current.id step) := fun n t ht s _ => ⟨hothers n t ht s, trivial⟩
  have hwp : wpE exec (untouched document.current.id fun _ _ _ _ => True) _
      ((cliIngestionService settings).register ext tenantId path.name path.bytes sourceType) w [] :=
    register_row document.current.id
  obtain ⟨-, -, -, hrow⟩ := (wp_run hwp trivial hrespects
    (Async.runObeys_of_forall exec (fun _ _ _ _ _ _ => trivial) _ _ _)).2 _ _ _ hreg
  obtain ⟨row, rfl, hrow⟩ := hrow document rfl
  obtain ⟨hrow, hraw, htype', hmessage, hstatus⟩ := hrow rfl
  obtain ⟨k, hk⟩ := Async.feed_of_run hreg
  obtain ⟨r, -, hverdict⟩ := process_answered ext (cliIngestionService settings) halive hanswers
    (fun n t ht => hothers (n + k) t (hk n ▸ ht)) hrow hraw (.inl hmessage)
    (show row.status ≠ .completed by rw [hstatus]; nofun) fun i hi => (Option.some.inj hi).symm
  rw [ingestPath_run htype hreg]
  exact hverdict.terminal.trans settleable_iff

end

namespace Sample

def notePath : Path := ⟨"note.md".toList, [0x48, 0x69, 0x2E]⟩

/-- The bound of a `tsvector`, for the text of one. -/
def taken (c : NewChunk) : Bool := c.content.length ≤ 1048575

def unembedding : Oracle :=
  { oracle with embed := fun _ => .error (.providerNotConfigured "sentence-transformers".toList) }

def overflowing : Oracle :=
  { oracle with
    embed := fun texts => .ok (texts.map fun _ => .infinity false :: List.replicate 383 (.finite 0)) }

def noteInstance : Instance := .load
  ((IngestionService.newDocument ext tenantId notePath.name notePath.bytes .markdown).row documentId 0)

def ingested (o : Oracle) : World :=
  (ingestPath ext {} tenantId notePath).run.final exec (.always o) world

theorem untouched_always (o : Oracle) (n : Nat) (t : Turn World Oracle)
    (ht : Feed.always o n = some t) (s : World) : Same documentId s (t.others s) :=
  same_of_alone (Feed.alone_always o) n t ht s

end Sample

theorem cli_ingest_settles_iff_note :
    ((∃ row, (Sample.ingested Sample.oracle).db.document Sample.documentId = some row ∧
        row.status.terminal) ↔
      Settleable Sample.taken Sample.ext (cliIngestionService {}) (oracles (.always Sample.oracle))
        Sample.noteInstance.current Sample.notePath.bytes) ∧
    ((∃ row, (Sample.ingested Sample.overflowing).db.document Sample.documentId = some row ∧
        row.status.terminal) ↔
      Settleable Sample.taken Sample.ext (cliIngestionService {})
        (oracles (.always Sample.overflowing)) Sample.noteInstance.current
        Sample.notePath.bytes) :=
  ⟨cli_ingest_settles_iff Sample.taken Sample.noteInstance rfl rfl (Feed.always_ne_none _)
      (by decide +kernel) (Sample.untouched_always _),
    cli_ingest_settles_iff Sample.taken Sample.noteInstance rfl rfl (Feed.always_ne_none _)
      (by decide +kernel) (Sample.untouched_always _)⟩

/-- The embedder raises, `ingest` with it, and nobody comes back to the row. -/
theorem cli_ingest_leaves_processing :
    (ingestPath Sample.ext {} Sample.tenantId Sample.notePath).run.result exec
        (.always Sample.unembedding) Sample.world =
        some (.error (.providerNotConfigured "sentence-transformers".toList)) ∧
      (((ingestPath Sample.ext {} Sample.tenantId Sample.notePath).run.final exec
        (.always Sample.unembedding) Sample.world).db.document Sample.documentId).map
          (·.status) = some .processing ∧
      ((ingestPath Sample.ext {} Sample.tenantId Sample.notePath).run.final exec
        (.always Sample.unembedding) Sample.world).queue = [] := by
  decide +kernel

end RagPlatform
