import RagPlatform.Billing

/-! What the markers of an answer refer to. -/

namespace RagPlatform

open Lib

section

variable {env : Surroundings} {svc : AnswerService} {tenantId : Uuid} {w : World}
variable {chunks : List RetrievedChunk} {query : Str} {result : LLMResult}

def Resolves (r : AnswerResult) : Prop :=
  ∀ digits, Marked r.answer digits → ∃ c ∈ r.citations, c.marker = number digits

/-- The text goes out as the model wrote it, so what the model invents is left in. -/
theorem answers_resolve_iff
    (hgen : Generates env w (svc.prompt (prepared chunks query)) result) :
    (∀ w' r, Io.eval env (svc.complete tenantId (prepared chunks query)) w = (w', .ok r) →
      Resolves r) ↔
    (∀ digits, Marked result.text digits → 1 ≤ number digits ∧ number digits ≤ chunks.length) ∨
      (∃ digits, Marked result.text digits ∧ 4300 < digits.length) ∨
      ¬ Records env w (svc.usageOf tenantId result.model result.usage) := by
  by_cases hr : Readable result.text
  · obtain ⟨cited, hcited, -, hmarkers, -⟩ := citedOnly_prepared chunks query hr
    by_cases hrecords : Records env w (svc.usageOf tenantId result.model result.usage)
    swap
    · obtain ⟨w', e, he⟩ := eval_complete_unrecorded hgen hcited hrecords
      refine iff_of_true (fun w'' r h => ?_) (.inr (.inr hrecords))
      rw [he] at h
      cases h
    obtain ⟨w', he, -⟩ := eval_complete hgen hcited hrecords
    have hresolves : (∀ w' r, Io.eval env (svc.complete tenantId (prepared chunks query)) w =
        (w', .ok r) → Resolves r) ↔
        ∀ digits, Marked result.text digits → ∃ c ∈ cited, c.marker = number digits := by
      constructor
      · intro h
        exact h w' _ he
      · rintro h w'' r her
        rw [he] at her
        cases her
        exact h
    have hshort : ¬ ∃ digits, Marked result.text digits ∧ 4300 < digits.length := by
      rintro ⟨digits, hd, hlen⟩
      exact absurd (hr digits hd) (Nat.not_le.mpr hlen)
    rw [hresolves, or_iff_left (not_or_intro hshort (not_not_intro hrecords))]
    refine forall₂_congr fun digits hd => ?_
    rw [← List.mem_map, hmarkers]
    exact and_iff_left ⟨digits, hd, rfl⟩
  · have hlong : ∃ digits, Marked result.text digits ∧ 4300 < digits.length := by
      simpa [Readable] using hr
    refine iff_of_true (fun w' r h => ?_) (.inr (.inl hlong))
    rw [eval_complete_unreadable hgen hr] at h
    cases h

namespace Sample

def shelf : List RetrievedChunk :=
  [⟨1, documentId, "atlas.md".toList, 0, "The Seine.".toList, {}, []⟩,
    ⟨2, documentId, "atlas.md".toList, 1, "The Tiber, in Rome.".toList, {}, []⟩]

def inRome : Str := "Where is it?".toList

end Sample

theorem generates_shelf (text : Str) : Generates (Sample.talking [text]) Sample.world
    (Sample.answers.prompt (prepared Sample.shelf Sample.inRome))
    ⟨text, Sample.usage, Sample.model⟩ :=
  congrArg (fun t => (Sample.world, Except.ok (LLMResult.mk t Sample.usage Sample.model)))
    (List.append_nil text)

theorem answers_resolve_sample :
    (∀ w' r, Io.eval (Sample.talking ["In Rome [2][02], not [1].".toList])
        (Sample.answers.complete Sample.tenantId (prepared Sample.shelf Sample.inRome))
          Sample.world = (w', .ok r) → Resolves r) ∧
      ¬∀ w' r, Io.eval (Sample.talking ["In Rome [2], or Paris [7].".toList])
        (Sample.answers.complete Sample.tenantId (prepared Sample.shelf Sample.inRome))
          Sample.world = (w', .ok r) → Resolves r := by
  constructor
  · refine (answers_resolve_iff (generates_shelf _)).mpr (.inl fun digits hd => ?_)
    have hall : ∀ m ∈ findMarkers none "In Rome [2][02], not [1].".toList,
        1 ≤ number m ∧ number m ≤ Sample.shelf.length := by decide +kernel
    exact hall digits (mem_markers.mpr hd)
  · intro h
    obtain hrange | ⟨digits, hd, hlong⟩ | hrecords := (answers_resolve_iff (generates_shelf _)).mp h
    · have hmarked : Marked "In Rome [2], or Paris [7].".toList "7".toList :=
        mem_markers.mp (by decide +kernel)
      exact absurd (hrange _ hmarked).2 (by decide +kernel)
    · have hall : ∀ m ∈ findMarkers none "In Rome [2], or Paris [7].".toList, m.length ≤ 4300 := by
        decide +kernel
      exact absurd (hall digits (mem_markers.mpr hd)) (not_le.mpr hlong)
    · exact hrecords (Sample.records _)

/-- The prompt, part by part: a heading, the passages, the question. -/
def promptParts (chunks : List RetrievedChunk) (query : Str) : List Str :=
  ["Context passages:".toList] ++ (chunks.zipIdx 1).map (fun x => passage x.1 x.2) ++
    ["Question: ".toList ++ query]

/-- `part` is headed `[i]` and holds the text of the chunk. -/
def Presents (part : Str) (i : Nat) (chunk : RetrievedChunk) : Prop :=
  ∃ source, part = "[".toList ++ (toString i).toList ++ "] (".toList ++ source ++ ")\n".toList ++
    chunk.content

theorem presents_passage (chunk : RetrievedChunk) (i : Nat) :
    Presents (passage chunk i) i chunk := ⟨_, rfl⟩

theorem promptParts_passage {i : Nat} {chunk : RetrievedChunk} (hi : 1 ≤ i)
    (h : chunks[i - 1]? = some chunk) :
    (promptParts chunks query)[i]? = some (passage chunk i) := by
  obtain ⟨j, rfl⟩ : ∃ j, i = j + 1 := ⟨i - 1, by omega⟩
  rw [Nat.add_sub_cancel] at h
  obtain ⟨hj, rfl⟩ := List.getElem?_eq_some_iff.mp h
  simp only [promptParts, List.cons_append, List.nil_append, List.getElem?_cons_succ]
  rw [List.getElem?_append_left (by simpa using hj)]
  simp [hj, Nat.add_comm]

theorem length_promptParts (chunks : List RetrievedChunk) (query : Str) :
    (promptParts chunks query).length = chunks.length + 2 := by
  simp [promptParts]

/-- Each citation is one that the text asks for, and names the chunk that the model was shown under
its number. -/
theorem answers_grounded {topN : Int} {w' : World}
    (hsearch : Io.eval env (svc.retrieval.search tenantId query .hybrid (some topN)) w =
      (w', .ok chunks)) (hne : chunks ≠ []) :
    ∃ p parts, Io.eval env (svc.prepare tenantId query topN) w = (w', .ok (some p)) ∧
      p.user = Str.join "\n\n".toList parts ∧ parts.length = chunks.length + 2 ∧
      ∀ result, Generates env w' (svc.prompt p) result →
        Records env w' (svc.usageOf tenantId result.model result.usage) → Readable result.text →
        ∃ w'' r, Io.eval env (svc.complete tenantId p) w' = (w'', .ok r) ∧
          (r.citations.map (·.marker)).Pairwise (· < ·) ∧
          (∀ i, i ∈ r.citations.map (·.marker) ↔ (1 ≤ i ∧ i ≤ chunks.length) ∧
            ∃ digits, Marked result.text digits ∧ number digits = i) ∧
          ∀ c ∈ r.citations, ∃ chunk part, chunks[c.marker - 1]? = some chunk ∧
            c.chunkId = chunk.chunkId ∧ c.documentId = chunk.documentId ∧
            c.filename = chunk.filename ∧ parts[c.marker]? = some part ∧
            Presents part c.marker chunk := by
  have hprepare : Io.eval env (svc.prepare tenantId query topN) w =
      (w', .ok (some (prepared chunks query))) := by
    unfold AnswerService.prepare
    rw [Io.eval_bind_ok hsearch, if_neg hne]
    rfl
  refine ⟨prepared chunks query, promptParts chunks query, hprepare, rfl,
    length_promptParts chunks query, fun result hgen hrecords hr => ?_⟩
  obtain ⟨cited, hcited, hsorted, hmarkers, hchunks⟩ := citedOnly_prepared chunks query hr
  obtain ⟨w'', he, -⟩ := eval_complete hgen hcited hrecords
  refine ⟨w'', _, he, hsorted, hmarkers, fun c hc => ?_⟩
  obtain ⟨chunk, hchunk, hcc⟩ := hchunks c hc
  have h1 : 1 ≤ c.marker := ((hmarkers c.marker).mp (List.mem_map_of_mem hc)).1.1
  rw [hcc] at h1 ⊢
  exact ⟨chunk, passage chunk c.marker, hchunk, rfl, rfl, rfl, promptParts_passage h1 hchunk,
    presents_passage chunk c.marker⟩

end

namespace Sample

def chunkOf (id : Nat) (content : String) : Chunk where
  id := id
  documentId := documentId
  tenantId := tenantId
  chunkIndex := id
  content := content.toList
  tokenCount := 4
  embedding := []
  metadata := {}

def library : World :=
  { world with db :=
    { tenants := [{ id := tenantId }]
      issued := [(documentId, tenantId)]
      documents := [
        { id := documentId, tenantId := tenantId, filename := "atlas.md".toList
          sourceType := .markdown, contentSha256 := [], sizeBytes := 30, status := .completed
          rawContent := none, errorMessage := none, chunkCount := some 2, createdAt := 0 }]
      chunks := [chunkOf 1 "The Seine.", chunkOf 2 "The Tiber, in Rome."]
      nextChunkId := 3
      chunks_pk := by decide
      chunks_seq := by decide
      chunks_fk := by decide
      chunks_uq := by decide } }

/-- The text of the model cites the second passage, and one that is not there. -/
def reply : LLMResult := ⟨"In Rome [2][02], or Paris [7].".toList, usage, model⟩

def citing : Surroundings := talking [reply.text]

def found : World × Except Exn (List RetrievedChunk) :=
  Io.eval citing (answers.retrieval.search tenantId "Where is it?".toList .hybrid (some 8)) library

theorem ids_found : found.2.toOption.map (·.map (·.chunkId)) = some [1, 2] := by decide +kernel

theorem records_found :
    Records citing found.1 (answers.usageOf tenantId reply.model reply.usage) := by
  change (found.1.insertUsage _).2 = _
  decide +kernel

theorem readable_reply : Readable reply.text := by
  have h : ∀ m ∈ findMarkers none reply.text, m.length ≤ 4300 := by decide +kernel
  exact fun digits hd => h digits (mem_markers.mpr hd)

end Sample

theorem answers_grounded_sample : ∃ chunks, chunks.map (·.chunkId) = [1, 2] ∧
    Sample.found.2 = .ok chunks ∧ ∃ p, Io.eval Sample.citing (Sample.answers.prepare
      Sample.tenantId "Where is it?".toList 8) Sample.library = (Sample.found.1, .ok (some p)) ∧
      ∃ w r, Io.eval Sample.citing (Sample.answers.complete Sample.tenantId p) Sample.found.1 =
          (w, .ok r) ∧
        ∀ i, i ∈ r.citations.map (·.marker) ↔ (1 ≤ i ∧ i ≤ chunks.length) ∧
          ∃ digits, Marked Sample.reply.text digits ∧ number digits = i := by
  have hids := Sample.ids_found
  have hrecords := Sample.records_found
  generalize hx : Sample.found = x at hids hrecords
  obtain ⟨w', e | chunks⟩ := x
  · cases hids
  have hids' : chunks.map (·.chunkId) = [1, 2] := Option.some.inj hids
  have hne : chunks ≠ [] := by
    rintro rfl
    cases hids'
  obtain ⟨p, parts, hp, -, -, hcomplete⟩ := answers_grounded hx hne
  obtain ⟨w'', r, he, -, hmarkers, -⟩ := hcomplete Sample.reply rfl hrecords Sample.readable_reply
  exact ⟨chunks, hids', rfl, p, hp, w'', r, he, hmarkers⟩

/-- One passage, and a model that cites the ninety-ninth. -/
theorem invented_marker_goes_out :
    ¬ ∀ w' r, Io.eval (Sample.talking ["See [99].".toList]) (Sample.answers.complete Sample.tenantId
      (prepared [⟨1, Sample.documentId, [], 0, [], {}, []⟩] [])) Sample.world = (w', .ok r) →
      Resolves r := by
  intro h
  have hmarked : Marked "See [99].".toList "99".toList :=
    ⟨⟨"See ".toList, ".".toList, rfl⟩, by decide, List.all_eq_true.mp (by decide)⟩
  have hr : Readable "See [99].".toList := by
    have hm : ∀ m ∈ findMarkers none "See [99].".toList, m.length ≤ 4300 := by decide +kernel
    exact fun digits hd => hm digits (mem_markers.mpr hd)
  obtain ⟨cited, hcited, -, hmarkers, -⟩ :=
    citedOnly_prepared [⟨1, Sample.documentId, [], 0, [], {}, []⟩] [] hr
  have hgen : Generates (Sample.talking ["See [99].".toList]) Sample.world
    (Sample.answers.prompt (prepared [⟨1, Sample.documentId, [], 0, [], {}, []⟩] []))
    ⟨"See [99].".toList, Sample.usage, Sample.model⟩ := rfl
  obtain ⟨w', he, -⟩ := eval_complete hgen hcited (Sample.records _)
  obtain ⟨c, hc, hcm⟩ := h w' _ he "99".toList hmarked
  have h99 := ((hmarkers c.marker).mp (List.mem_map_of_mem hc)).1.2
  rw [hcm] at h99
  exact absurd h99 (by decide)

end RagPlatform
