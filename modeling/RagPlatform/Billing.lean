import RagPlatform.Services.AnsweringLaws
import RagPlatform.System

/-! Whether what the model was asked for is metered. -/

namespace RagPlatform

open Lib

/-- A plain answer is metered unless one of its markers cannot be read; a streamed one, unless the
client leaves between the first event of the model and `done`. -/
theorem answers_metered_iff {env : Surroundings} {svc : AnswerService} {tenantId : Uuid}
    {p : PreparedAnswer} {w : World} :
    (∀ result, Generates env w (svc.prompt p) result →
      Records env w (svc.usageOf tenantId result.model result.usage) →
      (Metered w (Io.eval env (svc.complete tenantId p) w).1
        (svc.usageOf tenantId result.model result.usage) ↔ Readable result.text)) ∧
    ∀ deltas usage model n, Streams env w (svc.prompt p) (replyOf deltas usage model) →
      Records env w (svc.usageOf tenantId model usage) →
      (((∃ reply, ⟨.stream (svc.prompt p), reply⟩ ∈
          (Io.consume env n (answerStream svc tenantId (some p)) w).2.1) →
        Metered w (Io.consume env n (answerStream svc tenantId (some p)) w).1
          (svc.usageOf tenantId model usage)) ↔ n ≤ 1 ∨ deltas.length + 2 ≤ n) :=
  ⟨fun _ => complete_metered_iff, fun _ _ _ _ => stream_metered_iff⟩

namespace Sample

def answers : AnswerService where
  retrieval := ⟨.none, 50, 50, 60, 8⟩
  maxTokens := 1024
  priceIn := some 3
  priceOut := some 15

def question : PreparedAnswer := prepared [] "What is it?".toList

def usage : LLMUsage := ⟨120, 7⟩

def model : Str := "claude".toList

/-- A model that answers every prompt with these texts. -/
def talking (texts : List Str) : Surroundings := fun _ _ =>
  { oracle with
    generate := fun _ => .ok ⟨texts.flatten, usage, model⟩
    stream := fun _ => .ok (replyOf texts usage model) }

theorem records (texts : List Str) :
    Records (talking texts) world (answers.usageOf tenantId model usage) := by
  change (world.insertUsage ((answers.usageOf tenantId model usage).row 0)).2 = _
  decide +kernel

end Sample

theorem answers_metered_sample :
    (Metered Sample.world (Io.eval (Sample.talking ["It is [1].".toList])
        (Sample.answers.complete Sample.tenantId Sample.question) Sample.world).1
        (Sample.answers.usageOf Sample.tenantId Sample.model Sample.usage) ↔
      Readable "It is [1].".toList) ∧
    (((∃ reply, ⟨.stream (Sample.answers.prompt Sample.question), reply⟩ ∈
        (Io.consume (Sample.talking ["It is [1].".toList]) 3
          (answerStream Sample.answers Sample.tenantId (some Sample.question)) Sample.world).2.1) →
      Metered Sample.world (Io.consume (Sample.talking ["It is [1].".toList]) 3
          (answerStream Sample.answers Sample.tenantId (some Sample.question)) Sample.world).1
        (Sample.answers.usageOf Sample.tenantId Sample.model Sample.usage)) ↔ 3 ≤ 1 ∨ 1 + 2 ≤ 3) :=
  ⟨answers_metered_iff.1 ⟨"It is [1].".toList, Sample.usage, Sample.model⟩ rfl (Sample.records _),
    answers_metered_iff.2 ["It is [1].".toList] Sample.usage Sample.model 3 rfl (Sample.records _)⟩

/-- The client leaves after the first words; and an answer with a marker of 4301 digits. -/
theorem unmetered_answers :
    (∀ texts, Records (Sample.talking texts) Sample.world
      (Sample.answers.usageOf Sample.tenantId Sample.model Sample.usage)) ∧
    ¬ ((∃ reply, ⟨.stream (Sample.answers.prompt Sample.question), reply⟩ ∈
        (Io.consume (Sample.talking ["It".toList, " is".toList]) 2
          (answerStream Sample.answers Sample.tenantId (some Sample.question)) Sample.world).2.1) →
      Metered Sample.world (Io.consume (Sample.talking ["It".toList, " is".toList]) 2
        (answerStream Sample.answers Sample.tenantId (some Sample.question)) Sample.world).1
        (Sample.answers.usageOf Sample.tenantId Sample.model Sample.usage)) ∧
    ¬ Metered Sample.world
      (Io.eval (Sample.talking ["[".toList, List.replicate 4301 '1', "]".toList])
        (Sample.answers.complete Sample.tenantId Sample.question) Sample.world).1
      (Sample.answers.usageOf Sample.tenantId Sample.model Sample.usage) := by
  refine ⟨Sample.records, fun h => ?_, fun h => ?_⟩
  · exact not_metered_self Sample.world _ (h ⟨_, List.mem_cons_self⟩)
  · have hlong : ¬ Readable ["[".toList, List.replicate 4301 '1', "]".toList].flatten := by
      intro h
      have hle := h (List.replicate 4301 '1') ⟨⟨[], [], rfl⟩,
        mt (List.replicate_eq_nil_iff _).mp (by decide), fun c hc => by
          rw [List.eq_of_mem_replicate hc]
          decide⟩
      rw [List.length_replicate] at hle
      exact absurd hle (by decide)
    have hgen : Generates (Sample.talking ["[".toList, List.replicate 4301 '1', "]".toList])
        Sample.world (Sample.answers.prompt Sample.question)
        ⟨["[".toList, List.replicate 4301 '1', "]".toList].flatten, Sample.usage, Sample.model⟩ := rfl
    rw [eval_complete_unreadable hgen hlong] at h
    exact not_metered_self Sample.world _ h

end RagPlatform
