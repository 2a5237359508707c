import RagPlatform.Api.Answers
import RagPlatform.Services.Markers
import RagPlatform.Surroundings

/-! What an answer is metered as, and what its markers refer to. -/

namespace RagPlatform

open Lib

section

variable {env : Surroundings} {svc : AnswerService} {tenantId : Uuid} {w w' : World}
variable {p : PreparedAnswer} {result : LLMResult} {u : NewUsage}

def Generates (env : Surroundings) (w : World) (prompt : Prompt) (result : LLMResult) : Prop :=
  exec (env (.generate prompt) w) (.generate prompt) w = (w, .ok result)

def Streams (env : Surroundings) (w : World) (prompt : Prompt) (reply : StreamReply) : Prop :=
  exec (env (.stream prompt) w) (.stream prompt) w = (w, .ok reply)

def Records (env : Surroundings) (w : World) (u : NewUsage) : Prop :=
  (exec (env (.insertUsage u) w) (.insertUsage u) w).2 = .ok ()

def Metered (w w' : World) (u : NewUsage) : Prop :=
  ∃ createdAt, w'.usageRecords = w.usageRecords ++ [u.row createdAt]

def AnswerService.usageOf (svc : AnswerService) (tenantId : Uuid) (model : Str) (usage : LLMUsage) :
    NewUsage where
  tenantId := tenantId
  operation := "answer".toList
  model := model
  inputTokens := usage.inputTokens
  outputTokens := usage.outputTokens
  costUsd := (svc.cost usage).map AnswerService.roundCost

theorem not_metered_self (w : World) (u : NewUsage) : ¬ Metered w w u := by
  rintro ⟨createdAt, h⟩
  simp at h

theorem Records.exec (h : Records env w u) :
    ∃ w', exec (env (.insertUsage u) w) (.insertUsage u) w = (w', .ok ()) ∧ Metered w w' u := by
  unfold Records at h
  rcases exec_cases (env (.insertUsage u) w) (.insertUsage u) w with he | ⟨name, hname, -⟩
  · rw [he] at h ⊢
    refine ⟨_, Prod.ext rfl h, (env (.insertUsage u) w).now, ?_⟩
    simp only [serve, World.insertUsage] at h ⊢
    split at h
    · cases h
    · next hs =>
      split at h
      · next ht => rw [if_neg hs, if_pos ht]
      · cases h
  · rw [hname] at h
    cases h

theorem eval_generate (h : Generates env w (svc.prompt p) result) :
    Io.eval env (perform (.generate (svc.prompt p))) w = (w, .ok result) := h

theorem eval_complete {cited : List Citation} (hgen : Generates env w (svc.prompt p) result)
    (hcited : citedOnly result.text p.citations = .ok cited)
    (hrecords : Records env w (svc.usageOf tenantId result.model result.usage)) :
    ∃ w', Io.eval env (svc.complete tenantId p) w = (w', .ok
        ⟨result.text, cited, some result.model, some result.usage, svc.cost result.usage⟩) ∧
      Metered w w' (svc.usageOf tenantId result.model result.usage) := by
  obtain ⟨w', he, hm⟩ := hrecords.exec
  have hrecord : Io.eval env (AnswerService.recordUsage tenantId result.model result.usage
      (svc.cost result.usage)) w = (w', .ok ()) := he
  refine ⟨w', ?_, hm⟩
  unfold AnswerService.complete
  rw [Io.eval_bind_ok (eval_generate hgen), hcited, Io.eval_bind_ok (Io.eval_ofExcept _),
    Io.eval_bind_ok hrecord]
  rfl

theorem eval_complete_unreadable (hgen : Generates env w (svc.prompt p) result)
    (h : ¬ Readable result.text) :
    Io.eval env (svc.complete tenantId p) w = (w, .error .value) := by
  unfold AnswerService.complete
  rw [Io.eval_bind_ok (eval_generate hgen), citedOnly_error p.citations h]
  exact Io.eval_bind_error (Io.eval_ofExcept _)

theorem eval_complete_unrecorded {cited : List Citation}
    (hgen : Generates env w (svc.prompt p) result)
    (hcited : citedOnly result.text p.citations = .ok cited)
    (h : ¬ Records env w (svc.usageOf tenantId result.model result.usage)) :
    ∃ w' e, Io.eval env (svc.complete tenantId p) w = (w', .error e) := by
  rcases hx : Io.eval env (AnswerService.recordUsage tenantId result.model result.usage
    (svc.cost result.usage)) w with ⟨w', e | ⟨⟩⟩
  · refine ⟨w', e, ?_⟩
    unfold AnswerService.complete
    rw [Io.eval_bind_ok (eval_generate hgen), hcited, Io.eval_bind_ok (Io.eval_ofExcept _)]
    exact Io.eval_bind_error hx
  · exact absurd (congrArg Prod.snd hx) h

theorem complete_metered_iff (hgen : Generates env w (svc.prompt p) result)
    (hrecords : Records env w (svc.usageOf tenantId result.model result.usage)) :
    Metered w (Io.eval env (svc.complete tenantId p) w).1
        (svc.usageOf tenantId result.model result.usage) ↔ Readable result.text := by
  constructor
  · intro hm
    by_contra hr
    rw [eval_complete_unreadable hgen hr] at hm
    exact not_metered_self w _ hm
  · intro hr
    obtain ⟨cited, hcited⟩ := citedOnly_ok p.citations hr
    obtain ⟨w', he, hm⟩ := eval_complete hgen hcited hrecords
    rw [he]
    exact hm

variable {usage : LLMUsage} {model : Str}

/-- The reply to a prompt: pieces of text, then what they cost. -/
def replyOf (deltas : List Str) (usage : LLMUsage) (model : Str) : StreamReply where
  events := deltas.map .textDelta ++ [.streamEnd usage model]

/-- The row is written between the last piece of text and `done`. -/
theorem consume_events (deltas : List Str) (n : Nat)
    (hrecords : Records env w (svc.usageOf tenantId model usage)) :
    if deltas.length ≤ n then
      Metered w (Io.consume env (n + 1)
        (svc.streamEvents tenantId (replyOf deltas usage model).events >>= pure) w).1
        (svc.usageOf tenantId model usage)
    else (Io.consume env (n + 1)
        (svc.streamEvents tenantId (replyOf deltas usage model).events >>= pure) w).1 = w := by
  rw [bind_pure]
  induction deltas generalizing n with
  | nil =>
    obtain ⟨w', he, hm⟩ := hrecords.exec
    rw [if_pos (show ([] : List Str).length ≤ n from Nat.zero_le n)]
    change Metered w (Io.consume env (n + 1)
      (perform (.insertUsage (svc.usageOf tenantId model usage)) >>= fun _ =>
        emit (.answerDone (some model) (some usage) (svc.cost usage)) >>= pure) w).1 _
    rw [Io.consume_perform n _ he, Io.consume_emit]
    cases n with
    | zero => exact hm
    | succ n => exact hm
  | cons d deltas ih =>
    have hrun : Io.consume env (n + 1)
        (svc.streamEvents tenantId (replyOf (d :: deltas) usage model).events) w =
        Io.consume env n (svc.streamEvents tenantId (replyOf deltas usage model).events) w := rfl
    rw [hrun]
    cases n with
    | zero =>
      simp
    | succ n =>
      simp only [List.length_cons, Nat.add_le_add_iff_right]
      exact ih n

theorem consume_answerStream {deltas : List Str}
    (hstream : Streams env w (svc.prompt p) (replyOf deltas usage model)) (n : Nat) :
    Io.consume env (n + 2) (answerStream svc tenantId (some p)) w =
      let told := Io.consume env (n + 1)
        (svc.streamEvents tenantId (replyOf deltas usage model).events >>= pure) w
      (told.1, ⟨.stream (svc.prompt p), .ok (replyOf deltas usage model)⟩ :: told.2.1,
        told.2.2) := by
  change (Async.await (Call.stream (svc.prompt p)) _).consume env.handler (n + 1) w = _
  simp only [Streams] at hstream
  simp only [Async.consume, Surroundings.handler, hstream]
  rfl

theorem stream_metered_iff {deltas : List Str} {n : Nat}
    (hstream : Streams env w (svc.prompt p) (replyOf deltas usage model))
    (hrecords : Records env w (svc.usageOf tenantId model usage)) :
    ((∃ reply, ⟨.stream (svc.prompt p), reply⟩ ∈
        (Io.consume env n (answerStream svc tenantId (some p)) w).2.1) →
      Metered w (Io.consume env n (answerStream svc tenantId (some p)) w).1
        (svc.usageOf tenantId model usage)) ↔ n ≤ 1 ∨ deltas.length + 2 ≤ n := by
  rcases n with _ | _ | n
  · simp
  · have hone : Io.consume env 1 (answerStream svc tenantId (some p)) w = (w, [], none) := rfl
    simp [hone]
  · rw [consume_answerStream hstream n]
    have h := consume_events deltas n hrecords
    have hcall : n + 2 ≤ 1 ∨ deltas.length + 2 ≤ n + 2 ↔ deltas.length ≤ n := by omega
    rw [hcall]
    constructor
    · intro hm
      by_contra hn
      rw [if_neg hn] at h
      refine not_metered_self w _ (h ▸ hm ⟨_, List.mem_cons_self⟩)
    · intro hn _
      rw [if_pos hn] at h
      exact h

end

end RagPlatform
