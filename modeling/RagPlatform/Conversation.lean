import RagPlatform.Billing
import RagPlatform.Frontend.ChatLaws
import RagPlatform.Streaming

/-! An answer on its way from the model to the transcript of the page. -/

namespace RagPlatform

open Lib

structure Speech where
  citations : List Citation
  deltas : List Str
  model : Option Str
  usage : Option LLMUsage
  cost : Option Rat

namespace Speech

def events (t : Speech) : List ServerEvent :=
  .citations t.citations :: t.deltas.map .delta ++ [.answerDone t.model t.usage t.cost]

def reply (svc : AnswerService) (p : PreparedAnswer) (deltas : List Str) (usage : LLMUsage)
    (model : Str) : Speech :=
  ⟨p.citations, deltas, some model, some usage, svc.cost usage⟩

end Speech

section

variable {env : Surroundings} {svc : AnswerService} {tenantId : Uuid} {w : World}
  {p : PreparedAnswer} {usage : LLMUsage} {model : Str}

theorem told_events (deltas : List Str)
    (hrecords : Records env w (svc.usageOf tenantId model usage)) :
    Io.told env (svc.streamEvents tenantId (replyOf deltas usage model).events) w =
      deltas.map .delta ++ [.answerDone (some model) (some usage) (svc.cost usage)] ∧
    ∃ w', Io.eval env (svc.streamEvents tenantId (replyOf deltas usage model).events) w =
      (w', .ok ()) ∧ Metered w w' (svc.usageOf tenantId model usage) := by
  induction deltas with
  | nil =>
    obtain ⟨w', he, hm⟩ := hrecords.exec
    have hrecord : Io.eval env (AnswerService.recordUsage tenantId model usage (svc.cost usage)) w =
        (w', .ok ()) := he
    refine ⟨Io.told_bind_ok hrecord, w', ?_, hm⟩
    exact Io.eval_bind_ok hrecord
  | cons d deltas ih => exact ⟨congrArg (ServerEvent.delta d :: ·) ih.1, ih.2⟩

theorem told_reply {deltas : List Str}
    (hstream : Streams env w (svc.prompt p) (replyOf deltas usage model))
    (hrecords : Records env w (svc.usageOf tenantId model usage)) :
    Io.told env (answerStream svc tenantId (some p)) w =
        (Speech.reply svc p deltas usage model).events ∧
      ∃ w', Io.eval env (answerStream svc tenantId (some p)) w = (w', .ok ()) ∧
        Metered w w' (svc.usageOf tenantId model usage) := by
  obtain ⟨htold, w', heval, hm⟩ := told_events deltas hrecords
  have hreply : Io.eval env (perform (.stream (svc.prompt p))) w =
      (w, .ok (replyOf deltas usage model)) := hstream
  have hemit : Io.eval env (emit (.citations p.citations)) w = (w, .ok ()) := rfl
  constructor
  · refine (Io.told_bind_ok hemit).trans ?_
    rw [Io.told_bind_ok hreply, Io.told_bind_ok heval, htold]
    exact congrArg (ServerEvent.citations p.citations :: ·) (List.append_nil _)
  · refine ⟨w', (Io.eval_bind_ok hemit).trans ?_, hm⟩
    rw [Io.eval_bind_ok hreply, Io.eval_bind_ok heval]
    rfl

end

/-- The events under the names and with the payloads they go out with. -/
def ServerEvent.frame (e : ServerEvent) : SseEvent Json := ⟨e.name, e.payload⟩

def eventNames : List Str :=
  ["error".toList, "status".toList, "done".toList, "timeout".toList, "citations".toList,
    "delta".toList]

theorem ServerEvent.name_mem (e : ServerEvent) : e.name ∈ eventNames := by
  cases e with
  | error => exact .head _
  | status => exact .tail _ (.head _)
  | documentDone | answerDone => exact .tail _ (.tail _ (.head _))
  | timeout => exact .tail _ (.tail _ (.tail _ (.head _)))
  | citations => exact .tail _ (.tail _ (.tail _ (.tail _ (.head _))))
  | delta => exact .tail _ (.tail _ (.tail _ (.tail _ (.tail _ (.head _)))))

theorem ServerEvent.plainName (e : ServerEvent) : PlainName e.name := by
  have hplain : ∀ name ∈ eventNames, '\n' ∉ name ∧
      name.head?.all (!isJsSpace ·) = true ∧ name.getLast?.all (!isJsSpace ·) = true := by
    decide
  obtain ⟨hline, hfirst, hlast⟩ := hplain _ e.name_mem
  rw [Option.all_eq_true] at hfirst hlast
  exact ⟨hline, fun c hc => (Bool.not_eq_true' _).mp (hfirst c hc),
    fun c hc => (Bool.not_eq_true' _).mp (hlast c hc)⟩

def ChatMessage.hear (m : ChatMessage) : ServerEvent → ChatMessage
  | .citations cs => { m with citations := .arr (cs.map citationPayload) }
  | .delta text => { m with text := m.text ++ text }
  | .answerDone model usage _ =>
    { m with streaming := false, usage := .ofOption usagePayload usage, model := .ofOption .str model }
  | .documentDone _ => { m with streaming := false, usage := .null, model := .null }
  | .error _ | .status .. | .timeout .. => m

@[simp] theorem ChatMessage.hear_id (m : ChatMessage) (e : ServerEvent) : (m.hear e).id = m.id := by
  cases e <;> rfl

@[simp] theorem ChatMessage.hear_error (m : ChatMessage) (e : ServerEvent) :
    (m.hear e).error = m.error := by
  cases e <;> rfl

theorem ChatMessage.foldl_hear_error (m : ChatMessage) (events : List ServerEvent) :
    (events.foldl .hear m).error = m.error := by
  induction events generalizing m with
  | nil => rfl
  | cons e events ih => rw [List.foldl_cons, ih, hear_error]

theorem ChatMessage.foldl_hear_id (m : ChatMessage) (events : List ServerEvent) :
    (events.foldl .hear m).id = m.id := by
  induction events generalizing m with
  | nil => rfl
  | cons e events ih => rw [List.foldl_cons, ih, hear_id]

theorem arrived_eq_take {J : Type} (codec : JsonCodec J) (n : Nat) (events : List (SseEvent J)) :
    arrived codec n events = events.take (arrived codec n events).length := by
  induction events generalizing n with
  | nil => rfl
  | cons e events ih =>
    unfold arrived
    split
    · rw [List.length_cons, List.take_succ_cons, ← ih]
    · rfl

namespace Chat

/-- The page while the answer `m` is read. -/
def reading (old : List ChatMessage) (m : ChatMessage) (draft : Str) (nextId : Nat) : Chat where
  messages := old ++ [m]
  draft := draft
  busy := true
  nextId := nextId
  sending := some ⟨m.id, m.text, true⟩

variable {old : List ChatMessage} {m : ChatMessage} {draft : Str} {nextId : Nat}
  {numeral : Rat → Str} {stringify : Json → Str}

theorem patch_reading (hids : ((old ++ [m]).map (·.id)).Nodup)
    (update : ChatMessage → ChatMessage) : ((reading old m draft nextId).patch m.id update) =
      { reading old m draft nextId with messages := old ++ [update m] } := by
  have hlast : ((reading old m draft nextId).patch m.id update).messages = old ++ [update m] :=
    patch_last hids rfl rfl
  rw [← hlast]
  rfl

theorem step_event (hids : ((old ++ [m]).map (·.id)).Nodup) (e : ServerEvent) :
    (reading old m draft nextId).step numeral stringify (.event e.frame) =
      reading old (m.hear e) draft nextId := by
  have hstep : (reading old m draft nextId).step numeral stringify (.event e.frame) =
      (reading old m draft nextId).onEvent numeral ⟨m.id, m.text, true⟩ e.frame := rfl
  rw [hstep]
  cases e with
  | citations cs => exact patch_reading hids _
  | answerDone model usage cost =>
    cases model with
    | none =>
      cases usage with
      | none => exact patch_reading hids _
      | some usage => exact patch_reading hids _
    | some model =>
      cases usage with
      | none => exact patch_reading hids _
      | some usage => exact patch_reading hids _
  | documentDone status => exact patch_reading hids _
  | delta text =>
    have hpatch : (reading old m draft nextId).patch m.id
        (fun x => { x with text := m.text ++ text }) = _ := patch_reading hids _
    exact congrArg (fun c : Chat => { c with sending := some ⟨m.id, m.text ++ text, true⟩ }) hpatch
  | error | status | timeout => rfl

theorem run_events (hids : ((old ++ [m]).map (·.id)).Nodup) (events : List ServerEvent) :
    (reading old m draft nextId).run numeral stringify (events.map fun e => .event e.frame) =
      reading old (events.foldl .hear m) draft nextId := by
  induction events generalizing m with
  | nil => rfl
  | cons e events ih =>
    rw [List.map_cons, run, List.foldl_cons, step_event hids, List.foldl_cons]
    refine ih ?_
    rw [List.map_append, List.map_singleton] at hids ⊢
    rwa [ChatMessage.hear_id]

theorem step_ended (hids : ((old ++ [m]).map (·.id)).Nodup) (closed : Bool) :
    (reading old m draft nextId).step numeral stringify
        (.ended (if closed then .done else .readFailed)) =
      { messages := old ++ [{ m with
          streaming := false
          error := if closed then m.error else some requestFailed }]
        draft := draft
        busy := false
        nextId := nextId } := by
  cases closed with
  | true => exact congrArg release (patch_reading hids _)
  | false => exact congrArg release (patch_reading hids _)

variable {c : Chat} {codec : JsonCodec Json} {portable : Json → Prop}

theorem run_question (hcodec : codec.Faithful portable) (hc : c.Sound) (hidle : c.sending = none)
    {question : Str} (hq : jsTrim question ≠ []) {events : List ServerEvent}
    (hportable : ∀ e ∈ events, portable e.payload) {res : FetchedResponse}
    (hstatus : res.response.status = 200) {reads : List Bytes} {closed : Bool}
    (hbody : res.response.body = some ⟨reads, closed⟩) {n : Nat}
    (hreads : reads.flatten = (wire codec (events.map ServerEvent.frame)).take n) :
    c.run numeral stringify (.send question :: receiving codec res) =
      { messages := c.messages ++ [c.questionMessage (jsTrim question),
          { (events.take (arrived codec n (events.map ServerEvent.frame)).length).foldl .hear
              c.answerMessage with
            streaming := false
            error := if closed then none else some requestFailed }]
        draft := []
        busy := false
        nextId := c.nextId + 2 } := by
  obtain ⟨⟨status, body⟩, statusText, json⟩ := res
  obtain rfl : status = 200 := hstatus
  obtain rfl : body = some ⟨reads, closed⟩ := hbody
  have hread := sseEvents_heard hcodec (events.map ServerEvent.frame) (fun e he => by
    obtain ⟨event, hevent, rfl⟩ := List.mem_map.mp he
    exact ⟨event.plainName, hportable event hevent⟩) n 200 closed hreads
  obtain ⟨k, hk, harrived⟩ : ∃ k, (arrived codec n (events.map ServerEvent.frame)).length = k ∧
      arrived codec n (events.map ServerEvent.frame) = (events.take k).map ServerEvent.frame :=
    ⟨_, rfl, by rw [List.map_take]; exact arrived_eq_take codec n _⟩
  rw [harrived] at hread
  have hsend : c.send question = c.ask (jsTrim question) := by
    have hfree : c.busy = false := by
      rw [hc.busy, hidle]
      rfl
    rw [send, if_neg (by simp [hq, hfree])]
  have hids : ((c.messages ++ [c.questionMessage (jsTrim question)] ++ [c.answerMessage]).map
      (·.id)).Nodup := by
    have hsound := (hc.change (.asked (q := jsTrim question) (by rw [hc.busy, hidle]; rfl))).1.ids
    rwa [ask, ← List.singleton_append, ← List.append_assoc] at hsound
  have hstart : (c.ask (jsTrim question)).step numeral stringify
      (.fetched (some ⟨⟨200, some ⟨reads, closed⟩⟩, statusText, json⟩)) =
        reading (c.messages ++ [c.questionMessage (jsTrim question)]) c.answerMessage []
          (c.nextId + 2) := by
    rw [reading, List.append_assoc]
    rfl
  have hids' : ((c.messages ++ [c.questionMessage (jsTrim question)] ++
      [(events.take k).foldl .hear c.answerMessage]).map (·.id)).Nodup := by
    rw [List.map_append, List.map_singleton] at hids ⊢
    rwa [ChatMessage.foldl_hear_id]
  have hrun : c.run numeral stringify (.send question ::
      receiving codec ⟨⟨200, some ⟨reads, closed⟩⟩, statusText, json⟩) =
        ((reading (c.messages ++ [c.questionMessage (jsTrim question)]) c.answerMessage []
          (c.nextId + 2)).run numeral stringify
            ((events.take k).map fun e => .event e.frame)).step numeral stringify
              (.ended (if closed then .done else .readFailed)) := by
    rw [run, List.foldl_cons, step, hsend, receiving, hread, List.cons_append, List.foldl_cons,
      hstart, List.foldl_append, List.map_map]
    rfl
  rw [hrun, run_events hids, step_ended hids', hk, ChatMessage.foldl_hear_error, List.append_assoc]
  rfl

end Chat

namespace Speech

variable (t : Speech)

/-- The message of which `k` events have been read. -/
def shown (m : ChatMessage) (k : Nat) (closed : Bool) : ChatMessage where
  id := m.id
  role := m.role
  text := (t.deltas.take (k - 1)).flatten
  citations := if k = 0 then .arr [] else .arr (t.citations.map citationPayload)
  usage := if k = t.deltas.length + 2 then .ofOption usagePayload t.usage else .null
  model := if k = t.deltas.length + 2 then .ofOption .str t.model else .null
  streaming := false
  error := if closed then none else some requestFailed

theorem length_events : t.events.length = t.deltas.length + 2 := by
  simp [events]

theorem hear_deltas (m : ChatMessage) (deltas : List Str) :
    (deltas.map ServerEvent.delta).foldl .hear m = { m with text := m.text ++ deltas.flatten } := by
  induction deltas generalizing m with
  | nil => simp
  | cons d deltas ih => simp [ih, ChatMessage.hear]

theorem heard (c : Chat) {k : Nat} (hk : k ≤ t.deltas.length + 2) (closed : Bool) :
    { (t.events.take k).foldl .hear c.answerMessage with
        streaming := false
        error := if closed then none else some requestFailed } =
      t.shown c.answerMessage k closed := by
  cases k with
  | zero => simp [shown, Chat.answerMessage]
  | succ k =>
    rw [events, List.cons_append, List.take_succ_cons, List.foldl_cons]
    set done := ServerEvent.answerDone t.model t.usage t.cost with hdone
    by_cases hlast : k = t.deltas.length + 1
    · have hall : (t.deltas.map ServerEvent.delta ++ [done]).take k =
          t.deltas.map ServerEvent.delta ++ [done] := List.take_of_length_le (by simp [hlast])
      rw [hall, List.foldl_append, hear_deltas, hdone]
      simp [shown, hlast, ChatMessage.hear, Chat.answerMessage,
        List.take_of_length_le (Nat.le_succ t.deltas.length)]
    · have hsome : (t.deltas.map ServerEvent.delta ++ [done]).take k =
          (t.deltas.take k).map ServerEvent.delta := by
        rw [List.take_append_of_le_length (by rw [List.length_map]; omega), List.map_take]
      rw [hsome, hear_deltas]
      simp [shown, hlast, ChatMessage.hear, Chat.answerMessage]

variable {codec : JsonCodec Json} {portable : Json → Prop}

theorem arrived_le (codec : JsonCodec Json) (n : Nat) :
    (arrived codec n (t.events.map ServerEvent.frame)).length ≤ t.deltas.length + 2 := by
  rw [arrived_eq_take, List.length_take, List.length_map, length_events]
  exact Nat.min_le_right _ _

/-- A whole question and the answer `t`, of which so many bytes arrive. -/
theorem run_question {c : Chat} {numeral : Rat → Str} {stringify : Json → Str}
    (hcodec : codec.Faithful portable) (hc : c.Sound) (hidle : c.sending = none) {question : Str}
    (hq : jsTrim question ≠ []) (hportable : ∀ e ∈ t.events, portable e.payload) {res : FetchedResponse}
    (hstatus : res.response.status = 200) {reads : List Bytes} {closed : Bool}
    (hbody : res.response.body = some ⟨reads, closed⟩) {n : Nat}
    (hreads : reads.flatten = (wire codec (t.events.map ServerEvent.frame)).take n) :
    c.run numeral stringify (.send question :: receiving codec res) =
      { messages := c.messages ++ [c.questionMessage (jsTrim question),
          t.shown c.answerMessage (arrived codec n (t.events.map ServerEvent.frame)).length closed]
        draft := []
        busy := false
        nextId := c.nextId + 2 } := by
  rw [Chat.run_question hcodec hc hidle hq hportable hstatus hbody hreads,
    t.heard c (t.arrived_le codec n)]

end Speech

section

variable {env : Surroundings} {svc : AnswerService} {tenantId : Uuid} {w : World}
  {usage : LLMUsage} {model : Str} {deltas : List Str} {codec : JsonCodec Json}
  {portable : Json → Prop} {c : Chat} {question : Str} {res : FetchedResponse} {reads : List Bytes}
  {closed : Bool} {n : Nat} {numeral : Rat → Str} {stringify : Json → Str}

theorem cited_iff {chunks : List RetrievedChunk} {query text : Str} {cited : List Citation}
    (h : Cites chunks text cited) :
    (∀ a ∈ (prepared chunks query).citations, a ∈ cited ↔
      ∃ digits, Marked text digits ∧ number digits = a.marker) ∧
    ∀ a ∈ cited, a ∈ (prepared chunks query).citations := by
  obtain ⟨-, hmarkers, hchunks⟩ := h
  have hprepared (a : Citation) : a ∈ (prepared chunks query).citations ↔
      1 ≤ a.marker ∧ ∃ chunk, chunks[a.marker - 1]? = some chunk ∧ a = citation chunk a.marker := by
    simp only [prepared, List.mem_map, Prod.exists, List.mk_mem_zipIdx_iff_le_and_getElem?_sub]
    constructor
    · rintro ⟨chunk, i, ⟨hi, hchunk⟩, rfl⟩
      exact ⟨hi, chunk, hchunk, rfl⟩
    · rintro ⟨hi, chunk, hchunk, ha⟩
      exact ⟨chunk, a.marker, ⟨hi, hchunk⟩, ha.symm⟩
  have hmarker {a : Citation} (ha : a ∈ cited) :
      (1 ≤ a.marker ∧ a.marker ≤ chunks.length) ∧
        ∃ digits, Marked text digits ∧ number digits = a.marker :=
    (hmarkers a.marker).mp (List.mem_map_of_mem ha)
  refine ⟨fun a ha => ⟨fun hcited => (hmarker hcited).2, fun hdigits => ?_⟩, fun a ha => ?_⟩
  · obtain ⟨hi, chunk, hchunk, heq⟩ := (hprepared a).mp ha
    have hlt := (List.getElem?_eq_some_iff.mp hchunk).1
    obtain ⟨b, hb, hba⟩ := List.mem_map.mp
      ((hmarkers a.marker).mpr ⟨⟨hi, by omega⟩, hdigits⟩)
    obtain ⟨chunk', hchunk', hb'⟩ := hchunks b hb
    rw [hba, hchunk, Option.some.injEq] at hchunk'
    rw [heq, hchunk', ← hba, ← hb']
    exact hb
  · obtain ⟨chunk, hchunk, heq⟩ := hchunks a ha
    exact (hprepared a).mpr ⟨(hmarker ha).1.1, chunk, hchunk, heq⟩

/-- Streamed to the end, an answer is what the plain endpoint would have answered: the same text,
model, counts and row; of the sources on show, the plain answer has those the text refers to. -/
theorem stream_agrees {chunks : List RetrievedChunk} {query : Str}
    (hcodec : codec.Faithful portable)
    (hgen : Generates env w (svc.prompt (prepared chunks query)) ⟨deltas.flatten, usage, model⟩)
    (hstream : Streams env w (svc.prompt (prepared chunks query)) (replyOf deltas usage model))
    (hrecords : Records env w (svc.usageOf tenantId model usage))
    (hreadable : Readable deltas.flatten)
    (hportable : ∀ e ∈ Io.told env (answerStream svc tenantId (some (prepared chunks query))) w,
      portable e.payload)
    (hc : c.Sound) (hidle : c.sending = none) (hq : jsTrim question ≠ [])
    (hstatus : res.response.status = 200) (hbody : res.response.body = some ⟨reads, true⟩)
    (hreads : reads.flatten = wire codec ((Io.told env
      (answerStream svc tenantId (some (prepared chunks query))) w).map ServerEvent.frame)) :
    ∃ r w₁ w₂ m,
      Io.eval env (plainAnswer svc tenantId (some (prepared chunks query))) w = (w₁, .ok r) ∧
      Io.eval env (answerStream svc tenantId (some (prepared chunks query))) w = (w₂, .ok ()) ∧
      Metered w w₁ (svc.usageOf tenantId model usage) ∧
      Metered w w₂ (svc.usageOf tenantId model usage) ∧
      (c.run numeral stringify (.send question :: receiving codec res)).messages =
        c.messages ++ [c.questionMessage (jsTrim question), m] ∧
      m.error = none ∧ m.text = r.answer ∧ m.model = .ofOption .str r.model ∧
      m.usage = .ofOption usagePayload r.usage ∧
      m.citations = .arr ((prepared chunks query).citations.map citationPayload) ∧
      (∀ a ∈ (prepared chunks query).citations, a ∈ r.citations ↔
        ∃ digits, Marked m.text digits ∧ number digits = a.marker) ∧
      ∀ a ∈ r.citations, a ∈ (prepared chunks query).citations := by
  obtain ⟨cited, hcited, hcites⟩ := citedOnly_prepared chunks query hreadable
  obtain ⟨w₁, hplain, hmetered₁⟩ := eval_complete hgen hcited hrecords
  obtain ⟨htold, w₂, hstreamed, hmetered₂⟩ := told_reply hstream hrecords
  rw [htold] at hportable hreads
  set t := Speech.reply svc (prepared chunks query) deltas usage model with ht
  have hall : (arrived codec (wire codec (t.events.map ServerEvent.frame)).length
      (t.events.map ServerEvent.frame)).length = deltas.length + 2 := by
    rw [arrived_all le_rfl, List.length_map]
    exact t.length_events
  have hrun : c.run numeral stringify (.send question :: receiving codec res) = _ :=
    t.run_question hcodec hc hidle hq hportable hstatus hbody
      (by rw [List.take_length]; exact hreads)
  rw [hall] at hrun
  have htext : (t.shown c.answerMessage (deltas.length + 2) true).text = deltas.flatten := by
    simp [ht, Speech.shown, Speech.reply, List.take_of_length_le (Nat.le_succ deltas.length)]
  refine ⟨_, w₁, w₂, _, hplain, hstreamed, hmetered₁, hmetered₂, by rw [hrun], rfl, htext, ?_, ?_,
    ?_, ?_, (cited_iff hcites).2⟩
  · simp [ht, Speech.shown, Speech.reply]
  · simp [ht, Speech.shown, Speech.reply]
  · simp [ht, Speech.shown, Speech.reply]
  · rw [htext]
    exact (cited_iff hcites).1

end

namespace Sample

mutual

def dumps : Json → Str
  | .null => "null".toList
  | .bool b => (if b then "true" else "false").toList
  | .num q => (toString q.num).toList
  | .str s => '"' :: s ++ ['"']
  | .arr items => '[' :: Str.join ", ".toList (dumpItems items) ++ [']']
  | .obj fields => '{' :: Str.join ", ".toList (dumpFields fields) ++ ['}']

def dumpItems : List Json → List Str
  | [] => []
  | item :: items => dumps item :: dumpItems items

def dumpFields : List (Str × Json) → List Str
  | [] => []
  | (key, value) :: fields => ('"' :: key ++ "\": ".toList ++ dumps value) :: dumpFields fields

end

def unpriced : AnswerService := { answers with priceIn := none, priceOut := none }

def seine : RetrievedChunk where
  chunkId := 1
  documentId := documentId
  filename := "atlas.md".toList
  chunkIndex := 0
  content := "The Seine.".toList
  metadata := {}
  scores := []

def asked : PreparedAnswer := prepared [seine] "In Paris?".toList

def said : List Str := ["The Seine".toList, " [1].".toList]

def payloads : List Json := (Speech.reply unpriced asked said usage model).events.map (·.payload)

def payloadJson : JsonCodec Json where
  dumps := dumps
  parse s := payloads.find? fun payload => dumps payload = s

theorem find_dumps {payload : Json} {l : List Json} (hl : (l.map dumps).Nodup) (h : payload ∈ l) :
    l.find? (fun j => dumps j = dumps payload) = some payload := by
  induction l with
  | nil => cases h
  | cons j l ih =>
    rw [List.map_cons, List.nodup_cons] at hl
    rw [List.find?_cons]
    rcases List.mem_cons.mp h with rfl | h
    · rw [decide_eq_true rfl]
    · have hother : dumps j ≠ dumps payload := fun he =>
        hl.1 (List.mem_map.mpr ⟨payload, h, he.symm⟩)
      rw [decide_eq_false hother, ih hl.2 h]

theorem payloadJson_faithful : payloadJson.Faithful (· ∈ payloads) where
  inverts _ h := find_dumps (by decide +kernel) h
  ascii payload h := by
    have hall : (payloads.map dumps).all (fun s => s.all fun c => c.toNat < 0x80) = true := by
      decide +kernel
    have hpayload := List.all_eq_true.mp hall _ (List.mem_map_of_mem h)
    exact fun c hc => of_decide_eq_true (List.all_eq_true.mp hpayload c hc)
  oneLine payload h := by
    have hall : ∀ s ∈ payloads.map dumps, '\n' ∉ s := by decide +kernel
    exact hall _ (List.mem_map_of_mem h)

theorem records_unpriced :
    Records (talking said) world (unpriced.usageOf tenantId model usage) := by
  change (world.insertUsage ((unpriced.usageOf tenantId model usage).row 0)).2 = _
  decide +kernel

theorem portable_said (e : ServerEvent)
    (he : e ∈ Io.told (talking said) (answerStream unpriced tenantId (some asked)) world) :
    e.payload ∈ payloads :=
  List.mem_map_of_mem he

def whatIsIt : Str := "In Paris? ".toList

theorem readable_said : Readable said.flatten := by
  have h : ∀ m ∈ findMarkers none said.flatten, m.length ≤ 4300 := by decide +kernel
  exact fun digits hd => h digits (mem_markers.mpr hd)

def saidWire : Bytes := wire payloadJson
  ((Io.told (talking said) (answerStream unpriced tenantId (some asked)) world).map ServerEvent.frame)

/-- The connection breaks within the third event. -/
def brokenOff : FetchedResponse :=
  ⟨⟨200, some ⟨[saidWire.take 9, (saidWire.take 260).drop 9], false⟩⟩, [], none⟩

def wholeAnswer : FetchedResponse := ⟨⟨200, some ⟨[saidWire.take 70, saidWire.drop 70], true⟩⟩, [], none⟩

theorem stream_agrees_wholeAnswer : ∃ r w₁ w₂ m,
    Io.eval (talking said) (plainAnswer unpriced tenantId (some asked)) world = (w₁, .ok r) ∧
      Io.eval (talking said) (answerStream unpriced tenantId (some asked)) world = (w₂, .ok ()) ∧
      (({} : Chat).run (fun _ => []) (fun _ => [])
        (.send whatIsIt :: receiving payloadJson wholeAnswer)).messages =
          [({} : Chat).questionMessage (jsTrim whatIsIt), m] ∧ m.text = r.answer ∧
      ∀ a ∈ asked.citations, a ∈ r.citations ↔
        ∃ digits, Marked m.text digits ∧ number digits = a.marker := by
  have hgen : Generates (talking said) world (unpriced.prompt (prepared [seine] "In Paris?".toList))
    ⟨said.flatten, usage, model⟩ := rfl
  have hreads : [saidWire.take 70, saidWire.drop 70].flatten = saidWire := by simp
  obtain ⟨r, w₁, w₂, m, hplain, hstreamed, -, -, hmessages, -, htext, -, -, -, hcited, -⟩ :=
    stream_agrees payloadJson_faithful hgen rfl records_unpriced readable_said portable_said
      Chat.sound_empty rfl (show jsTrim whatIsIt ≠ [] by decide)
      (show wholeAnswer.response.status = 200 from rfl) rfl hreads
  exact ⟨r, w₁, w₂, m, hplain, hstreamed, hmessages, htext, hcited⟩

example : (({} : Chat).run (fun _ => []) (fun _ => [])
    (.send whatIsIt :: receiving payloadJson brokenOff)).messages.map (fun m => String.ofList m.text) =
      ["In Paris?", "The Seine"] := by
  decide +kernel

end Sample

end RagPlatform
