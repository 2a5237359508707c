import RagPlatform.Frontend.ApiLaws
import RagPlatform.Lib.TextDecoderLaws

/-! What the server streams is what the browser reads. -/

namespace RagPlatform

open Lib

structure PlainName (name : Str) : Prop where
  oneLine : '\n' ∉ name
  first : ∀ c ∈ name.head?, isJsSpace c = false
  last : ∀ c ∈ name.getLast?, isJsSpace c = false

section Framing

variable {J : Type} (codec : JsonCodec J)

def frameOf (e : SseEvent J) : Str := sseEncode codec e.event e.data

def wire (events : List (SseEvent J)) : Bytes := utf8Encode (events.flatMap (frameOf codec))

/-- The events whose frames end within the first `n` bytes. -/
def arrived : Nat → List (SseEvent J) → List (SseEvent J)
  | _, [] => []
  | n, e :: events =>
    if (utf8Encode (frameOf codec e)).length ≤ n then
      e :: arrived (n - (utf8Encode (frameOf codec e)).length) events
    else []

theorem PlainName.jsTrim {name : Str} (h : PlainName name) : jsTrim name = name := by
  rw [RagPlatform.jsTrim, Str.dropWhile_of_head h.first, Str.dropWhile_of_head, List.reverse_reverse]
  simpa using h.last

def eventLine (e : SseEvent J) : Str := "event: ".toList ++ e.event

def dataLine (e : SseEvent J) : Str := "data: ".toList ++ codec.dumps e.data

theorem event_toList : "event: ".toList = ['e', 'v', 'e', 'n', 't', ':', ' '] := by decide

theorem data_toList : "data: ".toList = ['d', 'a', 't', 'a', ':', ' '] := by decide

def frameBody (e : SseEvent J) : Str := eventLine e ++ '\n' :: dataLine codec e

theorem frameOf_eq (e : SseEvent J) : frameOf codec e = frameBody codec e ++ ['\n', '\n'] := by
  have hdata : "\ndata: ".toList = '\n' :: "data: ".toList := by decide
  have hblank : "\n\n".toList = ['\n', '\n'] := by decide
  unfold frameOf sseEncode frameBody eventLine dataLine
  simp only [hdata, hblank, List.append_assoc, List.cons_append]

variable {codec} {portable : J → Prop} (h : codec.Faithful portable) {e : SseEvent J}
  (hname : PlainName e.event) (hdata : portable e.data)

include hname in
theorem eventLine_oneLine : '\n' ∉ eventLine e := by
  have hprefix : '\n' ∉ "event: ".toList := by simp [event_toList]
  exact fun hmem => (List.mem_append.mp hmem).elim hprefix hname.oneLine

include h hdata in
theorem dataLine_oneLine : '\n' ∉ dataLine codec e := by
  have hprefix : '\n' ∉ "data: ".toList := by simp [data_toList]
  exact fun hmem => (List.mem_append.mp hmem).elim hprefix (h.oneLine _ hdata)

include h hname hdata

theorem cutFrame_frameBody (s : Str) :
    cutFrame (frameBody codec e ++ '\n' :: s) =
      (cutFrame ('\n' :: s)).map fun cut => (frameBody codec e ++ cut.1, cut.2) := by
  have hhead : ¬ ('\n' = '\n' ∧ (dataLine codec e ++ '\n' :: s).head? = some '\n') := by
    rintro ⟨-, hhead⟩
    unfold dataLine at hhead
    simp [data_toList] at hhead
  rw [frameBody, List.append_assoc, List.cons_append, cutFrame_line (eventLine_oneLine hname),
    cutFrame_cons hhead, cutFrame_line (dataLine_oneLine h hdata), Option.map_map, Option.map_map]
  simp only [Function.comp_def, List.append_assoc, List.cons_append]

theorem cutFrame_frameOf (rest : Str) :
    cutFrame (frameOf codec e ++ rest) = some (frameBody codec e, rest) := by
  rw [frameOf_eq, List.append_assoc]
  have hcut := cutFrame_frameBody h hname hdata ('\n' :: rest)
  rw [cutFrame_blank, Option.map_some, List.append_nil] at hcut
  exact hcut

theorem cutFrame_part {heard lost : Str} (hlost : lost ≠ [])
    (hframe : frameOf codec e = heard ++ lost) : cutFrame heard = none := by
  obtain ⟨lost, c, rfl⟩ := (List.eq_nil_or_concat' lost).resolve_left hlost
  have hbody : frameBody codec e ++ ['\n'] = heard ++ lost := by
    have hsplit : (frameBody codec e ++ ['\n']) ++ ['\n'] = (heard ++ lost) ++ [c] := by
      simpa [frameOf_eq] using hframe
    exact (List.append_inj' hsplit rfl).1
  have hnone : cutFrame (frameBody codec e ++ ['\n']) = none := by
    rw [cutFrame_frameBody h hname hdata, cutFrame_singleton, Option.map_none]
  exact cutFrame_of_append (hbody ▸ hnone)

theorem fieldsOf_frameBody :
    fieldsOf (frameBody codec e) = ⟨e.event, [codec.dumps e.data]⟩ := by
  rw [fieldsOf, frameBody, List.splitOn_append_cons_self_of_not_mem (eventLine_oneLine hname),
    List.splitOn_eq_singleton (dataLine_oneLine h hdata), List.foldl_cons, List.foldl_cons,
    List.foldl_nil]
  have hevent : (SseFields.mk "message".toList []).read (eventLine e) = ⟨e.event, []⟩ := by
    have hpre : "event: ".toList <+: eventLine e := List.prefix_append _ _
    have hdrop : (eventLine e).drop 7 = e.event := by
      unfold eventLine
      simp [event_toList]
    unfold SseFields.read
    rw [if_pos hpre, hdrop, hname.jsTrim]
  have hother : ¬ "event: ".toList <+: dataLine codec e := by
    unfold dataLine
    simp [event_toList, data_toList]
  have hpre : "data: ".toList <+: dataLine codec e := List.prefix_append _ _
  have hdrop : (dataLine codec e).drop 6 = codec.dumps e.data := by
    unfold dataLine
    simp [data_toList]
  rw [hevent]
  unfold SseFields.read
  rw [if_neg hother, if_pos hpre, hdrop, List.nil_append]

theorem drain_frameOf (rest : Str) :
    drain codec (frameOf codec e ++ rest) = (e :: (drain codec rest).1, (drain codec rest).2) := by
  have hjoin : Str.join "\n".toList [codec.dumps e.data] = codec.dumps e.data := by
    simp [Str.join, List.intercalate]
  rw [drain_of_cut codec (cutFrame_frameOf h hname hdata rest), fieldsOf_frameBody h hname hdata,
    if_neg (List.cons_ne_nil _ _), hjoin, h.inverts _ hdata]

omit hname hdata

open Utf8Decoder (transducer start)

omit h in
theorem wire_cons (e : SseEvent J) (events : List (SseEvent J)) :
    wire codec (e :: events) = utf8Encode (frameOf codec e) ++ wire codec events := by
  simp [wire, utf8Encode]

omit h in
theorem wire_head (events : List (SseEvent J)) :
    (events.flatMap (frameOf codec)).head? ≠ some byteOrderMark := by
  cases events with
  | nil => simp
  | cons e events =>
    have he : ((e :: events).flatMap (frameOf codec)).head? = some 'e' := by
      rw [List.flatMap_cons, frameOf_eq]
      unfold frameBody eventLine
      simp [event_toList]
    rw [he]
    decide

omit h in
theorem wire_heard_head (events : List (SseEvent J)) (n : Nat) :
    (transducer.run start ((wire codec events).take n)).2.head? ≠ some byteOrderMark := by
  intro hhead
  obtain ⟨heard, hheard⟩ := List.head?_eq_some_iff.mp hhead
  have hprefix := Utf8Decoder.decodes.heard_prefix (events.flatMap (frameOf codec)) n
  rw [← utf8Encode, ← wire, hheard] at hprefix
  obtain ⟨lost, hlost⟩ := hprefix
  have hwire : (events.flatMap (frameOf codec)).head? ≠ some byteOrderMark := wire_head events
  rw [← hlost] at hwire
  exact hwire rfl

theorem drain_heard (events : List (SseEvent J))
    (hevents : ∀ e ∈ events, PlainName e.event ∧ portable e.data) (n : Nat) :
    ∃ rest, drain codec (transducer.run start ((wire codec events).take n)).2 =
      (arrived codec n events, some rest) := by
  induction events generalizing n with
  | nil => exact ⟨[], by simp [wire, utf8Encode, arrived, drain_of_none codec cutFrame_nil]⟩
  | cons e events ih =>
    obtain ⟨⟨hname, hdata⟩, hlater⟩ := List.forall_mem_cons.mp hevents
    rw [wire_cons, arrived]
    by_cases hn : (utf8Encode (frameOf codec e)).length ≤ n
    · obtain ⟨rest, hrest⟩ := ih hlater (n - (utf8Encode (frameOf codec e)).length)
      refine ⟨rest, ?_⟩
      have hframe : transducer.run start (utf8Encode (frameOf codec e)) = (start, frameOf codec e) :=
        Utf8Decoder.decodes.all _
      rw [if_pos hn, List.take_append, List.take_of_length_le hn, Transducer.run_append, hframe,
        drain_frameOf h hname hdata, hrest]
    · rw [if_neg hn, List.take_append_of_le_length (by omega)]
      obtain ⟨heard, lost, hlost, hframe, hrun⟩ :=
        Utf8Decoder.decodes.cut (frameOf codec e) (Nat.not_le.mp hn)
      refine ⟨heard, ?_⟩
      rw [utf8Encode, hrun, drain_of_none codec (cutFrame_part h hname hdata hlost hframe)]

omit h in
theorem arrived_all {n : Nat} {events : List (SseEvent J)} (hn : (wire codec events).length ≤ n) :
    arrived codec n events = events := by
  induction events generalizing n with
  | nil => rfl
  | cons e events ih =>
    rw [wire_cons, List.length_append] at hn
    rw [arrived, if_pos (by omega), ih (by omega)]

theorem sseEvents_heard (events : List (SseEvent J))
    (hevents : ∀ e ∈ events, PlainName e.event ∧ portable e.data) (n status : Nat) (closed : Bool)
    {reads : List Bytes} (hreads : reads.flatten = (wire codec events).take n) :
    sseEvents codec ⟨status, some ⟨reads, closed⟩⟩ =
      (arrived codec n events, if closed then .done else .readFailed) := by
  obtain ⟨rest, hrest⟩ := drain_heard h events hevents n
  rw [sseEvents_eq, hreads, TextDecoder.decode_new _ (wire_heard_head events n), hrest]
  rfl

omit h

end Framing

theorem stream_read_back {J : Type} (codec : JsonCodec J) (portable : J → Prop)
    (h : codec.Faithful portable) (events : List (SseEvent J))
    (hevents : ∀ e ∈ events, PlainName e.event ∧ portable e.data) (status : Nat)
    (reads : List Bytes) :
    (reads.flatten = wire codec events →
      sseEvents codec ⟨status, some ⟨reads, true⟩⟩ = (events, .done)) ∧
    ∀ n closed, reads.flatten = (wire codec events).take n →
      sseEvents codec ⟨status, some ⟨reads, closed⟩⟩ =
        (arrived codec n events, if closed then .done else .readFailed) := by
  refine ⟨fun hreads => ?_, fun n closed => sseEvents_heard h events hevents n status closed⟩
  rw [← List.take_length (l := wire codec events)] at hreads
  rw [sseEvents_heard h events hevents _ status true hreads, arrived_all (Nat.le_refl _)]
  rfl

namespace Sample

def PlainText (text : Str) : Prop :=
  ∀ c ∈ text, 0x20 ≤ c.toNat ∧ c.toNat < 0x7F ∧ c ≠ '"' ∧ c ≠ '\\'

instance (text : Str) : Decidable (PlainText text) :=
  inferInstanceAs (Decidable (∀ c ∈ text, _))

def opening : Str := ['{', '"', 't', 'e', 'x', 't', '"', ':', ' ', '"']

def closing : Str := ['"', '}']

def textJson : JsonCodec Str where
  dumps text := opening ++ (text ++ closing)
  parse s :=
    let text := ((s.drop opening.length).dropLast).dropLast
    if s = opening ++ (text ++ closing) ∧ PlainText text then some text else none

theorem textJson_plain {text : Str} (h : PlainText text) :
    ∀ c ∈ textJson.dumps text, 0x20 ≤ c.toNat ∧ c.toNat < 0x7F := by
  intro c hc
  have hquote : ∀ c ∈ opening ++ closing, 0x20 ≤ c.toNat ∧ c.toNat < 0x7F := by
    simp [opening, closing]
  simp only [textJson, List.mem_append] at hc
  rcases hc with hc | hc | hc
  · exact hquote c (List.mem_append_left _ hc)
  · exact ⟨(h c hc).1, (h c hc).2.1⟩
  · exact hquote c (List.mem_append_right _ hc)

theorem textJson_faithful : textJson.Faithful PlainText where
  inverts text htext := by
    have hdrop : ((List.drop opening.length (opening ++ (text ++ closing))).dropLast).dropLast = text := by
      rw [List.drop_left]
      simp [closing, List.dropLast_append_of_ne_nil]
    simp only [textJson, hdrop, htext, and_self, if_true]
  ascii text htext c hc := Nat.lt_trans (textJson_plain htext c hc).2 (by decide)
  oneLine text htext hc := absurd (textJson_plain htext _ hc).1 (by decide)

def talk : List (SseEvent Str) :=
  [⟨['d', 'e', 'l', 't', 'a'], ['h', 'i']⟩, ⟨['d', 'o', 'n', 'e'], ['o', 'k']⟩]

theorem talk_plain : ∀ e ∈ talk, PlainName e.event ∧ PlainText e.data := by
  have hdelta : PlainName ['d', 'e', 'l', 't', 'a'] :=
    ⟨by simp, by simp [isJsSpace], by simp [isJsSpace]⟩
  have hdone : PlainName ['d', 'o', 'n', 'e'] := ⟨by simp, by simp [isJsSpace], by simp [isJsSpace]⟩
  simp [talk, hdelta, hdone, PlainText]

def early : Bytes := (wire textJson talk).take 50

end Sample

theorem stream_read_back_talk :
    sseEvents Sample.textJson ⟨200, some ⟨[wire Sample.textJson Sample.talk, []], true⟩⟩ =
        (Sample.talk, .done) ∧
      sseEvents Sample.textJson ⟨200, some ⟨[Sample.early.take 7, [], Sample.early.drop 7], false⟩⟩ =
        (Sample.talk.take 1, .readFailed) := by
  have h := fun reads =>
    stream_read_back Sample.textJson Sample.PlainText Sample.textJson_faithful Sample.talk
      Sample.talk_plain 200 reads
  have hearly : arrived Sample.textJson 50 Sample.talk = Sample.talk.take 1 := by decide
  refine ⟨(h _).1 (by simp), ?_⟩
  have hcut := (h [Sample.early.take 7, [], Sample.early.drop 7]).2 50 false
    (by simp [Sample.early])
  rw [hearly] at hcut
  exact hcut

end RagPlatform
