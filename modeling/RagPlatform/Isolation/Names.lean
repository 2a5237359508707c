import RagPlatform.Isolation.View
import RagPlatform.System

/-! The data that name chunks: what becomes of them when the chunks are renamed. -/

namespace RagPlatform

open Lib

instance : Nominal Nat ChunkHit where
  rename f h := { h with chunkId := f h.chunkId }
  Mentions h n := n = h.chunkId
  rename_congr h := by simp only [h _ rfl]

instance : Nominal Nat RetrievedChunk where
  rename f c := { c with chunkId := f c.chunkId }
  Mentions c n := n = c.chunkId
  rename_congr h := by simp only [h _ rfl]

instance : Nominal Nat SearchResultOut where
  rename f r := { r with chunkId := f r.chunkId }
  Mentions r n := n = r.chunkId
  rename_congr h := by simp only [h _ rfl]

instance : Nominal Nat Citation where
  rename f c := { c with chunkId := f c.chunkId }
  Mentions c n := n = c.chunkId
  rename_congr h := by simp only [h _ rfl]

instance : Nominal Nat PreparedAnswer where
  rename f p := { p with citations := Nominal.rename f p.citations }
  Mentions p n := Nominal.Mentions p.citations n
  rename_congr h := by simp only [Nominal.rename_congr h]

instance : Nominal Nat AnswerResult where
  rename f r := { r with citations := Nominal.rename f r.citations }
  Mentions r n := Nominal.Mentions r.citations n
  rename_congr h := by simp only [Nominal.rename_congr h]

def ServerEvent.rename (f : Nat → Nat) : ServerEvent → ServerEvent
  | .citations cs => .citations (Nominal.rename f cs)
  | event => event

def ServerEvent.Mentions : ServerEvent → Nat → Prop
  | .citations cs, n => Nominal.Mentions cs n
  | _, _ => False

instance : Nominal Nat ServerEvent where
  rename := ServerEvent.rename
  Mentions := ServerEvent.Mentions
  rename_congr {f g event} h := by
    cases event with
    | citations cs => exact congrArg ServerEvent.citations (Nominal.rename_congr h)
    | error | status | documentDone | timeout | delta | answerDone => rfl

def Outcome.rename (f : Nat → Nat) : Outcome → Outcome
  | .results rs => .results (Nominal.rename f rs)
  | .answer a => .answer (Nominal.rename f a)
  | outcome => outcome

def Outcome.Mentions : Outcome → Nat → Prop
  | .results rs, n => Nominal.Mentions rs n
  | .answer a, n => Nominal.Mentions a n
  | _, _ => False

instance : Nominal Nat Outcome where
  rename := Outcome.rename
  Mentions := Outcome.Mentions
  rename_congr {f g outcome} h := by
    cases outcome with
    | results rs => exact congrArg Outcome.results (Nominal.rename_congr h)
    | answer a => exact congrArg Outcome.answer (Nominal.rename_congr h)
    | document | batch | documents | polled | events | deleted | usage | task | token | credential
    | revoked => rfl

end RagPlatform
