import RagPlatform.Api.Deps

/-! The answer endpoint, plain or as a stream of events. -/

namespace RagPlatform

open Lib

structure AnswerRequest where
  query : Str
  topN : Int := 8
  stream : Bool := false

def AnswerRequest.valid (body : AnswerRequest) : Bool :=
  1 ≤ body.query.length && body.query.length ≤ 2000 && 1 ≤ body.topN && body.topN ≤ 20

/-- `none` when the answer went out as events. -/
abbrev AnswerResponse := Option AnswerResult

def noContext : AnswerResult := ⟨noContextAnswer, [], none, none, none⟩

/-- The events of `event_stream`. -/
def answerStream (svc : AnswerService) (tenantId : Uuid) : Option PreparedAnswer → Io Unit
  | none => do
    emit (.citations [])
    emit (.delta noContextAnswer)
    emit (.answerDone none none none)
  | some prepared => svc.stream tenantId prepared

def plainAnswer (svc : AnswerService) (tenantId : Uuid) : Option PreparedAnswer → Io AnswerResult
  | none => pure noContext
  | some prepared => svc.complete tenantId prepared

def answer (settings : Settings) (tenantId : Uuid) (body : AnswerRequest) : Io AnswerResponse := do
  validate body.valid
  let svc := getAnswerService settings
  let prepared ← svc.prepare tenantId body.query body.topN
  if body.stream then do
    answerStream svc tenantId prepared
    return none
  else do
    let result ← plainAnswer svc tenantId prepared
    return some result

end RagPlatform
