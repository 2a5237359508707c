import RagPlatform.Retrieval.Service

/-! Answers with citations: retrieve, prompt, generate, cite, meter. -/

namespace RagPlatform

open Lib

def noContextAnswer : Str :=
  ("I couldn't find anything in your documents relevant to this question, " ++
    "so I can't give a grounded answer.").toList

def systemPrompt : Str :=
  ("You answer questions strictly from the provided context passages.\n" ++
    "Rules:\n" ++
    "- Use ONLY information present in the context. No outside knowledge.\n" ++
    "- Cite every claim with the bracketed marker of the passage that supports " ++
    "it, e.g. [1] or [2][3].\n" ++
    "- If the context does not contain the answer, say so plainly instead of guessing.\n" ++
    "- Be concise.").toList

/-- `str(n)` of a page, which may be missing -/
def pageStr : Option Nat → Str
  | some n => (toString n).toList
  | none => "None".toList

def pageLocation (m : ChunkMeta) : Option Str :=
  match m.pageStart with
  | none => none
  | some start =>
    if m.pageEnd = some start then some ("p. ".toList ++ pageStr start)
    else some ("pp. ".toList ++ pageStr start ++ "-".toList ++ pageStr m.pageEnd)

def formatLocation (m : ChunkMeta) : Option Str :=
  match m.headings with
  | none | some [] => pageLocation m
  | some headings => some ("§ ".toList ++ Str.join " > ".toList headings)

structure PreparedAnswer where
  system : Str
  user : Str
  citations : List Citation

structure AnswerResult where
  answer : Str
  citations : List Citation
  model : Option Str
  usage : Option LLMUsage
  costUsd : Option Rat

structure AnswerService where
  retrieval : RetrievalService
  maxTokens : Int
  priceIn : Option Rat
  priceOut : Option Rat

/-- The zeros of the runs of decimal digits (general category Nd). -/
def decimalZeros : List Nat :=
  [0x30, 0x660, 0x6f0, 0x7c0, 0x966, 0x9e6, 0xa66, 0xae6, 0xb66, 0xbe6, 0xc66, 0xce6, 0xd66, 0xde6,
    0xe50, 0xed0, 0xf20, 0x1040, 0x1090, 0x17e0, 0x1810, 0x1946, 0x19d0, 0x1a80, 0x1a90, 0x1b50,
    0x1bb0, 0x1c40, 0x1c50, 0xa620, 0xa8d0, 0xa900, 0xa9d0, 0xa9f0, 0xaa50, 0xabf0, 0xff10, 0x104a0,
    0x10d30, 0x11066, 0x110f0, 0x11136, 0x111d0, 0x112f0, 0x11450, 0x114d0, 0x11650, 0x116c0,
    0x11730, 0x118e0, 0x11950, 0x11c50, 0x11d50, 0x11da0, 0x11f50, 0x16a60, 0x16ac0, 0x16b50,
    0x1d7ce, 0x1d7d8, 0x1d7e2, 0x1d7ec, 0x1d7f6, 0x1e140, 0x1e2f0, 0x1e4f0, 0x1e950, 0x1fbf0]

/-- The class `\d`, with the value of the digit. -/
def decimal (c : Char) : Option Nat :=
  (decimalZeros.find? fun z => z ≤ c.toNat ∧ c.toNat < z + 10).map (c.toNat - ·)

/-- The digits of `\[(\d+)\]`, wherever it matches; `pending` holds those since the last bracket. -/
def findMarkers : (pending : Option Str) → Str → List Str
  | _, [] => []
  | pending, c :: s =>
    if c = '[' then findMarkers (some []) s
    else
      match pending with
      | none => findMarkers none s
      | some digits =>
        if (decimal c).isSome then findMarkers (some (digits ++ [c])) s
        else if c = ']' ∧ digits ≠ [] then digits :: findMarkers none s
        else findMarkers none s

/-- `int(raw)`; more than 4300 digits are refused. -/
def markerValue (raw : Str) : Except Exn Nat :=
  if raw.length > 4300 then .error .value
  else .ok (raw.foldl (fun n c => 10 * n + (decimal c).getD 0) 0)

/-- The real markers, sorted; one that has no citation is dropped. -/
def citedOnly (answer : Str) (citations : List Citation) : Except Exn (List Citation) := do
  let available : Dict Nat Citation := citations.foldl (fun d c => d.set c.marker c) []
  let markers ← (findMarkers none answer).mapM markerValue
  let seen := (markers.filter fun m => (available.get? m).isSome).dedup
  return (seen.insertionSort (· ≤ ·)).filterMap available.get?

def passage (chunk : RetrievedChunk) (i : Nat) : Str :=
  let source :=
    match formatLocation chunk.metadata with
    | none => chunk.filename
    | some location => chunk.filename ++ " — ".toList ++ location
  "[".toList ++ (toString i).toList ++ "] (".toList ++ source ++ ")\n".toList ++ chunk.content

def buildUserPrompt (chunks : List RetrievedChunk) (query : Str) : Str :=
  Str.join "\n\n".toList
    (["Context passages:".toList] ++ (chunks.zipIdx 1).map (fun x => passage x.1 x.2) ++
      ["Question: ".toList ++ query])

def citation (chunk : RetrievedChunk) (i : Nat) : Citation where
  marker := i
  chunkId := chunk.chunkId
  documentId := chunk.documentId
  filename := chunk.filename
  location := formatLocation chunk.metadata
  snippet := chunk.content.take 200

def prepared (chunks : List RetrievedChunk) (query : Str) : PreparedAnswer where
  system := systemPrompt
  user := buildUserPrompt chunks query
  citations := (chunks.zipIdx 1).map fun x => citation x.1 x.2

namespace AnswerService

variable (svc : AnswerService) (tenantId : Uuid)

def prepare (query : Str) (topN : Int) : Io (Option PreparedAnswer) := do
  let chunks ← svc.retrieval.search tenantId query .hybrid (some topN)
  return if chunks = [] then none else some (prepared chunks query)

def cost (usage : LLMUsage) : Option Rat :=
  match svc.priceIn, svc.priceOut with
  | some priceIn, some priceOut =>
    some ((usage.inputTokens * priceIn + usage.outputTokens * priceOut) / 1000000)
  | _, _ => none

/-- `round(cost, 6)` -/
def roundCost (cost : Rat) : Rat := pyRound (cost * 1000000) / 1000000

def recordUsage (model : Str) (usage : LLMUsage) (cost : Option Rat) : Io Unit :=
  perform (.insertUsage
    { tenantId := tenantId
      operation := "answer".toList
      model := model
      inputTokens := usage.inputTokens
      outputTokens := usage.outputTokens
      costUsd := cost.map roundCost })

def prompt (p : PreparedAnswer) : Prompt := ⟨p.system, p.user, svc.maxTokens⟩

def complete (p : PreparedAnswer) : Io AnswerResult := do
  let result ← perform (.generate (svc.prompt p))
  let cited ← Io.ofExcept (citedOnly result.text p.citations)
  let cost := svc.cost result.usage
  recordUsage tenantId result.model result.usage cost
  return ⟨result.text, cited, some result.model, some result.usage, cost⟩

def streamEvents : List StreamEvent → Io Unit
  | [] => pure ()
  | .textDelta text :: events => do
    emit (.delta text)
    streamEvents events
  | .streamEnd usage model :: events => do
    let cost := svc.cost usage
    recordUsage tenantId model usage cost
    emit (.answerDone (some model) (some usage) cost)
    streamEvents events

def stream (p : PreparedAnswer) : Io Unit := do
  emit (.citations p.citations)
  let reply ← perform (.stream (svc.prompt p))
  svc.streamEvents tenantId reply.events
  match reply.failure with
  | some e => raise e
  | none => pure ()

end AnswerService

end RagPlatform
