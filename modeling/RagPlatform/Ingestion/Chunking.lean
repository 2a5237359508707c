import RagPlatform.Ingestion.Parsers

/-! Chunking: blocks to chunk drafts under a token budget, with overlap. -/

namespace RagPlatform

open Lib

def estimateTokens (text : Str) : Int :=
  max 1 (pyRound ((Str.words text).length / (3 / 4)))

structure ChunkDraft where
  text : Str
  tokenCount : Int
  metadata : ChunkMeta
  deriving DecidableEq

structure Sentence where
  text : Str
  tokens : Int
  metadata : BlockMeta
  deriving DecidableEq

/-! ### Splitting

`re.split` on `(?<=[.!?])\s+|\n{2,}`, one character at a time: `spaces` and `newlines` are inside
a match of the first and of the second alternative. -/

inductive Scan
  | text | spaces | newlines

def isTerminator (c : Char) : Bool := c = '.' || c = '!' || c = '?'

def splitFrom : Scan → Option Char → Str → Str → List Str
  | .text, _, piece, [] => [piece.reverse]
  | .text, prev, piece, c :: s =>
    if prev.any isTerminator && isSpace c then piece.reverse :: splitFrom .spaces (some c) [] s
    else if c = '\n' && s.head? = some '\n' then
      piece.reverse :: splitFrom .newlines (some c) [] s
    else splitFrom .text (some c) (c :: piece) s
  | .spaces, _, _, [] => [[]]
  | .spaces, _, _, c :: s =>
    if isSpace c then splitFrom .spaces (some c) [] s else splitFrom .text (some c) [c] s
  | .newlines, _, _, [] => [[]]
  | .newlines, _, _, c :: s =>
    if c = '\n' then splitFrom .newlines (some c) [] s else splitFrom .text (some c) [c] s

def splitSentences (text : Str) : List Str := splitFrom .text none [] text

def sentence (metadata : BlockMeta) (text : Str) : Sentence :=
  ⟨text, estimateTokens text, metadata⟩

/-- An integer as far from zero as this rounds to no `float`. -/
@[irreducible] def floatBound : Int := (2 ^ 1024 - 2 ^ 970 : Nat)

def overflowError : Exn := .other "OverflowError".toList

/-- The units of one raw piece: none when it is blank, slices by words when it is over the limit.
`int(hard_limit * 0.75)` is exact for a limit that a text can be over; `chunkBlocks` sees to those
that are no `float`. -/
def pieceSentences (hardLimit : Int) (metadata : BlockMeta) (raw : Str) : List Sentence :=
  let raw := Str.join [' '] (Str.words raw)
  if raw = [] then []
  else if estimateTokens raw ≤ hardLimit then [sentence metadata raw]
  else
    let step := max 1 ((hardLimit * 3).tdiv 4)
    (slices step.toNat (Str.words raw)).map fun words => sentence metadata (Str.join [' '] words)

def sentences (blocks : List Block) (hardLimit : Int) : List Sentence :=
  blocks.flatMap fun block =>
    (splitSentences block.text).flatMap (pieceSentences hardLimit block.metadata)

def mergeMeta (sentences : List Sentence) : ChunkMeta :=
  let pages := sentences.filterMap (·.metadata.page)
  { pageStart := pages.min?
    pageEnd := pages.max?
    headings := (sentences.head?.bind (·.metadata.headings)).filter (· ≠ []) }

structure Packing where
  chunks : List ChunkDraft := []
  current : List Sentence := []
  currentTokens : Int := 0
  hasNew : Bool := false

namespace Packing

/-- The loop over `reversed(current)`: stops at the first sentence over the overlap budget. -/
def carry (overlapTokens : Int) : List Sentence → Int → List Sentence → List Sentence
  | [], _, carried => carried
  | s :: rest, budget, carried =>
    if budget + s.tokens > overlapTokens then carried
    else carry overlapTokens rest (budget + s.tokens) (s :: carried)

def carried (overlapTokens : Int) (current : List Sentence) : List Sentence :=
  let carried := carry overlapTokens current.reverse 0 []
  -- the whole chunk carried over would be emitted again for ever
  if carried.length = current.length then [] else carried

def emit (overlapTokens : Int) (carryOverlap : Bool) (p : Packing) : Packing :=
  let kept := if carryOverlap then carried overlapTokens p.current else []
  { chunks := p.chunks ++
      [⟨Str.join [' '] (p.current.map (·.text)), p.currentTokens, mergeMeta p.current⟩]
    current := kept
    currentTokens := (kept.map (·.tokens)).sum
    hasNew := false }

def push (targetTokens overlapTokens : Int) (p : Packing) (s : Sentence) : Packing :=
  let p := if p.current ≠ [] ∧ p.currentTokens + s.tokens > targetTokens
    then p.emit overlapTokens true else p
  { p with
    current := p.current ++ [s]
    currentTokens := p.currentTokens + s.tokens
    hasNew := true }

end Packing

def chunkBlocks (blocks : List Block) (targetTokens overlapTokens : Int) :
    Except Exn (List ChunkDraft) :=
  if overlapTokens ≥ targetTokens then .error .value
  -- the first sentence is over such a limit, and `int(hard_limit * 0.75)` overflows
  else if targetTokens ≤ -floatBound ∧ sentences blocks targetTokens ≠ [] then .error overflowError
  else
    let p := (sentences blocks targetTokens).foldl (Packing.push targetTokens overlapTokens) {}
    .ok (if p.hasNew then (p.emit overlapTokens false).chunks else p.chunks)

end RagPlatform
