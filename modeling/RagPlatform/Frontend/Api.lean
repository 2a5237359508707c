import RagPlatform.Lib.TextDecoder
import RagPlatform.Services.Sse

/-! The browser's reader of a streamed response. -/

namespace RagPlatform

open Lib

structure SseEvent (J : Type) where
  event : Str
  data : J
  deriving DecidableEq

/-- The bytes of each `reader.read()`, and whether the last one reports the end or fails. -/
structure Body where
  reads : List Bytes
  closed : Bool

structure Response where
  status : Nat
  body : Option Body

inductive Ending
  | done
  | readFailed
  | syntaxError
  | apiError (status : Nat) (detail : Str)
  deriving DecidableEq

/-- White space and line terminators, which `trim` takes off. -/
def isJsSpace (c : Char) : Bool :=
  let n := c.toNat
  (9 ≤ n && n ≤ 13) || n == 0x20 || n == 0xA0 || n == 0x1680 || (0x2000 ≤ n && n ≤ 0x200A) ||
    n == 0x2028 || n == 0x2029 || n == 0x202F || n == 0x205F || n == 0x3000 || n == 0xFEFF

def jsTrim (s : Str) : Str := ((s.dropWhile isJsSpace).reverse.dropWhile isJsSpace).reverse

/-- The text before the first blank line and the text after it. -/
def cutFrame : Str → Option (Str × Str)
  | '\n' :: '\n' :: rest => some ([], rest)
  | [] => none
  | c :: rest => (cutFrame rest).map fun cut => (c :: cut.1, cut.2)

structure SseFields where
  event : Str
  dataLines : List Str

def SseFields.read (fields : SseFields) (line : Str) : SseFields :=
  if "event: ".toList <+: line then { fields with event := jsTrim (line.drop 7) }
  else if "data: ".toList <+: line then
    { fields with dataLines := fields.dataLines ++ [line.drop 6] }
  else fields

def fieldsOf (frame : Str) : SseFields :=
  (frame.splitOn '\n').foldl SseFields.read ⟨"message".toList, []⟩

section Reading

variable {J : Type} (codec : JsonCodec J)

/-- The inner loop: the events of the complete frames, and what is left in the buffer unless
`JSON.parse` threw. Each round shortens the buffer. -/
def drainFrom : Nat → Str → List (SseEvent J) × Option Str
  | 0, buffer => ([], some buffer)
  | fuel + 1, buffer =>
    match cutFrame buffer with
    | none => ([], some buffer)
    | some (frame, rest) =>
      let fields := fieldsOf frame
      if fields.dataLines = [] then drainFrom fuel rest
      else
        match codec.parse (Str.join "\n".toList fields.dataLines) with
        | none => ([], none)
        | some data =>
          let tail := drainFrom fuel rest
          (⟨fields.event, data⟩ :: tail.1, tail.2)

def drain (buffer : Str) : List (SseEvent J) × Option Str := drainFrom codec buffer.length buffer

/-- The outer loop. What the decoder or the buffer still holds at the end is dropped. -/
def readLoop (closed : Bool) : TextDecoder → Str → List Bytes → List (SseEvent J) × Ending
  | _, _, [] => ([], if closed then .done else .readFailed)
  | decoder, buffer, value :: reads =>
    let decoded := decoder.decode value
    let drained := drain codec (buffer ++ decoded.2)
    match drained.2 with
    | none => (drained.1, .syntaxError)
    | some buffer =>
      let tail := readLoop closed decoded.1 buffer reads
      (drained.1 ++ tail.1, tail.2)

def sseEvents (res : Response) : List (SseEvent J) × Ending :=
  match res.body with
  | none => ([], .apiError res.status "response has no body to stream".toList)
  | some body => readLoop codec body.closed .new [] body.reads

end Reading

end RagPlatform
