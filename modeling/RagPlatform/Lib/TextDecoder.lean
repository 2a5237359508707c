import RagPlatform.Lib.Text
import RagPlatform.Lib.Transducer

/-! The decoder behind a browser's `TextDecoder`. -/

namespace RagPlatform.Lib

def replacement : Char := '\uFFFD'

def byteOrderMark : Char := '\uFEFF'

structure Utf8Decoder where
  codePoint : Nat
  seen : Nat
  needed : Nat
  lower : Nat
  upper : Nat
  deriving Repr, DecidableEq

namespace Utf8Decoder

def start : Utf8Decoder := ⟨0, 0, 0, 0x80, 0xBF⟩

def lead (b : Nat) : Utf8Decoder × Str :=
  if b ≤ 0x7F then (start, [Char.ofNat b])
  else if 0xC2 ≤ b ∧ b ≤ 0xDF then ({ start with needed := 1, codePoint := b % 32 }, [])
  else if 0xE0 ≤ b ∧ b ≤ 0xEF then
    ({ start with
        needed := 2
        codePoint := b % 16
        lower := if b = 0xE0 then 0xA0 else 0x80
        upper := if b = 0xED then 0x9F else 0xBF }, [])
  else if 0xF0 ≤ b ∧ b ≤ 0xF4 then
    ({ start with
        needed := 3
        codePoint := b % 8
        lower := if b = 0xF0 then 0x90 else 0x80
        upper := if b = 0xF4 then 0x8F else 0xBF }, [])
  else (start, [replacement])

def step (d : Utf8Decoder) (byte : UInt8) : Utf8Decoder × Str :=
  let b := byte.toNat
  if d.needed = 0 then lead b
  else if b < d.lower ∨ d.upper < b then ((lead b).1, replacement :: (lead b).2)
  else
    let codePoint := d.codePoint * 64 + b % 64
    if d.seen + 1 = d.needed then (start, [Char.ofNat codePoint])
    else (⟨codePoint, d.seen + 1, d.needed, 0x80, 0xBF⟩, [])

def transducer : Transducer Utf8Decoder UInt8 Char := ⟨step⟩

end Utf8Decoder

/-- A leading byte order mark is not passed on. The state is the flag `BOM seen`. -/
def bomTransducer : Transducer Bool Char Char where
  step bomSeen c := (true, if bomSeen = false ∧ c = byteOrderMark then [] else [c])

structure TextDecoder where
  decoder : Utf8Decoder
  bomSeen : Bool
  deriving Repr, DecidableEq

namespace TextDecoder

def new : TextDecoder := ⟨Utf8Decoder.start, false⟩

/-- `decoder.decode(value, { stream: true })` -/
def decode (d : TextDecoder) (value : Bytes) : TextDecoder × Str :=
  let result := (Utf8Decoder.transducer.comp bomTransducer).run (d.decoder, d.bomSeen) value
  (⟨result.1.1, result.1.2⟩, result.2)

@[simp] theorem decode_nil (d : TextDecoder) : d.decode [] = (d, []) := rfl

theorem decode_append (d : TextDecoder) (xs ys : Bytes) :
    d.decode (xs ++ ys) =
      (((d.decode xs).1.decode ys).1, (d.decode xs).2 ++ ((d.decode xs).1.decode ys).2) := by
  simp [decode, Transducer.run_append]

end TextDecoder

end RagPlatform.Lib
