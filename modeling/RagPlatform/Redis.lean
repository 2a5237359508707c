import RagPlatform.Lib.Dict
import RagPlatform.Lib.Text

/-! The counters in Redis. -/

namespace RagPlatform

open Lib

structure Counter where
  count : Nat
  /-- In microseconds; a key without a time to live stays. -/
  expiresAt : Option Nat
  deriving DecidableEq

abbrev Redis := Dict Str Counter

namespace Redis

variable (r : Redis) (now : Nat) (key : Str)

/-- What is found under a key: nothing any more from the moment it expires. -/
def live : Option Counter := (r.get? key).filter fun c => c.expiresAt.all (now < ·)

def incr : Redis × Nat :=
  let c := (r.live now key).getD ⟨0, none⟩
  (r.set key { c with count := c.count + 1 }, c.count + 1)

def expire (seconds : Nat) : Redis :=
  match r.live now key with
  | none => r
  | some c => r.set key { c with expiresAt := some (now + seconds * 1000000) }

end Redis

end RagPlatform
