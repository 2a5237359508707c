import RagPlatform.Runtime

/-! The fixed-window rate limiter. -/

namespace RagPlatform

open Lib

def windowSeconds : Nat := 60

def bucket (key : Str) (window : Nat) : Str :=
  "ratelimit:".toList ++ key ++ ":".toList ++ (toString window).toList

def rateLimitKey (tenantId : Uuid) : Str := "tenant:".toList ++ tenantId.str

/-- `RedisError` and the classes derived from it. -/
def redisErrors : List String :=
  ["RedisError", "ConnectionError", "TimeoutError", "BusyLoadingError", "AuthenticationError",
    "AuthorizationError", "InvalidResponse", "ResponseError", "DataError", "ReadOnlyError",
    "MaxConnectionsError", "OutOfMemoryError", "NoPermissionError", "ExecAbortError"]

def Exn.isRedisError : Exn → Bool
  | .other name => redisErrors.any fun e => e.toList = name
  | _ => false

def hit (key : Str) : Io Nat := do
  let count ← perform (.incr key)
  if count = 1 then do
    perform (.expire key (windowSeconds + 5))
    return count
  else return count

def countHit (key : Str) : Io (Option Nat) :=
  tryCatch
    (do
      let count ← hit key
      return some count)
    fun e => if e.isRedisError then pure none else raise e

def RateLimiter.check (limit : Int) (key : Str) : Io Unit := do
  let time ← perform .time
  let now := time / 1000000
  let count ← countHit (bucket key (now / windowSeconds))
  match count with
  | none => pure ()
  | some count =>
    if (count : Int) > limit then
      let retryAfter := windowSeconds - now % windowSeconds
      raise (.rateLimited (max retryAfter 1 : Nat))
    else pure ()

end RagPlatform
