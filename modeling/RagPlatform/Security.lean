import RagPlatform.Exceptions
import RagPlatform.External

/-! Bearer tokens. -/

namespace RagPlatform

open Lib

structure TokenClaims where
  tenantId : Uuid
  credentialId : Uuid
  deriving DecidableEq

def issuer : Str := "rag-knowledge-platform".toList

def hexValue (c : Char) : Option Nat :=
  let n := c.toNat
  if 0x30 ≤ n ∧ n ≤ 0x39 then some (n - 0x30)
  else if 0x41 ≤ n ∧ n ≤ 0x46 then some (n - 0x37)
  else if 0x61 ≤ n ∧ n ≤ 0x66 then some (n - 0x57)
  else none

def hexNumber (s : Str) : Option Nat :=
  s.foldlM (fun n c => (hexValue c).map (16 * n + ·)) 0

/-- `s.strip("{}")` -/
def stripBraces (s : Str) : Str :=
  let brace (c : Char) : Bool := c = '\x7b' || c = '\x7d'
  ((s.dropWhile brace).reverse.dropWhile brace).reverse

/-- `s.replace(old, "")` for a non-empty `old` -/
def removeAll (old : Str) : Nat → Str → Str
  | 0, s => s
  | _, [] => []
  | n + 1, c :: s =>
    if old.isPrefixOf (c :: s) then removeAll old n ((c :: s).drop old.length)
    else c :: removeAll old n s

/-- `uuid.UUID(s)` of a string of hexadecimal digits, in any of its spellings. -/
def Uuid.ofStr (s : Str) : Option Uuid :=
  let s := removeAll "urn:".toList s.length s
  let s := removeAll "uuid:".toList s.length s
  let hex := (stripBraces s).filter (· ≠ '-')
  if hex.length = 32 then (hexNumber hex).map Uuid.mk else none

/-- `now` in seconds -/
def decodeAccessToken (ext : External) (token jwtSecret : Str) (now : Nat) :
    Except Exn TokenClaims :=
  match ext.jwtDecode token jwtSecret issuer now with
  | none => .error (.authentication "invalid or expired token".toList)
  | some payload =>
    match Uuid.ofStr payload.tid, Uuid.ofStr payload.sub with
    | some tenantId, some credentialId => .ok ⟨tenantId, credentialId⟩
    | _, _ => .error (.authentication "invalid or expired token".toList)

def clientIdPrefix : Str := "rag_ci_".toList

def clientSecretPrefix : Str := "rag_cs_".toList

/-- `random` is what `secrets.token_hex(12)` draws. -/
def generateClientId (random : Str) : Str := clientIdPrefix ++ random

/-- `random` is what `secrets.token_urlsafe(32)` draws. -/
def generateClientSecret (random : Str) : Str := clientSecretPrefix ++ random

def hashSecret (ext : External) (secret : Str) : Str := ext.sha256 (utf8Encode secret)

def secretMatches (ext : External) (secret storedHash : Str) : Bool :=
  hashSecret ext secret = storedHash

/-- `now` in seconds -/
def createAccessToken (ext : External) (tenantId credentialId : Uuid) (jwtSecret : Str)
    (ttlSeconds : Int) (now : Nat) : Str × Int :=
  (ext.jwtEncode
    { iss := issuer
      sub := credentialId.str
      tid := tenantId.str
      iat := now
      exp := now + ttlSeconds } jwtSecret, ttlSeconds)

end RagPlatform
