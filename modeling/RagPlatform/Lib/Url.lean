import RagPlatform.Lib.Climb
import RagPlatform.Lib.Text

/-! How a URL parser reads the path of an `http` or `https` URL. -/

namespace RagPlatform.Lib.Url

def isTabOrNewline (c : Char) : Bool := c.toNat == 9 || c.toNat == 10 || c.toNat == 13

def isC0OrSpace (c : Char) : Bool := c.toNat ≤ 0x20

def isSlash (c : Char) : Bool := c == '/' || c == '\\'

def endsPath (c : Char) : Bool := c == '?' || c == '#'

/-- White space and control characters are cut off at both ends, tabs and line breaks everywhere. -/
def clean (input : Str) : Str :=
  (((input.dropWhile isC0OrSpace).reverse.dropWhile isC0OrSpace).reverse).filter
    (!isTabOrNewline ·)

def inPathSet (c : Char) : Bool :=
  let n := c.toNat
  n ≤ 0x20 || n == 0x22 || n == 0x23 || n == 0x3C || n == 0x3E || n == 0x3F || n == 0x5E ||
    n == 0x60 || n == 0x7B || n == 0x7D || 0x7F ≤ n

def hexDigit (n : Nat) : Char := if n < 10 then Char.ofNat (0x30 + n) else Char.ofNat (0x37 + n)

def percentEncode (b : UInt8) : Str := ['%', hexDigit (b.toNat / 16), hexDigit (b.toNat % 16)]

def encodeChar (c : Char) : Str :=
  if inPathSet c then (utf8EncodeChar c).flatMap percentEncode else [c]

def encode (s : Str) : Str := s.flatMap encodeChar

def dots : List Str := [['.'], ['%', '2', 'e'], ['%', '2', 'E']]

def isSingleDot (segment : Str) : Bool := segment ∈ dots

def isDoubleDot (segment : Str) : Bool := segment ∈ dots.flatMap fun dot => dots.map (dot ++ ·)

def push (path : List Str) (segment : Str) (slash : Bool) : List Str :=
  if isDoubleDot segment then if slash then path.dropLast else path.dropLast ++ [[]]
  else if isSingleDot segment then if slash then path else path ++ [[]]
  else path ++ [segment]

def pathState (buffer : Str) (path : List Str) : Str → List Str
  | [] => push path buffer false
  | c :: input =>
    if isSlash c then pathState [] (push path buffer true) input
    else if endsPath c then push path buffer false
    else pathState (buffer ++ encodeChar c) path input

/-- What follows the scheme, the slashes after it and the authority. -/
def afterAuthority (url : Str) : Str :=
  let authority := ((url.dropWhile (· ≠ ':')).drop 1).dropWhile isSlash
  authority.dropWhile fun c => !isSlash c && !endsPath c

def pathStart : Str → List Str
  | [] => pathState [] [] []
  | c :: input => if isSlash c then pathState [] [] input else pathState [] [] (c :: input)

def segments (url : Str) : List Str := pathStart (afterAuthority (clean url))

def serialize (path : List Str) : Str := path.flatMap ('/' :: ·)

def pathOf (url : Str) : Str := serialize (segments url)

/-- A server as URLs of it begin: the scheme, the host and the port. -/
structure Origin where
  scheme : Str
  authority : Str
  special : scheme = ['h', 't', 't', 'p'] ∨ scheme = ['h', 't', 't', 'p', 's']
  ne_nil : authority ≠ []
  plain : ∀ c ∈ authority, isSlash c = false ∧ endsPath c = false ∧ isC0OrSpace c = false

def Origin.text (origin : Origin) : Str := origin.scheme ++ ':' :: '/' :: '/' :: origin.authority

end RagPlatform.Lib.Url
