import RagPlatform.Models

/-! Third-party code, as parameters: the parsers, the digest and the token library. -/

namespace RagPlatform

open Lib

/-- An element tree as BeautifulSoup delivers it; `other` is what `get_text` never yields
(comments, declarations, ruby text). -/
inductive Html
  | text (s : Str)
  | other
  | element (name : Str) (children : List Html)

/-- What `create_access_token` puts into a token. -/
structure TokenPayload where
  iss : Str
  sub : Str
  tid : Str
  iat : Int
  exp : Int

/-- The claims of a token, as `jwt.decode` returns them when all required ones are there. -/
structure JwtPayload where
  tid : Str
  sub : Str

structure External where
  /-- `hashlib.sha256(raw).hexdigest()` -/
  sha256 : Bytes → Str
  /-- The text of every page, or the text of the exception pypdf raised. -/
  pdfReader : Bytes → Except Str (List Str)
  /-- The children of the parsed document, or the text of the exception raised. -/
  beautifulSoup : Bytes → Except Str (List Html)
  /-- `jwt.decode` of a token with a secret, for an issuer, at a time in seconds; `none` where it
  raises. -/
  jwtDecode : (token secret issuer : Str) → (now : Nat) → Option JwtPayload := fun _ _ _ _ => none
  /-- `jwt.encode` of a payload with a secret. -/
  jwtEncode : TokenPayload → (secret : Str) → Str := fun _ _ => []
  /-- `repr` of a string. -/
  repr : Str → Str := fun s => ['\''] ++ s ++ ['\'']

end RagPlatform
