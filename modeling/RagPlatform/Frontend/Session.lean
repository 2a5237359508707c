import RagPlatform.Frontend.Api
import RagPlatform.Frontend.Proxy
import RagPlatform.Lib.Dict
import RagPlatform.Lib.Heed

/-! The web server's session store, and the routes that open a session, close it and ask for it. -/

namespace RagPlatform

open Lib

inductive JsonField
  /-- undefined or null -/
  | absent
  | string (s : Str)
  | other

inductive SessionCall
  | json
  | createSession (clientId clientSecret : Str)
  /-- `cookies()`, then the deletion -/
  | destroySession (sid : Option Str)

/-- `none` for a body that is no JSON, or is null. -/
abbrev SessionCall.Resp : SessionCall → Type
  | .json => Option (JsonField × JsonField)
  | .createSession .. => Str
  | .destroySession _ => Unit

abbrev server : Signature := web.sum ⟨SessionCall, SessionCall.Resp, Empty⟩

def ask (call : SessionCall) : Async server call.Resp := Async.request (S := server) (.inr call)

def askWeb (call : WebCall) : Async server call.Resp := Async.request (S := server) (.inl call)

inductive SessionBody
  | ok
  | detail (s : Str)
  | authenticated (b : Bool)

/-- `cookie` is what becomes of the browser's cookie, if anything does. -/
structure SessionReply where
  status : Nat
  body : SessionBody
  cookie : Option (Option Str)

def refuse (status : Nat) (detail : Str) : SessionReply := ⟨status, .detail detail, none⟩

/-- `(field ?? "").trim()` -/
def JsonField.trim : JsonField → Option Str
  | .absent => some []
  | .string s => some (jsTrim s)
  | .other => none

section

variable (origin : Url.Origin)

def login : Async server SessionReply := do
  match (← ask .json).bind fun body => body.1.trim.bind fun clientId =>
      body.2.trim.map fun clientSecret => (clientId, clientSecret) with
  | none => pure (refuse 400 "invalid request body".toList)
  | some (clientId, clientSecret) =>
    if clientId = [] ∨ clientSecret = [] then
      pure (refuse 400 "client_id and client_secret are required".toList)
    else
      match ← askWeb (.fetchToken (tokenUrl origin) clientId clientSecret) with
      | none => pure (refuse 502 "could not reach the RAG API".toList)
      | some status =>
        if status = 401 then pure (refuse 401 "invalid client credentials".toList)
        else if 200 ≤ status ∧ status < 300 then do
          let sid ← ask (.createSession clientId clientSecret)
          pure ⟨200, .ok, some (some sid)⟩
        else
          pure (refuse 502 ("token endpoint returned ".toList ++ (toString status).toList))

def logout (sid : Option Str) : Async server SessionReply := do
  ask (.destroySession sid)
  pure ⟨200, .ok, some none⟩

def authenticated (sid : Option Str) : Async server SessionReply := do
  let session ← askWeb (.getSession sid)
  pure ⟨200, .authenticated session.isSome, none⟩

inductive Web.Visit
  | login
  | logout (sid : Option Str)
  | authenticated (sid : Option Str)
  | proxied (req : NextRequest) (path : List Str)

abbrev Web.Reply := SessionReply ⊕ Except WebError ProxyResponse

def Web.Visit.code : Web.Visit → Async server Web.Reply
  | .login => .inl <$> RagPlatform.login origin
  | .logout sid => .inl <$> RagPlatform.logout sid
  | .authenticated sid => .inl <$> RagPlatform.authenticated sid
  | .proxied req path => .inr <$> (proxy origin req path).run.inl

end

/-- The map holds objects, which are known by their place in `objects` and outlive it. All the
session ids there have been are `created`, with what they were created for. -/
structure Sessions where
  store : Dict Str Nat
  objects : List Web.Session
  created : List (Str × Str × Str)

structure WebOracle where
  answer : (call : server.Req) → server.Resp call
  now : Int
  expiresIn : Int

def createSession (sid clientId clientSecret : Str) (s : Sessions) : Sessions where
  store := s.store.set sid s.objects.length
  objects := s.objects ++ [⟨clientId, clientSecret, none, 0⟩]
  created := (sid, clientId, clientSecret) :: s.created

def getSession (sid : Option Str) (s : Sessions) : Option (Nat × Web.Session) := do
  let sid ← sid
  if sid = [] then none
  else
    let id ← s.store.get? sid
    let session ← s.objects[id]?
    pure (id, session)

def destroySession (sid : Option Str) (s : Sessions) : Sessions :=
  { s with store :=
      match sid with
      | none => s.store
      | some sid => if sid = [] then s.store else s.store.delete sid }

def keepToken (id : Nat) (token : Str) (expiresAt : Int) (s : Sessions) : Sessions :=
  { s with objects := s.objects.modify id fun session =>
      { session with token := some token, tokenExpiresAt := expiresAt } }

def Sessions.exec : Exec server Sessions WebOracle
  | o, .inl (.getSession sid), s => (s, (getSession sid s).map fun x => (x.1, x.2, o.now))
  | o, .inl (.keepToken id), s =>
    match o.answer (.inl (.keepToken id)) with
    | some token => (keepToken id token (o.now + o.expiresIn * 1000) s, some token)
    | none => (s, none)
  | o, .inr (.createSession clientId clientSecret), s =>
    let sid := o.answer (.inr (.createSession clientId clientSecret))
    (createSession sid clientId clientSecret s, sid)
  | _, .inr (.destroySession sid), s => (destroySession sid s, ())
  | o, call, s => (s, o.answer call)

end RagPlatform
