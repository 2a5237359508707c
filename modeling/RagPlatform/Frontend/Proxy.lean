import RagPlatform.Lib.Async
import RagPlatform.Lib.Url

/-! The web server's proxy, which acts for the browser with the credential of its session. -/

namespace RagPlatform

open Lib

inductive Method
  | get
  | post
  | delete
  deriving DecidableEq

structure Web.Session where
  clientId : Str
  clientSecret : Str
  token : Option Str
  tokenExpiresAt : Int

theorem search_opens_nil : ∀ c ∈ ([] : Str).head?, c = '?' := nofun

/-- What the proxy reads of a request. The search string is empty or opens with `?`. -/
structure NextRequest where
  method : Method
  sid : Option Str
  contentType : Option Str
  search : Str
  search_opens : ∀ c ∈ search.head?, c = '?'

inductive Payload
  | formData (fields : Bytes)
  | text (s : Str)

structure UpstreamRequest where
  method : Method
  url : Str
  authorization : Str
  contentType : Option Str
  body : Option Payload

structure UpstreamResponse where
  status : Nat
  contentType : Option Str
  body : Bytes

inductive ProxyBody
  | detail (s : Str)
  | stream (body : Bytes)

structure ProxyResponse where
  status : Nat
  contentType : Str
  cacheControl : Option Str
  body : ProxyBody

inductive WebCall
  /-- `cookies()`, then the look-up of the session and of the clock -/
  | getSession (sid : Option Str)
  | fetchToken (url clientId clientSecret : Str)
  /-- `res.json()`, then the two assignments to the session -/
  | keepToken (session : Nat)
  | formData
  | text
  | fetchUpstream (request : UpstreamRequest)

/-- `none` where a promise rejects. A session is known by the object it is. -/
abbrev WebCall.Resp : WebCall → Type
  | .getSession _ => Option (Nat × Web.Session × Int)
  | .fetchToken .. => Option Nat
  | .keepToken _ => Option Str
  | .formData => Option Bytes
  | .text => Option Str
  | .fetchUpstream _ => Option UpstreamResponse

abbrev web : Signature := ⟨WebCall, WebCall.Resp, Empty⟩

inductive WebError
  | rejected
  | error (message : Str)

abbrev Web (α : Type) := ExceptT WebError (Async web) α

def await (call : WebCall) : Web call.Resp := ExceptT.lift (Async.request (S := web) call)

def fulfilled {α : Type} : Option α → Web α
  | some a => pure a
  | none => throw .rejected

def allowed : List Str :=
  ["documents".toList, "search".toList, "answers".toList, "usage".toList]

section Proxy

variable (origin : Url.Origin)

def cachedToken (session : Web.Session) (now : Int) (force : Bool) : Option Str :=
  if force then none
  else session.token.filter fun token => token ≠ [] ∧ now < session.tokenExpiresAt - 60000

def tokenUrl : Str := origin.text ++ "/v1/auth/token".toList

def tokenFor (id : Nat) (session : Web.Session) (now : Int) (force : Bool) : Web Str :=
  match cachedToken session now force with
  | some token => pure token
  | none => do
    let status ← fulfilled (← await (.fetchToken (tokenUrl origin) session.clientId session.clientSecret))
    if 200 ≤ status ∧ status < 300 then fulfilled (← await (.keepToken id))
    else throw (.error ("token endpoint returned ".toList ++ (toString status).toList))

def jsonError (status : Nat) (detail : Str) : ProxyResponse :=
  ⟨status, "application/json".toList, none, .detail detail⟩

def isProxied (path : List Str) : Bool := path.head?.any (· ∈ allowed)

def upstreamUrl (path : List Str) (search : Str) : Str :=
  origin.text ++ "/v1/".toList ++ Str.join "/".toList path ++ search

/-- The body to send on, and the content type to send with it. -/
def readBody (req : NextRequest) : Web (Option Str × Option Payload) :=
  if req.method = .post then
    if "multipart/form-data".toList <:+: req.contentType.getD [] then do
      let fields ← fulfilled (← await .formData)
      pure (none, some (.formData fields))
    else do
      let s ← fulfilled (← await .text)
      pure (some "application/json".toList, some (.text s))
  else pure (none, none)

def passOn (upstream : UpstreamResponse) : ProxyResponse :=
  ⟨upstream.status, upstream.contentType.getD "application/json".toList, some "no-cache".toList,
    .stream upstream.body⟩

/-- `proxy(req, path, retried)`, where `again` is the call it makes of itself unless it is one. -/
def attempt (req : NextRequest) (path : List Str) (again : Option (Web ProxyResponse)) :
    Web ProxyResponse :=
  if isProxied path then do
    match ← await (.getSession req.sid) with
    | none => pure (jsonError 401 "not authenticated: log in with a tenant credential".toList)
    | some (id, session, now) =>
      let token ← tryCatch (some <$> tokenFor origin id session now again.isNone)
        fun _ => pure none
      match token with
      | none => pure (jsonError 502 "could not reach the RAG API token endpoint".toList)
      | some token =>
        let (contentType, body) ← readBody req
        let upstream ← fulfilled <| ← await <| .fetchUpstream {
          method := req.method
          url := upstreamUrl origin path req.search
          authorization := "Bearer ".toList ++ token
          contentType := contentType
          body := body }
        match again with
        | some again => if upstream.status = 401 then again else pure (passOn upstream)
        | none => pure (passOn upstream)
  else pure (jsonError 404 "not proxied".toList)

def proxy (req : NextRequest) (path : List Str) : Web ProxyResponse :=
  attempt origin req path (some (attempt origin req path none))

end Proxy

end RagPlatform
