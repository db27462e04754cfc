import HttpClient.Failure
import HttpClient.RequestBody
import HttpClient.Url.Reader
set_option autoImplicit false

namespace HttpClient

structure Request where
  method : String
  url : Url
  versions : List String
  fields : Fields
  body : RequestBody
  deriving DecidableEq, Repr

namespace Request

def ofUrl (method : String) (url : Url) : Request := ⟨method, url, ["1.1", "1.0"], .empty, .empty⟩

def ofText (method url : String) : Except ProtocolError Request :=
  match Url.parse url with
  | .ok u => .ok (ofUrl method u)
  | .error e => .error (.uri (url ++ ": " ++ e.message))

def addField (r : Request) (name value : String) : Except HeadError Request :=
  (r.fields.append name value).map fun fields => { r with fields := fields }

def setField (r : Request) (name value : String) : Except HeadError Request :=
  (r.fields.set name value).map fun fields => { r with fields := fields }

def withoutField (r : Request) (name : String) : Request :=
  { r with fields := r.fields.without name }

def target (r : Request) : String :=
  let path := r.url.path.text
  (if path.toList.isEmpty then "/" else path) ++ r.url.query.elim "" ("?" ++ ·)

def hostValue (r : Request) : Option String :=
  r.url.hostText.map fun host => host ++ r.url.port.elim "" fun port => ":" ++ Numeral.decimal port

end Request

structure Endpoint where
  host : String
  port : Nat
  secure : Bool
  deriving DecidableEq, Repr

namespace Endpoint

def ofUrl (u : Url) : Except ProtocolError Endpoint := do
  let secure ← if u.scheme = "http" then pure false
    else if u.scheme = "https" then pure true
    else throw (.scheme u.scheme)
  match u.hostText, u.effectivePort with
  | some host, some port => return ⟨host, port, secure⟩
  | _, _ => throw (.uri u.text)

def authority (e : Endpoint) : String := e.host ++ ":" ++ Numeral.decimal e.port

def serverName (e : Endpoint) : String :=
  String.ofList ((e.host.toList.dropWhile (· == '[')).reverse.dropWhile (· == ']')).reverse

/-- A label of a host name: letters, digits, underscores and inner hyphens. -/
def isLabel (label : List Char) : Bool :=
  !label.isEmpty && label.length ≤ 63 && label.head? != some '-' && label.getLast? != some '-' &&
    label.all fun c => c.isAlphanum || c == '-' || c == '_'

def namesServer (e : Endpoint) : Bool :=
  let labels := Text.splitOn '.' e.host.toList
  let proper := if labels.getLast? = some [] then labels.dropLast else labels
  e.host.toList.head? == some '[' || (e.host.toList.length ≤ 253 && !proper.isEmpty &&
    proper.all isLabel)

end Endpoint

/-- The proxies, as `host:port`, for plain and for secure endpoints. -/
structure Proxies where
  plain : Option String
  secure : Option String
  deriving DecidableEq, Repr

namespace Proxies

def none : Proxies := ⟨.none, .none⟩

def forScheme (p : Proxies) (secure : Bool) : Option String := if secure then p.secure else p.plain

/-- Under which key connections to an endpoint are shared: its authority, behind its proxy. -/
def keyFor (p : Proxies) (e : Endpoint) : String :=
  match p.forScheme e.secure with
  | some proxy => proxy ++ "#" ++ e.authority
  | .none => e.authority

def authorityOf (value : String) : Option String := do
  let named := (value.splitOn "://").length ≠ 1
  let u ← (Url.parse (if named then value else "http://" ++ value)).toOption
  return (← u.hostText) ++ ":" ++ Numeral.decimal (← u.effectivePort)

def firstOf (lookup : String → Option String) (names : List String) : Option String := do
  authorityOf (← (names.filterMap lookup).find? fun value => !value.toList.isEmpty)

/-- Proxies named by the environment. A gateway program gets its variables from request headers, so
nothing is read there. -/
def ofEnvironment (lookup : String → Option String) : Proxies :=
  if (lookup "REQUEST_METHOD").isSome then none
  else ⟨firstOf lookup ["http_proxy", "HTTP_PROXY"], firstOf lookup ["https_proxy", "HTTPS_PROXY"]⟩

end Proxies
end HttpClient
