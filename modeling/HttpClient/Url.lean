import HttpClient.Url.Host
set_option autoImplicit false

namespace HttpClient

inductive UrlPath where
  /-- Text without a structure, as after `mailto:`. -/
  | flat (text : String)
  | segments (items : List String)
  deriving DecidableEq, Repr

def UrlPath.text : UrlPath → String
  | .flat text => text
  | .segments items => String.join (items.map ("/" ++ ·))

structure Url where
  scheme : String
  username : String
  password : Option String
  /-- Absent for schemes without an authority; empty after `file://`. -/
  host : Option String
  /-- Absent when it is the one that the scheme implies. -/
  port : Option Nat
  path : UrlPath
  query : Option String
  fragment : Option String
  deriving DecidableEq, Repr

namespace Url

def defaultPort (scheme : String) : Option Nat :=
  if scheme = "http" ∨ scheme = "ws" then some 80
  else if scheme = "https" ∨ scheme = "wss" then some 443
  else if scheme = "ftp" then some 21
  else none

def isSpecialScheme (scheme : String) : Bool := (defaultPort scheme).isSome || scheme == "file"

def isSpecial (u : Url) : Bool := isSpecialScheme u.scheme

def hostText (u : Url) : Option String := u.host.filter fun h => !h.toList.isEmpty

def effectivePort (u : Url) : Option Nat := u.port <|> defaultPort u.scheme

def userinfo (u : Url) : String :=
  if u.username.toList.isEmpty && u.password.isNone then ""
  else u.username ++ u.password.elim "" (":" ++ ·) ++ "@"

def authorityText (u : Url) : String :=
  match u.host with
  | some host =>
    "//" ++ u.userinfo ++ host ++ u.port.elim "" fun port => ":" ++ Numeral.decimal port
  | none => match u.path with
    | .segments ("" :: _ :: _) => "/."
    | _ => ""

def text (u : Url) : String :=
  u.scheme ++ ":" ++ u.authorityText ++ u.path.text ++ u.query.elim "" ("?" ++ ·) ++
    u.fragment.elim "" ("#" ++ ·)

def withoutFragment (u : Url) : Url := { u with fragment := none }

def withoutCredentials (u : Url) : Url := { u with username := "", password := none }

/-- Adds pairs to the query. The query is there afterwards even if there is no pair. -/
def addQuery (u : Url) (pairs : List (String × String)) : Url :=
  let added := Percent.formPairs pairs
  let query := (u.query.getD "").toList
  let joint := if query.isEmpty ∨ pairs.isEmpty then [] else ['&']
  { u with query := some (String.ofList (query ++ joint ++ added)) }

def origin (u : Url) : String × Option String × Option Nat :=
  (u.scheme, u.hostText, u.effectivePort)

end Url
end HttpClient
