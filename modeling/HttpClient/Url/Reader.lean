import HttpClient.Url
set_option autoImplicit false

namespace HttpClient.Url

/-- Text without control characters and spaces at its ends and without tabs and line breaks. -/
def clean (cs : List Char) : List Char :=
  (Text.trimBy (fun c => c.toNat ≤ 0x20) cs).filter fun c => c != '\t' && c != '\n' && c != '\r'

def isSchemeChar (c : Char) : Bool := c.isAlphanum || c == '+' || c == '-' || c == '.'

def splitScheme (cs : List Char) : Option (String × List Char) :=
  match Text.splitFirst ':' cs with
  | (name, some rest) =>
    if (name.head?.any Char.isAlpha) && name.all isSchemeChar then
      some (String.ofList (name.map Char.toLower), rest)
    else none
  | _ => none

def endsAuthority (special : Bool) (c : Char) : Bool :=
  c == '/' || c == '?' || c == '#' || (special && c == '\\')

def isSlash (special : Bool) (c : Char) : Bool := c == '/' || (special && c == '\\')

def splitUserinfo (cs : List Char) : Option (List Char) × List Char :=
  if cs.contains '@' then
    let after := (cs.reverse.takeWhile (· != '@')).reverse
    (some (cs.take (cs.length - after.length - 1)), after)
  else (none, cs)

/-- The host and what follows it from the first colon outside brackets on. -/
def splitHost (inBrackets : Bool) : List Char → List Char × List Char
  | [] => ([], [])
  | c :: rest =>
    if c = ':' ∧ ¬inBrackets then ([], c :: rest)
    else
      let (host, after) :=
        splitHost (if c = '[' then true else if c = ']' then false else inBrackets) rest
      (c :: host, after)

def readPort (scheme : String) (cs : List Char) : Except UrlError (Option Nat) :=
  match cs with
  | [] | [':'] => .ok none
  | _ :: digits =>
    match Numeral.read? 10 digits with
    | none => .error .port
    | some n =>
      if 65535 < n then .error .port
      else .ok (if defaultPort scheme = some n then none else some n)

def readUserinfo (cs : List Char) : String × Option String :=
  let encode (cs : List Char) : String := String.ofList (Percent.encode Percent.inUserinfo cs)
  match Text.splitFirst ':' cs with
  | (name, none) | (name, some []) => (encode name, none)
  | (name, some password) => (encode name, some (encode password))

def readAuthority (scheme : String) (cs : List Char) : Except UrlError Url := do
  let (credentials, after) := splitUserinfo cs
  if credentials = some [] ∧ after = [] then throw .emptyHost
  let (username, password) := readUserinfo (credentials.getD [])
  let (name, tail) := splitHost false after
  let special := isSpecialScheme scheme
  if special ∧ name = [] then throw .emptyHost
  let host ← if special then Host.readDomain name else Host.readForeign name
  if host.toList.isEmpty ∧ (tail ≠ [] ∨ !username.toList.isEmpty ∨ password.isSome) then
    throw .emptyHost
  let port ← readPort scheme tail
  return ⟨scheme, username, password, some host, port, .segments [], none, none⟩

def splitPath (cs : List Char) : List Char × Option (List Char) × Option (List Char) :=
  let (front, fragment) := Text.splitFirst '#' cs
  let (path, query) := Text.splitFirst '?' front
  (path, query, fragment)

def isSingleDot (segment : List Char) : Bool :=
  let s := segment.map Char.toLower
  s == ['.'] || s == ['%', '2', 'e']

def isDoubleDot (segment : List Char) : Bool :=
  let s := segment.map Char.toLower
  [".".toList, "%2e".toList].any fun a => [".".toList, "%2e".toList].any fun b => s == a ++ b

/-- Puts further segments behind those that are there. A dot stays where it is and two dots go
back, and either at the end leaves an empty segment. -/
def walk (found : List String) : List (List Char) → List String
  | [] => found
  | segment :: rest =>
    let ending := if rest.isEmpty then [""] else []
    if isDoubleDot segment then walk (found.dropLast ++ ending) rest
    else if isSingleDot segment then walk (found ++ ending) rest
    else walk (found ++ [String.ofList (Percent.encode Percent.inPath segment)]) rest

def cutSegments (special : Bool) (cs : List Char) : List (List Char) :=
  Text.splitOn '/' (cs.map fun c => if isSlash special c then '/' else c)

def readQuery (special : Bool) (cs : List Char) : String :=
  String.ofList (Percent.encode (if special then Percent.inSpecialQuery else Percent.inQuery) cs)

def readFragment (cs : List Char) : String := String.ofList (Percent.encode Percent.inFragment cs)

def withTail (u : Url) (query fragment : Option (List Char)) : Url :=
  { u with query := query.map (readQuery u.isSpecial), fragment := fragment.map readFragment }

/-- The path after an authority. A special URL always has one. -/
def readPath (u : Url) (path : List Char) : UrlPath :=
  match path with
  | [] => .segments (if u.isSpecial then [""] else [])
  | c :: rest =>
    let segments := walk [] (cutSegments u.isSpecial (if isSlash u.isSpecial c then rest else path))
    if u.scheme = "file" then
      .segments (match segments.dropWhile (fun s => s.toList.isEmpty) with
        | [] => [""]
        | kept => kept)
    else .segments segments

def readHierarchy (scheme : String) (cs : List Char) : Except UrlError Url := do
  let special := isSpecialScheme scheme
  let authority := cs.takeWhile fun c => !endsAuthority special c
  let u ← readAuthority scheme authority
  let (path, query, fragment) := splitPath (cs.drop authority.length)
  return { u with path := u.readPath path }.withTail query fragment

def readFile (cs : List Char) : Except UrlError Url := do
  let bare : Url := ⟨"file", "", none, some "", none, .segments [], none, none⟩
  let (u, rest) ← match cs with
    | a :: b :: more =>
      if isSlash true a && isSlash true b then do
        let name := more.takeWhile fun c => !endsAuthority true c
        let host ← if name.isEmpty then pure "" else Host.readDomain name
        let host := if host = "localhost" then "" else host
        pure ({ bare with host := some host }, more.drop name.length)
      else pure (bare, cs)
    | _ => pure (bare, cs)
  let (path, query, fragment) := splitPath rest
  return { u with path := u.readPath path }.withTail query fragment

def readForeign (scheme : String) (cs : List Char) : Url :=
  let (path, query, fragment) := splitPath cs
  let path := match path with
    | '/' :: rest => .segments (walk [] (cutSegments false rest))
    | path => .flat (String.ofList (Percent.encode Percent.control path))
  (⟨scheme, "", none, none, none, path, none, none⟩ : Url).withTail query fragment

def readAbsolute (scheme : String) (cs : List Char) : Except UrlError Url :=
  if scheme = "file" then readFile cs
  else if isSpecialScheme scheme then readHierarchy scheme (cs.dropWhile (isSlash true))
  else match cs with
    | '/' :: '/' :: rest => readHierarchy scheme rest
    | rest => .ok (readForeign scheme rest)

def parse (s : String) : Except UrlError Url :=
  match splitScheme (clean s.toList) with
  | some (scheme, rest) => readAbsolute scheme rest
  | none => .error .relativeWithoutBase

def afterDoubleSlash (cs : List Char) : List Char :=
  match cs with
  | '/' :: '/' :: rest => rest
  | cs => cs.dropWhile (isSlash true)

def readRelative (base : Url) (cs : List Char) : Except UrlError Url :=
  let special := base.isSpecial
  let (path, query, fragment) := splitPath cs
  match base.path with
  | .flat _ =>
    if cs.head? = some '#' then .ok { base with fragment := fragment.map readFragment }
    else .error .relativeToFlatBase
  | .segments segments =>
    if 2 ≤ (path.takeWhile (isSlash special)).length then
      readHierarchy base.scheme (afterDoubleSlash cs)
    else match path with
      | [] =>
        match query with
        | none => .ok { base with fragment := fragment.map readFragment }
        | some _ => .ok (base.withTail query fragment)
      | c :: rest =>
        let walked :=
          if isSlash special c then walk [] (cutSegments special rest)
          else walk segments.dropLast (cutSegments special path)
        .ok ({ base with path := .segments walked }.withTail query fragment)

def join (base : Url) (reference : String) : Except UrlError Url :=
  let cs := clean reference.toList
  match splitScheme cs with
  | some (scheme, rest) =>
    if scheme = base.scheme ∧ base.isSpecial ∧ scheme ≠ "file" ∧
        (rest.takeWhile (isSlash true)).length < 2 then base.readRelative rest
    else readAbsolute scheme rest
  | none => base.readRelative cs

end HttpClient.Url
