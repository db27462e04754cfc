set_option autoImplicit false

namespace HttpClient

inductive Version where
  | http10
  | http11
  deriving DecidableEq, Repr

namespace Version

def name : Version → String
  | .http10 => "HTTP/1.0"
  | .http11 => "HTTP/1.1"

def number : Version → String
  | .http10 => "1.0"
  | .http11 => "1.1"

def ofName? (s : String) : Option Version :=
  if s = "HTTP/1.0" then some .http10 else if s = "HTTP/1.1" then some .http11 else none

def ofNumber? (s : String) : Option Version :=
  if s = "1.0" then some .http10 else if s = "1.1" then some .http11 else none

/-- The newest version among the acceptable numbers. -/
def negotiate (acceptable : List String) : Option Version :=
  if acceptable.any fun s => ofNumber? s == some .http11 then some .http11
  else if acceptable.any fun s => ofNumber? s == some .http10 then some .http10
  else none

theorem ofName?_name (v : Version) : ofName? v.name = some v := by cases v <;> decide

end Version
end HttpClient
