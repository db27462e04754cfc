import HttpClient.Failure
import HttpClient.Toml
set_option autoImplicit false

namespace HttpClient

structure ClientOptions where
  /-- 0 means no timeout. -/
  transferTimeoutMs : Nat
  /-- 0 means that redirects are handed to the caller. -/
  maxRedirects : Nat
  autoReferer : Bool
  discardBody : Bool
  defaultHeaders : List (String × String)
  maxHeaderBytes : Nat
  maxBodyBytes : Nat
  deriving DecidableEq, Repr

structure RequestOptions where
  transferTimeoutMs : Option Nat
  maxRedirects : Option Nat
  autoReferer : Option Bool
  discardBody : Option Bool
  defaultHeaders : Option (List (String × String))
  maxHeaderBytes : Option Nat
  maxBodyBytes : Option Nat
  deriving DecidableEq, Repr

inductive OptionError where
  | document
  | unknownKey (key : String)
  | badValue (key : String)
  | defaultHeaders (error : HeadError)
  deriving DecidableEq, Repr

def OptionError.message : OptionError → String
  | .document => "malformed document"
  | .unknownKey key => "unknown key " ++ Text.quoted key
  | .badValue key => "unfit value of key " ++ Text.quoted key
  | .defaultHeaders error => "default-headers: " ++ error.message

def Failure.ofOption (error : OptionError) : Failure := .option error.message

namespace RequestOptions

def none : RequestOptions := ⟨.none, .none, .none, .none, .none, .none, .none⟩

def number (bound : Nat) : Toml.Value → Option Nat
  | .number n => if 0 ≤ n ∧ n.toNat ≤ bound then some n.toNat else .none
  | _ => .none

def switch : Toml.Value → Option Bool
  | .flag b => some b
  | _ => .none

/-- A name and a value; what follows them is passed over. -/
def pair : Toml.Value → Option (String × String)
  | .list (.text name :: .text value :: _) => some (name, value)
  | _ => .none

def pairList : Toml.Value → Option (List (String × String))
  | .list items => items.mapM pair
  | _ => .none

def fit {α : Type} (key : String) (value : Option α) : Except OptionError (Option α) :=
  match value with
  | some a => .ok (some a)
  | .none => .error (.badValue key)

def setEntry (o : RequestOptions) (entry : String × Toml.Value) :
    Except OptionError RequestOptions := do
  let (key, value) := entry
  match key with
  | "transfer-timeout-ms" =>
    return { o with transferTimeoutMs := ← fit key (number Numeral.wordLimit value) }
  | "max-redirects" => return { o with maxRedirects := ← fit key (number 4294967295 value) }
  | "auto-referer" => return { o with autoReferer := ← fit key (switch value) }
  | "discard-body" => return { o with discardBody := ← fit key (switch value) }
  | "default-headers" => return { o with defaultHeaders := ← fit key (pairList value) }
  | "max-header-bytes" =>
    return { o with maxHeaderBytes := ← fit key (number Numeral.wordLimit value) }
  | "max-body-bytes" => return { o with maxBodyBytes := ← fit key (number Numeral.wordLimit value) }
  | _ => throw (.unknownKey key)

def ofDocument (d : Toml.Document) : Except OptionError RequestOptions := d.foldlM setEntry none

def ofText (s : String) : Except OptionError RequestOptions :=
  match Toml.read s with
  | some d => ofDocument d
  | .none => .error .document

end RequestOptions

namespace ClientOptions

def standard : ClientOptions := ⟨15000, 5, true, false, [], 8192, 10485760⟩

def fields (o : ClientOptions) : Except OptionError Fields :=
  (Fields.ofPairs o.defaultHeaders).mapError .defaultHeaders

def override (o : ClientOptions) (r : RequestOptions) : ClientOptions where
  transferTimeoutMs := r.transferTimeoutMs.getD o.transferTimeoutMs
  maxRedirects := r.maxRedirects.getD o.maxRedirects
  autoReferer := r.autoReferer.getD o.autoReferer
  discardBody := r.discardBody.getD o.discardBody
  defaultHeaders := r.defaultHeaders.getD o.defaultHeaders
  maxHeaderBytes := r.maxHeaderBytes.getD o.maxHeaderBytes
  maxBodyBytes := r.maxBodyBytes.getD o.maxBodyBytes

def merge (o : ClientOptions) (r : RequestOptions) : Except OptionError ClientOptions := do
  let merged := o.override r
  discard merged.fields
  return merged

def ofRequestOptions (r : RequestOptions) : Except OptionError ClientOptions := standard.merge r

def ofText (s : String) : Except OptionError ClientOptions := do
  ofRequestOptions (← RequestOptions.ofText s)

def timeout (o : ClientOptions) : Option Nat :=
  if o.transferTimeoutMs = 0 then none else some o.transferTimeoutMs

def limits (o : ClientOptions) : Limits :=
  { Limits.standard with headBytes := o.maxHeaderBytes, bodyBytes := o.maxBodyBytes }

end ClientOptions
end HttpClient
