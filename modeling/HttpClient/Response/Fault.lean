import HttpClient.Text.Quoted
import HttpClient.Text.Utf8
set_option autoImplicit false

namespace HttpClient

inductive Malformed where
  | statusNotUtf8 (fault : Text.Utf8.Fault)
  | version (text : String)
  | statusLine (text : String)
  | statusCode (text : String)
  | statusRange (code : Nat)
  | reason
  | fieldNotUtf8 (fault : Text.Utf8.Fault)
  | foldedField
  | fieldLineBreak
  | fieldWithoutColon
  | fieldName (text : String)
  | fieldValue
  | emptyCoding
  | repeatedChunked
  | lengthNotNumber
  | lengthOverflow
  | lengthMismatch
  | chunkSize (text : String)
  | chunkEnd
  | described (text : String)
  deriving DecidableEq, Repr

def Malformed.message : Malformed → String
  | .statusNotUtf8 fault => "invalid UTF-8 in status line: " ++ fault.message
  | .version text => "unsupported version: " ++ Text.quoted text
  | .statusLine text => "invalid status line: " ++ Text.quoted text
  | .statusCode text => "invalid status code: " ++ Text.quoted text
  | .statusRange code => "status code out of range: " ++ Numeral.decimal code
  | .reason => "invalid reason phrase: contains control characters"
  | .fieldNotUtf8 fault => "invalid UTF-8 in header: " ++ fault.message
  | .foldedField => "invalid header line: obs-fold"
  | .fieldLineBreak => "invalid header line: contains CR/LF"
  | .fieldWithoutColon => "invalid header line: missing colon"
  | .fieldName text => "invalid header line: invalid name " ++ Text.quoted text
  | .fieldValue => "invalid header line: invalid value (contains control characters)"
  | .emptyCoding => "invalid Transfer-Encoding: empty token"
  | .repeatedChunked => "invalid Transfer-Encoding: duplicate chunked"
  | .lengthNotNumber => "invalid Content-Length: not a number"
  | .lengthOverflow => "invalid Content-Length: overflow"
  | .lengthMismatch => "invalid Content-Length: mismatched values"
  | .chunkSize text => "invalid chunk size: " ++ Text.quoted text
  | .chunkEnd => "invalid chunked encoding: expected CRLF after chunk data"
  | .described text => text

inductive ParseError where
  | malformed (cause : Malformed)
  | headTooLarge (size limit : Nat)
  | tooManyFields (count limit : Nat)
  | chunkLineTooLong (size limit : Nat)
  | stopped
  deriving DecidableEq, Repr

def ParseError.message : ParseError → String
  | .malformed cause => "invalid data: " ++ cause.message
  | .headTooLarge size limit => s!"header section too large: {size} > {limit}"
  | .tooManyFields count limit => s!"too many headers: {count} > {limit}"
  | .chunkLineTooLong size limit => s!"chunk line too long: {size} > {limit}"
  | .stopped => "parser is in error state"

/-- The errors that a larger bound would have avoided. -/
def ParseError.isLimit : ParseError → Bool
  | .headTooLarge .. | .tooManyFields .. | .chunkLineTooLong .. => true
  | _ => false

end HttpClient
