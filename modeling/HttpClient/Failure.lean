import HttpClient.Fields
import HttpClient.IoFailure
import HttpClient.Response.Parser
set_option autoImplicit false

namespace HttpClient

/-- Why a signal fires: someone cancels, or a timer of so many milliseconds runs out. -/
inductive Cause where
  | cancelled
  | timeout (ms : Nat)
  deriving DecidableEq, Repr

inductive ProtocolError where
  | unsupportedVersions (acceptable : List String)
  | head (error : HeadError)
  | bodyTooLong
  | bodyTooShort
  | chunkedOverHttp10
  | contentLength (text : String)
  | uri (text : String)
  | scheme (text : String)
  | boundary (text : String)
  deriving DecidableEq, Repr

def ProtocolError.message : ProtocolError → String
  | .unsupportedVersions acceptable =>
    "None of the requested protocol versions are supported: " ++ Text.quotedList acceptable
  | .head error => "Sending the request failed due to a header injection attempt: " ++ error.message
  | .bodyTooLong => "Body contained more bytes than specified in Content-Length, aborting request"
  | .bodyTooShort => "Body contained fewer bytes than specified in Content-Length, aborting request"
  | .chunkedOverHttp10 => "Can't send chunked bodies over HTTP/1.0"
  | .contentLength text => "invalid Content-Length header: " ++ text
  | .uri text => "invalid URI: " ++ text
  | .scheme text => "unsupported URI scheme: " ++ text
  | .boundary text => "invalid multipart boundary: " ++ Text.quoted text

inductive TunnelError where
  | write (failure : IoFailure)
  | status (status : Nat)
  | malformed (error : ParseError)
  | closed
  | read (failure : IoFailure)
  | authority (text : String)
  deriving DecidableEq, Repr

def TunnelError.message : TunnelError → String
  | .write _ => "Socket went away while writing tunneling request"
  | .status code => "Unexpected response status received from proxy: " ++ Numeral.decimal code
  | .malformed _ => "Malformed HTTP response received from proxy while establishing tunnel"
  | .closed => "Socket went away while awaiting tunneling response"
  | .read failure => "Reading the tunneling response failed: " ++ failure.text
  | .authority text => "invalid tunnel authority: " ++ text

inductive Failure where
  | protocol (error : ProtocolError)
  | parse (error : ParseError)
  | incomplete (state : ParserState)
  | tooLarge (limit : Nat)
  | connect (authority : String) (source : IoFailure)
  | disconnected (state : ParserState)
  | io (failure : IoFailure)
  | tls (text : String)
  | handshake (text : String)
  | tunnel (error : TunnelError)
  | timeout (text : String)
  | cancelled
  | tooManyRedirects (max : Nat)
  | option (text : String)
  deriving DecidableEq, Repr

/-- A duration of whole milliseconds in its largest unit. -/
def durationText (ms : Nat) : String :=
  if ms = 0 then "0ns"
  else if ms < 1000 then Numeral.decimal ms ++ "ms"
  else
    let digits := ((Numeral.print 10 (1000 + ms % 1000)).drop 1).reverse.dropWhile (· == '0')
    Numeral.decimal (ms / 1000) ++
      (if digits.isEmpty then "" else "." ++ String.ofList digits.reverse) ++ "s"

inductive AcquireError where
  | connect (authority : String) (source : IoFailure)
  | cancelled (cause : Cause)
  | tunnel (error : TunnelError)
  deriving DecidableEq, Repr

def Cause.text : Cause → String
  | .cancelled => "Cancelled"
  | .timeout ms => "Timeout \x7b after: " ++ durationText ms ++ " \x7d"

def connectMessage (authority : String) (source : IoFailure) : String :=
  "Connection to '" ++ authority ++ "' failed: " ++ source.text

def AcquireError.message : AcquireError → String
  | .connect authority source => connectMessage authority source
  | .cancelled cause => "connection acquisition was aborted: " ++ cause.text
  | .tunnel error => "Proxy CONNECT failed: " ++ error.message

inductive FailureKind where
  | protocol
  | parse
  | incompleteTransfer
  | streamTooLarge
  | socket
  | timeout
  | cancelled
  | tooManyRedirects
  | tunnel
  | invalidOption
  deriving DecidableEq, Repr

namespace Failure

def kind : Failure → FailureKind
  | .protocol _ => .protocol
  | .parse _ => .parse
  | .incomplete _ => .incompleteTransfer
  | .tooLarge _ => .streamTooLarge
  | .connect .. | .disconnected _ | .io _ | .tls _ | .handshake _ => .socket
  | .tunnel _ => .tunnel
  | .timeout _ => .timeout
  | .cancelled => .cancelled
  | .tooManyRedirects _ => .tooManyRedirects
  | .option _ => .invalidOption

def endedMessage (state : ParserState) : String :=
  "Socket disconnected prior to response completion (Parser state: " ++ state.message ++ ")"

def message : Failure → String
  | .protocol error => error.message
  | .parse error => "failed to parse response: " ++ error.message
  | .incomplete state => endedMessage state
  | .tooLarge limit => s!"Body exceeded the configured limit of {limit} bytes"
  | .connect authority source => connectMessage authority source
  | .disconnected state => endedMessage state
  | .io failure => "I/O error: " ++ failure.text
  | .tls text => "TLS error: " ++ text
  | .handshake text => "TLS handshake failed: " ++ text
  | .tunnel error => "Proxy CONNECT failed: " ++ error.message
  | .timeout text => text
  | .cancelled => "The request was cancelled"
  | .tooManyRedirects max => s!"Too many redirects: exceeded {max}"
  | .option text => "invalid option: " ++ text

/-- Only a handshake fails on a connection that is worth describing. -/
def describesConnection : Failure → Bool
  | .handshake _ => true
  | _ => false

def ofCause (cause : Cause) (target : String) : Failure :=
  match cause with
  | .cancelled => .cancelled
  | .timeout ms =>
    .timeout s!"Response for \"{target}\" didn't finish within {ms} ms, aborting"

def ofAcquire (error : AcquireError) (target : String) : Failure :=
  match error with
  | .connect authority source => .connect authority source
  | .cancelled cause => ofCause cause target
  | .tunnel error => .tunnel error

def ofHead (error : HeadError) : Failure := .protocol (.head error)

end Failure
end HttpClient
