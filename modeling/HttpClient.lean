import HttpClient.Proofs.Response.Fragments
import HttpClient.Scenario.Transfers
import HttpClient.Signal
import HttpClient.Proofs.Response.TightCuts
import HttpClient.Proofs.Pool.Clients
import HttpClient.Proofs.Response.Messages
import HttpClient.Proofs.Exchange.Traffic
import HttpClient.Proofs.Exchange.KeepAlive
import HttpClient.Proofs.Fields.Values
import HttpClient.Proofs.Exchange.Courses
import HttpClient.Proofs.Exchange.Standing
import HttpClient.Proofs.Exchange.Resolution
import HttpClient.Proofs.Redirect.Credentials
import HttpClient.Proofs.Request.Framing
import HttpClient.Proofs.Text.Utf8
import HttpClient.Proofs.Response.Lines
import HttpClient.Proofs.Response.Roundtrip
import HttpClient.Proofs.Request.Head
import HttpClient.Proofs.Pool.InUse
import HttpClient.Proofs.Pool.Origins
import HttpClient.Proofs.Response.Reports
import HttpClient.Proofs.Delivery.Gathering
import HttpClient.Proofs.Exchange.Passage
import HttpClient.Proofs.Exchange.Delivery
import HttpClient.Proofs.Exchange.WholeBody
import HttpClient.Proofs.Response.Calls
import HttpClient.Proofs.Response.Heads
import HttpClient.Proofs.Tunnel.Negotiation
import HttpClient.Proofs.Pool.Tunnels
import HttpClient.Proofs.Delivery.Decoding
import HttpClient.Proofs.Fields.Codings
import HttpClient.Proofs.Delivery.Codings
import HttpClient.Proofs.Coding.Inflate
import HttpClient.Proofs.Coding.Decoder
import HttpClient.Proofs.Delivery.Handover
import HttpClient.Proofs.Delivery.Lasting
import HttpClient.Proofs.Delivery.InOrder
import HttpClient.Proofs.Request.Bodies
import HttpClient.Proofs.Exchange.Efforts
import HttpClient.Proofs.Exchange.Attempts
import HttpClient.Proofs.Exchange.BodyBound
import HttpClient.Proofs.Redirect.Hops
import HttpClient.Proofs.Exchange.Switching
import HttpClient.Proofs.Signal.Settling
import HttpClient.Proofs.Response.Holdings
import HttpClient.Proofs.Response.Interim
import HttpClient.Proofs.Fields.Accepted
import HttpClient.Proofs.Request.Completion
import HttpClient.Proofs.Fields.Edits
import HttpClient.Proofs.Fields.Resolution
import HttpClient.Proofs.Form.Encoded
import HttpClient.Proofs.Form.Multipart
import HttpClient.Proofs.Fields.CodingLists
import HttpClient.Proofs.Response.Draining
