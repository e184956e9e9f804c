import Highway.Lib.Run
import Highway.Server.Client
import Highway.Servlet.Config
import Highway.Std.Memory
import Highway.Std.Number
import Highway.Std.String

/-!
# Responses

`hiw_response` and the operations on it.  An operation gives the C function's result and the new
response; it is `none` when the function has no defined result, which happens when a request to
the response's memory does not fit (`Highway.Std.Memory`).

The response records every call of `hiw_client_sendall` that is made for it (`handed`), with the
values that decide what has to be sent: the response's status, headers and length for a head, and
the number of body bytes still expected for a body part.
-/

namespace Highway

open Lib

/-- The bits of `hiw_response.flags`. -/
structure HiwResponseFlags where
  error : Bool := false
  headersSent : Bool := false
  contentLengthSet : Bool := false
  connectionSet : Bool := false
  statusCodeSet : Bool := false
  deriving DecidableEq, Repr

/-- The part of a response that its head is made from. -/
structure ResponseFields where
  statusCode : ℤ
  headers : List (Bytes × Bytes)
  contentLength : ℤ
  connectionClose : Bool
  deriving DecidableEq, Repr

/-- A call of `hiw_client_sendall`. -/
inductive Handed where
  /-- With the head of a response that had these fields; `ok` if all of it was sent. -/
  | head (fields : ResponseFields) (bytes : Bytes) (ok : Bool)
  /-- With `n` bytes of the body, while `content_bytes_left` was `left`. -/
  | body (bytes : Bytes) (n left : ℤ) (ok : Bool)
  deriving DecidableEq, Repr

/-- `hiw_response`.  The list `headers` holds the used entries of the header table. -/
structure HiwResponse extends ResponseFields where
  memoryFixed : Buf
  memory : HiwMemory
  client : HiwClient
  flags : HiwResponseFlags
  contentBytesLeft : ℤ
  handed : List Handed

namespace HiwResponse

/-- `hiw_internal_response_reset` on an object whose memory was set up by
`hiw_internal_response_init`. -/
def reset (cfg : Config) (memoryFixed : Buf) (client : HiwClient) : HiwResponse where
  statusCode := 0
  headers := []
  contentLength := -1
  connectionClose := true
  memoryFixed := memoryFixed
  memory := (HiwMemory.fixedInit cfg.maxHeaderSize).reset
  client := client
  flags := {}
  contentBytesLeft := 0
  handed := []

/-- The response that filters and servlet are called with: its `connection_close` is the
request's. -/
def start (cfg : Config) (memoryFixed : Buf) (client : HiwClient) (connectionClose : Bool) :
    HiwResponse :=
  { reset cfg memoryFixed client with connectionClose }

/-- The written part of the memory. -/
def content (r : HiwResponse) : Bytes := r.memoryFixed.bytes 0 r.memory.size

/-- `hiw_internal_response_error`, `hiw_internal_response_out_of_memory` -/
def error (r : HiwResponse) : Bool × HiwResponse :=
  (false, { r with flags := { r.flags with error := true } })

/-- `if (!f(resp)) return hiw_internal_response_error(resp);` and then `g`. -/
def andThen (f : Option (Bool × HiwResponse)) (g : HiwResponse → Option (Bool × HiwResponse)) :
    Option (Bool × HiwResponse) :=
  match f with
  | none => none
  | some (false, r) => some r.error
  | some (true, r) => g r

/-- `hiw_internal_response_write_raw`; the other functions copy to the memory the same way. -/
def writeRaw (r : HiwResponse) (src : Bytes) : Option (Bool × HiwResponse) :=
  match r.memory.get src.length with
  | none => none
  | some (none, memory) => some (error { r with memory })
  | some (some dest, memory) =>
    some (true, { r with memory, memoryFixed := r.memoryFixed.write dest src })

/-- The text of the status line for a status code. -/
def statusText (statusCode : ℤ) : String :=
  if statusCode = 200 then "200 OK"
  else if statusCode = 400 then "400 Bad Request"
  else if statusCode = 404 then "404 Not Found"
  else "418 I'm a teapot"

/-- CRLF -/
def crlf : Bytes := [CR, LF]

/-- `hiw_response_write_status_code` -/
def writeStatusCode (r : HiwResponse) : Option (Bool × HiwResponse) :=
  andThen (r.writeRaw (ascii "HTTP/1.1 ")) fun r =>
    r.writeRaw (ascii (statusText r.statusCode) ++ crlf)

/-- The copies of `hiw_response_write_header`, once its checks are passed. -/
def copyHeader (r : HiwResponse) (name value : Bytes) : Option (Bool × HiwResponse) :=
  andThen
    (if r.flags.statusCodeSet then some (true, r)
    else
      andThen r.writeStatusCode fun r =>
        some (true, { r with flags := { r.flags with statusCodeSet := true } }))
    fun r =>
  andThen (r.writeRaw name) fun r =>
  andThen (r.writeRaw (ascii ": ")) fun r =>
  andThen (r.writeRaw (value ++ crlf)) fun r =>
  some (true, { r with headers := r.headers ++ [(name, value)] })

/-- `hiw_response_write_header` -/
def writeHeader (cfg : Config) (r : HiwResponse) (name value : Bytes) :
    Option (Bool × HiwResponse) :=
  if r.flags.headersSent then some r.error
  else if cfg.maxHeadersCount ≤ r.headers.length then some r.error
  else if r.headers.any fun h => HiwString.cmp h.1 name then some r.error
  else if r.statusCode = 0 then some r.error
  else r.copyHeader name value

/-- `hiw_response_set_content_type` -/
def setContentType (cfg : Config) (r : HiwResponse) (mimeType : Bytes) :
    Option (Bool × HiwResponse) :=
  r.writeHeader cfg (ascii "Content-Type") mimeType

/-- `hiw_response_set_content_length`; the length is converted to `unsigned int` for
`hiw_std_uitoc`. -/
def setContentLength (cfg : Config) (r : HiwResponse) (len : ℤ) : Option (Bool × HiwResponse) :=
  if r.flags.contentLengthSet then some (true, r)
  else
    let value := (uitoc 10 (len % 2 ^ 32).toNat).getD []
    andThen (r.writeHeader cfg (ascii "Content-Length") value) fun r =>
    some (true, { r with
      contentLength := len
      contentBytesLeft := len
      flags := { r.flags with contentLengthSet := true } })

/-- `hiw_response_set_connection_close` -/
def setConnectionClose (cfg : Config) (r : HiwResponse) (close : Bool) :
    Option (Bool × HiwResponse) :=
  if r.flags.connectionSet then some (true, r)
  else
    let value := if close then ascii "close" else ascii "keep-alive"
    andThen (r.writeHeader cfg (ascii "Connection") value) fun r =>
    some (true, { r with
      flags := { r.flags with connectionSet := true }
      connectionClose := close })

/-- `hiw_response_set_status_code` -/
def setStatusCode (r : HiwResponse) (status : ℤ) : Option (Bool × HiwResponse) :=
  if r.flags.headersSent then some r.error
  else if r.flags.statusCodeSet then some r.error
  else some (true, { r with statusCode := status })

/-- `server_header_name` -/
def serverHeaderName (cfg : Config) : Bytes :=
  if cfg.writeServerVersion then ascii "Server" else ascii "Server0.0.1"

/-- `server_header_value` -/
def serverHeaderValue (cfg : Config) : Bytes :=
  if cfg.writeServerVersion then ascii "Highway 0.0.1" else ascii "Highway"

/-- The end of `hiw_response_flush_headers` : send the head. -/
def sendHead (r : HiwResponse) : Bool × HiwResponse :=
  let totalHeaderSize : ℤ := r.memory.size
  let (sent, client) := r.client.sendall r.content totalHeaderSize
  let r := { r with
    client
    handed := r.handed ++
      [Handed.head r.toResponseFields r.content (decide (sent = totalHeaderSize))] }
  if sent ≠ totalHeaderSize then r.error
  else (true, { r with flags := { r.flags with headersSent := true } })

/-- `hiw_response_flush_headers` -/
def flushHeaders (cfg : Config) (r : HiwResponse) : Option (Bool × HiwResponse) :=
  if r.flags.headersSent then some (true, r)
  else if r.statusCode = 0 then some (false, r)
  else
    andThen (if r.flags.contentLengthSet then some (true, r) else r.setContentLength cfg 0) fun r =>
    andThen (if r.flags.connectionSet then some (true, r)
      else r.setConnectionClose cfg r.connectionClose) fun r =>
    andThen (if cfg.writeServerHeader then
        r.writeHeader cfg (serverHeaderName cfg) (serverHeaderValue cfg)
      else some (true, r)) fun r =>
    andThen (r.writeRaw crlf) fun r =>
    some r.sendHead

/-- The end of `hiw_response_write_body_raw` : send the bytes and count them. -/
def sendBody (r : HiwResponse) (src : Bytes) (n : ℤ) : Bool × HiwResponse :=
  let (sent, client) := r.client.sendall src n
  let r := { r with
    client
    handed := r.handed ++
      [Handed.body (src.take n.toNat) n r.contentBytesLeft (decide (sent = n))] }
  if sent ≠ n then r.error
  else if r.contentLength > 0 then
    let r := if r.contentBytesLeft > 0 then
        { r with contentBytesLeft := r.contentBytesLeft - n } else r
    if r.contentBytesLeft < 0 then r.error else (true, r)
  else (true, r)

/-- `hiw_response_write_body_raw` -/
def writeBodyRaw (cfg : Config) (r : HiwResponse) (src : Bytes) (n : ℤ) :
    Option (Bool × HiwResponse) :=
  andThen
    (if r.flags.headersSent then some (true, r)
    else if r.contentLength ≤ 0 then some r.error
    else r.flushHeaders cfg)
    fun r => some (r.sendBody src n)

/-- The operations on a response. -/
inductive Op where
  | setStatusCode (status : ℤ)
  | writeHeader (name value : Bytes)
  | setContentType (mimeType : Bytes)
  | setContentLength (len : ℤ)
  | setConnectionClose (close : Bool)
  | writeBodyRaw (src : Bytes) (n : ℤ)
  | flushHeaders
  deriving DecidableEq, Repr

/-- Perform an operation. -/
def perform (cfg : Config) (r : HiwResponse) : Op → Option (Bool × HiwResponse)
  | .setStatusCode status => r.setStatusCode status
  | .writeHeader name value => r.writeHeader cfg name value
  | .setContentType mimeType => r.setContentType cfg mimeType
  | .setContentLength len => r.setContentLength cfg len
  | .setConnectionClose close => r.setConnectionClose cfg close
  | .writeBodyRaw src n => r.writeBodyRaw cfg src n
  | .flushHeaders => r.flushHeaders cfg

/-- The response after an operation, whatever its result. -/
def step (cfg : Config) (r : HiwResponse) (op : Op) : Option HiwResponse :=
  (r.perform cfg op).map Prod.snd

end HiwResponse

end Highway
