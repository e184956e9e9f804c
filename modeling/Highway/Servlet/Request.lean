import Highway.Lib.Run
import Highway.Server.Client
import Highway.Servlet.Config
import Highway.Std.Memory
import Highway.Std.Number
import Highway.Std.String

/-!
# Reading a request head

`hiw_internal_request_read_headers` is a step machine `HiwReader`: one step is one iteration of
the loop that waits for the status line, one iteration of the inner loop over the header lines,
or one refill of the outer loop.  `HiwRequest.readHeaders` runs it; `final_readHeaders` shows
that `2 * HIW_MAX_HEADER_SIZE` iterations are always enough.

The machine works on the request's own block of memory: `pos` and `bytesRead` are the local
variables of the source, as offsets from `memory->ptr`, and method, uri and headers are views
into the block.  Assertions are compiled out, as in the release build; the asserted condition is
`HiwReader.asserts`.

A header stored past the end of the table is a write outside of it: the machine stops in the
phase `overflow`.
-/

namespace Highway

open Lib

/-- `hiw_header` : views into the request's memory. -/
structure HiwHeader where
  name : HiwString
  value : HiwString
  deriving DecidableEq, Repr

/-- `hiw_request`.  The list `headers` holds the used entries of the header table, so its length
is `headers.count`; `readAhead` is an offset into `memoryFixed`. -/
structure HiwRequest where
  method : HiwString
  uri : HiwString
  headers : List HiwHeader
  contentLength : ℤ
  memoryFixed : Buf
  memory : HiwMemory
  readAhead : ℕ
  readAheadLength : ℤ
  connectionClose : Bool
  contentLengthRemaining : ℤ

namespace HiwRequest

/-- `hiw_internal_request_init` on an object with the memory contents `mem`. -/
def init (cfg : Config) (mem : Buf) : HiwRequest where
  method := .empty
  uri := .empty
  headers := []
  contentLength := -1
  memoryFixed := mem
  memory := .fixedInit cfg.maxHeaderSize
  readAhead := 0
  readAheadLength := 0
  connectionClose := true
  contentLengthRemaining := 0

/-- `hiw_internal_request_reset` -/
def reset (req : HiwRequest) : HiwRequest :=
  { req with
    headers := []
    uri := { req.uri with length := 0 }
    method := { req.method with length := 0 }
    readAhead := 0
    readAheadLength := 0
    connectionClose := true
    contentLength := -1
    contentLengthRemaining := 0
    memory := req.memory.reset }

/-- `hiw_internal_request_parse_status_line` : method and uri, or `none` for false. -/
def parseStatusLine (m : Buf) (line : HiwString) : Option (HiwString × HiwString) :=
  if line.length = 0 then none
  else
    match HiwString.split m line 32 3 with
    | [method, uri, version] =>
      let httpVersion := HiwString.rtrim m version
      if !HiwString.cmpc (httpVersion.reads m) "HTTP/1.1" then none
      else some (HiwString.rtrim m method, HiwString.rtrim m uri)
    | _ => none

end HiwRequest

/-- Where `hiw_internal_request_read_headers` is. -/
inductive HiwReader.Phase where
  /-- In the loop that reads the status line. -/
  | statusLine
  /-- In the loops that read the headers. -/
  | headers
  /-- Returned. -/
  | returned (result : Bool)
  /-- A header was stored at this index, past the end of the table. -/
  | overflow (index : ℕ)
  deriving DecidableEq, Repr

/-- The state of `hiw_internal_request_read_headers`: the request, its client and the local
variables. -/
structure HiwReader where
  req : HiwRequest
  client : HiwClient
  bytesRead : ℕ
  pos : ℕ
  headerConnectionClose : Bool
  headerContentLength : ℤ
  phase : HiwReader.Phase

namespace HiwReader

/-- The block the request is read into. -/
def mem (s : HiwReader) : Buf := s.req.memoryFixed

/-- The bytes in front of the cursor that have been received: `bytes_left` of them. -/
def window (s : HiwReader) : HiwString := ⟨s.pos, s.bytesRead - s.pos⟩

/-- `return` -/
def ret (s : HiwReader) (result : Bool) : HiwReader := { s with phase := .returned result }

/-- The condition of `assert(pos < memory->ptr + capacity_left)`. -/
def asserts (cfg : Config) (s : HiwReader) : Prop := s.pos < cfg.maxHeaderSize - s.bytesRead

/-- `count = hiw_client_recv(client, memory->ptr + o, len)` -/
def recvAt (s : HiwReader) (o len : ℕ) : ℤ × HiwReader :=
  match s.client.recv len with
  | (none, client) => (-1, { s with client })
  | (some bs, client) =>
    (bs.length, { s with req := { s.req with memoryFixed := s.mem.write o bs }, client })

/-- One iteration of the status line loop, and on success the code behind it up to the header
loop. -/
def stepStatusLine (cfg : Config) (s : HiwReader) : HiwReader :=
  let (count, s) := s.recvAt (s.pos + s.bytesRead) (cfg.maxHeaderSize - s.bytesRead)
  if count ≤ 0 then s.ret false
  else
    let s := { s with bytesRead := s.bytesRead + count.toNat }
    -- the line is looked for in the first `count` bytes of the block
    match HiwString.readline s.mem ⟨0, count.toNat⟩ with
    | none => if cfg.maxHeaderSize ≤ s.bytesRead then s.ret false else s
    | some statusLine =>
      match HiwRequest.parseStatusLine s.mem statusLine with
      | none => s.ret false
      | some (method, uri) =>
        let s := { s with req := { s.req with method, uri } }
        if cfg.maxHeaderSize ≤ s.bytesRead then s.ret true
        else
          { s with
            pos := s.pos + statusLine.length + 1
            headerConnectionClose := s.req.connectionClose
            headerContentLength := s.req.contentLength
            phase := .headers }

/-- The code at label `done`. -/
def done (s : HiwReader) : HiwReader :=
  { s with
    req := { s.req with
      connectionClose := s.headerConnectionClose
      contentLength := s.headerContentLength
      contentLengthRemaining := s.headerContentLength }
    phase := .returned true }

/-- `if (bytes_left > 0 && *pos == c)` : the cursor behind the character. -/
def skip (s : HiwReader) (c : UInt8) (pos : ℕ) : ℕ :=
  if pos < s.bytesRead ∧ s.mem pos = c then pos + 1 else pos

/-- The header-body separator: skip a CR and a LF, and leave what follows to be read as body. -/
def separator (s : HiwReader) : HiwReader :=
  let pos := s.skip LF (s.skip CR s.pos)
  done { s with
    pos
    req := { s.req with readAhead := pos, readAheadLength := s.bytesRead - pos } }

/-- What a header does to the values that end up in the request, once it is stored. -/
def applyHeader (s : HiwReader) (header : HiwHeader) : HiwReader :=
  let name := header.name.reads s.mem
  let value := header.value.reads s.mem
  if HiwString.cmpc name "Connection" then
    { s with headerConnectionClose := HiwString.cmpc value "close" }
  else if HiwString.cmpc name "Content-Length" then
    let contentLength := stringToi value s.req.contentLength
    { s with
      req := { s.req with contentLength }
      headerContentLength := contentLength }
  else s

/-- One iteration of the inner header loop, for the line that `hiw_string_readline` found. -/
def stepLine (cfg : Config) (s : HiwReader) (line : HiwString) : HiwReader :=
  if cfg.maxHeadersCount < s.req.headers.length then s.ret false
  else
    match HiwString.split s.mem line 58 2 with
    | [name, value] =>
      let index := s.req.headers.length
      if cfg.maxHeadersCount ≤ index then { s with phase := .overflow index }
      else
        let header := ⟨HiwString.trim s.mem name, HiwString.trim s.mem value⟩
        applyHeader { s with
          req := { s.req with headers := s.req.headers ++ [header] }
          pos := s.pos + line.length + 1 } header
    | _ => if line.length ≤ 1 then s.separator else s.ret false

/-- The rest of the outer header loop, when no complete line is left: receive more bytes. -/
def refill (cfg : Config) (s : HiwReader) : HiwReader :=
  let capacityLeft := cfg.maxHeaderSize - s.bytesRead
  if capacityLeft = 0 then s.ret false
  else
    -- the bytes are received at `pos`, whatever is left there of an unfinished line
    let (count, s) := s.recvAt s.pos capacityLeft
    if count ≤ 0 then s.ret false else { s with bytesRead := s.bytesRead + count.toNat }

/-- One iteration. -/
def step (cfg : Config) (s : HiwReader) : HiwReader :=
  match s.phase with
  | .statusLine => s.stepStatusLine cfg
  | .headers =>
    match HiwString.readline s.mem s.window with
    | some line => s.stepLine cfg line
    | none => s.refill cfg
  | .returned _ => s
  | .overflow _ => s

/-- The function has returned or left the defined behaviour of the language. -/
def final (s : HiwReader) : Bool :=
  match s.phase with
  | .returned _ => true
  | .overflow _ => true
  | _ => false

/-- The state at the first iteration. -/
def start (cfg : Config) (req : HiwRequest) (client : HiwClient) : HiwReader :=
  match req.memory.get cfg.maxHeaderSize with
  | some (some pos, memory) =>
    { req := { req with headers := [], memory }
      client
      bytesRead := 0
      pos
      headerConnectionClose := req.connectionClose
      headerContentLength := req.contentLength
      phase := .statusLine }
  | _ =>
    { req
      client
      bytesRead := 0
      pos := 0
      headerConnectionClose := req.connectionClose
      headerContentLength := req.contentLength
      phase := .returned false }

end HiwReader

/-- `hiw_internal_request_read_headers` : the state in which it ends. -/
def HiwRequest.readHeaders (cfg : Config) (req : HiwRequest) (client : HiwClient) : HiwReader :=
  runFuel (HiwReader.step cfg) HiwReader.final (2 * cfg.maxHeaderSize + 2)
    (HiwReader.start cfg req client)

end Highway
