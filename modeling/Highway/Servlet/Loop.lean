import Highway.Servlet.Body
import Highway.Servlet.Connection
import Highway.Servlet.Message

/-!
# The connection loop

`hiw_servlet_start_filter_chain` on one client, from the first `read_retry` to the end of the
connection: a machine whose step is one request (`ChainState.iterate`).  What filters and servlet
do with a request is a program over the two interfaces they have, `hiw_request_recv` and the
operations on the response (`Servlet`).

The loop records the requests it invokes the servlet for, with the bytes of the buffer that nobody
has read when it leaves them.
-/

namespace Highway

open Lib

/-- A servlet function together with the filters in front of it, on one request. -/
inductive Servlet where
  /-- Return. -/
  | done
  /-- Call `hiw_request_recv`, and go on with its result and the bytes of `dest`. -/
  | recv (dest : Bytes) (n : ℤ) (next : ℤ → Bytes → Servlet)
  /-- Call an operation on the response, and go on with its result. -/
  | respond (op : HiwResponse.Op) (next : Bool → Servlet)

/-- Run a servlet function; request and response have the same client. -/
def Servlet.run (cfg : Config) :
    Servlet → HiwRequest → HiwResponse → Option (HiwRequest × HiwResponse)
  | done, req, r => some (req, r)
  | recv dest n next, req, r =>
    let (result, dest, req, client) := req.recv r.client dest n
    (next result dest).run cfg req { r with client }
  | respond op next, req, r =>
    match r.perform cfg op with
    | none => none
    | some (ok, r) => (next ok).run cfg req r

/-- A request that the servlet was invoked for. -/
structure Invocation where
  method : Bytes
  uri : Bytes
  headers : List (Bytes × Bytes)
  /-- The read-ahead bytes that are left when the loop goes on. -/
  dropped : Bytes
  deriving DecidableEq, Repr

/-- Where the loop is. -/
inductive ChainState.Phase where
  /-- At `read_retry`. -/
  | retry
  /-- At `read_abort`. -/
  | closed
  /-- Outside of the defined behaviour. -/
  | undefined
  deriving DecidableEq, Repr

/-- The state of `hiw_servlet_start_filter_chain`, for one client. -/
structure ChainState where
  request : HiwRequest
  /-- The block of the response. -/
  memoryFixed : Buf
  client : HiwClient
  invoked : List Invocation
  phase : ChainState.Phase

namespace ChainState

/-- The end of reading the request. -/
def reader (cfg : Config) (s : ChainState) : HiwReader :=
  s.request.reset.readHeaders cfg s.client

/-- The response that filters and servlet get. -/
def response (cfg : Config) (s : ChainState) : HiwResponse :=
  .start cfg s.memoryFixed (s.reader cfg).client (s.reader cfg).req.connectionClose

/-- Request and response after filters and servlet. -/
def served (cfg : Config) (servlet : HiwRequest → Servlet) (s : ChainState) :
    Option (HiwRequest × HiwResponse) :=
  (servlet (s.reader cfg).req).run cfg (s.reader cfg).req (s.response cfg)

/-- The record of the request that was read, when the loop leaves it as `req`. -/
def invocation (cfg : Config) (s : ChainState) (req : HiwRequest) : Invocation where
  method := (s.reader cfg).req.head.method
  uri := (s.reader cfg).req.head.uri
  headers := (s.reader cfg).req.head.headers
  dropped := req.readAheadBytes

/-- From one `read_retry` to the next, or to `read_abort`. -/
def iterate (cfg : Config) (servlet : HiwRequest → Servlet) (s : ChainState) : ChainState :=
  match (s.reader cfg).phase with
  | .returned true =>
    match s.served cfg servlet with
    | none => { s with phase := .undefined }
    | some (request, r) =>
      let s := { s with
        request
        invoked := s.invoked ++ [s.invocation cfg request] }
      match r.finish cfg request.contentLengthRemaining with
      | none => { s with phase := .undefined }
      | some (retry, r) =>
        { s with
          memoryFixed := r.memoryFixed
          client := r.client
          phase := if retry then .retry else .closed }
  | .returned false =>
    { s with request := (s.reader cfg).req, client := (s.reader cfg).client, phase := .closed }
  | _ => { s with phase := .undefined }

/-- The connection has ended. -/
def final (s : ChainState) : Bool := decide (s.phase ≠ .retry)

/-- The loop on a new client, with the objects of the thread. -/
def start (request : HiwRequest) (memoryFixed : Buf) (client : HiwClient) : ChainState :=
  ⟨request, memoryFixed, client, [], .retry⟩

end ChainState

/-! ### What stays as it is -/

namespace HiwReader

variable {cfg : Config} {s s' : HiwReader}

theorem memory_step (hi : Iter cfg s s') : s'.req.memory = s.req.memory := by
  cases hi with
  | header hp hl hc hs =>
    rw [(applyHeader_eq _ _).1]
    rfl
  | _ => rfl

end HiwReader

namespace HiwRequest

variable {cfg : Config} {req req' : HiwRequest} {client client' : HiwClient} {dest dest' : Bytes}
  {n result : ℤ}

theorem memory_readHeaders (hf : req.Fresh cfg) (client : HiwClient) :
    (req.readHeaders cfg client).req.memory = ⟨cfg.maxHeaderSize, cfg.maxHeaderSize, -1⟩ := by
  refine (visited_readHeaders cfg req client).invariant
    (I := fun s => s.req.memory = ⟨cfg.maxHeaderSize, cfg.maxHeaderSize, -1⟩) ?_ ?_
  · rw [HiwReader.start_eq hf]
  · intro s _ hnf h
    rw [HiwReader.memory_step (HiwReader.iter_step hnf), h]

/-- The body of the request has been received. -/
structure Ahead (req : HiwRequest) : Prop where
  nonneg : 0 ≤ req.readAheadLength
  le : req.contentLengthRemaining ≤ req.readAheadLength

/-- Of a body that has been received, a call takes bytes from the buffer only. -/
theorem recv_ahead (h : req.Ahead)
    (hrecv : req.recv client dest n = (result, dest', req', client')) :
    req'.Ahead ∧ client' = client ∧ req'.readAheadBytes <:+ req.readAheadBytes ∧
      req'.memory = req.memory := by
  by_cases hle : n ≤ 0 ∨ req.contentLength = 0 ∨ req.contentLengthRemaining ≤ 0
  · rw [recv_of_le hle] at hrecv
    simp only [Prod.mk.injEq] at hrecv
    obtain ⟨-, -, rfl, rfl⟩ := hrecv
    exact ⟨h, rfl, List.suffix_rfl, rfl⟩
  · obtain ⟨hn, hcl, hrem⟩ : 0 < n ∧ req.contentLength ≠ 0 ∧ 0 < req.contentLengthRemaining := by
      simpa only [not_or, not_le] using hle
    -- no more is asked for than the buffer has, so the socket is left alone
    have hasked : req.asked n ≤ req.readAheadLength := (min_le_right _ _).trans h.le
    have hpos : 0 < req.asked n := lt_min hn hrem
    rw [recv_eq hn hcl hrem h.nonneg, if_pos hasked] at hrecv
    simp only [Prod.mk.injEq] at hrecv
    obtain ⟨-, -, rfl, rfl⟩ := hrecv
    refine ⟨⟨?_, ?_⟩, rfl, ?_, rfl⟩
    · show 0 ≤ req.readAheadLength - req.asked n
      omega
    · show req.contentLengthRemaining - req.asked n ≤ req.readAheadLength - req.asked n
      have := h.le
      omega
    · have htake : ((req.asked n).toNat : ℤ) = req.asked n := Int.toNat_of_nonneg hpos.le
      have hdrop : (req.take (req.asked n).toNat).readAheadBytes =
          req.readAheadBytes.drop (req.asked n).toNat := readAheadBytes_take (by omega)
      rw [htake] at hdrop
      show (req.take (req.asked n)).readAheadBytes <:+ _
      rw [hdrop]
      exact List.drop_suffix _ _

end HiwRequest

namespace HiwResponse

variable {cfg : Config} {P : Op → Prop} {r r' : HiwResponse}

theorem client_accept (r : HiwResponse) (name value : Bytes) :
    (r.accept name value).client = r.client := by
  show r.begun.client = _
  unfold begun
  split <;> rfl

theorem client_concluded : (r.concluded cfg).client = r.client := by
  unfold concluded
  split
  · exact client_accept r (serverHeaderName cfg) (serverHeaderValue cfg)
  · rfl

theorem incoming_change (hc : Change cfg P r r') : r'.client.incoming = r.client.incoming := by
  cases hc with
  | fail => rfl
  | status => rfl
  | header name value hacc => rw [client_accept]
  | length => rfl
  | connection => rfl
  | head hP hs hlen hconn hserver =>
    have hsend : ∀ r : HiwResponse, r.sendHead.2.client.incoming = r.client.incoming := by
      intro r
      unfold sendHead
      dsimp only
      split_ifs <;> rfl
    rw [hsend, client_concluded]
  | body src n hP hs =>
    unfold sendBody
    dsimp only
    split_ifs <;> rfl

theorem incoming_of_changes (h : Relation.ReflTransGen (Change cfg P) r r') :
    r'.client.incoming = r.client.incoming :=
  invariant_of_reflTransGen (I := fun r' => r'.client.incoming = r.client.incoming)
    (fun _ _ hc h => (incoming_change hc).trans h) h rfl

end HiwResponse

/-- A servlet function on a request whose body has been received leaves the socket's incoming
bytes alone. -/
theorem Servlet.run_ahead {cfg : Config} {servlet : Servlet} {req req' : HiwRequest}
    {r r' : HiwResponse} (h : req.Ahead) (hr : r.Base)
    (hrun : servlet.run cfg req r = some (req', r')) :
    r'.Base ∧ r'.client.incoming = r.client.incoming ∧ req'.readAheadBytes <:+ req.readAheadBytes ∧
      req'.memory = req.memory := by
  -- the induction is on the program, with the request and the response it has come to
  induction servlet generalizing req r with
  | done =>
    cases hrun
    exact ⟨hr, rfl, List.suffix_rfl, rfl⟩
  | recv dest n next ih =>
    rcases hcall : req.recv r.client dest n with ⟨result, dest', req₁, client⟩
    obtain ⟨h₁, rfl, hsuffix, hmem⟩ := HiwRequest.recv_ahead h hcall
    simp only [run, hcall] at hrun
    obtain ⟨hb, hin, hs, hm⟩ := ih result dest' h₁ hr hrun
    exact ⟨hb, hin, hs.trans hsuffix, hm.trans hmem⟩
  | respond op next ih =>
    simp only [run] at hrun
    match hop : r.perform cfg op with
    | none => simp [hop] at hrun
    | some (ok, r₁) =>
      simp only [hop] at hrun
      have hpath := HiwResponse.changes_of_step (P := fun _ => True) hr trivial trivial
        (show HiwResponse.step cfg r op = some r₁ by rw [HiwResponse.step, hop]; rfl)
      obtain ⟨hb, hin, hs, hm⟩ := ih ok h (HiwResponse.base_of_changes hpath hr) hrun
      exact ⟨hb, hin.trans (HiwResponse.incoming_of_changes hpath), hs, hm⟩

end Highway
