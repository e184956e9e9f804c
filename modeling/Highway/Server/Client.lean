import Highway.Std.Buffer
import Mathlib.Tactic.Common

/-!
# Clients

A client is seen through the two directions of its socket.  What `recv` returns is decided by the
peer and the kernel: `incoming` lists what they have in store, call by call.  A call asking for
fewer bytes than the next entry holds gets as many as it asked for and leaves the rest, so every
list of events is a possible behaviour and every behaviour is given by a list.  When the list is
used up, the peer has closed the connection.  `outgoing` plays the same role for `send`.
-/

namespace Highway

/-- What one call of `recv` finds: some bytes (none: the peer closed its side), or an error. -/
inductive RecvEvent where
  | data (bs : Bytes)
  | error
  deriving DecidableEq, Repr

/-- What one call of `send` does: take at most `k` of the offered bytes, or fail. -/
inductive SendEvent where
  | accept (k : ℕ)
  | error
  deriving DecidableEq, Repr

/-- `hiw_client` : the two directions of its socket, and the bytes put on the wire so far. -/
structure HiwClient where
  incoming : List RecvEvent
  outgoing : List SendEvent
  wire : Bytes := []
  deriving DecidableEq, Repr

namespace HiwClient

/-- `hiw_socket_recv` : the bytes received, `none` for the result -1, and the events left. -/
def socketRecv : List RecvEvent → ℕ → Option Bytes × List RecvEvent
  | [], _ => (some [], [])
  | e :: es, len =>
    if len = 0 then (some [], e :: es)
    else
      match e with
      | .error => (none, es)
      | .data bs =>
        if bs.length ≤ len then (some bs, es)
        else (some (bs.take len), .data (bs.drop len) :: es)

/-- `hiw_client_recv` -/
def recv (c : HiwClient) (len : ℕ) : Option Bytes × HiwClient :=
  let (r, incoming) := socketRecv c.incoming len
  (r, { c with incoming })

/-- The loop of `hiw_client_sendall` with `bytes_left` bytes to go: whether it gets through, and
the bytes it puts on the wire. -/
def sendallLoop (src : Bytes) : List SendEvent → ℕ → Bool × Bytes × List SendEvent
  | [], bytesLeft => (decide (bytesLeft = 0), [], [])
  | e :: es, bytesLeft =>
    if bytesLeft = 0 then (true, [], e :: es)
    else
      match e with
      | .error => (false, [], es)
      | .accept k =>
        let ret := min k bytesLeft
        if ret = 0 then (false, [], es)
        else
          let (ok, wire, es') := sendallLoop src es (bytesLeft - ret)
          (ok, src.take ret ++ wire, es')

/-- `hiw_client_sendall` : returns `len`, or -1. -/
def sendall (c : HiwClient) (src : Bytes) (len : ℤ) : ℤ × HiwClient :=
  let (ok, wire, outgoing) := sendallLoop src c.outgoing len.toNat
  (if ok then len else -1, { c with outgoing, wire := c.wire ++ wire })

/-- The bytes that are still to be received. -/
def stream (c : HiwClient) : Bytes :=
  c.incoming.flatMap fun
    | .data bs => bs
    | .error => []

/-- A client whose peer sends the strings `cuts` one after the other and then closes. -/
def sending (cuts : List Bytes) : HiwClient := { incoming := cuts.map .data, outgoing := [] }

variable {c c' : HiwClient} {len : ℕ} {r : Option Bytes} {bs : Bytes}

section Receive

variable {es es' : List RecvEvent}

theorem socketRecv_error (hlen : 0 < len) : socketRecv (.error :: es) len = (none, es) :=
  if_neg (Nat.ne_of_gt hlen)

theorem socketRecv_of_le (hlen : 0 < len) (h : bs.length ≤ len) :
    socketRecv (.data bs :: es) len = (some bs, es) := by
  simp only [socketRecv, Nat.ne_of_gt hlen, h, if_false, if_true]

theorem socketRecv_of_lt (hlen : 0 < len) (h : len < bs.length) :
    socketRecv (.data bs :: es) len = (some (bs.take len), .data (bs.drop len) :: es) := by
  simp only [socketRecv, Nat.ne_of_gt hlen, not_le.2 h, if_false]

/-- What a receive can do: there is nothing to receive, it fails, or it takes the bytes of the
next event or a part of them. -/
theorem socketRecv_cases (h : socketRecv es len = (r, es')) :
    (r = some [] ∧ es' = es ∧ (es = [] ∨ len = 0)) ∨
    (r = none ∧ es = .error :: es') ∨
    (∃ bs, r = some bs ∧ bs.length ≤ len ∧ es = .data bs :: es') ∨
    ∃ bs tail, r = some (bs.take len) ∧ 0 < len ∧ len < bs.length ∧ es = .data bs :: tail ∧
      es' = .data (bs.drop len) :: tail := by
  rcases Nat.eq_zero_or_pos len with rfl | hlen
  · have hnone : socketRecv es 0 = (some [], es) := by cases es <;> rfl
    obtain ⟨rfl, rfl⟩ := Prod.mk.inj (hnone.symm.trans h)
    exact .inl ⟨rfl, rfl, .inr rfl⟩
  rcases es with _ | ⟨bs | _, tail⟩
  · obtain ⟨rfl, rfl⟩ := Prod.mk.inj h
    exact .inl ⟨rfl, rfl, .inl rfl⟩
  · rcases Nat.lt_or_ge len bs.length with hlt | hle
    · obtain ⟨rfl, rfl⟩ := Prod.mk.inj ((socketRecv_of_lt hlen hlt).symm.trans h)
      exact .inr (.inr (.inr ⟨bs, tail, rfl, hlen, hlt, rfl, rfl⟩))
    · obtain ⟨rfl, rfl⟩ := Prod.mk.inj ((socketRecv_of_le hlen hle).symm.trans h)
      exact .inr (.inr (.inl ⟨bs, rfl, hle, rfl⟩))
  · obtain ⟨rfl, rfl⟩ := Prod.mk.inj ((socketRecv_error hlen).symm.trans h)
    exact .inr (.inl ⟨rfl, rfl⟩)

theorem recv_cases (h : c.recv len = (r, c')) : ∃ incoming,
    socketRecv c.incoming len = (r, incoming) ∧ c' = { c with incoming } := by
  obtain ⟨rfl, rfl⟩ := Prod.mk.inj h
  exact ⟨_, rfl, rfl⟩

end Receive

theorem length_le_of_recv (h : c.recv len = (some bs, c')) : bs.length ≤ len := by
  obtain ⟨es, hes, rfl⟩ := recv_cases h
  obtain ⟨hr, -⟩ | ⟨hr, -⟩ | ⟨bs, hr, hle, -⟩ | ⟨bs, tail, hr, -⟩ := socketRecv_cases hes
  · cases hr
    exact Nat.zero_le _
  · cases hr
  · cases hr
    exact hle
  · cases hr
    exact List.length_take_le _ _

/-- **A receive takes its bytes from the front of the stream**; none and -1 take nothing. -/
theorem stream_of_recv_getD (h : c.recv len = (r, c')) : c.stream = r.getD [] ++ c'.stream := by
  obtain ⟨es, hes, rfl⟩ := recv_cases h
  rw [stream, stream]
  obtain ⟨rfl, rfl, -⟩ | ⟨rfl, heq⟩ | ⟨bs, rfl, -, heq⟩ | ⟨bs, tail, rfl, -, -, heq, rfl⟩ :=
    socketRecv_cases hes
  · rfl
  · rw [heq]
    rfl
  · rw [heq]
    rfl
  · rw [heq, List.flatMap_cons, List.flatMap_cons, Option.getD_some, ← List.append_assoc,
      List.take_append_drop]

theorem stream_of_recv (h : c.recv len = (some bs, c')) : c.stream = bs ++ c'.stream :=
  stream_of_recv_getD h

/-- The peer sends bytes until it closes, and no receive fails. -/
def Plain (c : HiwClient) : Prop := ∀ e ∈ c.incoming, ∃ bs, bs ≠ [] ∧ e = .data bs

theorem plain_sending {cuts : List Bytes} (h : ∀ bs ∈ cuts, bs ≠ []) : (sending cuts).Plain := by
  intro e he
  obtain ⟨bs, hbs, rfl⟩ := List.mem_map.1 he
  exact ⟨bs, h bs hbs, rfl⟩

theorem Plain.recv (h : c.Plain) (hr : c.recv len = (r, c')) : c'.Plain := by
  obtain ⟨es, hes, rfl⟩ := recv_cases hr
  obtain ⟨-, rfl, -⟩ | ⟨-, heq⟩ | ⟨bs, -, -, heq⟩ | ⟨bs, tail, -, -, hlt, heq, rfl⟩ :=
    socketRecv_cases hes
  · exact h
  · exact fun e he => h e (heq ▸ List.mem_cons_of_mem _ he)
  · exact fun e he => h e (heq ▸ List.mem_cons_of_mem _ he)
  · intro e he
    rcases List.mem_cons.1 he with rfl | he
    · exact ⟨bs.drop len, by simpa using hlt, rfl⟩
    · exact h e (heq ▸ List.mem_cons_of_mem _ he)

/-- When a receive that asks for bytes gets none, the stream has ended. -/
theorem Plain.stream_eq_nil (h : c.Plain) (hlen : 0 < len) (hr : c.recv len = (r, c'))
    (hnil : r.getD [] = []) : c.stream = [] := by
  have hdata : ∀ bs es, c.incoming = .data bs :: es → bs ≠ [] := by
    intro bs es heq
    obtain ⟨bs', hne, hbs⟩ := h (.data bs) (heq ▸ List.mem_cons_self)
    exact RecvEvent.data.inj hbs ▸ hne
  obtain ⟨es, hes, rfl⟩ := recv_cases hr
  obtain ⟨-, -, hend⟩ | ⟨-, heq⟩ | ⟨bs, rfl, -, heq⟩ | ⟨bs, tail, rfl, -, -, heq, -⟩ :=
    socketRecv_cases hes
  · rw [stream, hend.resolve_right (Nat.ne_of_gt hlen)]
    rfl
  · -- the peer does not fail
    obtain ⟨bs, -, hbs⟩ := h .error (heq ▸ List.mem_cons_self)
    cases hbs
  · exact absurd hnil (hdata bs _ heq)
  · rw [Option.getD_some, List.take_eq_nil_iff] at hnil
    exact absurd hnil (not_or.2 ⟨Nat.ne_of_gt hlen, hdata bs _ heq⟩)

@[simp] theorem stream_sending (cuts : List Bytes) : (sending cuts).stream = cuts.flatten := by
  induction cuts with
  | nil => rfl
  | cons b bs ih => simpa [sending, stream] using ih

end HiwClient

end Highway
