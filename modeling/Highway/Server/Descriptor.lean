import Mathlib.Data.Finset.Card

/-!
# Descriptors

The sockets of the process live in a table of descriptors.  `accept` opens one; only `close` would
free one again.  The sources give their sockets back through the macro `hiw_socket_close`, which on
other systems than Windows is a `shutdown` : it ends the connection and leaves the descriptor open.

* `Descriptors` : the table, with what has been shut down.
* `HiwServer` : the listening socket, and the functions of the server that open sockets and give
  them back.
-/

namespace Highway

/-- The descriptors that are open, and the calls of `shutdown` in the order they were made. -/
structure Descriptors where
  opened : Finset ℕ
  shut : List ℕ

/-- `hiw_socket_close`, as defined for other systems than Windows: `shutdown(s, SHUT_RDWR)`. -/
def Descriptors.hiwSocketClose (t : Descriptors) (socket : ℕ) : Descriptors :=
  { t with shut := t.shut ++ [socket] }

/-- What the system does in `hiw_socket_accept` : `accept` fails, or it opens the descriptor
`socket` and the time-outs can be configured or not. -/
inductive AcceptEvent where
  | fails
  | accepts (socket : ℕ) (configured : Bool)
  deriving DecidableEq, Repr

/-- `hiw_socket_accept` : the socket, unless it is `INVALID_SOCKET`; `none` if the event is not
possible, because its descriptor is open already. -/
def Descriptors.hiwSocketAccept (t : Descriptors) : AcceptEvent → Option (Option ℕ × Descriptors)
  | .fails => some (none, t)
  | .accepts socket configured =>
    if socket ∈ t.opened then none
    else
      let t := { t with opened := insert socket t.opened }
      if configured then some (some socket, t) else some (none, t.hiwSocketClose socket)

/-- `hiw_client_delete` of a client with the given socket. -/
def Descriptors.hiwClientDelete (t : Descriptors) (socket : Option ℕ) : Descriptors :=
  match socket with
  | none => t
  | some socket => t.hiwSocketClose socket

/-- `hiw_server`, as far as its socket goes. -/
structure HiwServer where
  /-- The listening socket, unless it is `INVALID_SOCKET`. -/
  socket : Option ℕ
  running : Bool

namespace HiwServer

/-- `hiw_server_accept` : the socket of the new client, if there is one. -/
def accept (s : HiwServer) (t : Descriptors) (e : AcceptEvent) :
    Option (Option ℕ × Descriptors) :=
  if s.running then t.hiwSocketAccept e else some (none, t)

/-- `hiw_server_stop` -/
def stop (s : HiwServer) (t : Descriptors) : HiwServer × Descriptors :=
  if s.running then
    match s.socket with
    | none => ({ s with running := false }, t)
    | some socket => ({ socket := none, running := false }, t.hiwSocketClose socket)
  else (s, t)

end HiwServer

end Highway
