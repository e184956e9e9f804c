import Highway.Lib.Run
import Highway.Server.Client
import Mathlib.Data.Int.Order.Basic
import Mathlib.Order.Basic

/-!
# `hiw_socket_recv_all`

The loop ends when all bytes are there or a receive fails.  Its documentation reserves -1 for a
socket that failed to read any bytes, but a failure gives the number of bytes stored, 0 included;
and a receive that returns 0, as every receive does once the peer has closed, leaves the loop
where it is.  `RecvAll.reports_iff` says for which peers the function returns what it should.
-/

namespace Highway

open Lib

/-- A call of `hiw_socket_recv_all` : the socket, as in `HiwClient.incoming`, and the variables.
`result` is what the function has returned. -/
structure RecvAll where
  socket : List RecvEvent
  dest : Buf
  bytesLeft : ℤ
  result : Option ℤ

namespace RecvAll

/-- One iteration of the loop of `hiw_socket_recv_all`, or the `return` behind it.  The bytes are
stored behind the `len - bytes_left` bytes that are there. -/
def step (len : ℤ) (s : RecvAll) : RecvAll :=
  if s.bytesLeft > 0 then
    match HiwClient.socketRecv s.socket s.bytesLeft.toNat with
    | (none, socket) => { s with socket, result := some (len - s.bytesLeft) }
    | (some bs, socket) =>
      { s with
        socket
        dest := s.dest.write (len - s.bytesLeft).toNat bs
        bytesLeft := s.bytesLeft - bs.length }
  else { s with result := some len }

/-- The function has returned. -/
def final (s : RecvAll) : Bool := s.result.isSome

/-- The state in front of the loop. -/
def start (socket : List RecvEvent) (dest : Buf) (len : ℤ) : RecvAll :=
  ⟨socket, dest, len, if len = 0 then some 0 else none⟩

/-- The bytes that a socket has in store. -/
def stored (socket : List RecvEvent) : Bytes := HiwClient.stream ⟨socket, [], []⟩

/-- The bytes in front of the first receive that fails. -/
def beforeError : List RecvEvent → Bytes
  | [] => []
  | .error :: _ => []
  | .data bs :: es => bs ++ beforeError es

/-- A receive fails before any byte was read. -/
def FailsAtOnce (socket : List RecvEvent) : Prop := .error ∈ socket ∧ beforeError socket = []

/-- The call returns, with -1 if a receive fails before any byte was read, and otherwise with the
number of bytes that it has taken from the socket and stored at the start of `dest`. -/
def Reports (socket : List RecvEvent) (dest : Buf) (len : ℤ) : Prop :=
  ∃ s result, Visited (step len) final (start socket dest len) s ∧ s.result = some result ∧
    (FailsAtOnce socket → result = -1) ∧
    (¬ FailsAtOnce socket → 0 ≤ result ∧ result ≤ len ∧
      stored socket = s.dest.bytes 0 result.toNat ++ stored s.socket)

variable {socket : List RecvEvent} {dest : Buf} {len : ℤ} {k : ℕ} {bs : Bytes}

@[simp] theorem stored_data : stored (.data bs :: socket) = bs ++ stored socket := rfl

/-- The state of the loop with `k` bytes to go. -/
def inLoop (socket : List RecvEvent) (dest : Buf) (k : ℕ) : RecvAll := ⟨socket, dest, k, none⟩

/-- The receives from the first failure on. -/
def fromError : List RecvEvent → List RecvEvent
  | [] => []
  | .error :: es => .error :: es
  | .data _ :: es => fromError es

theorem fromError_eq (socket : List RecvEvent) :
    (.error ∉ socket ∧ fromError socket = []) ∨
      (.error ∈ socket ∧ ∃ es, fromError socket = .error :: es) := by
  induction socket with
  | nil => exact .inl ⟨by simp, rfl⟩
  | cons e es ih =>
    cases e with
    | error => exact .inr ⟨by simp, es, rfl⟩
    | data bs => simpa [fromError] using ih

theorem step_data {socket' : List RecvEvent} (dest : Buf) {o : ℕ} (hlen : len = o + k) (hk : 0 < k)
    (h : HiwClient.socketRecv socket k = (some bs, socket')) (hbs : bs.length ≤ k) :
    step len (inLoop socket dest k) = inLoop socket' (dest.write o bs) (k - bs.length) := by
  have hpos : (inLoop socket dest k).bytesLeft > 0 := Int.natCast_pos.2 hk
  have ho : (len - k).toNat = o := by omega
  have hleft : (k : ℤ) - bs.length = (k - bs.length : ℕ) := by omega
  rw [step, if_pos hpos]
  simp only [inLoop, Int.toNat_natCast, h, ho, hleft]

/-- **What the loop stores.**  It takes the bytes in front of the first failure, as many as are
asked for. -/
theorem visited_beforeError (socket : List RecvEvent) (dest : Buf) (o k : ℕ)
    (hlen : len = o + k) : ∃ socket' dest',
    Visited (step len) final (inLoop socket dest k)
      (inLoop socket' dest' (k - (beforeError socket).length)) ∧
    dest'.bytes 0 (o + ((beforeError socket).take k).length) =
      dest.bytes 0 o ++ (beforeError socket).take k ∧
    stored socket = (beforeError socket).take k ++ stored socket' ∧
    ((beforeError socket).length < k → socket' = fromError socket) := by
  induction socket generalizing dest o k with
  | nil => exact ⟨[], dest, .refl, by simp [beforeError], by simp [beforeError], fun _ => rfl⟩
  | cons e es ih =>
    rcases Nat.eq_zero_or_pos k with rfl | hk
    · exact ⟨e :: es, dest, by rw [Nat.zero_sub]; exact .refl, by simp, rfl,
        fun hlt => absurd hlt (Nat.not_lt_zero _)⟩
    cases e with
    | error =>
      exact ⟨.error :: es, dest, .refl, by simp [beforeError], by simp [beforeError],
        fun _ => rfl⟩
    | data bs =>
      rcases Nat.lt_or_ge k bs.length with hlt | hle
      · -- more bytes than are left to read: the loop is done with the first of them
        have hrecv : HiwClient.socketRecv (.data bs :: es) k = _ :=
          HiwClient.socketRecv_of_lt hk hlt
        have hbs : (bs.take k).length = k := List.length_take_of_le hlt.le
        have hstep := step_data dest hlen hk hrecv hbs.le
        have htake : (beforeError (.data bs :: es)).take k = bs.take k :=
          List.take_append_of_le_length hlt.le
        refine ⟨.data (bs.drop k) :: es, dest.write o (bs.take k), ?_, ?_, ?_, ?_⟩
        · have hzero : k - (beforeError (.data bs :: es)).length = k - (bs.take k).length := by
            simp only [beforeError, List.length_append, hbs]
            omega
          rw [hzero, ← hstep]
          exact .tail .refl rfl
        · rw [htake, Buf.bytes_zero_write_append]
        · rw [htake, stored_data, stored_data, ← List.append_assoc, List.take_append_drop]
        · intro hshort
          simp only [beforeError, List.length_append] at hshort
          omega
      · obtain ⟨socket', dest', hv, hbytes, hs, hshort⟩ :=
          ih (dest.write o bs) (o + bs.length) (k - bs.length) (by omega)
        have htake : (beforeError (.data bs :: es)).take k =
            bs ++ (beforeError es).take (k - bs.length) := by
          rw [beforeError, List.take_append, List.take_of_length_le hle]
        refine ⟨socket', dest', ?_, ?_, ?_, ?_⟩
        · rw [← step_data dest hlen hk (HiwClient.socketRecv_of_le hk hle) hle, Nat.sub_sub] at hv
          simpa only [beforeError, List.length_append] using hv.head rfl
        · rw [htake, List.length_append, ← Nat.add_assoc, hbytes, Buf.bytes_zero_write_append,
            List.append_assoc]
        · rw [htake, stored_data, hs, List.append_assoc]
        · intro hlt
          refine hshort ?_
          simp only [beforeError, List.length_append] at hlt
          omega

theorem eq_of_closed {o : ℕ} {s : RecvAll} (hlen : len = o + k) (hk : 0 < k)
    (h : Visited (step len) final (inLoop [] dest k) s) : s = inLoop [] dest k := by
  refine h.invariant (I := fun s => s = inLoop [] dest k) rfl ?_
  rintro u - - rfl
  have hrecv : HiwClient.socketRecv [] k = (some [], []) := rfl
  rw [step_data dest hlen hk hrecv (Nat.zero_le _), Buf.write_nil]
  rfl

theorem start_eq (hlen : 0 < len) : start socket dest len = inLoop socket dest len.toNat := by
  rw [start, if_neg hlen.ne', inLoop, Int.toNat_of_nonneg hlen.le]

theorem visited_start (socket : List RecvEvent) (dest : Buf) (hlen : 0 < len) : ∃ socket' dest',
    Visited (step len) final (start socket dest len)
      (inLoop socket' dest' (len.toNat - (beforeError socket).length)) ∧
    dest'.bytes 0 ((beforeError socket).take len.toNat).length =
      (beforeError socket).take len.toNat ∧
    stored socket = (beforeError socket).take len.toNat ++ stored socket' ∧
    ((beforeError socket).length < len.toNat → socket' = fromError socket) := by
  have hzero : len = (0 : ℕ) + (len.toNat : ℤ) := by omega
  obtain ⟨socket', dest', hv, hbytes, hs, hshort⟩ :=
    visited_beforeError socket dest 0 len.toNat hzero
  rw [Nat.zero_add, Buf.bytes_zero, List.nil_append] at hbytes
  rw [← start_eq hlen] at hv
  exact ⟨socket', dest', hv, hbytes, hs, hshort⟩

theorem reports_of_enough (hlen : 0 < len) (h : len ≤ (beforeError socket).length) :
    Reports socket dest len := by
  obtain ⟨socket', dest', hv, hbytes, hs, -⟩ := visited_start socket dest hlen
  rw [Nat.sub_eq_zero_of_le (by omega)] at hv
  have htake : ((beforeError socket).take len.toNat).length = len.toNat :=
    List.length_take_of_le (by omega)
  rw [htake] at hbytes
  refine ⟨⟨socket', dest', 0, some len⟩, len, hv.tail rfl, rfl, ?_,
    fun _ => ⟨hlen.le, le_rfl, ?_⟩⟩
  · rintro ⟨-, hnil⟩
    simp only [hnil, List.length_nil] at h
    omega
  · rw [hs, hbytes]

theorem visited_of_error (dest : Buf) (hlen : 0 < len) (herror : .error ∈ socket)
    (h : (beforeError socket).length < len) : ∃ s, Visited (step len) final
        (start socket dest len) s ∧ s.result = some ((beforeError socket).length : ℤ) ∧
      stored socket = s.dest.bytes 0 (beforeError socket).length ++ stored s.socket := by
  obtain ⟨socket', dest', hv, hbytes, hs, hshort⟩ := visited_start socket dest hlen
  rw [List.take_of_length_le (by omega)] at hbytes hs
  obtain ⟨hno, -⟩ | ⟨-, es, hes⟩ := fromError_eq socket
  · exact absurd herror hno
  obtain rfl : socket' = .error :: es := (hshort (by omega)).trans hes
  have hpos : 0 < len.toNat - (beforeError socket).length := by omega
  have hstep : step len (inLoop (.error :: es) dest' (len.toNat - (beforeError socket).length)) =
      ⟨es, dest', (len.toNat - (beforeError socket).length : ℕ),
        some ((beforeError socket).length : ℤ)⟩ := by
    have hleft : (inLoop (.error :: es) dest'
        (len.toNat - (beforeError socket).length)).bytesLeft > 0 := Int.natCast_pos.2 hpos
    rw [step, if_pos hleft]
    have hresult : len - (len.toNat - (beforeError socket).length : ℕ) =
        (beforeError socket).length := by omega
    simp only [inLoop, Int.toNat_natCast, HiwClient.socketRecv_error hpos, hresult]
  refine ⟨⟨es, dest', (len.toNat - (beforeError socket).length : ℕ), some _⟩, ?_, rfl, ?_⟩
  · rw [← hstep]
    exact hv.tail rfl
  · rw [hs, hbytes]
    rfl

/-- A call that returns what it should has all bytes, or some bytes and a failure. -/
theorem Reports.enough_or_error {socket : List RecvEvent} {dest : Buf} (hlen : 0 < len)
    (h : Reports socket dest len) : len ≤ (beforeError socket).length ∨
      (beforeError socket ≠ [] ∧ .error ∈ socket) := by
  obtain ⟨s, result, hv, hresult, hfails, -⟩ := h
  have hfinal : s.final = true := by rw [final, hresult]; rfl
  by_contra hno
  obtain ⟨hshort, hno⟩ := not_or.1 hno
  by_cases herror : .error ∈ socket
  · -- a failure in front of the first byte is reported as 0
    have hnil : beforeError socket = [] := by
      by_contra hne
      exact hno ⟨hne, herror⟩
    obtain ⟨s', hv', hresult', -⟩ := visited_of_error dest hlen herror (by omega)
    have hfinal' : s'.final = true := by rw [final, hresult']; rfl
    obtain rfl := hv.eq_of_final hv' hfinal hfinal'
    have hzero := Option.some.inj (hresult.symm.trans hresult')
    have hminus := hfails ⟨herror, hnil⟩
    rw [hnil, List.length_nil] at hzero
    omega
  · -- the peer closes, and the loop goes on
    obtain ⟨socket', dest', hv', -, -, hclosed⟩ := visited_start socket dest hlen
    obtain ⟨-, hnil⟩ | ⟨hmem, -⟩ := fromError_eq socket
    · obtain rfl : socket' = [] := (hclosed (by omega)).trans hnil
      obtain rfl := eq_of_closed (o := (beforeError socket).length) (by omega) (by omega)
        (hv'.of_final hv hfinal)
      cases hresult
    · exact herror hmem

/-- **When `hiw_socket_recv_all` returns what it should.**  Either all bytes asked for arrive in
front of the first failure, or a receive fails after some bytes were read. -/
theorem reports_iff (socket : List RecvEvent) (dest : Buf) (hlen : 0 < len) :
    Reports socket dest len ↔ len ≤ (beforeError socket).length ∨
      (beforeError socket ≠ [] ∧ .error ∈ socket) := by
  refine ⟨Reports.enough_or_error hlen, ?_⟩
  rintro (henough | ⟨hne, herror⟩)
  · exact reports_of_enough hlen henough
  · rcases le_or_gt len (beforeError socket).length with henough | hshort
    · exact reports_of_enough hlen henough
    · obtain ⟨s, hv, hresult, hs⟩ := visited_of_error dest hlen herror hshort
      exact ⟨s, _, hv, hresult, fun hfails => absurd hfails.2 hne,
        fun _ => ⟨Int.natCast_nonneg _, hshort.le, by rwa [Int.toNat_natCast]⟩⟩

/-- Five bytes in two pieces. -/
theorem reports_pieces :
    Reports [.data (ascii "hel"), .data (ascii "lo")] (fun _ => 0) 5 :=
  (reports_iff _ _ (by decide)).2 (.inl (by decide))

/-- A peer that closes behind two of four bytes. -/
theorem not_reports : ¬∀ (socket : List RecvEvent) (dest : Buf) (len : ℤ), 0 < len →
    Reports socket dest len := by
  intro hall
  have hreports := hall [.data (ascii "ab")] (fun _ => 0) 4 (by decide)
  exact absurd (hreports.enough_or_error (by decide)) (by decide)

end RecvAll

end Highway
