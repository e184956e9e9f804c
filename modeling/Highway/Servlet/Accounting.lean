import Highway.Servlet.Body

/-!
# The counters of a request body

`hiw_request_recv` keeps three values: what remains of the body, and where the read-ahead bytes
begin and how many they are.  Whatever is asked for and whatever the socket answers, what remains
of the body and what was returned make up the body, and nothing becomes negative
(`HiwRequest.accounts`).

The counters are not undone when a call fails.  A call that has taken the read-ahead bytes before
its receive fails has lost them, and it is the only kind of failure that changes anything
(`HiwRequest.keepsPlace_iff`).
-/

namespace Highway

open Lib

namespace HiwRequest

/-- The number of bytes that `hiw_request_recv` asks the socket for; 0 if it does not. -/
def recvLength (req : HiwRequest) (n : ℤ) : ℤ :=
  if n = 0 then 0
  else if req.contentLength = 0 then 0
  else if req.contentLengthRemaining ≤ 0 then 0
  else
    let n := if n > req.contentLengthRemaining then req.contentLengthRemaining else n
    if n ≤ 0 then 0
    else if req.readAheadLength > 0 then
      n - (if req.readAheadLength > n then n else req.readAheadLength)
    else n

variable {cfg : Config} {req req' : HiwRequest} {client client' : HiwClient}
  {dest dest' : Bytes} {n r : ℤ}

theorem taken_nonneg (hpos : 0 ≤ req.asked n) : 0 ≤ req.taken n := by
  unfold taken
  split_ifs <;> omega

theorem taken_le_asked (hpos : 0 ≤ req.asked n) : req.taken n ≤ req.asked n := by
  unfold taken
  split_ifs <;> omega

theorem taken_le_readAheadLength (hra : 0 ≤ req.readAheadLength) :
    req.taken n ≤ req.readAheadLength := by
  unfold taken
  split_ifs <;> omega

theorem recvLength_of_le (h : n ≤ 0 ∨ req.contentLength = 0 ∨ req.contentLengthRemaining ≤ 0) :
    req.recvLength n = 0 := by
  unfold recvLength
  dsimp only
  split_ifs <;> first | rfl | omega

theorem recvLength_eq (hn : 0 < n) (hcl : req.contentLength ≠ 0)
    (hrem : 0 < req.contentLengthRemaining) :
    req.recvLength n = req.asked n - req.taken n := by
  unfold recvLength taken asked
  dsimp only
  split_ifs <;> omega

theorem refused_or (req : HiwRequest) (n : ℤ) :
    (n ≤ 0 ∨ req.contentLength = 0 ∨ req.contentLengthRemaining ≤ 0) ∨
      (0 < n ∧ req.contentLength ≠ 0 ∧ 0 < req.contentLengthRemaining) := by
  omega

/-- A call makes one receive, for as many bytes as `recvLength` says, or none. -/
theorem recv_client (req : HiwRequest) (client : HiwClient) (dest : Bytes) (n : ℤ) :
    (req.recv client dest n).2.2.2 =
      if 0 < req.recvLength n then (client.recv (req.recvLength n).toNat).2 else client := by
  rcases refused_or req n with h | ⟨hn, hcl, hrem⟩
  · rw [recv_of_le h, recvLength_of_le h]
    rfl
  · rw [recv_eq_taken hn hcl hrem, recvLength_eq hn hcl hrem]
    by_cases hle : req.asked n - req.taken n ≤ 0
    · rw [if_pos hle, if_neg (not_lt.2 hle)]
    · rw [if_neg hle, if_pos (not_le.1 hle)]
      rcases client.recv (req.asked n - req.taken n).toNat with ⟨_ | bs, c⟩ <;> rfl

/-- How a call ends. -/
inductive RecvEnd (req : HiwRequest) (n : ℤ) : ℤ → HiwRequest → Prop
  /-- Refused, or nothing was asked for. -/
  | refused {r : ℤ} : r = 0 ∧ n = 0 ∨ r = -1 → RecvEnd req n r req
  /-- The read-ahead bytes are taken, and the receive for the rest fails. -/
  | failed : 0 ≤ req.taken n → RecvEnd req n (-1) (req.take (req.taken n))
  /-- Bytes are delivered. -/
  | answered {r : ℤ} : 0 < n → 0 ≤ req.taken n → req.taken n ≤ r → r ≤ req.asked n →
      RecvEnd req n r ((req.take (req.taken n)).delivered r)

theorem recvEnd (h : req.recv client dest n = (r, dest', req', client')) :
    RecvEnd req n r req' := by
  rcases refused_or req n with href | ⟨hn, hcl, hrem⟩
  · rw [recv_of_le href] at h
    obtain ⟨rfl, rfl, rfl, rfl⟩ : _ ∧ _ ∧ _ ∧ _ := by simpa using h
    by_cases h0 : n = 0
    · exact .refused (.inl ⟨if_pos h0, h0⟩)
    · exact .refused (.inr (if_neg h0))
  · have hpos : 0 ≤ req.asked n := by unfold asked; omega
    have h0 := taken_nonneg hpos
    have hle := taken_le_asked hpos
    rw [recv_eq_taken hn hcl hrem] at h
    split_ifs at h with hall
    · simp only [Prod.mk.injEq] at h
      obtain ⟨rfl, -, rfl, -⟩ := h
      exact .answered hn h0 le_rfl hle
    · rcases hrecv : client.recv (req.asked n - req.taken n).toNat with ⟨_ | bs, c⟩
      · simp only [hrecv, Prod.mk.injEq] at h
        obtain ⟨rfl, -, rfl, -⟩ := h
        exact .failed h0
      · have hbs := HiwClient.length_le_of_recv hrecv
        simp only [hrecv, Prod.mk.injEq] at h
        obtain ⟨rfl, -, rfl, -⟩ := h
        exact .answered hn h0 (by omega) (by omega)

/-! ### Sequences of calls -/

/-- A request whose body is read, and the sum of the positive results so far. -/
structure BodyRun where
  req : HiwRequest
  client : HiwClient
  returned : ℤ

/-- A call, whatever it returns. -/
def BodyRun.call (t : BodyRun) (args : Bytes × ℤ) : BodyRun :=
  let (r, _, req, client) := t.req.recv t.client args.1 args.2
  ⟨req, client, t.returned + max r 0⟩

/-- The counters of a body, against the request `req` as the parser left it. -/
structure BodyRun.Accounts (req : HiwRequest) (t : BodyRun) : Prop where
  sum : t.req.contentLengthRemaining + t.returned = req.contentLength
  remaining : 0 ≤ t.req.contentLengthRemaining
  readAheadLength : 0 ≤ t.req.readAheadLength
  stop : t.req.readAhead + t.req.readAheadLength = req.readAhead + req.readAheadLength

/-- **Every call keeps the accounts.** -/
theorem BodyRun.Accounts.call {t : BodyRun} (h : t.Accounts req) (args : Bytes × ℤ) :
    (t.call args).Accounts req := by
  rcases hrecv : t.req.recv t.client args.1 args.2 with ⟨r, dest', req', client'⟩
  have hcall : t.call args = ⟨req', client', t.returned + max r 0⟩ := by
    simp only [BodyRun.call, hrecv]
  have hsum := h.sum
  have hrem := h.remaining
  have hra := h.readAheadLength
  have hstop := h.stop
  have hle := taken_le_readAheadLength (n := args.2) hra
  rw [hcall]
  cases recvEnd hrecv with
  | refused hr =>
    have hmax : max r 0 = 0 := by omega
    rw [hmax, Int.add_zero]
    exact ⟨hsum, hrem, hra, hstop⟩
  | failed h0 =>
    -- the read-ahead bytes are gone, but nothing was returned
    refine ⟨?_, hrem, ?_, ?_⟩ <;> simp only [take] <;> omega
  | answered hn h0 hkr hr =>
    have hask : t.req.asked args.2 ≤ t.req.contentLengthRemaining := by unfold asked; omega
    refine ⟨?_, ?_, ?_, ?_⟩ <;> simp only [delivered, take] <;> omega

theorem BodyRun.Accounts.calls {t : BodyRun} (h : t.Accounts req) (args : List (Bytes × ℤ)) :
    (args.foldl BodyRun.call t).Accounts req := by
  induction args generalizing t with
  | nil => exact h
  | cons a args ih => exact ih (h.call a)

/-- **The accounts of a body.**  From the state in which the parser leaves an accepted request,
after any calls: what remains and what was returned make up the body, nothing is negative, the end
of the read-ahead bytes stays where it is, the socket is not asked for more than remains besides
the read-ahead bytes, and no call returns more than it was asked for. -/
theorem accounts (hf : req.Fresh cfg) {s : HiwReader} (hs : s = req.readHeaders cfg client)
    (hp : s.phase = .returned true) (hcl : 0 ≤ s.req.contentLength) (args : List (Bytes × ℤ)) :
    let t := args.foldl BodyRun.call ⟨s.req, s.client, 0⟩
    t.req.contentLengthRemaining + t.returned = s.req.contentLength ∧
      0 ≤ t.req.contentLengthRemaining ∧ 0 ≤ t.req.readAheadLength ∧
      t.req.readAhead + t.req.readAheadLength = s.req.readAhead + s.req.readAheadLength ∧
      ∀ dest n, (0 < t.req.recvLength n →
          t.req.recvLength n ≤ s.req.contentLength - t.returned - t.req.readAheadLength) ∧
        (0 ≤ (t.req.recv t.client dest n).1 → (t.req.recv t.client dest n).1 ≤ n) := by
  intro t
  have hv : s.Valid cfg := hs ▸ valid_readHeaders hf client
  obtain ⟨-, hra, -⟩ := hv.accepted hp
  have hrem : s.req.contentLengthRemaining = s.req.contentLength := by
    rcases hv.remaining hp with hrem | ⟨hcl', -⟩
    · exact hrem
    · omega
  have hstart : BodyRun.Accounts s.req ⟨s.req, s.client, 0⟩ :=
    ⟨by simp only [hrem, Int.add_zero], by simp only [hrem, hcl], hra, rfl⟩
  have hacc : BodyRun.Accounts s.req t := hstart.calls args
  refine ⟨hacc.sum, hacc.remaining, hacc.readAheadLength, hacc.stop, fun dest n => ⟨?_, ?_⟩⟩
  · intro hrecv
    have hsum := hacc.sum
    have hra' := hacc.readAheadLength
    rcases refused_or t.req n with href | ⟨hn, hcl', hpos⟩
    · rw [recvLength_of_le href] at hrecv
      omega
    · -- the read-ahead bytes are all taken before the socket is asked
      have hask : t.req.asked n ≤ t.req.contentLengthRemaining := by unfold asked; omega
      rw [recvLength_eq hn hcl' hpos] at hrecv ⊢
      unfold taken at hrecv ⊢
      split_ifs at hrecv ⊢ <;> omega
  · intro hr
    rcases hrecv : t.req.recv t.client dest n with ⟨r, dest', req', client'⟩
    rw [hrecv] at hr
    cases recvEnd hrecv with
    | refused hcase => simp only at hr ⊢; omega
    | failed => simp at hr
    | answered hn h0 hkr hle =>
      have hask : t.req.asked n ≤ n := by unfold asked; omega
      exact hle.trans hask

/-- A body of ten bytes, five of them read ahead, after a call that fails and one for more than
there is. -/
theorem accounts_put :
    let s := (HiwRequest.init .default fun _ => 0).reset.readHeaders .default
      ⟨[.data (ascii "PUT / HTTP/1.1\r\nContent-Length: 10\r\n\r\nhello"), .error,
        .data (ascii "world")], [], []⟩
    let t := [(List.replicate 10 0, 10), (List.replicate 12 0, 12)].foldl BodyRun.call
      ⟨s.req, s.client, 0⟩
    t.req.contentLengthRemaining + t.returned = s.req.contentLength := by
  intro s t
  exact (accounts (fresh_reset rfl rfl) rfl (by decide +kernel) (by decide +kernel)
    [(List.replicate 10 0, 10), (List.replicate 12 0, 12)]).1

/-! ### Failed calls -/

/-- A call that returns -1 leaves the counters as they are, and the next call finds the same bytes
to be read. -/
def KeepsPlace (req : HiwRequest) (client : HiwClient) (dest : Bytes) (n : ℤ) : Prop :=
  ∀ dest' req' client', req.recv client dest n = (-1, dest', req', client') →
    req'.readAhead = req.readAhead ∧ req'.readAheadLength = req.readAheadLength ∧
      req'.contentLengthRemaining = req.contentLengthRemaining ∧
      unread req' client' = unread req client

theorem keepsPlace_of_ne (h : (req.recv client dest n).1 ≠ -1) :
    req.KeepsPlace client dest n := by
  intro dest' req' client' hrecv
  rw [hrecv] at h
  exact absurd rfl h

/-- A call that takes all read-ahead bytes, and whose receive for the rest fails, loses them. -/
theorem loses_of_recv_none (hcl : req.contentLength ≠ 0) (hra : 0 < req.readAheadLength)
    (hlt : req.readAheadLength < req.asked n)
    (hnone : (client.recv (req.asked n - req.readAheadLength).toNat).1 = none) :
    ¬ req.KeepsPlace client dest n := by
  intro hkeep
  have hn : 0 < n := by unfold asked at hlt; omega
  have hrem : 0 < req.contentLengthRemaining := by unfold asked at hlt; omega
  have htaken : req.taken n = req.readAheadLength := by rw [taken, if_pos hra]; omega
  unfold KeepsPlace at hkeep
  rw [recv_eq_taken hn hcl hrem, htaken, if_neg (by omega)] at hkeep
  rcases hrecv : client.recv (req.asked n - req.readAheadLength).toNat with ⟨_ | bs, c⟩
  · rw [hrecv] at hkeep
    have hleft := (hkeep _ _ _ rfl).2.1
    simp only [take] at hleft
    omega
  · simp [hrecv] at hnone

/-- A call that finds enough read-ahead bytes, or is sent more, does not fail. -/
theorem keepsPlace_of_readAhead (hn : 0 < n) (hcl : req.contentLength ≠ 0)
    (hrem : 0 < req.contentLengthRemaining) (hra : 0 < req.readAheadLength)
    (hsent : req.readAheadLength < req.asked n →
      (client.recv (req.asked n - req.readAheadLength).toNat).1 ≠ none) :
    req.KeepsPlace client dest n := by
  have hpos : 0 < req.asked n := by unfold asked; omega
  refine keepsPlace_of_ne ?_
  rw [recv_eq_taken hn hcl hrem]
  rcases le_or_gt (req.asked n) req.readAheadLength with hle | hlt
  · have htaken : req.taken n = req.asked n := by rw [taken, if_pos hra]; omega
    rw [htaken, if_pos (by omega)]
    simp only
    omega
  · have htaken : req.taken n = req.readAheadLength := by rw [taken, if_pos hra]; omega
    rw [htaken, if_neg (by omega)]
    rcases hrecv : client.recv (req.asked n - req.readAheadLength).toNat with ⟨_ | bs, c⟩
    · exact absurd (by rw [hrecv]) (hsent hlt)
    · simp only
      omega

/-- A call without read-ahead bytes takes nothing before its receive, and a receive that fails
takes nothing from the stream. -/
theorem keepsPlace_of_socket (hn : 0 < n) (hcl : req.contentLength ≠ 0)
    (hrem : 0 < req.contentLengthRemaining) (hra : ¬ 0 < req.readAheadLength) :
    req.KeepsPlace client dest n := by
  have hpos : 0 < req.asked n := by unfold asked; omega
  have htaken : req.taken n = 0 := if_neg hra
  have htake : req.take 0 = req := by simp [take]
  intro dest' req' client' h
  rw [recv_eq_taken hn hcl hrem, htaken, if_neg (by omega), htake] at h
  rcases hrecv : client.recv (req.asked n - 0).toNat with ⟨_ | bs, c⟩
  · have hstream := HiwClient.stream_of_recv_getD hrecv
    simp only [hrecv, Prod.mk.injEq] at h
    obtain ⟨-, -, rfl, rfl⟩ := h
    rw [unread, unread, hstream]
    exact ⟨rfl, rfl, rfl, rfl⟩
  · simp only [hrecv, Prod.mk.injEq] at h
    omega

/-- **When a failed call consumes nothing.**  A failure loses something exactly if the call has
taken all read-ahead bytes, and its receive for the rest of what it asked for fails. -/
theorem keepsPlace_iff (req : HiwRequest) (client : HiwClient) (dest : Bytes) (n : ℤ) :
    req.KeepsPlace client dest n ↔ ¬ (req.contentLength ≠ 0 ∧ 0 < req.readAheadLength ∧
      req.readAheadLength < req.asked n ∧
      (client.recv (req.asked n - req.readAheadLength).toNat).1 = none) := by
  constructor
  · rintro hkeep ⟨hcl, hra, hlt, hnone⟩
    exact loses_of_recv_none hcl hra hlt hnone hkeep
  · intro hno
    rcases refused_or req n with href | ⟨hn, hcl, hrem⟩
    · intro dest' req' client' h
      rw [recv_of_le href] at h
      obtain ⟨-, -, rfl, rfl⟩ := by simpa using h
      exact ⟨rfl, rfl, rfl, rfl⟩
    · by_cases hra : 0 < req.readAheadLength
      · exact keepsPlace_of_readAhead hn hcl hrem hra fun hlt hnone => hno ⟨hcl, hra, hlt, hnone⟩
      · exact keepsPlace_of_socket hn hcl hrem hra

/-- A body of ten bytes of which five were read ahead, and a time-out. -/
theorem not_keepsPlace : ¬ ∀ (req : HiwRequest) (client : HiwClient) (dest : Bytes) (n : ℤ),
    req.KeepsPlace client dest n := by
  intro hall
  let s := (HiwRequest.init .default fun _ => 0).reset.readHeaders .default
    ⟨[.data (ascii "PUT / HTTP/1.1\r\nContent-Length: 10\r\n\r\nhello"), .error], [], []⟩
  obtain ⟨hcl, hra, hlt, hnone⟩ : s.req.contentLength ≠ 0 ∧ 0 < s.req.readAheadLength ∧
      s.req.readAheadLength < s.req.asked 10 ∧
      (s.client.recv (s.req.asked 10 - s.req.readAheadLength).toNat).1 = none := by decide +kernel
  exact loses_of_recv_none hcl hra hlt hnone (hall s.req s.client (List.replicate 10 0) 10)

end HiwRequest

end Highway
