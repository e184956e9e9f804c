import Highway.Servlet.Window

/-!
# Reading a request body

`hiw_request_recv` serves a call from the read-ahead bytes, from the socket, or from both; in the
last case it receives into the start of the destination, over the read-ahead bytes just copied
there.  `HiwRequest.Mixes` says that a call does this.  Without such a call the bytes that are
delivered are the bytes of the stream, and every such call delivers bytes that were in the
destination before (`HiwRequest.delivers_iff`).
-/

namespace Highway

open Lib

namespace HiwRequest

/-- `hiw_request_recv` : the result, the bytes of `dest` afterwards, and the new state. -/
def recv (req : HiwRequest) (client : HiwClient) (dest : Bytes) (n : ℤ) :
    ℤ × Bytes × HiwRequest × HiwClient :=
  if n = 0 then (0, dest, req, client)
  else if req.contentLength = 0 then (-1, dest, req, client)
  else if req.contentLengthRemaining ≤ 0 then (-1, dest, req, client)
  else
    let n := if n > req.contentLengthRemaining then req.contentLengthRemaining else n
    if n ≤ 0 then (-1, dest, req, client)
    else
      let (result, n, dest, req) :=
        if req.readAheadLength > 0 then
          let readBytes := if req.readAheadLength > n then n else req.readAheadLength
          (readBytes, n - readBytes,
            mempy (req.memoryFixed.bytes req.readAhead readBytes.toNat) dest n.toNat,
            { req with
              readAheadLength := req.readAheadLength - readBytes
              readAhead := req.readAhead + readBytes.toNat })
        else (0, n, dest, req)
      if n > 0 then
        match client.recv n.toNat with
        | (none, client) => (-1, dest, req, client)
        | (some bs, client) =>
          -- the bytes are received at the start of `dest`, whatever was copied there before
          let result := result + bs.length
          (result, mempy bs dest n.toNat,
            { req with contentLengthRemaining := req.contentLengthRemaining - result }, client)
      else
        (result, dest, { req with contentLengthRemaining := req.contentLengthRemaining - result },
          client)

/-- The number of bytes a call asks for, clamped to the body. -/
def asked (req : HiwRequest) (n : ℤ) : ℤ := min n req.contentLengthRemaining

/-- A call takes all of the read-ahead bytes, and more bytes from the socket. -/
def Mixes (req : HiwRequest) (client : HiwClient) (n : ℤ) : Prop :=
  0 < req.readAheadLength ∧ req.readAheadLength < req.asked n ∧
    (client.recv (req.asked n - req.readAheadLength).toNat).1.getD [] ≠ []

instance (req : HiwRequest) (client : HiwClient) (n : ℤ) : Decidable (req.Mixes client n) :=
  inferInstanceAs (Decidable (_ ∧ _ ∧ _))

/-- The request after `k` read-ahead bytes were taken. -/
def take (req : HiwRequest) (k : ℤ) : HiwRequest :=
  { req with
    readAheadLength := req.readAheadLength - k
    readAhead := req.readAhead + k.toNat }

/-- The request after `r` bytes of its body were delivered. -/
def delivered (req : HiwRequest) (r : ℤ) : HiwRequest :=
  { req with contentLengthRemaining := req.contentLengthRemaining - r }

variable {req req' : HiwRequest} {client client' : HiwClient} {dest dest' : Bytes} {n r : ℤ}

theorem recv_of_le (h : n ≤ 0 ∨ req.contentLength = 0 ∨ req.contentLengthRemaining ≤ 0) :
    req.recv client dest n = (if n = 0 then 0 else -1, dest, req, client) := by
  by_cases h0 : n = 0
  · simp only [recv, h0, ↓reduceIte]
  by_cases hcl : req.contentLength = 0
  · simp only [recv, h0, hcl, ↓reduceIte]
  by_cases hrem : req.contentLengthRemaining ≤ 0
  · simp only [recv, h0, hcl, hrem, ↓reduceIte]
  · have hle : (if n > req.contentLengthRemaining then req.contentLengthRemaining else n) ≤ 0 := by
      split_ifs <;> omega
    simp only [recv, h0, hcl, hrem, hle, ↓reduceIte]

/-- The number of read-ahead bytes that a call takes. -/
def taken (req : HiwRequest) (n : ℤ) : ℤ :=
  if 0 < req.readAheadLength then min (req.asked n) req.readAheadLength else 0

/-- What a call does that finds body bytes to be read: it takes read-ahead bytes, and if these are
not enough it asks the socket for the rest. -/
theorem recv_eq_taken (hn : 0 < n) (hcl : req.contentLength ≠ 0)
    (hrem : 0 < req.contentLengthRemaining) :
    req.recv client dest n =
      if req.asked n - req.taken n ≤ 0 then
        (req.taken n,
          mempy (req.readAheadBytes.take (req.taken n).toNat) dest (req.asked n).toNat,
          (req.take (req.taken n)).delivered (req.taken n), client)
      else
        match client.recv (req.asked n - req.taken n).toNat with
        | (none, c) => (-1,
            mempy (req.readAheadBytes.take (req.taken n).toNat) dest (req.asked n).toNat,
            req.take (req.taken n), c)
        | (some bs, c) => (req.taken n + bs.length,
            mempy bs (mempy (req.readAheadBytes.take (req.taken n).toNat) dest (req.asked n).toNat)
              (req.asked n - req.taken n).toNat,
            (req.take (req.taken n)).delivered (req.taken n + bs.length), c) := by
  have hasked : (if n > req.contentLengthRemaining then req.contentLengthRemaining else n) =
      req.asked n := by
    unfold asked
    split_ifs <;> omega
  have hpos : 0 < req.asked n := by unfold asked; omega
  unfold recv
  simp only [hn.ne', hcl, not_le.2 hrem, hasked, not_le.2 hpos, ↓reduceIte]
  by_cases h0 : 0 < req.readAheadLength
  · have hread : (if req.readAheadLength > req.asked n then req.asked n else
        req.readAheadLength) = req.taken n := by
      unfold taken
      split_ifs <;> omega
    have hbytes : req.memoryFixed.bytes req.readAhead (req.taken n).toNat =
        req.readAheadBytes.take (req.taken n).toNat := by
      rw [readAheadBytes, Buf.take_bytes (by rw [taken, if_pos h0]; omega)]
    have h0' : req.readAheadLength > 0 := h0
    simp only [h0', hread, hbytes, ↓reduceIte]
    by_cases hle : req.asked n - req.taken n ≤ 0
    · simp only [if_pos hle, if_neg (not_lt.2 hle)]
      rfl
    · simp only [if_neg hle, if_pos (not_le.1 hle)]
      rfl
  · -- without read-ahead bytes the source skips the copy; copying none of them is the same
    have htaken : req.taken n = 0 := if_neg h0
    have htake : req.take 0 = req := by simp [take]
    simp [h0, htaken, htake, hpos, not_le.2 hpos, delivered, mempy]

theorem recv_eq (hn : 0 < n) (hcl : req.contentLength ≠ 0) (hrem : 0 < req.contentLengthRemaining)
    (hra : 0 ≤ req.readAheadLength) :
    req.recv client dest n =
      if req.asked n ≤ req.readAheadLength then
        (req.asked n, mempy (req.readAheadBytes.take (req.asked n).toNat) dest (req.asked n).toNat,
          (req.take (req.asked n)).delivered (req.asked n), client)
      else
        match client.recv (req.asked n - req.readAheadLength).toNat with
        | (none, c) => (-1, mempy req.readAheadBytes dest (req.asked n).toNat,
            req.take req.readAheadLength, c)
        | (some bs, c) => (req.readAheadLength + bs.length,
            mempy bs (mempy req.readAheadBytes dest (req.asked n).toNat)
              (req.asked n - req.readAheadLength).toNat,
            (req.take req.readAheadLength).delivered (req.readAheadLength + bs.length), c) := by
  have hpos : 0 < req.asked n := by unfold asked; omega
  rw [recv_eq_taken hn hcl hrem]
  by_cases hle : req.asked n ≤ req.readAheadLength
  · have htaken : req.taken n = req.asked n := by unfold taken; split_ifs <;> omega
    rw [htaken, if_pos hle, if_pos (by omega)]
  · have htaken : req.taken n = req.readAheadLength := by unfold taken; split_ifs <;> omega
    have hall : req.readAheadBytes.take req.readAheadLength.toNat = req.readAheadBytes :=
      List.take_of_length_le (by simp [readAheadBytes])
    rw [htaken, hall, if_neg hle, if_neg (by omega)]

/-- What a call delivers that is not refused: some read-ahead bytes, and then, if these are used
up, bytes from the socket, stored one over the other. -/
theorem recv_spec (hn : 0 < n) (hcl : req.contentLength ≠ 0) (hra : 0 ≤ req.readAheadLength)
    (h : req.recv client dest n = (r, dest', req', client')) (hr : 0 ≤ r) :
    0 < req.contentLengthRemaining ∧ ∃ (k : ℕ) (bs : Bytes),
      (k : ℤ) = min (req.asked n) req.readAheadLength ∧ r = k + bs.length ∧ r ≤ req.asked n ∧
      dest' = overwrite (overwrite dest (req.readAheadBytes.take k)) bs ∧
      req' = (req.take k).delivered r ∧ client.stream = bs ++ client'.stream ∧
      (bs ≠ [] → k = req.readAheadLength) ∧ (req.Mixes client n ↔ 0 < k ∧ bs ≠ []) := by
  have hrem : 0 < req.contentLengthRemaining := by
    by_contra hno
    simp only [recv, hn.ne', hcl, not_lt.1 hno, ↓reduceIte, Prod.mk.injEq] at h
    omega
  refine ⟨hrem, ?_⟩
  have hpos : 0 < req.asked n := by unfold asked; omega
  have hlen : req.readAheadBytes.length = req.readAheadLength.toNat := Buf.length_bytes
  rw [recv_eq hn hcl hrem hra] at h
  split_ifs at h with hle
  · simp only [Prod.mk.injEq] at h
    -- served from the buffer alone
    obtain ⟨rfl, rfl, rfl, rfl⟩ := h
    refine ⟨(req.asked n).toNat, [], by omega, by simp; omega, le_rfl, ?_, ?_, rfl,
      fun hne => absurd rfl hne, ?_⟩
    · rw [mempy_of_le (by simp), overwrite_nil]
    · rw [Int.toNat_of_nonneg hpos.le]
    · simp only [Mixes, not_lt.2 hle, false_and, and_false, ne_eq, not_true_eq_false]
  · -- the read-ahead bytes are used up, and the socket is asked for the rest
    have hk : ((req.readAheadLength.toNat : ℕ) : ℤ) = req.readAheadLength := Int.toNat_of_nonneg hra
    rcases hrecv : client.recv (req.asked n - req.readAheadLength).toNat with ⟨_ | bs, c⟩
    · simp only [hrecv, Prod.mk.injEq] at h
      omega
    have hbs := HiwClient.length_le_of_recv hrecv
    simp only [hrecv, Prod.mk.injEq] at h
    obtain ⟨rfl, rfl, rfl, rfl⟩ := h
    refine ⟨req.readAheadLength.toNat, bs, by omega, by omega, by omega, ?_, by rw [hk],
      HiwClient.stream_of_recv hrecv, fun _ => hk, ?_⟩
    · rw [mempy_of_le hbs, mempy_of_le (by omega), List.take_of_length_le (by omega)]
    · simp only [Mixes, hrecv, Option.getD_some]
      constructor
      · rintro ⟨h0, -, hne⟩
        exact ⟨by omega, hne⟩
      · rintro ⟨h0, hne⟩
        exact ⟨by omega, by omega, hne⟩

/-- The bytes that are still to be read: from the buffer, then from the socket. -/
def unread (req : HiwRequest) (client : HiwClient) : Bytes := req.readAheadBytes ++ client.stream

theorem readAheadBytes_take {k : ℕ} (h : (k : ℤ) ≤ req.readAheadLength) :
    (req.take k).readAheadBytes = req.readAheadBytes.drop k := by
  have hk : (req.readAheadLength - (k : ℤ)).toNat = req.readAheadLength.toNat - k := by omega
  simp only [readAheadBytes, take, Int.toNat_natCast, hk]
  rw [Buf.drop_bytes (by omega)]

section OneCall

variable (hn : 0 < n) (hcl : req.contentLength ≠ 0) (hra : 0 ≤ req.readAheadLength)
  (h : req.recv client dest n = (r, dest', req', client')) (hr : 0 ≤ r)

include hn hcl hra h hr

theorem unread_recv : unread req' client' = (unread req client).drop r.toNat ∧
    r.toNat ≤ (unread req client).length ∧ req'.contentLength = req.contentLength ∧
    0 ≤ req'.readAheadLength := by
  obtain ⟨-, k, bs, hk, hr', -, -, rfl, hs, hall, -⟩ := recv_spec hn hcl hra h hr
  have hlen : req.readAheadBytes.length = req.readAheadLength.toNat := Buf.length_bytes
  have hra' : (req.take k).readAheadBytes = req.readAheadBytes.drop k :=
    readAheadBytes_take (by omega)
  refine ⟨?_, ?_, rfl, by simp only [take, delivered]; omega⟩
  · change (req.take k).readAheadBytes ++ client'.stream = _
    rw [hra', unread, hs]
    rcases List.eq_nil_or_concat bs with rfl | ⟨_, _, rfl⟩
    · rw [hr', List.drop_append_of_le_length (by simp; omega)]
      simp
    · have hk' := hall (by simp)
      rw [hr', List.drop_append, List.drop_of_length_le (by omega),
        List.drop_of_length_le (by omega), List.nil_append, List.nil_append,
        List.drop_left' (by omega)]
  · simp only [unread, List.length_append, hs]
    omega

theorem take_recv (hmix : ¬ req.Mixes client n) :
    dest'.take r.toNat = (unread req client).take r.toNat := by
  obtain ⟨-, k, bs, hk, hr', -, rfl, -, hs, hall, hiff⟩ := recv_spec hn hcl hra h hr
  have hlen : req.readAheadBytes.length = req.readAheadLength.toNat := Buf.length_bytes
  have hkr : (req.readAheadBytes.take k).length = k := by simp; omega
  by_cases hbs : bs = []
  · subst hbs
    have hrk : r.toNat = k := by simp at hr'; omega
    have htake := take_overwrite dest (req.readAheadBytes.take k)
    rw [hkr] at htake
    rw [overwrite_nil, unread, hrk, List.take_append_of_le_length (by omega), htake]
  · have hk0 : k = 0 := by
      by_contra hne
      exact hmix (hiff.2 ⟨by omega, hbs⟩)
    have hnil : req.readAheadBytes = [] := List.length_eq_zero_iff.1 (by have := hall hbs; omega)
    have hrb : r.toNat = bs.length := by omega
    rw [hrb, take_overwrite, unread, hnil, List.nil_append, hs, List.take_left']
    rfl

/-- A call that mixes leaves the last byte it counts as it was. -/
theorem getElem?_recv (hmix : req.Mixes client n) :
    0 < r ∧ dest'[r.toNat - 1]? = dest[r.toNat - 1]? := by
  obtain ⟨-, k, bs, hk, hr', -, rfl, -, hs, hall, hiff⟩ := recv_spec hn hcl hra h hr
  obtain ⟨hk0, hbs⟩ := hiff.1 hmix
  have hlen := List.length_pos_iff.2 hbs
  refine ⟨by omega, ?_⟩
  rw [getElem?_overwrite (by omega), getElem?_overwrite (by simp; omega)]

end OneCall

/-! ### Sequences of calls -/

theorem recv_dest (client : HiwClient) (hn : 0 < n) (hra : 0 ≤ req.readAheadLength)
    (dest dest' : Bytes) :
    (req.recv client dest n).1 = (req.recv client dest' n).1 ∧
      (req.recv client dest n).2.2 = (req.recv client dest' n).2.2 := by
  by_cases hcl : req.contentLength = 0
  · simp [recv, hn.ne', hcl]
  by_cases hrem : req.contentLengthRemaining ≤ 0
  · simp [recv, hn.ne', hcl, hrem]
  rw [recv_eq hn hcl (by omega) hra, recv_eq hn hcl (by omega) hra]
  split_ifs
  · exact ⟨rfl, rfl⟩
  · rcases client.recv (req.asked n - req.readAheadLength).toNat with ⟨_ | bs, c⟩ <;>
      exact ⟨rfl, rfl⟩

/-- One call for `n` bytes; `none` when it returns -1. -/
def recvStep (s : HiwRequest × HiwClient) (n : ℕ) : Option (HiwRequest × HiwClient) :=
  let (r, _, s') := s.1.recv s.2 (List.replicate n 0) n
  if 0 ≤ r then some s' else none

/-- The results of a sequence of calls, and their destinations afterwards. -/
def calls : HiwRequest → HiwClient → List (Bytes × ℤ) → List (ℤ × Bytes)
  | _, _, [] => []
  | req, client, (dest, n) :: args =>
    let (r, dest, req, client) := req.recv client dest n
    (r, dest) :: calls req client args

/-- The calls that ask for as many bytes as the destinations have. -/
def whole (dests : List Bytes) : List (Bytes × ℤ) := dests.map fun dest => (dest, dest.length)

/-- The bytes handed to the caller, call by call. -/
def handed (ps : List (ℤ × Bytes)) : Bytes := ps.flatMap fun p => p.2.take p.1.toNat

/-- The number of bytes the calls claim to have handed over. -/
def total (ps : List (ℤ × Bytes)) : ℕ := (ps.map fun p => p.1.toNat).sum

/-- Calls for `sizes` bytes deliver the body faithfully, whatever the destinations held before. -/
def Delivers (req : HiwRequest) (client : HiwClient) (sizes : List ℕ) : Prop :=
  ∀ dests : List Bytes, dests.map List.length = sizes →
    (∀ p ∈ calls req client (whole dests), 0 ≤ p.1) →
      handed (calls req client (whole dests)) =
        (unread req client).take (total (calls req client (whole dests)))

theorem recv_of_recvStep {sz : ℕ} {t : HiwRequest × HiwClient} (hsz : 0 < sz)
    (hra : 0 ≤ req.readAheadLength) (h : recvStep (req, client) sz = some t) {dest : Bytes}
    (hd : dest.length = sz) :
    ∃ r dest', 0 ≤ r ∧ req.recv client dest dest.length = (r, dest', t) := by
  have hsz' : (0 : ℤ) < sz := by omega
  have hdest := recv_dest client hsz' hra dest (List.replicate sz 0)
  rcases hrecv : req.recv client dest sz with ⟨r, dest', s'⟩
  rcases hrecv' : req.recv client (List.replicate sz 0) sz with ⟨r₀, dest₀, s₀⟩
  rw [hrecv, hrecv'] at hdest
  obtain ⟨rfl, rfl⟩ := hdest
  simp only [recvStep, hrecv'] at h
  split_ifs at h with hr
  obtain rfl := Option.some.inj h
  exact ⟨r, dest', hr, by rw [hd, hrecv]⟩

theorem calls_cons (h : req.recv client dest dest.length = (r, dest', req', client'))
    (dests : List Bytes) :
    calls req client (whole (dest :: dests)) = (r, dest') :: calls req' client' (whole dests) := by
  simp only [whole, List.map_cons, calls, h]

theorem nonneg_calls {sizes : List ℕ} (hsz : ∀ sz ∈ sizes, 0 < sz) (hcl : req.contentLength ≠ 0)
    (hra : 0 ≤ req.readAheadLength) {t : HiwRequest × HiwClient}
    (hok : runLabels recvStep (req, client) sizes = some t) {dests : List Bytes}
    (hd : dests.map List.length = sizes) : ∀ p ∈ calls req client (whole dests), 0 ≤ p.1 := by
  induction sizes generalizing req client dests with
  | nil => obtain rfl := List.map_eq_nil_iff.1 hd; simp [calls, whole]
  | cons sz sizes ih =>
    obtain ⟨dest, dests, rfl, hlen, hd⟩ := List.map_eq_cons_iff.1 hd
    obtain ⟨⟨req', client'⟩, hstep, hok⟩ := Option.bind_eq_some_iff.1 hok
    have hsz₀ := hsz sz (by simp)
    obtain ⟨r, dest', hr, hrecv⟩ := recv_of_recvStep hsz₀ hra hstep hlen
    obtain ⟨-, -, hcl', hra'⟩ := unread_recv (by omega) hcl hra hrecv hr
    rw [calls_cons hrecv dests, List.forall_mem_cons]
    exact ⟨hr, ih (fun sz h => hsz sz (List.mem_cons_of_mem _ h)) (by rwa [hcl']) hra' hok hd⟩

/-- Destinations of given sizes, all bytes of which are `b`. -/
def filled (b : UInt8) (sizes : List ℕ) : List Bytes := sizes.map fun sz => List.replicate sz b

theorem length_filled (b : UInt8) (sizes : List ℕ) :
    (filled b sizes).map List.length = sizes := by
  simp [filled, Function.comp_def]

/-- A first call that mixes hands over what the destination held before. -/
theorem not_mixes_of_delivers {sz : ℕ} {sizes : List ℕ} (hsz : 0 < sz)
    (hsz' : ∀ sz ∈ sizes, 0 < sz) (hcl : req.contentLength ≠ 0) (hra : 0 ≤ req.readAheadLength)
    {t : HiwRequest × HiwClient} (hstep : recvStep (req, client) sz = some (req', client'))
    (hok : runLabels recvStep (req', client') sizes = some t)
    (hdel : Delivers req client (sz :: sizes)) : ¬ req.Mixes client sz := by
  intro hmix
  -- the same calls on destinations of zeros and of ones
  have hhand : ∀ b : UInt8, ∃ r dest', 0 ≤ r ∧
      req.recv client (List.replicate sz b) sz = (r, dest', req', client') ∧
      dest'.take r.toNat ++ handed (calls req' client' (whole (filled 0 sizes))) =
        (unread req client).take
          (r.toNat + total (calls req' client' (whole (filled 0 sizes)))) := by
    intro b
    obtain ⟨r, dest', hr, hrecv⟩ := recv_of_recvStep hsz hra hstep (List.length_replicate (a := b))
    obtain ⟨-, -, hcl', hra'⟩ :=
      unread_recv (by simpa using hsz) hcl hra hrecv hr
    have hcalls := calls_cons hrecv (filled 0 sizes)
    have hnn := nonneg_calls hsz' (by rwa [hcl']) hra' hok (length_filled 0 sizes)
    have heq := hdel (List.replicate sz b :: filled 0 sizes) (by simp [length_filled])
      (by rw [hcalls, List.forall_mem_cons]; exact ⟨hr, hnn⟩)
    rw [hcalls] at heq
    rw [List.length_replicate] at hrecv
    exact ⟨r, dest', hr, hrecv, heq⟩
  obtain ⟨r, d₀, hr, h₀, heq₀⟩ := hhand 0
  obtain ⟨r', d₁, -, h₁, heq₁⟩ := hhand 1
  have hn : (0 : ℤ) < sz := by omega
  have hrr := (recv_dest client hn hra (List.replicate sz 0) (List.replicate sz 1)).1
  rw [h₀, h₁] at hrr
  obtain rfl : r = r' := hrr
  have htake : d₀.take r.toNat = d₁.take r.toNat :=
    List.append_cancel_right (heq₀.trans heq₁.symm)
  -- the last byte counted is 0 in one destination and 1 in the other
  obtain ⟨hpos, hg₀⟩ := getElem?_recv (by omega) hcl hra h₀ hr hmix
  obtain ⟨-, hg₁⟩ := getElem?_recv (by omega) hcl hra h₁ hr hmix
  obtain ⟨-, -, -, -, -, hle, -⟩ := recv_spec (by omega) hcl hra h₀ hr
  have hlt : r.toNat - 1 < sz := by unfold asked at hle; omega
  have hget := congrArg (·[r.toNat - 1]?) htake
  simp only [List.getElem?_take_of_lt (show r.toNat - 1 < r.toNat by omega), hg₀, hg₁,
    List.getElem?_replicate_of_lt hlt] at hget
  exact absurd hget (by decide)

/-- **When the body is delivered faithfully.**  Calls that are all answered deliver the bytes of
the body, whatever the destinations held before, if and only if none of them mixes read-ahead
bytes with bytes from the socket. -/
theorem delivers_iff_of_ready {sizes : List ℕ} (hsz : ∀ sz ∈ sizes, 0 < sz)
    (hcl : req.contentLength ≠ 0) (hra : 0 ≤ req.readAheadLength) {t : HiwRequest × HiwClient}
    (hok : runLabels recvStep (req, client) sizes = some t) :
    Delivers req client sizes ↔
      AllSteps recvStep (fun u sz => ¬ u.1.Mixes u.2 sz) (req, client) sizes := by
  induction sizes generalizing req client with
  | nil =>
    refine iff_of_true ?_ trivial
    intro dests hd _
    obtain rfl := List.map_eq_nil_iff.1 hd
    rfl
  | cons sz sizes ih =>
    obtain ⟨⟨req', client'⟩, hstep, hok⟩ := Option.bind_eq_some_iff.1 hok
    obtain ⟨hsz₀, hsz'⟩ := List.forall_mem_cons.1 hsz
    obtain ⟨r₀, d₀, hr₀, hrecv₀⟩ := recv_of_recvStep hsz₀ hra hstep (List.length_replicate (a := 0))
    obtain ⟨-, -, hcl', hra'⟩ := unread_recv (by simpa using hsz₀) hcl hra hrecv₀ hr₀
    have hih := ih hsz' (by rwa [hcl']) hra' hok
    -- one call that does not mix, in front of others
    have hcons : ∀ {dest : Bytes} (dests : List Bytes), dest.length = sz →
        ¬ req.Mixes client sz → ∃ r dest', 0 ≤ r ∧
          calls req client (whole (dest :: dests)) =
            (r, dest') :: calls req' client' (whole dests) ∧
          dest'.take r.toNat = (unread req client).take r.toNat ∧
          unread req' client' = (unread req client).drop r.toNat := by
      intro dest dests hlen hmix
      obtain ⟨r, dest', hr, hrecv⟩ := recv_of_recvStep hsz₀ hra hstep hlen
      have hn : (0 : ℤ) < dest.length := by omega
      exact ⟨r, dest', hr, calls_cons hrecv dests, take_recv hn hcl hra hrecv hr (by rwa [hlen]),
        (unread_recv hn hcl hra hrecv hr).1⟩
    constructor
    · intro hdel
      have hmix := not_mixes_of_delivers hsz₀ hsz' hcl hra hstep hok hdel
      refine ⟨hmix, fun u hu => ?_⟩
      obtain rfl : (req', client') = u := Option.some.inj (hstep.symm.trans hu)
      refine hih.1 fun dests hd hnn => ?_
      obtain ⟨r, dest', hr, hcalls, htake, hunread⟩ :=
        hcons dests (List.length_replicate (n := sz) (a := 0)) hmix
      have heq := hdel (List.replicate sz 0 :: dests) (by simp [hd])
        (by rw [hcalls, List.forall_mem_cons]; exact ⟨hr, hnn⟩)
      rw [hcalls] at heq
      change dest'.take r.toNat ++ handed _ = (unread req client).take (r.toNat + total _) at heq
      rw [List.take_add, htake, ← hunread] at heq
      exact List.append_cancel_left heq
    · rintro ⟨hmix, hall⟩ dests hd hnn
      obtain ⟨dest, dests, rfl, hlen, hd⟩ := List.map_eq_cons_iff.1 hd
      obtain ⟨r, dest', hr, hcalls, htake, hunread⟩ := hcons dests hlen hmix
      rw [hcalls, List.forall_mem_cons] at hnn
      rw [hcalls]
      change dest'.take r.toNat ++ handed _ = (unread req client).take (r.toNat + total _)
      rw [List.take_add, htake, ← hunread, hih.2 (hall _ hstep) dests hd hnn.2]

/-- **The body of an accepted request.**  In the state left by the parser, the calls deliver the
body faithfully if and only if none of them mixes. -/
theorem delivers_iff {cfg : Config} {s : HiwReader} (hf : req.Fresh cfg)
    (hs : s = req.readHeaders cfg client) (hp : s.phase = .returned true)
    (hcl : 0 < s.req.contentLength) {sizes : List ℕ} (hsz : ∀ sz ∈ sizes, 0 < sz)
    {t : HiwRequest × HiwClient} (hok : runLabels recvStep (s.req, s.client) sizes = some t) :
    Delivers s.req s.client sizes ↔
      AllSteps recvStep (fun u sz => ¬ u.1.Mixes u.2 sz) (s.req, s.client) sizes := by
  have hv : s.Valid cfg := hs ▸ valid_readHeaders hf client
  exact delivers_iff_of_ready hsz hcl.ne' (hv.accepted hp).2.1 hok

/-- A body of which five bytes came with the head, read in pieces of five. -/
theorem delivers_in_pieces :
    let s := (HiwRequest.init .default fun _ => 0).reset.readHeaders .default
      (.sending [ascii "PUT / HTTP/1.1\r\nContent-Length: 10\r\n\r\nhello", ascii "world"])
    Delivers s.req s.client [5, 5] := by
  intro s
  have hrun : ∃ t, runLabels recvStep (s.req, s.client) [5, 5] = some t :=
    Option.isSome_iff_exists.1 (by decide +kernel)
  obtain ⟨t, hok⟩ := hrun
  refine (delivers_iff (fresh_reset rfl rfl) rfl (by decide +kernel) (by decide +kernel) (by decide)
    hok).2 ?_
  refine (allSteps_of_testSteps (G := fun (u : HiwRequest × HiwClient) (sz : ℕ) =>
    decide (¬ u.1.Mixes u.2 sz)) ?_).mono
    fun _ _ h => of_decide_eq_true h
  decide +kernel

/-- The same body read at once: the bytes from the socket are stored over those that came with
the head. -/
theorem not_delivers :
    ¬ ∀ (req : HiwRequest) (client : HiwClient) (sizes : List ℕ), req.Fresh .default →
      (req.readHeaders .default client).phase = .returned true →
      0 < (req.readHeaders .default client).req.contentLength → (∀ sz ∈ sizes, 0 < sz) →
      Delivers (req.readHeaders .default client).req (req.readHeaders .default client).client
        sizes := by
  intro hall
  have hdel := hall (HiwRequest.init .default fun _ => 0).reset
    (.sending [ascii "PUT / HTTP/1.1\r\nContent-Length: 10\r\n\r\nhello", ascii "world"]) [10]
    (fresh_reset rfl rfl) (by decide +kernel) (by decide +kernel) (by decide)
    [List.replicate 10 0] rfl (by decide +kernel)
  revert hdel
  decide +kernel

end HiwRequest

end Highway
