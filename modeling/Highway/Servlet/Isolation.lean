import Highway.Servlet.Body
import Highway.Servlet.Bounds

/-!
# Old buffer contents

The request's memory keeps the bytes of earlier requests.  Two runs of the parser on the same
receives that start from different memory contents stay alike (`HiwReader.Alike`): they differ in
bytes that were not received, only.  The one step that breaks this is a refill over an unfinished
line (`HiwReader.Tidy`), which counts as received as many old bytes as it overwrites.  Without it
the request read, and the body delivered to the servlet, do not depend on what the memory held
before (`HiwRequest.isolated`).
-/

namespace Highway

open Lib

namespace HiwReader

/-- Two states that differ in bytes that were not received, only. -/
def Alike (s s' : HiwReader) : Prop := ∃ m, s' = s.withMem m ∧ Buf.AgreeBelow s.bytesRead s.mem m

variable {cfg : Config} {s s' : HiwReader} {m : Buf}

/-- Without an unfinished line, what is received is stored right behind the bytes received
before. -/
theorem Tidy.receives_eq (ht : Tidy cfg s) (hv : Valid cfg s) {o len : ℕ}
    (h : s.receives cfg = some (o, len)) (hne : s.brings cfg ≠ []) : o = s.bytesRead := by
  simp only [brings, h] at hne
  unfold receives at h
  split at h
  · rename_i hp
    obtain ⟨rfl, rfl⟩ := Prod.mk.inj (Option.some.inj h)
    rw [(hv.fresh hp).1, Nat.zero_add]
  · rename_i hp
    split_ifs at h with hl
    obtain ⟨rfl, rfl⟩ := Prod.mk.inj (Option.some.inj h)
    exact ht hp hl.1 hne
  · cases h

/-- The receive of a tidy iteration extends what two blocks have in common. -/
theorem Tidy.agreeBelow_receiveInto (ht : Tidy cfg s) (hv : Valid cfg s)
    (h : Buf.AgreeBelow s.bytesRead s.mem m) :
    Buf.AgreeBelow (s.bytesRead + (s.brings cfg).length) (s.receiveInto cfg s.mem)
      (s.receiveInto cfg m) := by
  cases hrec : s.receives cfg with
  | none =>
    rw [receiveInto_of_none hrec, receiveInto_of_none hrec, brings_of_none hrec]
    exact h
  | some p =>
    obtain ⟨o, len⟩ := p
    rw [receiveInto_of_some hrec, receiveInto_of_some hrec]
    by_cases hnil : s.brings cfg = []
    · rw [hnil, Buf.write_nil, Buf.write_nil]
      exact h
    · rw [ht.receives_eq hv hrec hnil]
      exact h.write

theorem Tidy.agreeBelow_parsesIn (ht : Tidy cfg s) (hv : Valid cfg s)
    (h : Buf.AgreeBelow s.bytesRead s.mem m) :
    Buf.AgreeBelow (s.parsesUpTo cfg) (s.parsesIn cfg s.mem) (s.parsesIn cfg m) := by
  unfold parsesUpTo parsesIn
  split
  · exact ht.agreeBelow_receiveInto hv h
  · exact h

/-- **A tidy iteration keeps two runs alike.** -/
theorem Alike.step (h : Alike s s') (hv : Valid cfg s) (ht : Tidy cfg s) (hnf : s.final = false) :
    Alike (s.step cfg) (s'.step cfg) := by
  obtain ⟨m, rfl, h⟩ := h
  have hrec : Received cfg s (s.step cfg) := iter_receives (iter_step hnf)
  have hon : Buf.AgreeOn (s.inspects cfg) (s.parsesIn cfg s.mem) (s.parsesIn cfg m) :=
    fun i hi => ht.agreeBelow_parsesIn hv h i (inspects_lt hv hi)
  refine ⟨s.receiveInto cfg m, step_withMem hon, ?_⟩
  rw [hrec.bytesRead, hrec.mem]
  exact ht.agreeBelow_receiveInto hv h

end HiwReader

namespace HiwRequest

open HiwReader

variable {cfg : Config} {req : HiwRequest} {client : HiwClient} {m : Buf} {b : ℕ}

/-- The same request over another block. -/
def withMem (req : HiwRequest) (m : Buf) : HiwRequest := { req with memoryFixed := m }

theorem Fresh.withMem (hf : req.Fresh cfg) (m : Buf) : (req.withMem m).Fresh cfg := ⟨hf.1, hf.2,
  hf.3, hf.4, hf.5, hf.6, hf.7⟩

/-- Every state of the run is tidy. -/
def TidyRun (cfg : Config) (req : HiwRequest) (client : HiwClient) : Prop :=
  ∀ s, Visited (HiwReader.step cfg) HiwReader.final (.start cfg req client) s → s.Tidy cfg

/-- A tidy run of the parser ends alike, whatever the memory held. -/
theorem alike_readHeaders (hf : req.Fresh cfg) (ht : TidyRun cfg req client) (m : Buf) :
    Alike (req.readHeaders cfg client) ((req.withMem m).readHeaders cfg client) := by
  refine runFuel_related ?_ ?_ ?_ _
  · rw [start_eq hf, start_eq (hf.withMem m)]
    exact ⟨m, rfl, fun i hi => absurd hi (Nat.not_lt_zero i)⟩
  · rintro u u' ⟨m, rfl, -⟩
    rfl
  · intro u u' hu hnf h
    exact h.step (valid_of_visited hf hu) (ht u hu) hnf

/-! ### The body -/

theorem recv_withMem (hra : 0 ≤ req.readAheadLength)
    (hb : req.readAhead + req.readAheadLength ≤ b) (h : Buf.AgreeBelow b req.memoryFixed m)
    (dest : Bytes) (n : ℤ) :
    (req.withMem m).recv client dest n =
      ((req.recv client dest n).1, (req.recv client dest n).2.1,
        (req.recv client dest n).2.2.1.withMem m, (req.recv client dest n).2.2.2) := by
  have hle : req.readAhead + req.readAheadLength.toNat ≤ b := by omega
  have hbytes : (req.withMem m).readAheadBytes = req.readAheadBytes := h.bytes hle
  by_cases hle : n ≤ 0 ∨ req.contentLength = 0 ∨ req.contentLengthRemaining ≤ 0
  · have hle' : n ≤ 0 ∨ (req.withMem m).contentLength = 0 ∨
        (req.withMem m).contentLengthRemaining ≤ 0 := hle
    rw [recv_of_le hle, recv_of_le hle']
  · simp only [not_or, not_le] at hle
    obtain ⟨hn, hcl, hrem⟩ := hle
    have hasked : (req.withMem m).asked n = req.asked n := rfl
    have hlen : (req.withMem m).readAheadLength = req.readAheadLength := rfl
    -- both calls copy the same read-ahead bytes and make the same receive
    have heq := @recv_eq (req.withMem m) client dest n hn hcl hrem hra
    rw [recv_eq hn hcl hrem hra, heq, hbytes, hasked, hlen]
    split_ifs
    · rfl
    · rcases client.recv (req.asked n - req.readAheadLength).toNat with ⟨_ | bs, c⟩ <;> rfl

theorem bounds_recv (client : HiwClient) (hra : 0 ≤ req.readAheadLength)
    (hb : req.readAhead + req.readAheadLength ≤ b) (dest : Bytes) (n : ℤ) :
    0 ≤ (req.recv client dest n).2.2.1.readAheadLength ∧
      (req.recv client dest n).2.2.1.readAhead + (req.recv client dest n).2.2.1.readAheadLength ≤
        b ∧
      (req.recv client dest n).2.2.1.memoryFixed = req.memoryFixed := by
  by_cases hle : n ≤ 0 ∨ req.contentLength = 0 ∨ req.contentLengthRemaining ≤ 0
  · rw [recv_of_le hle]
    exact ⟨hra, hb, rfl⟩
  · simp only [not_or, not_le] at hle
    obtain ⟨hn, hcl, hrem⟩ := hle
    have hpos : 0 < req.asked n := by unfold asked; omega
    rw [recv_eq hn hcl hrem hra]
    split_ifs with hk
    · refine ⟨?_, ?_, rfl⟩ <;> simp only [take, delivered] <;> omega
    · rcases client.recv (req.asked n - req.readAheadLength).toNat with ⟨_ | bs, c⟩ <;>
        refine ⟨?_, ?_, rfl⟩ <;> simp only [take, delivered] <;> omega

theorem calls_withMem (hra : 0 ≤ req.readAheadLength)
    (hb : req.readAhead + req.readAheadLength ≤ b) (h : Buf.AgreeBelow b req.memoryFixed m)
    (args : List (Bytes × ℤ)) : calls (req.withMem m) client args = calls req client args := by
  induction args generalizing req client with
  | nil => rfl
  | cons arg args ih =>
    obtain ⟨dest, n⟩ := arg
    obtain ⟨hra', hb', hmem⟩ := bounds_recv client hra hb dest n
    simp only [calls, recv_withMem hra hb h]
    rw [ih hra' hb' (by rwa [hmem])]

/-- **Old buffer contents do not matter.**  On a tidy run the parser returns the same and takes
the same from the client whatever the memory held before, and for an accepted request the head
and all that `hiw_request_recv` returns and stores are the same, too. -/
theorem isolated (hf : req.Fresh cfg) (ht : TidyRun cfg req client) (m : Buf) {s s' : HiwReader}
    (hs : s = req.readHeaders cfg client) (hs' : s' = (req.withMem m).readHeaders cfg client) :
    s'.phase = s.phase ∧ s'.client = s.client ∧ (s.phase = .returned true →
      s'.req.head = s.req.head ∧
        ∀ args, calls s'.req s'.client args = calls s.req s.client args) := by
  obtain ⟨m', hm', hagree⟩ := hs ▸ hs' ▸ alike_readHeaders hf ht m
  have hv : s.Valid cfg := hs ▸ valid_readHeaders hf client
  subst hm'
  refine ⟨rfl, rfl, fun hp => ?_⟩
  obtain ⟨hviews, hra, hb⟩ := hv.accepted hp
  refine ⟨?_, fun args => ?_⟩
  · simp only [head, HiwReader.withMem, Head.mk.injEq, and_true]
    refine ⟨HiwString.reads_agree hagree hviews.1, HiwString.reads_agree hagree hviews.2.1, ?_⟩
    refine List.map_congr_left fun x hx => ?_
    rw [HiwString.reads_agree hagree (hviews.2.2 x hx).1,
      HiwString.reads_agree hagree (hviews.2.2 x hx).2]
    rfl
  · exact calls_withMem hra hb hagree args

/-- A request received in two parts, over memory that held other bytes. -/
theorem isolated_put :
    let client := HiwClient.sending
      [ascii "PUT / HTTP/1.1\r\nContent-Length: 3\r\n", ascii "\r\nabc"]
    let s := (HiwRequest.init .default fun _ => 0).reset.readHeaders .default client
    let s' := ((HiwRequest.init .default fun _ => 0).reset.withMem fun _ => 7).readHeaders
      .default client
    s'.phase = s.phase ∧ s'.client = s.client ∧ (s.phase = .returned true →
      s'.req.head = s.req.head ∧
        ∀ args, calls s'.req s'.client args = calls s.req s.client args) := by
  intro client s s'
  refine isolated (fresh_reset rfl rfl) (fun u hu => ?_) (fun _ => 7) rfl rfl
  refine of_decide_eq_true (of_testFuel (p := fun u => decide (u.Tidy .default)) (n := 10) ?_ hu)
  decide +kernel

/-- With a header line cut after its first byte, a byte of the old memory ends up in the body. -/
theorem not_isolated :
    ¬ ∀ (req : HiwRequest) (client : HiwClient) (m : Buf), req.Fresh .default →
      (req.readHeaders .default client).phase = .returned true →
      ∀ args, calls ((req.withMem m).readHeaders .default client).req
          ((req.withMem m).readHeaders .default client).client args =
        calls (req.readHeaders .default client).req (req.readHeaders .default client).client
          args := by
  intro hall
  have heq := hall (HiwRequest.init .default fun _ => 0).reset
    (.sending [ascii "PUT / HTTP/1.1\r\nContent-Length: 3\r\nA", ascii ": b\r\n\r\nhi"])
    (fun _ => 7) (fresh_reset rfl rfl) (by decide +kernel) [(List.replicate 3 0, 3)]
  revert heq
  decide +kernel

end HiwRequest

end Highway
