import Highway.Servlet.Bounds
import Highway.Servlet.Exact

/-!
# The assertion in front of a refill

In front of the receive in the header loop stands `assert(pos < memory->ptr + capacity_left)`.
Where it is reached, the cursor is behind the last line feed received, and `capacity_left` is the
room behind the received bytes.  So the assertion compares the bytes of the complete lines with the
room that is left, not with the size of the buffer, and it holds where there is room for them once
more (`HiwRequest.refillAsserted_iff`).  A status line of half a buffer is enough to make it fail
(`HiwRequest.not_refillAsserted_of_statusLine`).
-/

namespace Highway

open Lib

namespace HiwReader

/-- The reader is in front of the assertion. -/
def AtRefill (cfg : Config) (s : HiwReader) : Prop :=
  s.phase = .headers ∧ HiwString.readline s.mem s.window = none ∧ s.bytesRead < cfg.maxHeaderSize

/-- Behind the first `n` bytes of the block, there is room in the buffer for the complete lines
among them once more, and for another byte. -/
def RoomForLines (cfg : Config) (m : Buf) (n : ℕ) : Prop :=
  ∀ o < n, m o = LF → n + (o + 1) < cfg.maxHeaderSize

/-- In the header loop the cursor is behind a line feed. -/
def BehindLine (s : HiwReader) : Prop := s.phase = .headers → ∃ o, s.pos = o + 1 ∧ s.mem o = LF

variable {cfg : Config} {s s' : HiwReader}

theorem BehindLine.step (hv : Valid cfg s) (h : BehindLine s) (hi : Iter cfg s s') :
    BehindLine s' := by
  cases hi with
  | waiting hp =>
    intro hp'
    simp [received, hp] at hp'
  | @statusLine bs c' line method uri hp hr hbs hl hpl hlt =>
    intro _
    obtain ⟨-, -, -, hLF, -⟩ := HiwString.readline_eq_some hl
    rw [Nat.zero_add] at hLF
    refine ⟨line.length, ?_, hLF⟩
    simp [enterHeaders, statusRead, received, (hv.fresh hp).1]
  | @header line name value hp hl hc hs =>
    intro _
    obtain ⟨-, -, hLF⟩ := line_bounds hv.pos_le hl
    exact ⟨s.pos + line.length, by simp, by simpa using hLF⟩
  | refill hp hl hlt hr hbs =>
    intro _
    obtain ⟨o, ho, hLF⟩ := h hp
    refine ⟨o, ho, ?_⟩
    rw [← hLF]
    exact Buf.write_of_lt (by omega)
  | _ => intro hp'; cases hp'

/-- **What the assertion says**, where it is reached. -/
theorem asserts_iff (hpos : s.pos ≤ s.bytesRead) (h : BehindLine s) (hr : s.AtRefill cfg) :
    s.asserts cfg ↔ RoomForLines cfg s.mem s.bytesRead := by
  obtain ⟨hp, hl, hlt⟩ := hr
  obtain ⟨o, ho, hLF⟩ := h hp
  unfold asserts RoomForLines
  constructor
  · intro hassert o' ho' hLF'
    -- the bytes behind the cursor have no line feed
    have hno := HiwString.readline_eq_none.1 hl
    have hle : o' < s.pos := by
      by_contra hge
      exact hno (Buf.mem_bytes.2 ⟨o', not_lt.1 hge, by simp only [window]; omega, hLF'⟩)
    omega
  · intro hroom
    have := hroom o (by omega) hLF
    omega

theorem step_statusLine {l : Bytes} {c' : HiwClient} (hp : s.phase = .statusLine)
    (hpos : s.pos = 0) (hread : s.bytesRead = 0)
    (hr : s.client.recv (cfg.maxHeaderSize - s.bytesRead) = (some (l ++ [LF]), c')) (hl : LF ∉ l)
    (hs : (statusFields l).isSome = true) (hlt : l.length + 1 < cfg.maxHeaderSize) :
    (s.step cfg).phase = .headers ∧ (s.step cfg).pos = l.length + 1 ∧
      (s.step cfg).bytesRead = l.length + 1 := by
  have hlen : (l ++ [LF]).length = l.length + 1 := by
    rw [List.length_append, List.length_singleton]
  set t := s.received (s.pos + s.bytesRead) (l ++ [LF]) c' with ht
  have hmem : t.mem.bytes 0 (l ++ [LF]).length = l ++ [LF] := by
    have hwrite : (s.mem.write 0 (l ++ [LF])).bytes 0 (l ++ [LF]).length = l ++ [LF] :=
      Buf.bytes_write
    rw [ht, received, hpos, hread]
    exact hwrite
  have hbytes : t.bytesRead = l.length + 1 := by rw [ht, received, hread, hlen, Nat.zero_add]
  -- the line is found, and it is what was received
  have hline : HiwString.readline t.mem ⟨0, (l ++ [LF]).length⟩ = some ⟨0, l.length⟩ :=
    HiwString.readline_of_reads hmem hl
  have hreads : HiwString.reads t.mem ⟨0, l.length⟩ = l := by
    have hle : l.length ≤ (l ++ [LF]).length := by omega
    have htake : (t.mem.bytes 0 (l ++ [LF]).length).take l.length = t.mem.bytes 0 l.length :=
      Buf.take_bytes hle
    rw [hmem, List.take_left' rfl] at htake
    exact htake.symm
  obtain ⟨fs, hfs⟩ := Option.isSome_iff_exists.1 hs
  have hparse := HiwRequest.map_reads_parseStatusLine t.mem ⟨0, l.length⟩
  rw [hreads, hfs] at hparse
  obtain ⟨⟨method, uri⟩, hmu, -⟩ := Option.map_eq_some_iff.1 hparse
  have hstep : s.step cfg = (t.statusRead method uri).enterHeaders ⟨0, l.length⟩ := by
    have hroom : ¬ cfg.maxHeaderSize ≤ t.bytesRead := by omega
    have hne : l ++ [LF] ≠ [] := List.concat_ne_nil _ _
    simp only [step, hp, stepStatusLine_of_ne_nil hr hne ht, hline, hmu, hroom, ↓reduceIte]
  have htpos : t.pos = 0 := hpos
  rw [hstep]
  refine ⟨rfl, ?_, hbytes⟩
  rw [enterHeaders, statusRead, htpos, Nat.zero_add]

end HiwReader

namespace HiwRequest

open HiwReader

variable {cfg : Config} {req : HiwRequest} {client c' : HiwClient} {s : HiwReader}

/-- The assertion holds whenever the parser comes to it. -/
def RefillAsserted (cfg : Config) (req : HiwRequest) (client : HiwClient) : Prop :=
  ∀ s, Visited (HiwReader.step cfg) HiwReader.final (.start cfg req client) s →
    s.AtRefill cfg → s.asserts cfg

theorem behindLine_of_visited (hf : req.Fresh cfg)
    (hv : Visited (HiwReader.step cfg) HiwReader.final (.start cfg req client) s) :
    BehindLine s := by
  refine hv.invariant (fun hp => ?_) fun u hu hnf h =>
    h.step (valid_of_visited hf hu) (iter_step hnf)
  rw [start_eq hf] at hp
  cases hp

theorem bytesRead_of_visited (hf : req.Fresh cfg)
    (hv : Visited (HiwReader.step cfg) HiwReader.final (.start cfg req client) s) :
    s.bytesRead + s.client.stream.length = client.stream.length := by
  refine hv.invariant (I := fun u : HiwReader =>
    u.bytesRead + u.client.stream.length = client.stream.length) ?_ fun u hu hnf h => ?_
  · rw [start_eq hf, Nat.zero_add]
  · have hrec : Received cfg u (u.step cfg) := iter_receives (iter_step hnf)
    obtain ⟨hstream, hbytes, -⟩ := hrec
    rw [hbytes, ← h, hstream, List.length_append, Nat.add_assoc]

/-- **When the assertion holds.**  Exactly if, whenever the header loop is about to receive more,
there is room in the buffer for the complete lines once more, behind the bytes received. -/
theorem refillAsserted_iff (hf : req.Fresh cfg) : RefillAsserted cfg req client ↔
    ∀ s, Visited (HiwReader.step cfg) HiwReader.final (.start cfg req client) s →
      s.AtRefill cfg →
        RoomForLines cfg s.mem (client.stream.length - s.client.stream.length) := by
  refine forall_congr' fun s => forall_congr' fun hs => forall_congr' fun hr => ?_
  have hbytes := bytesRead_of_visited hf hs
  have hpos := (valid_of_visited hf hs).pos_le
  rw [asserts_iff hpos (behindLine_of_visited hf hs) hr, ← hbytes, Nat.add_sub_cancel]

/-- A head that is small for the buffer. -/
theorem refillAsserted_small : RefillAsserted .default (HiwRequest.init .default fun _ => 0).reset
    (.sending [ascii "GET / HTTP/1.1\r\n", ascii "A: b\r\n\r\n"]) := by
  refine (refillAsserted_iff (fresh_reset rfl rfl)).2 fun s hs hr o ho hLF => ?_
  have hlen : (HiwClient.sending [ascii "GET / HTTP/1.1\r\n",
      ascii "A: b\r\n\r\n"]).stream.length = 24 := by decide
  rw [hlen] at ho ⊢
  have hmax : Config.default.maxHeaderSize = 8192 := rfl
  omega

/-- A client that sends less than half of a buffer does not make the assertion fail. -/
theorem refillAsserted_of_stream (hf : req.Fresh cfg)
    (hlt : 2 * client.stream.length < cfg.maxHeaderSize) : RefillAsserted cfg req client := by
  intro s hs hr
  have hpos := (valid_of_visited hf hs).pos_le
  have hbytes := bytesRead_of_visited hf hs
  unfold asserts
  omega

/-- A status line that is received alone is consumed when the assertion is reached, so the
assertion fails from half of the buffer on. -/
theorem not_refillAsserted_of_statusLine {l : Bytes} (hf : req.Fresh cfg)
    (hr : client.recv cfg.maxHeaderSize = (some (l ++ [LF]), c')) (hl : LF ∉ l)
    (hs : (statusFields l).isSome = true) (hlt : l.length + 1 < cfg.maxHeaderSize)
    (hhalf : cfg.maxHeaderSize ≤ 2 * (l.length + 1)) : ¬ RefillAsserted cfg req client := by
  intro hassert
  have hstart := start_eq hf client
  have hp : (start cfg req client).phase = .statusLine := by rw [hstart]
  have hread : (start cfg req client).bytesRead = 0 := by rw [hstart]
  have hpos : (start cfg req client).pos = 0 := by rw [hstart]
  have hr' : (start cfg req client).client.recv
      (cfg.maxHeaderSize - (start cfg req client).bytesRead) = (some (l ++ [LF]), c') := by
    rw [hstart]
    exact hr
  obtain ⟨hphase, hpos', hread'⟩ := step_statusLine hp hpos hread hr' hl hs hlt
  have hnone : HiwString.readline ((start cfg req client).step cfg).mem
      ((start cfg req client).step cfg).window = none := by
    simp [HiwString.readline, window, hpos', hread']
  have hat := hassert _ (.tail .refl (by simp only [HiwReader.final, hp]))
    ⟨hphase, hnone, by omega⟩
  unfold asserts at hat
  omega

/-- A request line with a long path. -/
theorem not_refillAsserted : ¬ ∀ (req : HiwRequest) (client : HiwClient), req.Fresh .default →
    client.Plain → RefillAsserted .default req client := by
  intro hall
  obtain ⟨n, hn⟩ : ∃ n, n = 4200 := ⟨_, rfl⟩
  have hmethod : Word (ascii "GET") := by decide
  have huri : Word (List.replicate n 97) := by
    refine ⟨?_, fun b hb => ?_⟩
    · rw [ne_eq, List.replicate_eq_nil_iff]
      omega
    · rw [List.eq_of_mem_replicate hb]
      decide
  have hs := Word.statusFields hmethod huri
  have hl := Word.not_mem_status hmethod huri
  set l := ascii "GET" ++ 32 :: (List.replicate n 97 ++ 32 :: (ascii "HTTP/1.1" ++ [CR])) with hdef
  have hlen : l.length = n + 14 := by
    have hget : (ascii "GET").length = 3 ∧ (ascii "HTTP/1.1").length = 8 := by decide
    simp only [hdef, List.length_append, List.length_cons, List.length_replicate, hget,
      List.length_nil]
    omega
  have hmax : Config.default.maxHeaderSize = 8192 := rfl
  have hline : (l ++ [LF]).length = l.length + 1 := by
    rw [List.length_append, List.length_singleton]
  have hr : (HiwClient.sending [l ++ [LF]]).recv Config.default.maxHeaderSize =
      (some (l ++ [LF]), .sending []) := by
    have hle : (l ++ [LF]).length ≤ Config.default.maxHeaderSize := by omega
    simp only [HiwClient.recv, HiwClient.sending, List.map_cons, List.map_nil,
      HiwClient.socketRecv_of_le (by omega) hle]
  refine not_refillAsserted_of_statusLine (fresh_reset rfl rfl) hr hl (hs ▸ rfl) (by omega)
    (by omega) (hall (HiwRequest.init .default fun _ => 0).reset _ (fresh_reset rfl rfl) ?_)
  refine HiwClient.plain_sending fun bs hbs => ?_
  rw [List.mem_singleton.1 hbs]
  exact List.concat_ne_nil _ _

end HiwRequest

end Highway
