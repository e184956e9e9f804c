import Highway.Servlet.Window

/-!
# The parser against the meaning of a head

The parser resumes on buffer contents, not on the stream, and loses track of it in two places.
The status line is looked for in the first `count` bytes of the buffer, where `count` is only the
size of the last receive, so the parser may wait for more bytes with the whole line at hand; and
a refill in the header loop is stored over the unfinished line.  `HiwReader.Clean` says of a state
that neither does harm.  As long as every state of a run is clean, and the buffer does not fill
up, the parser computes `headOutcome` of the stream (`HiwRequest.outcome_readHeaders`), so the way
the stream is cut does not matter (`HiwRequest.chunk_independent`).
-/

namespace Highway

open Lib

namespace HiwRequest

/-- The head stored in a request. -/
def head (req : HiwRequest) : Head where
  method := req.method.reads req.memoryFixed
  uri := req.uri.reads req.memoryFixed
  headers := req.headers.map fun h => (h.name.reads req.memoryFixed, h.value.reads req.memoryFixed)
  contentLength := req.contentLength
  connectionClose := req.connectionClose

/-- On the bytes of a status line, the parser of the server decides like `statusFields`. -/
theorem map_reads_parseStatusLine (m : Buf) (line : HiwString) :
    (parseStatusLine m line).map (fun p => (p.1.reads m, p.2.reads m)) =
      statusFields (line.reads m) := by
  unfold parseStatusLine statusFields
  split_ifs with h0
  · have hnil : line.reads m = [] := by rw [HiwString.reads, h0, Buf.bytes_zero]
    rw [hnil, fields_of_not_mem (by simp)]
    rfl
  · have hsplit := HiwString.map_reads_split (m := m) (d := 32) (n := 3) h0 (by simp)
    rw [← hsplit]
    rcases HiwString.split m line 32 3 with _ | ⟨a, _ | ⟨b, _ | ⟨c, _ | ⟨d, l⟩⟩⟩⟩
    all_goals try rfl
    simp only [HiwString.cmpc_eq, HiwString.reads_rtrim, List.map_cons, List.map_nil]
    by_cases hv : (c.reads m).rdropWhile HiwString.isspace = ascii "HTTP/1.1"
    · simp [hv, HiwString.reads_rtrim]
    · simp [hv]

/-- On the bytes of a line, the split at the colon and the trims compute `headerFields`. -/
theorem headerFields_of_split {m : Buf} {line name value : HiwString}
    (hLF : m line.stop = LF) (h : HiwString.split m line 58 2 = [name, value]) :
    headerFields (line.reads m) =
      some ((HiwString.trim m name).reads m, (HiwString.trim m value).reads m) := by
  have h0 : line.length ≠ 0 := fun h0 => by simp [HiwString.split, h0] at h
  have hsplit := HiwString.map_reads_split (m := m) (d := 58) (n := 2) h0 (by simp)
  obtain ⟨-, hcolon, -, hstop⟩ := HiwString.split_two_eq h
  have hLF' : m (value.begin + value.length) = LF := by rwa [hstop]
  rw [h] at hsplit
  rw [headerFields, ← hsplit, HiwString.reads_trim, HiwString.reads_trim, hcolon, hLF']
  rfl

theorem headerFields_eq_none {m : Buf} {line : HiwString}
    (h : (HiwString.split m line 58 2).length ≠ 2) : headerFields (line.reads m) = none := by
  unfold headerFields
  by_cases h0 : line.length = 0
  · have hnil : line.reads m = [] := by rw [HiwString.reads, h0, Buf.bytes_zero]
    rw [hnil, fields_of_not_mem (by simp)]
  · have hsplit := HiwString.map_reads_split (m := m) (d := 58) (n := 2) h0 (by simp)
    rw [← hsplit]
    rcases hs : HiwString.split m line 58 2 with _ | ⟨a, _ | ⟨b, _ | ⟨c, l⟩⟩⟩
    all_goals simp [hs] at h ⊢

end HiwRequest

namespace HiwReader

/-- What has been parsed so far. -/
def head (s : HiwReader) : Head where
  method := s.req.method.reads s.mem
  uri := s.req.uri.reads s.mem
  headers := s.req.headers.map fun h => (h.name.reads s.mem, h.value.reads s.mem)
  contentLength := s.headerContentLength
  connectionClose := s.headerConnectionClose

/-- What the caller of the parser gets: the head, and the bytes that are left to be read. -/
def outcome (s : HiwReader) : HeadOutcome :=
  match s.phase with
  | .returned true => .accepted s.req.head (s.req.readAheadBytes ++ s.client.stream)
  | .overflow _ => .overflow
  | _ => .refused

/-- A refill in the header loop that brings bytes finds no unfinished line at the cursor. -/
def Tidy (cfg : Config) (s : HiwReader) : Prop :=
  s.phase = .headers → HiwString.readline s.mem s.window = none →
    (s.client.recv (cfg.maxHeaderSize - s.bytesRead)).1.getD [] ≠ [] → s.pos = s.bytesRead

instance (cfg : Config) (s : HiwReader) : Decidable (s.Tidy cfg) :=
  inferInstanceAs (Decidable (_ → _))

/-- The next receive does not lose track of the stream: the peer does not fall silent while the
status line waits in the buffer, and a refill in the header loop is tidy. -/
def Clean (cfg : Config) (s : HiwReader) : Prop :=
  (s.phase = .statusLine → (s.client.recv (cfg.maxHeaderSize - s.bytesRead)).1.getD [] = [] →
    LF ∉ s.mem.bytes 0 s.bytesRead) ∧ s.Tidy cfg

instance (cfg : Config) (s : HiwReader) : Decidable (s.Clean cfg) :=
  inferInstanceAs (Decidable (_ ∧ _))

/-- A receive that brings nothing means that the stream has ended. -/
def Steady (cfg : Config) (s : HiwReader) : Prop :=
  s.final = false → (s.phase = .headers → HiwString.readline s.mem s.window = none) →
    (s.client.recv (cfg.maxHeaderSize - s.bytesRead)).1.getD [] = [] → s.client.stream = []

/-- The run is on its way to `headOutcome` of the stream `S`, or has arrived there: `R` has been
received, and what has been made of it is what the head reader makes of it. -/
def Refines (cfg : Config) (S : Bytes) (s : HiwReader) : Prop :=
  ∃ R, R ++ s.client.stream = S ∧
    match s.phase with
    | .statusLine => s.mem.bytes 0 s.bytesRead = R
    | .headers =>
      scan LF (Head.line cfg) (some s.head) [] (s.window.reads s.mem) = headScan cfg R
    | _ => s.outcome = headOutcome cfg S

variable {cfg : Config} {S : Bytes} {s s' : HiwReader} {bs : Bytes} {c' : HiwClient}
  {line name value : HiwString}

/-! ### The status line -/

theorem bytes_received (h0 : s.pos = 0) :
    (s.received (s.pos + s.bytesRead) bs c').mem.bytes 0 (s.bytesRead + bs.length) =
      s.mem.bytes 0 s.bytesRead ++ bs := by
  simpa [received, h0, mem] using Buf.bytes_zero_write_append

theorem bytes_statusLine {n : ℕ} (hle : n ≤ s.bytesRead)
    (hl : HiwString.readline s.mem ⟨0, n⟩ = some line) :
    LF ∉ line.reads s.mem ∧ s.mem.bytes 0 s.bytesRead = line.reads s.mem ++
      LF :: s.mem.bytes (line.length + 1) (s.bytesRead - (line.length + 1)) := by
  obtain ⟨hb, hlt, hn, hLF, -⟩ := HiwString.readline_eq_some hl
  simp only [Nat.zero_add] at hb hlt hLF
  refine ⟨hn, ?_⟩
  rw [Buf.bytes_split (k := line.length) (by omega), Nat.zero_add, hLF, HiwString.reads, hb]

/-- Storing bytes behind the cursor does not change what has been parsed. -/
theorem head_received {o : ℕ} (h : s.req.ViewsBelow o) : (s.received o bs c').head = s.head := by
  simp only [head, received, mem, Head.mk.injEq, and_true]
  refine ⟨HiwString.reads_write_of_le h.1, HiwString.reads_write_of_le h.2.1, ?_⟩
  refine List.map_congr_left fun x hx => ?_
  rw [HiwString.reads_write_of_le (h.2.2 x hx).1, HiwString.reads_write_of_le (h.2.2 x hx).2]

/-! ### Header lines -/

theorem window_eq (hl : HiwString.readline s.mem s.window = some line) :
    LF ∉ line.reads s.mem ∧ s.window.reads s.mem = line.reads s.mem ++
      LF :: s.mem.bytes (s.pos + line.length + 1) (s.bytesRead - (s.pos + line.length + 1)) := by
  obtain ⟨-, hlt, hn, -, heq⟩ := HiwString.readline_eq_some hl
  simp only [window] at hlt heq ⊢
  exact ⟨hn, by rw [heq, Nat.sub_sub, Nat.add_assoc]⟩

theorem head_applyHeader {header : HiwHeader}
    (hcl : s.headerContentLength = s.req.contentLength) :
    ((s.storeHeader line header).applyHeader header).head =
      s.head.add (header.name.reads s.mem) (header.value.reads s.mem) := by
  simp only [applyHeader, storeHeader, HiwString.cmpc_eq, Head.add, decide_eq_true_eq]
  by_cases h₁ : header.name.reads s.mem = ascii "Connection"
  · have h₁' : header.name.reads s.req.memoryFixed = ascii "Connection" := h₁
    simp only [head, mem, h₁', ↓reduceIte, List.map_append, List.map_cons, List.map_nil]
    exact congrArg _ (decide_eq_decide.2 Iff.rfl)
  · have h₁' : header.name.reads s.req.memoryFixed ≠ ascii "Connection" := h₁
    by_cases h₂ : header.name.reads s.mem = ascii "Content-Length"
    · have h₂' : header.name.reads s.req.memoryFixed = ascii "Content-Length" := h₂
      have hne : ascii "Content-Length" ≠ ascii "Connection" := by decide
      simp [head, mem, h₂', hne, hcl]
    · have h₂' : header.name.reads s.req.memoryFixed ≠ ascii "Content-Length" := h₂
      simp [head, mem, h₁', h₂']

/-- Behind an empty line, the cursor is at the next line. -/
theorem separator_pos_of_blank (hp : s.pos ≤ s.bytesRead)
    (hl : HiwString.readline s.mem s.window = some line)
    (hblank : line.reads s.mem = [] ∨ line.reads s.mem = [CR]) :
    s.separator.pos = s.pos + line.length + 1 := by
  obtain ⟨hb, hlt, hLF⟩ := line_bounds hp hl
  have hne : LF ≠ CR := by decide
  rcases hblank with hread | hread
  · have h0 : line.length = 0 := by simpa using congrArg List.length hread
    simp only [h0, Nat.add_zero] at hLF hlt ⊢
    simp [separator, skip, done, hLF, hne, hlt]
  · have h1 : line.length = 1 := by simpa using congrArg List.length hread
    rw [HiwString.reads, h1, hb, Buf.bytes_succ, Buf.bytes_zero] at hread
    have hcr : s.mem s.pos = CR := List.head_eq_of_cons_eq hread
    rw [h1] at hLF hlt
    have hlt' : s.pos < s.bytesRead := by omega
    simp [separator, skip, done, hcr, hlt', hlt, hLF, h1]

/-- In front of a line of one byte that is not a CR, the cursor stays. -/
theorem separator_pos_of_not_blank (hp : s.pos ≤ s.bytesRead)
    (hl : HiwString.readline s.mem s.window = some line) (hlen : line.length ≤ 1)
    (hblank : ¬ (line.reads s.mem = [] ∨ line.reads s.mem = [CR])) : s.separator.pos = s.pos := by
  obtain ⟨hb, -, -⟩ := line_bounds hp hl
  obtain ⟨hn, -⟩ := window_eq hl
  obtain ⟨hne, hcr⟩ := not_or.1 hblank
  have hone : line.length = 1 := by
    rcases Nat.le_one_iff_eq_zero_or_eq_one.1 hlen with h0 | h1
    · exact absurd (by rw [HiwString.reads, h0, Buf.bytes_zero]) hne
    · exact h1
  have hread : line.reads s.mem = [s.mem s.pos] := by
    rw [HiwString.reads, hone, hb, Buf.bytes_succ, Buf.bytes_zero]
  rw [hread] at hcr hn
  have hcr' : s.mem s.pos ≠ CR := fun h => hcr (by rw [h])
  have hlf' : s.mem s.pos ≠ LF := fun h => hn (by rw [h]; exact List.mem_singleton_self _)
  simp [separator, done, skip, hcr', hlf']

theorem readAheadBytes_separator (hp : s.pos ≤ s.bytesRead)
    (hl : HiwString.readline s.mem s.window = some line) (hlen : line.length ≤ 1) :
    s.separator.req.readAheadBytes =
      (if line.reads s.mem = [] ∨ line.reads s.mem = [CR] then [] else line.reads s.mem ++ [LF]) ++
        s.mem.bytes (s.pos + line.length + 1) (s.bytesRead - (s.pos + line.length + 1)) := by
  have hbytes : s.separator.req.readAheadBytes =
      s.mem.bytes s.separator.pos (s.bytesRead - s.separator.pos) := by
    have := (separator_pos hp).2
    simp only [HiwRequest.readAheadBytes, separator, done, mem] at this ⊢
    congr 1
    omega
  rw [hbytes]
  split_ifs with hblank
  · rw [separator_pos_of_blank hp hl hblank, List.nil_append]
  · -- the cursor stays in front of the line, so the line is read again as body
    have hwin : s.mem.bytes s.pos (s.bytesRead - s.pos) = s.window.reads s.mem := rfl
    rw [separator_pos_of_not_blank hp hl hlen hblank, hwin, (window_eq hl).2, List.append_assoc,
      List.singleton_append]

theorem window_received (bs : Bytes) (c' : HiwClient) (hpos : s.pos = s.bytesRead) :
    s.window.reads s.mem = [] ∧
      (s.received s.pos bs c').window.reads (s.received s.pos bs c').mem = bs := by
  constructor
  · rw [HiwString.reads, window, hpos, Nat.sub_self]
    rfl
  · have hlen : s.bytesRead + bs.length - s.bytesRead = bs.length := by omega
    simp only [HiwString.reads, window, received, mem, hpos, hlen]
    exact Buf.bytes_write

/-! ### The simulation -/

theorem received_statusLine {r : HiwReader} (hrec : r = s.received (s.pos + s.bytesRead) bs c')
    (h0 : s.pos = 0) (hl : HiwString.readline r.mem ⟨0, bs.length⟩ = some line) :
    LF ∉ line.reads r.mem ∧ s.mem.bytes 0 s.bytesRead ++ bs = line.reads r.mem ++
      LF :: r.mem.bytes (line.length + 1) (r.bytesRead - (line.length + 1)) := by
  have hbr : r.bytesRead = s.bytesRead + bs.length := by rw [hrec]; rfl
  obtain ⟨hn, heq⟩ := bytes_statusLine (s := r) (by omega) hl
  refine ⟨hn, ?_⟩
  rw [← heq, hbr, hrec, bytes_received h0]

theorem window_enterHeaders {method uri : HiwString} (h0 : s.pos = 0) :
    (((s.received (s.pos + s.bytesRead) bs c').statusRead method uri).enterHeaders line).window =
      ⟨line.length + 1, s.bytesRead + bs.length - (line.length + 1)⟩ := by
  simp [window, enterHeaders, statusRead, received, h0]

theorem append_stream_of_recv {R : Bytes} {c : HiwClient} {len : ℕ}
    (hr : c.recv len = (some bs, c')) : (R ++ bs) ++ c'.stream = R ++ c.stream := by
  rw [HiwClient.stream_of_recv hr, List.append_assoc]

theorem headerFields_line (hp : s.pos ≤ s.bytesRead)
    (hl : HiwString.readline s.mem s.window = some line)
    (hs : HiwString.split s.mem line 58 2 = [name, value]) :
    headerFields (line.reads s.mem) =
      some ((HiwString.trim s.mem name).reads s.mem, (HiwString.trim s.mem value).reads s.mem) := by
  obtain ⟨hb, -, hLF⟩ := line_bounds hp hl
  exact HiwRequest.headerFields_of_split (by rwa [HiwString.stop, hb]) hs

theorem Refines.of_stop {R rest : Bytes} {r : HeadEnd} (hR : R ++ s.client.stream = S)
    (hscan : headScan cfg R = .stop r rest) (hf : s.final = true)
    (ho : s.outcome = headOutcomeOf (.stop r (rest ++ s.client.stream))) : Refines cfg S s := by
  refine ⟨R, hR, ?_⟩
  have hout : s.outcome = headOutcome cfg S := by rw [ho, ← hR, headOutcome_append hscan]
  cases hp : s.phase with
  | statusLine => simp [final, hp] at hf
  | headers => simp [final, hp] at hf
  | returned r => exact hout
  | overflow i => exact hout

theorem Refines.of_line {r : HeadEnd} (h : Refines cfg S s) (hp : s.phase = .headers)
    (hl : HiwString.readline s.mem s.window = some line)
    (hline : Head.line cfg (some s.head) (line.reads s.mem) = .inr r)
    (hcli : s'.client = s.client) (hf : s'.final = true)
    (ho : s'.outcome = headOutcomeOf (.stop r
      (s.mem.bytes (s.pos + line.length + 1) (s.bytesRead - (s.pos + line.length + 1)) ++
        s.client.stream))) : Refines cfg S s' := by
  obtain ⟨R, hR, h⟩ := h
  simp only [hp] at h
  obtain ⟨hn, hw⟩ := window_eq hl
  rw [hw, scan_line_of_inr hn hline] at h
  exact .of_stop (by rw [hcli]; exact hR) h.symm hf (by rw [hcli]; exact ho)

theorem Refines.closed {r : Option Bytes} (hst : Steady cfg s) (hc : Clean cfg s)
    (h : Refines cfg S s) (hf : s.final = false)
    (hn : s.phase = .headers → HiwString.readline s.mem s.window = none)
    (hr : s.client.recv (cfg.maxHeaderSize - s.bytesRead) = (r, c')) (hnil : r.getD [] = []) :
    Refines cfg S (ret { s with client := c' } false) := by
  obtain ⟨R, hR, h⟩ := h
  have hnil' : (s.client.recv (cfg.maxHeaderSize - s.bytesRead)).1.getD [] = [] := by
    rw [hr]; exact hnil
  have hend := hst hf hn hnil'
  -- the stream ends where no line can be completed, in front of the separator
  have hrefused : headOutcome cfg S = .refused := by
    rw [hend, List.append_nil] at hR
    rcases phase_of_not_final hf with hp | hp
    · simp only [hp] at h
      rw [headOutcome, headScan, ← hR, ← h, scan_of_not_mem (hc.1 hp hnil')]
      rfl
    · simp only [hp] at h
      rw [headOutcome, ← hR, ← h, scan_of_not_mem (HiwString.readline_eq_none.1 (hn hp))]
      rfl
  have hs : s.client.stream = r.getD [] ++ c'.stream := HiwClient.stream_of_recv_getD hr
  rw [hnil, List.nil_append] at hs
  exact ⟨R, by rw [← hR, hs]; rfl, by simp only [ret, outcome, hrefused]⟩

theorem Refines.statusLine {method uri : HiwString} (hv : Valid cfg s) (h : Refines cfg S s)
    (hp : s.phase = .statusLine)
    (hr : s.client.recv (cfg.maxHeaderSize - s.bytesRead) = (some bs, c'))
    (hl : HiwString.readline (s.received (s.pos + s.bytesRead) bs c').mem ⟨0, bs.length⟩ =
      some line)
    (hps : HiwRequest.parseStatusLine (s.received (s.pos + s.bytesRead) bs c').mem line =
      some (method, uri)) :
    Refines cfg S
      (((s.received (s.pos + s.bytesRead) bs c').statusRead method uri).enterHeaders line) := by
  obtain ⟨R, hR, h⟩ := h
  obtain ⟨h0, hh, hcc, hcl, -⟩ := hv.fresh hp
  simp only [hp] at h
  -- nothing was received before, so the line found is the first line of the stream
  obtain ⟨hn, heq⟩ := received_statusLine rfl h0 hl
  have hsf := HiwRequest.map_reads_parseStatusLine _ _ ▸ congrArg (Option.map _) hps
  set r := s.received (s.pos + s.bytesRead) bs c' with hrec
  have hhead : ((r.statusRead method uri).enterHeaders line).head =
      .ofStatusLine (method.reads r.mem) (uri.reads r.mem) := by
    simp [head, enterHeaders, statusRead, Head.ofStatusLine, hrec, received, hh, hcc, hcl, mem]
  have hph : ((r.statusRead method uri).enterHeaders line).phase = .headers := rfl
  refine ⟨R ++ bs, hR ▸ append_stream_of_recv hr, ?_⟩
  simp only [hph]
  rw [hhead, window_enterHeaders h0, headScan, ← h, heq,
    scan_line_of_inl hn (Head.line_statusLine hsf)]
  rfl

theorem Refines.header (hv : Valid cfg s) (h : Refines cfg S s) (hp : s.phase = .headers)
    (hl : HiwString.readline s.mem s.window = some line)
    (hcnt : s.req.headers.length < cfg.maxHeadersCount)
    (hs : HiwString.split s.mem line 58 2 = [name, value]) :
    Refines cfg S ((s.storeHeader line
      ⟨HiwString.trim s.mem name, HiwString.trim s.mem value⟩).applyHeader
        ⟨HiwString.trim s.mem name, HiwString.trim s.mem value⟩) := by
  obtain ⟨R, hR, h⟩ := h
  simp only [hp] at h
  obtain ⟨hn, hw⟩ := window_eq hl
  have hhf := headerFields_line hv.pos_le hl hs
  have hlen : s.head.headers.length < cfg.maxHeadersCount := by simpa [head] using hcnt
  set header : HiwHeader := ⟨HiwString.trim s.mem name, HiwString.trim s.mem value⟩ with hh
  refine ⟨R, by rw [client_applyHeader]; exact hR, ?_⟩
  simp only [phase_applyHeader, phase_storeHeader, hp, mem_applyHeader, mem_storeHeader]
  rw [head_applyHeader (hv.contentLength hp), window_addHeader, ← h, hw,
    scan_line_of_inl hn (Head.line_header hhf hlen)]
  rfl

theorem Refines.refill (hv : Valid cfg s) (h : Refines cfg S s) (hp : s.phase = .headers)
    (hpos : s.pos = s.bytesRead)
    (hr : s.client.recv (cfg.maxHeaderSize - s.bytesRead) = (some bs, c')) :
    Refines cfg S (s.received s.pos bs c') := by
  obtain ⟨R, hR, h⟩ := h
  simp only [hp] at h
  obtain ⟨hw, hwin⟩ := window_received bs c' hpos
  have hph : (s.received s.pos bs c').phase = .headers := hp
  refine ⟨R ++ bs, hR ▸ append_stream_of_recv hr, ?_⟩
  simp only [hph]
  rw [headScan, scan_append, ← headScan, ← h, hw, hwin, head_received (hv.views hp)]
  rfl

/-- **A clean iteration stays on its way.** -/
theorem Refines.step (hv : Valid cfg s) (hst : Steady cfg s) (hc : Clean cfg s)
    (hlt : s'.bytesRead < cfg.maxHeaderSize) (h : Refines cfg S s) (hi : Iter cfg s s') :
    Refines cfg S s' := by
  cases hi with
  | closed hf hn hr hnil => exact h.closed hst hc hf hn hr hnil
  | @waiting bs c' hp hr hbs hn hlt' =>
    obtain ⟨R, hR, h⟩ := h
    simp only [hp] at h
    have hph : (s.received (s.pos + s.bytesRead) bs c').phase = .statusLine := hp
    refine ⟨R ++ bs, hR ▸ append_stream_of_recv hr, ?_⟩
    simp only [hph]
    rw [← h, ← bytes_received (hv.fresh hp).1]
    rfl
  -- the buffer is not full, so the run does not end for want of room
  | noStatusLine hp hr hbs hn hfull => exact absurd hlt (by simpa [received, ret] using hfull)
  | @badStatusLine bs c' line hp hr hbs hl hps =>
    obtain ⟨R, hR, h⟩ := h
    simp only [hp] at h
    obtain ⟨hn, heq⟩ := received_statusLine rfl (hv.fresh hp).1 hl
    have hsf := HiwRequest.map_reads_parseStatusLine _ _ ▸ congrArg (Option.map _) hps
    set r := s.received (s.pos + s.bytesRead) bs c'
    have hscan : headScan cfg (R ++ bs) = .stop .refused
        (r.mem.bytes (line.length + 1) (r.bytesRead - (line.length + 1))) := by
      rw [headScan, ← h, heq, scan_line_of_inr hn (Head.line_badStatusLine hsf)]
    exact .of_stop (hR ▸ append_stream_of_recv hr) hscan rfl rfl
  | longUri hp hr hbs hl hps hfull =>
    exact absurd hlt (by simpa [received, statusRead, ret] using hfull)
  | statusLine hp hr hbs hl hps hlt' => exact h.statusLine hv hp hr hl hps
  -- the table is never that full: the store in front of this count would have left it
  | tooMany hp hl hcnt => exact absurd hv.count_le (by omega)
  | overflow hp hl hcnt hs =>
    have hlen : cfg.maxHeadersCount ≤ s.head.headers.length := by simp [head, hcnt]
    exact h.of_line hp hl (Head.line_overflow (headerFields_line hv.pos_le hl hs) hlen) rfl rfl rfl
  | header hp hl hcnt hs => exact h.header hv hp hl hcnt hs
  | @separator line hp hl hcnt hs hlen =>
    have hlen' : (line.reads s.mem).length ≤ 1 := by simpa using hlen
    refine h.of_line hp hl (Head.line_separator (HiwRequest.headerFields_eq_none hs) hlen') rfl rfl
      ?_
    have hout : s.separator.outcome =
        .accepted s.head (s.separator.req.readAheadBytes ++ s.client.stream) := rfl
    rw [hout, readAheadBytes_separator hv.pos_le hl hlen, List.append_assoc]
    rfl
  | @faulty line hp hl hcnt hs hlen =>
    have hlen' : 1 < (line.reads s.mem).length := by simpa using hlen
    exact h.of_line hp hl (Head.line_faulty (HiwRequest.headerFields_eq_none hs) hlen') rfl rfl rfl
  | full hp hl hfull => exact absurd hlt (by simpa [ret] using hfull)
  | refill hp hl hlt' hr hbs => exact h.refill hv hp (hc.2 hp hl (by rw [hr]; exact hbs)) hr

theorem Refines.outcome_eq (h : Refines cfg S s) (hf : s.final = true) :
    s.outcome = headOutcome cfg S := by
  obtain ⟨R, -, h⟩ := h
  cases hp : s.phase with
  | statusLine => simp [final, hp] at hf
  | headers => simp [final, hp] at hf
  | returned r => simpa only [hp] using h
  | overflow i => simpa only [hp] using h

theorem refines_start {req : HiwRequest} (hf : req.Fresh cfg) (client : HiwClient) :
    Refines cfg client.stream (start cfg req client) := by
  rw [start_eq hf]
  exact ⟨[], rfl, rfl⟩

end HiwReader

namespace HiwRequest

variable {cfg : Config} {req req' : HiwRequest}

/-- Every state of the run is clean, and the buffer never fills up. -/
def CleanRun (cfg : Config) (req : HiwRequest) (client : HiwClient) : Prop :=
  ∀ s, Visited (HiwReader.step cfg) HiwReader.final (.start cfg req client) s →
    s.Clean cfg ∧ s.bytesRead < cfg.maxHeaderSize

theorem plain_of_visited {client : HiwClient} (hf : req.Fresh cfg) (hpl : client.Plain)
    {s : HiwReader}
    (hv : Visited (HiwReader.step cfg) HiwReader.final (.start cfg req client) s) :
    s.client.Plain := by
  have hstart : (HiwReader.start cfg req client).client.Plain := by
    rw [HiwReader.start_eq hf]; exact hpl
  refine hv.invariant (I := fun u => u.client.Plain) hstart fun u hu hnf h => ?_
  exact HiwReader.client_step (P := HiwClient.Plain) (fun _ _ _ _ h hr => h.recv hr) h
    (HiwReader.iter_step hnf)

/-- **A clean run computes the meaning of the head.** -/
theorem outcome_readHeaders (hf : req.Fresh cfg) {client : HiwClient} (hpl : client.Plain)
    (hrun : CleanRun cfg req client) :
    (req.readHeaders cfg client).outcome = headOutcome cfg client.stream := by
  have hinv := (visited_readHeaders cfg req client).invariant (HiwReader.refines_start hf client)
    fun u hu hnf h => h.step (HiwReader.valid_of_visited hf hu)
      (fun _ _ hnil => (plain_of_visited hf hpl hu).stream_eq_nil (by have := (hrun u hu).2; omega)
        rfl hnil)
      (hrun u hu).1 (hrun _ (hu.tail hnf)).2 (HiwReader.iter_step hnf)
  exact hinv.outcome_eq (final_readHeaders hf client)

/-- **Chunk independence.**  Two clean runs on the same bytes come to the same, however the bytes
are cut and whatever the buffers held before. -/
theorem chunk_independent (hf : req.Fresh cfg) (hf' : req'.Fresh cfg) {cuts cuts' : List Bytes}
    (hne : ∀ bs ∈ cuts, bs ≠ []) (hne' : ∀ bs ∈ cuts', bs ≠ [])
    (hS : cuts.flatten = cuts'.flatten) (hrun : CleanRun cfg req (.sending cuts))
    (hrun' : CleanRun cfg req' (.sending cuts')) :
    (req.readHeaders cfg (.sending cuts)).outcome =
      (req'.readHeaders cfg (.sending cuts')).outcome := by
  rw [outcome_readHeaders hf (HiwClient.plain_sending hne) hrun,
    outcome_readHeaders hf' (HiwClient.plain_sending hne') hrun', HiwClient.stream_sending,
    HiwClient.stream_sending, hS]

/-- A head cut between two header lines, and in front of the body, is read like the whole. -/
theorem chunk_independent_get :
    ((HiwRequest.init .default fun _ => 0).reset.readHeaders .default
        (.sending [ascii "PUT / HTTP/1.1\r\nA: b\r\n", ascii "Content-Length: 2\r\n\r\n",
          ascii "hi"])).outcome =
      ((HiwRequest.init .default fun _ => 7).reset.readHeaders .default
        (.sending [ascii "PUT / HTTP/1.1\r\nA: b\r\nContent-Length: 2\r\n\r\nhi"])).outcome := by
  refine chunk_independent (fresh_reset rfl rfl) (fresh_reset rfl rfl) (by decide) (by decide)
    (by decide) (fun s hs => ?_) (fun s hs => ?_)
  all_goals
    refine of_decide_eq_true (of_testFuel
      (p := fun s => decide (s.Clean .default ∧ s.bytesRead < Config.default.maxHeaderSize))
      (n := 20) ?_ hs)
    decide +kernel

/-- Cut inside a header line, the bytes of a well-formed head are not read as the same headers. -/
theorem chunk_dependent :
    ¬ ∀ (req : HiwRequest) (cuts cuts' : List Bytes), req.Fresh .default →
      (∀ bs ∈ cuts, bs ≠ []) → (∀ bs ∈ cuts', bs ≠ []) → cuts.flatten = cuts'.flatten →
      cuts.flatten.length < Config.default.maxHeaderSize →
      (∃ head rest, headOutcome .default cuts.flatten = .accepted head rest) →
      (req.readHeaders .default (.sending cuts)).outcome =
        (req.readHeaders .default (.sending cuts')).outcome := by
  intro h
  have := h (HiwRequest.init .default fun _ => 0).reset
    [ascii "GET / HTTP/1.1\r\nHo", ascii "st: a\r\n\r\n"]
    [ascii "GET / HTTP/1.1\r\nHost: a\r\n\r\n"] (fresh_reset rfl rfl) (by decide) (by decide)
    (by decide) (by decide) ⟨⟨ascii "GET", ascii "/", [(ascii "Host", ascii "a")], -1, true⟩, [],
      by decide +kernel⟩
  revert this
  decide +kernel

end HiwRequest

end Highway
