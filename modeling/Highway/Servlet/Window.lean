import Highway.Servlet.Reader

/-!
# The window invariant of the parser

`HiwReader.Valid` is what holds at every iteration of `hiw_internal_request_read_headers` on a
freshly reset request, whatever is received and however it is cut: the cursor lies inside the
received bytes, these inside the buffer, the views handed out so far end in front of the cursor,
the header table is within bounds, and an accepted request announces its whole body as unread
(`Valid.step`).  With it, every iteration makes progress
and the parser terminates (`final_readHeaders`).
-/

namespace Highway

open Lib

namespace HiwString

/-- Offset of the first byte behind a string. -/
def stop (s : HiwString) : ℕ := s.begin + s.length

theorem reads_write_of_le {m : Buf} {s : HiwString} {o : ℕ} {bs : Bytes} (h : s.stop ≤ o) :
    s.reads (m.write o bs) = s.reads m :=
  Buf.bytes_write_of_le h

end HiwString

namespace HiwRequest

/-- A request after `hiw_internal_request_reset`; nothing is known about its memory. -/
structure Fresh (cfg : Config) (req : HiwRequest) : Prop where
  headers : req.headers = []
  readAhead : req.readAhead = 0
  readAheadLength : req.readAheadLength = 0
  connectionClose : req.connectionClose = true
  contentLength : req.contentLength = -1
  contentLengthRemaining : req.contentLengthRemaining = 0
  memory : req.memory = .fixedInit cfg.maxHeaderSize

/-- The bytes in the read-ahead part of the buffer. -/
def readAheadBytes (req : HiwRequest) : Bytes :=
  req.memoryFixed.bytes req.readAhead req.readAheadLength.toNat

/-- The views of a request end at or in front of offset `b`. -/
def ViewsBelow (req : HiwRequest) (b : ℕ) : Prop :=
  req.method.stop ≤ b ∧ req.uri.stop ≤ b ∧
    ∀ h ∈ req.headers, h.name.stop ≤ b ∧ h.value.stop ≤ b

theorem ViewsBelow.mono {req : HiwRequest} {b b' : ℕ} (h : req.ViewsBelow b) (hb : b ≤ b') :
    req.ViewsBelow b' :=
  ⟨h.1.trans hb, h.2.1.trans hb, fun x hx => ⟨(h.2.2 x hx).1.trans hb, (h.2.2 x hx).2.trans hb⟩⟩

variable {m : Buf} {line method uri : HiwString}

theorem stop_le_of_parseStatusLine (h : parseStatusLine m line = some (method, uri)) :
    method.stop ≤ line.stop ∧ uri.stop ≤ line.stop := by
  unfold parseStatusLine at h
  split_ifs at h
  split at h
  · rename_i a b c hsplit
    dsimp only at h
    split_ifs at h
    simp only [Option.some.injEq, Prod.mk.injEq] at h
    obtain ⟨rfl, rfl⟩ := h
    have ha := HiwString.bounds_split (v := a) (m := m) (s := line) (d := 32) (n := 3)
      (by rw [hsplit]; simp)
    have hb := HiwString.bounds_split (v := b) (m := m) (s := line) (d := 32) (n := 3)
      (by rw [hsplit]; simp)
    exact ⟨HiwString.rtrim_le.trans ha.2, HiwString.rtrim_le.trans hb.2⟩
  · cases h

theorem fresh_reset {cfg : Config} {req : HiwRequest} (hs : req.memory.stop = cfg.maxHeaderSize)
    (hr : req.memory.resizeBytes = -1) : Fresh cfg req.reset := by
  refine ⟨rfl, rfl, rfl, rfl, rfl, rfl, ?_⟩
  simp [reset, HiwMemory.reset, HiwMemory.fixedInit, hs, hr]

end HiwRequest

namespace HiwReader

/-- The window invariant. -/
structure Valid (cfg : Config) (s : HiwReader) : Prop where
  pos_le : s.pos ≤ s.bytesRead
  bytesRead_le : s.bytesRead ≤ cfg.maxHeaderSize
  count_le : s.req.headers.length ≤ cfg.maxHeadersCount
  fresh : s.phase = .statusLine → s.pos = 0 ∧ s.req.headers = [] ∧
    s.req.connectionClose = true ∧ s.req.contentLength = -1 ∧ s.req.readAhead = 0 ∧
    s.req.readAheadLength = 0
  views : s.phase = .headers → s.req.ViewsBelow s.pos
  contentLength : s.phase = .headers → s.headerContentLength = s.req.contentLength
  accepted : s.phase = .returned true → s.req.ViewsBelow s.bytesRead ∧
    0 ≤ s.req.readAheadLength ∧ s.req.readAhead + s.req.readAheadLength ≤ s.bytesRead
  remaining : s.phase = .returned true → s.req.contentLengthRemaining = s.req.contentLength ∨
    s.req.contentLength = -1 ∧ s.bytesRead = cfg.maxHeaderSize

variable {cfg : Config} {s s' : HiwReader} {bs : Bytes} {c' : HiwClient}
  {line name value : HiwString} {header : HiwHeader}

/-! ### The pieces of an iteration -/

@[simp] theorem mem_ret (r : Bool) : (s.ret r).mem = s.mem := rfl

@[simp] theorem final_ret (r : Bool) : (s.ret r).final = true := rfl

theorem applyHeader_eq (s : HiwReader) (header : HiwHeader) :
    (s.applyHeader header).req = { s.req with
      contentLength := (s.applyHeader header).req.contentLength } ∧
    (s.applyHeader header).client = s.client ∧ (s.applyHeader header).bytesRead = s.bytesRead ∧
    (s.applyHeader header).pos = s.pos ∧ (s.applyHeader header).phase = s.phase := by
  unfold applyHeader
  dsimp only
  split_ifs <;> simp

@[simp] theorem mem_applyHeader : (s.applyHeader header).mem = s.mem := by
  rw [mem, (applyHeader_eq s header).1]
  rfl

@[simp] theorem headers_applyHeader : (s.applyHeader header).req.headers = s.req.headers := by
  rw [(applyHeader_eq s header).1]

@[simp] theorem client_applyHeader : (s.applyHeader header).client = s.client :=
  (applyHeader_eq s header).2.1

@[simp] theorem bytesRead_applyHeader : (s.applyHeader header).bytesRead = s.bytesRead :=
  (applyHeader_eq s header).2.2.1

@[simp] theorem pos_applyHeader : (s.applyHeader header).pos = s.pos :=
  (applyHeader_eq s header).2.2.2.1

@[simp] theorem phase_applyHeader : (s.applyHeader header).phase = s.phase :=
  (applyHeader_eq s header).2.2.2.2

@[simp] theorem mem_storeHeader : (s.storeHeader line header).mem = s.mem := rfl

@[simp] theorem headers_storeHeader :
    (s.storeHeader line header).req.headers = s.req.headers ++ [header] := rfl

@[simp] theorem client_storeHeader : (s.storeHeader line header).client = s.client := rfl

@[simp] theorem bytesRead_storeHeader : (s.storeHeader line header).bytesRead = s.bytesRead := rfl

@[simp] theorem pos_storeHeader :
    (s.storeHeader line header).pos = s.pos + line.length + 1 := rfl

@[simp] theorem phase_storeHeader : (s.storeHeader line header).phase = s.phase := rfl

theorem window_addHeader : ((s.storeHeader line header).applyHeader header).window =
    ⟨s.pos + line.length + 1, s.bytesRead - (s.pos + line.length + 1)⟩ := by
  simp [window]

theorem line_bounds (hp : s.pos ≤ s.bytesRead)
    (hl : HiwString.readline s.mem s.window = some line) :
    line.begin = s.pos ∧ s.pos + line.length < s.bytesRead ∧
      s.mem (s.pos + line.length) = LF := by
  obtain ⟨hb, hlt, -, hLF, -⟩ := HiwString.readline_eq_some hl
  simp only [window] at hb hlt hLF
  exact ⟨hb, by omega, hLF⟩

/-- The views stored for a header line end at the end of the line, or one byte behind it. -/
theorem header_bounds (h : HiwString.split s.mem line 58 2 = [name, value]) :
    (HiwString.trim s.mem name).stop ≤ line.stop + 1 ∧
      (HiwString.trim s.mem value).stop ≤ line.stop + 1 := by
  have hn := HiwString.bounds_split (v := name) (m := s.mem) (s := line) (d := 58) (n := 2)
    (by rw [h]; simp)
  have hv := HiwString.bounds_split (v := value) (m := s.mem) (s := line) (d := 58) (n := 2)
    (by rw [h]; simp)
  exact ⟨HiwString.trim_le.trans (by simp only [HiwString.stop]; omega),
    HiwString.trim_le.trans (by simp only [HiwString.stop]; omega)⟩

/-- The separator moves the cursor over at most a CR and a LF, inside the received bytes. -/
theorem separator_pos (hp : s.pos ≤ s.bytesRead) :
    s.pos ≤ s.separator.pos ∧ s.separator.pos ≤ s.bytesRead := by
  unfold separator done skip
  dsimp only
  split_ifs <;> omega

theorem recv_le (h : s.bytesRead ≤ cfg.maxHeaderSize)
    (hr : s.client.recv (cfg.maxHeaderSize - s.bytesRead) = (some bs, c')) :
    s.bytesRead + bs.length ≤ cfg.maxHeaderSize := by
  have := HiwClient.length_le_of_recv hr
  omega

/-- Of a request that is refused, nothing but the bounds is kept. -/
theorem valid_ret_false (hpos : s.pos ≤ s.bytesRead) (hread : s.bytesRead ≤ cfg.maxHeaderSize)
    (hcount : s.req.headers.length ≤ cfg.maxHeadersCount) : Valid cfg (s.ret false) where
  pos_le := hpos
  bytesRead_le := hread
  count_le := hcount
  fresh := fun h => by cases h
  views := fun h => by cases h
  contentLength := fun h => by cases h
  accepted := fun h => by cases h
  remaining := fun h => by cases h

/-- An accepted status line that fills the buffer leaves an empty head behind. -/
theorem Valid.longUri {method uri : HiwString} (h : Valid cfg s) (hp : s.phase = .statusLine)
    (hr : s.client.recv (cfg.maxHeaderSize - s.bytesRead) = (some bs, c'))
    (hl : HiwString.readline (s.received (s.pos + s.bytesRead) bs c').mem ⟨0, bs.length⟩ =
      some line)
    (hpl : HiwRequest.parseStatusLine (s.received (s.pos + s.bytesRead) bs c').mem line =
      some (method, uri))
    (hfull : cfg.maxHeaderSize ≤ s.bytesRead + bs.length) :
    Valid cfg (((s.received (s.pos + s.bytesRead) bs c').statusRead method uri).ret true) := by
  have hle := h.bytesRead_le
  obtain ⟨hb, hlt, -⟩ := HiwString.readline_eq_some hl
  obtain ⟨hm, hu⟩ := HiwRequest.stop_le_of_parseStatusLine hpl
  obtain ⟨hp0, hh, -, hcl, hra, hrl⟩ := h.fresh hp
  have hline : line.stop ≤ s.bytesRead + bs.length := by
    simp only [HiwString.stop, hb]; simp only at hlt; omega
  refine ⟨by simp [received, statusRead, ret]; omega, recv_le hle hr, h.count_le,
    by rintro ⟨⟩, by rintro ⟨⟩, by rintro ⟨⟩,
    fun _ => ⟨⟨hm.trans hline, hu.trans hline, ?_⟩, ?_, ?_⟩,
    fun _ => .inr ⟨hcl, le_antisymm (recv_le hle hr) hfull⟩⟩
  · simp [ret, statusRead, received, hh]
  · simp [ret, statusRead, received, hrl]
  · simp [ret, statusRead, received, hrl, hra]; omega

theorem Valid.statusLine {method uri : HiwString} (h : Valid cfg s) (hp : s.phase = .statusLine)
    (hr : s.client.recv (cfg.maxHeaderSize - s.bytesRead) = (some bs, c'))
    (hl : HiwString.readline (s.received (s.pos + s.bytesRead) bs c').mem ⟨0, bs.length⟩ =
      some line)
    (hpl : HiwRequest.parseStatusLine (s.received (s.pos + s.bytesRead) bs c').mem line =
      some (method, uri)) :
    Valid cfg
      (((s.received (s.pos + s.bytesRead) bs c').statusRead method uri).enterHeaders line) := by
  obtain ⟨hb, hlt, -⟩ := HiwString.readline_eq_some hl
  obtain ⟨hm, hu⟩ := HiwRequest.stop_le_of_parseStatusLine hpl
  obtain ⟨hp0, hh, -, -, hra, hrl⟩ := h.fresh hp
  simp only [HiwString.stop] at hm hu
  simp only at hb hlt
  refine ⟨?_, recv_le h.bytesRead_le hr, h.count_le, by rintro ⟨⟩, fun _ => ⟨?_, ?_, ?_⟩,
    fun _ => rfl, by rintro ⟨⟩, by rintro ⟨⟩⟩
  · simp [enterHeaders, statusRead, received, hp0]; omega
  · simp [enterHeaders, statusRead, received, hp0, HiwString.stop]; omega
  · simp [enterHeaders, statusRead, received, hp0, HiwString.stop]; omega
  · simp [enterHeaders, statusRead, received, hh]

theorem Valid.addHeader (h : Valid cfg s) (hp : s.phase = .headers)
    (hl : HiwString.readline s.mem s.window = some line)
    (hc : s.req.headers.length < cfg.maxHeadersCount)
    (hs : HiwString.split s.mem line 58 2 = [name, value]) :
    Valid cfg ((s.storeHeader line
      ⟨HiwString.trim s.mem name, HiwString.trim s.mem value⟩).applyHeader
        ⟨HiwString.trim s.mem name, HiwString.trim s.mem value⟩) := by
  obtain ⟨hb, hlt, -⟩ := line_bounds h.pos_le hl
  obtain ⟨hn, hv⟩ := header_bounds hs
  simp only [HiwString.stop, hb] at hn hv
  have hviews : s.req.ViewsBelow (s.pos + line.length + 1) := (h.views hp).mono (by omega)
  set header : HiwHeader := ⟨HiwString.trim s.mem name, HiwString.trim s.mem value⟩ with hh
  refine ⟨?_, ?_, ?_, ?_, fun _ => ?_, fun _ => ?_, ?_, ?_⟩
  · simp only [pos_applyHeader, pos_storeHeader, bytesRead_applyHeader, bytesRead_storeHeader]
    omega
  · rw [bytesRead_applyHeader]
    exact h.bytesRead_le
  · simp only [headers_applyHeader, headers_storeHeader, List.length_append, List.length_singleton]
    omega
  · simp [hp]
  · -- method and uri are those of the status line, and the new views end in front of the cursor
    rw [(applyHeader_eq _ _).1, pos_applyHeader, pos_storeHeader]
    refine ⟨hviews.1, hviews.2.1, fun x hx => ?_⟩
    rcases List.mem_append.1 hx with hx | hx
    · exact hviews.2.2 x hx
    · obtain rfl := List.mem_singleton.1 hx
      exact ⟨by simpa [HiwString.stop] using hn, by simpa [HiwString.stop] using hv⟩
  · have hcl := h.contentLength hp
    unfold applyHeader
    dsimp only
    split_ifs
    · exact hcl
    · rfl
    · exact hcl
  · simp [hp]
  · simp [hp]

theorem Valid.separator (h : Valid cfg s) (hp : s.phase = .headers) : Valid cfg s.separator := by
  obtain ⟨hge, hle'⟩ := separator_pos h.pos_le
  refine ⟨hle', h.bytesRead_le, h.count_le, by rintro ⟨⟩, by rintro ⟨⟩,
    by rintro ⟨⟩, fun _ => ⟨?_, ?_, ?_⟩, fun _ => .inl rfl⟩
  · exact (h.views hp).mono (hge.trans hle')
  · simp only [HiwReader.separator, done] at hle' ⊢
    omega
  · simp only [HiwReader.separator, done] at hle' ⊢
    omega

/-- **Every iteration keeps the window invariant.** -/
theorem Valid.step (h : Valid cfg s) (hi : Iter cfg s s') : Valid cfg s' := by
  have hle := h.bytesRead_le
  have hpos := h.pos_le
  cases hi with
  | closed hf hn hr hnil => exact valid_ret_false h.pos_le h.bytesRead_le h.count_le
  | waiting hp hr hbs hn hlt =>
    exact ⟨by simp [received]; omega, recv_le hle hr, h.count_le, h.fresh,
      fun hp' => by simp [received, hp] at hp', fun hp' => by simp [received, hp] at hp',
      fun hp' => by simp [received, hp] at hp', fun hp' => by simp [received, hp] at hp'⟩
  | noStatusLine hp hr hbs hn hfull =>
    exact valid_ret_false (by simp [received]; omega) (recv_le hle hr) h.count_le
  | badStatusLine hp hr hbs hl hpl =>
    exact valid_ret_false (by simp [received]; omega) (recv_le hle hr) h.count_le
  | longUri hp hr hbs hl hpl hfull => exact h.longUri hp hr hl hpl hfull
  | statusLine hp hr hbs hl hpl hlt' => exact h.statusLine hp hr hl hpl
  | tooMany hp hl hc => exact valid_ret_false h.pos_le h.bytesRead_le h.count_le
  | overflow hp hl hc hs =>
    exact ⟨h.pos_le, h.bytesRead_le, h.count_le, by rintro ⟨⟩, by rintro ⟨⟩,
      by rintro ⟨⟩, by rintro ⟨⟩, by rintro ⟨⟩⟩
  | header hp hl hc hs => exact h.addHeader hp hl hc hs
  | separator hp hl hc hs hlen => exact h.separator hp
  | faulty hp hl hc hs hlen => exact valid_ret_false h.pos_le h.bytesRead_le h.count_le
  | full hp hl hfull => exact valid_ret_false h.pos_le h.bytesRead_le h.count_le
  | refill hp hl hlt hr hbs =>
    exact ⟨by simp [received]; omega, recv_le hle hr, h.count_le,
      fun hp' => by simp [received, hp] at hp', fun _ => h.views hp, fun _ => h.contentLength hp,
      fun hp' => by simp [received, hp] at hp', fun hp' => by simp [received, hp] at hp'⟩

theorem client_step {P : HiwClient → Prop}
    (hP : ∀ c len r c', P c → HiwClient.recv c len = (r, c') → P c') (h : P s.client)
    (hi : Iter cfg s s') : P s'.client := by
  cases hi with
  | closed hf hn hr hnil => exact hP _ _ _ _ h hr
  | waiting hp hr hbs hn hlt => exact hP _ _ _ _ h hr
  | noStatusLine hp hr hbs hn hfull => exact hP _ _ _ _ h hr
  | badStatusLine hp hr hbs hl hpl => exact hP _ _ _ _ h hr
  | longUri hp hr hbs hl hpl hfull => exact hP _ _ _ _ h hr
  | statusLine hp hr hbs hl hpl hlt => exact hP _ _ _ _ h hr
  | refill hp hl hlt hr hbs => exact hP _ _ _ _ h hr
  | header hp hl hc hs =>
    rw [client_applyHeader]
    exact h
  | _ => exact h

/-! ### Start and termination -/

theorem start_eq {req : HiwRequest} (hf : req.Fresh cfg) (client : HiwClient) :
    start cfg req client =
      { req := { req with memory := ⟨cfg.maxHeaderSize, cfg.maxHeaderSize, -1⟩ }
        client
        bytesRead := 0
        pos := 0
        headerConnectionClose := true
        headerContentLength := -1
        phase := .statusLine } := by
  have hget : req.memory.get cfg.maxHeaderSize =
      some (some 0, ⟨cfg.maxHeaderSize, cfg.maxHeaderSize, -1⟩) := by
    rw [hf.memory, HiwMemory.get_of_le (by simp [HiwMemory.fixedInit])]
    simp [HiwMemory.fixedInit]
  simp only [start, hget, hf.connectionClose, hf.contentLength, ← hf.headers]

theorem valid_start {req : HiwRequest} (hf : req.Fresh cfg) (client : HiwClient) :
    Valid cfg (start cfg req client) := by
  rw [start_eq hf]
  exact ⟨le_rfl, Nat.zero_le _, by simp [hf.headers], fun _ => ⟨rfl, hf.headers,
    hf.connectionClose, hf.contentLength, hf.readAhead, hf.readAheadLength⟩, by rintro ⟨⟩,
    by rintro ⟨⟩, by rintro ⟨⟩, by rintro ⟨⟩⟩

theorem valid_of_visited {req : HiwRequest} (hf : req.Fresh cfg) {client : HiwClient}
    (hv : Visited (step cfg) final (start cfg req client) s) : Valid cfg s :=
  hv.invariant (valid_start hf client) fun _ _ hnf h => h.step (iter_step hnf)

/-- How many iterations are left at most: bytes that may still be received, and bytes that may
still be parsed. -/
def measure (cfg : Config) (s : HiwReader) : ℕ :=
  if s.final then 0 else cfg.maxHeaderSize - s.bytesRead + (cfg.maxHeaderSize - s.pos) + 1

theorem measure_lt (h : Valid cfg s) (hnf : s.final = false) (hi : Iter cfg s s') :
    s'.measure cfg < s.measure cfg := by
  have hle := h.bytesRead_le
  have hpos := h.pos_le
  have hs : s.measure cfg = cfg.maxHeaderSize - s.bytesRead + (cfg.maxHeaderSize - s.pos) + 1 := by
    simp [measure, hnf]
  -- a state in which the run has stopped has nothing left
  have hfin : ∀ u : HiwReader, u.final = true → u.measure cfg < s.measure cfg := fun u hu => by
    rw [hs, measure, if_pos hu]
    omega
  -- a receive that brings bytes takes them from what is left
  have hgrow : ∀ u : HiwReader, s.bytesRead < u.bytesRead → u.bytesRead ≤ cfg.maxHeaderSize →
      s.pos ≤ u.pos → u.measure cfg < s.measure cfg := fun u h₁ h₂ h₃ => by
    rw [hs, measure]
    split_ifs <;> omega
  cases hi with
  | closed => exact hfin _ rfl
  | @waiting bs c' hp hr hbs hn hlt =>
    have := List.length_pos_iff.2 hbs
    exact hgrow _ (by simp [received]; omega) (recv_le hle hr) le_rfl
  | noStatusLine => exact hfin _ rfl
  | badStatusLine => exact hfin _ rfl
  | longUri => exact hfin _ rfl
  | @statusLine bs c' line method uri hp hr hbs hl hpl hlt =>
    have := List.length_pos_iff.2 hbs
    exact hgrow _ (by simp [enterHeaders, statusRead, received]; omega) (recv_le hle hr)
      (by simp [enterHeaders, statusRead, received]; omega)
  | tooMany => exact hfin _ rfl
  | overflow => exact hfin _ rfl
  | @header line name value hp hl hc hsp =>
    obtain ⟨hb, hlt, -⟩ := line_bounds hpos hl
    rw [hs, measure]
    split_ifs
    · omega
    · simp only [pos_applyHeader, pos_storeHeader, bytesRead_applyHeader, bytesRead_storeHeader]
      omega
  | separator => exact hfin _ rfl
  | faulty => exact hfin _ rfl
  | full => exact hfin _ rfl
  | @refill bs c' hp hl hlt hr hbs =>
    have := List.length_pos_iff.2 hbs
    exact hgrow _ (by simp [received]; omega) (recv_le hle hr) le_rfl

end HiwReader

namespace HiwRequest

variable {cfg : Config} {req : HiwRequest}

/-- **The parser terminates**, after at most `2 * HIW_MAX_HEADER_SIZE + 1` iterations. -/
theorem final_readHeaders (hf : req.Fresh cfg) (client : HiwClient) :
    (req.readHeaders cfg client).final = true := by
  refine final_runFuel (I := HiwReader.Valid cfg) (HiwReader.measure cfg)
    (fun u hu hnf => ⟨hu.step (HiwReader.iter_step hnf),
      HiwReader.measure_lt hu hnf (HiwReader.iter_step hnf)⟩)
    (HiwReader.valid_start hf client) ?_
  rw [HiwReader.start_eq hf, HiwReader.measure, if_neg (by simp [HiwReader.final])]
  simp only [Nat.sub_zero]
  omega

theorem visited_readHeaders (cfg : Config) (req : HiwRequest) (client : HiwClient) :
    Visited (HiwReader.step cfg) HiwReader.final (HiwReader.start cfg req client)
      (req.readHeaders cfg client) :=
  visited_runFuel _ _

theorem valid_readHeaders (hf : req.Fresh cfg) (client : HiwClient) :
    (req.readHeaders cfg client).Valid cfg :=
  HiwReader.valid_of_visited hf (visited_readHeaders cfg req client)

end HiwRequest

end Highway
