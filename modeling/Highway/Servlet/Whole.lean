import Highway.Servlet.Exact

/-!
# What acceptance means

A head is accepted as a whole (`WholeHead`) if the bytes received are a status line, header lines,
an empty line and what follows it, with the headers of the request those lines, trimmed, and the
read-ahead behind the empty line.  The parser accepts other heads, too, and does so in four ways;
`HiwReader.Sound` excludes them, state by state:

* the receive that brings the status line fills the buffer, and the headers are not looked at;
* a refill is stored over an unfinished line;
* a line of one byte is taken for the separator;
* a name of blanks only is stored as the colon behind it.

A run whose states are all sound accepts whole heads only (`HiwRequest.wholeHead_of_sound`).
-/

namespace Highway

open Lib

/-- Name and value of a header line, without the blanks around them. -/
def plainFields (l : Bytes) : Bytes × Bytes :=
  (trimmed (l.takeWhile (· ≠ 58)), trimmed ((l.dropWhile (· ≠ 58)).drop 1))

/-- A header line, unless its name consists of blanks, or the empty line. -/
def PlainLine (l : Bytes) : Prop :=
  if 58 ∈ l then
    l.takeWhile (· ≠ 58) = [] ∨ (l.takeWhile (· ≠ 58)).all HiwString.isspace = false
  else l = [] ∨ l = [CR]

instance (l : Bytes) : Decidable (PlainLine l) := inferInstanceAs (Decidable (ite _ _ _))

/-- Status line and header lines. -/
structure RequestLines (status : Bytes) (lines : List Bytes) : Prop where
  status : LF ∉ status
  lines : ∀ l ∈ lines, LF ∉ l ∧ 58 ∈ l

/-- **The bytes `R` start with a whole head, and it is what the request holds.** -/
def WholeHead (R : Bytes) (req : HiwRequest) : Prop :=
  ∃ status lines blank rest, RequestLines status lines ∧ (blank = [] ∨ blank = [CR]) ∧
    R = status ++ LF :: (unlines LF lines ++ (blank ++ LF :: rest)) ∧
    req.head.headers = lines.map plainFields ∧
    req.readAhead + rest.length = R.length ∧ req.readAheadBytes = rest

theorem fields_of_mem {l : Bytes} (h : 58 ∈ l) :
    fields 58 1 l = [l.takeWhile (· ≠ 58), (l.dropWhile (· ≠ 58)).drop 1] := by
  rw [fields, if_pos h, fields]

/-- On a line whose name is not of blanks only, the parser trims plainly. -/
theorem headerFields_of_plainLine {l : Bytes} (h : 58 ∈ l) (hl : PlainLine l) :
    headerFields l = some (plainFields l) := by
  rw [PlainLine, if_pos h] at hl
  rw [headerFields, fields_of_mem h]
  have hname : trimWith HiwString.isspace 58 (l.takeWhile (· ≠ 58)) =
      trimmed (l.takeWhile (· ≠ 58)) := by
    rcases hl with hnil | hsolid
    · rw [hnil]
      rfl
    · exact trimWith_of_exists (by simpa using List.all_eq_false.1 hsolid)
  simp only [hname, trimWith_of_next (by decide : HiwString.isspace LF = true)]
  rfl

/-- A name of blanks only is stored as the colon. -/
theorem headerFields_of_not_plainLine {l : Bytes} (h : 58 ∈ l) (hl : ¬ PlainLine l) :
    ∃ value, headerFields l = some ([58], value) := by
  rw [PlainLine, if_pos h] at hl
  obtain ⟨hne, hall⟩ := not_or.1 hl
  refine ⟨trimWith HiwString.isspace LF ((l.dropWhile (· ≠ 58)).drop 1), ?_⟩
  rw [headerFields, fields_of_mem h]
  have hname : trimWith HiwString.isspace 58 (l.takeWhile (· ≠ 58)) = [58] := by
    rw [trimWith, if_neg hne, if_pos (Bool.not_eq_false _ ▸ hall)]
    rfl
  simp only [hname]

theorem not_mem_plainFields (l : Bytes) : 58 ∉ (plainFields l).1 := by
  intro h
  have hmem : (58 : UInt8) ∈ l.takeWhile (· ≠ 58) :=
    (List.dropWhile_sublist _).subset ((List.rdropWhile_prefix _ _).subset h)
  simpa using List.mem_takeWhile_imp hmem

namespace HiwReader

/-- The next iteration is none of the four that accept something else than it seems. -/
structure Sound (cfg : Config) (s : HiwReader) : Prop where
  /-- In the status line loop, a receive leaves room in the buffer. -/
  room : s.phase = .statusLine →
    s.bytesRead + ((s.client.recv (cfg.maxHeaderSize - s.bytesRead)).1.getD []).length <
      cfg.maxHeaderSize
  /-- In the header loop, a refill finds no unfinished line. -/
  tidy : s.Tidy cfg
  /-- In the header loop, a line has a proper name in front of its colon, or is empty. -/
  line : s.phase = .headers →
    ∀ line ∈ HiwString.readline s.mem s.window, PlainLine (line.reads s.mem)

theorem sound_iff {cfg : Config} {s : HiwReader} : s.Sound cfg ↔
    (s.phase = .statusLine →
      s.bytesRead + ((s.client.recv (cfg.maxHeaderSize - s.bytesRead)).1.getD []).length <
        cfg.maxHeaderSize) ∧ s.Tidy cfg ∧
    (s.phase = .headers →
      ∀ line ∈ HiwString.readline s.mem s.window, PlainLine (line.reads s.mem)) :=
  ⟨fun h => ⟨h.room, h.tidy, h.line⟩, fun h => ⟨h.1, h.2.1, h.2.2⟩⟩

instance (cfg : Config) (s : HiwReader) : Decidable (s.Sound cfg) :=
  decidable_of_iff _ sound_iff.symm

/-! ### The bytes received -/

/-- The bytes received are the front of the stream, and the status line loop keeps them. -/
structure Tracked (S : Bytes) (s : HiwReader) : Prop where
  le : s.bytesRead ≤ S.length
  stream : S.drop s.bytesRead = s.client.stream
  block : s.phase = .statusLine → s.mem.bytes 0 s.bytesRead = S.take s.bytesRead

variable {cfg : Config} {S bs : Bytes} {s s' : HiwReader} {c' : HiwClient}
  {line name value : HiwString}

theorem Tracked.recv {len : ℕ} {r : Option Bytes} (h : Tracked S s)
    (hr : s.client.recv len = (r, c')) :
    s.bytesRead + (r.getD []).length ≤ S.length ∧
      S.drop (s.bytesRead + (r.getD []).length) = c'.stream ∧
      S.take (s.bytesRead + (r.getD []).length) = S.take s.bytesRead ++ r.getD [] := by
  have hdrop : S.drop s.bytesRead = r.getD [] ++ c'.stream :=
    h.stream.trans (HiwClient.stream_of_recv_getD hr)
  have hlen := congrArg List.length hdrop
  rw [List.length_drop, List.length_append] at hlen
  have hle := h.le
  refine ⟨by omega, ?_, ?_⟩
  · rw [← List.drop_drop, hdrop, List.drop_left]
  · rw [List.take_add, hdrop, List.take_left]

theorem Tracked.step (hv : Valid cfg s) (h : Tracked S s) (hi : Iter cfg s s') :
    Tracked S s' := by
  cases hi with
  | closed hf hn hr hnil =>
    obtain ⟨hle, hdrop, -⟩ := h.recv hr
    rw [hnil] at hle hdrop
    exact ⟨hle, hdrop, fun hp => by simp [ret] at hp⟩
  | waiting hp hr hbs hn hlt =>
    obtain ⟨hle, hdrop, htake⟩ := h.recv hr
    refine ⟨hle, hdrop, fun _ => (bytes_received (hv.fresh hp).1).trans ?_⟩
    rw [h.block hp]
    exact htake.symm
  | noStatusLine hp hr | badStatusLine hp hr | longUri hp hr =>
    obtain ⟨hle, hdrop, -⟩ := h.recv hr
    exact ⟨hle, hdrop, fun hp' => by simp [ret] at hp'⟩
  | statusLine hp hr =>
    obtain ⟨hle, hdrop, -⟩ := h.recv hr
    exact ⟨hle, hdrop, fun hp' => by simp [enterHeaders] at hp'⟩
  -- the new bytes may lie anywhere in the buffer, but they are the next ones of the stream
  | refill hp hl hlt hr =>
    obtain ⟨hle, hdrop, -⟩ := h.recv hr
    exact ⟨hle, hdrop, fun hp' => by simp [received, hp] at hp'⟩
  | header hp hl hc hs =>
    exact ⟨by simpa using h.le, by simpa using h.stream, fun hp' => by simp [hp] at hp'⟩
  | overflow | tooMany | faulty | full | separator =>
    exact ⟨h.le, h.stream, fun hp' => by simp [ret, separator, done] at hp'⟩

theorem tracked_start {req : HiwRequest} (hf : req.Fresh cfg) (client : HiwClient) :
    Tracked client.stream (start cfg req client) := by
  rw [start_eq hf]
  exact ⟨Nat.zero_le _, rfl, fun _ => rfl⟩

theorem tracked_of_visited {req : HiwRequest} (hf : req.Fresh cfg) {client : HiwClient}
    (h : Visited (step cfg) final (start cfg req client) s) : Tracked client.stream s :=
  h.invariant (tracked_start hf client)
    fun _ hu hnf ht => ht.step (valid_of_visited hf hu) (iter_step hnf)

/-! ### Sound runs -/

/-- What has been parsed are the lines in front of the cursor, and what has not are the bytes
behind it. -/
def Aligned (S : Bytes) (s : HiwReader) : Prop :=
  match s.phase with
  | .headers => ∃ status lines, RequestLines status lines ∧
      S.take s.bytesRead = status ++ LF :: (unlines LF lines ++ s.window.reads s.mem) ∧
      s.head.headers = lines.map plainFields
  | .returned true => WholeHead (S.take s.bytesRead) s.req
  | _ => True

theorem aligned_of_phase (h : s.phase ≠ .headers) (h' : s.phase ≠ .returned true) :
    Aligned S s := by
  unfold Aligned
  split <;> trivial

theorem mem_of_split (hp : s.pos ≤ s.bytesRead)
    (hl : HiwString.readline s.mem s.window = some line)
    (hs : HiwString.split s.mem line 58 2 = [name, value]) : 58 ∈ line.reads s.mem := by
  by_contra hno
  have hnone := headerFields_of_not_isHeaderLine (l := line.reads s.mem) (decide_eq_false hno)
  rw [headerFields_line hp hl hs] at hnone
  cases hnone

theorem not_mem_of_split (hs : (HiwString.split s.mem line 58 2).length ≠ 2) :
    58 ∉ line.reads s.mem := by
  intro hmem
  obtain ⟨_, _, hf⟩ := exists_headerFields (decide_eq_true hmem)
  rw [HiwRequest.headerFields_eq_none hs] at hf
  cases hf

theorem Aligned.statusLine {method uri : HiwString} (hv : Valid cfg s) (ht : Tracked S s)
    (hp : s.phase = .statusLine)
    (hr : s.client.recv (cfg.maxHeaderSize - s.bytesRead) = (some bs, c'))
    (hl : HiwString.readline (s.received (s.pos + s.bytesRead) bs c').mem ⟨0, bs.length⟩ =
      some line) :
    Aligned S
      (((s.received (s.pos + s.bytesRead) bs c').statusRead method uri).enterHeaders line) := by
  obtain ⟨h0, hh, -⟩ := hv.fresh hp
  obtain ⟨hn, heq⟩ := received_statusLine rfl h0 hl
  obtain ⟨-, -, htake⟩ := ht.recv hr
  refine ⟨line.reads (s.received (s.pos + s.bytesRead) bs c').mem, [], ⟨hn, by simp⟩, ?_, ?_⟩
  · have hbytes : S.take (s.bytesRead + bs.length) = s.mem.bytes 0 s.bytesRead ++ bs := by
      rw [ht.block hp]
      exact htake
    rw [window_enterHeaders h0]
    exact hbytes.trans heq
  · simp [head, enterHeaders, statusRead, received, hh]

theorem Aligned.header (hv : Valid cfg s) (h : Aligned S s) (hp : s.phase = .headers)
    (hl : HiwString.readline s.mem s.window = some line)
    (hs : HiwString.split s.mem line 58 2 = [name, value])
    (hplain : PlainLine (line.reads s.mem)) :
    Aligned S ((s.storeHeader line
      ⟨HiwString.trim s.mem name, HiwString.trim s.mem value⟩).applyHeader
        ⟨HiwString.trim s.mem name, HiwString.trim s.mem value⟩) := by
  have hcolon := mem_of_split hv.pos_le hl hs
  -- of a plain line, the split finds the same fields as its first colon
  have hpair := (headerFields_line hv.pos_le hl hs).symm.trans
    (headerFields_of_plainLine hcolon hplain)
  obtain ⟨hn, hw⟩ := window_eq hl
  set header : HiwHeader := ⟨HiwString.trim s.mem name, HiwString.trim s.mem value⟩ with hh
  unfold Aligned at h ⊢
  simp only [hp] at h
  simp only [phase_applyHeader, phase_storeHeader, hp, bytesRead_applyHeader,
    bytesRead_storeHeader, mem_applyHeader, mem_storeHeader]
  obtain ⟨status, lines, hlines, htake, hheaders⟩ := h
  refine ⟨status, lines ++ [line.reads s.mem], ⟨hlines.status, fun l hlm => ?_⟩, ?_, ?_⟩
  · rcases List.mem_append.1 hlm with hlm | hlm
    · exact hlines.lines l hlm
    · rw [List.mem_singleton.1 hlm]
      exact ⟨hn, hcolon⟩
  · rw [htake, hw, window_addHeader, unlines_append, unlines_cons, unlines_nil]
    simp [HiwString.reads]
  · rw [head_applyHeader (hv.contentLength hp), Head.headers_add, hheaders, List.map_append,
      List.map_singleton, hh, Option.some.inj hpair]

theorem Aligned.separator (hv : Valid cfg s) (ht : Tracked S s) (h : Aligned S s)
    (hp : s.phase = .headers) (hl : HiwString.readline s.mem s.window = some line)
    (hlen : line.length ≤ 1)
    (hblank : line.reads s.mem = [] ∨ line.reads s.mem = [CR]) : Aligned S s.separator := by
  have hahead := readAheadBytes_separator hv.pos_le hl hlen
  rw [if_pos hblank, List.nil_append] at hahead
  obtain ⟨-, hw⟩ := window_eq hl
  obtain ⟨-, hle⟩ := separator_pos hv.pos_le
  unfold Aligned at h
  simp only [hp] at h
  obtain ⟨status, lines, hlines, htake, hheaders⟩ := h
  refine ⟨status, lines, line.reads s.mem, _, hlines, hblank, ?_, hheaders, ?_, hahead⟩
  · rw [← hw]
    exact htake
  · have hbytes := congrArg List.length hahead
    have hread : (S.take s.bytesRead).length = s.bytesRead := by
      rw [List.length_take, Nat.min_eq_left ht.le]
    have hnat : s.separator.req.readAheadLength.toNat = s.bytesRead - s.separator.pos := by
      show ((s.bytesRead : ℤ) - s.separator.pos).toNat = _
      omega
    rw [HiwRequest.readAheadBytes, Buf.length_bytes, hnat] at hbytes
    show s.separator.pos + _ = (S.take s.bytesRead).length
    omega

theorem Aligned.refill (hv : Valid cfg s) (ht : Tracked S s) (h : Aligned S s)
    (hp : s.phase = .headers) (hpos : s.pos = s.bytesRead)
    (hr : s.client.recv (cfg.maxHeaderSize - s.bytesRead) = (some bs, c')) :
    Aligned S (s.received s.pos bs c') := by
  obtain ⟨-, -, htake⟩ := ht.recv hr
  obtain ⟨hw, hwin⟩ := window_received bs c' hpos
  have hph : (s.received s.pos bs c').phase = .headers := hp
  unfold Aligned at h ⊢
  simp only [hp] at h
  simp only [hph]
  obtain ⟨status, lines, hlines, hfront, hheaders⟩ := h
  refine ⟨status, lines, hlines, ?_, ?_⟩
  · rw [hwin]
    show S.take (s.bytesRead + bs.length) = _
    rw [hw, List.append_nil] at hfront
    exact htake.trans (by rw [hfront]; simp)
  · rw [head_received (hv.views hp)]
    exact hheaders

/-- **A sound iteration stays aligned.** -/
theorem Aligned.step (hv : Valid cfg s) (ht : Tracked S s) (hs : s.Sound cfg) (h : Aligned S s)
    (hi : Iter cfg s s') : Aligned S s' := by
  cases hi with
  | closed | noStatusLine | badStatusLine | tooMany | overflow | faulty | full =>
    exact aligned_of_phase (by simp [ret]) (by simp [ret])
  | waiting hp => exact aligned_of_phase (by simp [received, hp]) (by simp [received, hp])
  | longUri hp hr hbs hl hps hfull =>
    have hlt := hs.room hp
    rw [hr] at hlt
    exact absurd hfull (Nat.not_le.2 hlt)
  | statusLine hp hr hbs hl hps hlt => exact .statusLine hv ht hp hr hl
  | header hp hl hc hsplit => exact h.header hv hp hl hsplit (hs.line hp _ hl)
  | separator hp hl hc hsplit hlen =>
    have hplain := hs.line hp _ hl
    rw [PlainLine, if_neg (not_mem_of_split hsplit)] at hplain
    exact h.separator hv ht hp hl hlen hplain
  | refill hp hl hlt hr hbs =>
    exact h.refill hv ht hp (hs.tidy hp hl (by rw [hr]; exact hbs)) hr

end HiwReader

namespace HiwRequest

open HiwReader

variable {cfg : Config} {req : HiwRequest} {client : HiwClient}

/-- The bytes that the parser receives. -/
def receivedBytes (cfg : Config) (req : HiwRequest) (client : HiwClient) : Bytes :=
  client.stream.take (req.readHeaders cfg client).bytesRead

theorem wholeHead_of_sound (hf : req.Fresh cfg)
    (hacc : (req.readHeaders cfg client).phase = .returned true)
    (hsound : ∀ t, Visited (HiwReader.step cfg) final (start cfg req client) t → t.Sound cfg) :
    WholeHead (req.receivedBytes cfg client) (req.readHeaders cfg client).req := by
  have haligned : Aligned client.stream (req.readHeaders cfg client) := by
    refine (visited_readHeaders cfg req client).invariant ?_ fun u hu hnf h =>
      h.step (valid_of_visited hf hu) (tracked_of_visited hf hu) (hsound u hu) (iter_step hnf)
    rw [start_eq hf]
    exact aligned_of_phase (by simp) (by simp)
  simp only [Aligned, hacc] at haligned
  exact haligned

end HiwRequest

end Highway
