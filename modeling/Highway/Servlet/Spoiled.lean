import Highway.Servlet.Whole

/-!
# Heads that are not accepted as a whole

An iteration from a state that is not sound spoils the run: the head that is accepted in the end,
if any, is not a whole one.  That two deviations never cancel out is a matter of counting line
feeds.  While the parser keeps up, the stream has at most one line feed for the status line and one
for each header in front of the cursor (`HiwReader.LineBound`); a refill over an unfinished line
makes it fall behind for good (`HiwReader.Skewed`), and a whole head has one line feed more than
such a parser finds.  With the other direction this gives the condition of acceptance exactly
(`HiwRequest.wholeHead_iff`).
-/

namespace Highway

open Lib

namespace HiwReader

variable {cfg : Config} {S bs : Bytes} {s s' : HiwReader} {c' : HiwClient}
  {line name value : HiwString}

/-! ### Counting line feeds -/

theorem count_take_le {i j : ℕ} (h : i ≤ j) : (S.take i).count LF ≤ (S.take j).count LF :=
  (List.take_sublist_take_left h).count_le LF

theorem count_take_succ_le (i : ℕ) : (S.take (i + 1)).count LF ≤ (S.take i).count LF + 1 := by
  rw [List.take_add, List.count_append]
  have hcount := List.count_le_length (a := LF) (l := (S.drop i).take 1)
  have hlength := List.length_take_le 1 (S.drop i)
  omega

theorem count_bytes_le {m : Buf} {b i j : ℕ} (h : i ≤ j) :
    (m.bytes b i).count LF ≤ (m.bytes b j).count LF := by
  rw [← Buf.take_bytes h]
  exact (List.take_sublist _ _).count_le LF

theorem count_line (hp : s.pos ≤ s.bytesRead)
    (hl : HiwString.readline s.mem s.window = some line) (i : ℕ) :
    (s.mem.bytes s.pos line.length).count LF = 0 ∧
      (s.mem.bytes s.pos (line.length + 1 + i)).count LF =
        (s.mem.bytes (s.pos + line.length + 1) i).count LF + 1 := by
  obtain ⟨hb, -, hLF⟩ := line_bounds hp hl
  obtain ⟨hn, -⟩ := window_eq hl
  rw [HiwString.reads, hb] at hn
  have hzero := List.count_eq_zero_of_not_mem hn
  refine ⟨hzero, ?_⟩
  rw [Nat.add_assoc, Nat.add_comm 1 i, Buf.bytes_add, Buf.bytes_succ, hLF, List.count_append,
    List.count_cons_self, hzero, Nat.zero_add]

/-- The stream has at most one line feed for the status line, one for each header and the ones of
the window, as far as the window goes. -/
def LineBound (S : Bytes) (s : HiwReader) : Prop :=
  ∀ i ≤ s.bytesRead - s.pos,
    (S.take (s.pos + i)).count LF ≤ s.req.headers.length + 1 + (s.mem.bytes s.pos i).count LF

/-- The parser has fallen behind: the stream has no more line feeds, even with one more byte. -/
def Skewed (S : Bytes) (s : HiwReader) : Prop :=
  (∀ i < s.bytesRead - s.pos, (S.take (s.pos + i + 1)).count LF ≤
    s.req.headers.length + 1 + (s.mem.bytes s.pos i).count LF) ∧
  (s.bytesRead = s.pos → (S.take s.pos).count LF ≤ s.req.headers.length)

theorem Skewed.lineBound (hp : s.pos ≤ s.bytesRead) (h : Skewed S s) : LineBound S s := by
  intro i hi
  rcases Nat.lt_or_eq_of_le hi with hlt | rfl
  · exact (count_take_le (by omega)).trans (h.1 i hlt)
  · rcases Nat.eq_or_lt_of_le hp with heq | hlt
    · have := h.2 heq.symm
      rw [← heq, Nat.sub_self, Nat.add_zero, Buf.bytes_zero, List.count_nil]
      omega
    · have hone : s.bytesRead - s.pos - 1 < s.bytesRead - s.pos := by omega
      have hlast := h.1 _ hone
      have hmono := count_bytes_le (m := s.mem) (b := s.pos) hone.le
      rw [show s.pos + (s.bytesRead - s.pos - 1) + 1 = s.pos + (s.bytesRead - s.pos) by omega]
        at hlast
      omega

theorem LineBound.header (hp : s.pos ≤ s.bytesRead) (h : LineBound S s)
    (hl : HiwString.readline s.mem s.window = some line) (header : HiwHeader) :
    LineBound S ((s.storeHeader line header).applyHeader header) := by
  obtain ⟨-, hlt, -⟩ := line_bounds hp hl
  intro i hi
  simp only [mem_applyHeader, mem_storeHeader, bytesRead_applyHeader, bytesRead_storeHeader,
    pos_applyHeader, pos_storeHeader, headers_applyHeader, headers_storeHeader, List.length_append,
    List.length_singleton] at hi ⊢
  have hbound := h (line.length + 1 + i) (by omega)
  rw [(count_line hp hl i).2] at hbound
  rw [show s.pos + line.length + 1 + i = s.pos + (line.length + 1 + i) by omega]
  omega

theorem Skewed.header (hp : s.pos ≤ s.bytesRead) (h : Skewed S s)
    (hl : HiwString.readline s.mem s.window = some line) (header : HiwHeader) :
    Skewed S ((s.storeHeader line header).applyHeader header) := by
  obtain ⟨-, hlt, -⟩ := line_bounds hp hl
  unfold Skewed
  simp only [mem_applyHeader, mem_storeHeader, bytesRead_applyHeader, bytesRead_storeHeader,
    pos_applyHeader, pos_storeHeader, headers_applyHeader, headers_storeHeader, List.length_append,
    List.length_singleton]
  refine ⟨fun i hi => ?_, fun _ => ?_⟩
  · have hbound := h.1 (line.length + 1 + i) (by omega)
    rw [(count_line hp hl i).2] at hbound
    rw [show s.pos + line.length + 1 + i + 1 = s.pos + (line.length + 1 + i) + 1 by omega]
    omega
  · have hbound := h.1 line.length (by omega)
    rwa [(count_line hp hl 0).1, Nat.add_zero] at hbound

/-- What a refill brings is next in the stream and first in the window, so the line feeds that it
adds to the stream are in the window as well. -/
theorem count_received_le (ht : Tracked S s) {len k i j : ℕ}
    (hr : s.client.recv len = (some bs, c')) (hbound : (S.take s.bytesRead).count LF ≤ k)
    (hj : j ≤ s.bytesRead + bs.length) (hi : j ≤ s.bytesRead + i) :
    (S.take j).count LF ≤ k + ((s.received s.pos bs c').mem.bytes s.pos i).count LF := by
  rcases Nat.lt_or_ge s.bytesRead j with hlt | hge
  · obtain ⟨n, rfl⟩ := Nat.exists_eq_add_of_lt hlt
    have hdrop : S.drop s.bytesRead = bs ++ c'.stream :=
      ht.stream.trans (HiwClient.stream_of_recv hr)
    have htake : (S.take (s.bytesRead + n + 1)).count LF =
        (S.take s.bytesRead).count LF + (bs.take (n + 1)).count LF := by
      rw [Nat.add_assoc, List.take_add, hdrop, List.take_append_of_le_length (by omega),
        List.count_append]
    have hfirst : (s.received s.pos bs c').mem.bytes s.pos (n + 1) = bs.take (n + 1) := by
      rw [← Buf.take_bytes (show n + 1 ≤ bs.length by omega)]
      exact congrArg _ Buf.bytes_write
    have hmono := count_bytes_le (m := (s.received s.pos bs c').mem) (b := s.pos)
      (show n + 1 ≤ i by omega)
    rw [hfirst] at hmono
    omega
  · have := count_take_le (S := S) hge
    omega

theorem LineBound.take_le (hp : s.pos ≤ s.bytesRead) (h : LineBound S s)
    (hl : HiwString.readline s.mem s.window = none) :
    (S.take s.bytesRead).count LF ≤ s.req.headers.length + 1 := by
  have hbound := h (s.bytesRead - s.pos) le_rfl
  have hzero : (s.mem.bytes s.pos (s.bytesRead - s.pos)).count LF = 0 :=
    List.count_eq_zero_of_not_mem (HiwString.readline_eq_none.1 hl)
  rwa [hzero, Nat.add_sub_cancel' hp] at hbound

theorem LineBound.refill (hp : s.pos ≤ s.bytesRead) (ht : Tracked S s) (h : LineBound S s)
    (hl : HiwString.readline s.mem s.window = none) {len : ℕ}
    (hr : s.client.recv len = (some bs, c')) : LineBound S (s.received s.pos bs c') := by
  intro i hi
  have hi' : i ≤ s.bytesRead + bs.length - s.pos := hi
  show (S.take (s.pos + i)).count LF ≤ s.req.headers.length + 1 + _
  exact count_received_le ht hr (h.take_le hp hl) (by omega) (by omega)

/-- **A refill over an unfinished line makes the parser fall behind.** -/
theorem LineBound.skewed_refill (hp : s.pos < s.bytesRead) (ht : Tracked S s) (h : LineBound S s)
    (hl : HiwString.readline s.mem s.window = none) {len : ℕ}
    (hr : s.client.recv len = (some bs, c')) : Skewed S (s.received s.pos bs c') := by
  refine ⟨fun i hi => ?_, fun heq => ?_⟩
  · -- the bytes stored at `pos` are at least one place further on in the stream
    have hi' : i < s.bytesRead + bs.length - s.pos := hi
    show (S.take (s.pos + i + 1)).count LF ≤ s.req.headers.length + 1 + _
    exact count_received_le ht hr (h.take_le hp.le hl) (by omega) (by omega)
  · have heq' : s.bytesRead + bs.length = s.pos := heq
    omega

theorem Skewed.refill (hp : s.pos ≤ s.bytesRead) (ht : Tracked S s) (h : Skewed S s)
    (hl : HiwString.readline s.mem s.window = none) {len : ℕ}
    (hr : s.client.recv len = (some bs, c')) (hbs : bs ≠ []) :
    Skewed S (s.received s.pos bs c') := by
  rcases Nat.eq_or_lt_of_le hp with heq | hlt
  · have hpos := List.length_pos_iff.2 hbs
    have hbound : (S.take s.bytesRead).count LF ≤ s.req.headers.length := heq ▸ h.2 heq.symm
    refine ⟨fun i hi => ?_, fun heq' => ?_⟩
    · -- the line feed that is missing already pays for the one byte more
      have hi' : i < s.bytesRead + bs.length - s.pos := hi
      have hnext := count_take_succ_le (S := S) (s.pos + i)
      have hfront := count_received_le ht hr hbound (j := s.pos + i) (i := i) (by omega) (by omega)
      show (S.take (s.pos + i + 1)).count LF ≤ s.req.headers.length + 1 +
        ((s.received s.pos bs c').mem.bytes s.pos i).count LF
      omega
    · have heq'' : s.bytesRead + bs.length = s.pos := heq'
      omega
  · exact (h.lineBound hp).skewed_refill hlt ht hl hr

theorem lineBound_statusLine {method uri : HiwString} (hv : Valid cfg s) (ht : Tracked S s)
    (hp : s.phase = .statusLine)
    (hr : s.client.recv (cfg.maxHeaderSize - s.bytesRead) = (some bs, c'))
    (hl : HiwString.readline (s.received (s.pos + s.bytesRead) bs c').mem ⟨0, bs.length⟩ =
      some line) :
    LineBound S
      (((s.received (s.pos + s.bytesRead) bs c').statusRead method uri).enterHeaders line) := by
  obtain ⟨h0, hh, -⟩ := hv.fresh hp
  obtain ⟨-, -, htake⟩ := ht.recv hr
  obtain ⟨hb, hlt, hn, hLF, -⟩ := HiwString.readline_eq_some hl
  set m := (s.received (s.pos + s.bytesRead) bs c').mem with hm
  have hbytes : S.take (s.bytesRead + bs.length) = m.bytes 0 (s.bytesRead + bs.length) := by
    rw [hm, bytes_received h0, ht.block hp]
    exact htake
  -- the line found ends with the only line feed in front of the window
  have hcount : (m.bytes 0 (line.length + 1)).count LF = 1 := by
    rw [HiwString.reads, hb] at hn
    rw [Buf.bytes_concat, hLF, List.count_append, List.count_eq_zero_of_not_mem hn]
    rfl
  simp only at hlt
  intro i hi
  simp only [enterHeaders, statusRead, received, h0, Nat.zero_add] at hi
  have hprefix : S.take (line.length + 1 + i) = m.bytes 0 (line.length + 1 + i) := by
    have := congrArg (List.take (line.length + 1 + i)) hbytes
    rwa [List.take_take, Nat.min_eq_left (by omega), Buf.take_bytes (by omega)] at this
  have hpos : (((s.received (s.pos + s.bytesRead) bs c').statusRead method uri).enterHeaders
      line).pos = line.length + 1 := by
    simp [enterHeaders, statusRead, received, h0]
  rw [hpos, hprefix, Buf.bytes_add, List.count_append, hcount, Nat.zero_add]
  show 1 + _ ≤ s.req.headers.length + 1 + (m.bytes (line.length + 1) i).count LF
  omega

/-- In front of the header loop's cursor no line feed is left out. -/
theorem lineBound_of_visited {req : HiwRequest} (hf : req.Fresh cfg) {client : HiwClient}
    (h : Visited (step cfg) final (start cfg req client) s) :
    s.phase = .headers → LineBound client.stream s := by
  refine h.invariant (I := fun u => u.phase = .headers → LineBound client.stream u) ?_ ?_
  · intro hp
    rw [start_eq hf] at hp
    cases hp
  intro u hu hnf hbound
  have hv := valid_of_visited hf hu
  have ht := tracked_of_visited hf hu
  have hi : Iter cfg u (u.step cfg) := iter_step hnf
  generalize u.step cfg = u' at hi
  intro hp'
  cases hi with
  | statusLine hp hr hbs hl => exact lineBound_statusLine hv ht hp hr hl
  | header hp hl => exact (hbound hp).header hv.pos_le hl _
  | refill hp hl hlt hr => exact (hbound hp).refill hv.pos_le ht hl hr
  | waiting hp => simp [received, hp] at hp'
  | _ => simp [ret, separator, done] at hp'

/-! ### Spoiled runs -/

/-- A header is stored under a name with a colon. -/
def Misnamed (headers : List (Bytes × Bytes)) : Prop := ∃ h ∈ headers, 58 ∈ h.1

/-- The read-ahead is in front of the separator. -/
def Short (S : Bytes) (req : HiwRequest) : Prop :=
  (S.take req.readAhead).count LF ≤ req.headers.length + 1

/-- The run will not accept a whole head. -/
def Spoiled (S : Bytes) (s : HiwReader) : Prop :=
  match s.phase with
  | .statusLine => False
  | .headers => Skewed S s ∨ Misnamed s.head.headers
  | .returned true => Short S s.req ∨ Misnamed s.req.head.headers
  | _ => True

theorem spoiled_ret (S : Bytes) (s : HiwReader) : Spoiled S (s.ret false) := trivial

theorem short_separator {k : ℕ} (hk : s.separator.pos ≤ k)
    (h : (S.take k).count LF ≤ s.req.headers.length + 1) : Short S s.separator.req :=
  (count_take_le hk).trans h

theorem separator_pos_le (hp : s.pos ≤ s.bytesRead)
    (hl : HiwString.readline s.mem s.window = some line) (hlen : line.length ≤ 1) :
    s.separator.pos ≤ s.pos + line.length + 1 := by
  by_cases hblank : line.reads s.mem = [] ∨ line.reads s.mem = [CR]
  · exact (separator_pos_of_blank hp hl hblank).le
  · rw [separator_pos_of_not_blank hp hl hlen hblank]
    omega

theorem headers_header (hv : Valid cfg s) (hp : s.phase = .headers) (header : HiwHeader) :
    ((s.storeHeader line header).applyHeader header).head.headers =
      s.head.headers ++ [(header.name.reads s.mem, header.value.reads s.mem)] := by
  rw [head_applyHeader (hv.contentLength hp), Head.headers_add]

theorem Misnamed.append {headers more : List (Bytes × Bytes)} (h : Misnamed headers) :
    Misnamed (headers ++ more) := by
  obtain ⟨p, hp, hcolon⟩ := h
  exact ⟨p, List.mem_append_left _ hp, hcolon⟩

/-- **A spoiled run stays spoiled.** -/
theorem Spoiled.step (hv : Valid cfg s) (ht : Tracked S s) (h : Spoiled S s)
    (hi : Iter cfg s s') : Spoiled S s' := by
  have hheaders : s.phase = .headers → Skewed S s ∨ Misnamed s.head.headers := fun hp => by
    simpa only [Spoiled, hp] using h
  have hstatus : s.phase ≠ .statusLine := fun hp => by simp only [Spoiled, hp] at h
  cases hi with
  | waiting hp | noStatusLine hp | badStatusLine hp | longUri hp | statusLine hp =>
    exact absurd hp hstatus
  | closed | tooMany | faulty | full => exact spoiled_ret S _
  | overflow => trivial
  -- another header neither makes up for a line that was left out nor renames the ones before
  | header hp hl =>
    simp only [Spoiled, phase_applyHeader, phase_storeHeader, hp]
    refine (hheaders hp).imp (fun hsk => hsk.header hv.pos_le hl _) fun hmis => ?_
    rw [headers_header hv hp]
    exact hmis.append
  | @separator line hp hl hc hs hlen =>
    refine (hheaders hp).imp (fun hsk => ?_) fun hmis => hmis
    obtain ⟨-, hlt, -⟩ := line_bounds hv.pos_le hl
    have hbound := hsk.1 line.length (by omega)
    rw [(count_line hv.pos_le hl 0).1, Nat.add_zero] at hbound
    exact short_separator (separator_pos_le hv.pos_le hl hlen) hbound
  | @refill bs c' hp hl hlt hr hbs =>
    have hph : (s.received s.pos bs c').phase = .headers := hp
    simp only [Spoiled, hph]
    refine (hheaders hp).imp (fun hsk => hsk.refill hv.pos_le ht hl hr hbs) fun hmis => ?_
    rw [head_received (hv.views hp)]
    exact hmis

theorem not_plainLine_of_not_sound (h : ¬ s.Sound cfg) (hp : s.phase = .headers)
    (hl : HiwString.readline s.mem s.window = some line) : ¬ PlainLine (line.reads s.mem) := by
  intro hplain
  refine h ⟨fun hp' => by simp [hp] at hp', fun _ hn => by simp [hl] at hn, fun _ l hmem => ?_⟩
  rw [Option.mem_def, hl] at hmem
  rwa [← Option.some.inj hmem]

/-- **An iteration from a state that is not sound spoils the run.** -/
theorem spoiled_of_not_sound (hv : Valid cfg s) (ht : Tracked S s)
    (hbound : s.phase = .headers → LineBound S s) (h : ¬ s.Sound cfg) (hi : Iter cfg s s') :
    Spoiled S s' := by
  cases hi with
  | closed | noStatusLine | badStatusLine | tooMany | faulty | full => exact spoiled_ret S _
  | overflow => trivial
  | waiting hp hr hbs hn hlt | statusLine hp hr hbs hl hps hlt =>
    refine absurd ⟨fun _ => ?_, fun hp' => by simp [hp] at hp', fun hp' => by simp [hp] at hp'⟩ h
    rw [hr]
    exact hlt
  -- the head is accepted without having been read: the read-ahead starts at the start of the buffer
  | longUri hp =>
    obtain ⟨-, -, -, -, hra, -⟩ := hv.fresh hp
    refine .inl ?_
    show (S.take s.req.readAhead).count LF ≤ _
    rw [hra, List.take_zero, List.count_nil]
    exact Nat.zero_le _
  | @header line name value hp hl hc hs =>
    have hplain := not_plainLine_of_not_sound h hp hl
    obtain ⟨v, hfields⟩ := headerFields_of_not_plainLine (mem_of_split hv.pos_le hl hs) hplain
    have hname := congrArg Prod.fst
      (Option.some.inj ((headerFields_line hv.pos_le hl hs).symm.trans hfields))
    simp only [Spoiled, phase_applyHeader, phase_storeHeader, hp]
    rw [headers_header hv hp]
    exact .inr ⟨_, List.mem_append_right _ (List.mem_singleton_self _),
      hname ▸ List.mem_singleton_self _⟩
  | @separator line hp hl hc hs hlen =>
    have hplain := not_plainLine_of_not_sound h hp hl
    rw [PlainLine, if_neg (not_mem_of_split hs)] at hplain
    have hpos := separator_pos_of_not_blank hv.pos_le hl hlen hplain
    have hzero := hbound hp 0 (Nat.zero_le _)
    rw [Nat.add_zero, Buf.bytes_zero, List.count_nil, Nat.add_zero] at hzero
    exact .inl (short_separator hpos.le hzero)
  -- the refill is over an unfinished line, and the window is behind the stream from now on
  | @refill bs c' hp hl hlt hr hbs =>
    have hne : s.pos ≠ s.bytesRead := fun heq => h
      ⟨fun hp' => by simp [hp] at hp', fun _ _ _ => heq, fun _ l hmem => by simp [hl] at hmem⟩
    have hph : (s.received s.pos bs c').phase = .headers := hp
    simp only [Spoiled, hph]
    exact .inl ((hbound hp).skewed_refill (lt_of_le_of_ne hv.pos_le hne) ht hl hr)

theorem sound_of_final (h : s.final = true) : s.Sound cfg := by
  refine ⟨fun hp => ?_, fun hp => ?_, fun hp => ?_⟩
  all_goals simp [final, hp] at h

end HiwReader

/-- The line feeds in front of the read-ahead of a whole head: of the status line, the header lines
and the empty line. -/
theorem WholeHead.count {R : Bytes} {req : HiwRequest} (h : WholeHead R req) :
    (R.take req.readAhead).count LF = req.headers.length + 2 := by
  obtain ⟨status, lines, blank, rest, hlines, hblank, hR, hheaders, hlen, -⟩ := h
  have hlength := congrArg List.length hheaders
  rw [List.length_map, HiwRequest.head, List.length_map] at hlength
  have hassoc : R = (status ++ LF :: (unlines LF lines ++ (blank ++ [LF]))) ++ rest := by
    rw [hR]
    simp
  have hfront : R.take req.readAhead = status ++ LF :: (unlines LF lines ++ (blank ++ [LF])) := by
    have hRlen := congrArg List.length hassoc
    rw [List.length_append] at hRlen
    rw [hassoc, List.take_left' (by omega)]
  have hb : blank.count LF = 0 := by
    rcases hblank with rfl | rfl <;> decide
  have hs : status.count LF = 0 := List.count_eq_zero_of_not_mem hlines.status
  rw [hfront, List.count_append, List.count_cons_self, List.count_append,
    count_unlines fun l hl => (hlines.lines l hl).1, List.count_append, hb, hs, hlength]
  simp

theorem WholeHead.not_misnamed {R : Bytes} {req : HiwRequest} (h : WholeHead R req) :
    ¬ HiwReader.Misnamed req.head.headers := by
  obtain ⟨status, lines, blank, rest, -, -, -, hheaders, -⟩ := h
  rintro ⟨p, hp, hcolon⟩
  rw [hheaders] at hp
  obtain ⟨l, -, rfl⟩ := List.mem_map.1 hp
  exact not_mem_plainFields l hcolon

namespace HiwRequest

open HiwReader

variable {cfg : Config} {req : HiwRequest} {client : HiwClient}

/-- A run with a state that is not sound does not accept a whole head. -/
theorem not_wholeHead_of_not_sound (hf : req.Fresh cfg)
    (hacc : (req.readHeaders cfg client).phase = .returned true) {u : HiwReader}
    (hu : Visited (HiwReader.step cfg) final (start cfg req client) u) (h : ¬ u.Sound cfg) :
    ¬ WholeHead (req.receivedBytes cfg client) (req.readHeaders cfg client).req := by
  have hnf : u.final = false := by
    by_contra hfin
    exact h (sound_of_final (by simpa using hfin))
  have hnext := hu.tail hnf
  have hspoiled : Spoiled client.stream (u.step cfg) := spoiled_of_not_sound
    (valid_of_visited hf hu) (tracked_of_visited hf hu) (lineBound_of_visited hf hu) h
    (iter_step hnf)
  have hlast := hnext.of_final (visited_readHeaders cfg req client) (final_readHeaders hf client)
  have hend : Spoiled client.stream (req.readHeaders cfg client) := by
    refine (hlast.invariant
      (I := fun t => Visited (HiwReader.step cfg) final (start cfg req client) t ∧
        Spoiled client.stream t) ⟨hnext, hspoiled⟩ fun t _ hnf' ⟨ht, hsp⟩ => ?_).2
    exact ⟨ht.tail hnf', hsp.step (valid_of_visited hf ht) (tracked_of_visited hf ht)
      (iter_step hnf')⟩
  -- a whole head has one line feed more than a spoiled run leaves in front of the read-ahead
  intro hwhole
  simp only [Spoiled, hacc] at hend
  rcases hend with hshort | hmis
  · have hcount := hwhole.count
    obtain ⟨-, hnonneg, hle⟩ := (valid_readHeaders hf client).accepted hacc
    rw [receivedBytes, List.take_take, Nat.min_eq_left (by omega)] at hcount
    have := hcount.symm.trans_le hshort
    omega
  · exact hwhole.not_misnamed hmis

/-- **When an accepted head is a whole one.** -/
theorem wholeHead_iff (hf : req.Fresh cfg)
    (hacc : (req.readHeaders cfg client).phase = .returned true) :
    WholeHead (req.receivedBytes cfg client) (req.readHeaders cfg client).req ↔
      ∀ t, Visited (HiwReader.step cfg) final (start cfg req client) t → t.Sound cfg := by
  constructor
  · intro hwhole t ht
    by_contra h
    exact not_wholeHead_of_not_sound hf hacc ht h hwhole
  · exact wholeHead_of_sound hf hacc

/-- A head in two receives, cut between two of its lines. -/
theorem wholeHead_get :
    WholeHead ((HiwRequest.init .default fun _ => 0).reset.receivedBytes .default
        (.sending [ascii "GET / HTTP/1.1\r\nA: b\r\n", ascii "\r\nhi"]))
      ((HiwRequest.init .default fun _ => 0).reset.readHeaders .default
        (.sending [ascii "GET / HTTP/1.1\r\nA: b\r\n", ascii "\r\nhi"])).req := by
  refine (wholeHead_iff (fresh_reset rfl rfl) (by decide +kernel)).2 fun t ht => ?_
  exact of_decide_eq_true (of_testFuel (p := fun t => decide (t.Sound .default)) (n := 20)
    (by decide +kernel) ht)

/-- A line of one byte ends a head, with the header behind it. -/
theorem not_wholeHead :
    ¬ ∀ (req : HiwRequest) (client : HiwClient), req.Fresh .default →
      (req.readHeaders .default client).phase = .returned true →
        WholeHead (req.receivedBytes .default client) (req.readHeaders .default client).req := by
  intro h
  have hcount := (h (HiwRequest.init .default fun _ => 0).reset
    (.sending [ascii "GET / HTTP/1.1\r\nx\nHost: a\r\n\r\n"]) (fresh_reset rfl rfl)
    (by decide +kernel)).count
  revert hcount
  decide +kernel

end HiwRequest

end Highway
