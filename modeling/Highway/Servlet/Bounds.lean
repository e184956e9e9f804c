import Highway.Servlet.Table
import Highway.Std.Offsets

/-!
# The bounds of reading a request head

What an iteration of the parser does to memory: where its receive is asked to write to
(`HiwReader.receives`), and which bytes it looks at (`HiwReader.inspects`).  That these are all is
said by `HiwReader.iter_receives` and `HiwReader.step_withMem`.

With the window invariant, every receive stays inside of the buffer, only received bytes are
looked at, and there are at most as many receives as bytes in the buffer.  A head that has no more
header lines than the table has entries also leaves the table alone, unless a refill over an
unfinished line has made lines of its own (`HiwRequest.contained_iff`).
-/

namespace Highway

open Lib

/-- The bytes that `hiw_internal_request_parse_status_line` looks at. -/
def HiwRequest.parseStatusLineOffsets (m : Buf) (line : HiwString) : List ℕ :=
  if line.length = 0 then []
  else
    HiwString.splitOffsets m line 32 3 ++
      match HiwString.split m line 32 3 with
      | [method, uri, version] =>
        let httpVersion := HiwString.rtrim m version
        HiwString.rtrimOffsets m version ++ httpVersion.offsets ++
          if !HiwString.cmpc (httpVersion.reads m) "HTTP/1.1" then []
          else HiwString.rtrimOffsets m method ++ HiwString.rtrimOffsets m uri
      | _ => []

theorem HiwClient.recv_zero (c : HiwClient) : c.recv 0 = (some [], c) := by
  obtain ⟨_ | ⟨e, es⟩, outgoing, wire⟩ := c
  · rfl
  · rfl

namespace HiwReader

/-- Where the receive of an iteration is asked to write to, and how many bytes it asks for. -/
def receives (cfg : Config) (s : HiwReader) : Option (ℕ × ℕ) :=
  match s.phase with
  | .statusLine => some (s.pos + s.bytesRead, cfg.maxHeaderSize - s.bytesRead)
  | .headers =>
    if HiwString.readline s.mem s.window = none ∧ s.bytesRead < cfg.maxHeaderSize then
      some (s.pos, cfg.maxHeaderSize - s.bytesRead)
    else none
  | _ => none

/-- The bytes that this receive brings. -/
def brings (cfg : Config) (s : HiwReader) : Bytes :=
  match s.receives cfg with
  | none => []
  | some (_, len) => (s.client.recv len).1.getD []

/-- The block `m` with these bytes stored. -/
def receiveInto (cfg : Config) (s : HiwReader) (m : Buf) : Buf :=
  match s.receives cfg with
  | none => m
  | some (o, _) => m.write o (s.brings cfg)

/-- The block that the iteration parses: in the status line loop, that behind the receive. -/
def parsesIn (cfg : Config) (s : HiwReader) (m : Buf) : Buf :=
  match s.phase with
  | .statusLine => s.receiveInto cfg m
  | _ => m

/-- The value of `bytes_read` at that time. -/
def parsesUpTo (cfg : Config) (s : HiwReader) : ℕ :=
  match s.phase with
  | .statusLine => s.bytesRead + (s.brings cfg).length
  | _ => s.bytesRead

/-- The same state over another block. -/
def withMem (s : HiwReader) (m : Buf) : HiwReader :=
  { s with req := { s.req with memoryFixed := m } }

/-- The bytes that the separator looks at. -/
def separatorOffsets (s : HiwReader) : List ℕ :=
  let pos := s.skip CR s.pos
  (if s.pos < s.bytesRead then [s.pos] else []) ++ if pos < s.bytesRead then [pos] else []

/-- The bytes that the inner header loop looks at behind `hiw_string_readline`. -/
def lineOffsets (cfg : Config) (s : HiwReader) (line : HiwString) : List ℕ :=
  if cfg.maxHeadersCount < s.req.headers.length then []
  else
    HiwString.splitOffsets s.mem line 58 2 ++
      match HiwString.split s.mem line 58 2 with
      | [name, value] =>
        HiwString.trimOffsets s.mem name ++ HiwString.trimOffsets s.mem value ++
          -- compared and converted
          ((HiwString.trim s.mem name).offsets ++ (HiwString.trim s.mem value).offsets)
      | _ => if line.length ≤ 1 then s.separatorOffsets else []

/-- The bytes that an iteration looks at. -/
def inspects (cfg : Config) (s : HiwReader) : List ℕ :=
  match s.phase with
  | .statusLine =>
    let m := s.parsesIn cfg s.mem
    let received : HiwString := ⟨0, (s.brings cfg).length⟩
    HiwString.readlineOffsets m received ++
      (HiwString.readline m received).elim [] (HiwRequest.parseStatusLineOffsets m)
  | .headers =>
    HiwString.readlineOffsets s.mem s.window ++
      (HiwString.readline s.mem s.window).elim [] (s.lineOffsets cfg)
  | _ => []

variable {cfg : Config} {s s' : HiwReader} {i : ℕ}

/-! ### What is received -/

theorem receives_statusLine (hp : s.phase = .statusLine) :
    s.receives cfg = some (s.pos + s.bytesRead, cfg.maxHeaderSize - s.bytesRead) := by
  simp only [receives, hp]

theorem receives_line {line : HiwString} (hp : s.phase = .headers)
    (hl : HiwString.readline s.mem s.window = some line) : s.receives cfg = none := by
  simp only [receives, hp, hl, reduceCtorEq, false_and, ↓reduceIte]

theorem receives_refill (hp : s.phase = .headers)
    (hl : HiwString.readline s.mem s.window = none) (hlt : s.bytesRead < cfg.maxHeaderSize) :
    s.receives cfg = some (s.pos, cfg.maxHeaderSize - s.bytesRead) := by
  simp only [receives, hp, hl, hlt, and_self, ↓reduceIte]

theorem receives_full (hp : s.phase = .headers) (hfull : cfg.maxHeaderSize ≤ s.bytesRead) :
    s.receives cfg = none := by
  simp only [receives, hp, Nat.not_lt.2 hfull, and_false, ↓reduceIte]

theorem brings_of_none (h : s.receives cfg = none) : s.brings cfg = [] := by
  simp only [brings, h]

theorem receiveInto_of_none (h : s.receives cfg = none) (m : Buf) : s.receiveInto cfg m = m := by
  simp only [receiveInto, h]

theorem receiveInto_of_some {o len : ℕ} (h : s.receives cfg = some (o, len)) (m : Buf) :
    s.receiveInto cfg m = m.write o (s.brings cfg) := by
  simp only [receiveInto, h]

theorem brings_of_some {o len : ℕ} {r : Option Bytes} {c' : HiwClient}
    (h : s.receives cfg = some (o, len)) (hr : s.client.recv len = (r, c')) :
    s.brings cfg = r.getD [] := by
  simp only [brings, h, hr]

/-- What an iteration receives: the bytes come from the client, and they are the only change to
the block. -/
structure Received (cfg : Config) (s s' : HiwReader) : Prop where
  stream : s.client.stream = s.brings cfg ++ s'.client.stream
  bytesRead : s'.bytesRead = s.bytesRead + (s.brings cfg).length
  mem : s'.mem = s.receiveInto cfg s.mem

theorem Received.of_none (h : s.receives cfg = none) (hc : s'.client = s.client)
    (hb : s'.bytesRead = s.bytesRead) (hm : s'.mem = s.mem) : Received cfg s s' := by
  have hnil := brings_of_none h
  exact ⟨by rw [hnil, hc, List.nil_append], by rw [hnil, hb, List.length_nil, Nat.add_zero],
    by rw [receiveInto_of_none h, hm]⟩

theorem Received.of_some {o len : ℕ} {r : Option Bytes} {c' : HiwClient}
    (h : s.receives cfg = some (o, len)) (hr : s.client.recv len = (r, c'))
    (hc : s'.client = c') (hb : s'.bytesRead = s.bytesRead + (r.getD []).length)
    (hm : s'.mem = s.mem.write o (r.getD [])) : Received cfg s s' := by
  have hbs := brings_of_some h hr
  exact ⟨by rw [hbs, hc]; exact HiwClient.stream_of_recv_getD hr, by rw [hbs, hb],
    by rw [receiveInto_of_some h, hm, hbs]⟩

/-- **The receives of the parser.** -/
theorem iter_receives (hi : Iter cfg s s') : Received cfg s s' := by
  cases hi with
  | @closed r c' hf hn hr hnil =>
    have hmem : s.mem = s.mem.write s.pos (r.getD []) := by rw [hnil, Buf.write_nil]
    rcases phase_of_not_final hf with hp | hp
    · refine .of_some (receives_statusLine hp) hr rfl (by rw [hnil]; rfl) ?_
      rw [hnil, Buf.write_nil]
      rfl
    · rcases Nat.lt_or_ge s.bytesRead cfg.maxHeaderSize with hlt | hfull
      · exact .of_some (receives_refill hp (hn hp) hlt) hr rfl (by rw [hnil]; rfl) hmem
      · -- a receive of no bytes
        rw [Nat.sub_eq_zero_of_le hfull, HiwClient.recv_zero] at hr
        obtain ⟨-, rfl⟩ := Prod.mk.inj hr
        exact .of_none (receives_full hp hfull) rfl rfl rfl
  | waiting hp hr | noStatusLine hp hr | badStatusLine hp hr | longUri hp hr | statusLine hp hr =>
    exact .of_some (receives_statusLine hp) hr rfl rfl rfl
  | tooMany hp hl | overflow hp hl | separator hp hl | faulty hp hl =>
    exact .of_none (receives_line hp hl) rfl rfl rfl
  | header hp hl hc hs =>
    exact .of_none (receives_line hp hl) (by simp) (by simp) (by simp)
  | full hp hl hfull => exact .of_none (receives_full hp hfull) rfl rfl rfl
  | refill hp hl hlt hr => exact .of_some (receives_refill hp hl hlt) hr rfl rfl rfl

/-! ### What is looked at -/

end HiwReader

namespace HiwRequest

variable {m m' : Buf} {line : HiwString} {i : ℕ}

theorem parseStatusLineOffsets_lt (h : i ∈ parseStatusLineOffsets m line) : i < line.stop := by
  unfold parseStatusLineOffsets at h
  split_ifs at h with h0
  · cases h
  rcases List.mem_append.1 h with h | h
  · exact HiwString.splitOffsets_lt h
  split at h
  · rename_i method uri version hsplit
    have hpart : ∀ v ∈ [method, uri, version], v.begin + v.length ≤ line.stop := by
      rw [← hsplit]
      exact fun v hv => (HiwString.bounds_split hv).2
    simp only [List.forall_mem_cons] at hpart
    obtain ⟨hmethod, huri, hversion, -⟩ := hpart
    rcases List.mem_append.1 h with h | h
    · rcases List.mem_append.1 h with h | h
      · exact (HiwString.rtrimOffsets_lt h).trans_le hversion
      · exact (HiwString.lt_of_mem_offsets h).trans_le (HiwString.rtrim_le.trans hversion)
    · split_ifs at h
      · cases h
      · rcases List.mem_append.1 h with h | h
        · exact (HiwString.rtrimOffsets_lt h).trans_le hmethod
        · exact (HiwString.rtrimOffsets_lt h).trans_le huri
  · cases h

theorem parseStatusLine_agreeOn (h : Buf.AgreeOn (parseStatusLineOffsets m line) m m') :
    parseStatusLine m' line = parseStatusLine m line := by
  unfold parseStatusLine parseStatusLineOffsets at *
  split_ifs at h ⊢ with h0
  · rfl
  obtain ⟨hsplit, hparts⟩ := Buf.AgreeOn.append.1 h
  rw [HiwString.split_agreeOn hsplit]
  rcases hs : HiwString.split m line 32 3 with
    _ | ⟨method, _ | ⟨uri, _ | ⟨version, _ | ⟨x, l⟩⟩⟩⟩
  case cons.cons.cons.nil =>
    simp only [hs] at hparts ⊢
    obtain ⟨hversion, hrest⟩ := Buf.AgreeOn.append.1 hparts
    obtain ⟨htrim, hread⟩ := Buf.AgreeOn.append.1 hversion
    rw [HiwString.rtrim_agreeOn htrim, HiwString.reads_agreeOn hread]
    split_ifs at hrest ⊢
    · rfl
    · obtain ⟨hmethod, huri⟩ := Buf.AgreeOn.append.1 hrest
      rw [HiwString.rtrim_agreeOn hmethod, HiwString.rtrim_agreeOn huri]
  all_goals rfl

end HiwRequest

namespace HiwReader

variable {cfg : Config} {s s' : HiwReader} {line : HiwString} {m' : Buf} {i : ℕ}

theorem separatorOffsets_lt (h : i ∈ s.separatorOffsets) : i < s.bytesRead := by
  unfold separatorOffsets at h
  dsimp only at h
  rcases List.mem_append.1 h with h | h
  · split_ifs at h with hlt
    · rwa [List.mem_singleton.1 h]
    · cases h
  · split_ifs at h with hlt
    · rwa [List.mem_singleton.1 h]
    · cases h

/-- The last byte that is looked at for a line is the line feed behind it. -/
theorem lineOffsets_lt (hp : s.pos ≤ s.bytesRead)
    (hl : HiwString.readline s.mem s.window = some line) (h : i ∈ s.lineOffsets cfg line) :
    i < s.bytesRead := by
  obtain ⟨hb, hlt, -⟩ := line_bounds hp hl
  have hstop : line.begin + line.length < s.bytesRead := by omega
  unfold lineOffsets at h
  by_cases hc : cfg.maxHeadersCount < s.req.headers.length
  · rw [if_pos hc] at h
    cases h
  rw [if_neg hc] at h
  rcases List.mem_append.1 h with h | h
  · exact (HiwString.splitOffsets_lt h).trans hstop
  split at h
  · rename_i name value hsplit
    have hpart : ∀ v ∈ [name, value], v.begin + v.length ≤ line.begin + line.length := by
      rw [← hsplit]
      exact fun v hv => (HiwString.bounds_split hv).2
    simp only [List.forall_mem_cons] at hpart
    obtain ⟨hname, hvalue, -⟩ := hpart
    rcases List.mem_append.1 h with h | h
    · rcases List.mem_append.1 h with h | h
      · exact ((HiwString.trimOffsets_le h).trans hname).trans_lt hstop
      · exact ((HiwString.trimOffsets_le h).trans hvalue).trans_lt hstop
    · rcases List.mem_append.1 h with h | h
      · have := HiwString.trim_le (m := s.mem) (s := name)
        have := HiwString.lt_of_mem_offsets h
        omega
      · have := HiwString.trim_le (m := s.mem) (s := value)
        have := HiwString.lt_of_mem_offsets h
        omega
  · split_ifs at h
    · exact separatorOffsets_lt h
    · cases h

/-- **An iteration looks at received bytes only.** -/
theorem inspects_lt (hv : Valid cfg s) (h : i ∈ s.inspects cfg) : i < s.parsesUpTo cfg := by
  unfold inspects at h
  unfold parsesUpTo
  split at h
  · rename_i hp
    simp only [hp]
    dsimp only at h
    rcases List.mem_append.1 h with h | h
    · have := HiwString.readlineOffsets_lt h
      dsimp only at this
      omega
    · cases hl : HiwString.readline (s.parsesIn cfg s.mem) ⟨0, (s.brings cfg).length⟩ with
      | none => simp [hl] at h
      | some line =>
        rw [hl] at h
        have hlt := HiwRequest.parseStatusLineOffsets_lt h
        obtain ⟨hb, hle, -⟩ := HiwString.readline_eq_some hl
        simp only [HiwString.stop] at hlt hb hle
        omega
  · rename_i hp
    simp only [hp]
    have hpos := hv.pos_le
    rcases List.mem_append.1 h with h | h
    · have := HiwString.readlineOffsets_lt h
      simp only [window] at this
      omega
    · cases hl : HiwString.readline s.mem s.window with
      | none => simp [hl] at h
      | some line =>
        rw [hl] at h
        exact lineOffsets_lt hpos hl h
  · cases h

/-! ### An iteration over another block -/

@[simp] theorem mem_withMem (s : HiwReader) (m : Buf) : (s.withMem m).mem = m := rfl

@[simp] theorem pos_withMem (s : HiwReader) (m : Buf) : (s.withMem m).pos = s.pos := rfl

@[simp] theorem window_withMem (s : HiwReader) (m : Buf) : (s.withMem m).window = s.window := rfl

theorem skip_withMem {c : UInt8} {pos : ℕ} (h : pos < s.bytesRead → s.mem pos = m' pos) :
    (s.withMem m').skip c pos = s.skip c pos := by
  have heq : pos < s.bytesRead ∧ m' pos = c ↔ pos < s.bytesRead ∧ s.mem pos = c :=
    and_congr_right fun hlt => by rw [h hlt]
  exact if_congr heq rfl rfl

theorem separator_withMem (h : Buf.AgreeOn s.separatorOffsets s.mem m') :
    (s.withMem m').separator = s.separator.withMem m' := by
  obtain ⟨hcr, hlf⟩ := Buf.AgreeOn.append.1 h
  have hskip : (s.withMem m').skip CR s.pos = s.skip CR s.pos :=
    skip_withMem fun hlt => hcr _ (by rw [if_pos hlt]; exact List.mem_singleton_self _)
  have hskip' : (s.withMem m').skip LF (s.skip CR s.pos) = s.skip LF (s.skip CR s.pos) :=
    skip_withMem fun hlt => hlf _ (by rw [if_pos hlt]; exact List.mem_singleton_self _)
  simp only [separator, pos_withMem, hskip, hskip']
  rfl

theorem applyHeader_withMem {header : HiwHeader}
    (h : Buf.AgreeOn (header.name.offsets ++ header.value.offsets) s.mem m') :
    (s.withMem m').applyHeader header = (s.applyHeader header).withMem m' := by
  obtain ⟨hname, hvalue⟩ := Buf.AgreeOn.append.1 h
  unfold applyHeader
  simp only [mem_withMem, HiwString.reads_agreeOn hname, HiwString.reads_agreeOn hvalue]
  split_ifs <;> rfl

theorem stepLine_withMem (h : Buf.AgreeOn (s.lineOffsets cfg line) s.mem m') :
    (s.withMem m').stepLine cfg line = (s.stepLine cfg line).withMem m' := by
  have hcount : (s.withMem m').req.headers.length = s.req.headers.length := rfl
  unfold stepLine
  unfold lineOffsets at h
  by_cases hc : cfg.maxHeadersCount < s.req.headers.length
  · rw [if_pos (hcount ▸ hc), if_pos hc]
    rfl
  rw [if_neg (hcount ▸ hc), if_neg hc]
  rw [if_neg hc] at h
  obtain ⟨hsplit, hrest⟩ := Buf.AgreeOn.append.1 h
  rw [mem_withMem, HiwString.split_agreeOn hsplit]
  rcases hs : HiwString.split s.mem line 58 2 with _ | ⟨name, _ | ⟨value, _ | ⟨x, l⟩⟩⟩
  case cons.cons.nil =>
    simp only [hs] at hrest ⊢
    obtain ⟨htrims, hreads⟩ := Buf.AgreeOn.append.1 hrest
    obtain ⟨hname, hvalue⟩ := Buf.AgreeOn.append.1 htrims
    rw [HiwString.trim_agreeOn hname, HiwString.trim_agreeOn hvalue]
    by_cases hmax : cfg.maxHeadersCount ≤ s.req.headers.length
    · rw [if_pos (hcount ▸ hmax), if_pos hmax]
      rfl
    · rw [if_neg (hcount ▸ hmax), if_neg hmax]
      exact applyHeader_withMem (s := s.storeHeader line
        ⟨HiwString.trim s.mem name, HiwString.trim s.mem value⟩) hreads
  all_goals
    simp only [hs] at hrest ⊢
    split_ifs at hrest ⊢
    · exact separator_withMem hrest
    · rfl

theorem refill_withMem (hp : s.phase = .headers)
    (hl : HiwString.readline s.mem s.window = none) (m' : Buf) :
    (s.withMem m').refill cfg = (s.refill cfg).withMem (s.receiveInto cfg m') := by
  have hbytes : (s.withMem m').bytesRead = s.bytesRead := rfl
  rcases Nat.lt_or_ge s.bytesRead cfg.maxHeaderSize with hlt | hfull
  · have hreceives := receives_refill hp hl hlt
    rw [receiveInto_of_some hreceives]
    rcases recv_cases s.client (cfg.maxHeaderSize - s.bytesRead) with
      ⟨r, c', hr, hnil⟩ | ⟨bs, c', hr, hbs⟩
    · rw [brings_of_some hreceives hr, hnil, Buf.write_nil, refill_of_nil hr hnil hlt,
        refill_of_nil (s := s.withMem m') hr hnil hlt]
      rfl
    · rw [brings_of_some hreceives hr, refill_of_ne_nil hr hbs hlt,
        refill_of_ne_nil (s := s.withMem m') hr hbs hlt]
      rfl
  · rw [receiveInto_of_none (receives_full hp hfull)]
    simp only [refill, hbytes, Nat.sub_eq_zero_of_le hfull, ↓reduceIte]
    rfl

theorem stepStatusLine_withMem (hp : s.phase = .statusLine)
    (h : Buf.AgreeOn (s.inspects cfg) (s.receiveInto cfg s.mem) (s.receiveInto cfg m')) :
    (s.withMem m').stepStatusLine cfg =
      (s.stepStatusLine cfg).withMem (s.receiveInto cfg m') := by
  have hreceives : s.receives cfg = some _ := receives_statusLine hp
  simp only [inspects, hp, parsesIn] at h
  simp only [receiveInto_of_some hreceives] at h ⊢
  rcases recv_cases s.client (cfg.maxHeaderSize - s.bytesRead) with
    ⟨r, c', hr, hnil⟩ | ⟨bs, c', hr, hbs⟩
  · rw [brings_of_some hreceives hr, hnil, Buf.write_nil, stepStatusLine_of_nil hr hnil,
      stepStatusLine_of_nil (s := s.withMem m') hr hnil]
    rfl
  have hbrings : s.brings cfg = bs := brings_of_some hreceives hr
  set t := s.received (s.pos + s.bytesRead) bs c' with ht
  rw [hbrings] at h ⊢
  set m'' := m'.write (s.pos + s.bytesRead) bs
  have ht' : t.withMem m'' = (s.withMem m').received (s.pos + s.bytesRead) bs c' := rfl
  have hbytes : (t.withMem m'').bytesRead = t.bytesRead := rfl
  have hmem : s.mem.write (s.pos + s.bytesRead) bs = t.mem := rfl
  rw [hmem] at h
  obtain ⟨hread, hparse⟩ := Buf.AgreeOn.append.1 h
  rw [stepStatusLine_of_ne_nil hr hbs ht,
    stepStatusLine_of_ne_nil (s := s.withMem m') hr hbs ht', mem_withMem,
    HiwString.readline_agreeOn hread]
  cases hl : HiwString.readline t.mem ⟨0, bs.length⟩ with
  | none =>
    by_cases hfull : cfg.maxHeaderSize ≤ t.bytesRead
    · simp only [hbytes, hfull, ↓reduceIte]
      rfl
    · simp only [hbytes, hfull, ↓reduceIte]
  | some line =>
    rw [hl] at hparse
    simp only [HiwRequest.parseStatusLine_agreeOn hparse]
    rcases HiwRequest.parseStatusLine t.mem line with _ | ⟨method, uri⟩
    · rfl
    · by_cases hfull : cfg.maxHeaderSize ≤ t.bytesRead
      · simp only [hbytes, hfull, ↓reduceIte]
        rfl
      · simp only [hbytes, hfull, ↓reduceIte]
        rfl

/-- **What an iteration does depends on the bytes that it looks at only.**  Over a block with the
same bytes there, it differs in the block it leaves. -/
theorem step_withMem
    (h : Buf.AgreeOn (s.inspects cfg) (s.parsesIn cfg s.mem) (s.parsesIn cfg m')) :
    (s.withMem m').step cfg = (s.step cfg).withMem (s.receiveInto cfg m') := by
  have hphase : (s.withMem m').phase = s.phase := rfl
  unfold step
  rw [hphase]
  cases hp : s.phase with
  | statusLine =>
    simp only [parsesIn, hp] at h
    exact stepStatusLine_withMem hp h
  | headers =>
    simp only [inspects, parsesIn, hp] at h
    obtain ⟨hread, hrest⟩ := Buf.AgreeOn.append.1 h
    simp only [window_withMem, mem_withMem, HiwString.readline_agreeOn hread]
    cases hl : HiwString.readline s.mem s.window with
    | some line =>
      rw [hl] at hrest
      rw [receiveInto_of_none (receives_line hp hl)]
      exact stepLine_withMem hrest
    | none => exact refill_withMem hp hl m'
  | returned r =>
    rw [receiveInto_of_none (by simp only [receives, hp])]
  | overflow i =>
    rw [receiveInto_of_none (by simp only [receives, hp])]

/-! ### The bounds hold -/

/-- **A receive stays inside of the buffer.** -/
theorem receives_le (hv : Valid cfg s) {o len : ℕ} (h : s.receives cfg = some (o, len)) :
    o + len ≤ cfg.maxHeaderSize := by
  have hpos := hv.pos_le
  have hle := hv.bytesRead_le
  unfold receives at h
  split at h
  · rename_i hp
    have h0 := (hv.fresh hp).1
    obtain ⟨rfl, rfl⟩ := Prod.mk.inj (Option.some.inj h)
    omega
  · split_ifs at h
    obtain ⟨rfl, rfl⟩ := Prod.mk.inj (Option.some.inj h)
    omega
  · cases h

theorem room_step (hv : Valid cfg s) (hi : Iter cfg s s') :
    cfg.maxHeaderSize - s'.bytesRead ≤ cfg.maxHeaderSize - s.bytesRead ∧
      (s.brings cfg ≠ [] → cfg.maxHeaderSize - s'.bytesRead < cfg.maxHeaderSize - s.bytesRead) := by
  have hb := (iter_receives hi).bytesRead
  have hle := (hv.step hi).bytesRead_le
  refine ⟨by omega, fun hne => ?_⟩
  have := List.length_pos_iff.2 hne
  omega

end HiwReader

namespace HiwRequest

open HiwReader

variable {cfg : Config} {req : HiwRequest} {client : HiwClient}

/-- How often a receive succeeds while a request head is read. -/
def receiveCount (cfg : Config) (req : HiwRequest) (client : HiwClient) : ℕ :=
  countFuel (HiwReader.step cfg) HiwReader.final (fun s => decide (s.brings cfg ≠ []))
    (2 * cfg.maxHeaderSize + 2) (.start cfg req client)

/-- Reading a request head stays inside of the buffer, and ends. -/
structure Contained (cfg : Config) (req : HiwRequest) (client : HiwClient) : Prop where
  returns : ∃ result, (req.readHeaders cfg client).phase = .returned result
  receiveCount_le : receiveCount cfg req client ≤ cfg.maxHeaderSize
  receives_le : ∀ s, Visited (HiwReader.step cfg) HiwReader.final (.start cfg req client) s →
    ∀ o len, s.receives cfg = some (o, len) → o + len ≤ cfg.maxHeaderSize
  window : ∀ s, Visited (HiwReader.step cfg) HiwReader.final (.start cfg req client) s →
    s.pos ≤ s.bytesRead ∧ s.bytesRead ≤ cfg.maxHeaderSize ∧ 0 ≤ (s.bytesRead : ℤ) - s.pos
  inspects_lt : ∀ s, Visited (HiwReader.step cfg) HiwReader.final (.start cfg req client) s →
    ∀ i ∈ s.inspects cfg, i < s.parsesUpTo cfg
  readAhead_le : (req.readHeaders cfg client).phase = .returned true →
    (req.readHeaders cfg client).req.readAhead +
      (req.readHeaders cfg client).req.readAheadLength ≤ cfg.maxHeaderSize

/-- At most as many receives succeed as there are bytes in the buffer. -/
theorem receiveCount_le (hf : req.Fresh cfg) (client : HiwClient) :
    receiveCount cfg req client ≤ cfg.maxHeaderSize := by
  refine (countFuel_le (I := Valid cfg) (fun s => cfg.maxHeaderSize - s.bytesRead)
    (fun u hu hnf => ?_) (valid_start hf client) _).trans (Nat.sub_le _ _)
  have hi : Iter cfg u (u.step cfg) := iter_step hnf
  obtain ⟨hle, hlt⟩ := room_step hu hi
  exact ⟨hu.step hi, hle, fun hne => hlt (of_decide_eq_true hne)⟩

/-- Behind a refill over an unfinished line, no header line is found with the table full. -/
def KeepsLines (cfg : Config) (req : HiwRequest) (client : HiwClient) : Prop :=
  ∀ s t, Visited (HiwReader.step cfg) HiwReader.final (.start cfg req client) s →
    s.Overwrites cfg → Visited (HiwReader.step cfg) HiwReader.final s t → ¬ t.AtLimit cfg

theorem phase_readHeaders_of_atLimit (hf : req.Fresh cfg) {s : HiwReader}
    (hs : Visited (HiwReader.step cfg) HiwReader.final (.start cfg req client) s)
    (h : s.AtLimit cfg) : ∃ i, (req.readHeaders cfg client).phase = .overflow i := by
  have hnf : s.final = false := by simp [HiwReader.final, h.1]
  obtain ⟨i, hi⟩ := phase_of_atLimit (iter_step hnf) h
  have heq := (visited_readHeaders cfg req client).eq_of_final (hs.tail hnf)
    (final_readHeaders hf client) (by simp [HiwReader.final, hi])
  exact ⟨i, by rw [heq, hi]⟩

/-- **When reading a request head stays inside of the buffer, and ends.**  A head with no more
header lines than the table has entries is read so, whatever is received and however it is cut,
unless a refill over an unfinished line has made another header line. -/
theorem contained_iff (hf : req.Fresh cfg)
    (hcount : headerCount client.stream ≤ cfg.maxHeadersCount) :
    Contained cfg req client ↔ KeepsLines cfg req client := by
  constructor
  · rintro ⟨⟨result, hp⟩, -⟩ s t hs - hst hlim
    obtain ⟨i, hi⟩ := phase_readHeaders_of_atLimit hf (hs.trans hst) hlim
    rw [hp] at hi
    cases hi
  · intro hkeeps
    have hv := valid_readHeaders hf client
    have hfinal := final_readHeaders hf client
    refine ⟨?_, receiveCount_le hf client,
      fun s hs o len h => HiwReader.receives_le (valid_of_visited hf hs) h,
      fun s hs => ?_, fun s hs i hi => HiwReader.inspects_lt (valid_of_visited hf hs) hi,
      fun hp => ?_⟩
    · cases hp : (req.readHeaders cfg client).phase with
      | returned result => exact ⟨result, rfl⟩
      | overflow i =>
        obtain ⟨s, hs, hlim⟩ := exceeds_of_overflow hf hp
        -- the header line is one of the stream, or there was a refill that has made it
        rcases follows_or_overwrites hf hs with hfollows | ⟨u, hu, hover, hus⟩
        · obtain ⟨hp', hlen, line, hl, hsplit⟩ := hlim
          have hlt := hfollows.lt_headerCount (valid_of_visited hf hs).pos_le hp' hl hsplit
          omega
        · exact absurd hlim (hkeeps u s hu hover hus)
      | statusLine | headers => simp [HiwReader.final, hp] at hfinal
    · have hu := valid_of_visited hf hs
      have hpos := hu.pos_le
      exact ⟨hpos, hu.bytesRead_le, by omega⟩
    · obtain ⟨-, -, hle⟩ := hv.accepted hp
      have := hv.bytesRead_le
      omega

/-- A head in three receives, the second of which is stored over a part of the first. -/
theorem contained_cut : Contained .default (HiwRequest.init .default fun _ => 0).reset
    (.sending [ascii "GET / HTTP/1.1\r\nA", ascii ": b\r\n", ascii "\r\n"]) := by
  refine (contained_iff (fresh_reset rfl rfl) (by decide +kernel)).2 fun s t hs _ hst => ?_
  refine of_decide_eq_true (of_testFuel (p := fun s => decide (¬ s.AtLimit .default)) (n := 10)
    ?_ (hs.trans hst))
  decide +kernel

/-- 32 header lines, the last of which is cut so that the rest of it becomes a line of its own in a
block that is full of line feeds. -/
def cutLine : List Bytes :=
  [ascii "GET / HTTP/1.1\r\n" ++ (List.replicate 31 (ascii "A: b\r\n")).flatten ++
    ascii "A: b:c", ascii ":\r\n", ascii "\r\n"]

theorem not_contained :
    ¬ ∀ (req : HiwRequest) (client : HiwClient), req.Fresh .default →
      headerCount client.stream ≤ Config.default.maxHeadersCount →
        Contained .default req client := by
  intro hall
  have hfresh : (HiwRequest.init .default fun _ => LF).reset.Fresh .default := fresh_reset rfl rfl
  obtain ⟨result, hp⟩ := (hall _ (.sending cutLine) hfresh (by decide +kernel)).returns
  have hoverflow : ((HiwRequest.init .default fun _ => LF).reset.readHeaders .default
      (.sending cutLine)).phase = .overflow 32 := by decide +kernel
  rw [hoverflow] at hp
  cases hp

end HiwRequest

end Highway
