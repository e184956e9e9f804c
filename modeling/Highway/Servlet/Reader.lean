import Highway.Servlet.Head
import Highway.Servlet.Request

/-!
# What one iteration of the parser does

`Iter cfg s s'` lists every way an iteration of `hiw_internal_request_read_headers` can take the
reader from `s` to `s'`, with the conditions under which it does; `iter_step` says that the list
is complete.  The invariants of the parser are proved by cases on it.
-/

namespace Highway

open Lib

namespace HiwReader

/-- The reader after `bs` was received to offset `o`. -/
def received (s : HiwReader) (o : ℕ) (bs : Bytes) (client : HiwClient) : HiwReader :=
  { s with
    req := { s.req with memoryFixed := s.mem.write o bs }
    client
    bytesRead := s.bytesRead + bs.length }

/-- The reader after the status line was accepted. -/
def statusRead (s : HiwReader) (method uri : HiwString) : HiwReader :=
  { s with req := { s.req with method, uri } }

/-- The reader in front of the first header line. -/
def enterHeaders (s : HiwReader) (statusLine : HiwString) : HiwReader :=
  { s with
    pos := s.pos + statusLine.length + 1
    headerConnectionClose := s.req.connectionClose
    headerContentLength := s.req.contentLength
    phase := .headers }

/-- The reader after a header line was stored, before the header takes effect. -/
def storeHeader (s : HiwReader) (line : HiwString) (header : HiwHeader) : HiwReader :=
  { s with
    req := { s.req with headers := s.req.headers ++ [header] }
    pos := s.pos + line.length + 1 }

/-- One iteration, by cases. -/
inductive Iter (cfg : Config) (s : HiwReader) : HiwReader → Prop
  /-- Nothing is received: the peer has closed, or an error. -/
  | closed {r : Option Bytes} {c' : HiwClient} : s.final = false →
      (s.phase = .headers → HiwString.readline s.mem s.window = none) →
      s.client.recv (cfg.maxHeaderSize - s.bytesRead) = (r, c') → r.getD [] = [] →
      Iter cfg s (ret { s with client := c' } false)
  /-- Bytes are received in the status line loop, and no line is found. -/
  | waiting {bs : Bytes} {c' : HiwClient} : s.phase = .statusLine →
      s.client.recv (cfg.maxHeaderSize - s.bytesRead) = (some bs, c') → bs ≠ [] →
      LF ∉ (s.received (s.pos + s.bytesRead) bs c').mem.bytes 0 bs.length →
      s.bytesRead + bs.length < cfg.maxHeaderSize →
      Iter cfg s (s.received (s.pos + s.bytesRead) bs c')
  /-- The same, with the buffer full. -/
  | noStatusLine {bs : Bytes} {c' : HiwClient} : s.phase = .statusLine →
      s.client.recv (cfg.maxHeaderSize - s.bytesRead) = (some bs, c') → bs ≠ [] →
      LF ∉ (s.received (s.pos + s.bytesRead) bs c').mem.bytes 0 bs.length →
      cfg.maxHeaderSize ≤ s.bytesRead + bs.length →
      Iter cfg s ((s.received (s.pos + s.bytesRead) bs c').ret false)
  /-- The status line is found and refused. -/
  | badStatusLine {bs : Bytes} {c' : HiwClient} {line : HiwString} : s.phase = .statusLine →
      s.client.recv (cfg.maxHeaderSize - s.bytesRead) = (some bs, c') → bs ≠ [] →
      HiwString.readline (s.received (s.pos + s.bytesRead) bs c').mem ⟨0, bs.length⟩ = some line →
      HiwRequest.parseStatusLine (s.received (s.pos + s.bytesRead) bs c').mem line = none →
      Iter cfg s ((s.received (s.pos + s.bytesRead) bs c').ret false)
  /-- The status line is accepted, with the buffer full. -/
  | longUri {bs : Bytes} {c' : HiwClient} {line method uri : HiwString} : s.phase = .statusLine →
      s.client.recv (cfg.maxHeaderSize - s.bytesRead) = (some bs, c') → bs ≠ [] →
      HiwString.readline (s.received (s.pos + s.bytesRead) bs c').mem ⟨0, bs.length⟩ = some line →
      HiwRequest.parseStatusLine (s.received (s.pos + s.bytesRead) bs c').mem line =
        some (method, uri) →
      cfg.maxHeaderSize ≤ s.bytesRead + bs.length →
      Iter cfg s (((s.received (s.pos + s.bytesRead) bs c').statusRead method uri).ret true)
  /-- The status line is accepted. -/
  | statusLine {bs : Bytes} {c' : HiwClient} {line method uri : HiwString} :
      s.phase = .statusLine →
      s.client.recv (cfg.maxHeaderSize - s.bytesRead) = (some bs, c') → bs ≠ [] →
      HiwString.readline (s.received (s.pos + s.bytesRead) bs c').mem ⟨0, bs.length⟩ = some line →
      HiwRequest.parseStatusLine (s.received (s.pos + s.bytesRead) bs c').mem line =
        some (method, uri) →
      s.bytesRead + bs.length < cfg.maxHeaderSize →
      Iter cfg s
        (((s.received (s.pos + s.bytesRead) bs c').statusRead method uri).enterHeaders line)
  /-- More headers than the check at the top of the loop allows. -/
  | tooMany {line : HiwString} : s.phase = .headers →
      HiwString.readline s.mem s.window = some line →
      cfg.maxHeadersCount < s.req.headers.length → Iter cfg s (s.ret false)
  /-- A header line with no entry left in the table. -/
  | overflow {line name value : HiwString} : s.phase = .headers →
      HiwString.readline s.mem s.window = some line →
      s.req.headers.length = cfg.maxHeadersCount →
      HiwString.split s.mem line 58 2 = [name, value] →
      Iter cfg s { s with phase := .overflow s.req.headers.length }
  /-- A header line is stored. -/
  | header {line name value : HiwString} : s.phase = .headers →
      HiwString.readline s.mem s.window = some line →
      s.req.headers.length < cfg.maxHeadersCount →
      HiwString.split s.mem line 58 2 = [name, value] →
      Iter cfg s ((s.storeHeader line
        ⟨HiwString.trim s.mem name, HiwString.trim s.mem value⟩).applyHeader
          ⟨HiwString.trim s.mem name, HiwString.trim s.mem value⟩)
  /-- The separator. -/
  | separator {line : HiwString} : s.phase = .headers →
      HiwString.readline s.mem s.window = some line →
      s.req.headers.length ≤ cfg.maxHeadersCount →
      (HiwString.split s.mem line 58 2).length ≠ 2 → line.length ≤ 1 → Iter cfg s s.separator
  /-- A line that is neither. -/
  | faulty {line : HiwString} : s.phase = .headers →
      HiwString.readline s.mem s.window = some line →
      s.req.headers.length ≤ cfg.maxHeadersCount →
      (HiwString.split s.mem line 58 2).length ≠ 2 → 1 < line.length → Iter cfg s (s.ret false)
  /-- No complete line is left, and the buffer is full. -/
  | full : s.phase = .headers → HiwString.readline s.mem s.window = none →
      cfg.maxHeaderSize ≤ s.bytesRead → Iter cfg s (s.ret false)
  /-- No complete line is left, and more bytes are received. -/
  | refill {bs : Bytes} {c' : HiwClient} : s.phase = .headers →
      HiwString.readline s.mem s.window = none → s.bytesRead < cfg.maxHeaderSize →
      s.client.recv (cfg.maxHeaderSize - s.bytesRead) = (some bs, c') → bs ≠ [] →
      Iter cfg s (s.received s.pos bs c')

variable {cfg : Config} {s : HiwReader}

theorem recvAt_of_nil {len : ℕ} {r : Option Bytes} {c' : HiwClient} (o : ℕ)
    (hr : s.client.recv len = (r, c')) (hnil : r.getD [] = []) :
    ∃ count ≤ 0, s.recvAt o len = (count, { s with client := c' }) := by
  cases r with
  | none => exact ⟨-1, by omega, by rw [recvAt, hr]⟩
  | some bs =>
    obtain rfl : bs = [] := hnil
    exact ⟨0, le_rfl, by rw [recvAt, hr]; simp [mem]⟩

theorem recvAt_of_ne_nil {len : ℕ} {bs : Bytes} {c' : HiwClient} (o : ℕ)
    (hr : s.client.recv len = (some bs, c')) (hbs : bs ≠ []) :
    ¬ (bs.length : ℤ) ≤ 0 ∧ s.recvAt o len = ((bs.length : ℤ),
      { s with req := { s.req with memoryFixed := s.mem.write o bs }, client := c' }) := by
  have := List.length_pos_iff.2 hbs
  exact ⟨by omega, by rw [recvAt, hr]⟩

theorem recv_cases (c : HiwClient) (len : ℕ) :
    (∃ r c', c.recv len = (r, c') ∧ r.getD [] = []) ∨
      ∃ bs c', c.recv len = (some bs, c') ∧ bs ≠ [] := by
  rcases hr : c.recv len with ⟨_ | bs, c'⟩
  · exact .inl ⟨none, c', rfl, rfl⟩
  · by_cases hbs : bs = []
    · exact .inl ⟨some bs, c', rfl, hbs⟩
    · exact .inr ⟨bs, c', rfl, hbs⟩

theorem stepStatusLine_of_nil {r : Option Bytes} {c' : HiwClient}
    (hr : s.client.recv (cfg.maxHeaderSize - s.bytesRead) = (r, c')) (hnil : r.getD [] = []) :
    s.stepStatusLine cfg = ret { s with client := c' } false := by
  obtain ⟨count, hcount, he⟩ := recvAt_of_nil (s.pos + s.bytesRead) hr hnil
  simp only [stepStatusLine, he, hcount, ↓reduceIte]

theorem stepStatusLine_of_ne_nil {bs : Bytes} {c' : HiwClient}
    (hr : s.client.recv (cfg.maxHeaderSize - s.bytesRead) = (some bs, c')) (hbs : bs ≠ [])
    {t : HiwReader} (ht : t = s.received (s.pos + s.bytesRead) bs c') :
    s.stepStatusLine cfg =
      match HiwString.readline t.mem ⟨0, bs.length⟩ with
      | none => if cfg.maxHeaderSize ≤ t.bytesRead then t.ret false else t
      | some line =>
        match HiwRequest.parseStatusLine t.mem line with
        | none => t.ret false
        | some (method, uri) =>
          if cfg.maxHeaderSize ≤ t.bytesRead then (t.statusRead method uri).ret true
          else (t.statusRead method uri).enterHeaders line := by
  obtain ⟨hpos, he⟩ := recvAt_of_ne_nil (s.pos + s.bytesRead) hr hbs
  subst ht
  simp only [stepStatusLine, he, hpos, ↓reduceIte, Int.toNat_natCast]
  rfl

theorem refill_of_nil {r : Option Bytes} {c' : HiwClient}
    (hr : s.client.recv (cfg.maxHeaderSize - s.bytesRead) = (r, c')) (hnil : r.getD [] = [])
    (hlt : s.bytesRead < cfg.maxHeaderSize) :
    s.refill cfg = ret { s with client := c' } false := by
  obtain ⟨count, hcount, he⟩ := recvAt_of_nil s.pos hr hnil
  have hne : ¬ cfg.maxHeaderSize - s.bytesRead = 0 := by omega
  simp only [refill, hne, he, hcount, ↓reduceIte]

theorem refill_of_ne_nil {bs : Bytes} {c' : HiwClient}
    (hr : s.client.recv (cfg.maxHeaderSize - s.bytesRead) = (some bs, c')) (hbs : bs ≠ [])
    (hlt : s.bytesRead < cfg.maxHeaderSize) : s.refill cfg = s.received s.pos bs c' := by
  obtain ⟨hpos, he⟩ := recvAt_of_ne_nil s.pos hr hbs
  have hne : ¬ cfg.maxHeaderSize - s.bytesRead = 0 := by omega
  simp only [refill, hne, he, hpos, ↓reduceIte, Int.toNat_natCast]
  rfl

theorem iter_stepStatusLine (h : s.phase = .statusLine) : Iter cfg s (s.stepStatusLine cfg) := by
  have hf : s.final = false := by simp [final, h]
  rcases recv_cases s.client (cfg.maxHeaderSize - s.bytesRead) with
    ⟨r, c', hr, hnil⟩ | ⟨bs, c', hr, hbs⟩
  · rw [stepStatusLine_of_nil hr hnil]
    exact .closed hf (fun hp => by simp [h] at hp) hr hnil
  have hb : (s.received (s.pos + s.bytesRead) bs c').bytesRead = s.bytesRead + bs.length := rfl
  rw [stepStatusLine_of_ne_nil hr hbs rfl]
  -- the line is looked for in as many bytes as this receive has brought
  cases hl : HiwString.readline (s.received (s.pos + s.bytesRead) bs c').mem ⟨0, bs.length⟩ with
  | none =>
    dsimp only
    have hn := HiwString.readline_eq_none.1 hl
    split_ifs with hfull
    · exact .noStatusLine h hr hbs hn hfull
    · exact .waiting h hr hbs hn (by omega)
  | some line =>
    dsimp only
    cases hp : HiwRequest.parseStatusLine (s.received (s.pos + s.bytesRead) bs c').mem line with
    | none => exact .badStatusLine h hr hbs hl hp
    | some mu =>
      obtain ⟨method, uri⟩ := mu
      dsimp only
      split_ifs with hfull
      · exact .longUri h hr hbs hl hp hfull
      · exact .statusLine h hr hbs hl hp (by omega)

theorem iter_stepLine {line : HiwString} (h : s.phase = .headers)
    (hl : HiwString.readline s.mem s.window = some line) : Iter cfg s (s.stepLine cfg line) := by
  unfold stepLine
  by_cases hc : cfg.maxHeadersCount < s.req.headers.length
  · rw [if_pos hc]
    exact .tooMany h hl hc
  rw [if_neg hc]
  split
  · rename_i name value hsplit
    dsimp only
    split_ifs with hmax
    · exact .overflow h hl (by omega) hsplit
    · exact .header h hl (by omega) hsplit
  · rename_i hsplit
    have hne : (HiwString.split s.mem line 58 2).length ≠ 2 := fun hlen => by
      obtain ⟨a, b, hab⟩ := List.length_eq_two.1 hlen
      exact hsplit a b hab
    split_ifs with hlen
    · exact .separator h hl (by omega) hne hlen
    · exact .faulty h hl (by omega) hne (by omega)

theorem phase_of_not_final (h : s.final = false) : s.phase = .statusLine ∨ s.phase = .headers := by
  cases hp : s.phase with
  | statusLine => exact .inl rfl
  | headers => exact .inr rfl
  | returned r => simp [final, hp] at h
  | overflow i => simp [final, hp] at h

theorem iter_refill (h : s.phase = .headers) (hl : HiwString.readline s.mem s.window = none) :
    Iter cfg s (s.refill cfg) := by
  have hf : s.final = false := by simp [final, h]
  rcases Nat.lt_or_ge s.bytesRead cfg.maxHeaderSize with hlt | hfull
  · rcases recv_cases s.client (cfg.maxHeaderSize - s.bytesRead) with
      ⟨r, c', hr, hnil⟩ | ⟨bs, c', hr, hbs⟩
    · rw [refill_of_nil hr hnil hlt]
      exact .closed hf (fun _ => hl) hr hnil
    · rw [refill_of_ne_nil hr hbs hlt]
      exact .refill h hl hlt hr hbs
  · simp only [refill, Nat.sub_eq_zero_of_le hfull, ↓reduceIte]
    exact .full h hl hfull

/-- **The cases of `Iter` are all an iteration can do.** -/
theorem iter_step (h : s.final = false) : Iter cfg s (s.step cfg) := by
  unfold step
  rcases phase_of_not_final h with hp | hp
  · rw [hp]
    exact iter_stepStatusLine hp
  · rw [hp]
    cases hl : HiwString.readline s.mem s.window with
    | some line => exact iter_stepLine hp hl
    | none => exact iter_refill hp hl

end HiwReader

end Highway
