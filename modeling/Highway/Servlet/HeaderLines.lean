import Highway.Servlet.Chunks

/-!
# The header lines of a stream

How many header lines a head has is a matter of the bytes that are sent (`headerCount`).  As long as
no refill is stored over an unfinished line, the parser has stored as many headers as lines that it
has gone through (`HiwReader.Follows`), so it knows; behind such a refill it may have stored too few
or too many.
-/

namespace Highway

open Lib

/-- A line that ends the head. -/
def isSeparator (l : Bytes) : Bool := !isHeaderLine l && decide (l.length ≤ 1)

/-- The number of header lines between the status line and the separator. -/
def headerCount (stream : Bytes) : ℕ :=
  (((lines LF stream).drop 1).takeWhile fun l => !isSeparator l).countP isHeaderLine

/-- A stream with these header lines in front. -/
structure StartsWith (stream : Bytes) (ls : List Bytes) (rest : Bytes) : Prop where
  eq : ∃ l, LF ∉ l ∧ stream = l ++ LF :: (unlines LF ls ++ rest)
  notMem : ∀ l ∈ ls, LF ∉ l
  headers : ∀ l ∈ ls, isHeaderLine l = true

section

variable {stream rest l : Bytes} {ls : List Bytes}

theorem StartsWith.lines_eq (h : StartsWith stream ls rest) :
    (lines LF stream).drop 1 = ls ++ lines LF rest := by
  obtain ⟨l, hl, rfl⟩ := h.eq
  rw [lines_line hl, lines_unlines h.notMem]
  rfl

theorem StartsWith.concat (h : StartsWith stream ls (l ++ LF :: rest)) (hl : LF ∉ l)
    (hheader : isHeaderLine l = true) : StartsWith stream (ls ++ [l]) rest := by
  obtain ⟨status, hstatus, heq⟩ := h.eq
  refine ⟨⟨status, hstatus, ?_⟩, ?_, ?_⟩
  · rw [heq, unlines_append]
    simp
  · exact List.forall_mem_append.2 ⟨h.notMem, by simpa using hl⟩
  · exact List.forall_mem_append.2 ⟨h.headers, by simpa using hheader⟩

theorem StartsWith.takeWhile_eq (h : StartsWith stream ls rest) :
    ((lines LF stream).drop 1).takeWhile (fun l => !isSeparator l) =
      ls ++ (lines LF rest).takeWhile fun l => !isSeparator l := by
  rw [h.lines_eq]
  exact List.takeWhile_append_of_pos fun l hl => by simp [isSeparator, h.headers l hl]

theorem StartsWith.le_headerCount (h : StartsWith stream ls rest) :
    ls.length ≤ headerCount stream := by
  rw [headerCount, h.takeWhile_eq, List.countP_append, List.countP_eq_length.2 h.headers]
  exact Nat.le_add_right _ _

theorem StartsWith.headerCount_eq (h : StartsWith stream ls (l ++ LF :: rest)) (hl : LF ∉ l)
    (hsep : isSeparator l = true) : headerCount stream = ls.length := by
  rw [headerCount, h.takeWhile_eq, lines_line hl, List.takeWhile_cons_of_neg (by simp [hsep]),
    List.append_nil, List.countP_eq_length.2 h.headers]

end

namespace HiwReader

/-- The parser is behind as many header lines of the stream `S` as it has stored headers. -/
def Follows (S : Bytes) (s : HiwReader) : Prop :=
  match s.phase with
  | .statusLine => s.mem.bytes 0 s.bytesRead ++ s.client.stream = S
  | .headers => ∃ ls, ls.length = s.req.headers.length ∧
      StartsWith S ls (s.window.reads s.mem ++ s.client.stream)
  | _ => True

/-- A refill is going to be stored over an unfinished line. -/
def Overwrites (cfg : Config) (s : HiwReader) : Prop := ¬ s.Tidy cfg

variable {cfg : Config} {S : Bytes} {s s' : HiwReader} {line : HiwString}

theorem isHeaderLine_of_split (hp : s.pos ≤ s.bytesRead)
    (hl : HiwString.readline s.mem s.window = some line)
    (hs : (HiwString.split s.mem line 58 2).length = 2) :
    isHeaderLine (line.reads s.mem) = true := by
  obtain ⟨name, value, hsplit⟩ := List.length_eq_two.1 hs
  by_contra hno
  have hnone := headerFields_of_not_isHeaderLine (Bool.eq_false_iff.2 hno)
  rw [headerFields_line hp hl hsplit] at hnone
  cases hnone

theorem isSeparator_of_split (hs : (HiwString.split s.mem line 58 2).length ≠ 2)
    (hlen : line.length ≤ 1) : isSeparator (line.reads s.mem) = true := by
  have hlen' : (line.reads s.mem).length ≤ 1 := by simpa using hlen
  have hno : isHeaderLine (line.reads s.mem) = false := by
    by_contra hyes
    obtain ⟨name, value, hfields⟩ := exists_headerFields (Bool.eq_true_of_not_eq_false hyes)
    rw [HiwRequest.headerFields_eq_none hs] at hfields
    cases hfields
  rw [isSeparator, hno]
  exact decide_eq_true hlen'

/-- **The parser follows the header lines, as long as it overwrites nothing.** -/
theorem Follows.step (hv : Valid cfg s) (htidy : s.Tidy cfg) (h : Follows S s)
    (hi : Iter cfg s s') : Follows S s' := by
  unfold Follows at h
  cases hi with
  | @waiting bs c' hp hr =>
    simp only [hp] at h
    have hph : (s.received (s.pos + s.bytesRead) bs c').phase = .statusLine := hp
    simp only [Follows, hph]
    rw [← h, HiwClient.stream_of_recv hr, ← List.append_assoc, ← bytes_received (hv.fresh hp).1]
    rfl
  | @statusLine bs c' line method uri hp hr hbs hl =>
    simp only [hp] at h
    obtain ⟨h0, hh, -⟩ := hv.fresh hp
    obtain ⟨hn, heq⟩ := received_statusLine rfl h0 hl
    refine ⟨[], by simp [enterHeaders, statusRead, received, hh], ⟨_, hn, ?_⟩, by simp, by simp⟩
    rw [← h, HiwClient.stream_of_recv hr, ← List.append_assoc, heq, window_enterHeaders h0]
    simp [HiwString.reads, enterHeaders, statusRead, received, mem]
  | @header line name value hp hl hcnt hs =>
    simp only [hp] at h
    obtain ⟨ls, hlen, hstarts⟩ := h
    obtain ⟨hn, hw⟩ := window_eq hl
    rw [hw, List.append_assoc, List.cons_append] at hstarts
    have hheader := isHeaderLine_of_split hv.pos_le hl (by rw [hs]; rfl)
    simp only [Follows, phase_applyHeader, phase_storeHeader, hp]
    refine ⟨ls ++ [line.reads s.mem], ?_, ?_⟩
    · simp [hlen]
    · rw [window_addHeader, mem_applyHeader, client_applyHeader]
      exact hstarts.concat hn hheader
  | @refill bs c' hp hl hlt hr hbs =>
    simp only [hp] at h
    obtain ⟨ls, hlen, hstarts⟩ := h
    obtain ⟨hw, hwin⟩ := window_received bs c' (htidy hp hl (by rw [hr]; exact hbs))
    have hph : (s.received s.pos bs c').phase = .headers := hp
    simp only [Follows, hph]
    refine ⟨ls, hlen, ?_⟩
    rw [hw, List.nil_append, HiwClient.stream_of_recv hr] at hstarts
    rwa [hwin]
  | closed | noStatusLine | badStatusLine | longUri | tooMany | overflow | separator | faulty
  | full => trivial

/-- **A header line with the table full is one too many**, if the parser follows. -/
theorem Follows.lt_headerCount (hp : s.pos ≤ s.bytesRead) (h : Follows S s)
    (hphase : s.phase = .headers) (hl : HiwString.readline s.mem s.window = some line)
    (hs : (HiwString.split s.mem line 58 2).length = 2) :
    s.req.headers.length < headerCount S := by
  simp only [Follows, hphase] at h
  obtain ⟨ls, hlen, hstarts⟩ := h
  obtain ⟨hn, hw⟩ := window_eq hl
  rw [hw, List.append_assoc, List.cons_append] at hstarts
  have hle := (hstarts.concat hn (isHeaderLine_of_split hp hl hs)).le_headerCount
  rw [List.length_append, List.length_singleton, hlen] at hle
  omega

/-- **At the separator all header lines have been stored**, if the parser follows. -/
theorem Follows.headerCount_eq (h : Follows S s) (hphase : s.phase = .headers)
    (hl : HiwString.readline s.mem s.window = some line)
    (hs : (HiwString.split s.mem line 58 2).length ≠ 2) (hle : line.length ≤ 1) :
    headerCount S = s.req.headers.length := by
  simp only [Follows, hphase] at h
  obtain ⟨ls, hlen, hstarts⟩ := h
  obtain ⟨hn, hw⟩ := window_eq hl
  rw [hw, List.append_assoc, List.cons_append] at hstarts
  rw [hstarts.headerCount_eq hn (isSeparator_of_split hs hle), hlen]

theorem follows_start {req : HiwRequest} (hf : req.Fresh cfg) (client : HiwClient) :
    Follows client.stream (start cfg req client) := by
  rw [start_eq hf]
  rfl

/-- In every state of a run, the parser follows or has overwritten an unfinished line. -/
theorem follows_or_overwrites {req : HiwRequest} (hf : req.Fresh cfg) {client : HiwClient}
    (hs : Visited (HiwReader.step cfg) HiwReader.final (.start cfg req client) s) :
    Follows client.stream s ∨
      ∃ u, Visited (HiwReader.step cfg) HiwReader.final (.start cfg req client) u ∧
        u.Overwrites cfg ∧ Visited (HiwReader.step cfg) HiwReader.final u s :=
  hs.invariant_or (follows_start hf client) fun _ hu hnf htidy h =>
    h.step (valid_of_visited hf hu) (not_not.1 htidy) (iter_step hnf)

end HiwReader

end Highway
