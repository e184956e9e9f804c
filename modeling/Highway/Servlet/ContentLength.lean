import Highway.Servlet.Single

/-!
# The Content-Length of a request

What becomes of the Content-Length headers of a head that arrives in one receive.  The parser
hands every value to `hiw_string_toi` and does not look at the result: a value that is no numeral
leaves the old length in place, and a later header silently replaces an earlier one.  So the
decoding is strict only on heads where there is nothing to be strict about
(`HiwRequest.decodesStrictly_iff`).
-/

namespace Highway

open Lib

/-- A request head as it is delivered: the status line, the lines up to the blank line, and the
blank line. -/
structure HeadLines where
  status : Bytes
  lines : List Bytes
  blank : Bytes
  status_line : LF ∉ status
  lines_line : ∀ l ∈ lines, LF ∉ l
  lines_not_blank : ∀ l ∈ lines, l ≠ [] ∧ l ≠ [CR]
  blank_blank : blank = [] ∨ blank = [CR]

namespace HeadLines

/-- The bytes of the head. -/
def bytes (h : HeadLines) : Bytes := unlines LF (h.status :: h.lines ++ [h.blank])

/-- The header lines in front of the first line without a colon. -/
def front (h : HeadLines) : List Bytes := h.lines.takeWhile isHeaderLine

/-- The first line without a colon, the blank line apart. -/
def other (h : HeadLines) : Option Bytes := (h.lines.dropWhile isHeaderLine).head?

/-- How the lines of the head end for the reader. -/
def ending (cfg : Config) (h : HeadLines) : HeadEnd :=
  match statusFields h.status with
  | none => .refused
  | some (method, uri) =>
    if cfg.maxHeadersCount < h.front.length then .overflow
    else
      let head := h.front.foldl Head.addLine (.ofStatusLine method uri)
      match h.other with
      | none => .accepted head []
      | some l => if l.length ≤ 1 then .accepted head (l ++ [LF]) else .refused

theorem front_lines (h : HeadLines) : ∀ l ∈ h.front, LF ∉ l ∧ isHeaderLine l = true := fun l hl =>
  ⟨h.lines_line l (List.takeWhile_subset _ hl), List.mem_takeWhile_imp hl⟩

theorem headScan_bytes (cfg : Config) (h : HeadLines) (body : Bytes) :
    ∃ rest, headScan cfg (h.bytes ++ body) = .stop (h.ending cfg) rest := by
  have hbytes : h.bytes ++ body = h.status ++ LF :: (unlines LF h.front ++
      (unlines LF (h.lines.dropWhile isHeaderLine) ++ (h.blank ++ LF :: body))) := by
    rw [bytes, List.cons_append, unlines_cons, ← List.takeWhile_append_dropWhile (l := h.lines)
      (p := isHeaderLine), unlines_append, unlines_append, front]
    simp
  rw [hbytes, headScan, scan_line h.status_line, List.nil_append, Head.line]
  unfold ending
  cases hs : statusFields h.status with
  | none => exact ⟨_, rfl⟩
  | some mu =>
    obtain ⟨method, uri⟩ := mu
    dsimp only
    -- more header lines than there is room for are not read to their end
    split_ifs with hc
    · exact scan_headerLines_overflow h.front_lines (Nat.zero_le _) (by simpa [Head.ofStatusLine])
        _
    rw [scan_headerLines h.front_lines (by simpa [Head.ofStatusLine] using hc)]
    -- the first line that is no header ends the head, whether it is blank or not
    cases hd : h.lines.dropWhile isHeaderLine with
    | nil =>
      have hn : LF ∉ h.blank := by
        rcases h.blank_blank with hb | hb <;> rw [hb] <;> decide
      rw [other, hd, unlines_nil, List.nil_append,
        scan_line_of_inr hn (Head.line_blank h.blank_blank)]
      exact ⟨_, rfl⟩
    | cons l ls =>
      have hmem : l ∈ h.lines := List.dropWhile_subset _ (by rw [hd]; simp)
      have hl : isHeaderLine l = false := by
        have := List.head?_dropWhile_not isHeaderLine h.lines
        rw [hd] at this
        simpa using this
      rw [other, hd, unlines_cons, List.append_assoc, List.cons_append,
        scan_line (h.lines_line l hmem), List.nil_append, Head.line,
        headerFields_of_not_isHeaderLine hl]
      have hne := h.lines_not_blank l hmem
      simp only [List.head?_cons, hne.1, hne.2, or_self, ↓reduceIte]
      split_ifs <;> exact ⟨_, rfl⟩

end HeadLines

/-- The value, if the line is a Content-Length header. -/
def contentLengthOf (l : Bytes) : Option Bytes :=
  match headerFields l with
  | some (name, value) => if name = ascii "Content-Length" then some value else none
  | none => none

/-- The values of the Content-Length headers among the lines. -/
def contentLengths (ls : List Bytes) : List Bytes := ls.filterMap contentLengthOf

/-- A non-empty string of decimal digits for `n`. -/
def Numeral (n : ℕ) (v : Bytes) : Prop := v ≠ [] ∧ (∀ b ∈ v, isDigit b = true) ∧ digitsValue v = n

instance (n : ℕ) (v : Bytes) : Decidable (Numeral n v) := inferInstanceAs (Decidable (_ ∧ _ ∧ _))

/-- All values are numerals of one number that fits into an `int`. -/
def Agreeing (vs : List Bytes) : Prop := ∃ n < 2 ^ 31, ∀ v ∈ vs, Numeral n v

/-! ### The content length of a list of header lines -/

theorem contentLength_addLine (h : Head) (l : Bytes) :
    (h.addLine l).contentLength =
      match contentLengthOf l with
      | some v => stringToi v h.contentLength
      | none => h.contentLength := by
  have hne : ascii "Content-Length" ≠ ascii "Connection" := by decide
  rcases hf : headerFields l with _ | ⟨name, value⟩
  · simp [Head.addLine, contentLengthOf, hf]
  · by_cases hcl : name = ascii "Content-Length"
    · simp [Head.addLine, contentLengthOf, hf, Head.add, hcl, hne]
    · by_cases hc : name = ascii "Connection" <;>
        simp [Head.addLine, contentLengthOf, hf, Head.add, hcl, hc, hne.symm]

theorem contentLength_foldl_addLine (h : Head) (ls : List Bytes) :
    (ls.foldl Head.addLine h).contentLength =
      (contentLengths ls).foldl (fun i v => stringToi v i) h.contentLength := by
  induction ls generalizing h with
  | nil => rfl
  | cons l ls ih =>
    rw [List.foldl_cons, ih, contentLength_addLine, contentLengths, contentLengths]
    cases hl : contentLengthOf l with
    | none => rw [List.filterMap_cons_none hl]
    | some v => rw [List.filterMap_cons_some hl, List.foldl_cons]

/-- Numerals of one number leave that number, if there is one at all. -/
theorem foldl_stringToi {n : ℕ} (hn : n < 2 ^ 31) {vs : List Bytes} (hvs : ∀ v ∈ vs, Numeral n v)
    (i : ℤ) : vs.foldl (fun i v => stringToi v i) i = if vs = [] then i else (n : ℤ) := by
  induction vs generalizing i with
  | nil => rfl
  | cons v vs ih =>
    obtain ⟨-, hd, hv⟩ := hvs v (by simp)
    have hstep : stringToi v i = n := by rw [stringToi_of_digits hd (by omega), hv]
    rw [List.foldl_cons, ih (fun x hx => hvs x (List.mem_cons_of_mem _ hx)), hstep]
    simp

namespace HiwRequest

/-- What strict decoding asks of the parser for a head with the Content-Length values `vs`: it
returns, when it accepts the head the values are numerals of one `int`, which is the content
length and the number of bytes to be read, and otherwise it refuses the head. -/
def DecodesStrictly (s : HiwReader) (vs : List Bytes) : Prop :=
  (∃ result, s.phase = .returned result) ∧
  (s.phase = .returned true → ∃ n < 2 ^ 31, (∀ v ∈ vs, Numeral n v) ∧ s.req.contentLength = n ∧
    s.req.contentLengthRemaining = n) ∧
  (¬ Agreeing vs → s.phase = .returned false)

variable {cfg : Config} {req : HiwRequest} {client c₁ : HiwClient} {h : HeadLines} {body : Bytes}
  {s : HiwReader} {vs : List Bytes}

theorem decodesStrictly_of_refused (hfin : s.final = true) (hres : s.result = .refused) :
    DecodesStrictly s vs := by
  have hp : s.phase = .returned false := by
    unfold HiwReader.result at hres
    unfold HiwReader.final at hfin
    cases hp : s.phase with
    | returned b => cases b <;> simp [hp] at hres ⊢
    | _ => simp [hp] at hres hfin
  exact ⟨⟨false, hp⟩, fun hp' => by simp [hp] at hp', fun _ => hp⟩

theorem not_decodesStrictly_of_overflow (hres : s.result = .overflow) :
    ¬ DecodesStrictly s vs := by
  rintro ⟨⟨result, hp⟩, -⟩
  unfold HiwReader.result at hres
  cases result <;> simp [hp] at hres

/-- An accepted head is decoded strictly when the headers that were read decide it. -/
theorem decodesStrictly_iff_of_accepted {head : Head} {unread : Bytes} {vs' : List Bytes}
    (hv : s.Valid cfg) (hb : s.bytesRead < cfg.maxHeaderSize)
    (hres : s.result = .accepted head unread)
    (hlen : head.contentLength = vs'.foldl (fun i v => stringToi v i) (-1))
    (hsub : vs' ⊆ vs) : DecodesStrictly s vs ↔ Agreeing vs ∧ vs' ≠ [] := by
  have hp : s.phase = .returned true ∧ s.req.contentLength = head.contentLength := by
    unfold HiwReader.result at hres
    split at hres
    · rename_i hp
      obtain ⟨hh, -⟩ := HeadOutcome.accepted.inj hres
      exact ⟨hp, by rw [← hh]; rfl⟩
    · cases hres
    · cases hres
  obtain ⟨hp, hcl⟩ := hp
  have hrem : s.req.contentLengthRemaining = s.req.contentLength := by
    rcases hv.remaining hp with h | ⟨-, h⟩
    · exact h
    · omega
  constructor
  · rintro ⟨-, htrue, -⟩
    obtain ⟨n, hn, hvs, heq, -⟩ := htrue hp
    refine ⟨⟨n, hn, hvs⟩, ?_⟩
    -- without a value the content length would be the initial -1
    rintro rfl
    rw [hcl, hlen] at heq
    simp only [List.foldl_nil] at heq
    omega
  · rintro ⟨⟨n, hn, hvs⟩, hne'⟩
    have heq : s.req.contentLength = n := by
      rw [hcl, hlen, foldl_stringToi hn (fun v hv => hvs v (hsub hv)), if_neg hne']
    exact ⟨⟨true, hp⟩, fun _ => ⟨n, hn, hvs, heq, by rw [hrem, heq]⟩,
      fun hno => absurd ⟨n, hn, hvs⟩ hno⟩

/-- **When Content-Length is decoded strictly.**  A head that arrives in one receive is either
refused for its other lines, or its Content-Length values are numerals of one `int` and the first
of them stands in front of the line that ends the head. -/
theorem decodesStrictly_iff (hf : req.Fresh cfg)
    (hr : client.recv cfg.maxHeaderSize = (some (h.bytes ++ body), c₁))
    (hlt : (h.bytes ++ body).length < cfg.maxHeaderSize) :
    DecodesStrictly (req.readHeaders cfg client) (contentLengths h.lines) ↔
      statusFields h.status = none ∨
      h.front.length ≤ cfg.maxHeadersCount ∧
        ((∃ l ∈ h.other, 1 < l.length) ∨
          Agreeing (contentLengths h.lines) ∧ contentLengths h.front ≠ []) := by
  obtain ⟨rest, hstop⟩ := h.headScan_bytes cfg body
  obtain ⟨-, hb, hres⟩ := result_readHeaders hf hr hlt hstop
  have hfin := final_readHeaders hf client
  have hv := valid_readHeaders hf client
  rw [headOutcome, hstop, HeadLines.ending] at hres
  cases hs : statusFields h.status with
  | none =>
    rw [hs] at hres
    exact iff_of_true (decodesStrictly_of_refused hfin hres) (.inl rfl)
  | some mu =>
    obtain ⟨method, uri⟩ := mu
    simp only [hs] at hres
    by_cases hc : cfg.maxHeadersCount < h.front.length
    · rw [if_pos hc] at hres
      refine iff_of_false (not_decodesStrictly_of_overflow hres) ?_
      rintro (hno | ⟨hle, -⟩)
      · cases hno
      · omega
    rw [if_neg hc] at hres
    -- an accepted head is decided by the headers in front of the line that ends it
    have hacc : ∀ unread, (req.readHeaders cfg client).result =
          .accepted (h.front.foldl Head.addLine (.ofStatusLine method uri)) unread →
        (¬ ∃ l ∈ h.other, 1 < l.length) →
        (DecodesStrictly (req.readHeaders cfg client) (contentLengths h.lines) ↔
          some (method, uri) = none ∨ h.front.length ≤ cfg.maxHeadersCount ∧
            ((∃ l ∈ h.other, 1 < l.length) ∨
              Agreeing (contentLengths h.lines) ∧ contentLengths h.front ≠ [])) := by
      intro unread hres hno
      have hsub : contentLengths h.front ⊆ contentLengths h.lines :=
        ((List.takeWhile_sublist _).filterMap _).subset
      rw [decodesStrictly_iff_of_accepted hv (by omega) hres (contentLength_foldl_addLine _ _) hsub]
      simp only [hno, Nat.not_lt.1 hc, reduceCtorEq, false_or, true_and]
    cases ho : h.other with
    | none =>
      rw [ho] at hres hacc
      exact hacc _ hres (by simp)
    | some l =>
      rw [ho] at hres hacc
      dsimp only at hres
      split_ifs at hres with hl
      · exact hacc _ hres (by simpa using hl)
      · exact iff_of_true (decodesStrictly_of_refused hfin hres)
          (.inr ⟨Nat.not_lt.1 hc, .inl ⟨l, rfl, Nat.not_le.1 hl⟩⟩)

/-- A head with two agreeing headers. -/
theorem decodesStrictly_twice :
    DecodesStrictly ((HiwRequest.init .default fun _ => 0).reset.readHeaders .default
        (.sending [ascii "PUT / HTTP/1.1\r\nContent-Length: 12\r\nContent-Length:012\r\n\r\n"]))
      [ascii "12", ascii "012"] := by
  let h : HeadLines := ⟨ascii "PUT / HTTP/1.1\r", [ascii "Content-Length: 12\r",
    ascii "Content-Length:012\r"], [CR], by decide, by decide, by decide, by decide⟩
  have hrecv : (HiwClient.sending [h.bytes]).recv Config.default.maxHeaderSize =
      (some (h.bytes ++ []), .sending []) := by decide +kernel
  have hiff := decodesStrictly_iff (fresh_reset rfl rfl : (HiwRequest.init .default
    fun _ => 0).reset.Fresh .default) hrecv (by decide +kernel)
  exact hiff.2 (.inr ⟨by decide +kernel, .inr ⟨⟨12, by decide, by decide +kernel⟩,
    by decide +kernel⟩⟩)

/-- A value that is no number is accepted, with the content length left at -1. -/
theorem not_decodesStrictly_garbage :
    ¬ ∀ (req : HiwRequest) (client c₁ : HiwClient) (h : HeadLines) (body : Bytes),
      req.Fresh .default →
      client.recv Config.default.maxHeaderSize = (some (h.bytes ++ body), c₁) →
      (h.bytes ++ body).length < Config.default.maxHeaderSize →
      contentLengths h.lines ≠ [] →
      DecodesStrictly (req.readHeaders .default client) (contentLengths h.lines) := by
  intro hall
  have hstrict := hall (HiwRequest.init .default fun _ => 0).reset
    (.sending [ascii "GET / HTTP/1.1\r\nContent-Length: abc\r\n\r\n"]) (.sending [])
    ⟨ascii "GET / HTTP/1.1\r", [ascii "Content-Length: abc\r"], [CR], by decide, by decide,
      by decide, by decide⟩ [] (fresh_reset rfl rfl) (by decide +kernel) (by decide +kernel)
    (by decide +kernel)
  have hno : ¬ Agreeing [ascii "abc"] := by
    rintro ⟨n, -, hn⟩
    obtain ⟨-, hd, -⟩ := hn _ (List.mem_singleton.2 rfl)
    exact absurd hd (by decide)
  have hfalse := hstrict.2.2 hno
  revert hfalse
  decide +kernel

end HiwRequest

end Highway
