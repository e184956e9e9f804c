import Highway.Lib.Scan
import Highway.Servlet.Config
import Highway.Std.Number
import Highway.Std.String

/-!
# Request heads

What a request head means, as a reader of lines (`Highway.Lib.Scan`): the first line gives method
and uri, every further line a header, and the line without a colon that is at most one byte long
ends the head.  `Head.line` decides a line from its bytes alone, so what a byte stream amounts to
(`headOutcome`) does not depend on how it is received.  The parser of the server is compared with
it in `Highway.Servlet.Reader`.
-/

namespace Highway

open Lib

/-- The contents of a request head. -/
structure Head where
  method : Bytes
  uri : Bytes
  headers : List (Bytes × Bytes)
  contentLength : ℤ
  connectionClose : Bool
  deriving DecidableEq, Repr

/-- How the lines of a head end. -/
inductive HeadEnd where
  /-- At the separator; `back` are bytes of the separator line that are left to the body. -/
  | accepted (head : Head) (back : Bytes)
  /-- At a line that is not one of a request head. -/
  | refused
  /-- At a header for which the table has no room. -/
  | overflow
  deriving DecidableEq, Repr

/-- What reading a request head comes to. -/
inductive HeadOutcome where
  | accepted (head : Head) (unread : Bytes)
  | refused
  | overflow
  deriving DecidableEq, Repr

/-- Method and uri of a status line. -/
def statusFields (l : Bytes) : Option (Bytes × Bytes) :=
  match fields 32 2 l with
  | [method, uri, version] =>
    if version.rdropWhile HiwString.isspace = ascii "HTTP/1.1" then
      some (method.rdropWhile HiwString.isspace, uri.rdropWhile HiwString.isspace)
    else none
  | _ => none

/-- Name and value of a header line. -/
def headerFields (l : Bytes) : Option (Bytes × Bytes) :=
  match fields 58 1 l with
  | [name, value] =>
    some (trimWith HiwString.isspace 58 name, trimWith HiwString.isspace LF value)
  | _ => none

namespace Head

/-- A head with a status line only. -/
def ofStatusLine (method uri : Bytes) : Head := ⟨method, uri, [], -1, true⟩

/-- One more header, with its effect on content length and connection. -/
def add (h : Head) (name value : Bytes) : Head :=
  let h := { h with headers := h.headers ++ [(name, value)] }
  if name = ascii "Connection" then { h with connectionClose := decide (value = ascii "close") }
  else if name = ascii "Content-Length" then
    { h with contentLength := stringToi value h.contentLength }
  else h

/-- One line of a head, with `none` in front of the status line. -/
def line (cfg : Config) : Option Head → Bytes → Option Head ⊕ HeadEnd
  | none, l =>
    match statusFields l with
    | none => .inr .refused
    | some (method, uri) => .inl (some (ofStatusLine method uri))
  | some h, l =>
    match headerFields l with
    | none =>
      if l.length ≤ 1 then .inr (.accepted h (if l = [] ∨ l = [CR] then [] else l ++ [LF]))
      else .inr .refused
    | some (name, value) =>
      if cfg.maxHeadersCount ≤ h.headers.length then .inr .overflow
      else .inl (some (h.add name value))

section

variable {cfg : Config} {h : Head} {l name value method uri : Bytes}

theorem line_statusLine (hf : statusFields l = some (method, uri)) :
    line cfg none l = .inl (some (ofStatusLine method uri)) := by
  simp only [line, hf]

theorem line_badStatusLine (hf : statusFields l = none) : line cfg none l = .inr .refused := by
  simp only [line, hf]

theorem line_header (hf : headerFields l = some (name, value))
    (hc : h.headers.length < cfg.maxHeadersCount) :
    line cfg (some h) l = .inl (some (h.add name value)) := by
  simp only [line, hf, if_neg (Nat.not_le.2 hc)]

theorem line_overflow (hf : headerFields l = some (name, value))
    (hc : cfg.maxHeadersCount ≤ h.headers.length) : line cfg (some h) l = .inr .overflow := by
  simp only [line, hf, if_pos hc]

theorem line_separator (hf : headerFields l = none) (hl : l.length ≤ 1) :
    line cfg (some h) l = .inr (.accepted h (if l = [] ∨ l = [CR] then [] else l ++ [LF])) := by
  simp only [line, hf, if_pos hl]

theorem line_faulty (hf : headerFields l = none) (hl : 1 < l.length) :
    line cfg (some h) l = .inr .refused := by
  simp only [line, hf, if_neg (Nat.not_le.2 hl)]

end

@[simp] theorem headers_add (h : Head) (name value : Bytes) :
    (h.add name value).headers = h.headers ++ [(name, value)] := by
  unfold add
  dsimp only
  split_ifs <;> rfl

/-- One more header, given by its line. -/
def addLine (h : Head) (l : Bytes) : Head :=
  match headerFields l with
  | none => h
  | some (name, value) => h.add name value

end Head

/-- The head reader on the beginning of a stream. -/
def headScan (cfg : Config) (stream : Bytes) : Scan (Option Head) HeadEnd UInt8 :=
  scan LF (Head.line cfg) none [] stream

/-- The outcome that belongs to a scan; a stream that ends inside the head is refused. -/
def headOutcomeOf : Scan (Option Head) HeadEnd UInt8 → HeadOutcome
  | .more _ _ => .refused
  | .stop (.accepted head back) rest => .accepted head (back ++ rest)
  | .stop .refused _ => .refused
  | .stop .overflow _ => .overflow

/-- **What a byte stream amounts to as a request head.** -/
def headOutcome (cfg : Config) (stream : Bytes) : HeadOutcome := headOutcomeOf (headScan cfg stream)

/-- What follows the head does not change it. -/
theorem headOutcome_append {cfg : Config} {xs rest : Bytes} {r : HeadEnd}
    (h : headScan cfg xs = .stop r rest) (ys : Bytes) :
    headOutcome cfg (xs ++ ys) = headOutcomeOf (.stop r (rest ++ ys)) := by
  rw [headOutcome, headScan, scan_append_of_stop h]

/-! ### Lines of a head -/

/-- A line with a colon. -/
def isHeaderLine (l : Bytes) : Bool := decide (58 ∈ l)

theorem exists_headerFields {l : Bytes} (h : isHeaderLine l = true) :
    ∃ name value, headerFields l = some (name, value) := by
  obtain ⟨a, r, rfl, ha⟩ := List.eq_append_cons_of_mem (of_decide_eq_true h)
  rw [headerFields, fields_append ha]
  exact ⟨_, _, rfl⟩

theorem headerFields_of_not_isHeaderLine {l : Bytes} (h : isHeaderLine l = false) :
    headerFields l = none := by
  rw [headerFields, fields_of_not_mem (of_decide_eq_false h)]

variable {cfg : Config} {h : Head}

theorem Head.line_of_isHeaderLine (cfg : Config) (h : Head) {l : Bytes}
    (hl : isHeaderLine l = true)
    (hc : h.headers.length < cfg.maxHeadersCount) :
    Head.line cfg (some h) l = .inl (some (h.addLine l)) ∧
      (h.addLine l).headers.length = h.headers.length + 1 := by
  obtain ⟨name, value, hf⟩ := exists_headerFields hl
  constructor
  · simp only [Head.line_header hf hc, Head.addLine, hf]
  · simp [Head.addLine, hf]

theorem Head.line_blank {l : Bytes} (hl : l = [] ∨ l = [CR]) :
    Head.line cfg (some h) l = .inr (.accepted h []) := by
  rcases hl with rfl | rfl <;> rfl

theorem scan_headerLines {ls : List Bytes} (hls : ∀ l ∈ ls, LF ∉ l ∧ isHeaderLine l = true)
    (hc : h.headers.length + ls.length ≤ cfg.maxHeadersCount) (rest : Bytes) :
    scan LF (Head.line cfg) (some h) [] (unlines LF ls ++ rest) =
      scan LF (Head.line cfg) (some (ls.foldl Head.addLine h)) [] rest := by
  induction ls generalizing h with
  | nil => rfl
  | cons l ls ih =>
    rw [List.length_cons] at hc
    obtain ⟨hn, hl⟩ := hls l (by simp)
    obtain ⟨he, hlen⟩ := Head.line_of_isHeaderLine cfg h hl (by omega)
    rw [unlines_cons, List.append_assoc, List.cons_append, scan_line_of_inl hn he, List.foldl_cons]
    exact ih (fun x hx => hls x (List.mem_cons_of_mem _ hx)) (by omega)

theorem scan_headerLines_overflow {ls : List Bytes}
    (hls : ∀ l ∈ ls, LF ∉ l ∧ isHeaderLine l = true)
    (hc : h.headers.length ≤ cfg.maxHeadersCount)
    (hlt : cfg.maxHeadersCount < h.headers.length + ls.length) (rest : Bytes) :
    ∃ rest', scan LF (Head.line cfg) (some h) [] (unlines LF ls ++ rest) =
      .stop .overflow rest' := by
  induction ls generalizing h with
  | nil => simp only [List.length_nil] at hlt; omega
  | cons l ls ih =>
    rw [List.length_cons] at hlt
    obtain ⟨hn, hl⟩ := hls l (by simp)
    rw [unlines_cons, List.append_assoc, List.cons_append]
    rcases Nat.lt_or_eq_of_le hc with hc' | hc'
    · obtain ⟨he, hlen⟩ := Head.line_of_isHeaderLine cfg h hl hc'
      rw [scan_line_of_inl hn he]
      exact ih (fun x hx => hls x (List.mem_cons_of_mem _ hx)) (by omega) (by omega)
    · obtain ⟨name, value, hf⟩ := exists_headerFields hl
      exact ⟨unlines LF ls ++ rest, scan_line_of_inr hn (Head.line_overflow hf hc'.ge)⟩

end Highway
