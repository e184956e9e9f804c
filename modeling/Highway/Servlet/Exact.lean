import Highway.Servlet.ContentLength

/-!
# What a head in one receive is parsed to

A head that consists of a request line, header lines and a blank line, and arrives in one receive,
is parsed to exactly what it says: method and uri, the pairs of its header lines with the blanks
around them removed, the last Content-Length, the last Connection, and everything behind the blank
line as read-ahead (`HiwRequest.readHeaders_exact`).
-/

namespace Highway

open Lib

/-- A string without whitespace at both ends. -/
def trimmed (bs : Bytes) : Bytes := (bs.dropWhile HiwString.isspace).rdropWhile HiwString.isspace

/-- Non-empty and without whitespace. -/
def Word (bs : Bytes) : Prop := bs ≠ [] ∧ ∀ b ∈ bs, HiwString.isspace b = false

instance (bs : Bytes) : Decidable (Word bs) :=
  @instDecidableAnd _ _ inferInstance (List.decidableBAll _ _)

namespace Word

variable {bs method uri : Bytes}

theorem not_mem (h : Word bs) {c : UInt8} (hc : HiwString.isspace c = true) : c ∉ bs := by
  intro hmem
  rw [h.2 c hmem] at hc
  cases hc

theorem rdropWhile (h : Word bs) : bs.rdropWhile HiwString.isspace = bs :=
  List.rdropWhile_eq_self_iff.2 fun hne => by simp [h.2 _ (List.getLast_mem hne)]

theorem trimWith (h : Word bs) (next : UInt8) : trimWith HiwString.isspace next bs = bs := by
  obtain ⟨b, hb⟩ := List.exists_mem_of_ne_nil bs h.1
  rw [trimWith_of_exists ⟨b, hb, h.2 b hb⟩]
  have hleft : bs.dropWhile HiwString.isspace = bs :=
    List.dropWhile_eq_self_iff.2 fun hl => by simp [h.2 _ (List.getElem_mem hl)]
  rw [hleft, h.rdropWhile]

theorem statusFields (hmethod : Word method) (huri : Word uri) :
    statusFields (method ++ 32 :: (uri ++ 32 :: (ascii "HTTP/1.1" ++ [CR]))) =
      some (method, uri) := by
  rw [Highway.statusFields, fields_append (hmethod.not_mem (by decide)),
    fields_append (huri.not_mem (by decide)), fields]
  have hversion : (ascii "HTTP/1.1" ++ [CR]).rdropWhile HiwString.isspace = ascii "HTTP/1.1" := by
    decide
  simp only [hversion, ↓reduceIte, hmethod.rdropWhile, huri.rdropWhile]

theorem not_mem_status (hmethod : Word method) (huri : Word uri) :
    LF ∉ method ++ 32 :: (uri ++ 32 :: (ascii "HTTP/1.1" ++ [CR])) := by
  have hne : LF ≠ 32 ∧ LF ≠ CR ∧ LF ∉ ascii "HTTP/1.1" := by decide
  have hm : LF ∉ method := hmethod.not_mem (by decide)
  have hu : LF ∉ uri := huri.not_mem (by decide)
  simp [hm, hu, hne]

end Word

/-! ### The head of a list of headers -/

/-- The value of the last header with the name. -/
def lastValue (name : Bytes) (headers : List (Bytes × Bytes)) : Option Bytes :=
  ((headers.filter fun h => h.1 = name).getLast?).map Prod.snd

/-- The number in the last Content-Length header; -1 if there is none. -/
def lastLength (headers : List (Bytes × Bytes)) : ℤ :=
  match lastValue (ascii "Content-Length") headers with
  | none => -1
  | some value => digitsValue value

/-- Whether the last Connection header says `close`, as it does if there is none. -/
def lastClose (headers : List (Bytes × Bytes)) : Bool :=
  match lastValue (ascii "Connection") headers with
  | none => true
  | some value => decide (value = ascii "close")

/-- The head with these headers. -/
def Head.ofHeaders (method uri : Bytes) (headers : List (Bytes × Bytes)) : Head :=
  ⟨method, uri, headers, lastLength headers, lastClose headers⟩

/-- The value of every Content-Length header is a numeral of an `int`. -/
def GoodLengths (headers : List (Bytes × Bytes)) : Prop :=
  ∀ h ∈ headers, h.1 = ascii "Content-Length" →
    h.2 ≠ [] ∧ (∀ b ∈ h.2, isDigit b = true) ∧ digitsValue h.2 < 2 ^ 31

instance (headers : List (Bytes × Bytes)) : Decidable (GoodLengths headers) :=
  letI (h : Bytes × Bytes) : Decidable (∀ b ∈ h.2, isDigit b = true) := List.decidableBAll _ _
  inferInstanceAs (Decidable (∀ h ∈ headers, _ → _))

theorem lastValue_concat (name : Bytes) (headers : List (Bytes × Bytes)) (h : Bytes × Bytes) :
    lastValue name (headers ++ [h]) =
      if h.1 = name then some h.2 else lastValue name headers := by
  unfold lastValue
  rw [List.filter_append]
  split_ifs with hname
  · rw [List.filter_cons_of_pos (by simpa using hname), List.filter_nil, List.getLast?_concat]
    rfl
  · rw [List.filter_cons_of_neg (by simpa using hname), List.filter_nil, List.append_nil]

theorem mem_of_lastValue {name value : Bytes} {headers : List (Bytes × Bytes)}
    (h : lastValue name headers = some value) : (name, value) ∈ headers := by
  obtain ⟨⟨n, v⟩, hlast, rfl⟩ := Option.map_eq_some_iff.1 h
  obtain ⟨hmem, hname⟩ := List.mem_filter.1 (List.mem_of_getLast? hlast)
  exact of_decide_eq_true hname ▸ hmem

theorem lastValue_ne_none {headers : List (Bytes × Bytes)} {h : Bytes × Bytes}
    (hmem : h ∈ headers) : lastValue h.1 headers ≠ none := by
  intro hnone
  rw [lastValue, Option.map_eq_none_iff, List.getLast?_eq_none_iff] at hnone
  exact List.filter_eq_nil_iff.1 hnone h hmem (decide_eq_true rfl)

theorem lastLength_concat (headers : List (Bytes × Bytes)) (h : Bytes × Bytes) :
    lastLength (headers ++ [h]) =
      if h.1 = ascii "Content-Length" then (digitsValue h.2 : ℤ) else lastLength headers := by
  unfold lastLength
  rw [lastValue_concat]
  split_ifs <;> rfl

theorem lastClose_concat (headers : List (Bytes × Bytes)) (h : Bytes × Bytes) :
    lastClose (headers ++ [h]) =
      if h.1 = ascii "Connection" then decide (h.2 = ascii "close") else lastClose headers := by
  unfold lastClose
  rw [lastValue_concat]
  split_ifs <;> rfl

theorem Head.ofHeaders_add {method uri : Bytes} {headers : List (Bytes × Bytes)}
    {h : Bytes × Bytes} (hlength : GoodLengths [h]) :
    (Head.ofHeaders method uri headers).add h.1 h.2 = .ofHeaders method uri (headers ++ [h]) := by
  have hne : ascii "Connection" ≠ ascii "Content-Length" := by decide
  unfold Head.ofHeaders
  rw [lastLength_concat, lastClose_concat]
  by_cases hc : h.1 = ascii "Connection"
  · rw [if_pos hc, if_neg fun hl => hne (hc.symm.trans hl), Head.add, if_pos hc]
  · rw [if_neg hc, Head.add, if_neg hc]
    by_cases hl : h.1 = ascii "Content-Length"
    · obtain ⟨-, hd, hlt⟩ := hlength h (List.mem_singleton_self h) hl
      rw [if_pos hl, if_pos hl, stringToi_of_digits hd hlt]
    · rw [if_neg hl, if_neg hl]

/-- **Adding headers one by one gives the head with these headers.** -/
theorem Head.foldl_add {method uri : Bytes} {headers : List (Bytes × Bytes)}
    (h : GoodLengths headers) :
    headers.foldl (fun (head : Head) h => head.add h.1 h.2) (Head.ofStatusLine method uri) =
      Head.ofHeaders method uri headers := by
  induction headers using List.reverseRecOn with
  | nil => rfl
  | append_singleton headers p ih =>
    rw [List.foldl_append, ih fun x hx => h x (List.mem_append_left _ hx)]
    refine Head.ofHeaders_add fun x hx => h x (List.mem_append_right _ hx)

/-! ### Reading the head -/

/-- **The head reader on a request line, header lines and a blank line**, given what each line says:
`val x` is in the header line `line x`. -/
theorem headScan_of_lines {α : Type*} {cfg : Config} {xs : List α} {line : α → Bytes}
    {val : α → Bytes × Bytes} {status method uri : Bytes} (hstatus : LF ∉ status)
    (hfields : statusFields status = some (method, uri))
    (hlines : ∀ x ∈ xs, LF ∉ line x ∧ headerFields (line x) = some (val x))
    (hlengths : GoodLengths (xs.map val)) (hcount : xs.length ≤ cfg.maxHeadersCount)
    (rest : Bytes) :
    headScan cfg (unlines LF (status :: xs.map line ++ [[CR]]) ++ rest) =
      .stop (.accepted (.ofHeaders method uri (xs.map val)) []) rest := by
  have hbytes : unlines LF (status :: xs.map line ++ [[CR]]) ++ rest =
      status ++ LF :: (unlines LF (xs.map line) ++ ([CR] ++ LF :: rest)) := by
    rw [List.cons_append, unlines_cons, unlines_append]
    simp
  -- every line with a header in it is a header line
  have hheader : ∀ l ∈ xs.map line, LF ∉ l ∧ isHeaderLine l = true := by
    intro l hl
    obtain ⟨x, hx, rfl⟩ := List.mem_map.1 hl
    obtain ⟨hn, hf⟩ := hlines x hx
    refine ⟨hn, ?_⟩
    by_contra hno
    rw [headerFields_of_not_isHeaderLine (Bool.eq_false_iff.2 hno)] at hf
    cases hf
  have hadd : (xs.map line).foldl Head.addLine (.ofStatusLine method uri) =
      .ofHeaders method uri (xs.map val) := by
    rw [← Head.foldl_add hlengths, List.foldl_map, List.foldl_map]
    refine List.foldl_ext _ _ _ fun h x hx => ?_
    rw [Head.addLine, (hlines x hx).2]
  rw [hbytes, headScan, scan_line_of_inl hstatus (Head.line_statusLine hfields),
    scan_headerLines hheader (by simpa [Head.ofStatusLine] using hcount), hadd,
    scan_line_of_inr (by decide) (Head.line_blank (.inr rfl))]

namespace HiwReader

variable {cfg : Config} {s s' : HiwReader}

/-- What is left to be read as body is all that has been received behind the head. -/
def Ahead (cfg : Config) (s : HiwReader) : Prop :=
  s.phase = .returned true → s.bytesRead < cfg.maxHeaderSize →
    s.req.readAhead + s.req.readAheadLength = s.bytesRead

theorem ahead_of_phase (h : s.phase ≠ .returned true) : s.Ahead cfg := fun hp => absurd hp h

/-- The two ways to accept a head: at the separator, and with the buffer full. -/
theorem ahead_step (hv : Valid cfg s) (hi : Iter cfg s s') : s'.Ahead cfg := by
  cases hi with
  | longUri hp hr hbs hl hps hfull => exact fun _ hlt => absurd hlt (Nat.not_lt.2 hfull)
  | separator hp hl hc hs hlen =>
    intro _ _
    obtain ⟨-, hle⟩ := separator_pos hv.pos_le
    show ((s.separator.pos : ℤ) + ((s.bytesRead : ℤ) - s.separator.pos)) = s.bytesRead
    omega
  | waiting hp | refill hp => exact ahead_of_phase (by simp [received, hp])
  | statusLine hp => exact ahead_of_phase (by simp [enterHeaders])
  | header hp hl hc hs => exact ahead_of_phase (by simp [hp])
  | _ => exact ahead_of_phase (by simp [ret])

end HiwReader

namespace HiwRequest

variable {cfg : Config} {req : HiwRequest} {client c₁ : HiwClient}

/-- The parser on a head that arrives in one receive: it returns the head and leaves the rest. -/
theorem readHeaders_of_headScan {S rest : Bytes} {head : Head} (hf : req.Fresh cfg)
    (hr : client.recv cfg.maxHeaderSize = (some S, c₁)) (hS : S.length < cfg.maxHeaderSize)
    (hstop : headScan cfg S = .stop (.accepted head []) rest) :
    (req.readHeaders cfg client).phase = .returned true ∧
      (req.readHeaders cfg client).req.head = head ∧
      (req.readHeaders cfg client).req.readAheadBytes = rest ∧
      (req.readHeaders cfg client).req.readAheadLength = rest.length ∧
      (req.readHeaders cfg client).req.readAhead + rest.length = S.length := by
  obtain ⟨-, hread, hresult⟩ := result_readHeaders hf hr hS hstop
  have hv := valid_readHeaders hf client
  have hahead : (req.readHeaders cfg client).Ahead cfg := by
    refine (visited_readHeaders cfg req client).invariant (I := HiwReader.Ahead cfg) ?_ ?_
    · exact HiwReader.ahead_of_phase (by rw [HiwReader.start_eq hf]; simp)
    · exact fun u hu hnf _ => HiwReader.ahead_step (HiwReader.valid_of_visited hf hu)
        (HiwReader.iter_step hnf)
  set s := req.readHeaders cfg client
  rw [headOutcome, hstop] at hresult
  unfold HiwReader.result at hresult
  split at hresult
  · rename_i hp
    obtain ⟨hhead, hrest⟩ := HeadOutcome.accepted.inj hresult
    obtain ⟨-, hnonneg, -⟩ := hv.accepted hp
    -- the signed length that is stored is that of the bytes behind the head
    have hlength : s.req.readAheadLength = rest.length := by
      have hlen := congrArg List.length hrest
      rw [readAheadBytes, Buf.length_bytes] at hlen
      rw [List.nil_append] at hlen
      omega
    have hstop := hahead hp (by omega)
    exact ⟨hp, hhead, hrest, hlength, by omega⟩
  · cases hresult
  · cases hresult

end HiwRequest

/-! ### Heads with any blanks -/

/-- A header line as it is sent: blanks may stand around its name and its value. -/
structure RawHeader where
  name : Bytes
  value : Bytes
  name_solid : name = [] ∨ ∃ b ∈ name, HiwString.isspace b = false
  name_colon : 58 ∉ name
  name_line : LF ∉ name
  value_line : LF ∉ value

namespace RawHeader

/-- The line, without its line feed. -/
def line (h : RawHeader) : Bytes := h.name ++ 58 :: (h.value ++ [CR])

/-- What the line says. -/
def pair (h : RawHeader) : Bytes × Bytes := (trimmed h.name, trimmed h.value)

theorem trimmed_concat_cr (bs : Bytes) : trimmed (bs ++ [CR]) = trimmed bs := by
  have hcr : HiwString.isspace CR = true := by decide
  unfold trimmed
  rw [List.dropWhile_append]
  split_ifs with hnil
  · rw [List.isEmpty_iff.1 hnil, List.dropWhile_cons_of_pos hcr, List.dropWhile_nil]
  · rw [List.rdropWhile_concat_pos _ _ _ hcr]

theorem headerFields_line (h : RawHeader) : headerFields h.line = some h.pair := by
  have hname : trimWith HiwString.isspace 58 h.name = trimmed h.name := by
    rcases h.name_solid with hnil | hsolid
    · rw [hnil]
      rfl
    · exact trimWith_of_exists hsolid
  have hvalue : trimWith HiwString.isspace LF (h.value ++ [CR]) = trimmed h.value := by
    rw [trimWith_of_next (by decide)]
    exact trimmed_concat_cr h.value
  rw [headerFields, line, fields_append h.name_colon, fields]
  simp only [hname, hvalue, pair]

theorem not_mem_line (h : RawHeader) : LF ∉ h.line := by
  have hne : LF ≠ 58 ∧ LF ≠ CR := by decide
  simp [line, h.name_line, h.value_line, hne]

end RawHeader

/-- A request head. -/
structure RawHead where
  method : Bytes
  uri : Bytes
  headers : List RawHeader
  method_word : Word method
  uri_word : Word uri
  lengths : GoodLengths (headers.map RawHeader.pair)

namespace RawHead

/-- The request line, without its line feed. -/
def status (h : RawHead) : Bytes := h.method ++ 32 :: (h.uri ++ 32 :: (ascii "HTTP/1.1" ++ [CR]))

/-- The bytes of the head. -/
def bytes (h : RawHead) : Bytes := unlines LF (h.status :: h.headers.map RawHeader.line ++ [[CR]])

theorem statusFields_status (h : RawHead) : statusFields h.status = some (h.method, h.uri) :=
  h.method_word.statusFields h.uri_word

theorem not_mem_status (h : RawHead) : LF ∉ h.status := h.method_word.not_mem_status h.uri_word

end RawHead

namespace HiwRequest

/-- **Parsing one receive is exact.**  A head with at most as many header lines as the table has
entries, received at once with anything behind it, is accepted with exactly its method, uri and
pairs, the last Content-Length and the last Connection, and what is behind it as read-ahead. -/
theorem readHeaders_exact {cfg : Config} {req : HiwRequest} {client c₁ : HiwClient} {h : RawHead}
    {body : Bytes} (hf : req.Fresh cfg) (hcount : h.headers.length ≤ cfg.maxHeadersCount)
    (hr : client.recv cfg.maxHeaderSize = (some (h.bytes ++ body), c₁))
    (hlt : (h.bytes ++ body).length < cfg.maxHeaderSize) :
    (req.readHeaders cfg client).phase = .returned true ∧
      (req.readHeaders cfg client).req.head =
        .ofHeaders h.method h.uri (h.headers.map RawHeader.pair) ∧
      (req.readHeaders cfg client).req.readAheadBytes = body ∧
      (req.readHeaders cfg client).req.readAheadLength = body.length ∧
      (req.readHeaders cfg client).req.readAhead = h.bytes.length := by
  have hscan : headScan cfg (h.bytes ++ body) = .stop
      (.accepted (.ofHeaders h.method h.uri (h.headers.map RawHeader.pair)) []) body :=
    headScan_of_lines h.not_mem_status h.statusFields_status
      (fun x _ => ⟨x.not_mem_line, x.headerFields_line⟩) h.lengths hcount body
  obtain ⟨hp, hhead, hrest, hlen, hsum⟩ := readHeaders_of_headScan hf hr hlt hscan
  refine ⟨hp, hhead, hrest, hlen, ?_⟩
  rw [List.length_append] at hsum
  omega

/-- A head with a blank value and blanks around a name, in front of a body. -/
theorem readHeaders_exact_put :
    let s := (HiwRequest.init .default fun _ => 0).reset.readHeaders .default
      (.sending [ascii "PUT /a HTTP/1.1\r\n A\t: \r\nContent-Length: 2\r\n\r\nhi"])
    s.phase = .returned true ∧
      s.req.head = ⟨ascii "PUT", ascii "/a", [(ascii "A", []), (ascii "Content-Length", ascii "2")],
        2, true⟩ ∧ s.req.readAheadBytes = ascii "hi" := by
  let h : RawHead := ⟨ascii "PUT", ascii "/a",
    [⟨ascii " A\t", ascii " ", .inr ⟨65, by decide⟩, by decide, by decide, by decide⟩,
      ⟨ascii "Content-Length", ascii " 2", .inr ⟨67, by decide⟩, by decide, by decide,
        by decide⟩], by decide, by decide, by decide +kernel⟩
  have hr : (HiwClient.sending [h.bytes ++ ascii "hi"]).recv Config.default.maxHeaderSize =
      (some (h.bytes ++ ascii "hi"), .sending []) := by decide +kernel
  obtain ⟨hp, hhead, hbody, -⟩ := readHeaders_exact (h := h)
    (fresh_reset rfl rfl : (HiwRequest.init .default fun _ => 0).reset.Fresh .default)
    (by decide) hr (by decide +kernel)
  exact ⟨hp, hhead.trans (by decide +kernel), hbody⟩

end HiwRequest

end Highway
