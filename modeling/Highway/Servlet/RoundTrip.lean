import Highway.Servlet.Exact
import Highway.Servlet.ResponseLog

/-!
# Reading back the head of a response

What `hiw_response_flush_headers` sends is read back by `hiw_internal_request_read_headers` : with a
request line in the place of its status line, the head of a response is parsed to the header list,
the content length and the kind of connection that the response has
(`HiwResponse.flush_readBack`).

The headers have to be `Readable`.  Of those that the library adds, this holds by itself; of the
others the caller takes care (`HiwResponse.ReadableOp`).
-/

namespace Highway

open Lib

/-- There is no whitespace at the ends of the string. -/
def Bare (bs : Bytes) : Prop :=
  (∀ b ∈ bs.head?, HiwString.isspace b = false) ∧ ∀ b ∈ bs.getLast?, HiwString.isspace b = false

instance (bs : Bytes) : Decidable (Bare bs) :=
  @instDecidableAnd _ _ (Option.decidableForallMem _) (Option.decidableForallMem _)

/-- A header that survives being written and read. -/
def Readable (h : Bytes × Bytes) : Prop :=
  58 ∉ h.1 ∧ LF ∉ h.1 ∧ LF ∉ h.2 ∧ Bare h.1 ∧ Bare h.2

instance (h : Bytes × Bytes) : Decidable (Readable h) := inferInstanceAs (Decidable (_ ∧ _))

namespace HiwResponse

variable {cfg : Config} {r r' : HiwResponse} {name value : Bytes}

/-! ### The headers stay readable -/

/-- All headers of the response are readable. -/
def AllReadable (r : HiwResponse) : Prop := ∀ h ∈ r.headers, Readable h

/-- The operation, performed on `r`, leaves readable headers readable. -/
def Keeps (r : HiwResponse) (f : Option (Bool × HiwResponse)) : Prop :=
  ∀ b r', f = some (b, r') → r.AllReadable → r'.AllReadable

/-- The headers that an operation passes to `hiw_response_write_header` are readable, and lengths
are not negative. -/
def ReadableOp : Op → Prop
  | .writeHeader name value => Readable (name, value)
  | .setContentType mimeType => Readable (ascii "Content-Type", mimeType)
  | .setContentLength len => 0 ≤ len ∧ len < 2 ^ 31
  | _ => True

instance : DecidablePred ReadableOp
  | .writeHeader name value => inferInstanceAs (Decidable (Readable (name, value)))
  | .setContentType mimeType => inferInstanceAs (Decidable (Readable (_, mimeType)))
  | .setContentLength len => inferInstanceAs (Decidable (0 ≤ len ∧ len < 2 ^ 31))
  | .setStatusCode _ | .setConnectionClose _ | .writeBodyRaw _ _ | .flushHeaders =>
    inferInstanceAs (Decidable True)

theorem nonnegLength_of_readableOp {op : Op} (h : ReadableOp op) : NonnegLength op := by
  cases op with
  | setContentLength len => exact h
  | _ => trivial

theorem keeps_self (b : Bool) (h : r'.headers = r.headers) : Keeps r (some (b, r')) := by
  rintro _ _ ⟨⟩ hr
  rw [AllReadable, h]
  exact hr

theorem keeps_error (r : HiwResponse) : Keeps r (some r.error) := keeps_self _ rfl

theorem Keeps.andThen {f : Option (Bool × HiwResponse)}
    {g : HiwResponse → Option (Bool × HiwResponse)} (hf : Keeps r f) (hg : ∀ r₁, Keeps r₁ (g r₁)) :
    Keeps r (andThen f g) := by
  intro b r' h hr
  match f, hf, h with
  | some (false, r₁), hf, h =>
    cases h
    have h₁ := hf false r₁ rfl hr
    exact h₁
  | some (true, r₁), hf, h => exact hg r₁ b r' h (hf _ _ rfl hr)

theorem keeps_ite {p : Prop} [Decidable p] {f g : Option (Bool × HiwResponse)} (hf : Keeps r f)
    (hg : Keeps r g) : Keeps r (if p then f else g) := by
  split_ifs
  · exact hf
  · exact hg

theorem keeps_writeRaw (r : HiwResponse) (src : Bytes) : Keeps r (r.writeRaw src) := by
  unfold writeRaw
  split
  · rintro _ _ ⟨⟩
  · exact keeps_self _ rfl
  · exact keeps_self _ rfl

theorem keeps_copyHeader (h : Readable (name, value)) : Keeps r (r.copyHeader name value) := by
  unfold copyHeader
  refine Keeps.andThen ?_ fun r₁ => (keeps_writeRaw r₁ _).andThen fun r₂ =>
    (keeps_writeRaw r₂ _).andThen fun r₃ => (keeps_writeRaw r₃ _).andThen fun r₄ => ?_
  · exact keeps_ite (keeps_self _ rfl)
      (Keeps.andThen ((keeps_writeRaw r _).andThen fun r₁ => keeps_writeRaw r₁ _)
        fun _ => keeps_self _ rfl)
  · rintro _ _ ⟨⟩ hr x hx
    rcases List.mem_append.1 hx with hx | hx
    · exact hr x hx
    · rw [List.mem_singleton.1 hx]
      exact h

theorem keeps_writeHeader (h : Readable (name, value)) : Keeps r (r.writeHeader cfg name value) :=
  keeps_ite (keeps_error r) (keeps_ite (keeps_error r) (keeps_ite (keeps_error r)
    (keeps_ite (keeps_error r) (keeps_copyHeader h))))

theorem not_isspace_of_isDigit {b : UInt8} (h : isDigit b = true) :
    HiwString.isspace b = false := by
  simp only [isDigit, Bool.and_eq_true, decide_eq_true_eq] at h
  have hne : ∀ c : UInt8, c.toNat < 48 → b ≠ c := by
    rintro c hc rfl
    omega
  simp [HiwString.isspace, hne CR (by decide), hne LF (by decide), hne 32 (by decide),
    hne 9 (by decide)]

theorem readable_contentLength {len : ℤ} (h₀ : 0 ≤ len) (h : len < 2 ^ 31) :
    Readable (ascii "Content-Length", lengthValue len) := by
  rw [lengthValue_eq h₀ h]
  have hdigits : ∀ b ∈ decimal len.toNat, HiwString.isspace b = false := fun b hb =>
    not_isspace_of_isDigit (isDigit_of_mem_decimal hb)
  have hname : 58 ∉ ascii "Content-Length" ∧ LF ∉ ascii "Content-Length" ∧
      Bare (ascii "Content-Length") := by decide
  refine ⟨hname.1, hname.2.1, fun hmem => ?_, hname.2.2, fun b hb => ?_, fun b hb => ?_⟩
  · exact absurd (hdigits LF hmem) (by decide)
  · exact hdigits b (List.mem_of_mem_head? hb)
  · exact hdigits b (List.mem_of_mem_getLast? hb)

theorem readable_connection (close : Bool) :
    Readable (ascii "Connection", connectionValue close) := by
  cases close <;> decide

theorem readable_server (cfg : Config) :
    Readable (serverHeaderName cfg, serverHeaderValue cfg) := by
  unfold serverHeaderName serverHeaderValue
  split_ifs <;> decide

theorem keeps_setContentLength {len : ℤ} (h₀ : 0 ≤ len) (h : len < 2 ^ 31) :
    Keeps r (r.setContentLength cfg len) :=
  keeps_ite (keeps_self _ rfl)
    ((keeps_writeHeader (readable_contentLength h₀ h)).andThen fun _ => keeps_self _ rfl)

theorem keeps_setConnectionClose (close : Bool) : Keeps r (r.setConnectionClose cfg close) :=
  keeps_ite (keeps_self _ rfl)
    ((keeps_writeHeader (readable_connection close)).andThen fun _ => keeps_self _ rfl)

theorem keeps_sendHead (r : HiwResponse) : Keeps r (some r.sendHead) := by
  obtain ⟨ok, client, heq⟩ := sendHead_eq r
  rw [heq]
  exact keeps_self _ rfl

theorem keeps_sendBody (r : HiwResponse) (src : Bytes) (n : ℤ) :
    Keeps r (some (r.sendBody src n)) := by
  obtain ⟨ok, client, error, heq⟩ := sendBody_eq r src n
  have hheaders : (r.sendBody src n).2.headers = r.headers := by rw [heq]
  exact keeps_self _ hheaders

theorem keeps_flushHeaders (r : HiwResponse) : Keeps r (r.flushHeaders cfg) := by
  refine keeps_ite (keeps_self _ rfl) (keeps_ite (keeps_self _ rfl) ?_)
  refine Keeps.andThen ?_ fun r₁ => Keeps.andThen ?_ fun r₂ => Keeps.andThen ?_ fun r₃ =>
    (keeps_writeRaw r₃ _).andThen fun r₄ => keeps_sendHead r₄
  · exact keeps_ite (keeps_self _ rfl) (keeps_setContentLength le_rfl (by decide))
  · exact keeps_ite (keeps_self _ rfl) (keeps_setConnectionClose _)
  · exact keeps_ite (keeps_writeHeader (readable_server cfg)) (keeps_self _ rfl)

/-- **Every operation leaves the headers readable.** -/
theorem AllReadable.step {op : Op} (h : r.AllReadable) (hop : ReadableOp op)
    (hstep : step cfg r op = some r') : r'.AllReadable := by
  obtain ⟨⟨b, r'⟩, hperform, rfl⟩ := Option.map_eq_some_iff.1 hstep
  suffices hkeeps : Keeps r (r.perform cfg op) from hkeeps b r' hperform h
  cases op with
  | setStatusCode status =>
    exact keeps_ite (keeps_error r) (keeps_ite (keeps_error r) (keeps_self _ rfl))
  | writeHeader name value => exact keeps_writeHeader hop
  | setContentType mimeType => exact keeps_writeHeader hop
  | setContentLength len => exact keeps_setContentLength hop.1 hop.2
  | setConnectionClose close => exact keeps_setConnectionClose close
  | writeBodyRaw src n =>
    refine Keeps.andThen ?_ fun r₁ => keeps_sendBody r₁ src n
    exact keeps_ite (keeps_self _ rfl) (keeps_ite (keeps_error r) (keeps_flushHeaders r))
  | flushHeaders => exact keeps_flushHeaders r

/-! ### The text of the first head -/

/-- As long as no head has been handed over, the memory holds the text of the fields; so the first
head that is handed over is the text of well-formed fields. -/
structure Draft (cfg : Config) (r : HiwResponse) : Prop where
  table : Table cfg NonnegLength r
  blank : r.handed.filter Handed.isHead = [] → r.flags.statusCodeSet = false →
    r.headers = [] ∧ r.content = []
  text : r.handed.filter Handed.isHead = [] → r.flags.statusCodeSet = true →
    r.content = statusLine r.statusCode ++ r.headers.flatMap headerLine
  heads : (r.handed.filter Handed.isHead).length ≤ 1 →
    ∀ fields bytes ok, .head fields bytes ok ∈ r.handed →
      bytes = fields.head ∧ fields.WellFormed cfg ∧ fields.contentLength < 2 ^ 31

theorem draft_start (m : Buf) (client : HiwClient) (close : Bool) :
    Draft cfg (start cfg m client close) :=
  ⟨table_start m client close, fun _ _ => ⟨rfl, rfl⟩, fun _ h => Bool.noConfusion h,
    fun _ _ _ _ h => by cases h⟩

theorem Draft.begun (h : Draft cfg r) (hnone : r.handed.filter Handed.isHead = []) :
    r.begun.content = statusLine r.statusCode ++ r.headers.flatMap headerLine :=
  content_begun_eq (h.blank hnone) (h.text hnone)

theorem Draft.accept (h : Draft cfg r) (hacc : r.Accepts cfg name) :
    Draft cfg (r.accept name value) := by
  refine ⟨h.table.accept hacc, fun _ hset => ?_, fun hnone _ => ?_, ?_⟩
  · simp at hset
  · rw [handed_accept] at hnone
    exact content_accept_eq (h.begun hnone)
  · rw [handed_accept]
    exact h.heads

theorem Draft.concluded (h : Draft cfg r) (hnone : r.handed.filter Handed.isHead = [])
    (hlen : r.flags.contentLengthSet = true)
    (hserver : cfg.writeServerHeader = true → r.Accepts cfg (serverHeaderName cfg)) :
    (r.concluded cfg).content = (r.concluded cfg).toResponseFields.head := by
  have htext : ∀ r : HiwResponse, Draft cfg r → r.handed.filter Handed.isHead = [] →
      r.flags.contentLengthSet = true → (r.append crlf).content = r.toResponseFields.head := by
    intro r hr hnone hlen
    -- the length is in the table, so something was written
    have hset : r.flags.statusCodeSet = true := by
      by_contra hno
      have hmem := (hr.table.length hlen).1
      rw [(hr.blank hnone (by simpa using hno)).1] at hmem
      cases hmem
    exact content_append_crlf (hr.text hnone hset)
  unfold HiwResponse.concluded
  split_ifs with hw
  · exact htext _ (h.accept (hserver hw)) (by simpa using hnone) (by simpa using hlen)
  · exact htext r h hnone hlen

theorem Draft.change (hc : Change cfg NonnegLength r r') (h : Draft cfg r) : Draft cfg r' := by
  have htable := h.table.change hc
  cases hc with
  | fail => exact ⟨htable, h.blank, h.text, h.heads⟩
  | status status hs hset =>
    exact ⟨htable, h.blank, fun _ hset' => absurd (hset.symm.trans hset') (by simp), h.heads⟩
  | header name value hacc => exact h.accept hacc
  | length => exact ⟨htable, h.blank, h.text, h.heads⟩
  | connection => exact ⟨htable, h.blank, h.text, h.heads⟩
  | head hP hs hlen hconn hserver =>
    obtain ⟨ok, client, heq⟩ := sendHead_eq (r.concluded cfg)
    rw [heq] at htable ⊢
    have hfilter : ∀ e : Handed, e.isHead = true →
        ((r.concluded cfg).handed ++ [e]).filter Handed.isHead =
          r.handed.filter Handed.isHead ++ [e] := by
      intro e he
      rw [handed_concluded, List.filter_append, List.filter_cons_of_pos he, List.filter_nil]
    refine ⟨htable, fun hnone => ?_, fun hnone => ?_, fun honce fields bytes ok' hmem => ?_⟩
    · exact absurd ((hfilter _ rfl).symm.trans hnone)
        (List.append_ne_nil_of_right_ne_nil _ (by simp))
    · exact absurd ((hfilter _ rfl).symm.trans hnone)
        (List.append_ne_nil_of_right_ne_nil _ (by simp))
    · -- there was no head before
      have hnone : r.handed.filter Handed.isHead = [] := by
        rw [hfilter _ rfl, List.length_append, List.length_singleton] at honce
        exact List.length_eq_zero_iff.1 (by omega)
      rcases List.mem_append.1 hmem with hmem | hmem
      · rw [handed_concluded] at hmem
        have hhead : Handed.head fields bytes ok' ∈ r.handed.filter Handed.isHead :=
          List.mem_filter.2 ⟨hmem, rfl⟩
        rw [hnone] at hhead
        cases hhead
      · obtain ⟨rfl, rfl, rfl⟩ : fields = (r.concluded cfg).toResponseFields ∧
            bytes = (r.concluded cfg).content ∧ ok' = ok := by simpa using hmem
        have hc := h.table.concluded hserver
        have hset : (r.concluded cfg).flags.contentLengthSet = true := by simpa using hlen
        exact ⟨h.concluded hnone hlen hserver, hc.wellFormed hset (by simpa using hconn),
          (hc.length hset).2.2⟩
  | body src n hP hs =>
    obtain ⟨ok, client, error, heq⟩ := sendBody_eq r src n
    rw [heq] at htable ⊢
    have hfilter := filter_isHead_body r.handed (src.take n.toNat) n r.contentBytesLeft ok
    refine ⟨htable, fun hnone => h.blank (hfilter.symm.trans hnone),
      fun hnone => h.text (hfilter.symm.trans hnone), fun honce fields bytes ok' hmem => ?_⟩
    rcases List.mem_append.1 hmem with hmem | hmem
    · exact h.heads (hfilter ▸ honce) fields bytes ok' hmem
    · simp at hmem

end HiwResponse

/-! ### Reading it back -/

/-- The line of a header, without its line feed. -/
def textLine (h : Bytes × Bytes) : Bytes := h.1 ++ 58 :: (32 :: (h.2 ++ [CR]))

theorem Readable.not_mem_textLine {h : Bytes × Bytes} (hr : Readable h) : LF ∉ textLine h := by
  obtain ⟨-, hname, hvalue, -, -⟩ := hr
  have hne : LF ≠ 58 ∧ LF ≠ 32 ∧ LF ≠ CR := by decide
  simp [textLine, hname, hvalue, hne]

theorem Readable.headerFields_textLine {h : Bytes × Bytes} (hr : Readable h) :
    headerFields (textLine h) = some h := by
  obtain ⟨hcolon, -, -, hname, hvalue⟩ := hr
  have htrim : ∀ b a v : Bytes, (∀ x ∈ b, HiwString.isspace x = true) →
      (∀ x ∈ a, HiwString.isspace x = true) → Bare v →
      ((b ++ (v ++ a)).dropWhile HiwString.isspace).rdropWhile HiwString.isspace = v :=
    fun b a v hb ha hv => trim_append hb ha hv.1 hv.2
  have hn : trimWith HiwString.isspace 58 h.1 = h.1 := by
    by_cases hnil : h.1 = []
    · rw [hnil]
      rfl
    · obtain ⟨x, hx⟩ := Option.isSome_iff_exists.1 (List.isSome_head?.2 hnil)
      rw [trimWith_of_exists ⟨x, List.mem_of_mem_head? hx, hname.1 x hx⟩]
      simpa using htrim [] [] h.1 (by simp) (by simp) hname
  have hv : trimWith HiwString.isspace LF (32 :: (h.2 ++ [CR])) = h.2 := by
    rw [trimWith_of_next (by decide)]
    exact htrim [32] [CR] h.2 (List.forall_mem_singleton.2 (by decide))
      (List.forall_mem_singleton.2 (by decide)) hvalue
  rw [headerFields, textLine, fields_append hcolon, fields]
  simp only [hn, hv]

namespace ResponseFields

variable {cfg : Config} {fields : ResponseFields}

theorem head_eq (fields : ResponseFields) :
    fields.head = (ascii "HTTP/1.1 " ++ ascii (HiwResponse.statusText fields.statusCode) ++ [CR]) ++
      LF :: unlines LF (fields.headers.map textLine ++ [[CR]]) := by
  have hlines : fields.headers.flatMap (fun h => h.1 ++ ascii ": " ++ h.2 ++ HiwResponse.crlf) =
      unlines LF (fields.headers.map textLine) := by
    rw [unlines, List.map_map, ← List.flatMap_def]
    refine congrArg (fields.headers.flatMap ·) (funext fun h => ?_)
    have hsep : ascii ": " = [58, 32] := by decide
    simp [textLine, hsep, HiwResponse.crlf]
  rw [head, hlines, unlines_append]
  simp [HiwResponse.crlf]

/-- Behind any request line in the place of the status line, the bytes are parsed to these
fields. -/
def ReadBack (cfg : Config) (fields : ResponseFields) (head : Bytes) : Prop :=
  ∃ status rest, head = status ++ LF :: rest ∧ LF ∉ status ∧
    ∀ line method uri, LF ∉ line → statusFields line = some (method, uri) →
    ∀ (req : HiwRequest) (client c₁ : HiwClient), req.Fresh cfg →
      client.recv cfg.maxHeaderSize = (some (line ++ LF :: rest), c₁) →
      (line ++ LF :: rest).length < cfg.maxHeaderSize →
      (req.readHeaders cfg client).phase = .returned true ∧
        (req.readHeaders cfg client).req.head =
          ⟨method, uri, fields.headers, fields.contentLength, fields.connectionClose⟩

theorem statusText_line (statusCode : ℤ) : LF ∉ ascii (HiwResponse.statusText statusCode) := by
  unfold HiwResponse.statusText
  split_ifs <;> decide

theorem WellFormed.ofHeaders (h : fields.WellFormed cfg) (method uri : Bytes) :
    Head.ofHeaders method uri fields.headers =
      ⟨method, uri, fields.headers, fields.contentLength, fields.connectionClose⟩ := by
  have hlength : lastLength fields.headers = fields.contentLength := by
    rw [lastLength, lastValue, h.length]
    show (digitsValue (decimal fields.contentLength.toNat) : ℤ) = fields.contentLength
    rw [digitsValue_decimal]
    exact Int.toNat_of_nonneg h.nonneg
  have hclose : lastClose fields.headers = fields.connectionClose := by
    rw [lastClose, lastValue, h.connection]
    cases fields.connectionClose <;> rfl
  rw [Head.ofHeaders, hlength, hclose]

theorem WellFormed.goodLengths (h : fields.WellFormed cfg) (hlt : fields.contentLength < 2 ^ 31) :
    GoodLengths fields.headers := by
  intro x hx hname
  have hmem : x ∈ fields.headers.filter fun h => h.1 = ascii "Content-Length" :=
    List.mem_filter.2 ⟨hx, by simpa using hname⟩
  rw [h.length, List.mem_singleton] at hmem
  rw [hmem]
  refine ⟨decimal_ne_nil _, fun b hb => isDigit_of_mem_decimal hb, ?_⟩
  have hnonneg := h.nonneg
  rw [digitsValue_decimal]
  omega

/-- **The head of well-formed and readable fields is read back.** -/
theorem WellFormed.readBack (h : fields.WellFormed cfg) (hlt : fields.contentLength < 2 ^ 31)
    (hreadable : ∀ x ∈ fields.headers, Readable x) : fields.ReadBack cfg fields.head := by
  refine ⟨_, _, fields.head_eq, ?_, ?_⟩
  · have hne : LF ∉ ascii "HTTP/1.1 " ∧ LF ≠ CR := by decide
    simp [statusText_line, hne]
  · intro line method uri hline hfields req client c₁ hfresh hr hS
    have hscan : headScan cfg (unlines LF (line :: fields.headers.map textLine ++ [[CR]]) ++ []) =
        .stop (.accepted (.ofHeaders method uri (fields.headers.map id)) []) [] :=
      headScan_of_lines hline hfields
        (fun x hx => ⟨(hreadable x hx).not_mem_textLine, (hreadable x hx).headerFields_textLine⟩)
        (by simpa using h.goodLengths hlt) h.count []
    rw [List.append_nil, List.map_id, List.cons_append, unlines_cons] at hscan
    obtain ⟨hp, hhead, -⟩ := HiwRequest.readHeaders_of_headScan hfresh hr hS hscan
    exact ⟨hp, hhead.trans (h.ofHeaders method uri)⟩

end ResponseFields

namespace HiwResponse

variable {cfg : Config} {r r₀ : HiwResponse}

/-- **Decoding a head undoes encoding it.**  After any run of operations with readable headers and
a flush that succeeds, the head that was sent is that of the response, and it is read back.  (A
build without the `Server` header does not notice that a head has been handed over before; there,
this one is to be the first.) -/
theorem flush_readBack {m : Buf} {client : HiwClient} {close : Bool} {ops : List Op}
    (hops : ∀ op ∈ ops, ReadableOp op)
    (hrun : runLabels (step cfg) (start cfg m client close) ops = some r₀)
    (hflush : r₀.flushHeaders cfg = some (true, r))
    (hfirst : cfg.writeServerHeader = true ∨ (r.handed.filter Handed.isHead).length ≤ 1) :
    ∃ bytes, .head r.toResponseFields bytes true ∈ r.handed ∧
      r.toResponseFields.ReadBack cfg bytes := by
  have hbase : (start cfg m client close).Base := base_start m client close
  have hops' : ∀ op ∈ ops ++ [.flushHeaders], ReadableOp op := by
    intro op hop
    rcases List.mem_append.1 hop with hop | hop
    · exact hops op hop
    · rw [List.mem_singleton.1 hop]
      trivial
  have hnonneg : ∀ op ∈ ops ++ [.flushHeaders], NonnegLength op :=
    fun op hop => nonnegLength_of_readableOp (hops' op hop)
  have hzero : NonnegLength (.setContentLength 0) := ⟨le_rfl, by decide⟩
  have hrun' : runLabels (step cfg) (start cfg m client close) (ops ++ [.flushHeaders]) =
      some r := by
    have hstep : step cfg r₀ .flushHeaders = some r := congrArg (Option.map Prod.snd) hflush
    rw [runLabels_append, hrun, Option.bind_some, runLabels_cons, hstep]
    rfl
  have hdraft : Draft cfg r := invariant_of_run hbase hnonneg hzero (draft_start m client close)
    (fun _ _ hc h => h.change hc) hrun'
  have hlog : Log NonnegLength r := invariant_of_run hbase hnonneg hzero (log_start m client close)
    (fun _ _ hc h => h.change hc) hrun'
  -- a second flush is refused at its `Server` header, so it hands nothing over
  have honce : (r.handed.filter Handed.isHead).length ≤ 1 := by
    refine hfirst.elim (fun hw => ?_) id
    exact (invariant_of_run hbase hnonneg hzero (once_start m client close)
      (fun _ _ hc h => Once.change hw hc h) hrun').once
  have hreadable : r.AllReadable :=
    invariant_of_runLabels (fun _ _ op hop h => h.step (hops' op hop)) (fun _ hx => by cases hx)
      hrun'
  have hbase₀ : r₀.Base := base_of_changes (changes_of_run hbase
    (fun op hop => nonnegLength_of_readableOp (hops op hop)) hzero hrun) hbase
  have hsent : r.flags.headersSent = true :=
    (does_flushHeaders (P := NonnegLength) hbase₀ (.inl trivial) hzero _ _ hflush).2 rfl
  obtain ⟨-, tries, bytes, bodies, hhanded, -, -⟩ := hlog.sent hsent
  have hmem : .head r.toResponseFields bytes true ∈ r.handed := by
    rw [hhanded]
    simp
  obtain ⟨rfl, hwf, hlt⟩ := hdraft.heads honce _ _ _ hmem
  exact ⟨_, hmem, hwf.readBack hlt hreadable⟩

/-- A response with a header whose value is empty. -/
theorem flush_readBack_empty : ∃ r₀ r bytes,
    runLabels (step .default) (start .default (fun _ => 0) ⟨[], [.accept 200], []⟩ false)
      [.setStatusCode 200, .setContentType (ascii "text/html"), .writeHeader (ascii "A") []] =
        some r₀ ∧
    r₀.flushHeaders .default = some (true, r) ∧
    .head r.toResponseFields bytes true ∈ r.handed ∧
    r.toResponseFields.ReadBack .default bytes := by
  have hsome : ((runLabels (step .default)
      (start .default (fun _ => 0) ⟨[], [.accept 200], []⟩ false)
      [.setStatusCode 200, .setContentType (ascii "text/html"), .writeHeader (ascii "A") []]).bind
        fun r₀ => (r₀.flushHeaders .default).filter Prod.fst).isSome = true := by decide +kernel
  obtain ⟨⟨b, r⟩, hr⟩ := Option.isSome_iff_exists.1 hsome
  obtain ⟨r₀, hrun, hr⟩ := Option.bind_eq_some_iff.1 hr
  obtain ⟨hflush, hb⟩ := Option.filter_eq_some_iff.1 hr
  obtain rfl : b = true := hb
  obtain ⟨bytes, hmem, hread⟩ := flush_readBack (by decide) hrun hflush (.inl rfl)
  exact ⟨r₀, r, bytes, hrun, hflush, hmem, hread⟩

end HiwResponse

end Highway
