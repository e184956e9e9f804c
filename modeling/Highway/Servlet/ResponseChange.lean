import Highway.Servlet.Response

/-!
# What the operations do to a response

Every operation, successful or not, is a sequence of the changes that `HiwResponse.Change` lists,
each with what the code has checked when it makes it (`HiwResponse.changes_of_run`).  An invariant
of responses is then one case for each kind of change, whatever the order of the calls.

The memory of a response is a fixed block.  A request to it is served or has no defined result
(`HiwMemory.get_fixed`), so a copy that returns has appended its bytes.
-/

namespace Highway

open Lib Relation

namespace HiwResponse

variable {cfg : Config} {r r' : HiwResponse} {name value : Bytes} {b : Bool}

/-! ### Appending to the memory -/

/-- The response with the error flag. -/
def failed (r : HiwResponse) : HiwResponse := { r with flags := { r.flags with error := true } }

/-- The response with `src` at the end of its memory. -/
def append (r : HiwResponse) (src : Bytes) : HiwResponse :=
  { r with
    memory := { r.memory with pos := r.memory.pos + src.length }
    memoryFixed := r.memoryFixed.write r.memory.pos src }

section append

variable (r : HiwResponse) (src : Bytes)

@[simp] theorem toResponseFields_append :
    (r.append src).toResponseFields = r.toResponseFields := rfl

@[simp] theorem flags_append : (r.append src).flags = r.flags := rfl

@[simp] theorem contentBytesLeft_append :
    (r.append src).contentBytesLeft = r.contentBytesLeft := rfl

@[simp] theorem handed_append : (r.append src).handed = r.handed := rfl

@[simp] theorem resizeBytes_append :
    (r.append src).memory.resizeBytes = r.memory.resizeBytes := rfl

@[simp] theorem content_append : (r.append src).content = r.content ++ src :=
  Buf.bytes_zero_write_append

end append

theorem writeRaw_eq {src : Bytes} (hm : r.memory.resizeBytes = -1)
    (h : r.writeRaw src = some (b, r')) : b = true ∧ r' = r.append src := by
  unfold writeRaw at h
  split at h
  · cases h
  · rename_i hget
    exact absurd (HiwMemory.get_fixed hm hget).2.1 (by simp)
  · rename_i hget
    obtain ⟨-, hdest, rfl⟩ := HiwMemory.get_fixed hm hget
    cases hdest
    cases h
    exact ⟨rfl, rfl⟩

/-- A step that can only return one way, in front of other steps: when they return, they have
worked on its result. -/
theorem andThen_eq_of {f : Option (Bool × HiwResponse)} {r₂ : HiwResponse}
    {g : HiwResponse → Option (Bool × HiwResponse)}
    (hf : ∀ ok r₁, f = some (ok, r₁) → ok = true ∧ r₁ = r₂)
    (h : andThen f g = some (b, r')) : g r₂ = some (b, r') := by
  match f, hf, h with
  | none, _, h => cases h
  | some (ok, r₁), hf, h =>
    obtain ⟨rfl, rfl⟩ := hf ok r₁ rfl
    exact h

theorem andThen_writeRaw {src : Bytes} {g : HiwResponse → Option (Bool × HiwResponse)}
    (hm : r.memory.resizeBytes = -1) (h : andThen (r.writeRaw src) g = some (b, r')) :
    g (r.append src) = some (b, r') :=
  andThen_eq_of (fun _ _ => writeRaw_eq hm) h

/-- The status line for a status code. -/
def statusLine (statusCode : ℤ) : Bytes :=
  ascii "HTTP/1.1 " ++ (ascii (statusText statusCode) ++ crlf)

/-- The line of a header. -/
def headerLine (h : Bytes × Bytes) : Bytes := h.1 ++ (ascii ": " ++ (h.2 ++ crlf))

/-- The response with a status line in front of its headers, written if it is not there yet. -/
def begun (r : HiwResponse) : HiwResponse :=
  if r.flags.statusCodeSet then r
  else
    let r := (r.append (ascii "HTTP/1.1 ")).append (ascii (statusText r.statusCode) ++ crlf)
    { r with flags := { r.flags with statusCodeSet := true } }

/-- The response with a header accepted. -/
def accept (r : HiwResponse) (name value : Bytes) : HiwResponse :=
  let r' := ((r.begun.append name).append (ascii ": ")).append (value ++ crlf)
  { r' with headers := r.headers ++ [(name, value)] }

section accept

variable (r : HiwResponse) (name value : Bytes)

@[simp] theorem toResponseFields_begun : r.begun.toResponseFields = r.toResponseFields := by
  unfold begun; split <;> rfl

@[simp] theorem flags_begun : r.begun.flags = { r.flags with statusCodeSet := true } := by
  unfold begun
  split
  · rename_i h
    rw [← h]
  · rfl

@[simp] theorem contentBytesLeft_begun : r.begun.contentBytesLeft = r.contentBytesLeft := by
  unfold begun; split <;> rfl

@[simp] theorem handed_begun : r.begun.handed = r.handed := by
  unfold begun; split <;> rfl

@[simp] theorem resizeBytes_begun : r.begun.memory.resizeBytes = r.memory.resizeBytes := by
  unfold begun; split <;> rfl

theorem content_begun :
    r.begun.content =
      if r.flags.statusCodeSet then r.content else r.content ++ statusLine r.statusCode := by
  unfold begun
  split
  · rfl
  · show ((r.append _).append _).content = _
    rw [content_append, content_append, statusLine, List.append_assoc]

@[simp] theorem toResponseFields_accept :
    (r.accept name value).toResponseFields =
      { r.toResponseFields with headers := r.headers ++ [(name, value)] } := by
  show ({ r.begun.toResponseFields with headers := r.headers ++ [(name, value)] } :
    ResponseFields) = _
  rw [toResponseFields_begun]

@[simp] theorem flags_accept :
    (r.accept name value).flags = { r.flags with statusCodeSet := true } := flags_begun r

@[simp] theorem contentBytesLeft_accept :
    (r.accept name value).contentBytesLeft = r.contentBytesLeft := contentBytesLeft_begun r

@[simp] theorem handed_accept : (r.accept name value).handed = r.handed := handed_begun r

@[simp] theorem resizeBytes_accept :
    (r.accept name value).memory.resizeBytes = r.memory.resizeBytes := resizeBytes_begun r

theorem content_accept :
    (r.accept name value).content = r.begun.content ++ headerLine (name, value) := by
  show (((r.begun.append _).append _).append _).content = _
  simp only [content_append, headerLine, List.append_assoc]

end accept

/-! ### The changes -/

/-- The checks of `hiw_response_write_header`. -/
structure Accepts (cfg : Config) (r : HiwResponse) (name : Bytes) : Prop where
  unsent : r.flags.headersSent = false
  count : r.headers.length < cfg.maxHeadersCount
  fresh : name ∉ r.headers.map Prod.fst
  statusCode : r.statusCode ≠ 0

/-- The response when the head is handed over: with the `Server` header, if the build writes it,
and the empty line. -/
def concluded (cfg : Config) (r : HiwResponse) : HiwResponse :=
  (if cfg.writeServerHeader then r.accept (serverHeaderName cfg) (serverHeaderValue cfg)
    else r).append crlf

/-- The response after a length was accepted. -/
def withLength (r : HiwResponse) (len : ℤ) : HiwResponse :=
  { r with
    contentLength := len
    contentBytesLeft := len
    flags := { r.flags with contentLengthSet := true } }

/-- The response after the kind of connection was settled. -/
def withConnection (r : HiwResponse) (close : Bool) : HiwResponse :=
  { r with
    flags := { r.flags with connectionSet := true }
    connectionClose := close }

/-- The text written for a length. -/
def lengthValue (len : ℤ) : Bytes := (uitoc 10 (len % 2 ^ 32).toNat).getD []

/-- The text written for the kind of connection. -/
def connectionValue (close : Bool) : Bytes := if close then ascii "close" else ascii "keep-alive"

/-- The changes made by operations that meet `P`. -/
inductive Change (cfg : Config) (P : Op → Prop) : HiwResponse → HiwResponse → Prop
  | fail (r : HiwResponse) : Change cfg P r r.failed
  | status (r : HiwResponse) (status : ℤ) (hs : r.flags.headersSent = false)
      (hset : r.flags.statusCodeSet = false) : Change cfg P r { r with statusCode := status }
  | header (r : HiwResponse) (name value : Bytes) (h : r.Accepts cfg name) :
      Change cfg P r (r.accept name value)
  | length (r : HiwResponse) (len : ℤ) (hP : P (.setContentLength len))
      (hs : r.flags.headersSent = false) (hset : r.flags.contentLengthSet = false)
      (hmem : (ascii "Content-Length", lengthValue len) ∈ r.headers) :
      Change cfg P r (r.withLength len)
  | connection (r : HiwResponse) (close : Bool) (hs : r.flags.headersSent = false)
      (hset : r.flags.connectionSet = false)
      (hmem : (ascii "Connection", connectionValue close) ∈ r.headers) :
      Change cfg P r (r.withConnection close)
  | head (r : HiwResponse) (hP : P .flushHeaders ∨ 0 < r.contentLength)
      (hs : r.flags.headersSent = false) (hlen : r.flags.contentLengthSet = true)
      (hconn : r.flags.connectionSet = true)
      (hserver : cfg.writeServerHeader = true → r.Accepts cfg (serverHeaderName cfg)) :
      Change cfg P r (r.concluded cfg).sendHead.2
  | body (r : HiwResponse) (src : Bytes) (n : ℤ) (hP : P (.writeBodyRaw src n))
      (hs : r.flags.headersSent = true) : Change cfg P r (r.sendBody src n).2

/-- What every change relies on: the memory is a fixed block, and a length is set together with
its flag. -/
structure Base (r : HiwResponse) : Prop where
  fixed : r.memory.resizeBytes = -1
  length_unset : r.flags.contentLengthSet = false → r.contentLength = -1

variable {P : Op → Prop}

theorem base_start (m : Buf) (client : HiwClient) (close : Bool) :
    (start cfg m client close).Base :=
  ⟨rfl, fun _ => rfl⟩

@[simp] theorem toResponseFields_concluded :
    (r.concluded cfg).toResponseFields =
      if cfg.writeServerHeader then
        { r.toResponseFields with
          headers := r.headers ++ [(serverHeaderName cfg, serverHeaderValue cfg)] }
      else r.toResponseFields := by
  unfold concluded; split <;> simp

@[simp] theorem contentLength_concluded : (r.concluded cfg).contentLength = r.contentLength := by
  unfold concluded; split <;> simp

@[simp] theorem headersSent_concluded :
    (r.concluded cfg).flags.headersSent = r.flags.headersSent := by
  unfold concluded; split <;> simp

@[simp] theorem contentLengthSet_concluded :
    (r.concluded cfg).flags.contentLengthSet = r.flags.contentLengthSet := by
  unfold concluded; split <;> simp

@[simp] theorem connectionSet_concluded :
    (r.concluded cfg).flags.connectionSet = r.flags.connectionSet := by
  unfold concluded; split <;> simp

@[simp] theorem handed_concluded : (r.concluded cfg).handed = r.handed := by
  unfold concluded; split <;> simp

@[simp] theorem contentBytesLeft_concluded :
    (r.concluded cfg).contentBytesLeft = r.contentBytesLeft := by
  unfold concluded; split <;> simp

@[simp] theorem resizeBytes_concluded :
    (r.concluded cfg).memory.resizeBytes = r.memory.resizeBytes := by
  unfold concluded; split <;> simp

theorem sendHead_eq (r : HiwResponse) : ∃ ok client, r.sendHead =
    (ok, { r with
      client
      handed := r.handed ++ [.head r.toResponseFields r.content ok]
      flags := if ok then { r.flags with headersSent := true }
        else { r.flags with error := true } }) := by
  by_cases h : (r.client.sendall r.content r.memory.size).1 = r.memory.size
  · exact ⟨true, (r.client.sendall r.content r.memory.size).2, by simp [sendHead, h]⟩
  · exact ⟨false, (r.client.sendall r.content r.memory.size).2, by simp [sendHead, h, error]⟩

/-- The number of bytes left after `n` bytes of a body, sent or not. -/
def bytesLeft (contentLength left n : ℤ) (ok : Bool) : ℤ :=
  if ok = true ∧ 0 < contentLength ∧ 0 < left then left - n else left

/-- Sending a part of the body records it, and counts its bytes if they were sent.  The call
returns true if they were sent and the counter did not fall below 0. -/
theorem sendBody_spec (r : HiwResponse) (src : Bytes) (n : ℤ) : ∃ client error,
    r.sendBody src n =
      (decide ((r.client.sendall src n).1 = n ∧ (0 < r.contentLength →
        0 ≤ bytesLeft r.contentLength r.contentBytesLeft n true)),
      { r with
        client
        handed := r.handed ++ [.body (src.take n.toNat) n r.contentBytesLeft
          (decide ((r.client.sendall src n).1 = n))]
        contentBytesLeft := bytesLeft r.contentLength r.contentBytesLeft n
          (decide ((r.client.sendall src n).1 = n))
        flags := { r.flags with error } }) := by
  by_cases h : (r.client.sendall src n).1 = n
  · by_cases hc : 0 < r.contentLength
    · by_cases hl : 0 < r.contentBytesLeft
      · -- a counter that falls below 0 is recorded as an error, but the bytes are counted
        rcases lt_or_ge r.contentBytesLeft n with hneg | hneg
        · exact ⟨(r.client.sendall src n).2, true, by
            simp [sendBody, error, bytesLeft, h, hc, hl, hneg]⟩
        · exact ⟨(r.client.sendall src n).2, r.flags.error, by
            simp [sendBody, bytesLeft, h, hc, hl, hneg]⟩
      · rcases lt_or_ge r.contentBytesLeft 0 with hneg | hneg
        · exact ⟨(r.client.sendall src n).2, true, by
            simp [sendBody, error, bytesLeft, h, hc, hl, hneg]⟩
        · exact ⟨(r.client.sendall src n).2, r.flags.error, by
            simp [sendBody, bytesLeft, h, hc, hl, hneg]⟩
    · exact ⟨(r.client.sendall src n).2, r.flags.error, by
        simp [sendBody, bytesLeft, h, hc]⟩
  · exact ⟨(r.client.sendall src n).2, true, by
      simp [sendBody, error, bytesLeft, h]⟩

theorem sendBody_eq (r : HiwResponse) (src : Bytes) (n : ℤ) : ∃ ok client error,
    (r.sendBody src n).2 = { r with
      client
      handed := r.handed ++ [.body (src.take n.toNat) n r.contentBytesLeft ok]
      contentBytesLeft := bytesLeft r.contentLength r.contentBytesLeft n ok
      flags := { r.flags with error } } := by
  obtain ⟨client, error, heq⟩ := sendBody_spec r src n
  exact ⟨_, client, error, congrArg Prod.snd heq⟩

theorem Change.base (h : Change cfg P r r') (hr : r.Base) : r'.Base := by
  cases h with
  | fail => exact ⟨hr.fixed, hr.length_unset⟩
  | status => exact ⟨hr.fixed, hr.length_unset⟩
  | header name value h =>
    refine ⟨?_, ?_⟩
    · simpa using hr.fixed
    · simpa using hr.length_unset
  | length => exact ⟨hr.fixed, fun h => Bool.noConfusion h⟩
  | connection => exact ⟨hr.fixed, hr.length_unset⟩
  | head hP hs hlen hconn hserver =>
    obtain ⟨ok, client, h⟩ := sendHead_eq (r.concluded cfg)
    rw [h]
    refine ⟨by simpa using hr.fixed, fun hset => ?_⟩
    cases ok <;> simp [hlen] at hset
  | body src n hP hs =>
    obtain ⟨ok, client, error, h⟩ := sendBody_eq r src n
    rw [h]
    exact ⟨hr.fixed, hr.length_unset⟩

theorem base_of_changes (h : ReflTransGen (Change cfg P) r r') (hr : r.Base) : r'.Base :=
  invariant_of_reflTransGen (fun _ _ hc hb => hc.base hb) h hr

/-! ### The changes of an operation -/

/-- The operation, performed on `r`, is a sequence of changes; when it succeeds, `Q` holds. -/
def Does (cfg : Config) (P : Op → Prop) (r : HiwResponse) (f : Option (Bool × HiwResponse))
    (Q : HiwResponse → Prop) : Prop :=
  ∀ b r', f = some (b, r') → ReflTransGen (Change cfg P) r r' ∧ (b = true → Q r')

variable {f : Option (Bool × HiwResponse)} {g : HiwResponse → Option (Bool × HiwResponse)}
  {Q Q' : HiwResponse → Prop}

theorem Does.of_change (h : Change cfg P r r') (hQ : b = true → Q r') :
    Does cfg P r (some (b, r')) Q := by
  rintro _ _ ⟨⟩
  exact ⟨.single h, hQ⟩

theorem does_nothing (hQ : b = true → Q r) : Does cfg P r (some (b, r)) Q := by
  rintro _ _ ⟨⟩
  exact ⟨.refl, hQ⟩

theorem does_error : Does cfg P r (some r.error) Q :=
  .of_change (.fail r) fun h => Bool.noConfusion h

theorem Does.andThen (hf : Does cfg P r f Q)
    (hg : ∀ r₁, ReflTransGen (Change cfg P) r r₁ → Q r₁ → Does cfg P r₁ (g r₁) Q') :
    Does cfg P r (andThen f g) Q' := by
  intro b r' h
  -- a step that fails puts the error flag on top of what it has done
  match f, hf, h with
  | some (false, r₁), hf, h =>
    obtain ⟨hpath, -⟩ := hf _ _ rfl
    cases h
    exact ⟨hpath.tail (.fail r₁), fun h => Bool.noConfusion h⟩
  | some (true, r₁), hf, h =>
    obtain ⟨hpath, hQ⟩ := hf _ _ rfl
    obtain ⟨hpath', hQ'⟩ := hg r₁ hpath (hQ rfl) _ _ h
    exact ⟨hpath.trans hpath', hQ'⟩

theorem Does.mono (h : Does cfg P r f Q) (hQ : ∀ r', Q r' → Q' r') : Does cfg P r f Q' := by
  intro b r' hf
  obtain ⟨hpath, hr'⟩ := h b r' hf
  exact ⟨hpath, fun hb => hQ _ (hr' hb)⟩

theorem writeStatusCode_eq (hm : r.memory.resizeBytes = -1)
    (h : r.writeStatusCode = some (b, r')) :
    b = true ∧
      r' = (r.append (ascii "HTTP/1.1 ")).append (ascii (statusText r.statusCode) ++ crlf) :=
  writeRaw_eq (r := r.append (ascii "HTTP/1.1 ")) hm (andThen_writeRaw hm h)

theorem begin_eq (hm : r.memory.resizeBytes = -1)
    (h : (if r.flags.statusCodeSet then some (true, r)
      else andThen r.writeStatusCode fun r =>
        some (true, { r with flags := { r.flags with statusCodeSet := true } })) = some (b, r')) :
    b = true ∧ r' = r.begun := by
  unfold begun
  split_ifs at h ⊢ with hset
  · cases h
    exact ⟨rfl, rfl⟩
  · have hbegun := andThen_eq_of (fun _ _ => writeStatusCode_eq hm) h
    cases hbegun
    exact ⟨rfl, rfl⟩

/-- Behind its checks, `hiw_response_write_header` appends the status line, if it is missing, and
the header's line. -/
theorem copyHeader_eq (hm : r.memory.resizeBytes = -1)
    (h : r.copyHeader name value = some (b, r')) : b = true ∧ r' = r.accept name value := by
  have hm₁ : r.begun.memory.resizeBytes = -1 := (resizeBytes_begun r).trans hm
  have h₁ := andThen_eq_of (fun _ _ => begin_eq hm) h
  have h₂ := andThen_writeRaw hm₁ h₁
  have h₃ := andThen_writeRaw (r := r.begun.append name) hm₁ h₂
  have h₄ := andThen_writeRaw (r := (r.begun.append name).append (ascii ": ")) hm₁ h₃
  cases h₄
  refine ⟨rfl, ?_⟩
  have hheaders : r.begun.headers = r.headers := congrArg (·.headers) (toResponseFields_begun r)
  rw [accept, ← hheaders]
  rfl

/-- A header is accepted by all checks, or refused without a trace. -/
theorem does_writeHeader (hm : r.memory.resizeBytes = -1) :
    Does cfg P r (r.writeHeader cfg name value) fun r' =>
      r.Accepts cfg name ∧ r' = r.accept name value := by
  unfold writeHeader
  split_ifs with hs hc hn h0
  · exact does_error
  · exact does_error
  · exact does_error
  · exact does_error
  · intro b r' h
    have hacc : r.Accepts cfg name := by
      refine ⟨by simpa using hs, by omega, ?_, h0⟩
      intro hmem
      obtain ⟨hdr, hdr_mem, hname⟩ := List.mem_map.1 hmem
      exact hn (List.any_eq_true.2 ⟨hdr, hdr_mem, by simp [HiwString.cmp_eq, hname]⟩)
    obtain ⟨-, rfl⟩ := copyHeader_eq hm h
    exact ⟨.single (.header r name value hacc), fun _ => ⟨hacc, rfl⟩⟩

theorem does_setContentLength {len : ℤ} (hm : r.memory.resizeBytes = -1)
    (hP : P (.setContentLength len)) (hset : r.flags.contentLengthSet = false) :
    Does cfg P r (r.setContentLength cfg len) fun r' =>
      r.Accepts cfg (ascii "Content-Length") ∧
        r' = (r.accept (ascii "Content-Length") (lengthValue len)).withLength len := by
  unfold setContentLength
  rw [if_neg (by simp [hset])]
  refine (does_writeHeader hm).andThen fun r₁ _ ⟨hacc, hr₁⟩ => ?_
  subst hr₁
  exact .of_change (.length _ len hP (by simpa using hacc.unsent) (by simpa using hset) (by simp
    [lengthValue])) fun _ => ⟨hacc, rfl⟩

theorem does_setConnectionClose {close : Bool} (hm : r.memory.resizeBytes = -1)
    (hset : r.flags.connectionSet = false) :
    Does cfg P r (r.setConnectionClose cfg close) fun r' =>
      r.Accepts cfg (ascii "Connection") ∧
        r' = (r.accept (ascii "Connection") (connectionValue close)).withConnection close := by
  unfold setConnectionClose
  rw [if_neg (by simp [hset])]
  refine (does_writeHeader hm).andThen fun r₁ _ ⟨hacc, hr₁⟩ => ?_
  subst hr₁
  exact .of_change (.connection _ close (by simpa using hacc.unsent) (by simpa using hset) (by simp
    [connectionValue])) fun _ => ⟨hacc, rfl⟩

/-- The response is ready for its head, and the head is allowed. -/
structure Ready (P : Op → Prop) (r : HiwResponse) : Prop where
  base : r.Base
  unsent : r.flags.headersSent = false
  length : r.flags.contentLengthSet = true
  allowed : P .flushHeaders ∨ 0 < r.contentLength

theorem does_conclude (hr : r.Ready P) (hconn : r.flags.connectionSet = true) :
    Does cfg P r
      (andThen (if cfg.writeServerHeader then
          r.writeHeader cfg (serverHeaderName cfg) (serverHeaderValue cfg)
        else some (true, r)) fun r =>
      andThen (r.writeRaw crlf) fun r =>
      some r.sendHead)
      fun r' => r'.flags.headersSent = true := by
  intro b r' h
  -- with or without the `Server` header, what is left is to hand over the head
  have hsend : (cfg.writeServerHeader = true → r.Accepts cfg (serverHeaderName cfg)) →
      some (r.concluded cfg).sendHead = some (b, r') →
      ReflTransGen (Change cfg P) r r' ∧ (b = true → r'.flags.headersSent = true) := by
    intro hserver hsent
    have hchange := Change.head r hr.allowed hr.unsent hr.length hconn hserver
    obtain ⟨ok, client, heq⟩ := sendHead_eq (r.concluded cfg)
    rw [Option.some.inj hsent] at hchange
    rw [heq] at hsent
    cases hsent
    exact ⟨.single hchange, fun hok => by simp [hok]⟩
  by_cases hw : cfg.writeServerHeader = true
  · rw [if_pos hw] at h
    match hf : r.writeHeader cfg (serverHeaderName cfg) (serverHeaderValue cfg) with
    | none => simp [andThen, hf] at h
    | some (false, r₁) =>
      obtain ⟨hpath, -⟩ := does_writeHeader (P := P) hr.base.fixed _ _ hf
      rw [hf] at h
      cases h
      exact ⟨hpath.tail (.fail r₁), fun h => Bool.noConfusion h⟩
    | some (true, r₁) =>
      obtain ⟨hacc, rfl⟩ := (does_writeHeader (P := P) hr.base.fixed _ _ hf).2 rfl
      rw [hf] at h
      have h := andThen_writeRaw (by simpa using hr.base.fixed) h
      refine hsend (fun _ => hacc) ?_
      rwa [concluded, if_pos hw]
  · rw [if_neg hw] at h
    have h := andThen_writeRaw hr.base.fixed h
    refine hsend (fun h => absurd h hw) ?_
    rwa [concluded, if_neg hw]

/-- A flush writes the headers that are missing and hands over the head; when it succeeds, the
head was sent. -/
theorem does_flushHeaders (hr : r.Base) (hP : P .flushHeaders ∨ 0 < r.contentLength)
    (hP0 : P (.setContentLength 0)) :
    Does cfg P r (r.flushHeaders cfg) fun r' => r'.flags.headersSent = true := by
  unfold flushHeaders
  by_cases hs : r.flags.headersSent = true
  · rw [if_pos hs]
    exact does_nothing fun _ => hs
  rw [if_neg hs]
  by_cases h0 : r.statusCode = 0
  · rw [if_pos h0]
    exact does_nothing fun h => Bool.noConfusion h
  rw [if_neg h0]
  have hunsent : r.flags.headersSent = false := by simpa using hs
  -- a missing length becomes 0
  have hlength : Does cfg P r
      (if r.flags.contentLengthSet then some (true, r) else r.setContentLength cfg 0)
      (Ready P) := by
    by_cases hset : r.flags.contentLengthSet = true
    · rw [if_pos hset]
      exact does_nothing fun _ => ⟨hr, hunsent, hset, hP⟩
    · rw [if_neg hset]
      have hset' : r.flags.contentLengthSet = false := by simpa using hset
      -- without a length only a flush that is called for itself gets here
      have hflush : P .flushHeaders := hP.resolve_right (by simp [hr.length_unset hset'])
      refine (does_setContentLength hr.fixed hP0 hset').mono ?_
      rintro _ ⟨-, rfl⟩
      exact ⟨⟨by simpa [withLength] using hr.fixed, fun h => Bool.noConfusion h⟩,
        by simpa [withLength] using hunsent, rfl, .inl hflush⟩
  refine hlength.andThen fun r₁ _ h₁ => ?_
  -- a missing kind of connection becomes that of the request
  have hconn : Does cfg P r₁
      (if r₁.flags.connectionSet then some (true, r₁)
        else r₁.setConnectionClose cfg r₁.connectionClose)
      (fun r' => r'.Ready P ∧ r'.flags.connectionSet = true) := by
    by_cases hset : r₁.flags.connectionSet = true
    · rw [if_pos hset]
      exact does_nothing fun _ => ⟨h₁, hset⟩
    · rw [if_neg hset]
      refine (does_setConnectionClose h₁.base.fixed (by simpa using hset)).mono ?_
      rintro _ ⟨-, rfl⟩
      refine ⟨⟨⟨?_, ?_⟩, ?_, ?_, ?_⟩, rfl⟩
      · simpa [withConnection] using h₁.base.fixed
      · simpa [withConnection] using h₁.base.length_unset
      · simpa [withConnection] using h₁.unsent
      · simpa [withConnection] using h₁.length
      · simpa [withConnection] using h₁.allowed
  exact hconn.andThen fun r₂ _ ⟨h₂, hset₂⟩ => does_conclude h₂ hset₂

theorem does_writeBodyRaw {src : Bytes} {n : ℤ} (hr : r.Base) (hP : P (.writeBodyRaw src n))
    (hP0 : P (.setContentLength 0)) :
    Does cfg P r (r.writeBodyRaw cfg src n) fun _ => True := by
  unfold writeBodyRaw
  have hflush : Does cfg P r
      (if r.flags.headersSent then some (true, r)
      else if r.contentLength ≤ 0 then some r.error
      else r.flushHeaders cfg) (fun r' => r'.flags.headersSent = true) := by
    split_ifs with hs hl
    · exact does_nothing fun _ => hs
    · exact does_error
    · exact does_flushHeaders hr (.inr (by omega)) hP0
  exact hflush.andThen fun r₁ _ hs => .of_change (.body r₁ src n hP hs) fun _ => trivial

/-- **An operation is a sequence of changes.** -/
theorem changes_of_step {op : Op} (hr : r.Base) (hP : P op) (hP0 : P (.setContentLength 0))
    (h : step cfg r op = some r') : ReflTransGen (Change cfg P) r r' := by
  obtain ⟨⟨b, r'⟩, hop, rfl⟩ := Option.map_eq_some_iff.1 h
  suffices hdoes : Does cfg P r (r.perform cfg op) fun _ => True from (hdoes b r' hop).1
  cases op with
  | setStatusCode status =>
    show Does cfg P r (r.setStatusCode status) _
    unfold setStatusCode
    split_ifs with hs hset
    · exact does_error
    · exact does_error
    · exact .of_change (.status r status (by simpa using hs) (by simpa using hset))
        fun _ => trivial
  | writeHeader name value => exact (does_writeHeader hr.fixed).mono fun _ _ => trivial
  | setContentType mimeType => exact (does_writeHeader hr.fixed).mono fun _ _ => trivial
  | setContentLength len =>
    by_cases hset : r.flags.contentLengthSet = true
    · -- a second length is ignored, and reported as a success
      show Does cfg P r (r.setContentLength cfg len) _
      unfold setContentLength
      rw [if_pos hset]
      exact does_nothing fun _ => trivial
    · exact (does_setContentLength hr.fixed hP (by simpa using hset)).mono fun _ _ => trivial
  | setConnectionClose close =>
    by_cases hset : r.flags.connectionSet = true
    · show Does cfg P r (r.setConnectionClose cfg close) _
      unfold setConnectionClose
      rw [if_pos hset]
      exact does_nothing fun _ => trivial
    · exact (does_setConnectionClose hr.fixed (by simpa using hset)).mono fun _ _ => trivial
  | writeBodyRaw src n => exact does_writeBodyRaw hr hP hP0
  | flushHeaders => exact (does_flushHeaders hr (.inl hP) hP0).mono fun _ _ => trivial

/-- **A run of operations is a sequence of changes.** -/
theorem changes_of_run {ops : List Op} (hr : r.Base) (hP : ∀ op ∈ ops, P op)
    (hP0 : P (.setContentLength 0)) (h : runLabels (step cfg) r ops = some r') :
    ReflTransGen (Change cfg P) r r' :=
  reflTransGen_of_runLabels (fun _ _ hc hb => hc.base hb)
    (fun _ _ op hop hbase hstep => changes_of_step hbase (hP op hop) hP0 hstep) hr h

theorem invariant_of_run {I : HiwResponse → Prop} {ops : List Op} (hr : r.Base)
    (hP : ∀ op ∈ ops, P op) (hP0 : P (.setContentLength 0)) (h₀ : I r)
    (hstep : ∀ r r', Change cfg P r r' → I r → I r')
    (h : runLabels (step cfg) r ops = some r') : I r' :=
  invariant_of_reflTransGen hstep (changes_of_run hr hP hP0 h) h₀

end HiwResponse

end Highway
