import Highway.Servlet.KeepAlive
import Highway.Servlet.Refusal

/-!
# Complete replies

A servlet function that sets status code, length and content type of a response, writes a body of
that length and returns (`Reply.program`).  As long as the kernel takes what it is offered, such a
function puts the text of its head and the body on the wire (`Reply.run_program`), and on a
connection that is kept, a client gets the replies to its requests one behind the other
(`ChainState.wire_of_replies`).
-/

namespace Highway

open Lib

/-! ### Calls of `send` that take everything -/

namespace HiwClient

/-- The next `n` calls of `send` take up to `size` bytes. -/
def Takes (c : HiwClient) (n size : ℕ) : Prop :=
  n ≤ c.outgoing.length ∧ ∀ e ∈ c.outgoing, ∃ k, e = .accept k ∧ size ≤ k

variable {c : HiwClient} {src : Bytes} {n size : ℕ}

theorem Takes.sendall (h : c.Takes (n + 1) size) (hne : src ≠ []) (hle : src.length ≤ size) :
    ∃ es, c.sendall src src.length =
        ((src.length : ℤ), { c with outgoing := es, wire := c.wire ++ src }) ∧
      HiwClient.Takes { c with outgoing := es, wire := c.wire ++ src } n size := by
  obtain ⟨hlen, htakes⟩ := h
  cases hout : c.outgoing with
  | nil =>
    rw [hout] at hlen
    exact absurd hlen (Nat.not_succ_le_zero n)
  | cons e es =>
    rw [hout] at hlen htakes
    obtain ⟨k, rfl, hk⟩ := htakes e List.mem_cons_self
    have hpos := List.length_pos_iff.2 hne
    have hmin : min k src.length = src.length := Nat.min_eq_right (Nat.le_trans hle hk)
    have hrest : sendallLoop src es 0 = (true, [], es) := by cases es <;> rfl
    have hloop : sendallLoop src (.accept k :: es) src.length = (true, src, es) := by
      simp only [sendallLoop, hmin, if_neg (Nat.ne_of_gt hpos), Nat.sub_self, hrest,
        List.take_length, List.append_nil]
    refine ⟨es, ?_, Nat.le_of_succ_le_succ hlen, fun e he => htakes e (List.mem_cons_of_mem _ he)⟩
    simp only [HiwClient.sendall, hout, Int.toNat_natCast, hloop, if_true]

end HiwClient

/-! ### A reply -/

/-- What a servlet function answers. -/
structure Reply where
  statusCode : ℤ
  mimeType : Bytes
  body : Bytes

namespace Reply

/-- The calls of such a servlet function. -/
def program (a : Reply) : Servlet :=
  .respond (.setStatusCode a.statusCode) fun _ =>
  .respond (.setContentLength a.body.length) fun _ =>
  .respond (.setContentType a.mimeType) fun _ =>
  .respond (.writeBodyRaw a.body a.body.length) fun _ => .done

/-- The fields of the head that is sent. -/
def fields (cfg : Config) (a : Reply) (close : Bool) : ResponseFields where
  statusCode := a.statusCode
  headers :=
    [(ascii "Content-Length", decimal a.body.length), (ascii "Content-Type", a.mimeType),
      (ascii "Connection", HiwResponse.connectionValue close)] ++
    if cfg.writeServerHeader then
      [(HiwResponse.serverHeaderName cfg, HiwResponse.serverHeaderValue cfg)]
    else []
  contentLength := a.body.length
  connectionClose := close

/-- The bytes of the reply. -/
def bytes (cfg : Config) (a : Reply) (close : Bool) : Bytes := (a.fields cfg close).head ++ a.body

/-- The reply can be sent: it has a body, and its head fits into the memory of a response. -/
structure Sendable (cfg : Config) (a : Reply) (close : Bool) : Prop where
  statusCode : a.statusCode ≠ 0
  body : a.body ≠ []
  length : a.body.length < 2 ^ 31
  head : (a.fields cfg close).head.length ≤ cfg.maxHeaderSize
  count : 4 ≤ cfg.maxHeadersCount

end Reply

namespace HiwResponse

variable {cfg : Config} {r : HiwResponse} {name value : Bytes}

theorem length_content (r : HiwResponse) : r.content.length = r.memory.pos := Buf.length_bytes

@[simp] theorem stop_accept : (r.accept name value).memory.stop = r.memory.stop := by
  unfold accept begun
  split <;> rfl

@[simp] theorem content_withLength (r : HiwResponse) (len : ℤ) :
    (r.withLength len).content = r.content := rfl

@[simp] theorem flags_withLength (r : HiwResponse) (len : ℤ) :
    (r.withLength len).flags = { r.flags with contentLengthSet := true } := rfl

@[simp] theorem memory_withLength (r : HiwResponse) (len : ℤ) :
    (r.withLength len).memory = r.memory := rfl

@[simp] theorem memory_withConnection (r : HiwResponse) (close : Bool) :
    (r.withConnection close).memory = r.memory := rfl

@[simp] theorem client_withLength (r : HiwResponse) (len : ℤ) :
    (r.withLength len).client = r.client := rfl

@[simp] theorem contentBytesLeft_withLength (r : HiwResponse) (len : ℤ) :
    (r.withLength len).contentBytesLeft = len := rfl

@[simp] theorem client_withConnection (r : HiwResponse) (close : Bool) :
    (r.withConnection close).client = r.client := rfl

@[simp] theorem contentBytesLeft_withConnection (r : HiwResponse) (close : Bool) :
    (r.withConnection close).contentBytesLeft = r.contentBytesLeft := rfl

@[simp] theorem content_withConnection (r : HiwResponse) (close : Bool) :
    (r.withConnection close).content = r.content := rfl

@[simp] theorem flags_withConnection (r : HiwResponse) (close : Bool) :
    (r.withConnection close).flags = { r.flags with connectionSet := true } := rfl

@[simp] theorem toResponseFields_withLength (r : HiwResponse) (len : ℤ) :
    (r.withLength len).toResponseFields = { r.toResponseFields with contentLength := len } := rfl

@[simp] theorem toResponseFields_withConnection (r : HiwResponse) (close : Bool) :
    (r.withConnection close).toResponseFields =
      { r.toResponseFields with connectionClose := close } := rfl

theorem fits_iff : r.Fits name value ↔ (r.accept name value).content.length ≤ r.memory.stop := by
  rw [Fits, lineText, content_accept, content_begun, ← length_content]
  split_ifs with hset
  · simp only [List.length_append, List.length_nil, Nat.zero_add]
  · simp only [List.length_append, Nat.add_assoc]

theorem writeHeader_eq (hacc : r.Accepts cfg name)
    (hfits : (r.accept name value).content.length ≤ r.memory.stop) :
    r.writeHeader cfg name value = some (true, r.accept name value) := by
  rw [writeHeader_of_accepts hacc, copyHeader_of_fits (fits_iff.2 hfits)]

theorem setContentLength_eq {len : ℤ} (hset : r.flags.contentLengthSet = false)
    (hacc : r.Accepts cfg (ascii "Content-Length"))
    (hfits : (r.accept (ascii "Content-Length") (lengthValue len)).content.length ≤
      r.memory.stop) :
    r.setContentLength cfg len =
      some (true, (r.accept (ascii "Content-Length") (lengthValue len)).withLength len) := by
  rw [setContentLength, if_neg (by simp [hset])]
  show andThen (r.writeHeader cfg (ascii "Content-Length") (lengthValue len)) _ = _
  rw [writeHeader_eq hacc hfits]
  rfl

theorem setConnectionClose_eq {close : Bool} (hset : r.flags.connectionSet = false)
    (hacc : r.Accepts cfg (ascii "Connection"))
    (hfits : (r.accept (ascii "Connection") (connectionValue close)).content.length ≤
      r.memory.stop) :
    r.setConnectionClose cfg close = some (true,
      (r.accept (ascii "Connection") (connectionValue close)).withConnection close) := by
  rw [setConnectionClose, if_neg (by simp [hset])]
  show andThen (r.writeHeader cfg (ascii "Connection") (connectionValue close)) _ = _
  rw [writeHeader_eq hacc hfits]
  rfl

theorem conclude_eq (hacc : cfg.writeServerHeader = true → r.Accepts cfg (serverHeaderName cfg))
    (hfits : (r.concluded cfg).content.length ≤ r.memory.stop) :
    (andThen (if cfg.writeServerHeader then
        r.writeHeader cfg (serverHeaderName cfg) (serverHeaderValue cfg)
      else some (true, r)) fun r =>
      andThen (r.writeRaw crlf) fun r => some r.sendHead) = some (r.concluded cfg).sendHead := by
  unfold concluded at hfits ⊢
  rw [content_append, List.length_append] at hfits
  split_ifs at hfits ⊢ with hserver
  · rw [writeHeader_eq (hacc hserver) (by omega), andThen_true, writeRaw_of_le, andThen_true]
    rw [stop_accept, ← length_content]
    exact hfits
  · rw [andThen_true, writeRaw_of_le, andThen_true]
    rw [← length_content]
    exact hfits

theorem sendHead_of_takes {n size : ℕ} (htakes : r.client.Takes (n + 1) size)
    (hne : r.content ≠ []) (hle : r.content.length ≤ size) : ∃ client,
    client.wire = r.client.wire ++ r.content ∧ client.incoming = r.client.incoming ∧
      client.Takes n size ∧
      r.sendHead = (true, { r with
        client
        handed := r.handed ++ [.head r.toResponseFields r.content true]
        flags := { r.flags with headersSent := true } }) := by
  obtain ⟨es, hsend, htakes'⟩ := htakes.sendall hne hle
  rw [length_content] at hsend
  refine ⟨{ r.client with outgoing := es, wire := r.client.wire ++ r.content }, rfl, rfl,
    htakes', ?_⟩
  simp only [sendHead, HiwMemory.size, hsend, ne_eq, not_true_eq_false, if_false, decide_true]

theorem sendBody_of_takes {n size : ℕ} {src : Bytes} (htakes : r.client.Takes (n + 1) size)
    (hne : src ≠ []) (hle : src.length ≤ size) (hlen : r.contentLength = src.length)
    (hleft : r.contentBytesLeft = src.length) : ∃ client r',
    client.wire = r.client.wire ++ src ∧ client.incoming = r.client.incoming ∧
      client.Takes n size ∧ r.sendBody src src.length = (true, r') ∧ r'.client = client ∧
      r'.flags = r.flags ∧ r'.contentBytesLeft = 0 ∧ r'.connectionClose = r.connectionClose := by
  obtain ⟨es, hsend, htakes'⟩ := htakes.sendall hne hle
  have hpos : (0 : ℤ) < src.length := by exact_mod_cast List.length_pos_iff.2 hne
  refine ⟨{ r.client with outgoing := es, wire := r.client.wire ++ src }, { r with
    client := { r.client with outgoing := es, wire := r.client.wire ++ src }
    handed := r.handed ++ [.body src src.length src.length true]
    contentBytesLeft := 0 }, rfl, rfl, htakes', ?_, rfl, rfl, rfl, rfl⟩
  simp only [sendBody, hsend, ne_eq, not_true_eq_false, if_false, hlen, hleft, gt_iff_lt, hpos,
    if_true, Int.sub_self, Int.lt_irrefl, decide_true, Int.toNat_natCast, List.take_length]

/-- The response with a status code. -/
def withStatus (r : HiwResponse) (status : ℤ) : HiwResponse := { r with statusCode := status }

end HiwResponse

namespace Reply

variable {cfg : Config} {a : Reply} {close : Bool} {m : Buf} {client : HiwClient}

/-- The response when its status code and length are set. -/
def withLength (cfg : Config) (a : Reply) (m : Buf) (client : HiwClient) (close : Bool) :
    HiwResponse :=
  (((HiwResponse.start cfg m client close).withStatus a.statusCode).accept
    (ascii "Content-Length") (decimal a.body.length)).withLength a.body.length

/-- The same with its content type. -/
def withType (cfg : Config) (a : Reply) (m : Buf) (client : HiwClient) (close : Bool) :
    HiwResponse :=
  (a.withLength cfg m client close).accept (ascii "Content-Type") a.mimeType

/-- The same with the kind of connection. -/
def withConnection (cfg : Config) (a : Reply) (m : Buf) (client : HiwClient) (close : Bool) :
    HiwResponse :=
  ((a.withType cfg m client close).accept (ascii "Connection")
    (HiwResponse.connectionValue close)).withConnection close

theorem content_withLength (a : Reply) (cfg : Config) (m : Buf) (client : HiwClient)
    (close : Bool) : (a.withLength cfg m client close).content =
    HiwResponse.statusLine a.statusCode ++
      HiwResponse.headerLine (ascii "Content-Length", decimal a.body.length) := by
  rw [withLength, HiwResponse.content_withLength, HiwResponse.content_accept,
    HiwResponse.content_begun]
  rfl

theorem content_withType (a : Reply) (cfg : Config) (m : Buf) (client : HiwClient)
    (close : Bool) : (a.withType cfg m client close).content =
    (a.withLength cfg m client close).content ++
      HiwResponse.headerLine (ascii "Content-Type", a.mimeType) := by
  rw [withType, HiwResponse.content_accept, HiwResponse.content_begun, if_pos]
  rw [withLength, HiwResponse.flags_withLength, HiwResponse.flags_accept]

theorem content_withConnection (a : Reply) (cfg : Config) (m : Buf) (client : HiwClient)
    (close : Bool) : (a.withConnection cfg m client close).content =
    (a.withType cfg m client close).content ++
      HiwResponse.headerLine (ascii "Connection", HiwResponse.connectionValue close) := by
  rw [withConnection, HiwResponse.content_withConnection, HiwResponse.content_accept,
    HiwResponse.content_begun, if_pos]
  rw [withType, HiwResponse.flags_accept]

theorem content_concluded (a : Reply) (cfg : Config) (m : Buf) (client : HiwClient)
    (close : Bool) :
    ((a.withConnection cfg m client close).concluded cfg).content = (a.fields cfg close).head := by
  have hset : (a.withConnection cfg m client close).flags.statusCodeSet = true := by
    rw [withConnection, HiwResponse.flags_withConnection, HiwResponse.flags_accept]
  unfold HiwResponse.concluded ResponseFields.head fields
  rw [HiwResponse.content_append]
  split_ifs with hserver
  · rw [HiwResponse.content_accept, HiwResponse.content_begun, if_pos hset, content_withConnection,
      content_withType, content_withLength]
    simp only [HiwResponse.statusLine, HiwResponse.headerLine, List.cons_append, List.nil_append,
      List.flatMap_cons, List.flatMap_nil, List.append_assoc, List.append_nil]
  · rw [content_withConnection, content_withType, content_withLength]
    simp only [HiwResponse.statusLine, HiwResponse.headerLine, List.append_nil,
      List.flatMap_cons, List.flatMap_nil, List.append_assoc]

theorem withLength_spec (a : Reply) (cfg : Config) (m : Buf) (client : HiwClient)
    (close : Bool) :
    (a.withLength cfg m client close).toResponseFields =
        ⟨a.statusCode, [(ascii "Content-Length", decimal a.body.length)], a.body.length, close⟩ ∧
      (a.withLength cfg m client close).flags =
        { contentLengthSet := true, statusCodeSet := true } ∧
      (a.withLength cfg m client close).memory.stop = cfg.maxHeaderSize := by
  refine ⟨?_, ?_, ?_⟩
  · rw [withLength, HiwResponse.toResponseFields_withLength, HiwResponse.toResponseFields_accept]
    rfl
  · rw [withLength, HiwResponse.flags_withLength, HiwResponse.flags_accept]
    rfl
  · rw [withLength, HiwResponse.memory_withLength, HiwResponse.stop_accept]
    rfl

theorem withType_spec (a : Reply) (cfg : Config) (m : Buf) (client : HiwClient)
    (close : Bool) :
    (a.withType cfg m client close).toResponseFields =
        ⟨a.statusCode, [(ascii "Content-Length", decimal a.body.length),
          (ascii "Content-Type", a.mimeType)], a.body.length, close⟩ ∧
      (a.withType cfg m client close).flags =
        { contentLengthSet := true, statusCodeSet := true } ∧
      (a.withType cfg m client close).memory.stop = cfg.maxHeaderSize := by
  obtain ⟨hfields, hflags, hstop⟩ := a.withLength_spec cfg m client close
  refine ⟨?_, ?_, ?_⟩
  · rw [withType, HiwResponse.toResponseFields_accept, hfields]
    rfl
  · rw [withType, HiwResponse.flags_accept, hflags]
  · rw [withType, HiwResponse.stop_accept, hstop]

theorem withConnection_spec (a : Reply) (cfg : Config) (m : Buf) (client : HiwClient)
    (close : Bool) :
    (a.withConnection cfg m client close).toResponseFields =
        ⟨a.statusCode, [(ascii "Content-Length", decimal a.body.length),
          (ascii "Content-Type", a.mimeType),
          (ascii "Connection", HiwResponse.connectionValue close)], a.body.length, close⟩ ∧
      (a.withConnection cfg m client close).flags =
        { contentLengthSet := true, connectionSet := true, statusCodeSet := true } ∧
      (a.withConnection cfg m client close).memory.stop = cfg.maxHeaderSize := by
  obtain ⟨hfields, hflags, hstop⟩ := a.withType_spec cfg m client close
  refine ⟨?_, ?_, ?_⟩
  · rw [withConnection, HiwResponse.toResponseFields_withConnection,
      HiwResponse.toResponseFields_accept, hfields]
    rfl
  · rw [withConnection, HiwResponse.flags_withConnection, HiwResponse.flags_accept, hflags]
  · rw [withConnection, HiwResponse.memory_withConnection, HiwResponse.stop_accept, hstop]

theorem length_content_le (a : Reply) (cfg : Config) (m : Buf) (client : HiwClient)
    (close : Bool) :
    (a.withLength cfg m client close).content.length ≤ (a.fields cfg close).head.length ∧
      (a.withType cfg m client close).content.length ≤ (a.fields cfg close).head.length ∧
      (a.withConnection cfg m client close).content.length ≤ (a.fields cfg close).head.length := by
  have hconnection : (a.withConnection cfg m client close).content.length ≤
      (a.fields cfg close).head.length := by
    rw [← a.content_concluded cfg m client close]
    unfold HiwResponse.concluded
    rw [HiwResponse.content_append, List.length_append]
    split_ifs
    · rw [HiwResponse.content_accept, HiwResponse.content_begun]
      split_ifs <;> simp only [List.length_append] <;> omega
    · omega
  have htype := congrArg List.length (a.content_withConnection cfg m client close)
  have hlength := congrArg List.length (a.content_withType cfg m client close)
  rw [List.length_append] at htype hlength
  omega

theorem setContentLength_eq (h : a.Sendable cfg close) :
    ((HiwResponse.start cfg m client close).withStatus a.statusCode).setContentLength cfg
        a.body.length = some (true, a.withLength cfg m client close) := by
  have hcount := h.count
  have hlength := h.length
  have hvalue : HiwResponse.lengthValue a.body.length = decimal a.body.length := by
    rw [HiwResponse.lengthValue_eq (by omega) (by omega), Int.toNat_natCast]
  have hfits := Nat.le_trans (a.length_content_le cfg m client close).1 h.head
  rw [withLength, HiwResponse.content_withLength] at hfits
  rw [withLength, ← hvalue] at *
  refine HiwResponse.setContentLength_eq rfl ⟨rfl, ?_, List.not_mem_nil, h.statusCode⟩ hfits
  show 0 < cfg.maxHeadersCount
  omega

theorem setContentType_eq (h : a.Sendable cfg close) :
    (a.withLength cfg m client close).setContentType cfg a.mimeType =
      some (true, a.withType cfg m client close) := by
  obtain ⟨hfields, hflags, hstop⟩ := a.withLength_spec cfg m client close
  have hcount := h.count
  have hacc : (a.withLength cfg m client close).Accepts cfg (ascii "Content-Type") := by
    refine ⟨by rw [hflags], ?_, ?_, ?_⟩
    · rw [hfields]
      show 1 < cfg.maxHeadersCount
      omega
    · rw [hfields]
      show ascii "Content-Type" ∉ [ascii "Content-Length"]
      decide
    · rw [hfields]
      exact h.statusCode
  rw [HiwResponse.setContentType, HiwResponse.writeHeader_eq hacc]
  · rfl
  · rw [hstop]
    exact Nat.le_trans (a.length_content_le cfg m client close).2.1 h.head

theorem flushHeaders_eq (h : a.Sendable cfg close) :
    (a.withType cfg m client close).flushHeaders cfg =
      some ((a.withConnection cfg m client close).concluded cfg).sendHead := by
  obtain ⟨hfields, hflags, hstop⟩ := a.withType_spec cfg m client close
  obtain ⟨hfields', hflags', hstop'⟩ := a.withConnection_spec cfg m client close
  have hcount := h.count
  have hacc : (a.withType cfg m client close).Accepts cfg (ascii "Connection") := by
    refine ⟨by rw [hflags], ?_, ?_, ?_⟩
    · rw [hfields]
      show 2 < cfg.maxHeadersCount
      omega
    · rw [hfields]
      show ascii "Connection" ∉ [ascii "Content-Length", ascii "Content-Type"]
      decide
    · rw [hfields]
      exact h.statusCode
  have hserver : (a.withConnection cfg m client close).Accepts cfg
      (HiwResponse.serverHeaderName cfg) := by
    refine ⟨by rw [hflags'], ?_, ?_, ?_⟩
    · rw [hfields']
      show 3 < cfg.maxHeadersCount
      omega
    · rw [hfields']
      show HiwResponse.serverHeaderName cfg ∉
        [ascii "Content-Length", ascii "Content-Type", ascii "Connection"]
      unfold HiwResponse.serverHeaderName
      split_ifs <;> decide
    · rw [hfields']
      exact h.statusCode
  have hconnection : (a.withType cfg m client close).setConnectionClose cfg close =
      some (true, a.withConnection cfg m client close) := by
    have hfits := Nat.le_trans (a.length_content_le cfg m client close).2.2 h.head
    rw [withConnection, HiwResponse.content_withConnection] at hfits
    exact HiwResponse.setConnectionClose_eq (by rw [hflags]) hacc (hstop ▸ hfits)
  have hclose : (a.withType cfg m client close).connectionClose = close := by rw [hfields]
  have hstatus : (a.withType cfg m client close).statusCode = a.statusCode := by rw [hfields]
  rw [HiwResponse.flushHeaders, if_neg (by simp [hflags]), if_neg (hstatus ▸ h.statusCode),
    if_pos (by rw [hflags]), HiwResponse.andThen_true, if_neg (by simp [hflags]), hclose,
    hconnection, HiwResponse.andThen_true]
  refine HiwResponse.conclude_eq (fun _ => hserver) ?_
  rw [content_concluded, hstop']
  exact h.head

theorem concluded_spec (a : Reply) (cfg : Config) (m : Buf) (client : HiwClient) (close : Bool) :
    ((a.withConnection cfg m client close).concluded cfg).contentBytesLeft = a.body.length ∧
      ((a.withConnection cfg m client close).concluded cfg).client = client := by
  rw [HiwResponse.contentBytesLeft_concluded, HiwResponse.client_concluded, withConnection,
    HiwResponse.contentBytesLeft_withConnection, HiwResponse.client_withConnection,
    HiwResponse.contentBytesLeft_accept, HiwResponse.client_accept, withType,
    HiwResponse.contentBytesLeft_accept, HiwResponse.client_accept, withLength,
    HiwResponse.contentBytesLeft_withLength, HiwResponse.client_withLength,
    HiwResponse.client_accept]
  exact ⟨rfl, rfl⟩

/-- **A reply on the wire.**  The function returns, and what the client gets are the bytes of the
reply. -/
theorem run_program (h : a.Sendable cfg close) (m : Buf) (req : HiwRequest) {n size : ℕ}
    (htakes : client.Takes (n + 2) size) (hhead : (a.fields cfg close).head.length ≤ size)
    (hbody : a.body.length ≤ size) : ∃ r,
      a.program.run cfg req (.start cfg m client close) = some (req, r) ∧
        r.client.wire = client.wire ++ a.bytes cfg close ∧
        r.client.incoming = client.incoming ∧ r.client.Takes n size ∧
        r.flags.headersSent = true ∧ r.contentBytesLeft = 0 ∧ r.connectionClose = close := by
  obtain ⟨hleft, hclient⟩ := a.concluded_spec cfg m client close
  obtain ⟨hfields, hflags, -⟩ := a.withConnection_spec cfg m client close
  obtain ⟨hfields', hflags', -⟩ := a.withType_spec cfg m client close
  have hpos := List.length_pos_iff.2 h.body
  have hne : (a.fields cfg close).head ≠ [] := by
    unfold ResponseFields.head
    exact List.append_ne_nil_of_right_ne_nil _ (by decide)
  -- the head
  obtain ⟨c₁, hwire₁, hin₁, htakes₁, hsend₁⟩ :=
    HiwResponse.sendHead_of_takes (r := (a.withConnection cfg m client close).concluded cfg)
      (by rw [hclient]; exact htakes) (by rw [content_concluded]; exact hne)
      (by rw [content_concluded]; exact hhead)
  rw [content_concluded, hclient] at hwire₁
  rw [hclient] at hin₁
  -- and the body behind it
  have hlength : ((a.withConnection cfg m client close).concluded cfg).contentLength =
      a.body.length := by
    rw [HiwResponse.contentLength_concluded, hfields]
  have hclose : ((a.withConnection cfg m client close).concluded cfg).connectionClose = close := by
    rw [HiwResponse.toResponseFields_concluded]
    split_ifs <;> rw [hfields]
  obtain ⟨c₂, r, hwire₂, hin₂, htakes₂, hsend₂, rfl, hflags₂, hleft₂, hclose₂⟩ :=
    HiwResponse.sendBody_of_takes (r := { (a.withConnection cfg m client close).concluded cfg with
      client := c₁
      handed := ((a.withConnection cfg m client close).concluded cfg).handed ++
        [.head ((a.withConnection cfg m client close).concluded cfg).toResponseFields
          ((a.withConnection cfg m client close).concluded cfg).content true]
      flags := { ((a.withConnection cfg m client close).concluded cfg).flags with
        headersSent := true } }) htakes₁ h.body hbody hlength hleft
  have hwrite : (a.withType cfg m client close).writeBodyRaw cfg a.body a.body.length =
      some (true, r) := by
    have hpositive : ¬ (a.withType cfg m client close).contentLength ≤ 0 := by
      rw [hfields']
      show ¬ (a.body.length : ℤ) ≤ 0
      omega
    rw [HiwResponse.writeBodyRaw, if_neg (by simp [hflags']), if_neg hpositive, flushHeaders_eq h,
      hsend₁, HiwResponse.andThen_true, hsend₂]
  refine ⟨r, ?_, ?_, hin₂.trans hin₁, htakes₂, ?_, hleft₂, hclose₂.trans hclose⟩
  · have hstatus : (HiwResponse.start cfg m client close).setStatusCode a.statusCode =
        some (true, (HiwResponse.start cfg m client close).withStatus a.statusCode) := rfl
    simp only [program, Servlet.run, HiwResponse.perform, hstatus, setContentLength_eq h,
      setContentType_eq h, hwrite]
  · rw [hwire₂, hwire₁, bytes, List.append_assoc]
  · rw [hflags₂]

end Reply

/-! ### A connection -/

theorem HiwReader.sent_step {cfg : Config} {s s' : HiwReader} (hi : Iter cfg s s') :
    s'.client.outgoing = s.client.outgoing ∧ s'.client.wire = s.client.wire := by
  have hrecv : ∀ {len : ℕ} {r : Option Bytes} {c : HiwClient}, s.client.recv len = (r, c) →
      c.outgoing = s.client.outgoing ∧ c.wire = s.client.wire := by
    intro len r c h
    obtain ⟨es, -, rfl⟩ := HiwClient.recv_cases h
    exact ⟨rfl, rfl⟩
  cases hi with
  | closed _ _ hr => exact hrecv hr
  | waiting _ hr => exact hrecv hr
  | noStatusLine _ hr => exact hrecv hr
  | badStatusLine _ hr => exact hrecv hr
  | longUri _ hr => exact hrecv hr
  | statusLine _ hr => exact hrecv hr
  | refill _ _ _ hr => exact hrecv hr
  | header =>
    rw [client_applyHeader]
    exact ⟨rfl, rfl⟩
  | _ => exact ⟨rfl, rfl⟩

theorem HiwRequest.sent_readHeaders {cfg : Config} {req : HiwRequest} (hf : req.Fresh cfg)
    (client : HiwClient) : (req.readHeaders cfg client).client.outgoing = client.outgoing ∧
      (req.readHeaders cfg client).client.wire = client.wire := by
  refine (visited_readHeaders cfg req client).invariant
    (I := fun s => s.client.outgoing = client.outgoing ∧ s.client.wire = client.wire) ?_ ?_
  · rw [HiwReader.start_eq hf]
    exact ⟨rfl, rfl⟩
  · intro s _ hnf h
    have hiter : HiwReader.Iter cfg s _ := HiwReader.iter_step hnf
    obtain ⟨hout, hwire⟩ := HiwReader.sent_step hiter
    exact ⟨hout.trans h.1, hwire.trans h.2⟩

/-- A function that answers by the uri of the request. -/
def Reply.serve (answer : Bytes → Reply) (req : HiwRequest) : Servlet :=
  (answer req.head.uri).program

namespace ChainState

variable {cfg : Config} {s : ChainState} {m : Message} {es : List RecvEvent}
  {answer : Bytes → Reply} {n size : ℕ}

/-- The request is one that a single receive can bring, and has no body. -/
structure Plain (cfg : Config) (m : Message) : Prop where
  body : m.body = []
  size : m.bytes.length < cfg.maxHeaderSize
  count : m.fields.length ≤ cfg.maxHeadersCount

/-- The reply can be sent on a connection that is kept, in calls of at most `size` bytes. -/
structure Suits (cfg : Config) (a : Reply) (size : ℕ) : Prop extends a.Sendable cfg false where
  head_le : (a.fields cfg false).head.length ≤ size
  body_le : a.body.length ≤ size

/-- **One request.**  The client gets the reply to it, and the loop goes on. -/
theorem iterate_reply (hs : s.Ready cfg) (hm : Plain cfg m)
    (hin : s.client.incoming = .data m.bytes :: es) (hsuits : Suits cfg (answer m.uri) size)
    (htakes : s.client.Takes (n + 2) size) :
    (s.iterate cfg (Reply.serve answer)).Ready cfg ∧
      (s.iterate cfg (Reply.serve answer)).phase = .retry ∧
      (s.iterate cfg (Reply.serve answer)).client.incoming = es ∧
      (s.iterate cfg (Reply.serve answer)).client.wire =
        s.client.wire ++ (answer m.uri).bytes cfg false ∧
      (s.iterate cfg (Reply.serve answer)).client.Takes n size := by
  have hgroup : groupBytes [m] = m.bytes := by simp [groupBytes]
  have hg : Group cfg [m] :=
    ⟨List.cons_ne_nil _ _, hgroup ▸ hm.size, List.forall_mem_singleton.2 hm.count⟩
  obtain ⟨hphase, hclient, hhead, hback, hahead, hrem, hmem⟩ :=
    reader_group hs hg (by rw [hgroup]; exact hin)
  obtain ⟨hout, hwire⟩ := HiwRequest.sent_readHeaders (fresh_of_ready hs) s.client
  have huri : (s.reader cfg).req.head.uri = m.uri := by
    rw [hhead, m.head_eq (by simp [hm.body])]
    rfl
  have hkeep : (s.reader cfg).req.connectionClose = false := by
    rw [← m.lastClose_headers]
    exact congrArg Head.connectionClose (hhead.trans (m.head_eq (by simp [hm.body])))
  -- there is no body that the function could leave
  have hremaining : (s.reader cfg).req.contentLengthRemaining ≤ 0 := by
    have hlen := congrArg List.length hback
    rw [hm.body, HiwRequest.readAheadBytes, Buf.length_bytes] at hlen
    have hzero : (s.reader cfg).req.readAheadLength.toNat = 0 := hlen
    have hle := hahead.le
    have hnonneg := hahead.nonneg
    omega
  have htakes' : (s.reader cfg).client.Takes (n + 2) size := by
    unfold HiwClient.Takes at htakes ⊢
    rwa [show (s.reader cfg).client.outgoing = s.client.outgoing from hout]
  obtain ⟨r, hrun, hwire', hin', htakes'', hsent, hleft, hclose⟩ :=
    Reply.run_program hsuits.toSendable s.memoryFixed (s.reader cfg).req htakes' hsuits.head_le
      hsuits.body_le
  have hserved : s.served cfg (Reply.serve answer) = some ((s.reader cfg).req, r) := by
    rw [served, Reply.serve, huri, response, hkeep]
    exact hrun
  have hfin : r.finish cfg (s.reader cfg).req.contentLengthRemaining = some (true, r) := by
    rw [HiwResponse.finish, if_neg (not_lt.2 hremaining), HiwResponse.flushHeaders, if_pos hsent]
    simp only
    rw [if_neg (not_lt.2 (Int.le_of_eq hleft)), hclose]
    rfl
  have hiter : s.iterate cfg (Reply.serve answer) =
      { s with
        request := (s.reader cfg).req
        invoked := s.invoked ++ [s.invocation cfg (s.reader cfg).req]
        memoryFixed := r.memoryFixed
        client := r.client
        phase := .retry } := by
    simp only [iterate, hphase, hserved, hfin, if_true]
  rw [hiter]
  refine ⟨?_, rfl, hin'.trans hclient, ?_, htakes''⟩
  · show (s.reader cfg).req.memory.stop = _ ∧ (s.reader cfg).req.memory.resizeBytes = _
    rw [hmem]
    exact ⟨rfl, rfl⟩
  · exact hwire'.trans (congrArg (· ++ _) hwire)

/-- **What a client gets.**  When each receive brings one request, the client gets the replies to
its requests, one behind the other and nothing else. -/
theorem wire_of_replies {ms : List Message} (hs : s.Ready cfg) (hp : s.phase = .retry)
    (hm : ∀ m ∈ ms, Plain cfg m) (hin : s.client.incoming = ms.map fun m => .data m.bytes)
    (hsuits : ∀ m ∈ ms, Suits cfg (answer m.uri) size)
    (htakes : s.client.Takes (2 * ms.length) size) :
    ∃ t, Visited (iterate cfg (Reply.serve answer)) final s t ∧ t.phase = .closed ∧
      t.client.wire = s.client.wire ++ ms.flatMap fun m => (answer m.uri).bytes cfg false := by
  have hfinal : s.final = false := by simp [final, hp]
  induction ms generalizing s with
  -- the next receive ends the connection
  | nil =>
    have hclosed : (s.iterate cfg (Reply.serve answer)).phase = .closed := (iterate_nil hs hin).1
    refine ⟨s.iterate cfg (Reply.serve answer), .tail .refl hfinal, hclosed, ?_⟩
    have hphase := reader_nil hs hin
    have hwire := (HiwRequest.sent_readHeaders (fresh_of_ready hs) s.client).2
    simp only [iterate, hphase, List.flatMap_nil, List.append_nil]
    exact hwire
  | cons m ms ih =>
    rw [List.map_cons] at hin
    obtain ⟨hs', hp', hin', hwire', htakes'⟩ := iterate_reply hs (hm m List.mem_cons_self) hin
      (hsuits m List.mem_cons_self) (n := 2 * ms.length) htakes
    obtain ⟨t, hv, ht, hwire⟩ := ih hs' hp' (fun m' hm' => hm m' (List.mem_cons_of_mem _ hm')) hin'
      (fun m' hm' => hsuits m' (List.mem_cons_of_mem _ hm')) htakes' (by simp [final, hp'])
    refine ⟨t, hv.head hfinal, ht, ?_⟩
    rw [hwire, hwire', List.flatMap_cons, List.append_assoc]

end ChainState

end Highway
