import Highway.Servlet.Connection
import Highway.Servlet.Refusal

/-!
# Writing more than the declared length

`hiw_response_write_body_raw` sends the bytes and then looks at `content_bytes_left`, which it only
counts down as long as it is positive.  So a part of the body that goes beyond the declared length
is on the wire before it is noticed, and behind a body of exactly that length it is not noticed at
all.  Sequences of writes keep to the declared length exactly when all of their sizes together do
(`HiwResponse.limits_iff`).
-/

namespace Highway

open Lib

/-- All bytes of the call were sent. -/
def Handed.ok : Handed → Bool
  | .head _ _ ok => ok
  | .body _ _ _ ok => ok

/-- The number of body bytes that the call has sent. -/
def Handed.sentBytes (e : Handed) : ℤ := if e.ok then e.bodyBytes else 0

namespace HiwResponse

/-- The number of body bytes handed to `hiw_client_sendall`. -/
def bodyHanded (r : HiwResponse) : ℤ := (r.handed.map Handed.bodyBytes).sum

/-- The number of body bytes sent. -/
def bodySent (r : HiwResponse) : ℤ := (r.handed.map Handed.sentBytes).sum

/-- The response after a call of `hiw_response_write_body_raw`, whatever its result. -/
def writeStep (cfg : Config) (r : HiwResponse) (w : Bytes × ℤ) : Option HiwResponse :=
  (r.writeBodyRaw cfg w.1 w.2).map Prod.snd

/-- No send of the call fails. -/
def Sends (cfg : Config) (r : HiwResponse) (w : Bytes × ℤ) : Prop :=
  ∀ r', r.writeStep cfg w = some r' → ∀ e ∈ r'.handed.drop r.handed.length, e.ok = true

/-- A call keeps to the declared length. -/
structure Limits (cfg : Config) (total : ℤ) (r : HiwResponse) (w : Bytes × ℤ) : Prop where
  accepted : ∀ r', r.writeBodyRaw cfg w.1 w.2 = some (true, r') → r.bodySent + w.2 ≤ total
  refused : total < r.bodySent + w.2 → ∀ b r', r.writeBodyRaw cfg w.1 w.2 = some (b, r') →
    b = false ∧ r'.bodyHanded = r.bodyHanded
  left : ∀ r', r.writeStep cfg w = some r' → r'.contentBytesLeft = total - r'.bodySent

/-- The head of the response cannot be sent: a header that the flush adds is refused. -/
def HeadRefused (cfg : Config) (r : HiwResponse) : Prop :=
  r.flags.headersSent = false ∧ ∀ r', r.flushHeaders cfg ≠ some (true, r')

/-- The operations other than writing a part of the body. -/
def WithoutBody : Op → Prop
  | .writeBodyRaw _ _ => False
  | _ => True

variable {cfg : Config} {r r' : HiwResponse} {name value src : Bytes} {b : Bool} {n total : ℤ}

/-! ### Flushing the head -/

/-- What makes a flush fail, once a length is set. -/
inductive Blocked (cfg : Config) (r : HiwResponse) : Prop
  | status : r.statusCode = 0 → Blocked cfg r
  | connection : r.flags.connectionSet = false → ¬ r.Accepts cfg (ascii "Connection") →
      Blocked cfg r
  | server : r.flags.connectionSet = true → cfg.writeServerHeader = true →
      ¬ r.Accepts cfg (serverHeaderName cfg) → Blocked cfg r

/-- A response with a length, whose body is not begun. -/
structure Waiting (total : ℤ) (r : HiwResponse) : Prop where
  base : r.Base
  unsent : r.flags.headersSent = false
  lengthSet : r.flags.contentLengthSet = true
  length : r.contentLength = total
  left : r.contentBytesLeft = total

/-- A response whose head was sent. -/
structure Sending (total : ℤ) (r : HiwResponse) : Prop where
  sent : r.flags.headersSent = true
  length : r.contentLength = total

theorem Sending.not_headRefused (h : Sending total r) : ¬ r.HeadRefused cfg := by
  rintro ⟨hunsent, -⟩
  rw [h.sent] at hunsent
  cases hunsent

theorem accepts_failed : r.failed.Accepts cfg name ↔ r.Accepts cfg name :=
  ⟨fun h => ⟨h.unsent, h.count, h.fresh, h.statusCode⟩,
    fun h => ⟨h.unsent, h.count, h.fresh, h.statusCode⟩⟩

theorem Blocked.failed (h : r.Blocked cfg) : r.failed.Blocked cfg := by
  cases h with
  | status h0 => exact .status h0
  | connection hset hno => exact .connection hset fun hacc => hno (accepts_failed.1 hacc)
  | server hset hw hno => exact .server hset hw fun hacc => hno (accepts_failed.1 hacc)

theorem Waiting.failed (h : Waiting total r) : Waiting total r.failed :=
  ⟨⟨h.base.fixed, h.base.length_unset⟩, h.unsent, h.lengthSet, h.length, h.left⟩

theorem Waiting.accept (h : Waiting total r) : Waiting total (r.accept name value) :=
  ⟨⟨by simpa using h.base.fixed, by simpa using h.base.length_unset⟩, by simpa using h.unsent,
    by simpa using h.lengthSet, by simpa using h.length, by simpa using h.left⟩

theorem andThen_cases {f : Option (Bool × HiwResponse)}
    {g : HiwResponse → Option (Bool × HiwResponse)} (h : andThen f g = some (b, r')) :
    (∃ r₁, f = some (false, r₁) ∧ b = false ∧ r' = r₁.failed) ∨
      ∃ r₁, f = some (true, r₁) ∧ g r₁ = some (b, r') := by
  match f, h with
  | some (false, r₁), h =>
    cases h
    exact .inl ⟨r₁, rfl, rfl, rfl⟩
  | some (true, r₁), h => exact .inr ⟨r₁, rfl, h⟩

theorem connection_cases (h : Waiting total r)
    (hf : (if r.flags.connectionSet then some (true, r)
      else r.setConnectionClose cfg r.connectionClose) = some (b, r')) :
    Waiting total r' ∧ r'.handed = r.handed ∧
      if b then r'.flags.connectionSet = true else r'.Blocked cfg := by
  by_cases hset : r.flags.connectionSet = true
  · rw [if_pos hset] at hf
    cases hf
    exact ⟨h, rfl, hset⟩
  rw [if_neg hset] at hf
  unfold setConnectionClose at hf
  rw [if_neg hset] at hf
  have hunset : r.flags.connectionSet = false := by simpa using hset
  rcases andThen_cases hf with ⟨r₁, hwrite, rfl, rfl⟩ | ⟨r₁, hwrite, hlast⟩
  · obtain ⟨hb, -⟩ | ⟨-, hno, rfl⟩ := writeHeader_cases h.base.fixed hwrite
    · cases hb
    · exact ⟨h.failed, rfl, (Blocked.connection hunset hno).failed⟩
  · obtain ⟨-, -, rfl⟩ | ⟨hb, -⟩ := writeHeader_cases h.base.fixed hwrite
    · cases hlast
      have hacc : Waiting total
          (r.accept (ascii "Connection") (connectionValue r.connectionClose)) := h.accept
      exact ⟨⟨⟨hacc.base.fixed, hacc.base.length_unset⟩, hacc.unsent, hacc.lengthSet, hacc.length,
        hacc.left⟩, handed_accept r (ascii "Connection") (connectionValue r.connectionClose), rfl⟩
    · cases hb

theorem server_cases (h : Waiting total r) (hset : r.flags.connectionSet = true)
    (hf : (if cfg.writeServerHeader then
        r.writeHeader cfg (serverHeaderName cfg) (serverHeaderValue cfg)
      else some (true, r)) = some (b, r')) :
    Waiting total r' ∧ r'.handed = r.handed ∧ (b = false → r'.Blocked cfg) := by
  by_cases hw : cfg.writeServerHeader = true
  · rw [if_pos hw] at hf
    obtain ⟨rfl, -, rfl⟩ | ⟨rfl, hno, rfl⟩ := writeHeader_cases h.base.fixed hf
    · exact ⟨h.accept, handed_accept _ _ _, fun hb => Bool.noConfusion hb⟩
    · exact ⟨h.failed, rfl, fun _ => (Blocked.server hset hw hno).failed⟩
  · rw [if_neg hw] at hf
    cases hf
    exact ⟨h, rfl, fun hb => Bool.noConfusion hb⟩

/-- How a flush ends: the head is sent, sending it fails, or the flush is blocked and hands over
nothing. -/
inductive FlushEnd (cfg : Config) (total : ℤ) (r : HiwResponse) : Bool → HiwResponse → Prop
  | sent {r' : HiwResponse} (fields : ResponseFields) (bytes : Bytes) : Sending total r' →
      r'.contentBytesLeft = total → r'.handed = r.handed ++ [.head fields bytes true] →
      FlushEnd cfg total r true r'
  | failed {r' : HiwResponse} (fields : ResponseFields) (bytes : Bytes) :
      r'.handed = r.handed ++ [.head fields bytes false] → FlushEnd cfg total r false r'
  | blocked {r' : HiwResponse} : Waiting total r' → r'.Blocked cfg → r'.handed = r.handed →
      FlushEnd cfg total r false r'

theorem flushEnd (h : Waiting total r) (hf : r.flushHeaders cfg = some (b, r')) :
    FlushEnd cfg total r b r' := by
  unfold flushHeaders at hf
  rw [if_neg (by simp [h.unsent])] at hf
  by_cases h0 : r.statusCode = 0
  · rw [if_pos h0] at hf
    cases hf
    exact .blocked h (.status h0) rfl
  rw [if_neg h0, if_pos h.lengthSet, andThen_true] at hf
  rcases andThen_cases hf with ⟨r₁, hconn, rfl, rfl⟩ | ⟨r₁, hconn, hf⟩
  · obtain ⟨hw, hhanded, hblocked⟩ := connection_cases h hconn
    exact .blocked hw.failed (Blocked.failed hblocked) hhanded
  obtain ⟨hw₁, hhanded₁, hset₁⟩ := connection_cases h hconn
  rcases andThen_cases hf with ⟨r₂, hserver, rfl, rfl⟩ | ⟨r₂, hserver, hf⟩
  · obtain ⟨hw, hhanded, hblocked⟩ := server_cases hw₁ hset₁ hserver
    exact .blocked hw.failed (hblocked rfl).failed (hhanded.trans hhanded₁)
  obtain ⟨hw₂, hhanded₂, -⟩ := server_cases hw₁ hset₁ hserver
  -- what is left is to send the head
  have hsend := andThen_writeRaw hw₂.base.fixed hf
  obtain ⟨ok, client, heq⟩ := sendHead_eq (r₂.append crlf)
  rw [heq] at hsend
  have hhanded : (r₂.append crlf).handed = r.handed := hhanded₂.trans hhanded₁
  cases ok with
  | true =>
    cases hsend
    exact .sent _ _ ⟨rfl, hw₂.length⟩ hw₂.left (congrArg (· ++ _) hhanded)
  | false =>
    cases hsend
    exact .failed _ _ (congrArg (· ++ _) hhanded)

theorem setConnectionClose_of_not_accepts {close : Bool} (hset : r.flags.connectionSet = false)
    (hno : ¬ r.Accepts cfg (ascii "Connection")) :
    r.setConnectionClose cfg close = some (false, r.failed) := by
  unfold setConnectionClose
  dsimp only
  rw [if_neg (by simp [hset]), writeHeader_of_not_accepts hno]
  rfl

theorem flushHeaders_of_blocked (h : Waiting total r) (hb : r.Blocked cfg) :
    r.flushHeaders cfg = some (false, r) ∨ r.flushHeaders cfg = some (false, r.failed) := by
  unfold flushHeaders
  rw [if_neg (by simp [h.unsent])]
  by_cases h0 : r.statusCode = 0
  · exact .inl (if_pos h0)
  rw [if_neg h0, if_pos h.lengthSet, andThen_true]
  refine .inr ?_
  cases hb with
  | status hzero => exact absurd hzero h0
  | connection hset hno =>
    rw [if_neg (by simp [hset]), setConnectionClose_of_not_accepts hset hno]
    rfl
  | server hset hw hno =>
    rw [if_pos hset, andThen_true, if_pos hw, writeHeader_of_not_accepts hno]
    rfl

/-! ### One call -/

theorem sendBody_sent (hpos : 0 < r.contentLength) (hok : (r.client.sendall src n).1 = n)
    (h : r.sendBody src n = (b, r')) :
    r'.handed = r.handed ++ [.body (src.take n.toNat) n r.contentBytesLeft true] ∧
      r'.flags.headersSent = r.flags.headersSent ∧ r'.contentLength = r.contentLength ∧
      r'.contentBytesLeft =
        (if 0 < r.contentBytesLeft then r.contentBytesLeft - n else r.contentBytesLeft) ∧
      (b = true ↔ 0 ≤ r'.contentBytesLeft) := by
  obtain ⟨client, error, heq⟩ := sendBody_spec r src n
  rw [decide_eq_true hok] at heq
  obtain ⟨rfl, rfl⟩ := Prod.mk.inj (heq.symm.trans h)
  refine ⟨rfl, rfl, rfl, ?_, ?_⟩
  · simp only [bytesLeft, hpos, true_and]
  · simp only [decide_eq_true_eq, hok, hpos, true_and, true_implies]

theorem handed_sendBody_failed (h : (r.client.sendall src n).1 ≠ n) :
    (r.sendBody src n).2.handed =
      r.handed ++ [.body (src.take n.toNat) n r.contentBytesLeft false] := by
  obtain ⟨client, error, heq⟩ := sendBody_spec r src n
  rw [heq, decide_eq_false h]

theorem bodySent_append {added : List Handed} (h : r'.handed = r.handed ++ added) :
    r'.bodySent = r.bodySent + (added.map Handed.sentBytes).sum := by
  rw [bodySent, bodySent, h, List.map_append, List.sum_append]

theorem bodyHanded_append {added : List Handed} (h : r'.handed = r.handed ++ added) :
    r'.bodyHanded = r.bodyHanded + (added.map Handed.bodyBytes).sum := by
  rw [bodyHanded, bodyHanded, h, List.map_append, List.sum_append]

theorem sum_bodyBytes_heads {heads : List Handed} (h : ∀ e ∈ heads, e.isHead = true) :
    (heads.map Handed.bodyBytes).sum = 0 ∧ (heads.map Handed.sentBytes).sum = 0 := by
  have hzero : ∀ e ∈ heads, e.bodyBytes = 0 := by
    intro e he
    cases e with
    | head => rfl
    | body => exact Bool.noConfusion (h _ he)
  constructor
  · refine List.sum_eq_zero fun x hx => ?_
    obtain ⟨e, he, rfl⟩ := List.mem_map.1 hx
    exact hzero e he
  · refine List.sum_eq_zero fun x hx => ?_
    obtain ⟨e, he, rfl⟩ := List.mem_map.1 hx
    rw [Handed.sentBytes, hzero e he, ite_self]

/-- The response before a call: its body is not begun, or its head was sent. -/
def Open (total : ℤ) (r : HiwResponse) : Prop := Waiting total r ∨ Sending total r

/-- How a call ends in which no send fails: the head is refused, or the bytes are sent. -/
inductive WriteEnd (cfg : Config) (total : ℤ) (r : HiwResponse) (n : ℤ) :
    Bool → HiwResponse → Prop
  | refused {r' : HiwResponse} : r.HeadRefused cfg → Waiting total r' → r'.Blocked cfg →
      r'.handed = r.handed → WriteEnd cfg total r n false r'
  | sent {b : Bool} {r' : HiwResponse} : ¬ r.HeadRefused cfg → Sending total r' →
      r'.bodySent = r.bodySent + n → r'.bodyHanded = r.bodyHanded + n →
      r'.contentBytesLeft =
        (if 0 < r.contentBytesLeft then r.contentBytesLeft - n else r.contentBytesLeft) →
      (b = true ↔ 0 ≤ r'.contentBytesLeft) → WriteEnd cfg total r n b r'

theorem writeEnd_of_sendBody {r₁ : HiwResponse} {heads : List Handed} (hpos : 0 < total)
    (hno : ¬ r.HeadRefused cfg) (h₁ : Sending total r₁)
    (hleft : r₁.contentBytesLeft = r.contentBytesLeft) (hheads : ∀ e ∈ heads, e.isHead = true)
    (hhanded : r₁.handed = r.handed ++ heads)
    (hsends : ∀ added, r'.handed = r.handed ++ added → ∀ e ∈ added, e.ok = true)
    (h : r₁.sendBody src n = (b, r')) : WriteEnd cfg total r n b r' := by
  have hok : (r₁.client.sendall src n).1 = n := by
    by_contra hfail
    have hlast := handed_sendBody_failed (r := r₁) hfail
    rw [h, hhanded, List.append_assoc] at hlast
    have hfalse := hsends _ hlast _ (List.mem_append_right heads (List.mem_singleton_self _))
    exact Bool.noConfusion hfalse
  obtain ⟨hhanded', hsent', hlength', hleft', hb⟩ :=
    sendBody_sent (by rw [h₁.length]; exact hpos) hok h
  rw [hhanded, List.append_assoc] at hhanded'
  obtain ⟨hzero, hzero'⟩ := sum_bodyBytes_heads hheads
  refine .sent hno ⟨hsent'.trans h₁.sent, hlength'.trans h₁.length⟩ ?_ ?_ (by rw [hleft', hleft]) hb
  · rw [bodySent_append hhanded', List.map_append, List.sum_append, hzero']
    simp [Handed.sentBytes, Handed.ok, Handed.bodyBytes]
  · rw [bodyHanded_append hhanded', List.map_append, List.sum_append, hzero]
    simp [Handed.bodyBytes]

theorem writeEnd (hpos : 0 < total) (hopen : Open total r) (hsends : r.Sends cfg (src, n))
    (h : r.writeBodyRaw cfg src n = some (b, r')) : WriteEnd cfg total r n b r' := by
  have hstep : r.writeStep cfg (src, n) = some r' := by rw [writeStep, h]; rfl
  have hsends' : ∀ added, r'.handed = r.handed ++ added → ∀ e ∈ added, e.ok = true := by
    intro added hadded
    have hdrop := hsends r' hstep
    rwa [hadded, List.drop_left] at hdrop
  unfold writeBodyRaw at h
  rcases hopen with hw | hs
  · rw [if_neg (by simp [hw.unsent]), if_neg (by rw [hw.length]; omega)] at h
    rcases andThen_cases h with ⟨r₁, hflush, rfl, rfl⟩ | ⟨r₁, hflush, hlast⟩
    · have hrefused : r.HeadRefused cfg := ⟨hw.unsent, fun r₂ htrue => by
        rw [hflush] at htrue
        cases htrue⟩
      cases flushEnd hw hflush with
      | failed fields bytes hhanded =>
        have hfalse := hsends' _ hhanded _ (List.mem_singleton_self _)
        exact Bool.noConfusion hfalse
      | blocked hw₁ hb hhanded => exact .refused hrefused hw₁.failed hb.failed hhanded
    · have hno : ¬ r.HeadRefused cfg := fun hrefused => hrefused.2 r₁ hflush
      cases flushEnd hw hflush with
      | sent fields bytes hs₁ hleft hhanded =>
        exact writeEnd_of_sendBody hpos hno hs₁ (hleft.trans hw.left.symm) (by simp [Handed.isHead])
          hhanded hsends' (Option.some.inj hlast)
  · rw [if_pos hs.sent, andThen_true] at h
    exact writeEnd_of_sendBody hpos hs.not_headRefused hs rfl (List.forall_mem_nil _)
      (List.append_nil _).symm hsends' (Option.some.inj h)

/-! ### Sequences of calls -/

/-- A call for a response whose head is refused keeps to the length: it sends nothing. -/
theorem limits_of_blocked (hpos : 0 < total) (hw : Waiting total r) (hb : r.Blocked cfg)
    (hsum : r.bodySent = 0) (w : Bytes × ℤ) :
    Limits cfg total r w ∧ ∀ r', r.writeStep cfg w = some r' → r' = r.failed := by
  have hret : r.writeBodyRaw cfg w.1 w.2 = some (false, r.failed) := by
    unfold writeBodyRaw
    rw [if_neg (by simp [hw.unsent]), if_neg (by rw [hw.length]; omega)]
    rcases flushHeaders_of_blocked hw hb with hflush | hflush <;> rw [hflush] <;> rfl
  have hstep : r.writeStep cfg w = some r.failed := by rw [writeStep, hret]; rfl
  refine ⟨⟨fun r' h => ?_, fun _ b r' h => ?_, fun r' h => ?_⟩, fun r' h => ?_⟩
  · rw [hret] at h
    cases h
  · rw [hret] at h
    cases h
    exact ⟨rfl, rfl⟩
  · rw [hstep] at h
    cases h
    show r.contentBytesLeft = total - r.bodySent
    rw [hw.left, hsum, Int.sub_zero]
  · rw [hstep] at h
    exact (Option.some.inj h).symm

theorem allSteps_limits_of_blocked (hpos : 0 < total) (hw : Waiting total r) (hb : r.Blocked cfg)
    (hsum : r.bodySent = 0) (writes : List (Bytes × ℤ)) :
    AllSteps (writeStep cfg) (Limits cfg total) r writes := by
  induction writes generalizing r with
  | nil => trivial
  | cons w writes ih =>
    obtain ⟨hlimits, hnext⟩ := limits_of_blocked hpos hw hb hsum w
    refine ⟨hlimits, fun r' hr' => ?_⟩
    obtain rfl := hnext r' hr'
    exact ih hw.failed hb.failed hsum

/-- **Step by step.**  While the counter is right, the calls keep to the length exactly as long as
their sizes fit into what is left. -/
theorem allSteps_limits_iff (hpos : 0 < total) (hopen : Open total r)
    (hno : ¬ r.HeadRefused cfg) (hleft : r.contentBytesLeft = total - r.bodySent)
    (h0 : 0 ≤ r.contentBytesLeft) {writes : List (Bytes × ℤ)} (hn : ∀ w ∈ writes, 0 ≤ w.2)
    (hrun : runLabels (writeStep cfg) r writes = some r')
    (hsends : AllSteps (writeStep cfg) (Sends cfg) r writes) :
    AllSteps (writeStep cfg) (Limits cfg total) r writes ↔
      (writes.map Prod.snd).sum ≤ r.contentBytesLeft := by
  induction writes generalizing r with
  | nil => exact iff_of_true trivial (by simpa using h0)
  | cons w writes ih =>
    obtain ⟨src, n⟩ := w
    obtain ⟨hn0, hn'⟩ := List.forall_mem_cons.1 hn
    obtain ⟨r₁, hstep, hrun⟩ := Option.bind_eq_some_iff.1 hrun
    obtain ⟨⟨b, r₂⟩, hcall, rfl⟩ := Option.map_eq_some_iff.1 hstep
    have hrest : 0 ≤ (writes.map Prod.snd).sum :=
      List.sum_nonneg fun x hx => by
        obtain ⟨w, hw, rfl⟩ := List.mem_map.1 hx
        exact hn' w hw
    rw [List.map_cons, List.sum_cons]
    cases writeEnd hpos hopen hsends.1 hcall with
    | refused hrefused => exact absurd hrefused hno
    | sent _ hs hsent hhanded hleft' hb =>
      by_cases hfits : n ≤ r.contentBytesLeft
      · -- what was left is counted down, or nothing was left and nothing is sent
        have hnext : r₂.contentBytesLeft = r.contentBytesLeft - n := by
          rw [hleft']
          split_ifs <;> omega
        have hlimits : Limits cfg total r (src, n) := by
          refine ⟨fun _ _ => by omega, fun hover => by omega, fun r' hr' => ?_⟩
          obtain rfl : r₂ = r' := Option.some.inj (hstep.symm.trans hr')
          omega
        have hih := ih (r := r₂) (.inr hs) hs.not_headRefused (by omega)
          (by omega) hn' hrun (hsends.2 _ hstep)
        rw [hnext] at hih
        constructor
        · intro hall
          have := hih.1 (hall.2 _ hstep)
          omega
        · intro hsum
          refine ⟨hlimits, fun r' hr' => ?_⟩
          obtain rfl : r₂ = r' := Option.some.inj (hstep.symm.trans hr')
          exact hih.2 (by omega)
      · -- the bytes are handed over all the same
        refine iff_of_false (fun hall => ?_) (by omega)
        have hsame := (hall.1.refused (by simp only; omega) b r₂ hcall).2
        omega

theorem open_of_run {m : Buf} {client : HiwClient} {close : Bool} {ops : List Op}
    (hops : ∀ op ∈ ops, WithoutBody op)
    (hr : runLabels (step cfg) (start cfg m client close) ops = some r)
    (hset : r.flags.contentLengthSet = true) :
    Open r.contentLength r ∧ r.bodySent = 0 ∧ r.contentBytesLeft = r.contentLength := by
  have hbase : r.Base :=
    base_of_changes (P := WithoutBody) (changes_of_run (base_start m client close) hops trivial hr)
      (base_start m client close)
  have hlog : Log WithoutBody r :=
    invariant_of_run (base_start m client close) hops trivial (log_start m client close)
      (fun _ _ hc h => h.change hc) hr
  have hfailed : ∀ {tries : List Handed}, (∀ e ∈ tries, e.IsFailedHead) →
      ∀ e ∈ tries, e.isHead = true := by
    intro tries htries e he
    obtain ⟨fields, bytes, rfl⟩ := htries e he
    rfl
  by_cases hs : r.flags.headersSent = true
  · -- behind the head that was sent there is nothing
    obtain ⟨-, tries, bytes, bodies, hhanded, htries, hledger⟩ := hlog.sent hs
    obtain ⟨rfl, hleft⟩ := hledger.eq_nil fun src n h => h
    refine ⟨.inr ⟨hs, rfl⟩, ?_, hleft⟩
    rw [bodySent, hhanded]
    refine (sum_bodyBytes_heads fun e he => ?_).2
    rcases List.mem_append.1 he with he | he
    · exact hfailed htries e he
    · rw [List.mem_singleton.1 he]
      rfl
  · have hunsent : r.flags.headersSent = false := by simpa using hs
    have hleft := hlog.pending hunsent hset
    exact ⟨.inl ⟨hbase, hunsent, hset, rfl, hleft⟩,
      (sum_bodyBytes_heads (hfailed (hlog.unsent hunsent))).2, hleft⟩

/-- **When body writes keep to the declared length.**  For a response with an accepted length, and
writes none of whose sends fails: exactly if the sizes together are within the length, or if the
head of the response cannot be sent at all. -/
theorem limits_iff {m : Buf} {client : HiwClient} {close : Bool} {ops : List Op}
    (hops : ∀ op ∈ ops, WithoutBody op)
    (hr : runLabels (step cfg) (start cfg m client close) ops = some r)
    (hset : r.flags.contentLengthSet = true) (hpos : 0 < r.contentLength)
    {writes : List (Bytes × ℤ)} (hn : ∀ w ∈ writes, 0 ≤ w.2)
    (hrun : runLabels (writeStep cfg) r writes = some r')
    (hsends : AllSteps (writeStep cfg) (Sends cfg) r writes) :
    AllSteps (writeStep cfg) (Limits cfg r.contentLength) r writes ↔
      (writes.map Prod.snd).sum ≤ r.contentLength ∨ r.HeadRefused cfg := by
  obtain ⟨hopen, hsum, hleft⟩ := open_of_run hops hr hset
  by_cases hrefused : r.HeadRefused cfg
  · refine iff_of_true ?_ (.inr hrefused)
    cases writes with
    | nil => trivial
    | cons w writes =>
      obtain ⟨src, n⟩ := w
      obtain ⟨r₁, hstep, hrun⟩ := Option.bind_eq_some_iff.1 hrun
      obtain ⟨⟨b, r₂⟩, hcall, rfl⟩ := Option.map_eq_some_iff.1 hstep
      cases writeEnd hpos hopen hsends.1 hcall with
      | sent hno => exact absurd hrefused hno
      | refused _ hw hb hhanded =>
        -- from here on the flush is blocked
        have hsame : r₂.bodySent = 0 := by rw [bodySent, hhanded]; exact hsum
        have hsame' : r₂.bodyHanded = r.bodyHanded := by rw [bodyHanded, hhanded, bodyHanded]
        refine ⟨⟨fun r' h => ?_, fun _ b r' h => ?_, fun r' h => ?_⟩, fun r' h => ?_⟩
        · rw [hcall] at h
          cases h
        · rw [hcall] at h
          cases h
          exact ⟨rfl, hsame'⟩
        · obtain rfl : r₂ = r' := Option.some.inj (hstep.symm.trans h)
          rw [hw.left, hsame, Int.sub_zero]
        · obtain rfl : r₂ = r' := Option.some.inj (hstep.symm.trans h)
          exact allSteps_limits_of_blocked hpos hw hb hsame writes
  · rw [allSteps_limits_iff hpos hopen hrefused (by rw [hleft, hsum, Int.sub_zero])
      (by omega) hn hrun hsends, hleft, or_iff_left hrefused]

/-- A test for `Sends`. -/
def sendsTest (cfg : Config) (r : HiwResponse) (w : Bytes × ℤ) : Bool :=
  (r.writeStep cfg w).all fun r' => (r'.handed.drop r.handed.length).all Handed.ok

theorem sends_of_test {w : Bytes × ℤ} (h : r.sendsTest cfg w = true) : r.Sends cfg w := by
  intro r' hr' e he
  rw [sendsTest, hr', Option.all_some] at h
  exact List.all_eq_true.1 h e he

/-- A response with a body of five bytes to come. -/
def fiveBytes : Option HiwResponse :=
  runLabels (step .default) (start .default (fun _ => 0)
    ⟨[], [.accept 200, .accept 8, .accept 8], []⟩ false) [.setStatusCode 200, .setContentLength 5]

/-- Five bytes in two parts. -/
theorem limits_parts : ∃ r, fiveBytes = some r ∧ AllSteps (writeStep .default)
    (Limits .default r.contentLength) r [(ascii "he", 2), (ascii "llo", 3)] := by
  obtain ⟨r, hr⟩ : ∃ r, fiveBytes = some r := Option.isSome_iff_exists.1 (by decide +kernel)
  have hfacts : fiveBytes.all (fun r => r.flags.contentLengthSet &&
      decide (r.contentLength = 5) &&
      (runLabels (writeStep .default) r [(ascii "he", 2), (ascii "llo", 3)]).isSome &&
      testSteps (writeStep .default) (sendsTest .default) r
        [(ascii "he", 2), (ascii "llo", 3)]) = true := by decide +kernel
  simp only [hr, Option.all_some, Bool.and_eq_true, decide_eq_true_eq] at hfacts
  obtain ⟨⟨⟨hset, hlen⟩, hsome⟩, htest⟩ := hfacts
  obtain ⟨r', hrun⟩ := Option.isSome_iff_exists.1 hsome
  refine ⟨r, hr, (limits_iff (by simp [WithoutBody]) hr hset (by omega) (by simp) hrun
    ((allSteps_of_testSteps htest).mono fun _ _ => sends_of_test)).2 (.inl ?_)⟩
  rw [hlen]
  decide

/-- One byte behind a body of five. -/
theorem not_limits : ¬ ∀ (cfg : Config) (m : Buf) (client : HiwClient) (close : Bool)
    (ops : List Op) (r r' : HiwResponse) (writes : List (Bytes × ℤ)),
    (∀ op ∈ ops, WithoutBody op) →
    runLabels (step cfg) (start cfg m client close) ops = some r →
    r.flags.contentLengthSet = true → 0 < r.contentLength → (∀ w ∈ writes, 0 ≤ w.2) →
    runLabels (writeStep cfg) r writes = some r' →
    AllSteps (writeStep cfg) (Sends cfg) r writes →
    AllSteps (writeStep cfg) (Limits cfg r.contentLength) r writes := by
  intro hall
  obtain ⟨r, hr⟩ : ∃ r, fiveBytes = some r := Option.isSome_iff_exists.1 (by decide +kernel)
  have hfacts : fiveBytes.all (fun r => r.flags.contentLengthSet &&
      decide (r.contentLength = 5) &&
      (runLabels (writeStep .default) r [(ascii "hello", 5), (ascii "x", 1)]).isSome &&
      testSteps (writeStep .default) (sendsTest .default) r
        [(ascii "hello", 5), (ascii "x", 1)] &&
      (r.flushHeaders .default).any Prod.fst) = true := by decide +kernel
  simp only [hr, Option.all_some, Bool.and_eq_true, decide_eq_true_eq] at hfacts
  obtain ⟨⟨⟨⟨hset, hlen⟩, hsome⟩, htest⟩, hflush⟩ := hfacts
  obtain ⟨r', hrun⟩ := Option.isSome_iff_exists.1 hsome
  have htests : ∀ (r : HiwResponse) (w : Bytes × ℤ), r.sendsTest .default w = true →
      r.Sends .default w := fun _ _ => sends_of_test
  have hsends := (allSteps_of_testSteps htest).mono htests
  have hlimits := hall _ _ _ _ _ _ _ _ (by simp [WithoutBody]) hr hset (by omega) (by simp) hrun
    hsends
  have hno : ¬ r.HeadRefused .default := by
    rintro ⟨-, hrefused⟩
    obtain ⟨⟨ok, r₁⟩, hf, rfl⟩ := (Option.any_eq_true _ _).1 hflush
    exact hrefused r₁ hf
  obtain ⟨hopen, hsum, hleft⟩ := open_of_run (by simp [WithoutBody]) hr hset
  have hle := (allSteps_limits_iff (by omega) hopen hno (by rw [hleft, hsum, Int.sub_zero])
    (by omega) (by simp) hrun hsends).1 hlimits
  rw [hleft, hlen] at hle
  exact absurd hle (by decide)

end HiwResponse

end Highway
