import Highway.Servlet.ResponseHead

/-!
# The order of what a response sends

The calls of `hiw_client_sendall` that are made for a response follow one pattern
(`HiwResponse.Log`): some heads that could not be sent, the head that was sent, and behind it parts
of the body.  From the head that was sent on, the fields of the response are those of that head.

That there is no second attempt at a head is due to the `Server` header alone
(`HiwResponse.Once`): nothing records a failed attempt, but the flush that made it has put that
header into the table, and the next flush is refused by it.
-/

namespace Highway

open Lib

/-- The call hands over a head, and fails. -/
def Handed.IsFailedHead (e : Handed) : Prop := ∃ fields bytes, e = .head fields bytes false

namespace HiwResponse

variable {cfg : Config} {P : Op → Prop} {r r' r₁ r₂ : HiwResponse}

/-- The parts of a body of `total` bytes, and the value that `content_bytes_left` has after
them. -/
inductive Ledger (P : Op → Prop) (total : ℤ) : List Handed → ℤ → Prop
  | nil : Ledger P total [] total
  | body {bodies : List Handed} {left : ℤ} (h : Ledger P total bodies left) (src : Bytes) (n : ℤ)
      (ok : Bool) (hP : P (.writeBodyRaw src n)) :
      Ledger P total (bodies ++ [.body (src.take n.toNat) n left ok]) (bytesLeft total left n ok)

/-- The calls made for a response. -/
structure Log (P : Op → Prop) (r : HiwResponse) : Prop where
  unsent : r.flags.headersSent = false → ∀ e ∈ r.handed, e.IsFailedHead
  pending : r.flags.headersSent = false → r.flags.contentLengthSet = true →
    r.contentBytesLeft = r.contentLength
  sent : r.flags.headersSent = true → r.flags.contentLengthSet = true ∧
    ∃ tries bytes bodies, r.handed = tries ++ .head r.toResponseFields bytes true :: bodies ∧
      (∀ e ∈ tries, e.IsFailedHead) ∧ Ledger P r.contentLength bodies r.contentBytesLeft

theorem log_start (m : Buf) (client : HiwClient) (close : Bool) :
    Log P (start cfg m client close) :=
  ⟨fun _ _ he => (by cases he), fun _ h => Bool.noConfusion h, fun h => Bool.noConfusion h⟩

/-- **The calls keep to the pattern.** -/
theorem Log.change (hc : Change cfg P r r') (h : Log P r) : Log P r' := by
  cases hc with
  | fail => exact ⟨h.unsent, h.pending, h.sent⟩
  | status status hs hset =>
    exact ⟨h.unsent, h.pending, fun hsent => absurd (hs.symm.trans hsent) (by simp)⟩
  | header name value hacc =>
    refine ⟨fun hs => ?_, fun hs hset => ?_, fun hsent => ?_⟩
    · simpa using h.unsent (by simpa using hs)
    · simpa using h.pending (by simpa using hs) (by simpa using hset)
    · simp [hacc.unsent] at hsent
  | length len hP hs hset hmem =>
    exact ⟨h.unsent, fun _ _ => rfl, fun hsent => absurd (hs.symm.trans hsent) (by simp)⟩
  | connection close hs hset hmem =>
    exact ⟨h.unsent, h.pending, fun hsent => absurd (hs.symm.trans hsent) (by simp)⟩
  | head hP hs hlen hconn hserver =>
    obtain ⟨ok, client, heq⟩ := sendHead_eq (r.concluded cfg)
    rw [heq]
    -- a head that was not sent is one more failed try; behind one that was sent is no part yet
    cases ok with
    | false =>
      refine ⟨fun _ e he => ?_, fun _ _ => ?_, fun hsent => ?_⟩
      · rcases List.mem_append.1 he with he | he
        · exact h.unsent hs e (by simpa using he)
        · exact ⟨_, _, List.mem_singleton.1 he⟩
      · show (r.concluded cfg).contentBytesLeft = (r.concluded cfg).contentLength
        rw [contentBytesLeft_concluded, contentLength_concluded, h.pending hs hlen]
      · exact absurd hsent (by simp [hs])
    | true =>
      refine ⟨fun hunsent => Bool.noConfusion hunsent, fun hunsent => Bool.noConfusion hunsent,
        fun _ => ⟨by simpa using hlen, r.handed, (r.concluded cfg).content, [], ?_,
          h.unsent hs, ?_⟩⟩
      · show (r.concluded cfg).handed ++ _ = _
        rw [handed_concluded]
      · show Ledger P (r.concluded cfg).contentLength [] (r.concluded cfg).contentBytesLeft
        rw [contentBytesLeft_concluded, contentLength_concluded, h.pending hs hlen]
        exact .nil
  | body src n hP hs =>
    obtain ⟨ok, client, error, heq⟩ := sendBody_eq r src n
    rw [heq]
    obtain ⟨hset, tries, bytes, bodies, hhanded, htries, hledger⟩ := h.sent hs
    refine ⟨fun hunsent => absurd (hs.symm.trans hunsent) (by simp),
      fun hunsent => absurd (hs.symm.trans hunsent) (by simp),
      fun _ => ⟨hset, tries, bytes, _, ?_, htries, hledger.body src n ok hP⟩⟩
    show r.handed ++ _ = _
    rw [hhanded, List.append_assoc, List.cons_append]

theorem filter_isHead_body (handed : List Handed) (bytes : Bytes) (n left : ℤ) (ok : Bool) :
    (handed ++ [Handed.body bytes n left ok]).filter Handed.isHead =
      handed.filter Handed.isHead := by
  rw [List.filter_append]
  exact List.append_nil _

/-- At most one head is handed over, and none while the table is without a `Server` header. -/
structure Once (cfg : Config) (r : HiwResponse) : Prop where
  fresh : serverHeaderName cfg ∉ r.headers.map Prod.fst → r.handed.filter Handed.isHead = []
  once : (r.handed.filter Handed.isHead).length ≤ 1

theorem once_start (m : Buf) (client : HiwClient) (close : Bool) :
    Once cfg (start cfg m client close) :=
  ⟨fun _ => rfl, Nat.zero_le 1⟩

/-- **A head is handed over once.** -/
theorem Once.change (hw : cfg.writeServerHeader = true) (hc : Change cfg P r r')
    (h : Once cfg r) : Once cfg r' := by
  cases hc with
  | fail => exact ⟨h.fresh, h.once⟩
  | status => exact ⟨h.fresh, h.once⟩
  | header name value hacc =>
    refine ⟨fun hserver => ?_, by simpa using h.once⟩
    rw [handed_accept]
    refine h.fresh fun hmem => hserver ?_
    rw [toResponseFields_accept]
    exact List.map_subset _ (List.subset_append_left _ _) hmem
  | length => exact ⟨h.fresh, h.once⟩
  | connection => exact ⟨h.fresh, h.once⟩
  | head hP hs hlen hconn hserver =>
    -- the `Server` header was not in the table, so this is the first head
    have hnone := h.fresh (hserver hw).fresh
    obtain ⟨ok, client, heq⟩ := sendHead_eq (r.concluded cfg)
    rw [heq]
    refine ⟨fun hfresh => ?_, ?_⟩
    · simp [hw] at hfresh
    · show (((r.concluded cfg).handed ++ [_]).filter Handed.isHead).length ≤ 1
      rw [handed_concluded, List.filter_append, hnone]
      exact le_rfl
  | body src n hP hs =>
    obtain ⟨ok, client, error, heq⟩ := sendBody_eq r src n
    rw [heq]
    have hsame := filter_isHead_body r.handed (src.take n.toNat) n r.contentBytesLeft ok
    exact ⟨fun hfresh => hsame.trans (h.fresh hfresh), (congrArg _ hsame).trans_le h.once⟩

/-! ### The order -/

/-- What a response sends is in order. -/
structure SendOrder (r : HiwResponse) : Prop where
  /-- A head is handed over at most once, successfully or not. -/
  once : (r.handed.filter Handed.isHead).length ≤ 1
  /-- In front of a part of the body, a head was sent. -/
  head_first : ∀ before bytes n left ok behind,
    r.handed = before ++ .body bytes n left ok :: behind →
    ∃ fields bytes, .head fields bytes true ∈ before
  /-- The response still has the fields of the head that was sent. -/
  settled : ∀ fields bytes, .head fields bytes true ∈ r.handed → r.toResponseFields = fields

theorem Ledger.not_isHead {total left : ℤ} {bodies : List Handed}
    (h : Ledger P total bodies left) : ∀ e ∈ bodies, e.isHead = false := by
  induction h with
  | nil => intro e he; cases he
  | body h src n ok hP ih =>
    intro e he
    rcases List.mem_append.1 he with he | he
    · exact ih e he
    · rw [List.mem_singleton.1 he]
      rfl

/-- Where a list is cut at an element that is not in its front part, the front part is in front
of the cut. -/
theorem mem_front_of_append_cons {α : Type*} {a b : α} {l₁ l₂ l₁' l₂' : List α}
    (h : l₁ ++ a :: l₂ = l₁' ++ b :: l₂') (hfront : b ∉ l₁) (hne : b ≠ a) : a ∈ l₁' := by
  rcases List.append_eq_append_iff.1 h with ⟨l, rfl, hl⟩ | ⟨l, rfl, hl⟩
  · cases l with
    | nil => exact absurd (List.cons.inj hl).1.symm hne
    | cons c l =>
      obtain ⟨rfl, -⟩ := List.cons.inj hl
      simp
  · cases l with
    | nil => exact absurd (List.cons.inj hl).1 hne
    | cons c l =>
      obtain ⟨rfl, -⟩ := List.cons.inj hl
      simp at hfront

theorem sendOrder_of_log (h : Log P r) (honce : (r.handed.filter Handed.isHead).length ≤ 1) :
    SendOrder r := by
  have hfailed : ∀ e : Handed, e.IsFailedHead →
      (∀ bytes n left ok, e ≠ .body bytes n left ok) ∧
        ∀ fields bytes, e ≠ .head fields bytes true := by
    rintro e ⟨fields, bytes, rfl⟩
    simp
  -- before a head was sent there are failed tries only, so neither a body nor a sent head
  by_cases hs : r.flags.headersSent = true
  · obtain ⟨-, tries, bytes, bodies, hhanded, htries, hledger⟩ := h.sent hs
    refine ⟨honce, ?_, ?_⟩
    · intro before bytes' n left ok behind hbody
      refine ⟨r.toResponseFields, bytes, mem_front_of_append_cons (hhanded.symm.trans hbody) ?_
        (by simp)⟩
      intro hmem
      exact (hfailed _ (htries _ hmem)).1 _ _ _ _ rfl
    · intro fields bytes' hmem
      rw [hhanded] at hmem
      rcases List.mem_append.1 hmem with hmem | hmem
      · exact absurd rfl ((hfailed _ (htries _ hmem)).2 fields bytes')
      · rcases List.mem_cons.1 hmem with hmem | hmem
        · exact (Handed.head.inj hmem).1.symm
        · exact absurd (hledger.not_isHead _ hmem) (by simp [Handed.isHead])
  · have hunsent := h.unsent (by simpa using hs)
    refine ⟨honce, ?_, ?_⟩
    · intro before bytes n left ok behind hbody
      exact absurd rfl ((hfailed _ (hunsent _ (by rw [hbody]; simp))).1 bytes n left ok)
    · intro fields bytes hmem
      exact absurd rfl ((hfailed _ (hunsent _ hmem)).2 fields bytes)

theorem Change.handed_prefix (hc : Change cfg P r r') : r.handed <+: r'.handed := by
  cases hc with
  | fail => exact List.prefix_rfl
  | status => exact List.prefix_rfl
  | header name value hacc => rw [handed_accept]
  | length => exact List.prefix_rfl
  | connection => exact List.prefix_rfl
  | head hP hs hlen hconn hserver =>
    obtain ⟨ok, client, heq⟩ := sendHead_eq (r.concluded cfg)
    rw [heq]
    show r.handed <+: (r.concluded cfg).handed ++ _
    rw [handed_concluded]
    exact List.prefix_append _ _
  | body src n hP hs =>
    obtain ⟨ok, client, error, heq⟩ := sendBody_eq r src n
    rw [heq]
    exact List.prefix_append _ _

/-- **What a response sends is in order**, after every run of operations and flushes; and what
follows on the head that was sent does not change the fields of the response. -/
theorem send_order (hw : cfg.writeServerHeader = true) {m : Buf} {client : HiwClient}
    {close : Bool} {ops₁ ops₂ : List Op}
    (h₁ : runLabels (step cfg) (start cfg m client close) ops₁ = some r₁)
    (h₂ : runLabels (step cfg) r₁ ops₂ = some r₂) :
    SendOrder r₂ ∧ ((∃ fields bytes, .head fields bytes true ∈ r₁.handed) →
      r₂.toResponseFields = r₁.toResponseFields) := by
  have hstep : ∀ r r', Change cfg (fun _ => True) r r' →
      Log (fun _ => True) r ∧ Once cfg r → Log (fun _ => True) r' ∧ Once cfg r' :=
    fun _ _ hc h => ⟨h.1.change hc, h.2.change hw hc⟩
  have hbase : (start cfg m client close).Base := base_start m client close
  have hbase₁ := base_of_changes
    (changes_of_run hbase (P := fun _ => True) (fun _ _ => trivial) trivial h₁) hbase
  have hinv₁ := invariant_of_run hbase (fun _ _ => trivial) trivial
    ⟨log_start m client close, once_start m client close⟩ hstep h₁
  have hinv₂ := invariant_of_run hbase₁ (fun _ _ => trivial) trivial hinv₁ hstep h₂
  -- the head that was sent in the first part is still recorded after the second
  have hlog : r₁.handed <+: r₂.handed :=
    invariant_of_run (I := fun r => r₁.handed <+: r.handed) (P := fun _ => True) hbase₁
      (fun _ _ => trivial) trivial List.prefix_rfl (fun _ _ hc h => h.trans hc.handed_prefix) h₂
  have horder₁ := sendOrder_of_log hinv₁.1 hinv₁.2.once
  have horder₂ := sendOrder_of_log hinv₂.1 hinv₂.2.once
  refine ⟨horder₂, ?_⟩
  rintro ⟨fields, bytes, hmem⟩
  rw [horder₁.settled fields bytes hmem, horder₂.settled fields bytes (hlog.subset hmem)]

/-- A head, and a part of the body behind it, both of them sent. -/
def isHeadAndBody : List Handed → Bool
  | [.head _ _ true, .body _ _ _ true] => true
  | _ => false

/-- A head whose sending fails and that is tried again; and one that is sent, with calls behind it
that are to change the response and to send more of its body. -/
theorem send_order_twice :
    (∃ r₁ r₂,
      runLabels (step .default)
        (start .default (fun _ => 0) ⟨[], [.error, .accept 200], []⟩ false)
        [.setStatusCode 200, .setContentLength 5, .writeBodyRaw (ascii "hello") 5] = some r₁ ∧
      runLabels (step .default) r₁ [.writeBodyRaw (ascii "hello") 5, .flushHeaders] = some r₂ ∧
      SendOrder r₂ ∧ ((∃ fields bytes, .head fields bytes true ∈ r₁.handed) →
        r₂.toResponseFields = r₁.toResponseFields)) ∧
    ∃ r₁ r₂,
      runLabels (step .default)
        (start .default (fun _ => 0) ⟨[], [.accept 200, .accept 200, .accept 200], []⟩ false)
        [.setStatusCode 200, .setContentLength 9, .writeBodyRaw (ascii "hello") 5] = some r₁ ∧
      runLabels (step .default) r₁
        [.setStatusCode 404, .setConnectionClose true, .writeBodyRaw (ascii "body") 4,
          .flushHeaders] = some r₂ ∧
      (∃ fields bytes body n left, r₁.handed = [.head fields bytes true, .body body n left true]) ∧
      SendOrder r₂ ∧ r₂.toResponseFields = r₁.toResponseFields := by
  constructor
  · have hsome : (runLabels (step .default)
        (start .default (fun _ => 0) ⟨[], [.error, .accept 200], []⟩ false)
        ([.setStatusCode 200, .setContentLength 5, .writeBodyRaw (ascii "hello") 5] ++
          [.writeBodyRaw (ascii "hello") 5, .flushHeaders])).isSome = true := by decide +kernel
    obtain ⟨r₂, hr⟩ := Option.isSome_iff_exists.1 hsome
    rw [runLabels_append] at hr
    obtain ⟨r₁, h₁, h₂⟩ := Option.bind_eq_some_iff.1 hr
    exact ⟨r₁, r₂, h₁, h₂, send_order rfl h₁ h₂⟩
  · have hsome : (runLabels (step .default)
        (start .default (fun _ => 0) ⟨[], [.accept 200, .accept 200, .accept 200], []⟩ false)
        [.setStatusCode 200, .setContentLength 9, .writeBodyRaw (ascii "hello") 5]).any (fun r₁ =>
          isHeadAndBody r₁.handed && (runLabels (step .default) r₁
            [.setStatusCode 404, .setConnectionClose true, .writeBodyRaw (ascii "body") 4,
              .flushHeaders]).isSome) = true := by decide +kernel
    obtain ⟨r₁, h₁, hr⟩ := (Option.any_eq_true ..).1 hsome
    obtain ⟨hhanded, hr⟩ := Bool.and_eq_true_iff.1 hr
    obtain ⟨r₂, h₂⟩ := Option.isSome_iff_exists.1 hr
    obtain ⟨horder, hsame⟩ := send_order rfl h₁ h₂
    have hsent : ∃ fields bytes body n left,
        r₁.handed = [.head fields bytes true, .body body n left true] := by
      unfold isHeadAndBody at hhanded
      split at hhanded
      next heq => exact ⟨_, _, _, _, _, heq⟩
      next => cases hhanded
    obtain ⟨fields, bytes, body, n, left, heq⟩ := hsent
    refine ⟨r₁, r₂, h₁, h₂, ⟨fields, bytes, body, n, left, heq⟩, horder, hsame ⟨fields, bytes, ?_⟩⟩
    rw [heq]
    exact List.mem_cons_self

end HiwResponse

end Highway
