import Highway.Servlet.ResponseLog

/-!
# Keeping a connection

The end of an iteration of the connection loop decides whether the connection is kept for another
request.  The counter `content_bytes_left` is all that it knows about the body that was sent.

The counter is right about the body exactly when no call of `hiw_client_sendall` was made for more
bytes than the counter had left, and every call for some bytes sent them (`HiwResponse.Counted`).
Nothing else can go wrong but a negative length: the header then has the length modulo `2^32`.
-/

namespace Highway

open Lib

/-- The fields of the head, if the call sent one. -/
def Handed.sentHead : Handed → Option ResponseFields
  | .head fields _ true => some fields
  | _ => none

/-- The number of body bytes in the call. -/
def Handed.bodyBytes : Handed → ℤ
  | .head .. => 0
  | .body _ n _ _ => n

/-- The number denoted by the `Content-Length` header. -/
def ResponseFields.contentLengthHeader (fields : ResponseFields) : Option ℕ :=
  (fields.headers.find? fun h => h.1 = ascii "Content-Length").map fun h => digitsValue h.2

namespace HiwResponse

/-- The end of an iteration of the loop of `hiw_servlet_start_filter_chain`, for a request with
`remaining` bytes of content not read: the answer is whether it goes to `read_retry`. -/
def finish (cfg : Config) (remaining : ℤ) (r : HiwResponse) : Option (Bool × HiwResponse) :=
  if remaining > 0 then some (false, { r with connectionClose := true })
  else
    match r.flushHeaders cfg with
    | none => none
    | some (false, r) => some (false, { r with connectionClose := true })
    | some (true, r) =>
      if r.contentBytesLeft > 0 then some (false, { r with connectionClose := true })
      else some (!r.connectionClose, r)

/-- One head was sent, and the calls behind it were for as many bytes as it announced. -/
def Framed (r : HiwResponse) : Prop :=
  ∃ fields, r.handed.filterMap Handed.sentHead = [fields] ∧
    (fields.contentLengthHeader).map (fun n => (n : ℤ)) =
      some ((r.handed.dropWhile fun e => e.sentHead.isNone).map Handed.bodyBytes).sum

/-- The accepted length is not negative, and each call for a part of the body was for no more
bytes than `content_bytes_left` and sent them. -/
def Counted (r : HiwResponse) : Prop :=
  0 ≤ r.contentLength ∧
    ∀ bytes n left ok, .body bytes n left ok ∈ r.handed → n ≤ left ∧ (ok = true ∨ n = 0)

/-- The operations that filters and the servlet perform: lengths are of type `int`, and parts of a
body have a length. -/
def Public : Op → Prop
  | .setContentLength len => -2 ^ 31 ≤ len ∧ len < 2 ^ 31
  | .writeBodyRaw _ n => 0 ≤ n
  | .flushHeaders => False
  | _ => True

/-- The same, and the flush of the loop. -/
def Performed (op : Op) : Prop := Public op ∨ op = .flushHeaders

variable {cfg : Config} {P : Op → Prop} {r r' : HiwResponse} {total left : ℤ}
  {bodies : List Handed}

/-! ### The counter -/

theorem sum_bodyBytes_concat (src : Bytes) (n l : ℤ) (ok : Bool) :
    ((bodies ++ [Handed.body src n l ok]).map Handed.bodyBytes).sum =
      (bodies.map Handed.bodyBytes).sum + n := by
  simp [Handed.bodyBytes]

theorem nonneg_of_performed {src : Bytes} {n : ℤ} (h : Performed (.writeBodyRaw src n)) :
    0 ≤ n := by
  rcases h with h | h
  · exact h
  · cases h

theorem bytesLeft_cases (total l n : ℤ) (ok : Bool) :
    (bytesLeft total l n ok = l - n ∧ ok = true ∧ 0 < total ∧ 0 < l) ∨
      (bytesLeft total l n ok = l ∧ (ok = true → 0 < total → l ≤ 0)) := by
  unfold bytesLeft
  split_ifs with h
  · exact .inl ⟨rfl, h⟩
  · refine .inr ⟨rfl, fun hok htotal => ?_⟩
    by_contra hl
    exact h ⟨hok, htotal, by omega⟩

theorem Ledger.sum_nonneg (h : Ledger Performed total bodies left) :
    0 ≤ (bodies.map Handed.bodyBytes).sum := by
  induction h with
  | nil => simp
  | body h src n ok hP ih =>
    have hn := nonneg_of_performed hP
    rw [sum_bodyBytes_concat]
    omega

theorem Ledger.sub_le (h : Ledger Performed total bodies left) :
    total - (bodies.map Handed.bodyBytes).sum ≤ left := by
  induction h with
  | nil => simp
  | @body bodies l h src n ok hP ih =>
    have hn := nonneg_of_performed hP
    rw [sum_bodyBytes_concat]
    rcases bytesLeft_cases total l n ok with ⟨heq, -⟩ | ⟨heq, -⟩
    · rw [heq]; omega
    · rw [heq]; omega

theorem Ledger.counted (h : Ledger Performed total bodies left)
    (hleft : left = total - (bodies.map Handed.bodyBytes).sum) (h0 : 0 ≤ left) :
    ∀ bytes n l ok, .body bytes n l ok ∈ bodies → n ≤ l ∧ (ok = true ∨ n = 0) := by
  induction h with
  | nil => intro bytes n l ok hmem; cases hmem
  | @body bodies l h src n ok hP ih =>
    have hn := nonneg_of_performed hP
    have hle := h.sub_le
    rw [sum_bodyBytes_concat] at hleft
    -- the last part was counted, or it was empty; in both cases the counter was right before
    have hlast : l = total - (bodies.map Handed.bodyBytes).sum ∧ n ≤ l ∧ (ok = true ∨ n = 0) := by
      rcases bytesLeft_cases total l n ok with ⟨heq, hok, -⟩ | ⟨heq, -⟩
      · rw [heq] at hleft h0
        exact ⟨by omega, by omega, .inl hok⟩
      · rw [heq] at hleft h0
        exact ⟨by omega, by omega, .inr (by omega)⟩
    intro bytes n' l' ok' hmem
    rcases List.mem_append.1 hmem with hmem | hmem
    · exact ih hlast.1 (by omega) bytes n' l' ok' hmem
    · obtain ⟨-, rfl, rfl, rfl⟩ : _ ∧ n' = n ∧ l' = l ∧ ok' = ok := by simpa using hmem
      exact hlast.2

theorem Ledger.right (h : Ledger Performed total bodies left) (htotal : 0 ≤ total)
    (hcounted : ∀ bytes n l ok, .body bytes n l ok ∈ bodies → n ≤ l ∧ (ok = true ∨ n = 0)) :
    left = total - (bodies.map Handed.bodyBytes).sum ∧ 0 ≤ left := by
  induction h with
  | nil => exact ⟨by simp, htotal⟩
  | @body bodies l h src n ok hP ih =>
    have hn := nonneg_of_performed hP
    obtain ⟨hl, hl0⟩ := ih fun bytes n' l' ok' hmem =>
      hcounted bytes n' l' ok' (List.mem_append_left _ hmem)
    obtain ⟨hle, hok⟩ := hcounted _ n l ok (List.mem_append_right _ (List.mem_singleton_self _))
    have hsum := h.sum_nonneg
    rw [sum_bodyBytes_concat]
    rcases bytesLeft_cases total l n ok with ⟨heq, -⟩ | ⟨heq, hzero⟩
    · rw [heq]
      exact ⟨by omega, by omega⟩
    · -- a part that was not counted is empty
      have hn0 : n = 0 := by
        rcases hok with rfl | rfl
        · rcases eq_or_lt_of_le htotal with rfl | hpos
          · omega
          · have := hzero rfl hpos
            omega
        · rfl
      rw [heq]
      exact ⟨by omega, hl0⟩

/-! ### What the log says about the framing -/

theorem digitsValue_lengthValue (len : ℤ) :
    (digitsValue (lengthValue len) : ℤ) = len % 2 ^ 32 := by
  have hnonneg : 0 ≤ len % 2 ^ 32 := Int.emod_nonneg _ (by norm_num)
  have hlt : len % 2 ^ 32 < 2 ^ 32 := Int.emod_lt_of_pos _ (by norm_num)
  rw [lengthValue, uitoc_eq_decimal (by omega) (by omega), Option.getD_some,
    digitsValue_decimal, Int.toNat_of_nonneg hnonneg]

/-- The `Content-Length` header denotes the length modulo `2^32`. -/
theorem contentLengthHeader_eq (h : Table cfg P r) (hset : r.flags.contentLengthSet = true) :
    (r.contentLengthHeader).map (fun n => (n : ℤ)) = some (r.contentLength % 2 ^ 32) := by
  have hmem := (h.length hset).1
  have hfind := List.head?_filter (p := fun h => decide (h.1 = ascii "Content-Length"))
    (l := r.headers)
  rw [filter_eq_singleton h.nodup hmem] at hfind
  rw [ResponseFields.contentLengthHeader, ← hfind]
  exact congrArg some (digitsValue_lengthValue _)

theorem sentHead_of_isFailedHead {e : Handed} (h : e.IsFailedHead) : e.sentHead = none := by
  obtain ⟨fields, bytes, rfl⟩ := h
  rfl

theorem sentHead_of_not_isHead {e : Handed} (h : e.isHead = false) : e.sentHead = none := by
  cases e with
  | head => cases h
  | body => rfl

theorem framed_iff_sum {tries : List Handed} {bytes : Bytes}
    (hhanded : r.handed = tries ++ .head r.toResponseFields bytes true :: bodies)
    (htries : ∀ e ∈ tries, e.IsFailedHead) (hbodies : ∀ e ∈ bodies, e.isHead = false) :
    Framed r ↔ (r.contentLengthHeader).map (fun n => (n : ℤ)) =
      some (bodies.map Handed.bodyBytes).sum := by
  have htries' : tries.filterMap Handed.sentHead = [] :=
    List.filterMap_eq_nil_iff.2 fun e he => sentHead_of_isFailedHead (htries e he)
  have hbodies' : bodies.filterMap Handed.sentHead = [] :=
    List.filterMap_eq_nil_iff.2 fun e he => sentHead_of_not_isHead (hbodies e he)
  have hheads : r.handed.filterMap Handed.sentHead = [r.toResponseFields] := by
    rw [hhanded, List.filterMap_append, htries', List.nil_append,
      List.filterMap_cons_some (show Handed.sentHead (.head _ bytes true) = _ from rfl), hbodies']
  have hdrop : (r.handed.dropWhile fun e => e.sentHead.isNone) =
      .head r.toResponseFields bytes true :: bodies := by
    rw [hhanded, List.dropWhile_append_of_pos fun e he => by
      rw [sentHead_of_isFailedHead (htries e he)]; rfl]
    rfl
  -- the head that was sent is followed by body parts only
  have hsum : ((r.handed.dropWhile fun e => e.sentHead.isNone).map Handed.bodyBytes).sum =
      (bodies.map Handed.bodyBytes).sum := by
    rw [hdrop, List.map_cons, List.sum_cons]
    exact zero_add _
  constructor
  · rintro ⟨fields, hfields, hlen⟩
    rw [hheads] at hfields
    cases hfields
    rw [hlen, hsum]
  · intro hlen
    exact ⟨r.toResponseFields, hheads, by rw [hlen, hsum]⟩

/-! ### The end of an iteration -/

theorem finish_eq_retry {remaining : ℤ} (h : finish cfg remaining r = some (true, r')) :
    r.flushHeaders cfg = some (true, r') ∧ r'.contentBytesLeft ≤ 0 ∧
      r'.connectionClose = false ∧ remaining ≤ 0 := by
  unfold finish at h
  split_ifs at h with hrem
  · cases h
  · match hf : r.flushHeaders cfg with
    | none => simp [hf] at h
    | some (false, r₁) => simp [hf] at h
    | some (true, r₁) =>
      simp only [hf] at h
      split_ifs at h with hleft
      · cases h
      · obtain ⟨hclose, rfl⟩ := Prod.mk.inj (Option.some.inj h)
        exact ⟨rfl, by omega, by simpa using hclose, by omega⟩

/-- Without a flush of its own, a response only gets its head sent for a body. -/
theorem positive_of_change (hP : ¬P .flushHeaders) (hc : Change cfg P r r')
    (h : r.flags.headersSent = true → 0 < r.contentLength) :
    r'.flags.headersSent = true → 0 < r'.contentLength := by
  intro hsent
  cases hc with
  | fail => exact h hsent
  | status => exact h hsent
  | header name value hacc => exact absurd hsent (by simp [hacc.unsent])
  | length len hP hs => exact absurd (hs.symm.trans hsent) (by simp)
  | connection close hs => exact h hsent
  | head hP' hs =>
    obtain ⟨ok, client, heq⟩ := sendHead_eq (r.concluded cfg)
    rw [heq]
    show 0 < (r.concluded cfg).contentLength
    rw [contentLength_concluded]
    exact hP'.resolve_left hP
  | body src n hP hs =>
    obtain ⟨ok, client, error, heq⟩ := sendBody_eq r src n
    rw [heq]
    exact h hs

theorem Ledger.eq_nil (hP : ∀ src n, ¬P (.writeBodyRaw src n))
    (h : Ledger P total bodies left) : bodies = [] ∧ left = total := by
  cases h with
  | nil => exact ⟨rfl, rfl⟩
  | body h src n ok hP' => exact absurd hP' (hP src n)

theorem log_flush (hr : r.Base) (h : Log Performed r)
    (hpos : r.flags.headersSent = true → 0 < r.contentLength)
    (hflush : r.flushHeaders cfg = some (true, r')) :
    r'.flags.contentLengthSet = true ∧ ∃ tries bytes bodies,
      r'.handed = tries ++ .head r'.toResponseFields bytes true :: bodies ∧
      (∀ e ∈ tries, e.IsFailedHead) ∧ Ledger Performed r'.contentLength bodies r'.contentBytesLeft ∧
      (bodies ≠ [] → 0 < r'.contentLength) := by
  by_cases hs : r.flags.headersSent = true
  · obtain rfl : r = r' := by
      unfold flushHeaders at hflush
      rw [if_pos hs] at hflush
      exact (Prod.mk.inj (Option.some.inj hflush)).2
    obtain ⟨hset, tries, bytes, bodies, hhanded, htries, hledger⟩ := h.sent hs
    exact ⟨hset, tries, bytes, bodies, hhanded, htries, hledger, fun _ => hpos hs⟩
  · -- a flush performs no body writes, so nothing is behind the head
    have hunsent : r.flags.headersSent = false := by simpa using hs
    have hlog : Log (fun op => op = .flushHeaders ∨ op = .setContentLength 0) r :=
      ⟨h.unsent, h.pending, fun hsent => absurd hsent hs⟩
    obtain ⟨hpath, hsent⟩ :=
      does_flushHeaders (P := fun op => op = .flushHeaders ∨ op = .setContentLength 0) hr
        (.inl (.inl rfl)) (.inr rfl) _ _ hflush
    have hlog' := invariant_of_reflTransGen (fun _ _ hc h => h.change hc) hpath hlog
    obtain ⟨hset, tries, bytes, bodies, hhanded, htries, hledger⟩ := hlog'.sent (hsent rfl)
    obtain ⟨rfl, hleft⟩ := hledger.eq_nil (by simp)
    refine ⟨hset, tries, bytes, [], hhanded, htries, ?_, fun h => absurd rfl h⟩
    rw [hleft]
    exact .nil

theorem performed_of_public {op : Op} (h : Public op) : Performed op := .inl h

theorem log_of_retry {m : Buf} {client : HiwClient} {close : Bool} {ops : List Op} {remaining : ℤ}
    (hops : ∀ op ∈ ops, Public op)
    (hr : runLabels (step cfg) (start cfg m client close) ops = some r)
    (hfin : finish cfg remaining r = some (true, r')) :
    Table cfg Performed r' ∧ r'.flags.contentLengthSet = true ∧ ∃ tries bytes bodies,
      r'.handed = tries ++ .head r'.toResponseFields bytes true :: bodies ∧
      (∀ e ∈ tries, e.IsFailedHead) ∧ Ledger Performed r'.contentLength bodies r'.contentBytesLeft ∧
      (bodies ≠ [] → 0 < r'.contentLength) := by
  obtain ⟨hflush, -, -, -⟩ := finish_eq_retry hfin
  have hbase : (start cfg m client close).Base := base_start m client close
  have hP0 : Performed (.setContentLength 0) := .inl (by simp [Public])
  have hperformed : ∀ op ∈ ops, Performed op := fun op hop => performed_of_public (hops op hop)
  have hbase' := base_of_changes (changes_of_run hbase hperformed hP0 hr) hbase
  -- the operations of the servlet contain no flush of their own
  have hpos := invariant_of_run (P := Public) hbase hops (by simp [Public])
    (I := fun r => r.flags.headersSent = true → 0 < r.contentLength)
    (fun h => Bool.noConfusion h) (fun _ _ hc h => positive_of_change (fun h => h) hc h) hr
  have hlog := invariant_of_run hbase hperformed hP0 (log_start m client close)
    (fun _ _ hc h => h.change hc) hr
  have htable := invariant_of_run hbase hperformed hP0 (table_start m client close)
    (fun _ _ hc h => h.change hc) hr
  have hrun : runLabels (step cfg) r [.flushHeaders] = some r' := by
    simp [runLabels, step, perform, hflush]
  have htable' : Table cfg Performed r' :=
    invariant_of_run hbase' (by simp [Performed]) hP0 htable (fun _ _ hc h => h.change hc) hrun
  exact ⟨htable', log_flush hbase' hlog hpos hflush⟩

/-- **A connection is kept after a correctly framed response exactly when the counter has counted
the body.** -/
theorem framed_iff_counted {m : Buf} {client : HiwClient} {close : Bool} {ops : List Op}
    {remaining : ℤ} (hops : ∀ op ∈ ops, Public op)
    (hr : runLabels (step cfg) (start cfg m client close) ops = some r)
    (hfin : finish cfg remaining r = some (true, r')) : Framed r' ↔ Counted r' := by
  obtain ⟨htable, hset, tries, bytes, bodies, hhanded, htries, hledger, hpos⟩ :=
    log_of_retry hops hr hfin
  have hleft : r'.contentBytesLeft ≤ 0 := (finish_eq_retry hfin).2.1
  rw [framed_iff_sum hhanded htries hledger.not_isHead, contentLengthHeader_eq htable hset,
    Option.some_inj]
  have hrange : -2 ^ 31 ≤ r'.contentLength ∧ r'.contentLength < 2 ^ 31 := by
    rcases (htable.length hset).2 with h | h
    · exact h
    · cases h
  constructor
  · intro hsum
    have hnonneg : 0 ≤ r'.contentLength := by
      -- a negative length has a positive number in the header, and no body
      by_contra hneg
      have hnil : bodies = [] := by
        by_contra hne
        have := hpos hne
        omega
      rw [hnil] at hsum
      simp only [List.map_nil, List.sum_nil] at hsum
      omega
    rw [Int.emod_eq_of_lt hnonneg (by omega)] at hsum
    have hle := hledger.sub_le
    refine ⟨hnonneg, fun bytes n left ok hmem => ?_⟩
    rw [hhanded] at hmem
    rcases List.mem_append.1 hmem with hmem | hmem
    · obtain ⟨_, _, h⟩ := htries _ hmem
      cases h
    · refine hledger.counted (by omega) (by omega) bytes n left ok ?_
      simpa using hmem
  · rintro ⟨hnonneg, hcounted⟩
    rw [Int.emod_eq_of_lt hnonneg (by omega)]
    obtain ⟨hright, hright0⟩ := hledger.right hnonneg fun bytes n left ok hmem =>
      hcounted bytes n left ok (by rw [hhanded]; simp [hmem])
    omega

/-- Five bytes announced, and sent in two parts. -/
def twoParts : List Op :=
  [.setStatusCode 200, .setContentLength 5, .writeBodyRaw (ascii "hel") 3,
    .writeBodyRaw (ascii "lo") 2]

/-- Five bytes announced, and eight sent. -/
def threeMore : List Op :=
  [.setStatusCode 200, .setContentLength 5, .writeBodyRaw (ascii "hello") 5,
    .writeBodyRaw (ascii "abc") 3]

/-- The end of an iteration with these operations, on a client that takes everything. -/
def retried (ops : List Op) : Option (Bool × HiwResponse) :=
  (runLabels (step .default)
    (start .default (fun _ => 0) ⟨[], [.accept 200, .accept 200, .accept 200], []⟩ false) ops).bind
    (finish .default 0)

theorem framed_iff_counted_twoParts : ∃ r', retried twoParts = some (true, r') ∧
    (Framed r' ↔ Counted r') := by
  have hretry : (retried twoParts).any Prod.fst = true := by decide +kernel
  obtain ⟨⟨b, r'⟩, hx, rfl⟩ := (Option.any_eq_true _ _).1 hretry
  obtain ⟨r, hr, hfin⟩ := Option.bind_eq_some_iff.1 hx
  exact ⟨r', hx, framed_iff_counted (by simp [twoParts, Public]) hr hfin⟩

/-- The counter stops at 0, and what is sent then goes unnoticed. -/
theorem not_framed : ¬∀ (cfg : Config) (m : Buf) (client : HiwClient) (close : Bool)
    (ops : List Op) (remaining : ℤ) (r r' : HiwResponse), (∀ op ∈ ops, Public op) →
    runLabels (step cfg) (start cfg m client close) ops = some r →
    finish cfg remaining r = some (true, r') → Framed r' := by
  intro hall
  have hlog : (retried threeMore).map (fun x => (x.1,
      (x.2.handed.filterMap Handed.sentHead).map ResponseFields.contentLengthHeader,
      ((x.2.handed.dropWhile fun e => e.sentHead.isNone).map Handed.bodyBytes).sum)) =
      some (true, [some 5], 8) := by decide +kernel
  match hx : retried threeMore with
  | none => simp [hx] at hlog
  | some (b, r') =>
    rw [hx, Option.map_some, Option.some_inj] at hlog
    obtain ⟨rfl, hlengths, hsum⟩ : b = true ∧ _ ∧ _ := by simpa only [Prod.mk.injEq] using hlog
    obtain ⟨r, hr, hfin⟩ := Option.bind_eq_some_iff.1 hx
    obtain ⟨fields, hfields, hlen⟩ :=
      hall .default _ _ _ threeMore 0 r r' (by simp [threeMore, Public]) hr hfin
    rw [hfields] at hlengths
    rw [hsum, (List.cons.inj hlengths).1] at hlen
    exact absurd hlen (by decide)

end HiwResponse

end Highway
