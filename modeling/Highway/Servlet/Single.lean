import Highway.Servlet.Chunks

/-!
# A head in one receive

When the first receive brings a whole head and leaves room in the buffer, the parser never
receives again (`HiwReader.Once`), so its run is clean and it computes what the head reader makes
of the received bytes (`HiwRequest.result_readHeaders`).
-/

namespace Highway

open Lib

namespace HiwReader

/-- What the parser has made of the bytes it received: as `outcome`, without what the socket still
holds. -/
def result (s : HiwReader) : HeadOutcome :=
  match s.phase with
  | .returned true => .accepted s.req.head s.req.readAheadBytes
  | .overflow _ => .overflow
  | _ => .refused

theorem result_of_outcome {s : HiwReader} {r : HeadEnd} {rest : Bytes}
    (h : s.outcome = headOutcomeOf (.stop r (rest ++ s.client.stream))) :
    s.result = headOutcomeOf (.stop r rest) := by
  -- only an accepted head mentions the socket, and there the rest of the stream cancels
  have hacc : s.phase = .returned true → s.result = headOutcomeOf (.stop r rest) := by
    intro hp
    simp only [outcome, hp] at h
    cases r with
    | accepted head back =>
      obtain ⟨hhead, hunread⟩ := HeadOutcome.accepted.inj h
      rw [← List.append_assoc] at hunread
      simp only [result, hp, hhead, List.append_cancel_right hunread, headOutcomeOf]
    | refused => cases h
    | overflow => cases h
  cases hp : s.phase with
  | returned b =>
    cases b with
    | true => exact hacc hp
    | false =>
      simp only [outcome, hp] at h
      simp only [result, hp]
      cases r <;> first | rfl | cases h
  | _ =>
    simp only [outcome, hp] at h
    simp only [result, hp]
    cases r <;> first | rfl | cases h

/-- A run whose first receive brings `S` and leaves the client as `c₁`: it is about to receive, or
it has received `S` and never receives again. -/
def Once (S : Bytes) (client c₁ : HiwClient) (s : HiwReader) : Prop :=
  s.phase = .statusLine ∧ s.client = client ∧ s.bytesRead = 0 ∨
    s.phase ≠ .statusLine ∧ s.client = c₁ ∧ s.bytesRead = S.length

variable {cfg : Config} {S rest : Bytes} {r : HeadEnd} {client c₁ : HiwClient} {s s' : HiwReader}

theorem mem_of_headScan (h : headScan cfg S = .stop r rest) : LF ∈ S := by
  by_contra hn
  rw [headScan, scan_of_not_mem hn] at h
  cases h

theorem Once.first {r' : Option Bytes} {c' : HiwClient} (h : Once S client c₁ s)
    (hr : client.recv cfg.maxHeaderSize = (some S, c₁)) (hp : s.phase = .statusLine)
    (hr' : s.client.recv (cfg.maxHeaderSize - s.bytesRead) = (r', c')) :
    r' = some S ∧ c' = c₁ ∧ s.bytesRead = 0 := by
  rcases h with ⟨-, hc, hb⟩ | ⟨hp', -⟩
  · rw [hc, hb, Nat.sub_zero, hr] at hr'
    obtain ⟨rfl, rfl⟩ := Prod.mk.inj hr'
    exact ⟨rfl, rfl, hb⟩
  · exact absurd hp hp'

theorem Once.later (h : Once S client c₁ s) (hp : s.phase = .headers) :
    s.client = c₁ ∧ s.bytesRead = S.length := by
  rcases h with ⟨hp', -⟩ | ⟨-, h⟩
  · rw [hp] at hp'
    cases hp'
  · exact h

theorem Once.readline_ne_none (h : Once S client c₁ s) (href : Refines cfg (S ++ c₁.stream) s)
    (hstop : headScan cfg S = .stop r rest) (hp : s.phase = .headers) :
    HiwString.readline s.mem s.window ≠ none := by
  intro hn
  obtain ⟨R, hR, href⟩ := href
  simp only [hp] at href
  rw [(h.later hp).1] at hR
  rw [List.append_cancel_right hR, hstop,
    scan_of_not_mem (HiwString.readline_eq_none.1 hn)] at href
  cases href

section

variable (hr : client.recv cfg.maxHeaderSize = (some S, c₁)) (hS : S.length < cfg.maxHeaderSize)
  (hstop : headScan cfg S = .stop r rest)

include hr hS hstop

theorem Once.clean (h : Once S client c₁ s) (href : Refines cfg (S ++ c₁.stream) s) :
    s.Clean cfg ∧ s.Steady cfg ∧ s.bytesRead < cfg.maxHeaderSize := by
  have hline := h.readline_ne_none href hstop
  rcases h with ⟨hp, hc, hb⟩ | ⟨hp, hc, hb⟩
  · have hrecv : (s.client.recv (cfg.maxHeaderSize - s.bytesRead)).1.getD [] ≠ [] := by
      rw [hc, hb, Nat.sub_zero, hr]
      exact List.ne_nil_of_mem (mem_of_headScan hstop)
    exact ⟨⟨fun _ hnil => absurd hnil hrecv, fun hp' => by simp [hp] at hp'⟩,
      fun _ _ hnil => absurd hnil hrecv, by omega⟩
  · refine ⟨⟨fun hp' => absurd hp' hp, fun hp' hn => absurd hn (hline hp')⟩,
      fun hnf hn => ?_, by omega⟩
    have hp' := (phase_of_not_final hnf).resolve_left hp
    exact absurd (hn hp') (hline hp')

/-- Every iteration receives the head, or works on it. -/
theorem Once.step (h : Once S client c₁ s) (href : Refines cfg (S ++ c₁.stream) s)
    (hv : Valid cfg s) (hi : Iter cfg s s') : Once S client c₁ s' := by
  -- the header loop finds a line every time, so it never gets to its receive
  have hline := h.readline_ne_none href hstop
  cases hi with
  | closed hf hn hr' hnil =>
    rcases phase_of_not_final hf with hp | hp
    · obtain ⟨rfl, -⟩ := h.first hr hp hr'
      exact absurd hnil (List.ne_nil_of_mem (mem_of_headScan hstop))
    · exact absurd (hn hp) (hline hp)
  | @waiting bs c' hp hr' hbs hn hlt =>
    obtain ⟨hbs', -, hb⟩ := h.first hr hp hr'
    obtain rfl := Option.some.inj hbs'
    have hbytes : (s.received (s.pos + s.bytesRead) bs c').mem.bytes 0 (s.bytesRead + bs.length) =
        s.mem.bytes 0 s.bytesRead ++ bs := bytes_received (hv.fresh hp).1
    simp only [hb, Nat.zero_add, Buf.bytes_zero, List.nil_append] at hbytes
    rw [hb, hbytes] at hn
    exact absurd (mem_of_headScan hstop) hn
  | noStatusLine hp hr' hbs hn hfull =>
    obtain ⟨hbs', -, hb⟩ := h.first hr hp hr'
    obtain rfl := Option.some.inj hbs'
    omega
  | badStatusLine hp hr' hbs hl hps =>
    obtain ⟨hbs', rfl, hb⟩ := h.first hr hp hr'
    obtain rfl := Option.some.inj hbs'
    exact .inr ⟨by simp [ret], rfl, by simp [ret, received, hb]⟩
  | longUri hp hr' hbs hl hps hfull =>
    obtain ⟨hbs', -, hb⟩ := h.first hr hp hr'
    obtain rfl := Option.some.inj hbs'
    omega
  | statusLine hp hr' hbs hl hps hlt =>
    obtain ⟨hbs', rfl, hb⟩ := h.first hr hp hr'
    obtain rfl := Option.some.inj hbs'
    exact .inr ⟨by simp [enterHeaders], rfl, by simp [enterHeaders, statusRead, received, hb]⟩
  | tooMany hp hl hcnt => exact .inr ⟨by simp [ret], h.later hp⟩
  | overflow hp hl hcnt hs => exact .inr ⟨by simp, h.later hp⟩
  | header hp hl hcnt hs => exact .inr ⟨by simp [hp], by simpa using h.later hp⟩
  | separator hp hl hcnt hs hlen => exact .inr ⟨by simp [separator, done], h.later hp⟩
  | faulty hp hl hcnt hs hlen => exact .inr ⟨by simp [ret], h.later hp⟩
  | full hp hl hfull => exact absurd hl (hline hp)
  | refill hp hl hlt hr' hbs => exact absurd hl (hline hp)

end

end HiwReader

namespace HiwRequest

open HiwReader

variable {cfg : Config} {req : HiwRequest} {S rest : Bytes} {r : HeadEnd} {client c₁ : HiwClient}

/-- **The parser on a head received at once.**  It takes the one receive, and its result is what
the head reader makes of the bytes received. -/
theorem result_readHeaders (hf : req.Fresh cfg)
    (hr : client.recv cfg.maxHeaderSize = (some S, c₁)) (hS : S.length < cfg.maxHeaderSize)
    (hstop : headScan cfg S = .stop r rest) :
    (req.readHeaders cfg client).client = c₁ ∧
      (req.readHeaders cfg client).bytesRead = S.length ∧
      (req.readHeaders cfg client).result = headOutcome cfg S := by
  have hstream : client.stream = S ++ c₁.stream := HiwClient.stream_of_recv hr
  have hstart : Refines cfg (S ++ c₁.stream) (start cfg req client) ∧
      Once S client c₁ (start cfg req client) := by
    refine ⟨hstream ▸ refines_start hf client, ?_⟩
    rw [start_eq hf]
    exact .inl ⟨rfl, rfl, rfl⟩
  -- the two invariants need each other: one says what was received, the other what was read
  obtain ⟨href, honce⟩ := (visited_readHeaders cfg req client).invariant
    (I := fun u => Refines cfg (S ++ c₁.stream) u ∧ Once S client c₁ u) hstart
    fun u hu hnf h => by
      have hv := valid_of_visited hf hu
      have hi : Iter cfg u (u.step cfg) := iter_step hnf
      obtain ⟨hc, hst, -⟩ := h.2.clean hr hS hstop h.1
      have hlt : (u.step cfg).bytesRead < cfg.maxHeaderSize := by
        rcases h.2.step hr hS hstop h.1 hv hi with ⟨-, -, hb⟩ | ⟨-, -, hb⟩ <;> omega
      exact ⟨h.1.step hv hst hc hlt hi, h.2.step hr hS hstop h.1 hv hi⟩
  have hfin := final_readHeaders hf client
  have hout := href.outcome_eq hfin
  rcases honce with ⟨hp, -⟩ | ⟨-, hc, hb⟩
  · simp [final, hp] at hfin
  refine ⟨hc, hb, ?_⟩
  rw [headOutcome_append hstop] at hout
  rw [headOutcome, hstop]
  exact result_of_outcome (by rw [hout, hc])

end HiwRequest

end Highway
