import Highway.Servlet.ResponseHead

/-!
# Headers that are not accepted

`hiw_response_write_header` refuses a header by its checks, and then nothing but the error flag
changes.  The checks do not ask whether the header fits into the memory, and neither does what
comes behind them: the copies of a header that does not fit have no defined result.  So a header
is accepted or refused cleanly exactly when a check refuses it or everything that has to be
written for it fits (`HiwResponse.rejects_iff`).
-/

namespace Highway

open Lib

namespace HiwResponse

variable {cfg : Config} {r r' : HiwResponse} {name value src : Bytes} {b : Bool}

/-- The text that is written for a header: its line, behind the status line if that is missing. -/
def lineText (r : HiwResponse) (name value : Bytes) : Bytes :=
  (if r.flags.statusCodeSet then [] else statusLine r.statusCode) ++ headerLine (name, value)

/-- The text for a header fits into the memory. -/
def Fits (r : HiwResponse) (name value : Bytes) : Prop :=
  r.memory.pos + (r.lineText name value).length ≤ r.memory.stop

instance (r : HiwResponse) (name value : Bytes) : Decidable (r.Fits name value) :=
  inferInstanceAs (Decidable (_ ≤ _))

/-- A header is accepted, or refused without a trace: the call returns; it returns false if the
header does not fit; false leaves the response as it is, but for the error flag; and a header
accepted later is written as its own line. -/
structure Rejects (cfg : Config) (r : HiwResponse) (name value : Bytes) : Prop where
  returns : ∃ b r', r.writeHeader cfg name value = some (b, r')
  full : ¬ r.Fits name value → ∃ r', r.writeHeader cfg name value = some (false, r')
  unchanged : ∀ r', r.writeHeader cfg name value = some (false, r') →
    r'.content = r.content ∧ r'.headers = r.headers ∧ r'.statusCode = r.statusCode ∧
      r'.flags = { r.flags with error := r'.flags.error }
  later : ∀ r' name' value' r'', r.writeHeader cfg name value = some (false, r') →
    r'.writeHeader cfg name' value' = some (true, r'') →
      r''.content = r.content ++ r.lineText name' value'

/-! ### The copies -/

@[simp] theorem pos_append : (r.append src).memory.pos = r.memory.pos + src.length := rfl

@[simp] theorem stop_append : (r.append src).memory.stop = r.memory.stop := rfl

theorem writeRaw_of_le (h : r.memory.pos + src.length ≤ r.memory.stop) :
    r.writeRaw src = some (true, r.append src) := by
  rw [writeRaw, HiwMemory.get_of_le h]
  rfl

theorem le_of_writeRaw (hm : r.memory.resizeBytes = -1) (h : r.writeRaw src = some (b, r')) :
    r.memory.pos + src.length ≤ r.memory.stop := by
  unfold writeRaw at h
  split at h
  · cases h
  · rename_i hget
    exact (HiwMemory.get_fixed hm hget).1
  · rename_i hget
    exact (HiwMemory.get_fixed hm hget).1

@[simp] theorem andThen_true (r : HiwResponse) (g : HiwResponse → Option (Bool × HiwResponse)) :
    andThen (some (true, r)) g = g r := rfl

theorem copies_of_le (h : r.memory.pos + (headerLine (name, value)).length ≤ r.memory.stop)
    (g : HiwResponse → Option (Bool × HiwResponse)) :
    (andThen (r.writeRaw name) fun r =>
      andThen (r.writeRaw (ascii ": ")) fun r =>
      andThen (r.writeRaw (value ++ crlf)) g) =
        g (((r.append name).append (ascii ": ")).append (value ++ crlf)) := by
  have hcolon : (ascii ": ").length = 2 := rfl
  simp only [headerLine, List.length_append, hcolon] at h
  rw [writeRaw_of_le (by omega), andThen_true, writeRaw_of_le, andThen_true, writeRaw_of_le,
    andThen_true]
  · simp only [pos_append, stop_append, List.length_append, hcolon]
    omega
  · simp only [pos_append, stop_append, hcolon]
    omega

theorem le_of_copies (hm : r.memory.resizeBytes = -1)
    {g : HiwResponse → Option (Bool × HiwResponse)}
    (h : (andThen (r.writeRaw name) fun r =>
      andThen (r.writeRaw (ascii ": ")) fun r =>
      andThen (r.writeRaw (value ++ crlf)) g) = some (b, r')) :
    r.memory.pos + (headerLine (name, value)).length ≤ r.memory.stop := by
  have h₁ := andThen_writeRaw hm h
  have h₂ := andThen_writeRaw (r := r.append name) hm h₁
  match hw : ((r.append name).append (ascii ": ")).writeRaw (value ++ crlf) with
  | none => simp [andThen, hw] at h₂
  | some (b', r₁) =>
    have hle := le_of_writeRaw (r := (r.append name).append (ascii ": ")) hm hw
    simp only [pos_append, stop_append, List.length_append] at hle
    simp only [headerLine, List.length_append]
    omega

theorem writeStatusCode_of_le
    (h : r.memory.pos + (statusLine r.statusCode).length ≤ r.memory.stop) :
    r.writeStatusCode =
      some (true, (r.append (ascii "HTTP/1.1 ")).append
        (ascii (statusText r.statusCode) ++ crlf)) := by
  simp only [statusLine, List.length_append] at h
  rw [writeStatusCode, writeRaw_of_le (by omega), andThen_true]
  refine writeRaw_of_le ?_
  simp only [pos_append, stop_append, toResponseFields_append, List.length_append]
  omega

theorem copyHeader_of_fits (h : r.Fits name value) :
    r.copyHeader name value = some (true, r.accept name value) := by
  unfold Fits lineText at h
  unfold copyHeader accept begun
  split_ifs at h ⊢ with hset
  · rw [andThen_true, copies_of_le (by simpa using h)]
    rfl
  · rw [List.length_append] at h
    rw [writeStatusCode_of_le (by omega), andThen_true, andThen_true, copies_of_le]
    · rfl
    · simp only [pos_append, stop_append]
      simp only [statusLine, List.length_append] at h ⊢
      omega

theorem fits_of_copyHeader (hm : r.memory.resizeBytes = -1)
    (h : r.copyHeader name value = some (b, r')) : r.Fits name value := by
  have hbegun := andThen_eq_of (fun _ _ => begin_eq hm) h
  have hle := le_of_copies ((resizeBytes_begun r).trans hm) hbegun
  unfold Fits lineText
  unfold begun at hle
  split_ifs at hle ⊢ with hset
  · simpa using hle
  · simp only [pos_append, stop_append] at hle
    simp only [statusLine, List.length_append] at hle ⊢
    omega

/-! ### The checks -/

theorem writeHeader_of_accepts (h : r.Accepts cfg name) :
    r.writeHeader cfg name value = r.copyHeader name value := by
  have hnone : ¬ r.headers.any fun h => HiwString.cmp h.1 name := by
    rw [List.any_eq_true]
    rintro ⟨hdr, hmem, hname⟩
    exact h.fresh (List.mem_map.2 ⟨hdr, hmem, by simpa [HiwString.cmp_eq] using hname⟩)
  unfold writeHeader
  rw [if_neg (by simp [h.unsent]), if_neg (not_le.2 h.count), if_neg hnone, if_neg h.statusCode]

theorem writeHeader_of_not_accepts (h : ¬ r.Accepts cfg name) :
    r.writeHeader cfg name value = some (false, r.failed) := by
  unfold writeHeader
  split_ifs with hs hc hn h0
  · rfl
  · rfl
  · rfl
  · rfl
  · refine absurd ⟨by simpa using hs, not_le.1 hc, fun hmem => ?_, h0⟩ h
    obtain ⟨hdr, hdr_mem, hname⟩ := List.mem_map.1 hmem
    exact hn (List.any_eq_true.2 ⟨hdr, hdr_mem, by simp [HiwString.cmp_eq, hname]⟩)

theorem writeHeader_cases (hm : r.memory.resizeBytes = -1)
    (h : r.writeHeader cfg name value = some (b, r')) :
    (b = true ∧ r.Accepts cfg name ∧ r' = r.accept name value) ∨
      (b = false ∧ ¬ r.Accepts cfg name ∧ r' = r.failed) := by
  by_cases hacc : r.Accepts cfg name
  · rw [writeHeader_of_accepts hacc] at h
    obtain ⟨hb, hr'⟩ := copyHeader_eq hm h
    exact .inl ⟨hb, hacc, hr'⟩
  · rw [writeHeader_of_not_accepts hacc] at h
    cases h
    exact .inr ⟨rfl, hacc, rfl⟩

theorem content_of_writeHeader (hm : r.memory.resizeBytes = -1)
    (h : r.writeHeader cfg name value = some (true, r')) :
    r'.content = r.content ++ r.lineText name value := by
  rcases writeHeader_cases hm h with ⟨-, -, rfl⟩ | ⟨hb, -⟩
  · rw [content_accept, content_begun, lineText]
    split_ifs
    · rw [List.nil_append]
    · rw [List.append_assoc]
  · cases hb

/-- **When a header is accepted or refused without a trace.**  Either a check refuses it, or
everything that is written for it fits. -/
theorem rejects_iff_of_fixed (hm : r.memory.resizeBytes = -1) :
    Rejects cfg r name value ↔ ¬ r.Accepts cfg name ∨ r.Fits name value := by
  constructor
  · intro h
    by_contra hno
    obtain ⟨hacc, hfits⟩ := not_or.1 hno
    obtain ⟨b, r', hret⟩ := h.returns
    rw [writeHeader_of_accepts (not_not.1 hacc)] at hret
    exact hfits (fits_of_copyHeader hm hret)
  · intro h
    by_cases hacc : r.Accepts cfg name
    · have hfits : r.Fits name value := h.resolve_left (not_not.2 hacc)
      have hret : r.writeHeader cfg name value = some (true, r.accept name value) := by
        rw [writeHeader_of_accepts hacc, copyHeader_of_fits hfits]
      have hnot : ∀ r', r.writeHeader cfg name value ≠ some (false, r') := by
        intro r' hfalse
        rw [hret] at hfalse
        cases hfalse
      exact ⟨⟨_, _, hret⟩, fun hfull => absurd hfits hfull,
        fun r' hfalse => absurd hfalse (hnot r'),
        fun r' _ _ _ hfalse => absurd hfalse (hnot r')⟩
    · have hret : r.writeHeader cfg name value = some (false, r.failed) :=
        writeHeader_of_not_accepts hacc
      refine ⟨⟨_, _, hret⟩, fun _ => ⟨_, hret⟩, fun r' hfalse => ?_, ?_⟩
      · rw [hret] at hfalse
        cases hfalse
        exact ⟨rfl, rfl, rfl, rfl⟩
      · intro r' name' value' r'' hfalse hlater
        rw [hret] at hfalse
        cases hfalse
        exact content_of_writeHeader (r := r.failed) hm hlater

/-- The same, for every response that the operations lead to. -/
theorem rejects_iff {m : Buf} {client : HiwClient} {close : Bool} {ops : List Op}
    (hr : runLabels (step cfg) (start cfg m client close) ops = some r) (name value : Bytes) :
    Rejects cfg r name value ↔ ¬ r.Accepts cfg name ∨ r.Fits name value := by
  have hbase : r.Base :=
    base_of_changes (P := fun _ => True) (changes_of_run (base_start m client close)
      (fun _ _ => trivial) trivial hr) (base_start m client close)
  exact rejects_iff_of_fixed hbase.fixed

/-- A header for a response with a status code. -/
theorem rejects_small : ∃ r, runLabels (step .default)
      (start .default (fun _ => 0) ⟨[], [], []⟩ false) [.setStatusCode 200] = some r ∧
    Rejects .default r (ascii "X-Id") (ascii "7") := by
  obtain ⟨r, hr⟩ : ∃ r, runLabels (step .default)
      (start .default (fun _ => 0) ⟨[], [], []⟩ false) [.setStatusCode 200] = some r := ⟨_, rfl⟩
  refine ⟨r, hr, (rejects_iff hr _ _).2 (.inr ?_)⟩
  cases hr
  decide +kernel

/-- A header for the same response, with a value as long as the memory. -/
theorem not_rejects : ¬ ∀ (cfg : Config) (m : Buf) (client : HiwClient) (close : Bool)
    (ops : List Op) (r : HiwResponse),
    runLabels (step cfg) (start cfg m client close) ops = some r →
      ∀ name value, Rejects cfg r name value := by
  intro hall
  obtain ⟨r, hr⟩ : ∃ r, runLabels (step .default)
      (start .default (fun _ => 0) ⟨[], [], []⟩ false) [.setStatusCode 200] = some r := ⟨_, rfl⟩
  have hrej := hall _ _ _ _ _ r hr (ascii "X-Id") (List.replicate 8192 65)
  cases hr
  have hcond := (rejects_iff_of_fixed rfl).1 hrej
  rcases hcond with hacc | hfits
  · exact hacc ⟨rfl, by decide, by decide, by decide⟩
  · have hcrlf : crlf.length = 2 := rfl
    change _ ≤ 8192 at hfits
    simp only [lineText, headerLine, List.length_append, List.length_replicate] at hfits
    omega

end HiwResponse

end Highway
