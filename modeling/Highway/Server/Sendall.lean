import Highway.Server.Client
import Mathlib.Algebra.Ring.Nat

/-!
# Sending a whole buffer

`hiw_client_sendall` calls `hiw_socket_send` until all bytes are taken, but it offers the start of
the buffer every time: `src` is not moved by what a call has taken.  What it puts on the wire is a
part of the buffer only if every part that is sent behind others repeats the start of the buffer
(`HiwClient.Repeats`), which is so when the first call takes everything
(`HiwClient.transmits_iff`).
-/

namespace Highway

namespace HiwClient

/-- How many bytes the calls of `hiw_socket_send` take, one after the other, of `bytesLeft`. -/
def taken : List SendEvent → ℕ → List ℕ
  | [], _ => []
  | .error :: _, _ => []
  | .accept k :: es, bytesLeft =>
    if min k bytesLeft = 0 then []
    else min k bytesLeft :: taken es (bytesLeft - min k bytesLeft)

/-- The buffer repeats its start wherever bytes are sent behind others: the `r` bytes behind the
first `s` ones are the first `r` bytes. -/
def Repeats (src : Bytes) (parts : List ℕ) : Prop :=
  ∀ before r after, parts = before ++ r :: after → src.take r = (src.drop before.sum).take r

/-- `hiw_client_sendall` transmits the buffer: if it returns `len`, then all of it is on the wire,
and if it returns -1, then a part of it from the start on. -/
def Transmits (c : HiwClient) (src : Bytes) (len : ℕ) : Prop :=
  ∃ sent, (c.sendall src len).2.wire = c.wire ++ sent ∧
    ((c.sendall src len).1 = len → sent = src.take len) ∧
    ((c.sendall src len).1 = -1 → sent <+: src.take len)

variable {src : Bytes} {len : ℕ} {es : List SendEvent}

/-- The loop puts the start of the buffer on the wire once for every call that takes bytes. -/
theorem sendallLoop_wire (src : Bytes) (es : List SendEvent) (bytesLeft : ℕ) :
    (sendallLoop src es bytesLeft).2.1 = (taken es bytesLeft).flatMap (src.take ·) := by
  induction es generalizing bytesLeft with
  | nil => rfl
  | cons e es ih =>
    cases e with
    | error =>
      unfold sendallLoop
      split_ifs <;> rfl
    | accept k =>
      by_cases h0 : min k bytesLeft = 0
      · simp only [sendallLoop, taken, h0, if_true]
        split_ifs <;> rfl
      · have hleft : bytesLeft ≠ 0 := by omega
        simp only [sendallLoop, taken, h0, hleft, if_false, List.flatMap_cons, ih]

theorem sendallLoop_ok (src : Bytes) (es : List SendEvent) (bytesLeft : ℕ) :
    (sendallLoop src es bytesLeft).1 = decide ((taken es bytesLeft).sum = bytesLeft) := by
  induction es generalizing bytesLeft with
  | nil => simp [sendallLoop, taken, eq_comm]
  | cons e es ih =>
    cases e with
    | error =>
      by_cases hleft : bytesLeft = 0
      · simp [sendallLoop, taken, hleft]
      · simp [sendallLoop, taken, hleft, Ne.symm hleft]
    | accept k =>
      by_cases hleft : bytesLeft = 0
      · simp [sendallLoop, taken, hleft]
      · by_cases h0 : min k bytesLeft = 0
        · simp only [sendallLoop, taken, h0, hleft, if_true, if_false, List.sum_nil]
          simp [Ne.symm hleft]
        · simp only [sendallLoop, taken, h0, hleft, if_false, ih, List.sum_cons]
          exact decide_eq_decide.2 (by omega)

theorem sum_taken_le (es : List SendEvent) (bytesLeft : ℕ) :
    (taken es bytesLeft).sum ≤ bytesLeft := by
  induction es generalizing bytesLeft with
  | nil => exact Nat.zero_le _
  | cons e es ih =>
    cases e with
    | error => exact Nat.zero_le _
    | accept k =>
      have hrest := ih (bytesLeft - min k bytesLeft)
      simp only [taken]
      split_ifs with h0
      · exact Nat.zero_le _
      · rw [List.sum_cons]
        omega

/-- The start of the buffer, sent once for every part, is the buffer from `o` on exactly when the
buffer repeats its start at every part. -/
theorem flatMap_take_eq_iff {parts : List ℕ} {o : ℕ} (h : o + parts.sum ≤ src.length) :
    parts.flatMap (src.take ·) = (src.drop o).take parts.sum ↔
      ∀ before r after, parts = before ++ r :: after →
        src.take r = (src.drop (o + before.sum)).take r := by
  induction parts generalizing o with
  | nil => simp
  | cons r parts ih =>
    rw [List.sum_cons] at h
    have hsplit : (src.drop o).take (r + parts.sum) =
        (src.drop o).take r ++ (src.drop (o + r)).take parts.sum := by
      rw [List.take_add, List.drop_drop]
    -- inside of the buffer both first parts have `r` bytes, so they can be compared by themselves
    have hlen : (src.take r).length = ((src.drop o).take r).length := by
      simp only [List.length_take, List.length_drop]
      omega
    rw [List.sum_cons, List.flatMap_cons, hsplit, List.append_eq_append_iff_of_size_eq_left hlen,
      ih (by omega)]
    constructor
    · rintro ⟨hr, hparts⟩ before r' after heq
      cases before with
      | nil =>
        obtain ⟨rfl, rfl⟩ := List.cons.inj heq
        simpa using hr
      | cons x before =>
        obtain ⟨rfl, rfl⟩ := List.cons.inj heq
        rw [List.sum_cons, ← Nat.add_assoc]
        exact hparts before r' after rfl
    · intro hall
      refine ⟨by simpa using hall [] r parts rfl, fun before r' after heq => ?_⟩
      have := hall (r :: before) r' after (by rw [heq, List.cons_append])
      rwa [List.sum_cons, ← Nat.add_assoc] at this

theorem length_flatMap_take {parts : List ℕ} (h : parts.sum ≤ src.length) :
    (parts.flatMap (src.take ·)).length = parts.sum := by
  induction parts with
  | nil => rfl
  | cons r parts ih =>
    rw [List.sum_cons] at h
    rw [List.flatMap_cons, List.length_append, ih (by omega), List.length_take, List.sum_cons,
      Nat.min_eq_left (by omega)]

/-- **When a buffer is transmitted.**  The return value tells the truth about the wire exactly if
every part that is sent behind others repeats the start of the buffer. -/
theorem transmits_iff {c : HiwClient} (h : len ≤ src.length) :
    c.Transmits src len ↔ Repeats src (taken c.outgoing len) := by
  set parts := taken c.outgoing len with hparts
  have hsum : parts.sum ≤ len := sum_taken_le c.outgoing len
  have hwire : (c.sendall src len).2.wire = c.wire ++ parts.flatMap (src.take ·) := by
    rw [hparts, ← sendallLoop_wire]
    rfl
  have hresult : (c.sendall src len).1 = if parts.sum = len then (len : ℤ) else -1 := by
    have hok : (sendallLoop src c.outgoing len).1 = decide (parts.sum = len) :=
      sendallLoop_ok src c.outgoing len
    show (if (sendallLoop src c.outgoing len).1 then (len : ℤ) else -1) = _
    simp only [hok, decide_eq_true_eq]
  have hlength := length_flatMap_take (Nat.le_trans hsum h)
  have hiff := flatMap_take_eq_iff (o := 0) (by omega : 0 + parts.sum ≤ src.length)
  simp only [List.drop_zero, Nat.zero_add] at hiff
  rw [Repeats, ← hiff]
  constructor
  · rintro ⟨sent, hsent, hall, hpart⟩
    obtain rfl := List.append_cancel_left (hwire.symm.trans hsent)
    -- the result decides whether all of the buffer or a part of it is to be compared
    by_cases hok : parts.sum = len
    · rw [hok]
      exact hall (by rw [hresult, if_pos hok])
    · have hprefix := hpart (by rw [hresult, if_neg hok])
      rw [List.prefix_iff_eq_take.1 hprefix, hlength, List.take_take, Nat.min_eq_left hsum]
  · intro heq
    refine ⟨_, hwire, fun hok => ?_, fun _ => ?_⟩
    · have hok' : parts.sum = len := by
        rw [hresult] at hok
        split_ifs at hok with hok'
        exact hok'
      rw [heq, hok']
    · rw [heq, ← Nat.min_eq_left hsum, ← List.take_take]
      exact List.take_prefix _ _

/-- A buffer that is taken by the first call arrives. -/
theorem transmits_at_once :
    Transmits ⟨[], [.accept 8192], []⟩ (ascii "hello") 5 :=
  (transmits_iff (by decide)).2 (fun before r after heq => by
    obtain ⟨rfl, rfl, rfl⟩ : before = [] ∧ r = 5 ∧ after = [] := by
      cases before with
      | nil => simpa [taken] using heq.symm
      | cons x before => simp [taken] at heq
    rfl)

/-- A buffer that is taken in two parts arrives as its first part twice. -/
theorem not_transmits : ¬∀ (c : HiwClient) (src : Bytes) (len : ℕ), len ≤ src.length →
    c.Transmits src len := by
  intro hall
  obtain ⟨sent, hwire, hsent, -⟩ :=
    hall ⟨[], [.accept 2, .accept 2], []⟩ (ascii "abcd") 4 (by decide)
  have hwire' : (sendall ⟨[], [.accept 2, .accept 2], []⟩ (ascii "abcd") 4).2.wire =
      ascii "abab" := by decide
  have habcd := hsent (by decide)
  rw [List.nil_append] at hwire
  rw [← hwire] at habcd
  exact absurd (hwire'.symm.trans habcd) (by decide)

end HiwClient

end Highway
