import Mathlib.Algebra.Order.Ring.Int
import Mathlib.Tactic.NormNum

/-!
# Deadlines

A wait adds its timeout to the time of the clock, the seconds and the nanoseconds apart, and
gives the sum to `pthread_cond_timedwait`.  Nothing is carried from the nanoseconds into the
seconds: the sum is the right number of nanoseconds, but `pthread_cond_timedwait` refuses it
without waiting if a whole second or more is in its nanoseconds.  So a wait has a deadline if and
only if the two parts of a second add up to less than a second (`waitsUntil_iff`).  A thread of
the pool that begins to wait later than that does not wait (`criticalSecWait_of_refuses`).
-/

namespace Highway

/-- `timespec` -/
structure Timespec where
  tvSec : ℤ
  tvNsec : ℤ
  deriving DecidableEq, Repr

/-- A signed result of `bits` bits; overflow is undefined. -/
def signed (bits : ℕ) (x : ℤ) : Option ℤ :=
  if -2 ^ (bits - 1) ≤ x ∧ x < 2 ^ (bits - 1) then some x else none

/-- `INFINITE`, which is `INT_MAX`. -/
def infinite : ℤ := 2147483647

namespace Timespec

/-- The time in nanoseconds. -/
def nanos (ts : Timespec) : ℤ := ts.tvSec * 1000000000 + ts.tvNsec

/-- What `pthread_cond_timedwait` requires to wait at all. -/
def Normalised (ts : Timespec) : Prop := 0 ≤ ts.tvNsec ∧ ts.tvNsec < 1000000000

/-- The time `millis` milliseconds after `ts`, as the waits compute it. -/
def addMillis (ts : Timespec) (millis : ℤ) : Option Timespec := do
  let tvSec ← signed 64 (ts.tvSec + millis.tdiv 1000)
  -- the product is an `int`
  let product ← signed 32 (millis.tmod 1000 * 1000000)
  let tvNsec ← signed 64 (ts.tvNsec + product)
  return ⟨tvSec, tvNsec⟩

end Timespec

/-- A wait at the time `now` of the clock; `timedwait` is `pthread_cond_timedwait`. -/
def timedWait (now : Timespec) (timedwait : Timespec → ℤ) (millis : ℤ) : Option Bool := do
  let ts ← now.addMillis millis
  return decide (timedwait ts ≠ 0)

/-- `critical_section_wait` -/
def criticalSectionWait (now : Timespec) (timedwait : Timespec → ℤ) (millis : ℤ) : Option Bool :=
  timedWait now timedwait millis

/-- `hiw_thread_critical_sec_wait` -/
def criticalSecWait (now : Timespec) (timedwait : Timespec → ℤ) (timeout : ℤ) : Option Bool :=
  timedWait now timedwait timeout

/-- A time that `clock_gettime` reads. -/
structure ClockTime extends Timespec where
  sec_nonneg : 0 ≤ tvSec
  sec_lt : tvSec < 2 ^ 63
  normalised : toTimespec.Normalised

/-- A timeout in milliseconds. -/
structure Timeout where
  millis : ℤ
  nonneg : 0 ≤ millis
  le_infinite : millis ≤ infinite

/-- The absolute time at which a wait that begins at `now` is to end. -/
structure Deadline (now : Timespec) (millis : ℤ) (ts : Timespec) : Prop where
  normalised : ts.Normalised
  exact : ts.nanos = now.nanos + millis * 1000000

/-- Whatever `pthread_cond_timedwait` does, `wait` calls it with the deadline. -/
def WaitsUntil (wait : Timespec → (Timespec → ℤ) → ℤ → Option Bool) (now : Timespec)
    (millis : ℤ) : Prop :=
  ∃ ts, Deadline now millis ts ∧
    ∀ timedwait, wait now timedwait millis = some (decide (timedwait ts ≠ 0))

variable {now : Timespec} {millis : ℤ}

theorem waitsUntil_timedWait :
    WaitsUntil timedWait now millis ↔
      ∃ ts, now.addMillis millis = some ts ∧ Deadline now millis ts := by
  constructor
  · rintro ⟨ts, hdeadline, hwait⟩
    -- a call that succeeds at `ts` only
    have hcall := hwait fun t => if t = ts then 0 else 1
    obtain ⟨t, ht, hret⟩ := Option.bind_eq_some_iff.1 hcall
    have heq : t = ts := by simpa using hret
    exact ⟨ts, heq ▸ ht, hdeadline⟩
  · rintro ⟨ts, hts, hdeadline⟩
    refine ⟨ts, hdeadline, fun timedwait => ?_⟩
    rw [timedWait, hts]
    rfl

theorem signed_of_mem {bits : ℕ} {x : ℤ} (h : -2 ^ (bits - 1) ≤ x ∧ x < 2 ^ (bits - 1)) :
    signed bits x = some x := if_pos h

/-- The product and the nanoseconds do not overflow. -/
theorem addMillis_eq (now : ClockTime) (timeout : Timeout) :
    now.addMillis timeout.millis =
      if now.tvSec < 2 ^ 63 - timeout.millis / 1000 then
        some ⟨now.tvSec + timeout.millis / 1000,
          now.tvNsec + timeout.millis % 1000 * 1000000⟩
      else none := by
  obtain ⟨⟨sec, nsec⟩, hsec, hlt, hnsec, hnsec'⟩ := now
  obtain ⟨millis, hnonneg, hle⟩ := timeout
  simp only at hsec hlt hnsec hnsec' ⊢
  have hproduct : signed 32 (millis % 1000 * 1000000) = some (millis % 1000 * 1000000) :=
    signed_of_mem ⟨by norm_num; omega, by norm_num; omega⟩
  have hsum : signed 64 (nsec + millis % 1000 * 1000000) =
      some (nsec + millis % 1000 * 1000000) :=
    signed_of_mem ⟨by norm_num; omega, by norm_num; omega⟩
  rw [Timespec.addMillis, Int.tdiv_eq_ediv_of_nonneg hnonneg, Int.tmod_eq_emod_of_nonneg hnonneg]
  split_ifs with hbound
  · have hseconds : signed 64 (sec + millis / 1000) = some (sec + millis / 1000) :=
      signed_of_mem ⟨by norm_num; omega, by norm_num; omega⟩
    rw [hseconds, hproduct]
    simp [hsum]
  · have hseconds : signed 64 (sec + millis / 1000) = none :=
      if_neg fun h => hbound (by have hfits := h.2; norm_num at hfits ⊢; omega)
    rw [hseconds]
    rfl

/-- The sum is exact; only the carry can be missing. -/
theorem deadline_iff (now : ClockTime) (timeout : Timeout) :
    Deadline now.toTimespec timeout.millis
        ⟨now.tvSec + timeout.millis / 1000, now.tvNsec + timeout.millis % 1000 * 1000000⟩ ↔
      now.tvNsec < (1000 - timeout.millis % 1000) * 1000000 := by
  have hnsec := now.normalised.1
  have hnonneg := timeout.nonneg
  constructor
  · intro h
    have hlt : now.tvNsec + timeout.millis % 1000 * 1000000 < 1000000000 := h.normalised.2
    omega
  · intro hroom
    refine ⟨⟨?_, ?_⟩, ?_⟩
    · show 0 ≤ now.tvNsec + timeout.millis % 1000 * 1000000
      omega
    · show now.tvNsec + timeout.millis % 1000 * 1000000 < 1000000000
      omega
    · simp only [Timespec.nanos]
      omega

theorem waitsUntil_timedWait_iff (now : ClockTime) (timeout : Timeout) :
    WaitsUntil timedWait now.toTimespec timeout.millis ↔
      now.tvNsec < (1000 - timeout.millis % 1000) * 1000000 ∧
        now.tvSec < 2 ^ 63 - timeout.millis / 1000 := by
  rw [waitsUntil_timedWait, addMillis_eq, ← deadline_iff]
  constructor
  · rintro ⟨ts, hts, hdeadline⟩
    split_ifs at hts with hbound
    obtain rfl := Option.some.inj hts
    exact ⟨hdeadline, hbound⟩
  · rintro ⟨hdeadline, hbound⟩
    exact ⟨_, if_pos hbound, hdeadline⟩

/-- **A wait has a deadline if and only if it begins early enough in its second**, as long as the
seconds fit. -/
theorem waitsUntil_iff (now : ClockTime) (timeout : Timeout) :
    (WaitsUntil criticalSectionWait now.toTimespec timeout.millis ∧
        WaitsUntil criticalSecWait now.toTimespec timeout.millis) ↔
      now.tvNsec < (1000 - timeout.millis % 1000) * 1000000 ∧
        now.tvSec < 2 ^ 63 - timeout.millis / 1000 :=
  and_self_iff.trans (waitsUntil_timedWait_iff now timeout)

/-- A thread of the pool that begins to wait in the middle of a second. -/
theorem not_waitsUntil : ¬ ∀ (now : ClockTime) (timeout : Timeout),
    WaitsUntil criticalSectionWait now.toTimespec timeout.millis ∧
      WaitsUntil criticalSecWait now.toTimespec timeout.millis := by
  intro hall
  have hwaits := (hall ⟨⟨1700000000, 500000000⟩, by decide, by norm_num, by decide, by decide⟩
    ⟨infinite, by decide, by decide⟩).2
  exact absurd ((waitsUntil_timedWait_iff _ _).1 hwaits).1 (by decide)

/-- A thread of the pool waits, for `INFINITE`, in the first 353 milliseconds of a second only. -/
theorem criticalSecWait_infinite (now : ClockTime) :
    WaitsUntil criticalSecWait now.toTimespec infinite ↔
      now.tvNsec < 353000000 ∧ now.tvSec < 2 ^ 63 - 2147483 :=
  waitsUntil_timedWait_iff now ⟨infinite, by decide, le_rfl⟩

/-- Later in a second the wait is refused, and reports a timeout that has not passed. -/
theorem criticalSecWait_of_refuses {now : ClockTime} {timeout : Timeout}
    {timedwait : Timespec → ℤ} (hrefuses : ∀ ts, ¬ ts.Normalised → timedwait ts ≠ 0)
    (hlate : (1000 - timeout.millis % 1000) * 1000000 ≤ now.tvNsec)
    (hbound : now.tvSec < 2 ^ 63 - timeout.millis / 1000) :
    criticalSecWait now.toTimespec timedwait timeout.millis = some true := by
  rw [criticalSecWait, timedWait, addMillis_eq, if_pos hbound]
  refine congrArg some (decide_eq_true (hrefuses _ fun hnormalised => ?_))
  have hlt : now.tvNsec + timeout.millis % 1000 * 1000000 < 1000000000 := hnormalised.2
  omega

end Highway
