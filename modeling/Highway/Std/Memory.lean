import Mathlib.Algebra.Ring.Int.Defs
import Mathlib.Algebra.Ring.Nat
import Mathlib.Data.Int.Order.Basic
import Mathlib.Tactic.Common

/-!
# `hiw_memory`

The pool allocator: a block of memory with a cursor.  Positions are offsets from `ptr`.  A pool
of a fixed block has `resize_bytes` -1, a dynamic one has its initial capacity there, and
`hiw_memory_resize_disabled` sets it to 0.

`hiw_memory_resize_enabled` answers `resize_bytes <= 0`, so `hiw_memory_resize` enters its
capacity loop exactly for the pools whose increment is not positive, and there the loop never
reaches the capacity asked for (`resizeLoop_eq_none`).  A request that does not fit into a fixed
block therefore has no defined result (`get_eq_none`).
-/

namespace Highway

/-- `hiw_memory`, by offsets from `ptr`. -/
structure HiwMemory where
  /-- `pos - ptr` -/
  pos : ℕ
  /-- `end - ptr` -/
  stop : ℕ
  /-- `resize_bytes` -/
  resizeBytes : ℤ
  deriving DecidableEq, Repr

namespace HiwMemory

/-- `hiw_memory_fixed_init` -/
def fixedInit (capacity : ℕ) : HiwMemory := ⟨0, capacity, -1⟩

/-- `hiw_memory_resize_enabled` -/
def resizeEnabled (m : HiwMemory) : Bool := decide (m.resizeBytes ≤ 0)

/-- `hiw_memory_size` -/
def size (m : HiwMemory) : ℕ := m.pos

/-- `hiw_memory_capacity` -/
def capacity (m : HiwMemory) : ℕ := m.stop

/-- The capacity loop of `hiw_memory_resize`: `none` when `fuel` iterations are not enough or
when the addition leaves the range of `int`, which is undefined. -/
def resizeLoop (resizeBytes requiredBytes : ℤ) : ℕ → ℤ → Option ℤ
  | 0, _ => none
  | fuel + 1, newCapacity =>
    if newCapacity < requiredBytes then
      let next := newCapacity + resizeBytes
      if -2 ^ 31 ≤ next ∧ next < 2 ^ 31 then resizeLoop resizeBytes requiredBytes fuel next
      else none
    else some newCapacity

/-- `hiw_memory_resize`, with the answer of `realloc`; `none` when it does not return.  (With an
increment other than 0 the loop leaves the range of `int` in fewer than `2^32` iterations.) -/
def resize (m : HiwMemory) (requiredBytes : ℕ) (realloc : Bool) : Option (Bool × HiwMemory) :=
  if !m.resizeEnabled then some (false, m)
  else
    (resizeLoop m.resizeBytes requiredBytes (2 ^ 32) (m.capacity + m.resizeBytes)).map
      fun newCapacity =>
        if realloc then (true, { m with stop := newCapacity.toNat }) else (false, m)

/-- `hiw_memory_reset` -/
def reset (m : HiwMemory) : HiwMemory := { m with pos := 0 }

/-- `hiw_memory_get` : the offset of the region, `none` for `NULL`; the outer `none` when it does
not return.  A true result of `hiw_memory_resize` is answered with `NULL`. -/
def get (m : HiwMemory) (n : ℕ) : Option (Option ℕ × HiwMemory) :=
  if m.pos + n > m.stop then
    (m.resize (m.size + n) true).map fun (resized, m') =>
      if resized then (none, m') else (some m'.pos, { m' with pos := m'.pos + n })
  else some (some m.pos, { m with pos := m.pos + n })

variable {m m' : HiwMemory} {n : ℕ}

/-- Without a positive increment the capacity loop does not reach a capacity it is below. -/
theorem resizeLoop_eq_none {r q c : ℤ} (hr : r ≤ 0) (hc : c < q) (fuel : ℕ) :
    resizeLoop r q fuel c = none := by
  induction fuel generalizing c with
  | zero => rfl
  | succ fuel ih =>
    rw [resizeLoop, if_pos hc]
    simp only
    split_ifs
    · exact ih (by omega)
    · rfl

theorem get_of_le (h : m.pos + n ≤ m.stop) :
    m.get n = some (some m.pos, { m with pos := m.pos + n }) := by
  rw [get, if_neg (by omega)]

/-- A request that does not fit has no result when `hiw_memory_resize_enabled` holds. -/
theorem get_eq_none (hr : m.resizeBytes ≤ 0) (h : m.stop < m.pos + n) : m.get n = none := by
  have hloop := resizeLoop_eq_none (q := (m.size + n : ℕ)) (c := m.capacity + m.resizeBytes) hr
    (by simp only [size, capacity]; omega) (2 ^ 32)
  rw [get, if_pos h, resize, resizeEnabled, decide_eq_true hr, hloop]
  rfl

/-- A fixed pool never answers `NULL`: it serves the request, or does not return. -/
theorem get_fixed {o : Option ℕ} (hr : m.resizeBytes = -1) (h : m.get n = some (o, m')) :
    m.pos + n ≤ m.stop ∧ o = some m.pos ∧ m' = { m with pos := m.pos + n } := by
  rcases Nat.lt_or_ge m.stop (m.pos + n) with hlt | hle
  · simp [get_eq_none (by omega) hlt] at h
  · rw [get_of_le hle] at h
    simp only [Option.some.injEq, Prod.mk.injEq] at h
    exact ⟨hle, h.1.symm, h.2.symm⟩

end HiwMemory

end Highway
