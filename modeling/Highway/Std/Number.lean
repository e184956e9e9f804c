import Highway.Lib.Decimal
import Highway.Std.Buffer

/-!
# Conversion between numbers and text

`hiw_std_ctoi` with its 32-bit accumulator, and `hiw_std_uitoc`, which writes the digits in
reverse and mirrors them in place.  `ctoi_of_digits` and `uitoc_eq_decimal` relate them to the
numerals of `Highway.Lib.Decimal`.
-/

namespace Highway

open Lib

/-- The value of a C `int` after an operation: two's complement in 32 bits.  (Overflow of a
signed addition or multiplication is undefined in C; this is what the hardware computes.) -/
def int32 (x : ℤ) : ℤ := x.bmod (2 ^ 32)

theorem int32_of_nat {n : ℕ} (h : n < 2 ^ 31) : int32 n = n :=
  Int.bmod_eq_of_le_mul_two (by omega) (by omega)

/-- The loop of `hiw_std_ctoi` : where it stops, and `num` unless it stopped early. -/
def ctoiLoop : Bytes → ℤ → Bytes × Option ℤ
  | [], num => ([], some num)
  | c :: s, num =>
    if isDigit c then ctoiLoop s (int32 (int32 (num * 10) + (c.toNat - 48))) else (c :: s, none)

/-- The sign in front of the digits: `multiplier`, and the characters behind it. -/
def ctoiSign : Bytes → ℤ × Bytes
  | [] => (1, [])
  | c :: s => if c = 45 then (-1, s) else (1, c :: s)

/-- `hiw_std_ctoi` : the characters from the returned position on, and the value `*i` has
afterwards. -/
def ctoi (str : Bytes) (i : ℤ) : Bytes × ℤ :=
  let (multiplier, s) := ctoiSign str
  match ctoiLoop s 0 with
  | (rest, some num) => (rest, int32 (num * multiplier))
  | (rest, none) => (rest, i)

/-- `hiw_string_toi` : the value `*i` has afterwards; the returned rest is not used by the
callers. -/
def stringToi (str : Bytes) (i : ℤ) : ℤ := (ctoi str i).2

/-- The reversed digits written by the first loop of `hiw_std_uitoc` into `n` bytes. -/
def uitocLoop : ℕ → ℕ → Bytes
  | 0, _ => []
  | n + 1, val => if val = 0 then [] else digitChar (val % 10) :: uitocLoop n (val / 10)

/-- The second loop of `hiw_std_uitoc` : `k` exchanges from index `i` on. -/
def mirrorLoop (dest : Bytes) : ℕ → ℕ → Bytes
  | _, 0 => dest
  | i, k + 1 =>
    let written := dest.length
    mirrorLoop ((dest.set i (dest.getD (written - i - 1) 0)).set (written - i - 1)
      (dest.getD i 0)) (i + 1) k

/-- `hiw_std_uitoc` : the characters written in front of the returned position. -/
def uitoc (n val : ℕ) : Option Bytes :=
  if n = 0 then none
  else if val = 0 then some [digitChar 0]
  else
    let dest := uitocLoop n val
    some (mirrorLoop dest 0 (dest.length / 2))

/-! ### Decoding -/

theorem ctoiLoop_of_digits {s pre : Bytes} (hd : ∀ b ∈ s, isDigit b = true)
    (hv : digitsValue (pre ++ s) < 2 ^ 31) :
    ctoiLoop s (digitsValue pre) = ([], some (digitsValue (pre ++ s) : ℤ)) := by
  induction s generalizing pre with
  | nil => simp [ctoiLoop]
  | cons c s ih =>
    have hc := hd c (by simp)
    have hle : digitsValue (pre ++ [c]) ≤ digitsValue (pre ++ c :: s) := by
      simpa using digitsValue_le_append (pre ++ [c]) s
    have hval := digitsValue_concat pre c
    have h48 : 48 ≤ c.toNat := by
      simp only [isDigit, Bool.and_eq_true, decide_eq_true_eq] at hc
      exact hc.1
    -- no step overflows: the number read so far is below the whole one
    have hstep : int32 (int32 ((digitsValue pre : ℤ) * 10) + (c.toNat - 48)) =
        (digitsValue (pre ++ [c]) : ℤ) := by
      have h₁ := int32_of_nat (n := digitsValue pre * 10) (by omega)
      have h₂ := int32_of_nat (n := digitsValue pre * 10 + (c.toNat - 48)) (by omega)
      push_cast [Nat.cast_sub h48] at h₁ h₂
      rw [h₁, h₂, hval]
      push_cast [Nat.cast_sub h48]
      rfl
    rw [ctoiLoop, if_pos hc, hstep, ih (fun b hb => hd b (List.mem_cons_of_mem _ hb)) (by
      simpa using hv)]
    simp

theorem stringToi_of_digits {s : Bytes} (hd : ∀ b ∈ s, isDigit b = true)
    (hv : digitsValue s < 2 ^ 31) (i : ℤ) : stringToi s i = digitsValue s := by
  have hloop : ctoiLoop s (digitsValue []) = ([], some (digitsValue ([] ++ s) : ℤ)) :=
    ctoiLoop_of_digits hd hv
  have hsign : ctoiSign s = (1, s) := by
    cases s with
    | nil => rfl
    | cons c s =>
      have hc : c ≠ 45 := by
        rintro rfl
        exact absurd (hd 45 (by simp)) (by decide)
      rw [ctoiSign, if_neg hc]
  rw [stringToi, ctoi, hsign]
  simp only
  rw [show (0 : ℤ) = (digitsValue [] : ℤ) from rfl, hloop]
  simp only [mul_one]
  exact int32_of_nat hv

/-! ### Encoding -/

theorem uitocLoop_eq {n val : ℕ} (h : val < 10 ^ n) :
    uitocLoop n val = (Nat.digits 10 val).map digitChar := by
  induction n generalizing val with
  | zero => obtain rfl : val = 0 := by simpa using h
            rfl
  | succ n ih =>
    unfold uitocLoop
    split_ifs with h0
    · simp [h0]
    · rw [Nat.digits_def' (by norm_num) (Nat.pos_of_ne_zero h0), List.map_cons,
        ih (Nat.div_lt_of_lt_mul (by rwa [pow_succ, mul_comm] at h))]

theorem length_mirrorLoop (dest : Bytes) (i k : ℕ) :
    (mirrorLoop dest i k).length = dest.length := by
  induction k generalizing dest i with
  | zero => rfl
  | succ k ih => simp [mirrorLoop, ih]

/-- After `k` exchanges from index `i` on, the positions passed at both ends are mirrored. -/
theorem getElem?_mirrorLoop {dest : Bytes} {i k : ℕ} (h : 2 * (i + k) ≤ dest.length) (j : ℕ)
    (hj : j < dest.length) :
    (mirrorLoop dest i k)[j]? =
      if i ≤ j ∧ j < i + k ∨ dest.length - (i + k) ≤ j ∧ j < dest.length - i then
        dest[dest.length - 1 - j]?
      else dest[j]? := by
  induction k generalizing dest i with
  | zero => rw [mirrorLoop, if_neg (by omega)]
  | succ k ih =>
    rw [mirrorLoop, ih (by simp only [List.length_set]; omega) (by simpa using hj)]
    simp only [List.length_set, List.getElem?_set, List.getD_eq_getElem?_getD]
    have hi : i < dest.length := by omega
    have hi' : dest.length - i - 1 < dest.length := by omega
    simp only [hi, hi', List.getElem?_eq_getElem, Option.getD_some]
    split_ifs with h₁ h₂ h₃ h₄ h₅ h₆ h₇ <;> first
      | rfl
      | omega
      | (rw [← List.getElem?_eq_getElem]; congr 1; omega)

theorem mirrorLoop_half (dest : Bytes) : mirrorLoop dest 0 (dest.length / 2) = dest.reverse := by
  apply List.ext_getElem?
  intro j
  rcases Nat.lt_or_ge j dest.length with hj | hj
  · rw [getElem?_mirrorLoop (by omega) j hj, List.getElem?_reverse hj]
    split_ifs with h
    · rfl
    · congr 1; omega
  · rw [List.getElem?_eq_none (by rwa [length_mirrorLoop]),
      List.getElem?_eq_none (by rwa [List.length_reverse])]

/-- With room for all its digits, `hiw_std_uitoc` writes the decimal numeral. -/
theorem uitoc_eq_decimal {n val : ℕ} (hn : n ≠ 0) (h : val < 10 ^ n) :
    uitoc n val = some (decimal val) := by
  unfold uitoc decimal
  rw [if_neg hn]
  split_ifs with h0
  · rfl
  · simp only
    rw [mirrorLoop_half, uitocLoop_eq h, List.map_reverse]

end Highway
