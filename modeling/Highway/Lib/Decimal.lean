import Mathlib.Data.Nat.Digits.Lemmas
import Mathlib.Data.List.Induction
import Mathlib.Tactic.Positivity
import Mathlib.Tactic.Ring

/-!
# Decimal numerals

Natural numbers written as ASCII digits, most significant digit first, without leading zeros
(`decimal`), and the number a string of digits denotes (`digitsValue`).
-/

namespace Lib

/-- An ASCII digit. -/
def isDigit (b : UInt8) : Bool := decide (48 ≤ b.toNat) && decide (b.toNat ≤ 57)

/-- The ASCII digit of `d < 10`. -/
def digitChar (d : ℕ) : UInt8 := UInt8.ofNat (48 + d)

/-- The number denoted by a string of ASCII digits. -/
def digitsValue (bs : List UInt8) : ℕ := bs.foldl (fun n b => n * 10 + (b.toNat - 48)) 0

/-- The decimal numeral of `n`. -/
def decimal (n : ℕ) : List UInt8 :=
  if n = 0 then [digitChar 0] else ((Nat.digits 10 n).reverse.map digitChar)

theorem digitChar_toNat {d : ℕ} (h : d < 10) : (digitChar d).toNat = 48 + d := by
  rw [digitChar, UInt8.toNat_ofNat']
  omega

theorem digitsValue_concat (bs : List UInt8) (b : UInt8) :
    digitsValue (bs ++ [b]) = digitsValue bs * 10 + (b.toNat - 48) := by
  simp [digitsValue]

theorem digitsValue_append (a b : List UInt8) :
    digitsValue (a ++ b) = digitsValue a * 10 ^ b.length + digitsValue b := by
  induction b using List.reverseRecOn generalizing a with
  | nil => simp [digitsValue]
  | append_singleton b x ih =>
    rw [← List.append_assoc, digitsValue_concat, ih, digitsValue_concat, List.length_append,
      List.length_singleton, pow_succ]
    ring

theorem digitsValue_le_append (a b : List UInt8) : digitsValue a ≤ digitsValue (a ++ b) := by
  rw [digitsValue_append]
  exact Nat.le_add_right_of_le (Nat.le_mul_of_pos_right _ (by positivity))

theorem digitsValue_map_digitChar {ds : List ℕ} (h : ∀ d ∈ ds, d < 10) :
    digitsValue (ds.reverse.map digitChar) = Nat.ofDigits 10 ds := by
  induction ds with
  | nil => rfl
  | cons d ds ih =>
    rw [List.reverse_cons, List.map_append, List.map_singleton, digitsValue_concat,
      ih fun x hx => h x (List.mem_cons_of_mem _ hx), digitChar_toNat (h d (by simp)),
      Nat.ofDigits_cons]
    simp only [Nat.add_sub_cancel_left]
    ring

/-- **A numeral denotes the number it was made from.** -/
@[simp] theorem digitsValue_decimal (n : ℕ) : digitsValue (decimal n) = n := by
  unfold decimal
  split_ifs with h
  · rw [h]; rfl
  · rw [digitsValue_map_digitChar fun d hd => Nat.digits_lt_base (by norm_num) hd,
      Nat.ofDigits_digits]

theorem isDigit_of_mem_decimal {n : ℕ} {b : UInt8} (h : b ∈ decimal n) : isDigit b = true := by
  have hdigit : ∀ d < 10, isDigit (digitChar d) = true := by decide
  unfold decimal at h
  split_ifs at h
  · rw [List.mem_singleton.1 h]
    exact hdigit 0 (by decide)
  · obtain ⟨d, hd, rfl⟩ := List.mem_map.1 h
    exact hdigit d (Nat.digits_lt_base (by norm_num) (List.mem_reverse.1 hd))

theorem decimal_ne_nil (n : ℕ) : decimal n ≠ [] := by
  unfold decimal
  split_ifs with h
  · exact List.cons_ne_nil _ _
  · simpa [Nat.digits_eq_nil_iff_eq_zero] using h

theorem length_decimal_le {n k : ℕ} (hk : 0 < k) (h : n < 10 ^ k) : (decimal n).length ≤ k := by
  unfold decimal
  split_ifs
  · exact hk
  · rw [List.length_map, List.length_reverse]
    exact (Nat.digits_length_le_iff (by decide) n).2 h

theorem head_decimal_ne {n : ℕ} (h : n ≠ 0) : (decimal n).getD 0 0 ≠ digitChar 0 := by
  have hne : Nat.digits 10 n ≠ [] := by rwa [ne_eq, Nat.digits_eq_nil_iff_eq_zero]
  have hlast := Nat.getLast_digit_ne_zero 10 h
  have hlt : (Nat.digits 10 n).getLast hne < 10 :=
    Nat.digits_lt_base (by norm_num) (List.getLast_mem hne)
  have hhead : (decimal n).getD 0 0 = digitChar ((Nat.digits 10 n).getLast hne) := by
    rw [decimal, if_neg h, List.getD_eq_getElem?_getD, ← List.head?_eq_getElem?, List.head?_map,
      List.head?_reverse, List.getLast?_eq_some_getLast hne]
    rfl
  rw [hhead]
  intro heq
  have htoNat := congrArg UInt8.toNat heq
  rw [digitChar_toNat hlt, digitChar_toNat (by norm_num)] at htoNat
  omega

end Lib
