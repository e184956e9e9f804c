import Highway.Std.Number

/-!
# Unsigned numbers

`hiw_std_uitoc` stores the digits of a number in memory, last digit first, and then mirrors them in
place; `hiw_std_ctoui` reads digits with a 32-bit accumulator.  What the first one writes, the
second one reads, as far as there was room for it (`uitoc_encodes`).
-/

namespace Highway

open Lib

/-- The loop of `hiw_std_ctoui` : where it stops, and `num` unless it stopped early. -/
def ctouiLoop : Bytes → UInt32 → Bytes × Option UInt32
  | [], num => ([], some num)
  | c :: s, num =>
    if isDigit c then ctouiLoop s (num * 10 + (c.toUInt32 - 48)) else (c :: s, none)

/-- `hiw_std_ctoui` : the characters from the returned position on, and the value `*i` has
afterwards. -/
def ctoui (str : Bytes) (i : UInt32) : Bytes × UInt32 :=
  match ctouiLoop str 0 with
  | (rest, some num) => (rest, num)
  | (rest, none) => (rest, i)

/-- The first loop of `hiw_std_uitoc`, with `left` bytes between `ptr` and `end` : the cursor and
the memory behind it. -/
def uitocStore : ℕ → ℕ → UInt32 → Buf → ℕ × Buf
  | 0, ptr, _, m => (ptr, m)
  | left + 1, ptr, val, m =>
    if val = 0 then (ptr, m)
    else
      uitocStore left (ptr + 1) (val / 10)
        (Function.update m ptr (digitChar (val % 10).toNat))

/-- The second loop of `hiw_std_uitoc` : `k` exchanges from index `i` on. -/
def mirrorStore (dest written : ℕ) : ℕ → ℕ → Buf → Buf
  | _, 0, m => m
  | i, k + 1, m =>
    let tmp := m (dest + i)
    let m := Function.update m (dest + i) (m (dest + (written - i - 1)))
    mirrorStore dest written (i + 1) k (Function.update m (dest + (written - i - 1)) tmp)

/-- `hiw_std_uitoc` on the memory at offset `dest` : the returned position, or `none` for `NULL`,
and the memory afterwards. -/
def uitocInto (m : Buf) (dest n : ℕ) (val : UInt32) : Option ℕ × Buf :=
  if n = 0 then (none, m)
  else if val = 0 then (some (dest + 1), Function.update m dest (digitChar 0))
  else
    let (ptr, m) := uitocStore n dest val m
    let written := ptr - dest
    (some ptr, mirrorStore dest written 0 (written / 2) m)

variable {m : Buf} {dest n : ℕ} {val : UInt32}

/-! ### The text in memory -/

theorem uitocStore_eq (m : Buf) (ptr left : ℕ) (val : UInt32) :
    uitocStore left ptr val m =
      (ptr + (uitocLoop left val.toNat).length, m.write ptr (uitocLoop left val.toNat)) := by
  induction left generalizing m ptr val with
  | zero => rw [uitocStore, uitocLoop, Buf.write_nil, List.length_nil, Nat.add_zero]
  | succ left ih =>
    have h0 : val = 0 ↔ val.toNat = 0 := by
      rw [← UInt32.toNat_inj]
      rfl
    unfold uitocStore uitocLoop
    by_cases hval : val = 0
    · rw [if_pos hval, if_pos (h0.1 hval), Buf.write_nil, List.length_nil, Nat.add_zero]
    · rw [if_neg hval, if_neg (fun h => hval (h0.2 h)), ih, Buf.write_cons, List.length_cons,
        UInt32.toNat_div, UInt32.toNat_mod]
      congr 1
      exact Nat.add_right_comm ptr 1 _

theorem mirrorStore_eq (m : Buf) (dest : ℕ) {text : Bytes} {i k : ℕ}
    (h : 2 * (i + k) ≤ text.length) :
    mirrorStore dest text.length i k (m.write dest text) =
      m.write dest (mirrorLoop text i k) := by
  induction k generalizing text i with
  | zero => rfl
  | succ k ih =>
    have hi : i < text.length := by omega
    have hi' : text.length - i - 1 < text.length := by omega
    simp only [mirrorStore, mirrorLoop]
    rw [Buf.write_add hi, Buf.write_add hi', Buf.update_write hi,
      Buf.update_write (by rwa [List.length_set])]
    have hih := @ih ((text.set i (text.getD (text.length - i - 1) 0)).set
      (text.length - i - 1) (text.getD i 0)) (i + 1)
      (by rw [List.length_set, List.length_set]; omega)
    rwa [List.length_set, List.length_set] at hih

theorem uitocInto_eq (m : Buf) (dest : ℕ) (hn : n ≠ 0) (val : UInt32) :
    ∃ text, uitoc n val.toNat = some text ∧
      uitocInto m dest n val = (some (dest + text.length), m.write dest text) := by
  unfold uitocInto uitoc
  rw [if_neg hn, if_neg hn]
  by_cases h0 : val = 0
  · rw [if_pos h0, if_pos (by rw [h0]; rfl)]
    refine ⟨_, rfl, ?_⟩
    rw [Buf.write_cons, Buf.write_nil]
    rfl
  · have h0' : val.toNat ≠ 0 := fun h => h0 (UInt32.toNat_inj.1 h)
    rw [if_neg h0, if_neg h0']
    refine ⟨_, rfl, ?_⟩
    simp only [uitocStore_eq, Nat.add_sub_cancel_left, length_mirrorLoop]
    rw [mirrorStore_eq m dest (by omega)]

/-! ### The text -/

theorem length_uitocLoop_le (n val : ℕ) : (uitocLoop n val).length ≤ n := by
  induction n generalizing val with
  | zero => exact Nat.le_refl 0
  | succ n ih =>
    rw [uitocLoop]
    split_ifs
    · exact Nat.zero_le _
    · exact Nat.succ_le_succ (ih _)

theorem digitsValue_uitocLoop (n val : ℕ) :
    digitsValue (uitocLoop n val).reverse = val % 10 ^ n := by
  induction n generalizing val with
  | zero => rw [pow_zero, Nat.mod_one]; rfl
  | succ n ih =>
    rw [uitocLoop]
    split_ifs with h0
    · rw [h0, Nat.zero_mod]
      rfl
    · rw [List.reverse_cons, digitsValue_concat, ih, digitChar_toNat (Nat.mod_lt _ (by norm_num)),
        Nat.add_sub_cancel_left, pow_succ', Nat.mod_mul]
      ring

theorem isDigit_digitChar {d : ℕ} (h : d < 10) : isDigit (digitChar d) = true := by
  rw [isDigit, digitChar_toNat h]
  simp
  omega

theorem isDigit_of_mem_uitocLoop {n val : ℕ} {c : UInt8} (h : c ∈ uitocLoop n val) :
    isDigit c = true := by
  induction n generalizing val with
  | zero => cases h
  | succ n ih =>
    rw [uitocLoop] at h
    split_ifs at h
    · cases h
    · rcases List.mem_cons.1 h with rfl | h
      · exact isDigit_digitChar (Nat.mod_lt _ (by norm_num))
      · exact ih h

/-- What `hiw_std_uitoc` writes: between 1 and `n` digits, which denote the number without the
digits for which there is no room. -/
theorem uitoc_spec {text : Bytes} (hn : n ≠ 0) {val : ℕ} (h : uitoc n val = some text) :
    0 < text.length ∧ text.length ≤ n ∧ (∀ c ∈ text, isDigit c = true) ∧
      digitsValue text = val % 10 ^ n := by
  rw [uitoc, if_neg hn] at h
  split_ifs at h with h0
  · obtain rfl := Option.some.inj h
    refine ⟨Nat.one_pos, Nat.pos_of_ne_zero hn, ?_, ?_⟩
    · exact List.forall_mem_singleton.2 (isDigit_digitChar (by norm_num))
    · rw [h0, Nat.zero_mod]
      rfl
  · simp only [mirrorLoop_half] at h
    obtain rfl := Option.some.inj h
    refine ⟨?_, ?_, fun c hc => isDigit_of_mem_uitocLoop (List.mem_reverse.1 hc),
      digitsValue_uitocLoop n val⟩
    · obtain ⟨k, rfl⟩ := Nat.exists_eq_succ_of_ne_zero hn
      rw [uitocLoop, if_neg h0, List.length_reverse]
      exact Nat.succ_pos _
    · rw [List.length_reverse]
      exact length_uitocLoop_le n val

/-! ### Reading it back -/

theorem ctouiLoop_of_digits {s pre : Bytes} (hd : ∀ c ∈ s, isDigit c = true) :
    ctouiLoop s (UInt32.ofNat (digitsValue pre)) =
      ([], some (UInt32.ofNat (digitsValue (pre ++ s)))) := by
  induction s generalizing pre with
  | nil => rw [List.append_nil]; rfl
  | cons c s ih =>
    obtain ⟨hc, hs⟩ := List.forall_mem_cons.1 hd
    have h48 : 48 ≤ c.toNat := by
      simp only [isDigit, Bool.and_eq_true, decide_eq_true_eq] at hc
      exact hc.1
    -- the accumulator is the number read so far, modulo 2^32
    have hstep : UInt32.ofNat (digitsValue pre) * 10 + (c.toUInt32 - 48) =
        UInt32.ofNat (digitsValue (pre ++ [c])) := by
      have hsub : c.toUInt32 - 48 = UInt32.ofNat (c.toNat - 48) := by
        have hle : (48 : UInt32) ≤ c.toUInt32 := by
          rw [UInt32.le_iff_toNat_le, UInt8.toNat_toUInt32]
          exact h48
        have hlt := c.toNat_lt
        rw [← UInt32.toNat_inj, UInt32.toNat_sub_of_le _ _ hle, UInt8.toNat_toUInt32,
          UInt32.toNat_ofNat']
        show c.toNat - 48 = _
        omega
      rw [digitsValue_concat, UInt32.ofNat_add, UInt32.ofNat_mul, hsub]
      rfl
    rw [ctouiLoop, if_pos hc, hstep, ih hs, List.append_assoc, List.singleton_append]

/-- A string of digits is read to its end, modulo `2^32`. -/
theorem ctoui_of_digits {s : Bytes} (hd : ∀ c ∈ s, isDigit c = true) (i : UInt32) :
    ctoui s i = ([], UInt32.ofNat (digitsValue s)) := by
  have hloop : ctouiLoop s (UInt32.ofNat (digitsValue [])) =
      ([], some (UInt32.ofNat (digitsValue ([] ++ s)))) := ctouiLoop_of_digits hd
  rw [ctoui, show (0 : UInt32) = UInt32.ofNat (digitsValue []) from rfl, hloop]
  rfl

/-- What `hiw_std_uitoc` is to leave in the memory `m'` when it returns `ptr`. -/
structure Encodes (m : Buf) (dest n : ℕ) (val : UInt32) (ptr : ℕ) (m' : Buf) : Prop where
  /-- Between 1 and `n` characters are written. -/
  written : dest < ptr ∧ ptr ≤ dest + n
  /-- Nothing else is. -/
  frame : ∀ i, i < dest ∨ ptr ≤ i → m' i = m i
  digits : ∀ c ∈ m'.bytes dest (ptr - dest), isDigit c = true
  /-- `hiw_std_ctoui` reads all of them. -/
  decodes : ∀ i, ctoui (m'.bytes dest (ptr - dest)) i =
    ([], UInt32.ofNat (val.toNat % 10 ^ n))
  /-- Ten characters are enough for every number. -/
  exact : 10 ≤ n → ∀ i, ctoui (m'.bytes dest (ptr - dest)) i = ([], val)
  noZero : 10 ≤ n → val ≠ 0 → m' dest ≠ digitChar 0

/-- **Encoding and decoding agree.** -/
theorem uitoc_encodes (m : Buf) (dest : ℕ) (hn : 1 ≤ n) (val : UInt32) :
    ∃ ptr m', uitocInto m dest n val = (some ptr, m') ∧ Encodes m dest n val ptr m' := by
  have hn0 : n ≠ 0 := Nat.one_le_iff_ne_zero.1 hn
  obtain ⟨text, htext, hinto⟩ := uitocInto_eq m dest hn0 val
  obtain ⟨hpos, hle, hdigits, hvalue⟩ := uitoc_spec hn0 htext
  have hbytes : (m.write dest text).bytes dest (dest + text.length - dest) = text := by
    rw [Nat.add_sub_cancel_left, Buf.bytes_write]
  have hmod : 10 ≤ n → val.toNat < 10 ^ n := by
    intro h10
    have hval := val.toNat_lt
    have hpow : 10 ^ 10 ≤ 10 ^ n := Nat.pow_le_pow_right (by norm_num) h10
    omega
  refine ⟨_, _, hinto, ⟨by omega, by omega⟩, fun i hi => ?_, ?_, fun i => ?_, fun h10 i => ?_,
    fun h10 h0 => ?_⟩
  · rcases hi with hi | hi
    · exact Buf.write_of_lt hi
    · exact Buf.write_of_ge hi
  · rw [hbytes]
    exact hdigits
  · rw [hbytes, ctoui_of_digits hdigits, hvalue]
  · rw [hbytes, ctoui_of_digits hdigits, hvalue, Nat.mod_eq_of_lt (hmod h10), UInt32.ofNat_toNat]
  · -- the text is the numeral of the number
    rw [uitoc_eq_decimal hn0 (hmod h10)] at htext
    obtain rfl := Option.some.inj htext
    have hfirst := Buf.write_add (m := m) (o := dest) hpos
    rw [Nat.add_zero] at hfirst
    rw [hfirst]
    exact head_decimal_ne fun h => h0 (UInt32.toNat_inj.1 h)

/-- The number that needs all ten digits. -/
theorem uitoc_encodes_max : ∃ ptr m', uitocInto (fun _ => 0) 0 10 4294967295 = (some ptr, m') ∧
    Encodes (fun _ => 0) 0 10 4294967295 ptr m' :=
  uitoc_encodes (fun _ => 0) 0 (by decide) 4294967295

end Highway
