import Mathlib.Data.Nat.Basic
import Mathlib.Data.List.Basic
import Mathlib.Logic.Function.Basic
import Mathlib.Tactic.Common

/-!
# Memory blocks

The parser works in place on a block of memory that the socket writes to.  A block is its bytes
by offset from the block's start; `Buf.bytes` is the list of the bytes of a region, `Buf.write`
puts bytes at an offset.
-/

namespace Highway

/-- Strings of bytes. -/
abbrev Bytes := List UInt8

/-- The bytes of a string literal. -/
def ascii (s : String) : Bytes := s.toList.map fun c => UInt8.ofNat c.toNat

/-- `hiw_std_mempy` : the bytes of `dest` after a copy of `src`, clamped to `capacity` bytes. -/
def mempy (src dest : Bytes) (capacity : ℕ) : Bytes :=
  let n := min src.length capacity
  src.take n ++ dest.drop n

/-- The bytes of `dest` with `bs` stored at the start. -/
def overwrite (dest bs : Bytes) : Bytes := bs ++ dest.drop bs.length

@[simp] theorem overwrite_nil (dest : Bytes) : overwrite dest [] = dest := rfl

@[simp] theorem take_overwrite (dest bs : Bytes) : (overwrite dest bs).take bs.length = bs := by
  simp [overwrite]

theorem getElem?_overwrite {dest bs : Bytes} {i : ℕ} (h : bs.length ≤ i) :
    (overwrite dest bs)[i]? = dest[i]? := by
  rw [overwrite, List.getElem?_append_right h, List.getElem?_drop]
  congr 1
  omega

theorem mempy_of_le {src dest : Bytes} {capacity : ℕ} (h : src.length ≤ capacity) :
    mempy src dest capacity = overwrite dest src := by
  simp [mempy, overwrite, Nat.min_eq_left h]

/-- A block of memory: its bytes by offset from the start. -/
abbrev Buf := ℕ → UInt8

namespace Buf

/-- The `n` bytes from offset `b` on. -/
def bytes (m : Buf) : ℕ → ℕ → Bytes
  | _, 0 => []
  | b, n + 1 => m b :: bytes m (b + 1) n

/-- The block with `bs` stored from offset `o` on. -/
def write (m : Buf) (o : ℕ) (bs : Bytes) : Buf := fun i =>
  if o ≤ i ∧ i < o + bs.length then bs.getD (i - o) 0 else m i

variable {m m' : Buf} {b n k o : ℕ} {bs : Bytes}

@[simp] theorem bytes_zero : m.bytes b 0 = [] := rfl

theorem bytes_succ : m.bytes b (n + 1) = m b :: m.bytes (b + 1) n := rfl

@[simp] theorem length_bytes : (m.bytes b n).length = n := by
  induction n generalizing b with
  | zero => rfl
  | succ n ih => simp [bytes, ih]

theorem bytes_add : m.bytes b (n + k) = m.bytes b n ++ m.bytes (b + n) k := by
  induction n generalizing b with
  | zero => simp
  | succ n ih =>
    rw [Nat.add_right_comm, bytes_succ, ih, bytes_succ, List.cons_append, Nat.add_right_comm,
      Nat.add_assoc b n 1]

theorem bytes_concat : m.bytes b (n + 1) = m.bytes b n ++ [m (b + n)] := by
  rw [bytes_add]; rfl

theorem bytes_split (h : k < n) :
    m.bytes b n = m.bytes b k ++ m (b + k) :: m.bytes (b + k + 1) (n - (k + 1)) := by
  conv_lhs => rw [show n = k + ((n - (k + 1)) + 1) by omega]
  rw [bytes_add, bytes_succ]

theorem take_bytes (h : k ≤ n) : (m.bytes b n).take k = m.bytes b k := by
  obtain ⟨j, rfl⟩ := Nat.exists_eq_add_of_le h
  rw [bytes_add, List.take_left' length_bytes]

theorem drop_bytes (h : k ≤ n) : (m.bytes b n).drop k = m.bytes (b + k) (n - k) := by
  obtain ⟨j, rfl⟩ := Nat.exists_eq_add_of_le h
  rw [bytes_add, List.drop_left' length_bytes, Nat.add_sub_cancel_left]

theorem bytes_congr (h : ∀ i, b ≤ i → i < b + n → m i = m' i) : m.bytes b n = m'.bytes b n := by
  induction n generalizing b with
  | zero => rfl
  | succ n ih =>
    rw [bytes_succ, bytes_succ, h b le_rfl (by omega),
      ih fun i hi hi' => h i (by omega) (by omega)]

theorem mem_bytes {x : UInt8} : x ∈ m.bytes b n ↔ ∃ i, b ≤ i ∧ i < b + n ∧ m i = x := by
  induction n generalizing b with
  | zero => simp; omega
  | succ n ih =>
    rw [bytes_succ, List.mem_cons, ih]
    constructor
    · rintro (rfl | ⟨i, hi, hi', rfl⟩)
      · exact ⟨b, le_rfl, by omega, rfl⟩
      · exact ⟨i, by omega, by omega, rfl⟩
    · rintro ⟨i, hi, hi', rfl⟩
      rcases Nat.eq_or_lt_of_le hi with rfl | hlt
      · exact .inl rfl
      · exact .inr ⟨i, hlt, by omega, rfl⟩

theorem write_of_lt (h : k < o) : m.write o bs k = m k := by
  simp only [write]
  rw [if_neg (by omega)]

@[simp] theorem write_nil (m : Buf) (o : ℕ) : m.write o [] = m :=
  funext fun k => by simp only [write]; rw [if_neg (by simp)]

theorem write_of_ge (h : o + bs.length ≤ k) : m.write o bs k = m k := by
  simp only [write]
  rw [if_neg (by omega)]

theorem write_add (h : k < bs.length) : m.write o bs (o + k) = bs.getD k 0 := by
  simp only [write]
  rw [if_pos (by omega), Nat.add_sub_cancel_left]

theorem write_cons (m : Buf) (o : ℕ) (x : UInt8) (xs : Bytes) :
    m.write o (x :: xs) = Buf.write (Function.update m o x) (o + 1) xs := by
  funext i
  rcases Nat.lt_trichotomy i o with hi | rfl | hi
  · rw [write_of_lt hi, write_of_lt (Nat.lt_succ_of_lt hi), Function.update_of_ne (Nat.ne_of_lt hi)]
  · rw [write_of_lt (Nat.lt_succ_self i), Function.update_self]
    exact write_add (k := 0) (Nat.succ_pos _)
  · obtain ⟨j, rfl⟩ := Nat.exists_eq_add_of_lt hi
    rcases Nat.lt_or_ge j xs.length with hj | hj
    · rw [show o + j + 1 = o + 1 + j by omega, write_add hj, Nat.add_assoc,
        write_add (by rw [List.length_cons]; omega), Nat.add_comm 1, List.getD_cons_succ]
    · rw [write_of_ge (by rw [List.length_cons]; omega), write_of_ge (by omega),
        Function.update_of_ne (Nat.ne_of_gt hi)]

theorem update_write (h : k < bs.length) (x : UInt8) :
    Function.update (m.write o bs) (o + k) x = m.write o (bs.set k x) := by
  funext i
  rcases Nat.lt_or_ge i o with hi | hi
  · rw [Function.update_of_ne (by omega), write_of_lt hi, write_of_lt hi]
  obtain ⟨j, rfl⟩ := Nat.exists_eq_add_of_le hi
  rcases Nat.lt_or_ge j bs.length with hj | hj
  · rw [write_add (by rwa [List.length_set]), List.getD_eq_getElem?_getD, List.getElem?_set]
    by_cases hjk : k = j
    · rw [hjk, Function.update_self, if_pos rfl, if_pos hj]
      rfl
    · rw [Function.update_of_ne (by omega), if_neg hjk, write_add hj, List.getD_eq_getElem?_getD]
  · rw [Function.update_of_ne (by omega), write_of_ge (by omega),
      write_of_ge (by rw [List.length_set]; omega)]

theorem bytes_write_of_le (h : b + n ≤ o) : (m.write o bs).bytes b n = m.bytes b n :=
  bytes_congr fun _ _ hi => write_of_lt (by omega)

theorem bytes_write : (m.write o bs).bytes o bs.length = bs := by
  induction bs generalizing m o with
  | nil => rfl
  | cons x xs ih =>
    rw [List.length_cons, bytes_succ]
    have hx : m.write o (x :: xs) o = x := by simp [write]
    have hxs : (m.write o (x :: xs)).bytes (o + 1) xs.length =
        (m.write (o + 1) xs).bytes (o + 1) xs.length := by
      refine bytes_congr fun i hi hi' => ?_
      obtain ⟨k, rfl⟩ := Nat.exists_eq_add_of_le hi
      have hk : o + 1 + k - o = k + 1 := by omega
      simp only [write, List.length_cons, hk, List.getD_cons_succ, Nat.add_sub_cancel_left]
      rw [if_pos ⟨by omega, by omega⟩, if_pos ⟨by omega, by omega⟩]
    rw [hx, hxs, ih]

theorem bytes_write_append :
    (m.write (b + n) bs).bytes b (n + bs.length) = m.bytes b n ++ bs := by
  rw [bytes_add, bytes_write_of_le le_rfl, bytes_write]

theorem bytes_zero_write_append : (m.write n bs).bytes 0 (n + bs.length) = m.bytes 0 n ++ bs := by
  have h : (m.write (0 + n) bs).bytes 0 (n + bs.length) = m.bytes 0 n ++ bs := bytes_write_append
  rwa [Nat.zero_add] at h

/-- The two blocks have the same bytes in front of offset `b`. -/
def AgreeBelow (b : ℕ) (m m' : Buf) : Prop := ∀ i < b, m i = m' i

theorem AgreeBelow.bytes (h : AgreeBelow k m m') (hb : b + n ≤ k) :
    m'.bytes b n = m.bytes b n :=
  bytes_congr fun i _ hi => (h i (by omega)).symm

theorem AgreeBelow.write (h : AgreeBelow b m m') :
    AgreeBelow (b + bs.length) (m.write b bs) (m'.write b bs) := by
  intro i hi
  simp only [Buf.write]
  split_ifs
  · rfl
  · exact h i (by omega)

end Buf

end Highway
