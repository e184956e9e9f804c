import Highway.Lib.Fields
import Highway.Std.Buffer

/-!
# `hiw_string`

A `hiw_string` is a view into a block of memory: an offset and a length.  The functions here walk
the block as `core/src/hiw_std.c` does, and each comes with one lemma that says which bytes the
result reads, in terms of the bytes `HiwString.reads` of its argument:

* `readline_eq_some`, `readline_eq_none` : the part in front of the first line feed;
* `map_reads_split` : the parts are the `fields` of the string;
* `reads_rtrim` : the string without its trailing whitespace;
* `reads_trim` : the string without the whitespace at its ends, except that a string of
  whitespace only makes `hiw_string_trim` look at the byte behind the view (`Lib.trimWith`).

Comparisons and conversions only look at the bytes of the view, so they are functions of these.
-/

namespace Highway

open Lib

/-- `'\n'` -/
def LF : UInt8 := 10

/-- `'\r'` -/
def CR : UInt8 := 13

/-- `hiw_string` : a view into a block of memory. -/
structure HiwString where
  /-- Offset of the first byte. -/
  begin : ℕ
  /-- Number of bytes. -/
  length : ℕ
  deriving DecidableEq, Repr

namespace HiwString

/-- The bytes a string denotes in the block `m`. -/
def reads (m : Buf) (s : HiwString) : Bytes := m.bytes s.begin s.length

/-- The result `(hiw_string){.length = 0}`. -/
def empty : HiwString := ⟨0, 0⟩

/-- `hiw_string_isspace` -/
def isspace (c : UInt8) : Bool := c == CR || c == LF || c == 32 || c == 9

/-- Comparison of `n` characters, the loop of `hiw_string_cmp` and `hiw_string_cmpc`. -/
def cmpLoop : Bytes → Bytes → Bool
  | c₁ :: s₁, c₂ :: s₂ => if c₁ ≠ c₂ then false else cmpLoop s₁ s₂
  | _, _ => true

/-- `hiw_string_cmp` -/
def cmp (s₁ s₂ : Bytes) : Bool := if s₁.length ≠ s₂.length then false else cmpLoop s₁ s₂

/-- `hiw_string_cmpc`, called through `hiw_str_cmpc` with a literal. -/
def cmpc (s₁ : Bytes) (c : String) : Bool :=
  if s₁.length ≠ (ascii c).length then false else cmpLoop s₁ (ascii c)

/-- The cursor after `for (; c != end && *c != delim; ++c)`, `left` bytes before `end`. -/
def seek (m : Buf) (delim : UInt8) : ℕ → ℕ → ℕ
  | c, 0 => c
  | c, left + 1 => if m c = delim then c else seek m delim (c + 1) left

/-- `hiw_string_readline` : the line in `dest`, or `none` where the function returns false. -/
def readline (m : Buf) (str : HiwString) : Option HiwString :=
  if str.length = 0 then none
  else
    let c := seek m LF str.begin str.length
    if c ≠ str.begin + str.length then some ⟨str.begin, c - str.begin⟩ else none

/-- The loop of `hiw_string_split`, with `num` parts still to come before the last one. -/
def splitLoop (m : Buf) (delim : UInt8) (stop : ℕ) : ℕ → ℕ → List HiwString
  | 0, start => [⟨start, stop - start⟩]
  | num + 1, start =>
    let splitEnd := seek m delim start (stop - start)
    if splitEnd = stop then [⟨start, stop - start⟩]
    else ⟨start, splitEnd - start⟩ :: splitLoop m delim stop num (splitEnd + 1)

/-- `hiw_string_split` : the parts written to `dest`; the result is their number. -/
def split (m : Buf) (str : HiwString) (delim : UInt8) (n : ℕ) : List HiwString :=
  if str.length = 0 ∨ n = 0 then []
  else splitLoop m delim (str.begin + str.length) (n - 1) str.begin

/-- The cursor after `while (start != end && hiw_string_isspace(*start)) start++`. -/
def skipLeft (m : Buf) : ℕ → ℕ → ℕ
  | start, 0 => start
  | start, left + 1 => if isspace (m start) then skipLeft m (start + 1) left else start

/-- The cursor `end` after `while (end != start && hiw_string_isspace(*--end))`, from
`start + left`. -/
def skipRight (m : Buf) (start : ℕ) : ℕ → ℕ
  | 0 => start
  | left + 1 => if isspace (m (start + left)) then skipRight m start left else start + left

/-- `hiw_string_rtrim` -/
def rtrim (m : Buf) (str : HiwString) : HiwString :=
  if str.length = 0 then empty
  else
    let stop := skipRight m str.begin str.length
    if isspace (m stop) then empty else ⟨str.begin, stop - str.begin + 1⟩

/-- `hiw_string_trim` -/
def trim (m : Buf) (str : HiwString) : HiwString :=
  if str.length = 0 then empty
  else
    let start := skipLeft m str.begin str.length
    let stop := skipRight m start (str.begin + str.length - start)
    if isspace (m stop) then empty else ⟨start, stop - start + 1⟩

variable {m m' : Buf} {s line : HiwString} {d : UInt8}

@[simp] theorem reads_empty : empty.reads m = [] := rfl

@[simp] theorem length_reads : (s.reads m).length = s.length := Buf.length_bytes

/-! ### Comparison -/

theorem cmpLoop_eq {s₁ s₂ : Bytes} (h : s₁.length = s₂.length) :
    cmpLoop s₁ s₂ = decide (s₁ = s₂) := by
  induction s₁ generalizing s₂ with
  | nil => obtain rfl := List.length_eq_zero_iff.1 h.symm; simp [cmpLoop]
  | cons c₁ s₁ ih =>
    obtain ⟨c₂, s₂, rfl⟩ := List.exists_cons_of_length_eq_add_one h.symm
    by_cases hc : c₁ = c₂
    · simp [cmpLoop, hc, ih (by simpa using h)]
    · simp [cmpLoop, hc]

theorem cmp_eq (s₁ s₂ : Bytes) : cmp s₁ s₂ = decide (s₁ = s₂) := by
  unfold cmp
  split_ifs with h
  · exact (decide_eq_false fun heq => h (congrArg _ heq)).symm
  · exact cmpLoop_eq (not_not.1 h)

theorem cmpc_eq (s₁ : Bytes) (c : String) : cmpc s₁ c = decide (s₁ = ascii c) := by
  unfold cmpc
  split_ifs with h
  · exact (decide_eq_false fun heq => h (congrArg _ heq)).symm
  · exact cmpLoop_eq (not_not.1 h)

/-! ### Reading lines and splitting -/

/-- Where the scan stops: at the first delimiter, or behind the last byte. -/
theorem seek_spec (m : Buf) (d : UInt8) (c left : ℕ) :
    ∃ k ≤ left, seek m d c left = c + k ∧ d ∉ m.bytes c k ∧ (k < left → m (c + k) = d) := by
  induction left generalizing c with
  | zero => exact ⟨0, le_rfl, rfl, by simp, fun h => absurd h (lt_irrefl 0)⟩
  | succ left ih =>
    by_cases hd : m c = d
    · exact ⟨0, by omega, by simp [seek, hd], by simp, fun _ => by simpa using hd⟩
    · obtain ⟨k, hk, he, hn, hs⟩ := ih (c + 1)
      refine ⟨k + 1, by omega, by simp [seek, hd, he]; omega, ?_, fun h => ?_⟩
      · simpa [Buf.bytes_succ, hn] using Ne.symm hd
      · rw [← hs (by omega)]; congr 1; omega

theorem readline_eq_none : readline m s = none ↔ LF ∉ s.reads m := by
  obtain ⟨k, hk, he, hn, hs⟩ := seek_spec m LF s.begin s.length
  simp only [readline, he, reads]
  by_cases h0 : s.length = 0
  · simp [h0]
  by_cases hkl : k = s.length
  · simp [h0, hkl, hkl ▸ hn]
  · have hmem : LF ∈ m.bytes s.begin s.length :=
      Buf.mem_bytes.2 ⟨s.begin + k, by omega, by omega, hs (by omega)⟩
    simp [h0, hkl, hmem]

/-- A line found starts at the start of the string, has no line feed, and is followed by one. -/
theorem readline_eq_some (h : readline m s = some line) :
    line.begin = s.begin ∧ line.length < s.length ∧ LF ∉ line.reads m ∧
      m (s.begin + line.length) = LF ∧
      s.reads m = line.reads m ++
        LF :: m.bytes (s.begin + line.length + 1) (s.length - (line.length + 1)) := by
  obtain ⟨k, hk, he, hn, hs⟩ := seek_spec m LF s.begin s.length
  simp only [readline, he] at h
  split_ifs at h with h0 hkl
  obtain rfl := Option.some.inj h
  have hlt : k < s.length := by omega
  simp only [reads, Nat.add_sub_cancel_left]
  refine ⟨trivial, hlt, hn, hs hlt, ?_⟩
  rw [Buf.bytes_split hlt, hs hlt]

theorem readline_of_reads {l rest : Bytes} (h : s.reads m = l ++ LF :: rest) (hl : LF ∉ l) :
    readline m s = some ⟨s.begin, l.length⟩ := by
  cases hline : readline m s with
  | none =>
    have hmem : LF ∈ s.reads m := h ▸ List.mem_append_right l List.mem_cons_self
    exact absurd hmem (readline_eq_none.1 hline)
  | some line =>
    obtain ⟨hb, -, hn, -, heq⟩ := readline_eq_some hline
    have hfields := congrArg (fields LF 1) (heq.symm.trans h)
    rw [fields_append hn, fields_append hl] at hfields
    have hlen : line.length = l.length := by
      rw [← (List.cons.inj hfields).1, length_reads]
    rw [← hb, ← hlen]

theorem map_reads_splitLoop {num start stop : ℕ} (h : start ≤ stop) :
    (splitLoop m d stop num start).map (reads m) =
      fields d num (m.bytes start (stop - start)) := by
  induction num generalizing start with
  | zero => rfl
  | succ num ih =>
    obtain ⟨k, hk, he, hn, hs⟩ := seek_spec m d start (stop - start)
    simp only [splitLoop, he]
    split_ifs with hstop
    · have hk' : stop - start = k := by omega
      rw [hk', fields_of_not_mem hn]
      simp [reads]
    · have hlt : k < stop - start := by omega
      have hsplit : m.bytes start (stop - start) =
          m.bytes start k ++ d :: m.bytes (start + k + 1) (stop - (start + k + 1)) := by
        rw [Buf.bytes_split hlt, hs hlt,
          show stop - start - (k + 1) = stop - (start + k + 1) by omega]
      rw [hsplit, fields_append hn, List.map_cons, ih (by omega)]
      simp [reads]

/-- `hiw_string_split` cuts a non-empty string at its first `n - 1` delimiters. -/
theorem map_reads_split (h : s.length ≠ 0) {n : ℕ} (hn : n ≠ 0) :
    (split m s d n).map (reads m) = fields d (n - 1) (s.reads m) := by
  rw [split, if_neg (by tauto), map_reads_splitLoop (by omega), Nat.add_sub_cancel_left, reads]

theorem bounds_splitLoop {num start stop : ℕ} (h : start ≤ stop) :
    ∀ v ∈ splitLoop m d stop num start, start ≤ v.begin ∧ v.begin + v.length ≤ stop := by
  induction num generalizing start with
  | zero => simp [splitLoop]; omega
  | succ num ih =>
    obtain ⟨k, hk, he, -, -⟩ := seek_spec m d start (stop - start)
    simp only [splitLoop, he]
    split_ifs with hstop
    · simp; omega
    · intro v hv
      rcases List.mem_cons.1 hv with rfl | hv
      · exact ⟨le_rfl, by simp; omega⟩
      · have hle : start + k + 1 ≤ stop := by omega
        have := ih hle v hv
        omega

theorem bounds_split {n : ℕ} {v : HiwString} (hv : v ∈ split m s d n) :
    s.begin ≤ v.begin ∧ v.begin + v.length ≤ s.begin + s.length := by
  unfold split at hv
  split_ifs at hv with h
  · cases hv
  · exact bounds_splitLoop (by omega) v hv

theorem split_two_eq {n v : HiwString} (h : split m s d 2 = [n, v]) :
    n.begin = s.begin ∧ m (n.begin + n.length) = d ∧ d ∉ n.reads m ∧
      v.begin + v.length = s.begin + s.length := by
  obtain ⟨k, hk, he, hn, hs⟩ := seek_spec m d s.begin s.length
  by_cases h0 : s.length = 0
  · simp [split, h0] at h
  rw [split, if_neg (by omega)] at h
  simp only [splitLoop, Nat.add_sub_cancel_left, he] at h
  split_ifs at h with hstop
  · simp at h
  simp only [List.cons.injEq, and_true] at h
  obtain ⟨rfl, rfl⟩ := h
  exact ⟨rfl, by simpa using hs (by omega), by simpa [reads] using hn, by simp only; omega⟩

/-! ### Trimming -/

theorem skipLeft_spec (m : Buf) (start left : ℕ) :
    ∃ k ≤ left, skipLeft m start left = start + k ∧ (m.bytes start k).all isspace = true ∧
      (k < left → isspace (m (start + k)) = false) := by
  induction left generalizing start with
  | zero => exact ⟨0, le_rfl, rfl, by simp, fun h => absurd h (lt_irrefl 0)⟩
  | succ left ih =>
    cases hc : isspace (m start)
    · exact ⟨0, by omega, by simp [skipLeft, hc], by simp, fun _ => by simpa using hc⟩
    · obtain ⟨k, hk, he, hn, hs⟩ := ih (start + 1)
      refine ⟨k + 1, by omega, by simp [skipLeft, hc, he]; omega, ?_, fun h => ?_⟩
      · simpa [Buf.bytes_succ, hc] using hn
      · rw [← hs (by omega)]; congr 2; omega

/-- Where the backward scan stops: at the last byte that is not whitespace, or at `start`. -/
theorem skipRight_spec (m : Buf) (start left : ℕ) :
    (∃ k < left, skipRight m start left = start + k ∧ isspace (m (start + k)) = false ∧
      (m.bytes start left).rdropWhile isspace = m.bytes start (k + 1)) ∨
    (skipRight m start left = start ∧ (m.bytes start left).all isspace = true) := by
  induction left with
  | zero => exact .inr ⟨rfl, rfl⟩
  | succ left ih =>
    cases hc : isspace (m (start + left))
    · refine .inl ⟨left, by omega, by simp [skipRight, hc], hc, ?_⟩
      rw [Buf.bytes_concat, List.rdropWhile_concat_neg _ _ _ (by simp [hc])]
    · rw [Buf.bytes_concat, List.rdropWhile_concat_pos _ _ _ hc]
      simp only [skipRight, hc, ↓reduceIte]
      rcases ih with ⟨k, hk, he, hs, hb⟩ | ⟨he, hall⟩
      · exact .inl ⟨k, by omega, he, hs, hb⟩
      · exact .inr ⟨he, by simp [hall, hc]⟩

theorem reads_rtrim : (rtrim m s).reads m = (s.reads m).rdropWhile isspace := by
  unfold rtrim
  split_ifs with h0
  · rw [reads_empty, reads, h0]; rfl
  · rcases skipRight_spec m s.begin s.length with ⟨k, hk, he, hs, hb⟩ | ⟨he, hall⟩
    · simp only [he, hs, Bool.false_eq_true, ↓reduceIte, Nat.add_sub_cancel_left]
      exact hb.symm
    · have hsp : isspace (m s.begin) = true :=
        List.all_eq_true.1 hall _ (Buf.mem_bytes.2 ⟨s.begin, le_rfl, by omega, rfl⟩)
      simp only [he, hsp, ↓reduceIte, reads_empty]
      exact (List.rdropWhile_eq_nil_iff.2 (List.all_eq_true.1 hall)).symm

/-- `hiw_string_trim` removes the whitespace at both ends; for a string of whitespace only, the
byte behind the string decides. -/
theorem reads_trim :
    (trim m s).reads m = trimWith isspace (m (s.begin + s.length)) (s.reads m) := by
  unfold trim
  split_ifs with h0
  · rw [reads_empty, reads, h0]; rfl
  obtain ⟨k, hk, he, hall, hs⟩ := skipLeft_spec m s.begin s.length
  simp only [he]
  rcases Nat.lt_or_eq_of_le hk with hlt | rfl
  · -- some byte is not whitespace, so the backward scan stops inside the view
    have hb : s.reads m = m.bytes s.begin k ++ m.bytes (s.begin + k) (s.length - k) := by
      rw [← Buf.bytes_add, Nat.add_sub_cancel' hk, reads]
    have hhead : m.bytes (s.begin + k) (s.length - k) =
        m (s.begin + k) :: m.bytes (s.begin + k + 1) (s.length - k - 1) := by
      rw [show s.length - k = (s.length - k - 1) + 1 by omega, Buf.bytes_succ]; simp
    have hdrop : (s.reads m).dropWhile isspace = m.bytes (s.begin + k) (s.length - k) := by
      rw [hb, List.dropWhile_append_of_pos (List.all_eq_true.1 hall), hhead,
        List.dropWhile_cons_of_neg (by simp [hs hlt])]
    have hex : ∃ x ∈ s.reads m, isspace x = false :=
      ⟨_, Buf.mem_bytes.2 ⟨s.begin + k, by omega, by omega, rfl⟩, hs hlt⟩
    rw [trimWith_of_exists hex, hdrop, Nat.add_sub_add_left]
    rcases skipRight_spec m (s.begin + k) (s.length - k) with ⟨j, hj, hje, hjs, hjb⟩ | ⟨-, hall'⟩
    · simp only [hje, hjs, Bool.false_eq_true, ↓reduceIte, hjb, reads, Nat.add_sub_cancel_left]
    · rw [hhead] at hall'
      simp [hs hlt] at hall'
  · have hne : s.reads m ≠ [] := by
      intro h; exact h0 (by simpa using congrArg List.length h)
    have hall' : (s.reads m).all isspace = true := hall
    simp only [Nat.sub_self, skipRight, trimWith, hne, hall', ↓reduceIte]
    cases hsp : isspace (m (s.begin + s.length))
    · simp [reads, Buf.bytes_succ]
    · rfl

theorem skipRight_bounds (m : Buf) (start left : ℕ) :
    start ≤ skipRight m start left ∧ skipRight m start left ≤ start + (left - 1) := by
  induction left with
  | zero => simp [skipRight]
  | succ left ih => simp only [skipRight]; split_ifs <;> omega

theorem rtrim_le : (rtrim m s).begin + (rtrim m s).length ≤ s.begin + s.length := by
  have := skipRight_bounds m s.begin s.length
  unfold rtrim empty
  dsimp only
  split_ifs <;> simp only <;> omega

/-- A trimmed view reaches at most one byte behind the view. -/
theorem trim_le : (trim m s).begin + (trim m s).length ≤ s.begin + s.length + 1 := by
  obtain ⟨k, hk, he, -, -⟩ := skipLeft_spec m s.begin s.length
  have := skipRight_bounds m (s.begin + k) (s.begin + s.length - (s.begin + k))
  simp only [trim, empty, he]
  split_ifs <;> simp only <;> omega

theorem reads_agree {b : ℕ} (h : Buf.AgreeBelow b m m') (hs : s.begin + s.length ≤ b) :
    s.reads m' = s.reads m := h.bytes hs

end HiwString

end Highway
