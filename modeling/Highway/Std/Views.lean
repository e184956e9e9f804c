import Highway.Std.String

/-!
# The views that the string functions return

`hiw_string_split`, `hiw_string_trim` and `hiw_string_suffix` return views into the string they are
given.

* `split_splits` : the parts that `hiw_string_split` writes to `dest` lie one behind the other, so
  that joining them with the delimiter gives back the string.
* `trims_iff` : `hiw_string_trim` returns the string without the whitespace at its ends, unless
  there is nothing else in the string: then it looks at the byte behind the string, and returns
  that byte if it is no whitespace.
* `isSuffix_iff` : `hiw_string_suffix` returns the part from the last delimiter on; a string
  without a delimiter comes back whole.
-/

namespace Highway

open Lib

namespace HiwString

/-- The loop of `hiw_string_split` from part `num` on, with at most `left` parts before the last
one. -/
def splitStore (m : Buf) (delim : UInt8) (stop : ℕ) :
    ℕ → ℕ → ℕ → (ℕ → HiwString) → ℕ × (ℕ → HiwString)
  | 0, num, start, dest => (num + 1, Function.update dest num ⟨start, stop - start⟩)
  | left + 1, num, start, dest =>
    let splitEnd := seek m delim start (stop - start)
    if splitEnd = stop then (num + 1, Function.update dest num ⟨start, stop - start⟩)
    else
      splitStore m delim stop left (num + 1) (splitEnd + 1)
        (Function.update dest num ⟨start, splitEnd - start⟩)

/-- `hiw_string_split` : the number of parts, and the array `dest` afterwards. -/
def splitInto (m : Buf) (str : HiwString) (delim : UInt8) (dest : ℕ → HiwString) (n : ℤ) :
    ℕ × (ℕ → HiwString) :=
  if str.length = 0 ∨ n ≤ 0 then (0, dest)
  else splitStore m delim (str.begin + str.length) (n - 1).toNat 0 str.begin dest

/-- The cursor `end` after `while (end != start && *--end != delim)`, from `start + left`. -/
def seekBack (m : Buf) (delim : UInt8) (start : ℕ) : ℕ → ℕ
  | 0 => start
  | left + 1 => if m (start + left) = delim then start + left else seekBack m delim start left

/-- `hiw_string_suffix` -/
def suffix (m : Buf) (str : HiwString) (delim : UInt8) : HiwString :=
  if str.length ≤ 1 then empty
  else
    let stop := seekBack m delim str.begin str.length
    if str.begin = stop ∧ m str.begin = delim then str
    else ⟨stop, str.begin + str.length - stop⟩

variable {m : Buf} {s : HiwString} {d : UInt8}

/-! ### Splitting -/

theorem splitStore_eq (m : Buf) (d : UInt8) (stop left num start : ℕ) (dest : ℕ → HiwString) :
    splitStore m d stop left num start dest =
      (num + (splitLoop m d stop left start).length, fun i =>
        if num ≤ i then (splitLoop m d stop left start)[i - num]?.getD (dest i) else dest i) := by
  have hlast : ∀ (num : ℕ) (v : HiwString) (dest : ℕ → HiwString),
      Function.update dest num v =
        fun i => if num ≤ i then [v][i - num]?.getD (dest i) else dest i := by
    intro num v dest
    funext i
    rcases Nat.lt_trichotomy i num with hi | rfl | hi
    · rw [Function.update_of_ne hi.ne, if_neg (by omega)]
    · simp
    · obtain ⟨k, hk⟩ : ∃ k, i - num = k + 1 := ⟨i - num - 1, by omega⟩
      rw [Function.update_of_ne hi.ne', if_pos hi.le, hk]
      rfl
  induction left generalizing num start dest with
  | zero => rw [splitStore, splitLoop, hlast, List.length_singleton]
  | succ left ih =>
    unfold splitStore splitLoop
    dsimp only
    split_ifs with hstop
    · rw [hlast, List.length_singleton]
    · rw [ih, List.length_cons, Nat.add_right_comm, Nat.add_assoc]
      congr 1
      funext i
      -- the part written now, or one of those that follow
      rcases Nat.lt_trichotomy i num with hi | rfl | hi
      · rw [if_neg (by omega), if_neg (by omega), Function.update_of_ne hi.ne]
      · rw [if_neg (by omega), Function.update_self]
        simp
      · obtain ⟨k, hk⟩ : ∃ k, i - num = k + 1 := ⟨i - num - 1, by omega⟩
        rw [if_pos (by omega), if_pos hi.le, hk, List.getElem?_cons_succ,
          Function.update_of_ne hi.ne', show i - (num + 1) = k by omega]

theorem splitInto_eq (m : Buf) (s : HiwString) (d : UInt8) (dest : ℕ → HiwString) (n : ℤ) :
    splitInto m s d dest n =
      ((split m s d n.toNat).length, fun i => (split m s d n.toNat)[i]?.getD (dest i)) := by
  unfold splitInto split
  split_ifs with h₁ h₂ h₂
  · rfl
  · omega
  · omega
  · rw [splitStore_eq, Nat.zero_add, show (n - 1).toNat = n.toNat - 1 by omega]
    simp

theorem map_splitInto (m : Buf) (s : HiwString) (d : UInt8) (dest : ℕ → HiwString) (n : ℤ) :
    (List.range (splitInto m s d dest n).1).map (splitInto m s d dest n).2 =
      split m s d n.toNat := by
  rw [splitInto_eq]
  refine List.ext_getElem (by simp) fun i _ hi => ?_
  simp [hi]

theorem map_reads_splitInto (m : Buf) (d : UInt8) (dest : ℕ → HiwString) (hs : s.length ≠ 0) {n : ℤ}
    (hn : 1 ≤ n) :
    (List.range (splitInto m s d dest n).1).map
        (fun i => ((splitInto m s d dest n).2 i).reads m) =
      fields d (n.toNat - 1) (s.reads m) := by
  rw [← map_reads_split hs (by omega), ← map_splitInto m s d dest n, List.map_map]
  rfl

/-- The views lie one behind the other from `b` to `e`, with one byte `d` between them. -/
def Adjacent (m : Buf) (d : UInt8) : ℕ → ℕ → List HiwString → Prop
  | _, _, [] => False
  | b, e, [v] => v.begin = b ∧ v.begin + v.length = e
  | b, e, v :: w :: vs =>
    v.begin = b ∧ m (v.begin + v.length) = d ∧ Adjacent m d (v.begin + v.length + 1) e (w :: vs)

theorem splitLoop_ne_nil (m : Buf) (d : UInt8) (stop left start : ℕ) :
    splitLoop m d stop left start ≠ [] := by
  cases left with
  | zero => exact List.cons_ne_nil _ _
  | succ left =>
    unfold splitLoop
    dsimp only
    split_ifs
    · exact List.cons_ne_nil _ _
    · exact List.cons_ne_nil _ _

theorem adjacent_splitLoop {stop left start : ℕ} (h : start ≤ stop) :
    Adjacent m d start stop (splitLoop m d stop left start) := by
  induction left generalizing start with
  | zero => exact ⟨rfl, by simp only; omega⟩
  | succ left ih =>
    obtain ⟨k, hk, he, -, hs⟩ := seek_spec m d start (stop - start)
    simp only [splitLoop, he]
    split_ifs with hstop
    · exact ⟨rfl, by simp only; omega⟩
    · have hrest := @ih (start + k + 1) (by omega)
      obtain ⟨w, ws, hws⟩ := List.exists_cons_of_ne_nil
        (splitLoop_ne_nil m d stop left (start + k + 1))
      rw [hws] at hrest ⊢
      have hlen : start + (start + k - start) = start + k := by omega
      refine ⟨rfl, ?_, ?_⟩
      · rw [hlen, hs (by omega)]
      · rw [hlen]
        exact hrest

/-- What `hiw_string_split` is to do with the string `s` and the array `dest`. -/
structure Splits (m : Buf) (s : HiwString) (d : UInt8) (n : ℤ) (dest : ℕ → HiwString) (num : ℕ)
    (dest' : ℕ → HiwString) : Prop where
  count : (num : ℤ) = min n (1 + (s.reads m).count d)
  /-- Nothing else is written. -/
  frame : ∀ i, num ≤ i → dest' i = dest i
  /-- The parts are adjacent views, in order. -/
  adjacent : Adjacent m d s.begin (s.begin + s.length) ((List.range num).map dest')
  joined : [d].intercalate ((List.range num).map fun i => (dest' i).reads m) = s.reads m
  inner : ∀ i, i + 1 < num → d ∉ (dest' i).reads m
  last : d ∈ (dest' (num - 1)).reads m → (num : ℤ) = n

/-- **Splitting is undone by joining.** -/
theorem split_splits (m : Buf) (d : UInt8) (dest : ℕ → HiwString) (hs : s.length ≠ 0) {n : ℤ}
    (hn : 1 ≤ n) :
    Splits m s d n dest (splitInto m s d dest n).1 (splitInto m s d dest n).2 := by
  have hparts := map_splitInto m s d dest n
  have hread := map_reads_splitInto m d dest hs hn
  have hframe : ∀ i, (splitInto m s d dest n).1 ≤ i → (splitInto m s d dest n).2 i = dest i := by
    intro i hi
    rw [splitInto_eq] at hi ⊢
    simp only
    rw [List.getElem?_eq_none hi]
    rfl
  generalize splitInto m s d dest n = result at *
  obtain ⟨num, dest'⟩ := result
  dsimp only at *
  have hlen : (fields d (n.toNat - 1) (s.reads m)).length = num := by
    rw [← hread, List.length_map, List.length_range]
  have hnum := hlen
  rw [length_fields] at hnum
  have hget : ∀ i < num, (fields d (n.toNat - 1) (s.reads m))[i]? = some ((dest' i).reads m) := by
    intro i hi
    rw [← hread, List.getElem?_map, List.getElem?_range hi]
    rfl
  refine ⟨by omega, hframe, ?_, ?_, fun i hi => ?_, fun hmem => ?_⟩
  · rw [hparts, split, if_neg (by omega)]
    exact adjacent_splitLoop (by omega)
  · rw [hread, intercalate_fields]
  · -- a part with another one behind it
    have hmem : (dest' i).reads m ∈ (fields d (n.toNat - 1) (s.reads m)).dropLast := by
      refine List.mem_of_getElem? (i := i) ?_
      rw [List.getElem?_dropLast, if_pos (by omega), hget i (by omega)]
    exact not_mem_of_mem_dropLast_fields hmem
  · have hlast := hget (num - 1) (by omega)
    rw [← hlen, ← List.getLast?_eq_getElem?, hlen] at hlast
    have hcut := length_fields_of_mem_last hlast hmem
    omega

/-- A string of three delimiters, for an array of two parts. -/
theorem split_splits_two : Splits (fun _ => 32) ⟨0, 3⟩ 32 2 (fun _ => empty)
    (splitInto (fun _ => 32) ⟨0, 3⟩ 32 (fun _ => empty) 2).1
    (splitInto (fun _ => 32) ⟨0, 3⟩ 32 (fun _ => empty) 2).2 :=
  split_splits (fun _ => 32) 32 (fun _ => empty) (by decide) (by decide)

/-! ### Trimming -/

/-- The bytes of `l` without the whitespace at its ends. -/
def stripped (l : Bytes) : Bytes := (l.dropWhile isspace).rdropWhile isspace

/-- `v` is the part of `s` without the whitespace at the ends of `s`. -/
structure IsStripped (m : Buf) (s v : HiwString) : Prop where
  bytes : v.reads m = stripped (s.reads m)
  inside : v.length = 0 ∨ s.begin ≤ v.begin ∧ v.begin + v.length ≤ s.begin + s.length

/-- What `hiw_string_trim` is to do: return this part, and find it from the bytes of `s` alone. -/
structure Trims (m : Buf) (s : HiwString) : Prop extends IsStripped m s (trim m s) where
  alone : ∀ m', s.reads m' = s.reads m → trim m' s = trim m s

theorem trim_of_length_eq_zero (h : s.length = 0) : trim m s = empty := by rw [trim, if_pos h]

theorem trim_of_exists (h : ∃ c ∈ s.reads m, isspace c = false) :
    trim m s = ⟨s.begin + ((s.reads m).takeWhile isspace).length, (stripped (s.reads m)).length⟩ ∧
      s.begin ≤ (trim m s).begin ∧
      (trim m s).begin + (trim m s).length ≤ s.begin + s.length := by
  have hread : (trim m s).reads m = stripped (s.reads m) := by
    rw [reads_trim, trimWith_of_exists h, stripped]
  have hlen : (trim m s).length = (stripped (s.reads m)).length := by rw [← hread, length_reads]
  obtain ⟨c, hc, hcs⟩ := h
  have h0 : s.length ≠ 0 := by
    intro h0
    simp [reads, h0] at hc
  obtain ⟨k, hk, he, hall, hs⟩ := skipLeft_spec m s.begin s.length
  have hlt : k < s.length := by
    refine lt_of_le_of_ne hk ?_
    rintro rfl
    rw [List.all_eq_true.1 hall c hc] at hcs
    cases hcs
  have htake : ((s.reads m).takeWhile isspace).length = k := by
    rw [reads, Buf.bytes_split hlt, List.takeWhile_append_of_pos (List.all_eq_true.1 hall),
      List.takeWhile_cons_of_neg (by simp [hs hlt]), List.append_nil, Buf.length_bytes]
  -- the first byte that is no whitespace also ends the way back
  have hbounds := skipRight_bounds m (s.begin + k) (s.begin + s.length - (s.begin + k))
  have hstop : isspace (m (skipRight m (s.begin + k) (s.begin + s.length - (s.begin + k)))) =
      false := by
    rcases skipRight_spec m (s.begin + k) (s.begin + s.length - (s.begin + k)) with
      ⟨j, -, hj, hjs, -⟩ | ⟨hj, -⟩
    · rw [hj, hjs]
    · rw [hj, hs hlt]
  have htrim : trim m s = ⟨s.begin + k,
      skipRight m (s.begin + k) (s.begin + s.length - (s.begin + k)) - (s.begin + k) + 1⟩ := by
    simp only [trim, if_neg h0, he, hstop, Bool.false_eq_true, if_false]
  refine ⟨?_, ?_, ?_⟩
  · rw [htake, ← hlen, htrim]
  · rw [htrim]
    exact Nat.le_add_right _ _
  · rw [htrim]
    simp only
    omega

theorem isStripped_of_exists (h : ∃ c ∈ s.reads m, isspace c = false) :
    IsStripped m s (trim m s) :=
  ⟨by rw [reads_trim, trimWith_of_exists h, stripped], .inr (trim_of_exists h).2⟩

theorem stripped_of_all {l : Bytes} (h : l.all isspace = true) : stripped l = [] := by
  rw [stripped, List.dropWhile_eq_nil_iff.2 (List.all_eq_true.1 h), List.rdropWhile_nil]

/-- For a string of whitespace, the byte behind it decides. -/
theorem length_trim_of_all (h0 : s.length ≠ 0) (h : (s.reads m).all isspace = true) :
    (trim m s).length = if isspace (m (s.begin + s.length)) then 0 else 1 := by
  have hne : s.reads m ≠ [] := by
    intro hnil
    exact h0 (by simpa using congrArg List.length hnil)
  have hread := congrArg List.length (reads_trim (m := m) (s := s))
  rw [length_reads, trimWith, if_neg hne, if_pos h] at hread
  rw [hread]
  split_ifs <;> rfl

theorem exists_or_all (l : Bytes) :
    (∃ c ∈ l, isspace c = false) ∨ l.all isspace = true := by
  cases h : l.all isspace
  · simpa [List.all_eq_false] using h
  · exact .inr rfl

theorem isStripped_trim_iff (m : Buf) (s : HiwString) :
    IsStripped m s (trim m s) ↔ s.length = 0 ∨ (∃ c ∈ s.reads m, isspace c = false) ∨
      isspace (m (s.begin + s.length)) = true := by
  rcases Nat.eq_zero_or_pos s.length with h0 | h0
  · refine iff_of_true ⟨?_, .inl ?_⟩ (.inl h0)
    · rw [trim_of_length_eq_zero h0, reads_empty, reads, h0]
      rfl
    · rw [trim_of_length_eq_zero h0]
      rfl
  rcases exists_or_all (s.reads m) with hex | hall
  · exact iff_of_true (isStripped_of_exists hex) (.inr (.inl hex))
  · -- nothing is left of the string, so the returned view is to be empty
    have hlen := length_trim_of_all (m := m) h0.ne' hall
    constructor
    · intro h
      by_contra hno
      have hread := congrArg List.length h.bytes
      rw [length_reads, hlen, if_neg (by tauto), stripped_of_all hall] at hread
      cases hread
    · rintro (h | ⟨c, hc, hcs⟩ | hnext)
      · omega
      · rw [List.all_eq_true.1 hall c hc] at hcs
        cases hcs
      · rw [if_pos hnext] at hlen
        refine ⟨?_, .inl hlen⟩
        rw [stripped_of_all hall, reads, hlen]
        rfl

/-- **When `hiw_string_trim` returns the inner part.**  Exactly if the string is empty, or has a
byte that is no whitespace. -/
theorem trims_iff (m : Buf) (s : HiwString) :
    Trims m s ↔ s.length = 0 ∨ ∃ c ∈ s.reads m, isspace c = false := by
  constructor
  · intro h
    rcases exists_or_all (s.reads m) with hex | hall
    · exact .inr hex
    refine .inl (not_not.1 fun h0 => ?_)
    -- the same string in front of a byte that is no whitespace
    have hsame : s.reads (m.write (s.begin + s.length) [0]) = s.reads m :=
      Buf.bytes_write_of_le (Nat.le_refl _)
    have hnext : m.write (s.begin + s.length) [0] (s.begin + s.length) = 0 := by simp [Buf.write]
    have hlen := length_trim_of_all h0 (hsame ▸ hall)
    rw [h.alone _ hsame, hnext, if_neg (by decide)] at hlen
    have hread := congrArg List.length h.bytes
    rw [length_reads, hlen, stripped_of_all hall] at hread
    cases hread
  · rintro (h0 | hex)
    · refine ⟨(isStripped_trim_iff m s).2 (.inl h0), fun m' _ => ?_⟩
      rw [trim_of_length_eq_zero h0, trim_of_length_eq_zero h0]
    · refine ⟨isStripped_of_exists hex, fun m' hsame => ?_⟩
      rw [(trim_of_exists hex).1, (trim_of_exists (hsame ▸ hex)).1, hsame]

/-- A header name of one blank, in front of the colon. -/
theorem not_trims : ¬ ∀ (m : Buf) (s : HiwString), Trims m s := by
  intro hall
  have hbytes := (hall (fun i => if i = 0 then 32 else 58) ⟨0, 1⟩).bytes
  exact absurd hbytes (by decide)

/-! ### Suffixes -/

/-- Where the backward scan stops: at the last delimiter, or at `start`. -/
theorem seekBack_spec (m : Buf) (d : UInt8) (start left : ℕ) :
    (∃ k < left, seekBack m d start left = start + k ∧ m (start + k) = d ∧
      d ∉ m.bytes (start + k + 1) (left - (k + 1))) ∨
    (seekBack m d start left = start ∧ d ∉ m.bytes start left) := by
  induction left with
  | zero => exact .inr ⟨rfl, List.not_mem_nil⟩
  | succ left ih =>
    by_cases hd : m (start + left) = d
    · refine .inl ⟨left, Nat.lt_succ_self left, by rw [seekBack, if_pos hd], hd, ?_⟩
      rw [Nat.sub_self]
      exact List.not_mem_nil
    · rw [seekBack, if_neg hd]
      rcases ih with ⟨k, hk, he, hs, hn⟩ | ⟨he, hn⟩
      · refine .inl ⟨k, Nat.lt_succ_of_lt hk, he, hs, ?_⟩
        have hlast : start + k + 1 + (left - (k + 1)) = start + left := by omega
        rw [show left + 1 - (k + 1) = left - (k + 1) + 1 by omega, Buf.bytes_concat, hlast]
        simpa [hn] using Ne.symm hd
      · refine .inr ⟨he, ?_⟩
        rw [Buf.bytes_concat]
        simpa [hn] using Ne.symm hd

/-- What `hiw_string_suffix` is to return: the part from the last delimiter to the end, or the
empty string. -/
def IsSuffix (m : Buf) (s : HiwString) (d : UInt8) (v : HiwString) : Prop :=
  if 2 ≤ s.length ∧ d ∈ s.reads m then
    ∃ k < s.length, v = ⟨s.begin + k, s.length - k⟩ ∧ m (s.begin + k) = d ∧
      d ∉ m.bytes (s.begin + k + 1) (s.length - (k + 1))
  else v.length = 0

theorem isSuffix_of_mem (h : 2 ≤ s.length) (hd : d ∈ s.reads m) :
    IsSuffix m s d (suffix m s d) := by
  rw [IsSuffix, if_pos ⟨h, hd⟩, suffix, if_neg (by omega)]
  rcases seekBack_spec m d s.begin s.length with ⟨k, hk, he, hs, hn⟩ | ⟨-, hn⟩
  · refine ⟨k, hk, ?_, hs, hn⟩
    simp only [he]
    split_ifs with hfirst
    · obtain rfl : k = 0 := by omega
      rfl
    · rw [Nat.add_sub_add_left]
  · exact absurd hd hn

theorem suffix_of_not_mem (h : 2 ≤ s.length) (hd : d ∉ s.reads m) : suffix m s d = s := by
  rw [suffix, if_neg (by omega)]
  rcases seekBack_spec m d s.begin s.length with ⟨k, hk, -, hs, -⟩ | ⟨he, -⟩
  · exact absurd (Buf.mem_bytes.2 ⟨s.begin + k, by omega, by omega, hs⟩) hd
  · simp only [he, Nat.add_sub_cancel_left]
    split_ifs <;> rfl

/-- **When `hiw_string_suffix` returns the suffix.**  Exactly if the string has less than two bytes,
or contains the delimiter. -/
theorem isSuffix_iff (m : Buf) (s : HiwString) (d : UInt8) :
    IsSuffix m s d (suffix m s d) ↔ s.length < 2 ∨ d ∈ s.reads m := by
  rcases Nat.lt_or_ge s.length 2 with h | h
  · refine iff_of_true ?_ (.inl h)
    rw [IsSuffix, if_neg (by omega), suffix, if_pos (by omega)]
    rfl
  by_cases hd : d ∈ s.reads m
  · exact iff_of_true (isSuffix_of_mem h hd) (.inr hd)
  · refine iff_of_false ?_ (not_or.2 ⟨h.not_gt, hd⟩)
    rw [IsSuffix, if_neg (by simp [hd]), suffix_of_not_mem h hd]
    omega

/-- The name of a file that has no suffix. -/
theorem not_isSuffix : ¬ ∀ (m : Buf) (s : HiwString) (d : UInt8),
    IsSuffix m s d (suffix m s d) := by
  intro hall
  -- "ab", cut at '.'
  have hsuffix := hall (fun i => if i = 0 then 97 else 98) ⟨0, 2⟩ 46
  rw [IsSuffix, if_neg (by decide)] at hsuffix
  exact absurd hsuffix (by decide)

end HiwString

end Highway
