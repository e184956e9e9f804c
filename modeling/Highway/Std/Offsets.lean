import Highway.Std.String

/-!
# The bytes a string function looks at

For every function of `Highway.Std.String` that walks a block of memory, the offsets of the bytes
it reads, in order: the same walk, with the offset recorded where the source dereferences its
cursor.  The results depend on these bytes only (the lemmas `_agreeOn`), and the lemmas `_lt` say
how far a function looks.  All of them stay inside of the view that they are given, but
`hiw_string_trim` looks one byte further when the view is nothing but whitespace.
-/

namespace Highway

/-- The two blocks have the same bytes at the given offsets. -/
def Buf.AgreeOn (l : List ℕ) (m m' : Buf) : Prop := ∀ i ∈ l, m i = m' i

namespace Buf.AgreeOn

variable {l l' : List ℕ} {m m' : Buf} {i : ℕ}

theorem append : AgreeOn (l ++ l') m m' ↔ AgreeOn l m m' ∧ AgreeOn l' m m' :=
  List.forall_mem_append

theorem cons : AgreeOn (i :: l) m m' ↔ m i = m' i ∧ AgreeOn l m m' := List.forall_mem_cons

theorem write (h : AgreeOn l m m') (o : ℕ) (bs : Bytes) :
    AgreeOn l (m.write o bs) (m'.write o bs) := by
  intro i hi
  simp only [Buf.write]
  split_ifs
  · rfl
  · exact h i hi

end Buf.AgreeOn

namespace HiwString

/-- The offsets of a view. -/
def offsets (s : HiwString) : List ℕ := List.range' s.begin s.length

/-- The bytes that `seek` looks at. -/
def seekOffsets (m : Buf) (delim : UInt8) : ℕ → ℕ → List ℕ
  | _, 0 => []
  | c, left + 1 => c :: if m c = delim then [] else seekOffsets m delim (c + 1) left

/-- The bytes that `hiw_string_readline` looks at. -/
def readlineOffsets (m : Buf) (str : HiwString) : List ℕ := seekOffsets m LF str.begin str.length

/-- The bytes that the loop of `hiw_string_split` looks at. -/
def splitLoopOffsets (m : Buf) (delim : UInt8) (stop : ℕ) : ℕ → ℕ → List ℕ
  | 0, _ => []
  | num + 1, start =>
    let splitEnd := seek m delim start (stop - start)
    seekOffsets m delim start (stop - start) ++
      if splitEnd = stop then [] else splitLoopOffsets m delim stop num (splitEnd + 1)

/-- The bytes that `hiw_string_split` looks at. -/
def splitOffsets (m : Buf) (str : HiwString) (delim : UInt8) (n : ℕ) : List ℕ :=
  if str.length = 0 ∨ n = 0 then []
  else splitLoopOffsets m delim (str.begin + str.length) (n - 1) str.begin

/-- The bytes that `skipLeft` looks at. -/
def skipLeftOffsets (m : Buf) : ℕ → ℕ → List ℕ
  | _, 0 => []
  | start, left + 1 =>
    start :: if isspace (m start) then skipLeftOffsets m (start + 1) left else []

/-- The bytes that `skipRight` looks at. -/
def skipRightOffsets (m : Buf) (start : ℕ) : ℕ → List ℕ
  | 0 => []
  | left + 1 => (start + left) :: if isspace (m (start + left)) then skipRightOffsets m start left
    else []

/-- The bytes that `hiw_string_rtrim` looks at. -/
def rtrimOffsets (m : Buf) (str : HiwString) : List ℕ :=
  if str.length = 0 then []
  else skipRightOffsets m str.begin str.length ++ [skipRight m str.begin str.length]

/-- The bytes that `hiw_string_trim` looks at. -/
def trimOffsets (m : Buf) (str : HiwString) : List ℕ :=
  if str.length = 0 then []
  else
    let start := skipLeft m str.begin str.length
    let left := str.begin + str.length - start
    skipLeftOffsets m str.begin str.length ++ skipRightOffsets m start left ++
      [skipRight m start left]

variable {m m' : Buf} {s : HiwString} {d : UInt8} {i : ℕ}

/-! ### How far they look -/

theorem lt_of_mem_offsets (h : i ∈ s.offsets) : i < s.begin + s.length := by
  obtain ⟨k, hk, rfl⟩ := List.mem_range'.1 h
  omega

theorem seekOffsets_lt {c left : ℕ} (h : i ∈ seekOffsets m d c left) : i < c + left := by
  induction left generalizing c with
  | zero => cases h
  | succ left ih =>
    rcases List.mem_cons.1 h with rfl | h
    · omega
    · split_ifs at h
      · cases h
      · have := ih h
        omega

theorem readlineOffsets_lt (h : i ∈ readlineOffsets m s) : i < s.begin + s.length :=
  seekOffsets_lt h

theorem splitLoopOffsets_lt {num start stop : ℕ} (hle : start ≤ stop)
    (h : i ∈ splitLoopOffsets m d stop num start) : i < stop := by
  induction num generalizing start with
  | zero => cases h
  | succ num ih =>
    obtain ⟨k, hk, he, -, -⟩ := seek_spec m d start (stop - start)
    simp only [splitLoopOffsets, he] at h
    rcases List.mem_append.1 h with h | h
    · have := seekOffsets_lt h
      omega
    · split_ifs at h with hstop
      · cases h
      · exact ih (by omega) h

theorem splitOffsets_lt {n : ℕ} (h : i ∈ splitOffsets m s d n) : i < s.begin + s.length := by
  unfold splitOffsets at h
  split_ifs at h
  · cases h
  · exact splitLoopOffsets_lt (by omega) h

theorem skipLeftOffsets_lt {start left : ℕ} (h : i ∈ skipLeftOffsets m start left) :
    i < start + left := by
  induction left generalizing start with
  | zero => cases h
  | succ left ih =>
    rcases List.mem_cons.1 h with rfl | h
    · omega
    · split_ifs at h
      · have := ih h
        omega
      · cases h

theorem skipRightOffsets_lt {start left : ℕ} (h : i ∈ skipRightOffsets m start left) :
    i < start + left := by
  induction left with
  | zero => cases h
  | succ left ih =>
    rcases List.mem_cons.1 h with rfl | h
    · omega
    · split_ifs at h
      · have := ih h
        omega
      · cases h

theorem rtrimOffsets_lt (h : i ∈ rtrimOffsets m s) : i < s.begin + s.length := by
  unfold rtrimOffsets at h
  split_ifs at h with h0
  · cases h
  rcases List.mem_append.1 h with h | h
  · exact skipRightOffsets_lt h
  · have := skipRight_bounds m s.begin s.length
    rw [List.mem_singleton.1 h]
    omega

/-- A trim looks at most one byte behind the view. -/
theorem trimOffsets_le (h : i ∈ trimOffsets m s) : i ≤ s.begin + s.length := by
  unfold trimOffsets at h
  split_ifs at h with h0
  · cases h
  obtain ⟨k, hk, he, -, -⟩ := skipLeft_spec m s.begin s.length
  simp only [he] at h
  rcases List.mem_append.1 h with h | h
  · rcases List.mem_append.1 h with h | h
    · exact (skipLeftOffsets_lt h).le
    · have := skipRightOffsets_lt h
      omega
  · have := skipRight_bounds m (s.begin + k) (s.begin + s.length - (s.begin + k))
    rw [List.mem_singleton.1 h]
    omega

/-! ### The results depend on these bytes only -/

theorem reads_agreeOn (h : Buf.AgreeOn s.offsets m m') : s.reads m' = s.reads m := by
  refine (Buf.bytes_congr fun i hi hi' => h i ?_).symm
  exact List.mem_range'.2 ⟨i - s.begin, by omega, by omega⟩

theorem seek_agreeOn {c left : ℕ} (h : Buf.AgreeOn (seekOffsets m d c left) m m') :
    seek m' d c left = seek m d c left := by
  induction left generalizing c with
  | zero => rfl
  | succ left ih =>
    obtain ⟨hc, hrest⟩ := Buf.AgreeOn.cons.1 h
    rw [seek, seek, ← hc]
    split_ifs with hd
    · rfl
    · rw [if_neg hd] at hrest
      exact ih hrest

theorem readline_agreeOn (h : Buf.AgreeOn (readlineOffsets m s) m m') :
    readline m' s = readline m s := by
  simp only [readline, seek_agreeOn h]

theorem splitLoop_agreeOn {num start stop : ℕ}
    (h : Buf.AgreeOn (splitLoopOffsets m d stop num start) m m') :
    splitLoop m' d stop num start = splitLoop m d stop num start := by
  induction num generalizing start with
  | zero => rfl
  | succ num ih =>
    obtain ⟨hseek, hrest⟩ := Buf.AgreeOn.append.1 h
    simp only [splitLoop, seek_agreeOn hseek]
    split_ifs with hstop
    · rfl
    · rw [if_neg hstop] at hrest
      rw [ih hrest]

theorem split_agreeOn {n : ℕ} (h : Buf.AgreeOn (splitOffsets m s d n) m m') :
    split m' s d n = split m s d n := by
  unfold split splitOffsets at *
  split_ifs at h ⊢
  · rfl
  · exact splitLoop_agreeOn h

theorem skipLeft_agreeOn {start left : ℕ} (h : Buf.AgreeOn (skipLeftOffsets m start left) m m') :
    skipLeft m' start left = skipLeft m start left := by
  induction left generalizing start with
  | zero => rfl
  | succ left ih =>
    obtain ⟨hstart, hrest⟩ := Buf.AgreeOn.cons.1 h
    rw [skipLeft, skipLeft, ← hstart]
    split_ifs with hc
    · rw [if_pos hc] at hrest
      exact ih hrest
    · rfl

theorem skipRight_agreeOn {start left : ℕ}
    (h : Buf.AgreeOn (skipRightOffsets m start left) m m') :
    skipRight m' start left = skipRight m start left := by
  induction left with
  | zero => rfl
  | succ left ih =>
    obtain ⟨hstop, hrest⟩ := Buf.AgreeOn.cons.1 h
    rw [skipRight, skipRight, ← hstop]
    split_ifs with hc
    · rw [if_pos hc] at hrest
      exact ih hrest
    · rfl

theorem rtrim_agreeOn (h : Buf.AgreeOn (rtrimOffsets m s) m m') : rtrim m' s = rtrim m s := by
  unfold rtrim rtrimOffsets at *
  split_ifs at h ⊢ with h0
  · rfl
  obtain ⟨hright, hstop⟩ := Buf.AgreeOn.append.1 h
  simp only [skipRight_agreeOn hright, ← hstop _ (List.mem_singleton_self _)]

theorem trim_agreeOn (h : Buf.AgreeOn (trimOffsets m s) m m') : trim m' s = trim m s := by
  unfold trim trimOffsets at *
  split_ifs at h ⊢ with h0
  · rfl
  obtain ⟨hskip, hstop⟩ := Buf.AgreeOn.append.1 h
  obtain ⟨hleft, hright⟩ := Buf.AgreeOn.append.1 hskip
  simp only [skipLeft_agreeOn hleft, skipRight_agreeOn hright,
    ← hstop _ (List.mem_singleton_self _)]

end HiwString

end Highway
