import Highway.Std.Views

/-!
# Traversal of a directory tree

`hiw_file_traverse` calls a function for every file below a directory.  It keeps the path of what it
looks at in one buffer, which all levels of the recursion share: a level knows where its own path
ends, and writes what follows behind it.

The file system is a parameter: `opendir` takes a path and returns what `readdir` returns one after
the other, unless it fails.  A buffer is known by its contents, from the start of the buffer on; the
contents at the start of the traversal are arbitrary.
-/

namespace Highway

/-- Strings as C has them, without the terminator. -/
abbrev CString := { b : Bytes // 0 ∉ b }

/-- `HIW_MAX_PATH` -/
def hiwMaxPath : ℕ := 1024

/-- `hiw_file_traverse_error` -/
inductive HiwFileTraverseError where
  | success
  | notFound
  | pathLen
  | aborted
  deriving DecidableEq

/-- `hiw_file` -/
structure HiwFile where
  path : HiwString
  filename : HiwString
  suffix : HiwString

/-- `d_type` -/
inductive DType where
  | unknown
  | fifo
  | chr
  | dir
  | blk
  | reg
  | lnk
  | sock
  deriving DecidableEq

/-- `struct dirent` -/
structure Dirent where
  dName : CString
  dType : DType
  deriving DecidableEq

/-- `hiw_std_copy` of `src` to `dest`, which may be `NULL` : the pointer that is returned, and the
buffer afterwards. -/
def copyInto (m : Buf) (src : Bytes) (dest : Option ℕ) (capacity : ℕ) : Option ℕ × Buf :=
  if src = [] then (dest, m)
  else
    match dest with
    | none => (none, m)
    | some dest =>
      if capacity = 0 then (none, m)
      else (some (dest + min src.length capacity), m.write dest (src.take capacity))

namespace HiwFile

/-- `hiw_file_ignored` -/
def ignored (filename : Bytes) : Bool :=
  let len := filename.length
  if 2 < len then false
  else if 1 < len then filename.getD 0 0 = 46 && filename.getD 1 0 = 46
  else if len = 1 then filename.getD 0 0 = 46
  else false

/-- A call of the callback: what it is given, and what it answers. -/
structure Call where
  /-- The buffer `path` at the time of the call. -/
  buffer : Buf
  file : HiwFile
  answer : Bool

/-- The state of a traversal. -/
structure Traversal (σ : Type*) where
  /-- The buffer `path`. -/
  path : Buf
  userdata : σ
  calls : List Call

variable {σ : Type*}

/-- `hiw_std_copy(src, n, dest, HIW_MAX_PATH - (int)(dest - path))` -/
def Traversal.append (s : Traversal σ) (src : Bytes) (dest : Option ℕ) : Option ℕ × Traversal σ :=
  let (dest, path) := copyInto s.path src dest (hiwMaxPath - dest.getD 0)
  (dest, { s with path })

/-- The string at the start of the buffer, up to its terminator. -/
def cString (m : Buf) : Bytes := (m.bytes 0 hiwMaxPath).takeWhile (· ≠ 0)

/-- How both functions start: they put `"/."` behind the path that ends at `path0`, and open this
directory. -/
def openDir (opendir : Bytes → Option (List Dirent)) (path0 : Option ℕ) (s : Traversal σ) :
    Except HiwFileTraverseError (ℕ × List Dirent) × Traversal σ :=
  let (path1, s) := s.append [47] path0
  let (path2, s) := s.append [46, 0] path1
  match path1, path2 with
  | some path1, some path2 =>
    if path2 - path1 ≠ 2 then (.error .pathLen, s)
    else
      match opendir (cString s.path) with
      | none => (.error .notFound, s)
      | some entries => (.ok (path1, entries), s)
  -- the distance to `NULL` is no 2 either
  | _, _ => (.error .pathLen, s)

/-- The name of an entry, and a terminator if there is room for one, are put behind the `/` in front
of `path1` : the end of the path, and the state. -/
def Traversal.putName (s : Traversal σ) (path1 : ℕ) (dName : Bytes) : ℕ × Traversal σ :=
  let (path2, s) := s.append dName (some path1)
  -- it is no `NULL`, since `path1` is inside of the buffer
  let path2 := path2.getD path1
  (path2, (s.append [0] (some path2)).2)

/-- The callback is called for the entry with the path that ends at `path2`. -/
def Traversal.call (s : Traversal σ) (func : Buf → HiwFile → σ → Bool × σ) (path2 len : ℕ) :
    Bool × Traversal σ :=
  let filename : HiwString := ⟨path2 - len, len⟩
  let file : HiwFile := {
    path := ⟨0, path2⟩
    filename
    suffix := HiwString.suffix s.path filename 46 }
  let (answer, userdata) := func s.path file s.userdata
  (answer, { s with userdata, calls := s.calls ++ [⟨s.path, file, answer⟩] })

theorem call_eq (s : Traversal σ) (func : Buf → HiwFile → σ → Bool × σ) (path2 len : ℕ) :
    ∃ c : Call, c.buffer = s.path ∧ c.file.path = ⟨0, path2⟩ ∧
      c.file.filename = ⟨path2 - len, len⟩ ∧
      (func c.buffer c.file s.userdata).1 = c.answer ∧
      s.call func path2 len = (c.answer, { s with
        userdata := (func c.buffer c.file s.userdata).2
        calls := s.calls ++ [c] }) :=
  ⟨⟨s.path, ⟨⟨0, path2⟩, ⟨path2 - len, len⟩, _⟩, _⟩, rfl, rfl, rfl, rfl, rfl⟩

section

variable {s s' : Traversal σ} {p p' : ℕ} {src : Bytes}

theorem append_nil (s : Traversal σ) (p : ℕ) : s.append [] (some p) = (some p, s) := rfl

theorem append_none (hsrc : src ≠ []) : s.append src none = (none, s) := by
  simp only [Traversal.append, copyInto, if_neg hsrc]

theorem append_of_lt (hsrc : src ≠ []) (hp : p < hiwMaxPath) :
    s.append src (some p) = (some (p + min src.length (hiwMaxPath - p)),
      { s with path := s.path.write p (src.take (hiwMaxPath - p)) }) := by
  have hroom : hiwMaxPath - p ≠ 0 := by omega
  simp only [Traversal.append, copyInto, Option.getD_some, if_neg hsrc, if_neg hroom]

theorem append_of_ge (hsrc : src ≠ []) (hp : hiwMaxPath ≤ p) :
    s.append src (some p) = (none, s) := by
  have hroom : hiwMaxPath - p = 0 := by omega
  simp only [Traversal.append, copyInto, Option.getD_some, if_neg hsrc, if_pos hroom]

theorem append_of_le (s : Traversal σ) (src : Bytes) (hp : p + src.length ≤ hiwMaxPath) :
    ∃ m, s.append src (some p) = (some (p + src.length), { s with path := m }) ∧
      m.bytes 0 (p + src.length) = s.path.bytes 0 p ++ src := by
  by_cases hsrc : src = []
  · rw [hsrc, append_nil]
    exact ⟨s.path, rfl, (List.append_nil _).symm⟩
  have hpos := List.length_pos_iff.2 hsrc
  refine ⟨s.path.write p src, ?_, Buf.bytes_zero_write_append⟩
  rw [append_of_lt hsrc (by omega), Nat.min_eq_left (by omega), List.take_of_length_le (by omega)]

theorem append_snd (s : Traversal σ) (src : Bytes) {p q : ℕ} (hp : p ≤ q) :
    ∃ m, (s.append src (some q)).2 = { s with path := m } ∧ m.bytes 0 p = s.path.bytes 0 p := by
  by_cases hsrc : src = []
  · rw [hsrc, append_nil]
    exact ⟨s.path, rfl, rfl⟩
  rcases Nat.lt_or_ge q hiwMaxPath with hq | hq
  · rw [append_of_lt hsrc hq]
    exact ⟨_, rfl, Buf.bytes_write_of_le (by omega)⟩
  · rw [append_of_ge hsrc hq]
    exact ⟨_, rfl, rfl⟩

theorem openDir_of_lt (opendir : Bytes → Option (List Dirent)) (s : Traversal σ)
    (hp : p + 2 < hiwMaxPath) :
    ∃ m, m.bytes 0 (p + 3) = s.path.bytes 0 p ++ [47, 46, 0] ∧
      openDir opendir (some p) s =
        match opendir (cString m) with
        | none => (.error .notFound, { s with path := m })
        | some entries => (.ok (p + 1, entries), { s with path := m }) := by
  have hslash : p + ([47] : Bytes).length ≤ hiwMaxPath := by
    rw [List.length_singleton]
    omega
  obtain ⟨m₁, h₁, hbytes₁⟩ := append_of_le s [47] hslash
  obtain ⟨m₂, h₂, hbytes₂⟩ := append_of_le { s with path := m₁ } [46, 0] (p := p + 1) hp
  refine ⟨m₂, ?_, ?_⟩
  · rw [show p + 3 = p + 1 + ([46, 0] : Bytes).length from rfl, hbytes₂]
    rw [List.length_singleton] at hbytes₁
    rw [hbytes₁, List.append_assoc]
    rfl
  · simp only [openDir, h₁, h₂, List.length_cons, List.length_nil, Nat.zero_add, Nat.reduceAdd,
      Nat.add_sub_cancel_left, ne_eq, not_true_eq_false, if_false]

theorem openDir_of_ge (opendir : Bytes → Option (List Dirent)) (s : Traversal σ)
    (hp : hiwMaxPath ≤ p + 2) :
    ∃ m, openDir opendir (some p) s = (.error .pathLen, { s with path := m }) := by
  rcases Nat.lt_or_ge p hiwMaxPath with h | h
  · obtain ⟨m₁, h₁, -⟩ := append_of_le s [47] (p := p) h
    rcases Nat.lt_or_ge (p + 1) hiwMaxPath with h' | h'
    · -- the dot is written, and its terminator is not
      have hlen : min ([46, 0] : Bytes).length (hiwMaxPath - (p + 1)) = 1 := by
        rw [List.length_cons, List.length_singleton]
        omega
      simp only [openDir, h₁, List.length_singleton, append_of_lt (List.cons_ne_nil _ _) h', hlen,
        Nat.add_sub_cancel_left]
      exact ⟨_, rfl⟩
    · simp only [openDir, h₁, List.length_singleton, append_of_ge (List.cons_ne_nil _ _) h']
      exact ⟨_, rfl⟩
  · simp only [openDir, append_of_ge (List.cons_ne_nil _ _) h, append_none (List.cons_ne_nil _ _)]
    exact ⟨_, rfl⟩

theorem lt_of_openDir {opendir : Bytes → Option (List Dirent)} {entries : List Dirent}
    (h : openDir opendir (some p) s = (.ok (p', entries), s')) : p < p' ∧ p < hiwMaxPath := by
  rcases Nat.lt_or_ge (p + 2) hiwMaxPath with hp | hp
  · obtain ⟨m, -, hm⟩ := openDir_of_lt opendir s hp
    rw [hm] at h
    cases hopen : opendir (cString m) with
    | none =>
      rw [hopen] at h
      cases h
    | some entries =>
      rw [hopen] at h
      cases h
      omega
  · obtain ⟨m, hm⟩ := openDir_of_ge opendir s hp
    rw [hm] at h
    cases h

theorem putName_fst (s : Traversal σ) (p : ℕ) (dName : Bytes) :
    (s.putName p dName).1 = p + min dName.length (hiwMaxPath - p) := by
  by_cases h : dName = []
  · rw [h, List.length_nil, Nat.zero_min]
    rfl
  rcases Nat.lt_or_ge p hiwMaxPath with hp | hp
  · simp only [Traversal.putName, append_of_lt h hp, Option.getD_some]
  · simp only [Traversal.putName, append_of_ge h hp, Option.getD_none]
    omega

theorem putName_snd (s : Traversal σ) (p : ℕ) (dName : Bytes) :
    ∃ m, (s.putName p dName).2 = { s with path := m } ∧ m.bytes 0 p = s.path.bytes 0 p := by
  obtain ⟨m₁, h₁, hbytes₁⟩ := append_snd s dName (Nat.le_refl p)
  have hle : p ≤ (s.putName p dName).1 := by
    rw [putName_fst]
    exact Nat.le_add_right _ _
  obtain ⟨m₂, h₂, hbytes₂⟩ := append_snd (s.append dName (some p)).2 [0] hle
  rw [h₁] at h₂ hbytes₂
  refine ⟨m₂, ?_, hbytes₂.trans hbytes₁⟩
  rw [← h₂, ← h₁]
  rfl

theorem putName_of_lt (s : Traversal σ) (dName : Bytes) (hp : p + dName.length < hiwMaxPath) :
    ∃ m, s.putName p dName = (p + dName.length, { s with path := m }) ∧
      m.bytes 0 (p + dName.length + 1) = s.path.bytes 0 p ++ dName ++ [0] := by
  obtain ⟨m₁, h₁, hbytes₁⟩ := append_of_le s dName hp.le
  obtain ⟨m₂, h₂, hbytes₂⟩ := append_of_le { s with path := m₁ } [0] hp
  refine ⟨m₂, ?_, ?_⟩
  · simp only [Traversal.putName, h₁, Option.getD_some, h₂]
  · rw [← hbytes₁]
    exact hbytes₂

theorem cString_eq {m : Buf} {b : Bytes} (hb : 0 ∉ b) (hlt : b.length < hiwMaxPath)
    (h : m.bytes 0 (b.length + 1) = b ++ [0]) : cString m = b := by
  have hcut : hiwMaxPath = b.length + 1 + (hiwMaxPath - (b.length + 1)) := by omega
  have hpos : ∀ c ∈ b, decide (c ≠ 0) = true := fun c hc =>
    decide_eq_true (ne_of_mem_of_not_mem hc hb)
  rw [cString, hcut, Buf.bytes_add, h, List.append_assoc, List.takeWhile_append_of_pos hpos,
    List.singleton_append, List.takeWhile_cons_of_neg (by simp), List.append_nil]

end

variable (opendir : Bytes → Option (List Dirent)) (func : Buf → HiwFile → σ → Bool × σ)

mutual

/-- `hiw_file_traverse1` -/
def traverse1 (path0 : ℕ) (s : Traversal σ) : HiwFileTraverseError × Traversal σ :=
  match _ : openDir opendir (some path0) s with
  | (.error err, s) => (err, s)
  | (.ok (path1, entries), s) => readEntries path1 entries s
termination_by (hiwMaxPath - path0, 0, 0)
decreasing_by
  have hlt := lt_of_openDir ‹_›
  exact Prod.Lex.left _ _ (by omega)

/-- The loop over `readdir` of both functions. -/
def readEntries (path1 : ℕ) (entries : List Dirent) (s : Traversal σ) :
    HiwFileTraverseError × Traversal σ :=
  match entries with
  | [] => (.success, s)
  | entry :: entries =>
    -- `path2` and the buffer
    let named := s.putName path1 entry.dName
    if entry.dType = .dir then
      if ignored entry.dName then readEntries path1 entries named.2
      else
        let sub := traverse1 named.1 named.2
        if sub.1 ≠ .success then sub else readEntries path1 entries sub.2
    else
      let called := named.2.call func named.1 entry.dName.val.length
      if called.1 then readEntries path1 entries called.2 else (.aborted, called.2)
termination_by (hiwMaxPath - path1, 1, entries.length)
decreasing_by
  · exact Prod.Lex.right _ (Prod.Lex.right _ (Nat.lt_succ_self _))
  · have hle : path1 ≤ (s.putName path1 entry.dName).1 := by
      rw [putName_fst]
      exact Nat.le_add_right _ _
    rcases Nat.lt_or_ge (hiwMaxPath - (s.putName path1 entry.dName).1) (hiwMaxPath - path1) with
      hlt | hge
    · exact Prod.Lex.left _ _ hlt
    · rw [Nat.le_antisymm (Nat.sub_le_sub_left hle _) hge]
      exact Prod.Lex.right _ (Prod.Lex.left _ _ Nat.zero_lt_one)
  · exact Prod.Lex.right _ (Prod.Lex.right _ (Nat.lt_succ_self _))
  · exact Prod.Lex.right _ (Prod.Lex.right _ (Nat.lt_succ_self _))

end

/-- `hiw_file_traverse`, with the contents `path` of its buffer. -/
def traverse (rootPath : Bytes) (path : Buf) (userdata : σ) :
    HiwFileTraverseError × Traversal σ :=
  let (path0, path) := copyInto path rootPath (some 0) hiwMaxPath
  match openDir opendir path0 ⟨path, userdata, []⟩ with
  | (.error err, s) => (err, s)
  | (.ok (path1, entries), s) => readEntries opendir func path1 entries s

theorem traverse1_eq (p : ℕ) (s : Traversal σ) : traverse1 opendir func p s =
    match openDir opendir (some p) s with
    | (.error err, s) => (err, s)
    | (.ok (path1, entries), s) => readEntries opendir func path1 entries s := by
  rw [traverse1]
  generalize openDir opendir (some p) s = o
  rcases o with ⟨_ | _, _⟩
  · rfl
  · rfl

/-- `hiw_file_traverse` does what `hiw_file_traverse1` does with the root's path. -/
theorem traverse_eq (rootPath : Bytes) (path : Buf) (userdata : σ) :
    ∃ m, traverse opendir func rootPath path userdata =
        traverse1 opendir func (min rootPath.length hiwMaxPath) ⟨m, userdata, []⟩ ∧
      (rootPath.length < hiwMaxPath → m.bytes 0 rootPath.length = rootPath) := by
  by_cases h : rootPath = []
  · refine ⟨path, ?_, fun _ => by rw [h]; rfl⟩
    rw [traverse1_eq, traverse, copyInto, if_pos h, h, List.length_nil, Nat.zero_min]
  · refine ⟨path.write 0 (rootPath.take hiwMaxPath), ?_, fun hlt => ?_⟩
    · rw [traverse1_eq, traverse, copyInto, if_neg h, if_neg (by decide), Nat.zero_add]
    · rw [List.take_of_length_le hlt.le]
      exact Buf.bytes_write

section

variable {opendir func} {p : ℕ} {s : Traversal σ} {entry : Dirent} {entries : List Dirent}

theorem readEntries_nil : readEntries opendir func p [] s = (.success, s) := by
  rw [readEntries]

theorem readEntries_ignored (hdir : entry.dType = .dir) (h : ignored entry.dName = true) :
    readEntries opendir func p (entry :: entries) s =
      readEntries opendir func p entries (s.putName p entry.dName).2 := by
  rw [readEntries, if_pos hdir, if_pos h]

theorem readEntries_dir (hdir : entry.dType = .dir) (h : ¬ ignored entry.dName = true) :
    readEntries opendir func p (entry :: entries) s =
      let sub := traverse1 opendir func (s.putName p entry.dName).1 (s.putName p entry.dName).2
      if sub.1 ≠ .success then sub else readEntries opendir func p entries sub.2 := by
  rw [readEntries, if_pos hdir, if_neg h]

theorem readEntries_file (hdir : entry.dType ≠ .dir) :
    readEntries opendir func p (entry :: entries) s =
      let called := (s.putName p entry.dName).2.call func (s.putName p entry.dName).1
        entry.dName.val.length
      if called.1 then readEntries opendir func p entries called.2
      else (.aborted, called.2) := by
  rw [readEntries, if_neg hdir]

end

end HiwFile

end Highway
