import Highway.Servlet.FileContent

/-!
# What a traversal of a directory tree visits

`Entries` is a directory tree, with its entries in the order in which `readdir` returns them, and
`items` lists what is in it, depth first.  `Outcome` says what a traversal makes of such a list: it
goes from item to item and calls the callback for the files, until the callback answers `false`, or
a directory cannot be opened, or its path does not fit into the buffer.  `hiw_file_traverse` does
just that (`traverse_outcome`), whatever the depth of the recursion: what a directory writes into
the buffer leaves the path of the directory above it alone.

* `traverse_visits` : where all paths fit, every file is visited once, under its path.
* `untruncated_iff` : a file whose path does not fit is no error; the callback gets a truncated
  path.
-/

namespace Highway

namespace HiwFile

/-- The names of the directory itself and of the one above it. -/
def IsDots (name : Bytes) : Prop := name = [46] ∨ name = [46, 46]

instance : DecidablePred IsDots := fun _ => inferInstanceAs (Decidable (_ ∨ _))

/-- The entries of a directory, in the order of `readdir`. -/
inductive Entries where
  | nil
  | dots (name : CString) (h : IsDots name) (rest : Entries)
  | file (name : CString) (type : DType) (h : type ≠ .dir) (rest : Entries)
  | dir (name : CString) (h : ¬ IsDots name) (contents : Entries) (rest : Entries)
  /-- A directory that cannot be opened. -/
  | locked (name : CString) (h : ¬ IsDots name) (rest : Entries)

/-- What `readdir` returns. -/
def Entries.listing : Entries → List Dirent
  | .nil => []
  | .dots name _ rest => ⟨name, .dir⟩ :: rest.listing
  | .file name type _ rest => ⟨name, type⟩ :: rest.listing
  | .dir name _ _ rest => ⟨name, .dir⟩ :: rest.listing
  | .locked name _ rest => ⟨name, .dir⟩ :: rest.listing

/-- The path of an entry of the directory `path`. -/
def child (path name : Bytes) : Bytes := path ++ 47 :: name

/-- The path that the directory `path` is opened with. -/
def opened (path : Bytes) : Bytes := path ++ [47, 46]

/-- `opendir` finds the tree at `path`. -/
def Mounted (opendir : Bytes → Option (List Dirent)) (path : Bytes) : Entries → Prop
  | .nil => True
  | .dots _ _ rest => Mounted opendir path rest
  | .file _ _ _ rest => Mounted opendir path rest
  | .dir name _ contents rest =>
    opendir (opened (child path name)) = some contents.listing ∧
      Mounted opendir (child path name) contents ∧ Mounted opendir path rest
  | .locked name _ rest => opendir (opened (child path name)) = none ∧ Mounted opendir path rest

/-- `opendir` finds the directory at `root`, or cannot open it. -/
def MountedAt (opendir : Bytes → Option (List Dirent)) (root : Bytes) : Option Entries → Prop
  | none => opendir (opened root) = none
  | some entries => opendir (opened root) = some entries.listing ∧ Mounted opendir root entries

/-- What an entry is to a traversal. -/
inductive Kind where
  | file
  | dir
  /-- A directory that `opendir` fails for. -/
  | locked
  deriving DecidableEq

/-- An entry of a tree with its full path. -/
structure Item where
  path : Bytes
  name : Bytes
  kind : Kind

/-- The entries of the directory `path` and of all directories below it, depth first. -/
def items (path : Bytes) : Entries → List Item
  | .nil => []
  | .dots _ _ rest => items path rest
  | .file name _ _ rest => ⟨child path name, name, .file⟩ :: items path rest
  | .dir name _ contents rest =>
    ⟨child path name, name, .dir⟩ :: items (child path name) contents ++ items path rest
  | .locked name _ rest => ⟨child path name, name, .locked⟩ :: items path rest

/-- A whole tree, the directory at its root included. -/
def tree (path name : Bytes) : Option Entries → List Item
  | none => [⟨path, name, .locked⟩]
  | some entries => ⟨path, name, .dir⟩ :: items path entries

/-- The full path fits into the buffer: with its terminator, and for a directory with `"/."`. -/
def Item.Fits (item : Item) : Prop :=
  match item.kind with
  | .file => item.path.length < hiwMaxPath
  | .dir | .locked => item.path.length + 2 < hiwMaxPath

instance : DecidablePred Item.Fits
  | ⟨_, _, .file⟩ | ⟨_, _, .dir⟩ | ⟨_, _, .locked⟩ => inferInstanceAs (Decidable (_ < _))

/-- The callback is given the exact path and name of the file. -/
structure Exact (item : Item) (c : Call) : Prop where
  path : c.file.path.reads c.buffer = item.path
  inside : c.file.path.begin + c.file.path.length < hiwMaxPath
  terminated : c.buffer (c.file.path.begin + c.file.path.length) = 0
  filename : c.file.filename.reads c.buffer = item.name
  /-- The name is the end of the path. -/
  last : c.file.path.begin ≤ c.file.filename.begin ∧
    c.file.filename.begin + c.file.filename.length = c.file.path.begin + c.file.path.length

/-- What the callback is given for a file: nothing but the start of a path that does not fit. -/
def Seen (item : Item) (c : Call) : Prop :=
  if item.path.length < hiwMaxPath then Exact item c else c.file.path.length = hiwMaxPath

/-- A traversal of the items makes the calls and returns the error. -/
inductive Outcome : List Item → List Call → HiwFileTraverseError → Prop
  | done : Outcome [] [] .success
  | file {item items c calls err} (hkind : item.kind = .file) (hseen : Seen item c)
      (hanswer : c.answer = true) (hrest : Outcome items calls err) :
      Outcome (item :: items) (c :: calls) err
  | aborted {item items c} (hkind : item.kind = .file) (hseen : Seen item c)
      (hanswer : c.answer = false) : Outcome (item :: items) [c] .aborted
  | dir {item items calls err} (hkind : item.kind = .dir) (hfits : item.Fits)
      (hrest : Outcome items calls err) : Outcome (item :: items) calls err
  | notFound {item items} (hkind : item.kind = .locked) (hfits : item.Fits) :
      Outcome (item :: items) [] .notFound
  | pathLen {item items} (hkind : item.kind ≠ .file) (hfits : ¬ item.Fits) :
      Outcome (item :: items) [] .pathLen

/-- The answers are those of the callback. -/
def Answered {σ : Type*} (func : Buf → HiwFile → σ → Bool × σ) : σ → List Call → σ → Prop
  | u, [], u' => u = u'
  | u, c :: calls, u' =>
    (func c.buffer c.file u).1 = c.answer ∧ Answered func (func c.buffer c.file u).2 calls u'

theorem ignored_iff (name : Bytes) : ignored name = true ↔ IsDots name := by
  unfold IsDots
  rcases name with _ | ⟨x, _ | ⟨y, _ | ⟨z, name⟩⟩⟩
  · simp [ignored]
  · simp [ignored]
  · simp [ignored]
  · simp [ignored]

variable {xs ys : List Item} {item : Item} {cs ds : List Call} {err : HiwFileTraverseError}

theorem Outcome.append (h : Outcome xs cs .success) (h' : Outcome ys ds err) :
    Outcome (xs ++ ys) (cs ++ ds) err := by
  generalize hok : HiwFileTraverseError.success = ok at h
  induction h with
  | done => exact h'
  | file hkind hseen hanswer _ ih => exact .file hkind hseen hanswer (ih hok)
  | aborted => cases hok
  | dir hkind hfits _ ih => exact .dir hkind hfits (ih hok)
  | notFound => cases hok
  | pathLen => cases hok

theorem Outcome.append_of_ne (h : Outcome xs cs err) (herr : err ≠ .success) :
    Outcome (xs ++ ys) cs err := by
  induction h with
  | done => exact absurd rfl herr
  | file hkind hseen hanswer _ ih => exact .file hkind hseen hanswer (ih herr)
  | aborted hkind hseen hanswer => exact .aborted hkind hseen hanswer
  | dir hkind hfits _ ih => exact .dir hkind hfits (ih herr)
  | notFound hkind hfits => exact .notFound hkind hfits
  | pathLen hkind hfits => exact .pathLen hkind hfits

section

variable {σ : Type*} {func : Buf → HiwFile → σ → Bool × σ} {u u' u'' : σ} {s : Traversal σ}
  {r : HiwFileTraverseError × Traversal σ} {p q : ℕ}

theorem Answered.append (h : Answered func u cs u') (h' : Answered func u' ds u'') :
    Answered func u (cs ++ ds) u'' := by
  induction cs generalizing u with
  | nil =>
    obtain rfl : u = u' := h
    exact h'
  | cons c cs ih => exact ⟨h.1, ih h.2⟩

/-- What a part of the traversal does, from state `s` on: it makes calls for the items, and if it
gets through them it leaves the first `p` bytes of the buffer as they were. -/
structure Scans (func : Buf → HiwFile → σ → Bool × σ) (xs : List Item) (p : ℕ) (s : Traversal σ)
    (r : HiwFileTraverseError × Traversal σ) : Prop where
  outcome : ∃ calls, r.2.calls = s.calls ++ calls ∧ Outcome xs calls r.1 ∧
    Answered func s.userdata calls r.2.userdata
  frame : r.1 = .success → r.2.path.bytes 0 p = s.path.bytes 0 p

theorem Scans.nil : Scans func [] p s (.success, s) :=
  ⟨⟨[], (List.append_nil _).symm, .done, rfl⟩, fun _ => rfl⟩

theorem Scans.mono (h : Scans func xs q s r) (hp : p ≤ q) : Scans func xs p s r := by
  refine ⟨h.outcome, fun hok => ?_⟩
  rw [← Buf.take_bytes hp, h.frame hok, Buf.take_bytes hp]

theorem Scans.of_path {m : Buf} (h : Scans func xs p { s with path := m } r)
    (hm : m.bytes 0 p = s.path.bytes 0 p) : Scans func xs p s r :=
  ⟨h.outcome, fun hok => (h.frame hok).trans hm⟩

theorem Scans.append {g : Traversal σ → HiwFileTraverseError × Traversal σ}
    (h : Scans func xs p s r)
    (hg : ∀ s', s'.path.bytes 0 p = s.path.bytes 0 p → Scans func ys p s' (g s')) :
    Scans func (xs ++ ys) p s (if r.1 ≠ .success then r else g r.2) := by
  obtain ⟨⟨calls, hcalls, hout, hans⟩, hframe⟩ := h
  split_ifs with herr
  · exact ⟨⟨calls, hcalls, hout.append_of_ne herr, hans⟩, fun hok => absurd hok herr⟩
  · have hok := not_not.1 herr
    rw [hok] at hout
    obtain ⟨⟨calls', hcalls', hout', hans'⟩, hframe'⟩ := hg r.2 (hframe hok)
    refine ⟨⟨calls ++ calls', ?_, hout.append hout', hans.append hans'⟩,
      fun hok' => (hframe' hok').trans (hframe hok)⟩
    rw [hcalls', hcalls, List.append_assoc]

theorem Scans.dir (h : Scans func xs p s r) (hkind : item.kind = .dir) (hfits : item.Fits) :
    Scans func (item :: xs) p s r := by
  obtain ⟨⟨calls, hcalls, hout, hans⟩, hframe⟩ := h
  exact ⟨⟨calls, hcalls, .dir hkind hfits hout, hans⟩, hframe⟩

theorem Scans.of_error {m : Buf} (h : Outcome xs [] err) (herr : err ≠ .success) :
    Scans func xs p s (err, { s with path := m }) :=
  ⟨⟨[], (List.append_nil _).symm, h, rfl⟩, fun hok => absurd hok herr⟩

theorem length_child (path name : Bytes) :
    (child path name).length = path.length + 1 + name.length := by
  rw [child, List.length_append, List.length_cons]
  omega

theorem not_mem_child {path : Bytes} (hpath : 0 ∉ path) (name : CString) :
    0 ∉ child path name := by
  simp [child, hpath, name.property]

theorem putName_child {path : Bytes} (hpath : path.length + 2 < hiwMaxPath)
    (hs : s.path.bytes 0 (path.length + 1) = path ++ [47]) (name : Bytes) :
    ∃ m, s.putName (path.length + 1) name =
        (min (child path name).length hiwMaxPath, { s with path := m }) ∧
      m.bytes 0 (path.length + 1) = path ++ [47] ∧
      ((child path name).length < hiwMaxPath →
        m.bytes 0 ((child path name).length + 1) = child path name ++ [0]) := by
  have hlen := length_child path name
  rcases Nat.lt_or_ge (child path name).length hiwMaxPath with hfits | hfits
  · obtain ⟨m, hput, hbytes⟩ := putName_of_lt s name (by rwa [hlen] at hfits)
    rw [hs, ← hlen] at hbytes
    refine ⟨m, ?_, ?_, fun _ => ?_⟩
    · rw [hput, Nat.min_eq_left hfits.le, hlen]
    · have hcut : path.length + 1 ≤ (child path name).length + 1 := by omega
      rw [← Buf.take_bytes hcut, hbytes, List.append_assoc]
      exact List.take_left' List.length_append
    · rw [hbytes, child, List.append_assoc path]
      rfl
  · obtain ⟨m, hput, hbytes⟩ := putName_snd s (path.length + 1) name
    refine ⟨m, Prod.ext ?_ hput, hbytes.trans hs, fun h => absurd h hfits.not_gt⟩
    rw [putName_fst, hlen]
    omega

theorem bytes_name {path name : Bytes} {m : Buf}
    (hread : m.bytes 0 (child path name).length = child path name) :
    m.bytes ((child path name).length - name.length) name.length = name := by
  have hlen := length_child path name
  have hname : (m.bytes 0 (child path name).length).drop (path.length + 1) = name := by
    rw [hread, child, ← List.singleton_append, ← List.append_assoc]
    exact List.drop_left' List.length_append
  rw [Buf.drop_bytes (by omega), Nat.zero_add] at hname
  have hbegin : (child path name).length - name.length = path.length + 1 := by omega
  have hrest : (child path name).length - (path.length + 1) = name.length := by omega
  rw [hrest] at hname
  rw [hbegin, hname]

theorem seen_child {path name : Bytes} {m : Buf} {c : Call}
    (hbytes : (child path name).length < hiwMaxPath →
      m.bytes 0 ((child path name).length + 1) = child path name ++ [0])
    (hbuffer : c.buffer = m) (hfile : c.file.path = ⟨0, min (child path name).length hiwMaxPath⟩)
    (hname : c.file.filename =
      ⟨min (child path name).length hiwMaxPath - name.length, name.length⟩) :
    Seen ⟨child path name, name, .file⟩ c := by
  unfold Seen
  split_ifs with hfits
  · have hlen := length_child path name
    have hmin : min (child path name).length hiwMaxPath = (child path name).length :=
      Nat.min_eq_left (Nat.le_of_lt hfits)
    rw [hmin] at hfile hname
    -- the path, and the terminator behind it
    have hzero := hbytes hfits
    rw [Buf.bytes_concat] at hzero
    obtain ⟨hread, hzero⟩ := List.append_inj' hzero rfl
    refine ⟨?_, ?_, ?_, ?_, ?_⟩
    · rw [hbuffer, hfile, HiwString.reads, hread]
    · rw [hfile]
      simpa using hfits
    · rw [hbuffer, hfile]
      exact List.singleton_injective hzero
    · rw [hbuffer, hname, HiwString.reads, bytes_name hread]
    · rw [hfile, hname]
      exact ⟨Nat.zero_le _, by simp only; omega⟩
  · -- the end of the path is clamped
    rw [hfile]
    exact Nat.min_eq_right (Nat.le_of_not_lt hfits)

variable {opendir : Bytes → Option (List Dirent)} {path : Bytes} {rest : List Dirent}

theorem Scans.call {n len : ℕ} (hkind : item.kind = .file)
    (hseen : ∀ c : Call, c.buffer = s.path → c.file.path = ⟨0, n⟩ →
      c.file.filename = ⟨n - len, len⟩ → Seen item c)
    (h : ∀ s', s'.path = s.path → Scans func xs p s' (readEntries opendir func q rest s')) :
    Scans func (item :: xs) p s
      (if (s.call func n len).1 then readEntries opendir func q rest (s.call func n len).2
        else (.aborted, (s.call func n len).2)) := by
  obtain ⟨c, hbuffer, hfile, hname, hans, hcall⟩ := call_eq s func n len
  have hc := hseen c hbuffer hfile hname
  rw [hcall]
  split_ifs with hanswer
  · obtain ⟨⟨calls, hcalls, hout, hrest⟩, hframe⟩ := h { s with
      userdata := (func c.buffer c.file s.userdata).2
      calls := s.calls ++ [c] } rfl
    refine ⟨⟨c :: calls, ?_, .file hkind hc hanswer hout, hans, hrest⟩, hframe⟩
    rw [hcalls, List.append_assoc, List.singleton_append]
  · refine ⟨⟨[c], rfl, .aborted hkind hc (Bool.not_eq_true _ ▸ hanswer), hans, rfl⟩,
      fun hok => ?_⟩
    cases hok

/-- One directory, if its entries are known to be traversed. -/
theorem traverse1_scans (func : Buf → HiwFile → σ → Bool × σ) (s : Traversal σ) (name : Bytes)
    (hpath : 0 ∉ path) {t : Option Entries}
    (ht : MountedAt opendir path t)
    (hs : path.length < hiwMaxPath → s.path.bytes 0 path.length = path)
    (hrec : ∀ entries (s : Traversal σ), t = some entries → path.length + 2 < hiwMaxPath →
      s.path.bytes 0 (path.length + 1) = path ++ [47] →
      Scans func (items path entries) (path.length + 1) s
        (readEntries opendir func (path.length + 1) entries.listing s)) :
    Scans func (tree path name t) (min path.length hiwMaxPath) s
      (traverse1 opendir func (min path.length hiwMaxPath) s) := by
  rcases Nat.lt_or_ge (path.length + 2) hiwMaxPath with hfits | hfits
  · rw [Nat.min_eq_left (by omega), traverse1_eq]
    obtain ⟨m, hbytes, hopen⟩ := openDir_of_lt opendir s hfits
    rw [hs (by omega)] at hbytes
    have hstring : cString m = opened path := by
      refine cString_eq (by simp [opened, hpath]) (by simpa [opened] using hfits) ?_
      rw [opened, List.length_append, List.append_assoc]
      exact hbytes
    -- behind the "/" the buffer may change
    have hslash : m.bytes 0 (path.length + 1) = path ++ [47] := by
      rw [← Buf.take_bytes (k := path.length + 1) (n := path.length + 3) (by omega), hbytes]
      exact List.take_length_add_append 1
    rw [hstring] at hopen
    cases t with
    | none =>
      rw [show opendir (opened path) = none from ht] at hopen
      rw [hopen]
      exact .of_error (.notFound rfl hfits) (by decide)
    | some entries =>
      rw [ht.1] at hopen
      rw [hopen]
      have hscan := hrec entries { s with path := m } rfl hfits hslash
      refine .dir (.of_path (hscan.mono (Nat.le_succ _)) ?_) rfl hfits
      rw [hs (by omega), ← Buf.take_bytes (Nat.le_succ _), hslash]
      simp
  · -- the path does not fit, whether the directory can be opened or not
    obtain ⟨m, hm⟩ := openDir_of_ge opendir s (p := min path.length hiwMaxPath) (by omega)
    rw [traverse1_eq, hm]
    cases t with
    | none => exact .of_error (.pathLen (by simp) hfits.not_gt) (by decide)
    | some entries => exact .of_error (.pathLen (by simp) hfits.not_gt) (by decide)

theorem Scans.descend {name : CString} (hpath : 0 ∉ path) {t : Option Entries}
    (ht : MountedAt opendir (child path name) t) (hfits : path.length + 2 < hiwMaxPath)
    (hs : s.path.bytes 0 (path.length + 1) = path ++ [47])
    (hrec : ∀ entries (s : Traversal σ), t = some entries →
      (child path name).length + 2 < hiwMaxPath →
      s.path.bytes 0 ((child path name).length + 1) = child path name ++ [47] →
      Scans func (items (child path name) entries) ((child path name).length + 1) s
        (readEntries opendir func ((child path name).length + 1) entries.listing s))
    (hrest : ∀ s' : Traversal σ, s'.path.bytes 0 (path.length + 1) = path ++ [47] →
      Scans func ys (path.length + 1) s'
        (readEntries opendir func (path.length + 1) rest s')) :
    Scans func (tree (child path name) name t ++ ys) (path.length + 1) s
      (let sub := traverse1 opendir func (s.putName (path.length + 1) name).1
          (s.putName (path.length + 1) name).2
        if sub.1 ≠ .success then sub
        else readEntries opendir func (path.length + 1) rest sub.2) := by
  obtain ⟨m, hput, hbytes, hchild⟩ := putName_child hfits hs name
  -- the directory writes behind its own path, so it leaves the path above it alone
  have hle : path.length + 1 ≤ min (child path name).length hiwMaxPath := by
    rw [length_child]
    omega
  have hpath' : (child path name).length < hiwMaxPath →
      m.bytes 0 (child path name).length = child path name := by
    intro hlt
    rw [← Buf.take_bytes (Nat.le_succ _), hchild hlt, List.take_left' rfl]
  rw [hput]
  have hscan := traverse1_scans func { s with path := m } name (not_mem_child hpath name) ht hpath'
    hrec
  refine (Scans.of_path (hscan.mono hle) (hbytes.trans hs.symm)).append fun s' hs' => ?_
  exact hrest s' (hs'.trans hs)

/-- **The entries of a directory, and all below them, are traversed in order.** -/
theorem readEntries_scans {entries : Entries} (hpath : 0 ∉ path)
    (hfits : path.length + 2 < hiwMaxPath) (hm : Mounted opendir path entries)
    (hs : s.path.bytes 0 (path.length + 1) = path ++ [47]) :
    Scans func (items path entries) (path.length + 1) s
      (readEntries opendir func (path.length + 1) entries.listing s) := by
  -- the path is that of the directory the entries are in, and the buffer holds it
  induction entries generalizing path s with
  | nil =>
    rw [Entries.listing, readEntries_nil]
    exact .nil
  | dots name h rest ih =>
    obtain ⟨m, hput, hbytes, -⟩ := putName_child hfits hs name
    rw [Entries.listing, readEntries_ignored rfl ((ignored_iff _).2 h), hput]
    exact .of_path (ih hpath hfits hm hbytes) (hbytes.trans hs.symm)
  | file name type h rest ih =>
    obtain ⟨m, hput, hbytes, hchild⟩ := putName_child hfits hs name
    rw [Entries.listing, readEntries_file h, hput]
    refine .of_path (.call rfl (fun c => seen_child hchild) fun s' hs' => ?_)
      (hbytes.trans hs.symm)
    exact ih hpath hfits hm (by rw [hs', hbytes])
  | dir name h contents rest ihc ih =>
    rw [Entries.listing, readEntries_dir rfl (fun hi => h ((ignored_iff _).1 hi))]
    refine .descend hpath (t := some contents) ⟨hm.1, hm.2.1⟩ hfits hs ?_
      fun s' hs' => ih hpath hfits hm.2.2 hs'
    rintro _ s ⟨⟩ hfits hs
    exact ihc (not_mem_child hpath name) hfits hm.2.1 hs
  | locked name h rest ih =>
    rw [Entries.listing, readEntries_dir rfl (fun hi => h ((ignored_iff _).1 hi))]
    refine .descend hpath (t := none) hm.1 hfits hs ?_ fun s' hs' => ih hpath hfits hm.2 hs'
    rintro _ s ⟨⟩

/-- **What `hiw_file_traverse` does with a directory tree.** -/
theorem traverse_outcome (func : Buf → HiwFile → σ → Bool × σ) (root : CString)
    {t : Option Entries} (ht : MountedAt opendir root t) (path : Buf) (u : σ) :
    Outcome (tree root root t) (traverse opendir func root path u).2.calls
        (traverse opendir func root path u).1 ∧
      Answered func u (traverse opendir func root path u).2.calls
        (traverse opendir func root path u).2.userdata := by
  obtain ⟨m, htraverse, hm⟩ := traverse_eq opendir func root path u
  have hscan := traverse1_scans func ⟨m, u, []⟩ root root.property ht hm
    fun entries s hentries hfits hs => by
      subst hentries
      exact readEntries_scans root.property hfits ht.2 hs
  obtain ⟨calls, hcalls, hout, hans⟩ := hscan.outcome
  rw [htraverse, hcalls, List.nil_append]
  exact ⟨hout, hans⟩

end

/-! ### Paths that fit -/

/-- The files among the entries. -/
def files (xs : List Item) : List Item := xs.filter fun item => item.kind = .file

/-- What a traversal is to do: call the callback for every file, in order, until it answers
`false`. -/
structure Visits {σ : Type*} (xs : List Item) (func : Buf → HiwFile → σ → Bool × σ) (u : σ)
    (r : HiwFileTraverseError × Traversal σ) : Prop where
  /-- The calls are for the first files, each with its path and name. -/
  calls : List.Forall₂ Exact ((files xs).take r.2.calls.length) r.2.calls
  /-- They are calls of the callback. -/
  answered : Answered func u r.2.calls r.2.userdata
  /-- The answer `false` is that of the last call, or all files are visited. -/
  result : (r.1 = .aborted ∧ ∃ calls c, r.2.calls = calls ++ [c] ∧ c.answer = false ∧
      ∀ c ∈ calls, c.answer = true) ∨
    (r.1 = .success ∧ r.2.calls.length = (files xs).length ∧ ∀ c ∈ r.2.calls, c.answer = true)

theorem files_cons_file (hkind : item.kind = .file) : files (item :: xs) = item :: files xs :=
  List.filter_cons_of_pos (decide_eq_true hkind)

theorem files_cons_dir (hkind : item.kind ≠ .file) : files (item :: xs) = files xs :=
  List.filter_cons_of_neg (by simpa using hkind)

theorem Item.fits_file (hkind : item.kind = .file) :
    item.Fits ↔ item.path.length < hiwMaxPath := by
  rw [Item.Fits, hkind]

theorem Seen.exact {c : Call} (h : Seen item c) (hkind : item.kind = .file) (hfits : item.Fits) :
    Exact item c := by
  rwa [Seen, if_pos ((Item.fits_file hkind).1 hfits)] at h

theorem Outcome.forall₂ (h : Outcome xs cs err) (hfits : ∀ item ∈ xs, item.Fits) :
    List.Forall₂ Exact ((files xs).take cs.length) cs := by
  induction h with
  | done => exact .nil
  | file hkind hseen _ _ ih =>
    obtain ⟨hitem, hrest⟩ := List.forall_mem_cons.1 hfits
    rw [files_cons_file hkind, List.length_cons, List.take_succ_cons]
    exact .cons (hseen.exact hkind hitem) (ih hrest)
  | aborted hkind hseen _ =>
    obtain ⟨hitem, -⟩ := List.forall_mem_cons.1 hfits
    rw [files_cons_file hkind, List.length_singleton, List.take_succ_cons, List.take_zero]
    exact .cons (hseen.exact hkind hitem) .nil
  | dir hkind _ _ ih =>
    rw [files_cons_dir (by simp [hkind])]
    exact ih (List.forall_mem_cons.1 hfits).2
  | notFound => exact .nil
  | pathLen => exact .nil

theorem Outcome.result (h : Outcome xs cs err) (hfits : ∀ item ∈ xs, item.Fits)
    (hopen : ∀ item ∈ xs, item.kind ≠ .locked) :
    (err = .aborted ∧ ∃ calls c, cs = calls ++ [c] ∧ c.answer = false ∧
      ∀ c ∈ calls, c.answer = true) ∨
    (err = .success ∧ cs.length = (files xs).length ∧ ∀ c ∈ cs, c.answer = true) := by
  induction h with
  | done => exact .inr ⟨rfl, rfl, fun _ hc => absurd hc List.not_mem_nil⟩
  | @file item items c cs err hkind _ hanswer _ ih =>
    rcases ih (List.forall_mem_cons.1 hfits).2 (List.forall_mem_cons.1 hopen).2 with
      ⟨herr, calls, c', hcs, hc', hcalls⟩ | ⟨herr, hlen, hcalls⟩
    · refine .inl ⟨herr, c :: calls, c', by rw [hcs, List.cons_append], hc', ?_⟩
      exact List.forall_mem_cons.2 ⟨hanswer, hcalls⟩
    · refine .inr ⟨herr, ?_, List.forall_mem_cons.2 ⟨hanswer, hcalls⟩⟩
      rw [files_cons_file hkind, List.length_cons, List.length_cons, hlen]
  | @aborted item items c hkind _ hanswer =>
    exact .inl ⟨rfl, [], c, rfl, hanswer, fun _ hc => absurd hc List.not_mem_nil⟩
  | dir hkind _ _ ih =>
    rw [files_cons_dir (by simp [hkind])]
    exact ih (List.forall_mem_cons.1 hfits).2 (List.forall_mem_cons.1 hopen).2
  | notFound hkind => exact absurd hkind (hopen _ List.mem_cons_self)
  | pathLen _ hlong => exact absurd (hfits _ List.mem_cons_self) hlong

section

variable {σ : Type*} {func : Buf → HiwFile → σ → Bool × σ} {opendir : Bytes → Option (List Dirent)}

/-- **Every file is visited once.**  In a tree in which all directories can be opened, and all paths
fit into the buffer. -/
theorem traverse_visits (root : CString) {entries : Entries}
    (hmounted : MountedAt opendir root (some entries))
    (hopen : ∀ item ∈ tree root root (some entries), item.kind ≠ .locked)
    (hfits : ∀ item ∈ tree root root (some entries), item.Fits) (path : Buf) (u : σ) :
    Visits (tree root root (some entries)) func u (traverse opendir func root path u) := by
  obtain ⟨hout, hans⟩ := traverse_outcome func root hmounted path u
  exact ⟨hout.forall₂ hfits, hans, hout.result hfits hopen⟩

/-- The directory `r` with a directory `d` and a file `g`, and a file `f` in `d`. -/
def twoFiles : Entries :=
  .dots ⟨[46], by decide⟩ (.inl rfl)
    (.dir ⟨[100], by decide⟩ (by decide) (.file ⟨[102], by decide⟩ .reg (by decide) .nil)
      (.file ⟨[103], by decide⟩ .unknown (by decide) .nil))

/-- The file system with these. -/
def openTwoFiles (path : Bytes) : Option (List Dirent) :=
  if path = opened [114] then some twoFiles.listing
  else if path = opened [114, 47, 100] then some [⟨⟨[102], by decide⟩, .reg⟩]
  else none

theorem traverse_visits_two : Visits (tree [114] [114] (some twoFiles))
    (fun _ _ u => (u = 0, u + 1)) 0
    (traverse openTwoFiles (fun _ _ u => (u = 0, u + 1)) [114] (fun _ => 255) 0) :=
  @traverse_visits ℕ _ openTwoFiles ⟨[114], by decide⟩ twoFiles
    ⟨by decide, by decide, trivial, trivial⟩ (by decide) (by decide) _ _

end

/-! ### Paths that do not fit -/

/-- What is asked of the calls for a tree and of the error. -/
structure Untruncated {σ : Type*} (xs : List Item) (r : HiwFileTraverseError × Traversal σ) :
    Prop where
  exact : ∀ c ∈ r.2.calls, ∃ item ∈ xs, item.kind = .file ∧ Exact item c
  /-- A path that does not fit is reported, unless the traversal has ended in front of it. -/
  reported : ∀ before item after, xs = before ++ item :: after → ¬ item.Fits →
    (∀ i ∈ before, i.kind ≠ .locked) → (∀ c ∈ r.2.calls, c.answer = true) → r.1 = .pathLen

/-- The traversal comes to no file whose path does not fit, before it ends at a directory. -/
def Clear : List Item → Prop
  | [] => True
  | item :: items =>
    match item.kind with
    | .file => item.Fits ∧ Clear items
    | .dir => item.Fits → Clear items
    | .locked => True

theorem clear_cons_file (hkind : item.kind = .file) :
    Clear (item :: xs) ↔ item.Fits ∧ Clear xs := by rw [Clear, hkind]

theorem clear_cons_dir (hkind : item.kind = .dir) :
    Clear (item :: xs) ↔ (item.Fits → Clear xs) := by rw [Clear, hkind]

theorem clear_cons_locked (hkind : item.kind = .locked) : Clear (item :: xs) := by
  rw [Clear, hkind]
  trivial

theorem Outcome.exact (h : Outcome xs cs err) (hclear : Clear xs) :
    ∀ c ∈ cs, ∃ item ∈ xs, item.kind = .file ∧ Exact item c := by
  have hlift : ∀ {item : Item} {items : List Item} {c : Call},
      (∃ i ∈ items, i.kind = .file ∧ Exact i c) →
        ∃ i ∈ item :: items, i.kind = .file ∧ Exact i c :=
    fun ⟨i, hi, hc⟩ => ⟨i, List.mem_cons_of_mem _ hi, hc⟩
  induction h with
  | done => exact fun _ hc => absurd hc List.not_mem_nil
  | file hkind hseen _ _ ih =>
    obtain ⟨hfits, hrest⟩ := (clear_cons_file hkind).1 hclear
    refine List.forall_mem_cons.2 ⟨⟨_, List.mem_cons_self, hkind, hseen.exact hkind hfits⟩, ?_⟩
    exact fun c hc => hlift (ih hrest c hc)
  | aborted hkind hseen _ =>
    obtain ⟨hfits, -⟩ := (clear_cons_file hkind).1 hclear
    exact List.forall_mem_singleton.2 ⟨_, List.mem_cons_self, hkind, hseen.exact hkind hfits⟩
  | dir hkind hfits _ ih =>
    exact fun c hc => hlift (ih ((clear_cons_dir hkind).1 hclear hfits) c hc)
  | notFound => exact fun _ hc => absurd hc List.not_mem_nil
  | pathLen => exact fun _ hc => absurd hc List.not_mem_nil

/-- The first item that does not fit comes behind one that does. -/
theorem exists_of_fits {first : Item} {before after : List Item}
    (hxs : first :: xs = before ++ item :: after) (hfits : first.Fits) (hlong : ¬ item.Fits) :
    ∃ before', before = first :: before' ∧ xs = before' ++ item :: after := by
  cases before with
  | nil =>
    cases hxs
    exact absurd hfits hlong
  | cons i before =>
    cases hxs
    exact ⟨before, rfl, rfl⟩

theorem Outcome.reported (h : Outcome xs cs err) (hclear : Clear xs) {before after : List Item}
    (hxs : xs = before ++ item :: after) (hlong : ¬ item.Fits)
    (hopen : ∀ i ∈ before, i.kind ≠ .locked) (hcalls : ∀ c ∈ cs, c.answer = true) :
    err = .pathLen := by
  induction h generalizing before with
  | done => exact absurd hxs.symm (by simp)
  | file hkind _ _ _ ih =>
    obtain ⟨hfits, hrest⟩ := (clear_cons_file hkind).1 hclear
    obtain ⟨before, rfl, hitems⟩ := exists_of_fits hxs hfits hlong
    exact ih hrest hitems (List.forall_mem_cons.1 hopen).2 (List.forall_mem_cons.1 hcalls).2
  | aborted _ _ hanswer =>
    rw [hcalls _ List.mem_cons_self] at hanswer
    cases hanswer
  | dir hkind hfits _ ih =>
    obtain ⟨before, rfl, hitems⟩ := exists_of_fits hxs hfits hlong
    exact ih ((clear_cons_dir hkind).1 hclear hfits) hitems (List.forall_mem_cons.1 hopen).2 hcalls
  | notFound hkind hfits =>
    obtain ⟨before, rfl, -⟩ := exists_of_fits hxs hfits hlong
    exact absurd hkind (hopen _ List.mem_cons_self)
  | pathLen => rfl

/-- The callback is called for a file whose path does not fit, if it answers `true` before. -/
theorem Outcome.exists_of_not_clear (h : Outcome xs cs err) (hclear : ¬ Clear xs)
    (hcalls : ∀ c ∈ cs, c.answer = true) : ∃ c ∈ cs, c.file.path.length = hiwMaxPath := by
  induction h with
  | done => exact absurd trivial hclear
  | @file item items c cs err hkind hseen _ _ ih =>
    rw [clear_cons_file hkind, not_and_or] at hclear
    by_cases hfits : item.Fits
    · -- a file that fits is not the one
      obtain ⟨c', hc', hlen⟩ := ih (hclear.resolve_left (not_not.2 hfits))
        (List.forall_mem_cons.1 hcalls).2
      exact ⟨c', List.mem_cons_of_mem _ hc', hlen⟩
    · rw [Seen, if_neg (mt (Item.fits_file hkind).2 hfits)] at hseen
      exact ⟨c, List.mem_cons_self, hseen⟩
  | aborted _ _ hanswer =>
    rw [hcalls _ List.mem_cons_self] at hanswer
    cases hanswer
  | dir hkind _ _ ih =>
    rw [clear_cons_dir hkind, Classical.not_imp] at hclear
    exact ih hclear.2 hcalls
  | notFound hkind => exact absurd (clear_cons_locked hkind) hclear
  | @pathLen item items hkind hlong =>
    refine absurd ?_ hclear
    cases hk : item.kind with
    | file => exact absurd hk hkind
    | dir => exact (clear_cons_dir hk).2 fun hfits => absurd hfits hlong
    | locked => exact clear_cons_locked hk

theorem Answered.all {σ : Type*} {func : Buf → HiwFile → σ → Bool × σ} {u u' : σ}
    (h : Answered func u cs u') (hfunc : ∀ m file u, (func m file u).1 = true) :
    ∀ c ∈ cs, c.answer = true := by
  induction cs generalizing u with
  | nil => exact fun _ hc => absurd hc List.not_mem_nil
  | cons c cs ih => exact List.forall_mem_cons.2 ⟨h.1.symm.trans (hfunc _ _ _), ih h.2⟩

section

variable {opendir : Bytes → Option (List Dirent)}

/-- Otherwise the callback that always answers `true` is given a truncated path. -/
theorem clear_of_untruncated (root : CString) {t : Option Entries} (ht : MountedAt opendir root t)
    (h : Untruncated (tree root root t)
      (traverse opendir (fun _ _ u => (true, u)) root (fun _ => 0) ())) :
    Clear (tree root root t) := by
  obtain ⟨hout, hans⟩ := traverse_outcome (fun _ _ u => (true, u)) root ht (fun _ => 0) ()
  by_contra hclear
  obtain ⟨c, hc, hlen⟩ := hout.exists_of_not_clear hclear (hans.all fun _ _ _ => rfl)
  obtain ⟨item, -, -, hexact⟩ := h.exact c hc
  have hinside := hexact.inside
  omega

/-- **When paths that do not fit are reported.**  Whatever the callback is, exactly if there is no
file with such a path in front of the first directory that the traversal cannot enter. -/
theorem untruncated_iff (root : CString) {t : Option Entries} (ht : MountedAt opendir root t) :
    (∀ (σ : Type) (func : Buf → HiwFile → σ → Bool × σ) (path : Buf) (u : σ),
      Untruncated (tree root root t) (traverse opendir func root path u)) ↔
    Clear (tree root root t) := by
  constructor
  · intro h
    exact clear_of_untruncated root ht (h Unit (fun _ _ u => (true, u)) (fun _ => 0) ())
  · intro hclear σ func path u
    obtain ⟨hout, -⟩ := traverse_outcome func root ht path u
    exact ⟨hout.exact hclear, fun _ _ _ hxs hlong hopen hcalls =>
      hout.reported hclear hxs hlong hopen hcalls⟩

end

theorem untruncated_two : (∀ (σ : Type) (func : Buf → HiwFile → σ → Bool × σ) (path : Buf) (u : σ),
    Untruncated (tree [114] [114] (some twoFiles)) (traverse openTwoFiles func [114] path u)) ↔
      Clear (tree [114] [114] (some twoFiles)) :=
  @untruncated_iff openTwoFiles ⟨[114], by decide⟩ (some twoFiles)
    ⟨by decide, by decide, trivial, trivial⟩

/-- The root directory, under the name of 1020 slashes, with a file `file`. -/
theorem not_untruncated : ¬ ∀ (opendir : Bytes → Option (List Dirent)) (root : CString)
    (t : Option Entries), MountedAt opendir root t →
      ∀ (σ : Type) (func : Buf → HiwFile → σ → Bool × σ) (path : Buf) (u : σ),
        Untruncated (tree root root t) (traverse opendir func root path u) := by
  intro hall
  have hnul : 0 ∉ List.replicate 1020 (47 : UInt8) := fun h =>
    absurd (List.eq_of_mem_replicate h) (by decide)
  obtain ⟨root, hroot⟩ : ∃ root : CString, root.val.length = 1020 :=
    ⟨⟨List.replicate 1020 47, hnul⟩, List.length_replicate⟩
  let entries : Entries := .file ⟨[102, 105, 108, 101], by decide⟩ .reg (by decide) .nil
  have hmounted : MountedAt (fun _ => some entries.listing) root (some entries) := ⟨rfl, trivial⟩
  have hclear := clear_of_untruncated root hmounted (hall _ root _ hmounted Unit _ _ ())
  obtain ⟨hfile, -⟩ := (clear_cons_file rfl).1 ((clear_cons_dir rfl).1 hclear (by
    show root.val.length + 2 < 1024
    omega))
  have hlong : (child root [102, 105, 108, 101]).length < 1024 := hfile
  rw [length_child, hroot] at hlong
  exact absurd hlong (by decide)

end HiwFile

end Highway
