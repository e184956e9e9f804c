import Highway.Servlet.Traverse
import Highway.Std.Mimetypes
import Highway.Std.Pool

/-!
# The cache of the static server

`static_cache_init` reads all files below a directory into one memory pool of 64 KiB, and remembers
for each of them its uri, which is its path below the directory, and where its contents are.  Names
and contents are put into the pool one behind the other; the pool does not grow.

* `StaticCache.init_safe` : nothing is stored outside of the pool exactly if all names and contents
  together fit into it.
* `StaticCache.init_view` : what the cache then has for a directory tree.
-/

namespace Highway

/-- What is in a file; its length is of type `int`. -/
abbrev Contents := { b : Bytes // b.length < 2 ^ 31 }

/-- `static_content` ; offsets are from the start of the pool's block. -/
structure StaticContent where
  uri : HiwString
  mimeType : Bytes
  memory : ℕ
  length : ℕ

/-- `static_cache` -/
structure StaticCache where
  baseDir : Bytes
  memory : HiwPool
  content : List StaticContent
  /-- The elements that there is room for at `content`. -/
  capacity : ℕ
  /-- The calls of `realloc` so far. -/
  reallocs : ℕ
  /-- The files that were opened and not closed. -/
  opened : ℕ
  /-- Where bytes were stored in the block of the pool: offset and number. -/
  stores : List (ℕ × ℕ)

/-- What the cache gets from the system. -/
structure StaticEnv where
  opendir : Bytes → Option (List Dirent)
  fopen : Bytes → Option Contents
  /-- Whether the calls of `realloc` succeed, in their order. -/
  realloc : ℕ → Bool
  /-- Whether the first `malloc` for `content` succeeds. -/
  malloc : Bool

/-- `cache_content_capacity` -/
def cacheContentCapacity : ℕ := 64

namespace StaticCache

/-- The string at the given position of a buffer, up to its terminator. -/
def cStringAt (m : Buf) (p : ℕ) : Bytes := (m.bytes p hiwMaxPath).takeWhile (· ≠ 0)

/-- Store bytes in the block of the pool. -/
def store (c : StaticCache) (dest : ℕ) (bs : Bytes) : StaticCache :=
  { c with
    memory := { c.memory with block := c.memory.block.write dest bs }
    stores := c.stores ++ [(dest, bs.length)] }

/-- The end of `static_cache_add` : put an element into the cache. -/
def put (env : StaticEnv) (c : StaticCache) (uri : HiwString) (memory length : ℕ) :
    Bool × StaticCache :=
  let entry : StaticContent := ⟨uri, mimetypeFromFilename c.memory.block uri, memory, length⟩
  if c.content.length % cacheContentCapacity = 0 then
    if env.realloc c.reallocs then
      (true, { c with
        content := c.content ++ [entry]
        capacity := c.content.length + cacheContentCapacity
        reallocs := c.reallocs + 1 })
    else (false, { c with reallocs := c.reallocs + 1 })
  else (true, { c with content := c.content ++ [entry] })

/-- `static_cache_add` ; `none` when the size of the pool leaves the range of `int`. -/
def add (env : StaticEnv) (c : StaticCache) (m : Buf) (file : HiwFile) :
    Option (Bool × StaticCache) :=
  let filenameLength := file.path.length - c.baseDir.length
  match c.memory.get filenameLength none with
  | none => none
  | some (filenameCopy, memory) =>
    -- it is no `NULL`, since the pool is dynamic
    let filenameCopy := filenameCopy.getD 0
    let c := store { c with memory } filenameCopy
      (m.bytes (file.path.begin + c.baseDir.length) filenameLength)
    match env.fopen (cStringAt m file.path.begin) with
    | none => some (false, c)
    | some contents =>
      let size := contents.val.length
      match c.memory.get size none with
      | none => none
      | some (none, memory) => some (false, { c with memory, opened := c.opened + 1 })
      | some (some buf, memory) =>
        let c := { c with memory }
        -- `fread` of an element of size 0 reads none
        if size = 0 then some (false, { c with opened := c.opened + 1 })
        else some (put env (c.store buf contents) ⟨filenameCopy, filenameLength⟩ buf size)

/-- `file_found` -/
def fileFound (env : StaticEnv) (m : Buf) (file : HiwFile) (c : Option StaticCache) :
    Bool × Option StaticCache :=
  (true, c.bind fun c => (c.add env m file).map Prod.snd)

/-- The capacity of the pool. -/
def cacheSize : ℕ := 64 * 1024

/-- The cache in front of the traversal. -/
def empty (env : StaticEnv) (baseDir : Bytes) (ptr : ℕ) (block : Buf) : StaticCache where
  baseDir := baseDir
  memory := ⟨⟨0, cacheSize, cacheSize⟩, ptr, block, []⟩
  content := []
  capacity := if env.malloc then cacheContentCapacity else 0
  reallocs := 0
  opened := 0
  stores := []

/-- `static_cache_init`, with the block of the pool, and the contents `path` of the buffer of the
traversal; a failure releases the cache. -/
def init (env : StaticEnv) (baseDir : Bytes) (ptr : ℕ) (block path : Buf) :
    Option (Bool × StaticCache) :=
  let (err, s) := HiwFile.traverse env.opendir (fileFound env) baseDir path
    (some (empty env baseDir ptr block))
  s.userdata.map fun c => (decide (err = .success), c)

/-! ### What is expected -/

/-- A file as it is in the cache. -/
structure Cached where
  uri : Bytes
  mimeType : Bytes
  body : Bytes
  deriving DecidableEq

/-- The type of a file by its name. -/
def mimetypeOf (name : Bytes) : Bytes :=
  mimetypeFromFilename (Buf.write (fun _ => 0) 0 name) ⟨0, name.length⟩

/-- What is cached of a file: nothing, if it cannot be opened or is empty. -/
def cachedOf (env : StaticEnv) (baseDir path : Bytes) : Option Cached :=
  match env.fopen path with
  | none => none
  | some contents =>
    if contents.val = [] then none
    else some ⟨path.drop baseDir.length, mimetypeOf (path.drop baseDir.length), contents⟩

/-- The room that a file takes: for its uri, and for its contents if it can be opened. -/
def space (env : StaticEnv) (baseDir path : Bytes) : ℕ :=
  (path.length - baseDir.length) + ((env.fopen path).map fun contents => contents.val.length).getD 0

/-- The file can be opened, and is empty. -/
def IsEmpty (env : StaticEnv) (path : Bytes) : Prop :=
  (env.fopen path).map Subtype.val = some []

instance (env : StaticEnv) : DecidablePred (IsEmpty env) :=
  fun _ => inferInstanceAs (Decidable (_ = _))

section

variable {env : StaticEnv} {baseDir path : Bytes} {contents : Contents}

theorem space_of_none (h : env.fopen path = none) :
    space env baseDir path = path.length - baseDir.length := by
  rw [space, h]
  rfl

theorem space_of_some (h : env.fopen path = some contents) :
    space env baseDir path = path.length - baseDir.length + contents.val.length := by
  rw [space, h]
  rfl

theorem isEmpty_iff (h : env.fopen path = some contents) :
    IsEmpty env path ↔ contents.val = [] := by
  rw [IsEmpty, h, Option.map_some, Option.some.injEq]

theorem not_isEmpty_of_none (h : env.fopen path = none) : ¬ IsEmpty env path := by
  rw [IsEmpty, h]
  exact Option.some_ne_none _ ∘ Eq.symm

theorem cachedOf_of_none (h : env.fopen path = none) : cachedOf env baseDir path = none := by
  rw [cachedOf, h]

theorem cachedOf_of_some (h : env.fopen path = some contents) : cachedOf env baseDir path =
    if contents.val = [] then none
    else some ⟨path.drop baseDir.length, mimetypeOf (path.drop baseDir.length), contents⟩ := by
  rw [cachedOf, h]

end

/-- What the cache has of its files. -/
def view (c : StaticCache) : List Cached :=
  c.content.map fun e =>
    ⟨e.uri.reads c.memory.block, e.mimeType, c.memory.block.bytes e.memory e.length⟩

/-! ### One file -/

/-- What holds of a cache between its files. -/
structure Inv (c : StaticCache) : Prop where
  dynamic : 0 < c.memory.memory.resizeBytes
  stop : c.memory.memory.stop = cacheSize
  uri : ∀ e ∈ c.content, e.uri.begin + e.uri.length ≤ c.memory.memory.pos
  body : ∀ e ∈ c.content, e.memory + e.length ≤ c.memory.memory.pos
  stores : ∀ s ∈ c.stores, s.1 + s.2 ≤ c.memory.memory.pos
  /-- The last bytes that were asked for have been stored. -/
  last : c.memory.memory.pos = 0 ∨ ∃ s ∈ c.stores, s.1 + s.2 = c.memory.memory.pos
  capacity : c.content.length ≤ c.capacity
  aligned : c.capacity % cacheContentCapacity = 0

/-- Bytes at the end of the pool. -/
def push (c : StaticCache) (bs : Bytes) : StaticCache :=
  store { c with memory := { c.memory with
    memory := { c.memory.memory with pos := c.memory.memory.pos + bs.length } } }
    c.memory.memory.pos bs

section

variable {env : StaticEnv} {c c' : StaticCache} {m : Buf} {file : HiwFile} {uri path bs : Bytes}
  {b : Bool}

theorem push_pos (c : StaticCache) (bs : Bytes) :
    (c.push bs).memory.memory.pos = c.memory.memory.pos + bs.length := rfl

theorem Inv.push (h : c.Inv) (bs : Bytes) : (c.push bs).Inv where
  dynamic := h.dynamic
  stop := h.stop
  uri := fun e he => Nat.le_trans (h.uri e he) (Nat.le_add_right _ _)
  body := fun e he => Nat.le_trans (h.body e he) (Nat.le_add_right _ _)
  stores := fun s hs => by
    rcases List.mem_append.1 hs with hs | hs
    · exact Nat.le_trans (h.stores s hs) (Nat.le_add_right _ _)
    · obtain rfl := List.mem_singleton.1 hs
      exact Nat.le_refl _
  last := .inr ⟨(c.memory.memory.pos, bs.length),
    List.mem_append_right _ (List.mem_singleton_self _), rfl⟩
  capacity := h.capacity
  aligned := h.aligned

theorem Inv.view_push (h : c.Inv) (bs : Bytes) : (c.push bs).view = c.view := by
  refine List.map_congr_left fun e he => ?_
  have huri : e.uri.reads (c.push bs).memory.block = e.uri.reads c.memory.block :=
    Buf.bytes_write_of_le (h.uri e he)
  have hbody : (c.push bs).memory.block.bytes e.memory e.length =
      c.memory.block.bytes e.memory e.length := Buf.bytes_write_of_le (h.body e he)
  rw [huri, hbody]

theorem bytes_push (c : StaticCache) (bs : Bytes) :
    (c.push bs).memory.block.bytes c.memory.memory.pos bs.length = bs := Buf.bytes_write

theorem bytes_push_of_le {o n : ℕ} (h : o + n ≤ c.memory.memory.pos) :
    (c.push bs).memory.block.bytes o n = c.memory.block.bytes o n := Buf.bytes_write_of_le h

/-- A dynamic pool answers as long as its size is an `int`. -/
theorem get_cases {p : HiwPool} (hr : 0 < p.memory.resizeBytes) (n : ℕ) :
    (p.get n none = none ∧ 2 ^ 31 ≤ p.memory.pos + n) ∨
      p.get n none = some (some p.memory.pos,
        { p with memory := { p.memory with pos := p.memory.pos + n } }) := by
  cases hget : p.get n none with
  | none =>
    refine .inl ⟨rfl, ?_⟩
    by_contra hlt
    have hdis : p.memory.resizeEnabled = false := decide_eq_false (by omega)
    have hsize : ¬ 2 ^ 31 ≤ p.memory.size + n := hlt
    unfold HiwPool.get HiwPool.resize at hget
    simp only [hdis, Bool.not_false, if_true, hsize, if_false, Option.map_some] at hget
    split_ifs at hget
  | some r =>
    obtain ⟨o, p'⟩ := r
    obtain ⟨rfl, rfl⟩ := HiwPool.get_dynamic hr hget
    exact .inr rfl

theorem mimetypeFromFilename_congr {m m' : Buf} {s s' : HiwString}
    (h : s.reads m = s'.reads m') : mimetypeFromFilename m s = mimetypeFromFilename m' s' := by
  by_cases hends : ∃ p ∈ registered, p.1 <:+ s.reads m
  · obtain ⟨p, hp, hend⟩ := hends
    rw [mimetypeFromFilename_of_suffix hp hend, mimetypeFromFilename_of_suffix hp (h ▸ hend)]
  · have hnot : ∀ p ∈ registered, ¬ p.1 <:+ s.reads m := fun p hp hend => hends ⟨p, hp, hend⟩
    rw [mimetypeFromFilename_of_forall_not hnot, mimetypeFromFilename_of_forall_not (h ▸ hnot)]

theorem mimetypeOf_eq {m : Buf} {s : HiwString} (h : s.reads m = uri) :
    mimetypeFromFilename m s = mimetypeOf uri := by
  refine mimetypeFromFilename_congr (h.trans ?_)
  exact (Buf.bytes_write).symm

/-- The cache when the name of a file is copied. -/
def named (c : StaticCache) (m : Buf) (file : HiwFile) : StaticCache :=
  c.push (m.bytes (file.path.begin + c.baseDir.length) (file.path.length - c.baseDir.length))

/-- What comes behind that. -/
def read (env : StaticEnv) (c : StaticCache) (uri : HiwString) : Option Contents →
    Bool × StaticCache
  | none => (false, c)
  | some contents =>
    if contents.val.length = 0 then (false, { c with opened := c.opened + 1 })
    else put env (c.push contents) uri c.memory.memory.pos contents.val.length

/-- `static_cache_add` on a dynamic pool: it has no result only if the size of the pool is not an
`int` any more. -/
theorem add_cases (env : StaticEnv) (h : c.Inv) (m : Buf) (file : HiwFile) :
    (c.add env m file = none ∧ 2 ^ 31 ≤ c.memory.memory.pos +
      (file.path.length - c.baseDir.length) +
      ((env.fopen (cStringAt m file.path.begin)).map fun contents => contents.val.length).getD 0) ∨
    c.add env m file = some (read env (c.named m file)
      ⟨c.memory.memory.pos, file.path.length - c.baseDir.length⟩
      (env.fopen (cStringAt m file.path.begin))) := by
  have hname : (m.bytes (file.path.begin + c.baseDir.length)
      (file.path.length - c.baseDir.length)).length = file.path.length - c.baseDir.length :=
    Buf.length_bytes
  rcases get_cases h.dynamic (file.path.length - c.baseDir.length) with ⟨hget, hbig⟩ | hget
  · refine .inl ⟨by rw [add, hget], Nat.le_trans hbig (Nat.le_add_right _ _)⟩
  have hpos : (c.named m file).memory.memory.pos =
      c.memory.memory.pos + (file.path.length - c.baseDir.length) := by
    rw [named, push_pos, hname]
  have hnamed : store { c with memory := { c.memory with memory := { c.memory.memory with
        pos := c.memory.memory.pos + (file.path.length - c.baseDir.length) } } }
      c.memory.memory.pos (m.bytes (file.path.begin + c.baseDir.length)
        (file.path.length - c.baseDir.length)) = c.named m file := by
    rw [named, push, hname]
  simp only [add, hget, Option.getD_some, hnamed]
  cases hopen : env.fopen (cStringAt m file.path.begin) with
  | none => exact .inr rfl
  | some contents =>
    simp only [Option.map_some, Option.getD_some]
    have hdyn : 0 < (c.named m file).memory.memory.resizeBytes := (h.push _).dynamic
    rcases get_cases hdyn contents.val.length with ⟨hget', hbig⟩ | hget'
    · refine .inl ⟨by rw [hget'], ?_⟩
      rwa [hpos] at hbig
    · refine .inr ?_
      rw [hget']
      simp only [read]
      split_ifs with hzero
      · rw [hzero]
        rfl
      · rfl

theorem put_spec (env : StaticEnv) (h : c.Inv) {u : HiwString} {o n : ℕ}
    (huri : u.begin + u.length ≤ c.memory.memory.pos) (hbody : o + n ≤ c.memory.memory.pos) :
    (put env c u o n).2.Inv ∧ (put env c u o n).2.memory = c.memory ∧
      (put env c u o n).2.stores = c.stores ∧ (put env c u o n).2.baseDir = c.baseDir ∧
      (put env c u o n).2.opened = c.opened ∧
      ((∀ k, env.realloc k = true) → (put env c u o n).2.view = c.view ++
        [⟨u.reads c.memory.block, mimetypeFromFilename c.memory.block u,
          c.memory.block.bytes o n⟩]) := by
  have hcapacity := h.capacity
  have haligned := h.aligned
  have huris : ∀ e ∈ c.content ++ [⟨u, mimetypeFromFilename c.memory.block u, o, n⟩],
      e.uri.begin + e.uri.length ≤ c.memory.memory.pos := by
    intro e he
    rcases List.mem_append.1 he with he | he
    · exact h.uri e he
    · obtain rfl := List.mem_singleton.1 he
      exact huri
  have hbodies : ∀ e ∈ c.content ++ [⟨u, mimetypeFromFilename c.memory.block u, o, n⟩],
      e.memory + e.length ≤ c.memory.memory.pos := by
    intro e he
    rcases List.mem_append.1 he with he | he
    · exact h.body e he
    · obtain rfl := List.mem_singleton.1 he
      exact hbody
  unfold put
  simp only
  split_ifs with hfull hrealloc
  · refine ⟨⟨h.dynamic, h.stop, huris, hbodies, h.stores, h.last, ?_, ?_⟩, rfl, rfl, rfl, rfl,
      fun _ => by simp [view]⟩
    · simp only [List.length_append, List.length_singleton, cacheContentCapacity]
      omega
    · simp only [cacheContentCapacity] at hfull ⊢
      omega
  · exact ⟨⟨h.dynamic, h.stop, h.uri, h.body, h.stores, h.last, hcapacity, haligned⟩, rfl, rfl, rfl,
      rfl, fun hall => absurd (hall _) hrealloc⟩
  · refine ⟨⟨h.dynamic, h.stop, huris, hbodies, h.stores, h.last, ?_, haligned⟩, rfl, rfl, rfl, rfl,
      fun _ => by simp [view]⟩
    -- between two calls of `realloc` there is room
    simp only [List.length_append, List.length_singleton, cacheContentCapacity] at hfull haligned ⊢
    omega

/-- What the callback is given for the file at `path`. -/
structure Given (c : StaticCache) (m : Buf) (file : HiwFile) (path : Bytes) : Prop where
  opens : cStringAt m file.path.begin = path
  length : file.path.length = path.length
  name : m.bytes (file.path.begin + c.baseDir.length) (file.path.length - c.baseDir.length) =
    path.drop c.baseDir.length

/-- What one file does to the cache. -/
structure Added (env : StaticEnv) (path : Bytes) (c c' : StaticCache) : Prop where
  inv : c'.Inv
  baseDir : c'.baseDir = c.baseDir
  pos : c'.memory.memory.pos = c.memory.memory.pos + space env c.baseDir path
  opened : c'.opened = c.opened + (if IsEmpty env path then 1 else 0)
  view : (∀ k, env.realloc k = true) →
    c'.view = c.view ++ (cachedOf env c.baseDir path).toList

/-- **One file.**  It takes its room, and what is in the cache stays. -/
theorem added_of_add (h : c.Inv) (hgiven : c.Given m file path)
    (hadd : c.add env m file = some (b, c')) : Added env path c c' := by
  rcases add_cases env h m file with ⟨hnone, -⟩ | hsome
  · rw [hnone] at hadd
    cases hadd
  rw [hsome, hgiven.opens, Option.some.injEq, named, hgiven.name, hgiven.length] at hadd
  -- the name is in the pool
  have hn := h.push (path.drop c.baseDir.length)
  have hpos := push_pos c (path.drop c.baseDir.length)
  have hview := h.view_push (path.drop c.baseDir.length)
  have hbytes := bytes_push c (path.drop c.baseDir.length)
  rw [List.length_drop] at hpos hbytes
  have hbase : (c.push (path.drop c.baseDir.length)).baseDir = c.baseDir := rfl
  have hopened : (c.push (path.drop c.baseDir.length)).opened = c.opened := rfl
  generalize c.push (path.drop c.baseDir.length) = n at hn hpos hview hbytes hadd hbase hopened
  rcases Option.eq_none_or_eq_some (env.fopen path) with hopen | ⟨contents, hopen⟩
  · rw [hopen] at hadd
    obtain ⟨-, rfl⟩ := Prod.mk.inj hadd
    refine ⟨hn, hbase, by rw [hpos, space_of_none hopen], ?_, fun _ => ?_⟩
    · rw [hopened, if_neg (not_isEmpty_of_none hopen), Nat.add_zero]
    · rw [hview, cachedOf_of_none hopen, Option.toList_none, List.append_nil]
  rw [hopen] at hadd
  simp only [read] at hadd
  split_ifs at hadd with hzero
  · obtain ⟨-, rfl⟩ := Prod.mk.inj hadd
    have hnil : contents.val = [] := List.length_eq_zero_iff.1 hzero
    refine ⟨⟨hn.dynamic, hn.stop, hn.uri, hn.body, hn.stores, hn.last, hn.capacity, hn.aligned⟩,
      hbase, ?_, ?_, fun _ => ?_⟩
    · rw [space_of_some hopen, hzero, Nat.add_zero]
      exact hpos
    · rw [if_pos ((isEmpty_iff hopen).2 hnil)]
      exact congrArg (· + 1) hopened
    · rw [cachedOf_of_some hopen, if_pos hnil, Option.toList_none, List.append_nil]
      exact hview
  · have hne : contents.val ≠ [] := fun hnil => hzero (by rw [hnil]; rfl)
    -- the contents are put behind the name
    have hp := hn.push contents
    have hpos' := push_pos n contents
    have hbody := bytes_push n contents
    have hreads : HiwString.reads (n.push contents).memory.block
        ⟨c.memory.memory.pos, path.length - c.baseDir.length⟩ = path.drop c.baseDir.length :=
      (bytes_push_of_le (by rw [hpos])).trans hbytes
    obtain ⟨hinv, hmem, -, hbase', hopened', hput⟩ := put_spec env hp
      (u := ⟨c.memory.memory.pos, path.length - c.baseDir.length⟩)
      (o := n.memory.memory.pos) (n := contents.val.length)
      (by rw [hpos', hpos]; exact Nat.le_add_right _ _) (by rw [hpos'])
    rw [hadd] at hinv hmem hbase' hopened' hput
    refine ⟨hinv, hbase'.trans hbase, ?_, ?_, fun hall => ?_⟩
    · rw [hmem, hpos', hpos, space_of_some hopen, Nat.add_assoc]
    · rw [hopened', if_neg fun hempty => hne ((isEmpty_iff hopen).1 hempty), Nat.add_zero]
      exact hopened
    · rw [hput hall, hn.view_push, hview, cachedOf_of_some hopen, if_neg hne, hreads, hbody,
        mimetypeOf_eq hreads, Option.toList_some]

theorem isSome_add (env : StaticEnv) (h : c.Inv) (hgiven : c.Given m file path)
    (hspace : c.memory.memory.pos + space env c.baseDir path < 2 ^ 31) :
    ∃ r, c.add env m file = some r := by
  rcases add_cases env h m file with ⟨-, hbig⟩ | hsome
  · rw [hgiven.opens, hgiven.length, Nat.add_assoc] at hbig
    exact absurd hspace (Nat.not_lt.2 hbig)
  · exact ⟨_, hsome⟩

end

/-! ### All files -/

end StaticCache

namespace HiwFile

theorem path_of_mem_items {path : Bytes} {entries : Entries} {item : Item} (hpath : 0 ∉ path)
    (h : item ∈ items path entries) : path <+: item.path ∧ 0 ∉ item.path := by
  have hchild : ∀ name : CString, path <+: child path name ∧ 0 ∉ child path name :=
    fun name => ⟨List.prefix_append _ _, not_mem_child hpath name⟩
  induction entries generalizing path with
  | nil => exact absurd h List.not_mem_nil
  | dots _ _ rest ih => exact ih hpath h hchild
  | file name _ _ rest ih =>
    rcases List.mem_cons.1 h with rfl | h
    · exact hchild name
    · exact ih hpath h hchild
  | locked name _ rest ih =>
    rcases List.mem_cons.1 h with rfl | h
    · exact hchild name
    · exact ih hpath h hchild
  | dir name _ contents rest ihcontents ihrest =>
    rcases List.mem_append.1 h with h | h
    · rcases List.mem_cons.1 h with rfl | h
      · exact hchild name
      -- the directory below begins with the one above it
      · obtain ⟨hbelow, hnul⟩ := ihcontents (hchild name).2 h
          fun n => ⟨List.prefix_append _ _, not_mem_child (hchild name).2 n⟩
        exact ⟨(hchild name).1.trans hbelow, hnul⟩
    · exact ihrest hpath h hchild

/-- The paths of the files of a tree. -/
def filePaths (root : Bytes) (entries : Entries) : List Bytes :=
  (files (tree root root (some entries))).map Item.path

theorem path_of_mem_filePaths {root path : Bytes} {entries : Entries} (hroot : 0 ∉ root)
    (h : path ∈ filePaths root entries) : root <+: path ∧ 0 ∉ path := by
  obtain ⟨item, hitem, rfl⟩ := List.mem_map.1 h
  have hmem : item ∈ items root entries := by
    rw [tree, files_cons_dir (by simp)] at hitem
    exact List.mem_of_mem_filter hitem
  exact path_of_mem_items hroot hmem

end HiwFile

namespace StaticCache

open HiwFile

/-- The room that files take. -/
def spaces (env : StaticEnv) (baseDir : Bytes) (paths : List Bytes) : ℕ :=
  (paths.map (space env baseDir)).sum

/-- What files, one after the other, do to the cache. -/
structure Grown (env : StaticEnv) (paths : List Bytes) (c c' : StaticCache) : Prop where
  inv : c'.Inv
  baseDir : c'.baseDir = c.baseDir
  pos : c'.memory.memory.pos = c.memory.memory.pos + spaces env c.baseDir paths
  opened : c'.opened = c.opened + paths.countP fun path => IsEmpty env path
  view : (∀ k, env.realloc k = true) →
    c'.view = c.view ++ paths.filterMap (cachedOf env c.baseDir)

section

variable {env : StaticEnv} {c c' c'' : StaticCache} {path : Bytes} {paths : List Bytes}
  {baseDir : Bytes}

@[simp] theorem spaces_nil : spaces env baseDir [] = 0 := rfl

@[simp] theorem spaces_cons : spaces env baseDir (path :: paths) =
    space env baseDir path + spaces env baseDir paths := by
  rw [spaces, List.map_cons, List.sum_cons, spaces]

theorem Grown.nil (h : c.Inv) : Grown env [] c c :=
  ⟨h, rfl, rfl, rfl, fun _ => (List.append_nil _).symm⟩

theorem Grown.cons (h : Added env path c c') (h' : Grown env paths c' c'') :
    Grown env (path :: paths) c c'' := by
  obtain ⟨-, hbase, hpos, hopened, hview⟩ := h
  obtain ⟨hinv, hbase', hpos', hopened', hview'⟩ := h'
  refine ⟨hinv, hbase'.trans hbase, ?_, ?_, fun hall => ?_⟩
  · rw [hpos', hpos, hbase, spaces_cons, Nat.add_assoc]
  · rw [hopened', hopened, List.countP_cons]
    simp only [decide_eq_true_eq]
    omega
  · rw [hview' hall, hview hall, hbase, List.append_assoc, List.filterMap_cons]
    cases cachedOf env c.baseDir path <;> rfl

theorem eq_none_of_answered {calls : List HiwFile.Call} {u : Option StaticCache}
    (h : Answered (fileFound env) none calls u) : u = none := by
  induction calls with
  | nil => exact h.symm
  | cons _ _ ih => exact ih h.2

theorem Given.of_exact {item : Item} {call : HiwFile.Call} (h : Exact item call)
    (hbase : c.baseDir <+: item.path) (hnul : 0 ∉ item.path) :
    c.Given call.buffer call.file item.path := by
  have hlen : call.file.path.length = item.path.length := by
    rw [← h.path, HiwString.length_reads]
  have hinside := h.inside
  refine ⟨?_, hlen, ?_⟩
  -- the terminator ends the string
  · have hsplit : hiwMaxPath = call.file.path.length + (hiwMaxPath -
        (call.file.path.length + 1) + 1) := by omega
    have hread : call.buffer.bytes call.file.path.begin call.file.path.length = item.path := h.path
    have hne : ∀ b ∈ item.path, decide (b ≠ 0) = true := by
      intro b hb
      exact decide_eq_true fun hzero => hnul (hzero ▸ hb)
    rw [cStringAt, hsplit, Buf.bytes_add, hread, Buf.bytes_succ, h.terminated,
      List.takeWhile_append_of_pos hne, List.takeWhile_cons_of_neg (by simp), List.append_nil]
  · have hle := hbase.length_le
    rw [← Buf.drop_bytes (by omega)]
    exact congrArg (List.drop c.baseDir.length) h.path

/-- **All files.**  The calls of `file_found` for them have a result if the room that they take is
an `int`. -/
theorem grown_of_calls {items : List Item} {calls : List HiwFile.Call} {u : Option StaticCache}
    (hexact : List.Forall₂ Exact items calls)
    (hpaths : ∀ item ∈ items, c.baseDir <+: item.path ∧ 0 ∉ item.path)
    (hans : Answered (fileFound env) (some c) calls u) (h : c.Inv) :
    (u = none ∧ 2 ^ 31 ≤ c.memory.memory.pos + spaces env c.baseDir (items.map Item.path)) ∨
      ∃ c', u = some c' ∧ Grown env (items.map Item.path) c c' := by
  induction hexact generalizing c with
  | nil => exact .inr ⟨c, hans.symm, .nil h⟩
  | @cons item call items calls hitem _ ih =>
    obtain ⟨⟨hbase, hnul⟩, hrest⟩ := List.forall_mem_cons.1 hpaths
    have hgiven := Given.of_exact hitem hbase hnul
    have hans := hans.2
    rw [List.map_cons, spaces_cons]
    cases hadd : c.add env call.buffer call.file with
    | none =>
      have hu : Answered (fileFound env) none calls u := by
        simpa [fileFound, hadd] using hans
      refine .inl ⟨eq_none_of_answered hu, ?_⟩
      by_contra hlt
      obtain ⟨r, hr⟩ := isSome_add env h hgiven (by omega)
      rw [hr] at hadd
      cases hadd
    | some r =>
      obtain ⟨b, c₁⟩ := r
      have hadded := added_of_add h hgiven hadd
      have hu : Answered (fileFound env) (some c₁) calls u := by
        simpa [fileFound, hadd] using hans
      have hcase := ih (hadded.baseDir ▸ hrest) hu hadded.inv
      rw [hadded.baseDir, hadded.pos, Nat.add_assoc] at hcase
      rcases hcase with ⟨hnone, hbig⟩ | ⟨c', hc', hgrown⟩
      · exact .inl ⟨hnone, hbig⟩
      · exact .inr ⟨c', hc', .cons hadded hgrown⟩

end

/-! ### The directory -/

/-- All directories of the tree can be opened, and all paths fit into the buffer. -/
structure Readable (env : StaticEnv) (root : CString) (entries : Entries) : Prop where
  mounted : MountedAt env.opendir root (some entries)
  opened : ∀ item ∈ tree root root (some entries), item.kind ≠ .locked
  fits : ∀ item ∈ tree root root (some entries), item.Fits

section

variable {env : StaticEnv} {root : CString} {entries : Entries} {ptr : ℕ} {block path : Buf}

theorem inv_empty (env : StaticEnv) (baseDir : Bytes) (ptr : ℕ) (block : Buf) :
    (empty env baseDir ptr block).Inv where
  dynamic := by simp [empty, cacheSize]
  stop := rfl
  uri := fun _ he => absurd he List.not_mem_nil
  body := fun _ he => absurd he List.not_mem_nil
  stores := fun _ hs => absurd hs List.not_mem_nil
  last := .inl rfl
  capacity := Nat.zero_le _
  aligned := by cases h : env.malloc <;> simp [empty, h]

theorem init_cases (h : Readable env root entries) (ptr : ℕ) (block path : Buf) :
    (init env root ptr block path = none ∧ 2 ^ 31 ≤ spaces env root (filePaths root entries)) ∨
      ∃ c, init env root ptr block path = some (true, c) ∧
        Grown env (filePaths root entries) (empty env root ptr block) c := by
  have hvisits : Visits _ (fileFound env) (some (empty env root ptr block)) _ :=
    traverse_visits root h.mounted h.opened h.fits path _
  unfold init
  generalize HiwFile.traverse env.opendir (fileFound env) root path
    (some (empty env root ptr block)) = r at hvisits
  obtain ⟨err, s⟩ := r
  obtain ⟨hcalls, hans, hresult⟩ := hvisits
  have htrue := hans.all fun _ _ _ => rfl
  -- the callback never aborts the traversal
  rcases hresult with ⟨-, calls, c, hlast, hfalse, -⟩ | ⟨herr, hlen, -⟩
  · rw [htrue c (hlast ▸ List.mem_append_right _ (List.mem_singleton_self c))] at hfalse
    cases hfalse
  · simp only at hcalls hans hlen herr
    rw [hlen, List.take_length] at hcalls
    have hpaths : ∀ item ∈ files (tree root.val root.val (some entries)),
        root.val <+: item.path ∧ 0 ∉ item.path := fun item hitem =>
      path_of_mem_filePaths root.property (List.mem_map_of_mem hitem)
    rcases grown_of_calls hcalls hpaths hans (inv_empty env root ptr block) with
      ⟨hu, hbig⟩ | ⟨c, hu, hgrown⟩
    · refine .inl ⟨by simp only [hu]; rfl, ?_⟩
      have hzero : (empty env root ptr block).memory.memory.pos = 0 := rfl
      rwa [hzero, Nat.zero_add] at hbig
    · exact .inr ⟨c, by simp only [hu, herr]; rfl, hgrown⟩

/-- **When the pool is not left.**  Whatever `malloc` and `realloc` answer, exactly if the names and
the contents of all files together fit into it. -/
theorem init_safe (h : Readable env root entries) (ptr : ℕ) (block path : Buf) :
    (∃ c, init env root ptr block path = some (true, c) ∧
      (∀ s ∈ c.stores, s.1 + s.2 ≤ cacheSize) ∧ c.content.length ≤ c.capacity) ↔
    spaces env root (filePaths root entries) ≤ cacheSize := by
  have hsize : cacheSize < 2 ^ 31 := by decide
  have hstart : (empty env root ptr block).memory.memory.pos = 0 := rfl
  have hbase : (empty env root ptr block).baseDir = root := rfl
  constructor
  · rintro ⟨c, hinit, hstores, -⟩
    rcases init_cases h ptr block path with ⟨hnone, -⟩ | ⟨c', hsome, hgrown⟩
    · rw [hnone] at hinit
      cases hinit
    rw [hsome] at hinit
    obtain rfl : c' = c := by simpa using hinit
    have hpos := hgrown.pos
    rw [hstart, Nat.zero_add, hbase] at hpos
    -- the last bytes that were stored end at the cursor
    rcases hgrown.inv.last with hzero | ⟨s, hs, hend⟩
    · rw [← hpos, hzero]
      exact Nat.zero_le _
    · rw [← hpos, ← hend]
      exact hstores s hs
  · intro hle
    rcases init_cases h ptr block path with ⟨-, hbig⟩ | ⟨c, hsome, hgrown⟩
    · exact absurd (Nat.le_trans hbig hle) (Nat.not_le.2 hsize)
    have hpos := hgrown.pos
    rw [hstart, Nat.zero_add, hbase] at hpos
    exact ⟨c, hsome, fun s hs => Nat.le_trans (hgrown.inv.stores s hs) (hpos ▸ hle),
      hgrown.inv.capacity⟩

theorem exists_init (h : Readable env root entries)
    (hle : spaces env root (filePaths root entries) ≤ cacheSize) (ptr : ℕ) (block path : Buf) :
    ∃ c, init env root ptr block path = some (true, c) ∧
      c.opened = (filePaths root entries).countP (fun path => IsEmpty env path) ∧
      ((∀ k, env.realloc k = true) →
        c.view = (filePaths root entries).filterMap (cachedOf env root)) := by
  have hsize : cacheSize < 2 ^ 31 := by decide
  rcases init_cases h ptr block path with ⟨-, hbig⟩ | ⟨c, hsome, hgrown⟩
  · exact absurd (Nat.le_trans hbig hle) (Nat.not_le.2 hsize)
  · exact ⟨c, hsome, hgrown.opened.trans (Nat.zero_add _), hgrown.view⟩

/-- **What is cached.**  If that fits into the pool: each file that can be opened and is not empty,
in the order of the traversal.  An empty file stays open. -/
theorem init_view (h : Readable env root entries) (hrealloc : ∀ k, env.realloc k = true)
    (hle : spaces env root (filePaths root entries) ≤ cacheSize) (ptr : ℕ) (block path : Buf) :
    ∃ c, init env root ptr block path = some (true, c) ∧
      c.view = (filePaths root entries).filterMap (cachedOf env root) ∧
      c.opened = (filePaths root entries).countP fun path => IsEmpty env path := by
  obtain ⟨c, hinit, hopened, hview⟩ := exists_init h hle ptr block path
  exact ⟨c, hinit, hview hrealloc, hopened⟩

end

/-- `f` has two bytes, and `g` none. -/
def twoFilesEnv : StaticEnv where
  opendir := openTwoFiles
  fopen path :=
    if path = child [114, 47, 100] [102] then some ⟨ascii "hi", by decide⟩
    else if path = child [114] [103] then some ⟨[], by decide⟩
    else none
  realloc := fun _ => true
  malloc := true

theorem readable_twoFiles : Readable twoFilesEnv ⟨[114], by decide⟩ twoFiles :=
  ⟨⟨by decide, by decide, trivial, trivial⟩, by decide, by decide⟩

theorem init_safe_twoFiles :
    (∃ c, init twoFilesEnv [114] 0 (fun _ => 0) (fun _ => 255) = some (true, c) ∧
      (∀ s ∈ c.stores, s.1 + s.2 ≤ cacheSize) ∧ c.content.length ≤ c.capacity) ↔
    spaces twoFilesEnv [114] (filePaths [114] twoFiles) ≤ cacheSize :=
  init_safe readable_twoFiles 0 (fun _ => 0) (fun _ => 255)

theorem init_view_twoFiles :
    ∃ c, init twoFilesEnv [114] 0 (fun _ => 0) (fun _ => 255) = some (true, c) ∧
      c.view = [⟨ascii "/d/f", ascii "application/octet-stream", ascii "hi"⟩] ∧ c.opened = 1 :=
  init_view readable_twoFiles (fun _ => rfl) (by decide) 0 (fun _ => 0) (fun _ => 255)

end StaticCache

end Highway
