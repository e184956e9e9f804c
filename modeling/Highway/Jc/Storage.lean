import Highway.Lib.Local
import Highway.Std.String

/-!
# The storage of the JSON server

`json_storage` keeps the contents of files in a cache.  A file is found under the key of a request,
which is made safe before (`secure_path`); the operations hold a mutex, so they come one after the
other.

The operations on one key are a machine of their own, with the cached contents and the file
(`Register`), as long as no two keys have the same path (`JsonStorage.isLocal`).  An operation that
stores new contents writes them to the file, but puts the old contents back into the cache.
-/

namespace Highway

open Lib

/-- What an operation of the storage returns. -/
inductive JsonStorage.Result where
  | value (v : Bytes)
  /-- `std::runtime_error` -/
  | thrown (what : String)
  deriving DecidableEq

/-- `json_storage` with the files of the system. -/
structure JsonStorage where
  mPath : Bytes
  mCache : Bytes → Option Bytes
  /-- What is in the file at a path. -/
  files : Bytes → Option Bytes
  /-- The paths that the system was called with. -/
  touched : List Bytes
  /-- The files that were opened and not closed. -/
  opened : ℕ

namespace JsonStorage

/-- `normalize_path`, for one character -/
def normalizeChar (c : UInt8) : UInt8 :=
  if (97 ≤ c ∧ c ≤ 122) ∨ (65 ≤ c ∧ c ≤ 90) ∨ (48 ≤ c ∧ c ≤ 57) ∨ c = 95 then c else 43

/-- `normalize_path` -/
def normalizePath (relativePath : Bytes) : Bytes :=
  47 :: (relativePath.drop 1).map normalizeChar ++ ascii ".json"

/-- `secure_path` ; `none` for an exception. -/
def securePath (mPath relativePath : Bytes) : Option Bytes :=
  if relativePath.head? ≠ some 47 then none else some (mPath ++ normalizePath relativePath)

/-- The exception of `secure_path`. -/
def invalidPath : Result := .thrown "invalid path"

/-- The size of the largest file that is read. -/
def maxFile : ℕ := 4096 * 1024

/-- The path in the trash. -/
def trash (path : Bytes) : Bytes := path ++ ascii ".trash"

/-- `get_view` ; `opens` says whether the system can open the file, if there is one. -/
def getView (s : JsonStorage) (key defaultValue : Bytes) (opens : Bool) : Result × JsonStorage :=
  match securePath s.mPath key with
  | none => (invalidPath, s)
  | some path =>
    match s.mCache key with
    | some v => (.value v, s)
    | none =>
      let s := { s with touched := s.touched ++ [path] }
      match if opens then s.files path else none with
      | none => (.value defaultValue, s)
      | some data =>
        -- the file stays open
        if data.length > maxFile then
          (.thrown "file is too large", { s with opened := s.opened + 1 })
        else (.value data, { s with mCache := Function.update s.mCache key (some data) })

/-- `add_view` ; `left` is what a string has after it was moved from. -/
def addView (left : Bytes → Bytes) (s : JsonStorage) (key newData : Bytes) (opens : Bool) :
    Result × JsonStorage :=
  match securePath s.mPath key with
  | none => (invalidPath, s)
  | some path =>
    let oldValue := (s.mCache key).getD []
    let s := { s with
      mCache := Function.update s.mCache key none
      touched := s.touched ++ [path] }
    if opens then
      let s := { s with files := Function.update s.files path (some newData) }
      -- the old value, not the new one
      (.value (left oldValue), { s with mCache := Function.update s.mCache key (some oldValue) })
    else (.thrown "could not open resource on disk", s)

/-- `rename` ; `renames` says whether the system can do it, if there is a file. -/
def rename (s : JsonStorage) (path : Bytes) (renames : Bool) : JsonStorage :=
  match if renames then s.files path else none with
  | none => s
  | some v =>
    { s with
      files := Function.update (Function.update s.files (trash path) (some v)) path none }

/-- `remove_view` -/
def removeView (s : JsonStorage) (key : Bytes) (renames : Bool) : Result × JsonStorage :=
  match securePath s.mPath key with
  | none => (invalidPath, s)
  | some path =>
    let oldValue := (s.mCache key).getD []
    let s := { s with mCache := Function.update s.mCache key none }
    if oldValue ≠ [] then
      let s := { s with
        files := Function.update s.files (trash path) none
        touched := s.touched ++ [trash path, path] }
      (.value oldValue, s.rename path renames)
    else (.value oldValue, s)

/-- An operation, with what the system does. -/
inductive Op where
  | get (key defaultValue : Bytes) (opens : Bool)
  | add (key newData : Bytes) (opens : Bool)
  | remove (key : Bytes) (renames : Bool)
  deriving DecidableEq

/-- The key of an operation. -/
def Op.key : Op → Bytes
  | .get key _ _ => key
  | .add key _ _ => key
  | .remove key _ => key

/-- One operation. -/
def perform (left : Bytes → Bytes) (s : JsonStorage) : Op → Result × JsonStorage
  | .get key defaultValue opens => s.getView key defaultValue opens
  | .add key newData opens => s.addView left key newData opens
  | .remove key renames => s.removeView key renames

/-- A storage that has just been made. -/
def new (mPath : Bytes) (files : Bytes → Option Bytes) : JsonStorage :=
  ⟨mPath, fun _ => none, files, [], 0⟩

end JsonStorage

/-! ### One key -/

/-- What there is for one key. -/
structure Register where
  cached : Option Bytes
  file : Option Bytes
  deriving DecidableEq

namespace Register

open JsonStorage

/-- An operation on the key. -/
def step (left : Bytes → Bytes) (e : Register) : Op → Result × Register
  | .get _ defaultValue opens =>
    match e.cached, if opens then e.file else none with
    | some v, _ => (.value v, e)
    | none, none => (.value defaultValue, e)
    | none, some data =>
      if data.length > maxFile then (.thrown "file is too large", e)
      else (.value data, { e with cached := some data })
  | .add _ newData opens =>
    if opens then (.value (left (e.cached.getD [])), ⟨some (e.cached.getD []), some newData⟩)
    else (.thrown "could not open resource on disk", { e with cached := none })
  | .remove _ renames =>
    (.value (e.cached.getD []),
      ⟨none, if e.cached.getD [] ≠ [] ∧ renames then none else e.file⟩)

end Register

namespace JsonStorage

/-- What the storage has for a key. -/
def register (mPath key : Bytes) (s : JsonStorage) : Register :=
  ⟨s.mCache key, (securePath mPath key).bind s.files⟩

/-- Keys that are valid, and none of which has the path of another one. -/
def Apart (mPath : Bytes) (B : Bytes → Prop) : Prop :=
  (∀ key, B key → (securePath mPath key).isSome) ∧
    ∀ key key', B key → B key' → securePath mPath key = securePath mPath key' → key = key'

variable {s : JsonStorage} {left : Bytes → Bytes} {key key' path path' : Bytes} {op : Op}
  {B : Bytes → Prop}

theorem securePath_eq_some (h : securePath s.mPath key = some path) :
    path = s.mPath ++ normalizePath key := by
  unfold securePath at h
  split_ifs at h
  exact (Option.some.inj h).symm

theorem trash_ne (h : securePath s.mPath key = some path) (path' : Bytes) : trash path' ≠ path := by
  rw [securePath_eq_some h, trash, normalizePath]
  intro heq
  have hlast := congrArg List.getLast? heq
  rw [List.getLast?_append_of_ne_nil _ (by decide), List.getLast?_append_of_ne_nil _ (by simp),
    List.getLast?_append_of_ne_nil _ (by decide)] at hlast
  exact absurd hlast (by decide)

theorem files_rename (h : trash path ≠ path') (renames : Bool) :
    (s.rename path renames).files path' =
      if path' = path ∧ renames then none else s.files path' := by
  unfold rename
  by_cases hr : renames
  · cases hfile : s.files path with
    | none =>
      simp only [hr, if_true, and_true]
      split_ifs with hp
      · rw [hp, hfile]
      · rfl
    | some v => simp only [hr, if_true, and_true, Function.update_apply, if_neg (Ne.symm h)]
  · simp [hr]

@[simp] theorem mCache_rename (renames : Bool) : (s.rename path renames).mCache = s.mCache := by
  unfold rename
  split <;> rfl

@[simp] theorem mPath_rename (renames : Bool) : (s.rename path renames).mPath = s.mPath := by
  unfold rename
  split <;> rfl

theorem mPath_perform (left : Bytes → Bytes) (s : JsonStorage) (op : Op) :
    (s.perform left op).2.mPath = s.mPath := by
  cases op with
  | get key defaultValue opens =>
    simp only [perform, getView]
    repeat' split
    all_goals rfl
  | add key newData opens =>
    simp only [perform, addView]
    repeat' split
    all_goals rfl
  | remove key renames =>
    simp only [perform, removeView]
    repeat' split
    all_goals simp

/-! ### What one operation does -/

theorem register_perform (left : Bytes → Bytes) (h : (securePath s.mPath op.key).isSome) :
    (s.perform left op).1 = ((register s.mPath op.key s).step left op).1 ∧
      register s.mPath op.key (s.perform left op).2 =
        ((register s.mPath op.key s).step left op).2 := by
  obtain ⟨path, hpath⟩ := Option.isSome_iff_exists.1 h
  cases op with
  | get key defaultValue opens =>
    rw [Op.key] at hpath
    simp only [perform, getView, Op.key, register, Register.step, hpath, Option.bind_some]
    cases hcached : s.mCache key with
    | some v => simp [hcached]
    | none =>
      cases hfile : if opens then s.files path else none with
      | none => simp [hcached]
      | some data => by_cases hlarge : data.length > maxFile <;> simp [hlarge, hcached]
  | add key newData opens =>
    rw [Op.key] at hpath
    simp only [perform, addView, Op.key, register, Register.step, hpath, Option.bind_some]
    cases opens <;> simp
  | remove key renames =>
    rw [Op.key] at hpath
    have htrash := trash_ne hpath path
    simp only [perform, removeView, Op.key, register, Register.step, hpath, Option.bind_some]
    by_cases hold : (s.mCache key).getD [] = []
    · simp [hold]
    · simp [hold, files_rename htrash, Function.update_of_ne (Ne.symm htrash)]

theorem register_perform_of_ne (left : Bytes → Bytes)
    (hpath : (securePath s.mPath key).isSome) (hkey : key ≠ op.key)
    (hne : securePath s.mPath key ≠ securePath s.mPath op.key) :
    register s.mPath key (s.perform left op).2 = register s.mPath key s := by
  obtain ⟨path, hpath⟩ := Option.isSome_iff_exists.1 hpath
  rw [hpath] at hne
  simp only [register, hpath, Option.bind_some]
  cases op with
  | get key' defaultValue opens =>
    rw [Op.key] at hkey
    simp only [perform, getView]
    split
    · rfl
    · split
      · rfl
      · split
        · rfl
        · split_ifs
          · rfl
          · simp only [Function.update_of_ne hkey]
  | add key' newData opens =>
    rw [Op.key] at hkey hne
    simp only [perform, addView]
    split
    · rfl
    · rename_i path' hpath'
      have hpne : path ≠ path' := fun heq => hne (by rw [hpath', heq])
      split_ifs
      · simp only [Function.update_of_ne hkey, Function.update_of_ne hpne]
      · simp only [Function.update_of_ne hkey]
  | remove key' renames =>
    rw [Op.key] at hkey hne
    simp only [perform, removeView]
    split
    · rfl
    · rename_i path' hpath'
      have hpne : path ≠ path' := fun heq => hne (by rw [hpath', heq])
      have htrash := trash_ne hpath path'
      split_ifs
      · rw [mCache_rename, files_rename htrash, if_neg (fun h => hpne h.1)]
        simp only [Function.update_of_ne hkey, Function.update_of_ne (Ne.symm htrash)]
      · simp only [Function.update_of_ne hkey]

theorem isLocal {mPath : Bytes} (h : Apart mPath B) (left : Bytes → Bytes) :
    Local (perform left) (Register.step left) (register mPath) Op.key B
      (fun s => s.mPath = mPath) where
  keeps := fun s op hs => (mPath_perform left s op).trans hs
  own := fun s op hs hB => by
    subst hs
    exact register_perform left (h.1 _ hB)
  other := fun s op key hs hB hkey hne => by
    subst hs
    exact register_perform_of_ne left (h.1 _ hkey) hne fun heq => hne (h.2 _ _ hkey hB heq)

/-- **A run of the storage is a run of the registers of its keys.**  What is answered for a key, and
what there is for it behind the run, comes from the operations on this key alone. -/
theorem answers_of_key (h : Apart s.mPath B) {ops : List Op} (hops : ∀ op ∈ ops, B op.key)
    (hkey : B key) :
    ((respond (perform left) s ops).1.filter fun p => decide (p.1.key = key)) =
        (respond (Register.step left) (register s.mPath key s)
          (ops.filter fun op => decide (op.key = key))).1 ∧
      register s.mPath key (respond (perform left) s ops).2 =
        (respond (Register.step left) (register s.mPath key s)
          (ops.filter fun op => decide (op.key = key))).2 :=
  (isLocal h left).respond hops hkey rfl

/-- A key that is not changed when it is made safe. -/
def Plain (key : Bytes) : Prop := key.head? = some 47 ∧ ∀ c ∈ key.drop 1, normalizeChar c = c

instance : DecidablePred Plain := fun _ =>
  @instDecidableAnd _ _ inferInstance (List.decidableBAll _ _)

theorem apart_plain (mPath : Bytes) : Apart mPath Plain := by
  have hpath : ∀ key, Plain key →
      securePath mPath key = some (mPath ++ (key ++ ascii ".json")) := by
    rintro key ⟨hhead, hsafe⟩
    obtain ⟨tail, rfl⟩ : ∃ tail, key = 47 :: tail := by
      cases key with
      | nil => cases hhead
      | cons c tail => exact ⟨tail, by rw [Option.some.inj hhead]⟩
    have hmap : tail.map normalizeChar = tail :=
      (List.map_congr_left (g := id) hsafe).trans (List.map_id tail)
    rw [securePath, if_neg (by simp), normalizePath, List.drop_one, List.tail_cons, hmap]
  refine ⟨fun key hkey => by rw [hpath key hkey]; rfl, fun key key' hkey hkey' heq => ?_⟩
  rw [hpath key hkey, hpath key' hkey', Option.some.injEq] at heq
  exact List.append_cancel_right (List.append_cancel_left heq)

/-- Two keys, one of which is written to. -/
theorem answers_two :
    ((respond (perform fun _ => []) (new (ascii "data") fun _ => none)
        [.add (ascii "/a") (ascii "1") true, .get (ascii "/b") [] true]).1.filter
          fun p => decide (p.1.key = ascii "/b")) =
      (respond (Register.step fun _ => []) ⟨none, none⟩
        ([.add (ascii "/a") (ascii "1") true, .get (ascii "/b") [] true].filter
          fun op => decide (op.key = ascii "/b"))).1 :=
  (answers_of_key (s := new (ascii "data") fun _ => none) (apart_plain _) (by decide)
    (by decide)).1

/-! ### The files -/

/-- The path of a file that the storage may use. -/
def Inside (mPath path : Bytes) : Prop :=
  ∃ stem, (∀ c ∈ stem, normalizeChar c = c) ∧
    (path = mPath ++ 47 :: (stem ++ ascii ".json") ∨
      path = mPath ++ 47 :: (stem ++ ascii ".json.trash"))

theorem normalizeChar_normalizeChar (c : UInt8) :
    normalizeChar (normalizeChar c) = normalizeChar c := by
  by_cases h : (97 ≤ c ∧ c ≤ 122) ∨ (65 ≤ c ∧ c ≤ 90) ∨ (48 ≤ c ∧ c ≤ 57) ∨ c = 95
  · have hc : normalizeChar c = c := if_pos h
    rw [hc, hc]
  · have hc : normalizeChar c = 43 := if_neg h
    rw [hc]
    decide

theorem inside_of_securePath (h : securePath s.mPath key = some path) :
    Inside s.mPath path ∧ Inside s.mPath (trash path) := by
  have hstem : ∀ c ∈ (key.drop 1).map normalizeChar, normalizeChar c = c := by
    intro c hc
    obtain ⟨d, -, rfl⟩ := List.mem_map.1 hc
    exact normalizeChar_normalizeChar d
  rw [securePath_eq_some h]
  refine ⟨⟨_, hstem, .inl rfl⟩, ⟨_, hstem, .inr ?_⟩⟩
  rw [trash, normalizePath, List.append_assoc]
  have hend : ascii ".json.trash" = ascii ".json" ++ ascii ".trash" := by decide
  rw [hend]
  simp

/-- What a run does outside of its directory. -/
structure Confined (s t : JsonStorage) : Prop where
  mPath : t.mPath = s.mPath
  touched : ∀ path ∈ t.touched, path ∈ s.touched ∨ Inside s.mPath path
  files : ∀ path, ¬ Inside s.mPath path → t.files path = s.files path

theorem Confined.touch {t : JsonStorage} (h : Confined s t) (paths : List Bytes)
    (hpaths : ∀ path ∈ paths, Inside s.mPath path) :
    Confined s { t with touched := t.touched ++ paths } := by
  refine ⟨h.mPath, fun path hpath => ?_, h.files⟩
  rcases List.mem_append.1 hpath with hpath | hpath
  · exact h.touched path hpath
  · exact .inr (hpaths path hpath)

theorem Confined.write {t : JsonStorage} (h : Confined s t) (hpath : Inside s.mPath path)
    (v : Option Bytes) : Confined s { t with files := Function.update t.files path v } := by
  refine ⟨h.mPath, h.touched, fun path' hpath' => ?_⟩
  have hne : path' ≠ path := fun heq => hpath' (heq ▸ hpath)
  simp only [Function.update_of_ne hne]
  exact h.files path' hpath'

theorem Confined.step {t : JsonStorage} (h : Confined s t) (left : Bytes → Bytes) (op : Op) :
    Confined s (t.perform left op).2 := by
  have hinside : ∀ {key path : Bytes}, securePath t.mPath key = some path →
      Inside s.mPath path ∧ Inside s.mPath (trash path) := by
    intro key path hpath
    have hin := inside_of_securePath hpath
    rwa [h.mPath] at hin
  cases op with
  | get key defaultValue opens =>
    simp only [perform, getView]
    split
    · exact h
    · rename_i path hpath
      obtain ⟨hin, -⟩ := hinside hpath
      have htouch := h.touch [path] (List.forall_mem_singleton.2 hin)
      split
      · exact h
      · split
        · exact htouch
        · split_ifs <;> exact ⟨htouch.mPath, htouch.touched, htouch.files⟩
  | add key newData opens =>
    simp only [perform, addView]
    split
    · exact h
    · rename_i path hpath
      obtain ⟨hin, -⟩ := hinside hpath
      have htouch := h.touch [path] (List.forall_mem_singleton.2 hin)
      split_ifs
      · have hwrite := htouch.write hin (some newData)
        exact ⟨hwrite.mPath, hwrite.touched, hwrite.files⟩
      · exact ⟨htouch.mPath, htouch.touched, htouch.files⟩
  | remove key renames =>
    simp only [perform, removeView]
    split
    · exact h
    · rename_i path hpath
      obtain ⟨hin, htrash⟩ := hinside hpath
      split_ifs
      · have htouch := (h.touch [trash path, path] (by simp [hin, htrash])).write htrash
          none
        unfold rename
        split
        · exact ⟨htouch.mPath, htouch.touched, htouch.files⟩
        · rename_i v _
          have hmoved := (htouch.write htrash (some v)).write hin none
          exact ⟨hmoved.mPath, hmoved.touched, hmoved.files⟩
      · exact ⟨h.mPath, h.touched, h.files⟩

/-- **The directory is not left.**  Whatever keys are asked for, the system is called with paths of
the directory only, whose names have letters, digits, `_` and `+` in front of the extension; and all
other files stay as they are. -/
theorem confined (left : Bytes → Bytes) (mPath : Bytes) (files : Bytes → Option Bytes)
    (ops : List Op) :
    (∀ path ∈ (respond (perform left) (new mPath files) ops).2.touched, Inside mPath path) ∧
      ∀ path, ¬ Inside mPath path →
        (respond (perform left) (new mPath files) ops).2.files path = files path := by
  have h : Confined (new mPath files) (respond (perform left) (new mPath files) ops).2 :=
    invariant_of_respond (fun _ op _ h => h.step left op)
      ⟨rfl, fun _ hpath => .inl hpath, fun _ _ => rfl⟩
  refine ⟨fun path hpath => ?_, h.files⟩
  exact (h.touched path hpath).resolve_left List.not_mem_nil

end JsonStorage

end Highway
