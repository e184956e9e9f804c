import Highway.Jc.Serve

/-!
# The elements of the cache

`get_view` returns a `string_view` of the element of the cache that it has found, and the mutex is
released before the view is used.  `ElementStorage` is the storage with these elements: they stay
where they are until `remove_view` or `add_view` erases them.

As long as nobody looks at an element that is gone, it is `JsonStorage`
(`ElementStorage.Sound.onRequest`).
-/

namespace Highway

/-- A `string_view`, or a string of its own. -/
inductive StringView where
  | own (v : Bytes)
  /-- The contents of an element of the cache. -/
  | element (a : ℕ)
  deriving DecidableEq

/-- `json_storage`, with the elements of its cache. -/
structure ElementStorage where
  mPath : Bytes
  /-- The element with a key. -/
  mCache : Bytes → Option ℕ
  /-- What an element holds, as long as it is there. -/
  elements : ℕ → Option Bytes
  allocated : ℕ
  files : Bytes → Option Bytes
  touched : List Bytes
  opened : ℕ

namespace ElementStorage

open JsonStorage

/-- What an operation returns. -/
inductive ViewResult where
  | value (v : StringView)
  /-- `std::runtime_error` -/
  | thrown (what : String)
  deriving DecidableEq

/-- What a view shows, if it is still there. -/
def view (s : ElementStorage) : StringView → Option Bytes
  | .own v => some v
  | .element a => s.elements a

/-- `old_value = std::move(it->second)` and `mCache.erase(it)`, if there is an element. -/
def take (s : ElementStorage) (key : Bytes) : Bytes × ElementStorage :=
  match s.mCache key with
  | none => ([], s)
  | some a =>
    ((s.elements a).getD [],
      { s with
        mCache := Function.update s.mCache key none
        elements := Function.update s.elements a none })

/-- `mCache.emplace(key, v)` without an element of the key. -/
def emplace (s : ElementStorage) (key v : Bytes) : ElementStorage :=
  { s with
    mCache := Function.update s.mCache key (some s.allocated)
    elements := Function.update s.elements s.allocated (some v)
    allocated := s.allocated + 1 }

/-- `get_view` -/
def getView (s : ElementStorage) (key defaultValue : Bytes) (opens : Bool) :
    ViewResult × ElementStorage :=
  match securePath s.mPath key with
  | none => (.thrown "invalid path", s)
  | some path =>
    match s.mCache key with
    | some a => (.value (.element a), s)
    | none =>
      let s := { s with touched := s.touched ++ [path] }
      match if opens then s.files path else none with
      | none => (.value (.own defaultValue), s)
      | some data =>
        -- the file stays open
        if data.length > maxFile then
          (.thrown "file is too large", { s with opened := s.opened + 1 })
        else (.value (.element s.allocated), s.emplace key data)

/-- `add_view` ; `left` is what a string has after it was moved from. -/
def addView (left : Bytes → Bytes) (s : ElementStorage) (key newData : Bytes) (opens : Bool) :
    ViewResult × ElementStorage :=
  match securePath s.mPath key with
  | none => (.thrown "invalid path", s)
  | some path =>
    let (oldValue, s) := s.take key
    let s := { s with touched := s.touched ++ [path] }
    if opens then
      let s := { s with files := Function.update s.files path (some newData) }
      (.value (.own (left oldValue)), s.emplace key oldValue)
    else (.thrown "could not open resource on disk", s)

/-- `rename` ; `renames` says whether the system can do it, if there is a file. -/
def rename (s : ElementStorage) (path : Bytes) (renames : Bool) : ElementStorage :=
  match if renames then s.files path else none with
  | none => s
  | some v =>
    { s with
      files := Function.update (Function.update s.files (trash path) (some v)) path none }

/-- `remove_view` -/
def removeView (s : ElementStorage) (key : Bytes) (renames : Bool) : ViewResult × ElementStorage :=
  match securePath s.mPath key with
  | none => (.thrown "invalid path", s)
  | some path =>
    let (oldValue, s) := s.take key
    if oldValue ≠ [] then
      let s := { s with
        files := Function.update s.files (trash path) none
        touched := s.touched ++ [trash path, path] }
      (.value (.own oldValue), s.rename path renames)
    else (.value (.own oldValue), s)

/-- One operation. -/
def perform (left : Bytes → Bytes) (s : ElementStorage) : Op → ViewResult × ElementStorage
  | .get key defaultValue opens => s.getView key defaultValue opens
  | .add key newData opens => s.addView left key newData opens
  | .remove key renames => s.removeView key renames

/-- A response, with what is written as its body. -/
structure Reply where
  statusCode : ℤ
  body : Option StringView
  deriving DecidableEq

/-- `on_request`, in front of its response. -/
def onRequest (left : Bytes → Bytes) (s : ElementStorage) (req : Request) :
    Reply × ElementStorage :=
  if HiwString.cmp req.method (ascii "GET") then
    match s.getView req.uri [] req.opens with
    | (.thrown _, s) => (⟨400, none⟩, s)
    | (.value result, s) =>
      if s.view result = some [] then (⟨404, none⟩, s) else (⟨200, some result⟩, s)
  else if HiwString.cmp req.method (ascii "PUT") then
    if req.contentLength = 0 then (⟨400, none⟩, s)
    -- `resize` throws
    else if req.contentLength < 0 then (⟨400, none⟩, s)
    else
      match s.addView left req.uri req.newData req.opens with
      | (.thrown _, s) => (⟨400, none⟩, s)
      | (.value oldData, s) => (⟨200, some oldData⟩, s)
  else if HiwString.cmp req.method (ascii "DELETE") then
    match s.removeView req.uri req.renames with
    | (.thrown _, s) => (⟨400, none⟩, s)
    | (.value removedData, s) =>
      if s.view removedData = some [] then (⟨404, none⟩, s) else (⟨200, some removedData⟩, s)
  else (⟨404, none⟩, s)

/-- What goes on the wire, if the view is still there. -/
def answerOf (s : ElementStorage) (reply : Reply) : Option Answer :=
  match reply.body with
  | none => some ⟨reply.statusCode, none⟩
  | some v => (s.view v).map fun bs => ⟨reply.statusCode, some bs⟩

/-- The storage, without its elements. -/
def abs (s : ElementStorage) : JsonStorage where
  mPath := s.mPath
  mCache := fun key => (s.mCache key).bind s.elements
  files := s.files
  touched := s.touched
  opened := s.opened

/-- A storage that has just been made. -/
def new (mPath : Bytes) (files : Bytes → Option Bytes) : ElementStorage :=
  ⟨mPath, fun _ => none, fun _ => none, 0, files, [], 0⟩

/-- The cache has an element for each of its keys. -/
structure Sound (s : ElementStorage) : Prop where
  cached : ∀ key, ∀ a ∈ s.mCache key, (s.elements a).isSome
  lt : ∀ a, (s.elements a).isSome → a < s.allocated
  inj : ∀ key key', ∀ a ∈ s.mCache key, a ∈ s.mCache key' → key = key'

variable {s t : ElementStorage} {key v path : Bytes} {left : Bytes → Bytes} {a : ℕ}

theorem sound_new (mPath : Bytes) (files : Bytes → Option Bytes) : (new mPath files).Sound where
  cached := by simp [new]
  lt := by simp [new]
  inj := by simp [new]

/-! ### What an operation does with the elements -/

theorem Sound.take (h : s.Sound) (key : Bytes) :
    (s.take key).2.Sound ∧ (s.take key).1 = (s.abs.mCache key).getD [] ∧
      (s.take key).2.abs = { s.abs with mCache := Function.update s.abs.mCache key none } ∧
      (s.take key).2.mCache key = none := by
  cases hkey : s.mCache key with
  | none =>
    have hsame : s.take key = ([], s) := by simp [ElementStorage.take, hkey]
    have habs : s.abs.mCache key = none := by simp [abs, hkey]
    rw [hsame, habs]
    exact ⟨h, rfl, by rw [Function.update_eq_self_iff.2 habs.symm], hkey⟩
  | some a =>
    have htake : s.take key = ((s.elements a).getD [],
        { s with
          mCache := Function.update s.mCache key none
          elements := Function.update s.elements a none }) := by
      simp [ElementStorage.take, hkey]
    -- no other key has the element
    have hother : ∀ key' ≠ key, ∀ b ∈ s.mCache key', b ≠ a := by
      rintro key' hne b hb rfl
      exact hne (h.inj key' key b hb hkey)
    rw [htake]
    refine ⟨⟨fun key' b hb => ?_, fun b hb => ?_, fun key₁ key₂ b hb hb' => ?_⟩, ?_, ?_,
      Function.update_self ..⟩
    · have hne : key' ≠ key := by
        rintro rfl
        simp at hb
      have hb' : b ∈ s.mCache key' := by simpa [hne] using hb
      simpa [hother key' hne b hb'] using h.cached key' b hb'
    · have hba : b ≠ a := by
        rintro rfl
        simp at hb
      exact h.lt b (by simpa [hba] using hb)
    · have hne₁ : key₁ ≠ key := by
        rintro rfl
        simp at hb
      have hne₂ : key₂ ≠ key := by
        rintro rfl
        simp at hb'
      exact h.inj key₁ key₂ b (by simpa [hne₁] using hb) (by simpa [hne₂] using hb')
    · simp [abs, hkey]
    · simp only [abs, JsonStorage.mk.injEq, true_and, and_true]
      funext key'
      by_cases hne : key' = key
      · subst hne
        simp
      · rw [Function.update_of_ne hne, Function.update_of_ne hne]
        cases hb : s.mCache key' with
        | none => rfl
        | some b => simp [hother key' hne b hb]

theorem Sound.emplace (h : s.Sound) (hnone : s.mCache key = none) (v : Bytes) :
    (s.emplace key v).Sound ∧
      (s.emplace key v).abs =
        { s.abs with mCache := Function.update s.abs.mCache key (some v) } := by
  -- the new element is no old one
  have hnew : ∀ key', s.allocated ∉ s.mCache key' := fun key' ha =>
    Nat.lt_irrefl _ (h.lt _ (h.cached key' _ ha))
  have hother : ∀ key', ∀ b ∈ s.mCache key', b ≠ s.allocated := by
    rintro key' b hb rfl
    exact hnew key' hb
  refine ⟨⟨fun key' b hb => ?_, fun b hb => ?_, fun key₁ key₂ b hb hb' => ?_⟩, ?_⟩
  · by_cases hne : key' = key
    · subst hne
      obtain rfl : s.allocated = b := by simpa [ElementStorage.emplace] using hb
      simp [ElementStorage.emplace]
    · have hb' : b ∈ s.mCache key' := by simpa [ElementStorage.emplace, hne] using hb
      simpa [ElementStorage.emplace, hother key' b hb'] using h.cached key' b hb'
  · by_cases hba : b = s.allocated
    · exact hba ▸ Nat.lt_succ_self _
    · exact Nat.lt_succ_of_lt (h.lt b (by simpa [ElementStorage.emplace, hba] using hb))
  · simp only [ElementStorage.emplace, Function.update_apply] at hb hb'
    split_ifs at hb hb' with h₁ h₂ h₂
    · exact h₁.trans h₂.symm
    · obtain rfl := Option.some.inj hb
      exact absurd hb' (hnew key₂)
    · obtain rfl := Option.some.inj hb'
      exact absurd hb (hnew key₁)
    · exact h.inj key₁ key₂ b hb hb'
  · simp only [abs, ElementStorage.emplace, JsonStorage.mk.injEq, true_and, and_true]
    funext key'
    by_cases hne : key' = key
    · subst hne
      simp
    · rw [Function.update_of_ne hne, Function.update_of_ne hne]
      cases hb : s.mCache key' with
      | none => rfl
      | some b => simp [hother key' b hb]

theorem Sound.of_elements (h : s.Sound) (hcache : t.mCache = s.mCache)
    (helements : t.elements = s.elements) (hallocated : t.allocated = s.allocated) : t.Sound :=
  ⟨by rw [hcache, helements]; exact h.cached, by rw [helements, hallocated]; exact h.lt,
    by rw [hcache]; exact h.inj⟩

theorem abs_rename (s : ElementStorage) (path : Bytes) (renames : Bool) :
    (s.rename path renames).abs = s.abs.rename path renames := by
  unfold rename JsonStorage.rename
  have hfiles : s.abs.files = s.files := rfl
  rw [hfiles]
  cases if renames then s.files path else none <;> rfl

theorem elements_rename (s : ElementStorage) (path : Bytes) (renames : Bool) :
    (s.rename path renames).mCache = s.mCache ∧ (s.rename path renames).elements = s.elements ∧
      (s.rename path renames).allocated = s.allocated := by
  unfold rename
  split <;> exact ⟨rfl, rfl, rfl⟩

/-- The result of an operation, where its view is still there. -/
def ViewResult.Shows (s : ElementStorage) : ViewResult → Result → Prop
  | .value v, .value bs => s.view v = some bs
  | .thrown what, .thrown what' => what = what'
  | _, _ => False

/-- An operation on the storage with its elements, and one on the storage without. -/
def Matches (p : ViewResult × ElementStorage) (q : Result × JsonStorage) : Prop :=
  p.2.Sound ∧ p.2.abs = q.2 ∧ p.1.Shows p.2 q.1

/-- The operation erases the element of its key. -/
def erases : Op → Bool
  | .get .. => false
  | .add .. | .remove .. => true

/-- **An operation is one of the storage without elements.** -/
theorem Sound.perform (h : s.Sound) (left : Bytes → Bytes) (op : Op) :
    Matches (s.perform left op) (s.abs.perform left op) := by
  have hpath : s.abs.mPath = s.mPath := rfl
  cases op with
  | get key defaultValue opens =>
    simp only [ElementStorage.perform, JsonStorage.perform, getView, JsonStorage.getView, hpath]
    cases securePath s.mPath key with
    | none => exact ⟨h, rfl, rfl⟩
    | some path =>
      cases hkey : s.mCache key with
      | some a =>
        obtain ⟨v, hv⟩ := Option.isSome_iff_exists.1 (h.cached key a hkey)
        have habs : s.abs.mCache key = some v := by simp [abs, hkey, hv]
        simp only [habs]
        exact ⟨h, rfl, hv⟩
      | none =>
        have habs : s.abs.mCache key = none := by simp [abs, hkey]
        have hfiles : s.abs.files = s.files := rfl
        simp only [habs, hfiles]
        cases if opens then s.files path else none with
        | none => exact ⟨h.of_elements rfl rfl rfl, rfl, rfl⟩
        | some data =>
          dsimp only
          split_ifs
          · exact ⟨h.of_elements rfl rfl rfl, rfl, rfl⟩
          · have htouched : Sound { s with touched := s.touched ++ [path] } :=
              h.of_elements rfl rfl rfl
            obtain ⟨hsound, heq⟩ := htouched.emplace hkey data
            refine ⟨hsound, heq, ?_⟩
            show Function.update s.elements s.allocated (some data) s.allocated = some data
            exact Function.update_self ..
  | add key newData opens =>
    simp only [ElementStorage.perform, JsonStorage.perform, addView, JsonStorage.addView, hpath]
    cases securePath s.mPath key with
    | none => exact ⟨h, rfl, rfl⟩
    | some path =>
      obtain ⟨old, u, htake⟩ : ∃ old u, s.take key = (old, u) := ⟨_, _, rfl⟩
      obtain ⟨hsound, hold, heq, hnone⟩ := h.take key
      rw [htake] at hsound hold heq hnone
      dsimp only at hold
      simp only [htake, ← hold]
      split_ifs
      · have hwritten : Sound { u with
            files := Function.update u.files path (some newData)
            touched := u.touched ++ [path] } := hsound.of_elements rfl rfl rfl
        obtain ⟨hsound', heq'⟩ := hwritten.emplace hnone old
        refine ⟨hsound', heq'.trans ?_, rfl⟩
        show { u.abs with
          mCache := Function.update u.abs.mCache key (some old)
          files := Function.update u.abs.files path (some newData)
          touched := u.abs.touched ++ [path] } = _
        rw [heq]
        rfl
      · refine ⟨hsound.of_elements rfl rfl rfl, ?_, rfl⟩
        show { u.abs with touched := u.abs.touched ++ [path] } = _
        rw [heq]
        rfl
  | remove key renames =>
    simp only [ElementStorage.perform, JsonStorage.perform, removeView, JsonStorage.removeView,
      hpath]
    cases securePath s.mPath key with
    | none => exact ⟨h, rfl, rfl⟩
    | some path =>
      obtain ⟨old, u, htake⟩ : ∃ old u, s.take key = (old, u) := ⟨_, _, rfl⟩
      obtain ⟨hsound, hold, heq, hnone⟩ := h.take key
      rw [htake] at hsound hold heq hnone
      dsimp only at hold
      simp only [htake, ← hold]
      split_ifs
      · have hremoved : Sound { u with
            files := Function.update u.files (trash path) none
            touched := u.touched ++ [trash path, path] } := hsound.of_elements rfl rfl rfl
        obtain ⟨hcache, helements, hallocated⟩ := elements_rename { u with
            files := Function.update u.files (trash path) none
            touched := u.touched ++ [trash path, path] } path renames
        refine ⟨hremoved.of_elements hcache helements hallocated, ?_, rfl⟩
        rw [abs_rename]
        show JsonStorage.rename { u.abs with
          files := Function.update u.abs.files (trash path) none
          touched := u.abs.touched ++ [trash path, path] } path renames = _
        rw [heq]
        rfl
      · exact ⟨hsound, heq, rfl⟩

/-- What an operation does with the elements: nothing, or it takes the element of its key, or it
adds one. -/
theorem perform_elements (left : Bytes → Bytes) (s : ElementStorage) (op : Op) :
    ∃ u : ElementStorage,
      ((s.perform left op).2.mCache = u.mCache ∧ (s.perform left op).2.elements = u.elements ∧
        (s.perform left op).2.allocated = u.allocated) ∧
      (u = s ∧ (erases op = true → securePath s.mPath op.key = none) ∨
        (erases op = false ∧ s.mCache op.key = none ∧ ∃ v, u = s.emplace op.key v) ∨
        erases op = true ∧
          (u = (s.take op.key).2 ∨ ∃ v, u = (s.take op.key).2.emplace op.key v)) := by
  cases op with
  | get key defaultValue opens =>
    simp only [ElementStorage.perform, getView]
    cases securePath s.mPath key with
    | none => exact ⟨s, ⟨rfl, rfl, rfl⟩, .inl ⟨rfl, by simp [erases]⟩⟩
    | some path =>
      cases hkey : s.mCache key with
      | some a => exact ⟨s, ⟨rfl, rfl, rfl⟩, .inl ⟨rfl, by simp [erases]⟩⟩
      | none =>
        dsimp only
        cases if opens then s.files path else none with
        | none => exact ⟨s, ⟨rfl, rfl, rfl⟩, .inl ⟨rfl, by simp [erases]⟩⟩
        | some data =>
          dsimp only
          split_ifs
          · exact ⟨s, ⟨rfl, rfl, rfl⟩, .inl ⟨rfl, by simp [erases]⟩⟩
          · exact ⟨s.emplace key data, ⟨rfl, rfl, rfl⟩, .inr (.inl ⟨rfl, hkey, data, rfl⟩)⟩
  | add key newData opens =>
    simp only [ElementStorage.perform, addView]
    cases hpath : securePath s.mPath key with
    | none => exact ⟨s, ⟨rfl, rfl, rfl⟩, .inl ⟨rfl, fun _ => hpath⟩⟩
    | some path =>
      dsimp only
      split_ifs
      · exact ⟨(s.take key).2.emplace key (s.take key).1, ⟨rfl, rfl, rfl⟩,
          .inr (.inr ⟨rfl, .inr ⟨_, rfl⟩⟩)⟩
      · exact ⟨(s.take key).2, ⟨rfl, rfl, rfl⟩, .inr (.inr ⟨rfl, .inl rfl⟩)⟩
  | remove key renames =>
    simp only [ElementStorage.perform, removeView]
    cases hpath : securePath s.mPath key with
    | none => exact ⟨s, ⟨rfl, rfl, rfl⟩, .inl ⟨rfl, fun _ => hpath⟩⟩
    | some path =>
      dsimp only
      split_ifs
      · exact ⟨(s.take key).2, elements_rename _ path renames, .inr (.inr ⟨rfl, .inl rfl⟩)⟩
      · exact ⟨(s.take key).2, ⟨rfl, rfl, rfl⟩, .inr (.inr ⟨rfl, .inl rfl⟩)⟩

/-- The key has an element with these contents. -/
def Holds (s : ElementStorage) (key : Bytes) (a : ℕ) (v : Bytes) : Prop :=
  s.mCache key = some a ∧ s.elements a = some v

/-- The element has been erased. -/
def Gone (s : ElementStorage) (a : ℕ) : Prop := a < s.allocated ∧ s.elements a = none

theorem allocated_take (s : ElementStorage) (key : Bytes) :
    (s.take key).2.allocated = s.allocated := by
  unfold take
  split <;> rfl

theorem Holds.take (h : s.Holds key a v) (hs : s.Sound) {key' : Bytes} (hne : key ≠ key') :
    (s.take key').2.Holds key a v := by
  unfold ElementStorage.take
  cases hkey : s.mCache key' with
  | none => exact h
  | some b =>
    have hab : a ≠ b := by
      rintro rfl
      exact hne (hs.inj key key' a h.1 hkey)
    exact ⟨(Function.update_of_ne hne ..).trans h.1, (Function.update_of_ne hab ..).trans h.2⟩

theorem Holds.gone_take (h : s.Holds key a v) (hs : s.Sound) : (s.take key).2.Gone a := by
  have hlt : a < s.allocated := hs.lt a (by rw [h.2]; rfl)
  refine ⟨hlt.trans_eq (allocated_take s key).symm, ?_⟩
  simp [ElementStorage.take, h.1]

theorem Gone.take (h : s.Gone a) (key : Bytes) : (s.take key).2.Gone a := by
  refine ⟨h.1.trans_eq (allocated_take s key).symm, ?_⟩
  unfold ElementStorage.take
  cases s.mCache key with
  | none => exact h.2
  | some b =>
    show Function.update s.elements b none a = none
    rw [Function.update_apply]
    split_ifs
    · rfl
    · exact h.2

theorem Holds.emplace (h : s.Holds key a v) (hs : s.Sound) {key' : Bytes}
    (hnone : s.mCache key' = none) (v' : Bytes) : (s.emplace key' v').Holds key a v := by
  have hne : key ≠ key' := by
    rintro rfl
    rw [h.1] at hnone
    cases hnone
  have hlt : a ≠ s.allocated := (hs.lt a (by rw [h.2]; rfl)).ne
  exact ⟨(Function.update_of_ne hne ..).trans h.1, (Function.update_of_ne hlt ..).trans h.2⟩

theorem Gone.emplace (h : s.Gone a) (key v : Bytes) : (s.emplace key v).Gone a :=
  ⟨Nat.lt_succ_of_lt h.1, (Function.update_of_ne h.1.ne ..).trans h.2⟩

section

variable {op : Op}

/-- **An element stays where it is until it is erased.** -/
theorem Holds.perform (h : s.Holds key a v) (hs : s.Sound) (left : Bytes → Bytes)
    (hkeep : erases op = true → op.key ≠ key) : (s.perform left op).2.Holds key a v := by
  obtain ⟨u, ⟨hcache, helements, -⟩, hu⟩ := perform_elements left s op
  have hholds : u.Holds key a v := by
    rcases hu with ⟨rfl, -⟩ | ⟨-, hnone, v', rfl⟩ | ⟨herases, rfl | ⟨v', rfl⟩⟩
    · exact h
    · exact h.emplace hs hnone v'
    · exact h.take hs (Ne.symm (hkeep herases))
    · obtain ⟨hsound, -, -, hnone⟩ := hs.take op.key
      exact (h.take hs (Ne.symm (hkeep herases))).emplace hsound hnone v'
  exact ⟨by rw [hcache]; exact hholds.1, by rw [helements]; exact hholds.2⟩

/-- **What is erased does not come back.** -/
theorem Gone.perform (h : s.Gone a) (left : Bytes → Bytes) (op : Op) :
    (s.perform left op).2.Gone a := by
  obtain ⟨u, ⟨-, helements, hallocated⟩, hu⟩ := perform_elements left s op
  have hgone : u.Gone a := by
    rcases hu with ⟨rfl, -⟩ | ⟨-, -, v', rfl⟩ | ⟨-, rfl | ⟨v', rfl⟩⟩
    · exact h
    · exact h.emplace _ v'
    · exact h.take _
    · exact (h.take _).emplace _ v'
  exact ⟨by rw [hallocated]; exact hgone.1, by rw [helements]; exact hgone.2⟩

theorem Holds.gone_perform (h : s.Holds op.key a v) (hs : s.Sound) (left : Bytes → Bytes)
    (herases : erases op = true) (hpath : (securePath s.mPath op.key).isSome) :
    (s.perform left op).2.Gone a := by
  obtain ⟨u, ⟨-, helements, hallocated⟩, hu⟩ := perform_elements left s op
  have hgone : u.Gone a := by
    rcases hu with ⟨-, hnone⟩ | ⟨hnot, -⟩ | ⟨-, rfl | ⟨v', rfl⟩⟩
    · rw [hnone herases] at hpath
      cases hpath
    · rw [herases] at hnot
      cases hnot
    · exact h.gone_take hs
    · exact (h.gone_take hs).emplace _ v'
  exact ⟨by rw [hallocated]; exact hgone.1, by rw [helements]; exact hgone.2⟩

end

/-! ### Requests -/

section

variable {req : Request} {op : Op}

theorem onRequest_storage (left : Bytes → Bytes) (s : ElementStorage) (req : Request) :
    (s.onRequest left req).2 =
      match req.op with
      | none => s
      | some op => (s.perform left op).2 := by
  unfold onRequest Request.op
  simp only [HiwString.cmp_eq, decide_eq_true_eq]
  by_cases hget : req.method = ascii "GET"
  · simp only [if_pos hget, ElementStorage.perform]
    rcases s.getView req.uri [] req.opens with ⟨_ | _, t⟩ <;> dsimp only
    split_ifs <;> rfl
  · by_cases hput : req.method = ascii "PUT"
    · simp only [if_neg hget, if_pos hput]
      by_cases hlength : 0 < req.contentLength
      · rw [if_neg (by omega), if_neg (by omega), if_pos hlength]
        simp only [ElementStorage.perform]
        rcases s.addView left req.uri req.newData req.opens with ⟨_ | _, t⟩ <;> rfl
      · rw [if_neg hlength]
        split_ifs
        · rfl
        · rfl
        · omega
    · simp only [if_neg hget, if_neg hput]
      split_ifs with hdelete
      · simp only [ElementStorage.perform]
        rcases s.removeView req.uri req.renames with ⟨_ | _, t⟩ <;> dsimp only
        split_ifs <;> rfl
      · rfl

/-- The response, where its view is still there. -/
def Answers (p : Reply × ElementStorage) (q : Answer × JsonStorage) : Prop :=
  p.2.Sound ∧ p.2.abs = q.2 ∧ p.2.answerOf p.1 = some q.1

theorem answers_found (p : ViewResult × ElementStorage) (q : Result × JsonStorage) :
    Matches p q → Answers
      (match p with
        | (.thrown _, s) => (⟨400, none⟩, s)
        | (.value v, s) => if s.view v = some [] then (⟨404, none⟩, s) else (⟨200, some v⟩, s))
      (match q with
        | (.thrown _, s) => (⟨400, none⟩, s)
        | (.value bs, s) => if bs = [] then (⟨404, none⟩, s) else (⟨200, some bs⟩, s)) := by
  intro h
  obtain ⟨r, t⟩ := p
  obtain ⟨r', t'⟩ := q
  obtain ⟨hsound, rfl, hshows⟩ := h
  cases r with
  | thrown what =>
    cases r' with
    | thrown what' => exact ⟨hsound, rfl, rfl⟩
    | value bs => exact hshows.elim
  | value v =>
    cases r' with
    | thrown what' => exact hshows.elim
    | value bs =>
      have hview : t.view v = some bs := hshows
      simp only [hview, Option.some.injEq]
      split_ifs
      · exact ⟨hsound, rfl, rfl⟩
      · exact ⟨hsound, rfl, by simp [answerOf, hview]⟩

theorem answers_stored (p : ViewResult × ElementStorage) (q : Result × JsonStorage) :
    Matches p q → Answers
      (match p with
        | (.thrown _, s) => (⟨400, none⟩, s)
        | (.value v, s) => (⟨200, some v⟩, s))
      (match q with
        | (.thrown _, s) => (⟨400, none⟩, s)
        | (.value bs, s) => (⟨200, some bs⟩, s)) := by
  intro h
  obtain ⟨r, t⟩ := p
  obtain ⟨r', t'⟩ := q
  obtain ⟨hsound, rfl, hshows⟩ := h
  cases r with
  | thrown what =>
    cases r' with
    | thrown what' => exact ⟨hsound, rfl, rfl⟩
    | value bs => exact hshows.elim
  | value v =>
    cases r' with
    | thrown what' => exact hshows.elim
    | value bs =>
      have hview : t.view v = some bs := hshows
      exact ⟨hsound, rfl, by simp [answerOf, hview]⟩

/-- **A request is answered as from the storage without elements**, as long as its view is there. -/
theorem Sound.onRequest (h : s.Sound) (left : Bytes → Bytes) (req : Request) :
    Answers (s.onRequest left req) (s.abs.onRequest left req) := by
  have hget : Matches (s.getView req.uri [] req.opens) (s.abs.getView req.uri [] req.opens) :=
    h.perform left (.get req.uri [] req.opens)
  have hput : Matches (s.addView left req.uri req.newData req.opens)
      (s.abs.addView left req.uri req.newData req.opens) :=
    h.perform left (.add req.uri req.newData req.opens)
  have hdelete : Matches (s.removeView req.uri req.renames)
      (s.abs.removeView req.uri req.renames) := h.perform left (.remove req.uri req.renames)
  unfold ElementStorage.onRequest JsonStorage.onRequest
  split_ifs
  · exact answers_found _ _ hget
  · exact ⟨h, rfl, rfl⟩
  · exact ⟨h, rfl, rfl⟩
  · exact answers_stored _ _ hput
  · exact answers_found _ _ hdelete
  · exact ⟨h, rfl, rfl⟩

theorem mCache_getView {defaultValue : Bytes} {opens : Bool}
    (hvalue : (s.getView key defaultValue opens).1 = .value (.element a)) :
    (securePath s.mPath key).isSome ∧ (s.getView key defaultValue opens).2.mCache key = some a := by
  unfold getView at hvalue ⊢
  cases hpath : securePath s.mPath key with
  | none => simp [hpath] at hvalue
  | some path =>
    rw [hpath] at hvalue
    refine ⟨rfl, ?_⟩
    cases hkey : s.mCache key with
    | some b =>
      rw [hkey] at hvalue
      obtain rfl : b = a := by simpa using hvalue
      exact hkey
    | none =>
      rw [hkey] at hvalue
      dsimp only at hvalue ⊢
      cases hfile : if opens then s.files path else none with
      | none => simp [hfile] at hvalue
      | some data =>
        rw [hfile] at hvalue
        dsimp only at hvalue ⊢
        split_ifs at hvalue ⊢ with hlength
        · obtain rfl : s.allocated = a := by simpa using hvalue
          exact Function.update_self ..

/-- `add` and `remove` return strings of their own. -/
theorem ne_element_addView {newData : Bytes} {opens : Bool} :
    (s.addView left key newData opens).1 ≠ .value (.element a) := by
  intro hvalue
  unfold addView at hvalue
  split at hvalue
  · cases hvalue
  · dsimp only at hvalue
    split_ifs at hvalue
    cases hvalue

theorem ne_element_removeView {renames : Bool} :
    (s.removeView key renames).1 ≠ .value (.element a) := by
  intro hvalue
  unfold removeView at hvalue
  split at hvalue
  · cases hvalue
  · dsimp only at hvalue
    split_ifs at hvalue
    · cases hvalue
    · cases hvalue

theorem eq_default_of_getView {defaultValue : Bytes} {opens : Bool}
    (hvalue : (s.getView key defaultValue opens).1 = .value (.own v)) : v = defaultValue := by
  unfold getView at hvalue
  cases hpath : securePath s.mPath key with
  | none => simp [hpath] at hvalue
  | some path =>
    rw [hpath] at hvalue
    cases hkey : s.mCache key with
    | some b => simp [hkey] at hvalue
    | none =>
      rw [hkey] at hvalue
      dsimp only at hvalue
      cases hfile : if opens then s.files path else none with
      | none =>
        rw [hfile] at hvalue
        cases hvalue
        rfl
      | some data =>
        rw [hfile] at hvalue
        dsimp only at hvalue
        split_ifs at hvalue
        cases hvalue

/-- A view of an element is the answer to a GET that has found something. -/
theorem found_of_element (hbody : (s.onRequest left req).1.body = some (.element a)) :
    req.method = ascii "GET" ∧ (s.onRequest left req).1.statusCode = 200 ∧
      (securePath s.mPath req.uri).isSome ∧ (s.onRequest left req).2.mCache req.uri = some a := by
  unfold onRequest at hbody ⊢
  split_ifs at hbody ⊢ with hmethod
  · have hget := @mCache_getView s req.uri a [] req.opens
    obtain ⟨r, t, hresult⟩ : ∃ r t, s.getView req.uri [] req.opens = (r, t) := ⟨_, _, rfl⟩
    rw [hresult] at hbody hget ⊢
    cases r with
    | thrown => cases hbody
    | value v =>
      dsimp only at hbody ⊢
      split_ifs at hbody ⊢
      rw [HiwString.cmp_eq, decide_eq_true_eq] at hmethod
      exact ⟨hmethod, rfl, hget (congrArg ViewResult.value (Option.some.inj hbody))⟩
  · have hput := @ne_element_addView s req.uri left a req.newData req.opens
    obtain ⟨r, t, hresult⟩ : ∃ r t, s.addView left req.uri req.newData req.opens = (r, t) :=
      ⟨_, _, rfl⟩
    rw [hresult] at hbody hput
    cases r with
    | thrown => cases hbody
    | value v => exact absurd (congrArg ViewResult.value (Option.some.inj hbody)) hput
  · have hdelete := @ne_element_removeView s req.uri a req.renames
    obtain ⟨r, t, hresult⟩ : ∃ r t, s.removeView req.uri req.renames = (r, t) := ⟨_, _, rfl⟩
    rw [hresult] at hbody hdelete
    cases r with
    | thrown => cases hbody
    | value v =>
      dsimp only at hbody
      split_ifs at hbody
      exact absurd (congrArg ViewResult.value (Option.some.inj hbody)) hdelete

theorem element_of_found (hmethod : req.method = ascii "GET")
    (hcode : (s.onRequest left req).1.statusCode = 200) :
    ∃ a, (s.onRequest left req).1.body = some (.element a) := by
  have hdefault := @eq_default_of_getView s req.uri
  rw [onRequest, HiwString.cmp_eq, if_pos (decide_eq_true hmethod)] at hcode ⊢
  obtain ⟨r, t, hresult⟩ : ∃ r t, s.getView req.uri [] req.opens = (r, t) := ⟨_, _, rfl⟩
  rw [hresult] at hcode ⊢
  cases r with
  | thrown => cases hcode
  | value v =>
    cases v with
    | own v =>
      obtain rfl : v = [] := hdefault (by rw [hresult])
      cases hcode
    | element a =>
      dsimp only at hcode ⊢
      split_ifs at hcode ⊢
      · cases hcode
      · exact ⟨a, rfl⟩

/-- The request erases what is cached for the uri. -/
def ErasedBy (uri : Bytes) (req : Request) : Prop :=
  ∃ op ∈ req.op, erases op = true ∧ op.key = uri

/-- **A view is there until a request erases its element.** -/
theorem Holds.onRequest (h : s.Holds key a v) (hs : s.Sound) (left : Bytes → Bytes)
    (hkeep : ¬ ErasedBy key req) : (s.onRequest left req).2.Holds key a v := by
  rw [onRequest_storage]
  cases hop : req.op with
  | none => exact h
  | some op => exact h.perform hs left fun herases hkey => hkeep ⟨op, hop, herases, hkey⟩

theorem Gone.onRequest (h : s.Gone a) (left : Bytes → Bytes) (req : Request) :
    (s.onRequest left req).2.Gone a := by
  rw [onRequest_storage]
  cases req.op with
  | none => exact h
  | some op => exact h.perform left op

theorem Holds.gone_onRequest (h : s.Holds key a v) (hs : s.Sound) (left : Bytes → Bytes)
    (herases : ErasedBy key req) (hpath : (securePath s.mPath key).isSome) :
    (s.onRequest left req).2.Gone a := by
  obtain ⟨op, hop, herases, rfl⟩ := herases
  rw [onRequest_storage, Option.mem_def.1 hop]
  exact h.gone_perform hs left herases hpath

end

end ElementStorage

end Highway
