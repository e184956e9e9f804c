import Highway.Lib.Run
import Highway.Std.Buffer
import Highway.Std.Memory

/-!
# Memory pools and their blocks

`HiwMemory` has the cursor of a pool; here it comes with the block it walks over, so that one can
say which block a pool uses, what is stored in it and which blocks are given to `realloc`.

What the documentation promises fails on exhaustion, for every kind of pool:

* a fixed pool, and a dynamic one after `hiw_memory_resize_disabled`, refuse nothing: a request
  that does not fit has no result (`HiwPool.get_eq_none`), because `hiw_memory_resize_enabled`
  holds for them and the capacity loop does not end;
* a dynamic pool does not grow: `hiw_memory_resize_enabled` fails for it, and the region that is
  returned lies behind the block (`HiwPool.get_dynamic`).

Requests that fit are served as documented, so the promises hold for the sequences in which every
request fits (`PoolRun.refuses_iff`, `PoolRun.grows_iff`).
-/

namespace Highway

open Lib

/-- `hiw_memory_resize_disabled` -/
def HiwMemory.resizeDisabled (m : HiwMemory) : HiwMemory := { m with resizeBytes := 0 }

/-- What `realloc` answers: the address of the new block with the bytes behind the old contents,
or `none` for `NULL`. -/
abbrev Realloc := Option (ℕ × Buf)

/-- A pool with its block. -/
structure HiwPool where
  memory : HiwMemory
  /-- `ptr`, the address of the block. -/
  ptr : ℕ
  /-- The bytes of the block. -/
  block : Buf
  /-- The addresses given to `realloc` so far. -/
  reallocs : List ℕ

namespace HiwPool

/-- `hiw_memory_fixed_init` on the buffer at `ptr`. -/
def fixedInit (ptr : ℕ) (block : Buf) (capacity : ℕ) : HiwPool :=
  ⟨.fixedInit capacity, ptr, block, []⟩

/-- `hiw_memory_dynamic_init`, with the block that `hiw_malloc` returns; `none` for false. -/
def dynamicInit (ptr : ℕ) (block : Buf) (capacity : ℤ) : Option HiwPool :=
  if capacity ≤ 0 then none else some ⟨⟨0, capacity.toNat, capacity⟩, ptr, block, []⟩

/-- `hiw_memory_resize_disabled` -/
def resizeDisabled (p : HiwPool) : HiwPool := { p with memory := p.memory.resizeDisabled }

/-- `hiw_memory_reset` -/
def reset (p : HiwPool) : HiwPool := { p with memory := p.memory.reset }

/-- The condition of the first `assert` of `hiw_memory_resize`. -/
def asserts (p : HiwPool) : Prop := p.memory.resizeEnabled = true

/-- `hiw_memory_resize` ; `none` when it does not return. -/
def resize (p : HiwPool) (requiredBytes : ℕ) (realloc : Realloc) : Option (Bool × HiwPool) :=
  if !p.memory.resizeEnabled then some (false, p)
  else
    (HiwMemory.resizeLoop p.memory.resizeBytes requiredBytes (2 ^ 32)
        (p.memory.capacity + p.memory.resizeBytes)).map fun newCapacity =>
      let p := { p with reallocs := p.reallocs ++ [p.ptr] }
      match realloc with
      | none => (false, p)
      | some (ptr, rest) =>
        (true, { p with
          memory := { p.memory with stop := newCapacity.toNat }
          ptr
          block := fun i => if i < min p.memory.stop newCapacity.toNat then p.block i else rest i })

/-- `hiw_memory_get` : the offset of the region, `none` for `NULL`; the outer `none` when it does
not return, or when `hiw_memory_size(m) + n` leaves the range of `int`. -/
def get (p : HiwPool) (n : ℕ) (realloc : Realloc) : Option (Option ℕ × HiwPool) :=
  if p.memory.pos + n > p.memory.stop then
    if 2 ^ 31 ≤ p.memory.size + n then none
    else
      (p.resize (p.memory.size + n) realloc).map fun (resized, p) =>
        if resized then (none, p)
        else (some p.memory.pos, { p with memory := { p.memory with pos := p.memory.pos + n } })
  else some (some p.memory.pos, { p with memory := { p.memory with pos := p.memory.pos + n } })

variable {p p' : HiwPool} {n : ℕ} {realloc : Realloc} {o : Option ℕ}

theorem get_of_le (h : p.memory.pos + n ≤ p.memory.stop) :
    p.get n realloc = some (some p.memory.pos,
      { p with memory := { p.memory with pos := p.memory.pos + n } }) := by
  rw [get, if_neg (by omega)]

theorem get_eq_none (hr : p.memory.resizeBytes ≤ 0) (h : p.memory.stop < p.memory.pos + n) :
    p.get n realloc = none := by
  have hloop := HiwMemory.resizeLoop_eq_none (r := p.memory.resizeBytes)
    (q := (p.memory.size + n : ℕ)) (c := p.memory.capacity + p.memory.resizeBytes) hr
    (by simp only [HiwMemory.size, HiwMemory.capacity]; omega) (2 ^ 32)
  have henabled : p.memory.resizeEnabled = true := decide_eq_true hr
  rw [get, if_pos h, resize, henabled, hloop]
  simp

/-- A dynamic pool serves every request at the cursor, whether there is room or not. -/
theorem get_dynamic (hr : 0 < p.memory.resizeBytes) (h : p.get n realloc = some (o, p')) :
    o = some p.memory.pos ∧
      p' = { p with memory := { p.memory with pos := p.memory.pos + n } } := by
  have hdis : p.memory.resizeEnabled = false := decide_eq_false (by omega)
  unfold get resize at h
  simp only [hdis, Bool.not_false, if_true, Option.map_some, Bool.false_eq_true, if_false] at h
  split_ifs at h <;> exact ⟨(congrArg Prod.fst (Option.some.inj h)).symm,
    (congrArg Prod.snd (Option.some.inj h)).symm⟩

/-- A request that has a result is served at the cursor, and either fits or comes to a dynamic
pool. -/
theorem get_cases (h : p.get n realloc = some (o, p')) :
    o = some p.memory.pos ∧
      p' = { p with memory := { p.memory with pos := p.memory.pos + n } } ∧
      (p.memory.pos + n ≤ p.memory.stop ∨ 0 < p.memory.resizeBytes) := by
  rcases Nat.lt_or_ge p.memory.stop (p.memory.pos + n) with hlt | hle
  · rcases le_or_gt p.memory.resizeBytes 0 with hr | hr
    · rw [get_eq_none hr hlt] at h
      cases h
    · obtain ⟨rfl, rfl⟩ := get_dynamic hr h
      exact ⟨rfl, rfl, .inr hr⟩
  · rw [get_of_le hle] at h
    obtain ⟨rfl, rfl⟩ := Prod.mk.inj (Option.some.inj h)
    exact ⟨rfl, rfl, .inl hle⟩

theorem get_memory (h : p.get n realloc = some (o, p')) :
    p.memory.get n = some (o, p'.memory) := by
  obtain ⟨rfl, rfl, hserved⟩ := get_cases h
  rcases Nat.lt_or_ge p.memory.stop (p.memory.pos + n) with hlt | hle
  · have hdis : p.memory.resizeEnabled = false :=
      decide_eq_false (not_le.2 (hserved.resolve_left (Nat.not_le_of_lt hlt)))
    rw [HiwMemory.get, if_pos hlt, HiwMemory.resize, hdis]
    rfl
  · exact HiwMemory.get_of_le hle

@[simp] theorem resizeBytes_reset : p.reset.memory.resizeBytes = p.memory.resizeBytes := rfl

theorem resizeBytes_get (h : p.get n realloc = some (o, p')) :
    p'.memory.resizeBytes = p.memory.resizeBytes := by
  obtain ⟨-, rfl, -⟩ := get_cases h
  rfl

end HiwPool

/-! ### Sequences of requests -/

/-- A pool in use, with the regions it has returned since it was reset last: offset and size. -/
structure PoolRun where
  pool : HiwPool
  regions : List (ℕ × ℕ)

namespace PoolRun

/-- What a user of a pool does. -/
inductive Op where
  /-- `hiw_memory_get`, and what `realloc` answers if it is called. -/
  | get (n : ℕ) (realloc : Realloc)
  /-- `hiw_memory_reset` -/
  | reset
  /-- Store bytes in a region. -/
  | write (o : ℕ) (bs : Bytes)

/-- The bytes are stored inside one of the regions. -/
def Inside (s : PoolRun) (o : ℕ) (bs : Bytes) : Prop :=
  ∃ r ∈ s.regions, r.1 ≤ o ∧ o + bs.length ≤ r.1 + r.2

instance (s : PoolRun) (o : ℕ) (bs : Bytes) : Decidable (s.Inside o bs) :=
  inferInstanceAs (Decidable (∃ r ∈ s.regions, _))

/-- One operation; `none` when it has no result. -/
def step (s : PoolRun) : Op → Option PoolRun
  | .get n realloc =>
    (s.pool.get n realloc).map fun (o, pool) =>
      { pool, regions := s.regions ++ (o.map fun b => (b, n)).toList }
  | .reset => some { pool := s.pool.reset, regions := [] }
  | .write o bs =>
    if s.Inside o bs then some { s with pool := { s.pool with block := s.pool.block.write o bs } }
    else none

/-- A request of the operation fits into the space left. -/
def Fits (s : PoolRun) : Op → Prop
  | .get n _ => s.pool.memory.pos + n ≤ s.pool.memory.stop
  | _ => True

instance (s : PoolRun) (op : Op) : Decidable (s.Fits op) := by
  cases op <;> unfold Fits <;> infer_instance

/-- A request is answered as documented: the region at the cursor if it fits, and otherwise
`NULL`, with the pool as it was. -/
def Answers (s : PoolRun) : Op → Prop
  | .get n realloc =>
    (s.pool.memory.pos + n ≤ s.pool.memory.stop → s.pool.get n realloc =
      some (some s.pool.memory.pos,
        { s.pool with memory := { s.pool.memory with pos := s.pool.memory.pos + n } })) ∧
    (s.pool.memory.stop < s.pool.memory.pos + n → s.pool.get n realloc = some (none, s.pool))
  | _ => True

/-- The regions are pairwise disjoint parts of the block. -/
def Separate (s : PoolRun) : Prop :=
  s.regions.Pairwise (fun r r' => r.1 + r.2 ≤ r'.1 ∨ r'.1 + r'.2 ≤ r.1) ∧
    ∀ r ∈ s.regions, r.1 + r.2 ≤ s.pool.memory.stop

/-- A pool of a fixed block that refuses what does not fit, and leaves the block alone. -/
structure Refuses (s : PoolRun) (ops : List Op) : Prop where
  answers : AllSteps step Answers s ops
  separate : ∀ t, Passes step s ops t → t.Separate
  reallocs : ∀ t, Passes step s ops t → t.pool.reallocs = s.pool.reallocs

variable {s s' : PoolRun} {op : Op} {ops : List Op}

theorem answers_iff (hr : s.pool.memory.resizeBytes ≤ 0) : s.Answers op ↔ s.Fits op := by
  cases op with
  | get n realloc =>
    constructor
    · rintro ⟨-, hnull⟩
      by_contra hfits
      have hlt : s.pool.memory.stop < s.pool.memory.pos + n := Nat.lt_of_not_le hfits
      have hget := hnull hlt
      rw [HiwPool.get_eq_none hr hlt] at hget
      cases hget
    · intro hfits
      exact ⟨fun _ => HiwPool.get_of_le hfits, fun hlt => absurd hfits (Nat.not_le_of_lt hlt)⟩
  | reset => exact Iff.rfl
  | write o bs => exact Iff.rfl

theorem resizeBytes_step (h : s.step op = some s') :
    s'.pool.memory.resizeBytes = s.pool.memory.resizeBytes := by
  cases op with
  | get n realloc =>
    obtain ⟨⟨o, pool⟩, hget, rfl⟩ := Option.map_eq_some_iff.1 h
    exact HiwPool.resizeBytes_get hget
  | reset =>
    obtain rfl := Option.some.inj h
    rfl
  | write o bs =>
    simp only [step] at h
    split_ifs at h
    obtain rfl := Option.some.inj h
    rfl

theorem allSteps_answers_iff (hr : s.pool.memory.resizeBytes ≤ 0) :
    AllSteps step Answers s ops ↔ AllSteps step Fits s ops :=
  allSteps_congr (I := fun s => s.pool.memory.resizeBytes ≤ 0)
    (fun _ _ _ h hstep => resizeBytes_step hstep ▸ h) (fun _ _ h => answers_iff h) hr

/-- The regions lie one behind the other, in front of the cursor. -/
structure Ordered (s : PoolRun) : Prop where
  sorted : s.regions.Pairwise fun r r' => r.1 + r.2 ≤ r'.1
  le_pos : ∀ r ∈ s.regions, r.1 + r.2 ≤ s.pool.memory.pos
  pos_le : s.pool.memory.pos ≤ s.pool.memory.stop

theorem Ordered.separate (h : s.Ordered) : s.Separate :=
  ⟨h.sorted.imp fun hle => .inl hle, fun r hr => Nat.le_trans (h.le_pos r hr) h.pos_le⟩

theorem Ordered.step (h : s.Ordered) (hfits : s.Fits op) (hstep : s.step op = some s') :
    s'.Ordered ∧ s'.pool.reallocs = s.pool.reallocs := by
  cases op with
  | get n realloc =>
    obtain ⟨⟨o, pool⟩, hget, rfl⟩ := Option.map_eq_some_iff.1 hstep
    -- the new region starts at the cursor, behind all others
    rw [HiwPool.get_of_le hfits] at hget
    obtain ⟨rfl, rfl⟩ := Prod.mk.inj (Option.some.inj hget)
    refine ⟨⟨?_, ?_, hfits⟩, rfl⟩
    · refine List.pairwise_append.2 ⟨h.sorted, List.pairwise_singleton _ _, fun r hr r' hr' => ?_⟩
      obtain rfl := List.mem_singleton.1 hr'
      exact h.le_pos r hr
    · intro r hr
      rcases List.mem_append.1 hr with hr | hr
      · exact Nat.le_trans (h.le_pos r hr) (Nat.le_add_right _ _)
      · obtain rfl := List.mem_singleton.1 hr
        exact Nat.le_refl _
  | reset =>
    obtain rfl := Option.some.inj hstep
    exact ⟨⟨.nil, List.forall_mem_nil _, Nat.zero_le _⟩, rfl⟩
  | write o bs =>
    simp only [PoolRun.step] at hstep
    split_ifs at hstep
    obtain rfl := Option.some.inj hstep
    exact ⟨⟨h.sorted, h.le_pos, h.pos_le⟩, rfl⟩

/-- A pool that is used as it was set up. -/
def start (pool : HiwPool) : PoolRun := ⟨pool, []⟩

theorem ordered_fixedInit (ptr : ℕ) (block : Buf) (capacity : ℕ) :
    (start (.fixedInit ptr block capacity)).Ordered :=
  ⟨.nil, List.forall_mem_nil _, Nat.zero_le _⟩

/-- **When a pool refuses what does not fit.**  A fixed pool does so exactly in the sequences in
which everything fits; and the same holds for every pool after `hiw_memory_resize_disabled`. -/
theorem refuses_iff (ptr : ℕ) (block : Buf) (capacity : ℕ) (s : PoolRun) (ops : List Op) :
    (Refuses (start (.fixedInit ptr block capacity)) ops ↔
      AllSteps step Fits (start (.fixedInit ptr block capacity)) ops) ∧
    (AllSteps step Answers { s with pool := s.pool.resizeDisabled } ops ↔
      AllSteps step Fits { s with pool := s.pool.resizeDisabled } ops) := by
  constructor
  · set s₀ := start (.fixedInit ptr block capacity) with hs₀
    have hiff : AllSteps step Answers s₀ ops ↔ AllSteps step Fits s₀ ops :=
      allSteps_answers_iff (by simp [hs₀, start, HiwPool.fixedInit, HiwMemory.fixedInit])
    constructor
    · exact fun h => hiff.1 h.answers
    · intro hfits
      have hinv : ∀ t, Passes step s₀ ops t →
          t.Ordered ∧ t.pool.reallocs = s₀.pool.reallocs := fun t ht =>
        hfits.invariant_passes (I := fun t => t.Ordered ∧ t.pool.reallocs = s₀.pool.reallocs)
          (fun u l u' hl hu hstep => by
            obtain ⟨hord, hsame⟩ := hu.1.step hl hstep
            exact ⟨hord, hsame.trans hu.2⟩)
          ⟨ordered_fixedInit ptr block capacity, rfl⟩ ht
      exact ⟨hiff.2 hfits, fun t ht => (hinv t ht).1.separate, fun t ht => (hinv t ht).2⟩
  · exact allSteps_answers_iff (Int.le_refl 0)

/-- A request for five bytes of a fixed block of four is not refused. -/
theorem not_refuses : ¬∀ ptr block capacity ops,
    Refuses (start (.fixedInit ptr block capacity)) ops := by
  intro hall
  obtain ⟨-, hnull⟩ := (hall 0 (fun _ => 0) 4 [.get 5 none]).answers.1
  have hget : HiwPool.get (.fixedInit 0 (fun _ => 0) 4) 5 none = none :=
    HiwPool.get_eq_none (by decide) (by decide)
  exact absurd (hget.symm.trans (hnull (by decide))) (by simp)

/-! ### Growing -/

/-- A request to a dynamic pool is answered with a region inside of the block, of which the pool
grows, the assertions hold, and what is stored in the regions stays. -/
def Grows (s : PoolRun) : Op → Prop
  | .get n realloc =>
    (s.pool.memory.stop < s.pool.memory.pos + n → s.pool.asserts) ∧
    ∃ b pool, s.pool.get n realloc = some (some b, pool) ∧ b + n ≤ pool.memory.stop ∧
      pool.memory.pos ≤ pool.memory.stop ∧ pool.memory.size = s.pool.memory.size + n ∧
      ∀ r ∈ s.regions, pool.block.bytes r.1 r.2 = s.pool.block.bytes r.1 r.2
  | _ => True

/-- The number of bytes asked for. -/
def Op.requested : Op → ℕ
  | .get n _ => n
  | _ => 0

/-- A dynamic pool answers as it should exactly if the request fits. -/
theorem grows_iff_fits (hr : 0 < s.pool.memory.resizeBytes) : s.Grows op ↔ s.Fits op := by
  cases op with
  | get n realloc =>
    constructor
    · rintro ⟨-, b, pool, hget, hle, -⟩
      obtain ⟨hb, rfl⟩ := HiwPool.get_dynamic hr hget
      obtain rfl := Option.some.inj hb
      exact hle
    · intro hfits
      exact ⟨fun hlt => absurd hfits (Nat.not_le_of_lt hlt), _, _, HiwPool.get_of_le hfits, hfits,
        hfits, rfl, fun _ _ => rfl⟩
  | reset => exact Iff.rfl
  | write o bs => exact Iff.rfl

/-- What is stored is stored in a region. -/
def WritesInside (s : PoolRun) : Op → Prop
  | .write o bs => s.Inside o bs
  | _ => True

theorem allSteps_fits_iff (hle : s.pool.memory.pos ≤ s.pool.memory.stop)
    (hops : ∀ op ∈ ops, op ≠ .reset) (hwrites : AllSteps step WritesInside s ops) :
    AllSteps step Fits s ops ↔
      s.pool.memory.pos + (ops.map Op.requested).sum ≤ s.pool.memory.stop := by
  induction ops generalizing s with
  | nil => exact iff_of_true trivial hle
  | cons op ops ih =>
    obtain ⟨hop, hops'⟩ := List.forall_mem_cons.1 hops
    cases op with
    | get n realloc =>
      -- if one request does not fit, neither do all: the cursor never goes back
      by_cases hfits : s.pool.memory.pos + n ≤ s.pool.memory.stop
      · have hstep : s.step (.get n realloc) = some
            { pool := { s.pool with memory := { s.pool.memory with pos := s.pool.memory.pos + n } }
              regions := s.regions ++ [(s.pool.memory.pos, n)] } := by
          rw [step, HiwPool.get_of_le hfits]
          rfl
        have hrest := ih hfits hops' (hwrites.2 _ hstep)
        rw [List.map_cons, List.sum_cons, Op.requested, ← Nat.add_assoc]
        refine Iff.trans ⟨fun h => h.2 _ hstep, fun h => ⟨hfits, fun s' hs' => ?_⟩⟩ hrest
        exact Option.some.inj (hstep.symm.trans hs') ▸ h
      · rw [List.map_cons, List.sum_cons, Op.requested]
        exact iff_of_false (fun h => hfits h.1) (by omega)
    | reset => exact absurd rfl hop
    | write o bs =>
      have hstep : s.step (.write o bs) = some
          { s with pool := { s.pool with block := s.pool.block.write o bs } } := by
        have hinside : s.Inside o bs := hwrites.1
        rw [step, if_pos hinside]
      have hrest := ih (s := { s with pool := { s.pool with block := s.pool.block.write o bs } })
        hle hops' (hwrites.2 _ hstep)
      simp only [List.map_cons, List.sum_cons, Op.requested, Nat.zero_add]
      refine Iff.trans ⟨fun h => h.2 _ hstep, fun h => ⟨trivial, fun s' hs' => ?_⟩⟩ hrest
      exact Option.some.inj (hstep.symm.trans hs') ▸ h

/-- **When a dynamic pool grows as it should.**  It answers every request of a sequence well
exactly if all requests together fit into the block it was made with. -/
theorem grows_iff {ptr : ℕ} {block : Buf} {capacity : ℤ} {pool : HiwPool}
    (hinit : HiwPool.dynamicInit ptr block capacity = some pool) (hops : ∀ op ∈ ops, op ≠ .reset)
    (hwrites : AllSteps step WritesInside (start pool) ops) :
    AllSteps step Grows (start pool) ops ↔ ((ops.map Op.requested).sum : ℤ) ≤ capacity := by
  unfold HiwPool.dynamicInit at hinit
  split_ifs at hinit with hcapacity
  obtain rfl := Option.some.inj hinit
  set pool : HiwPool := ⟨⟨0, capacity.toNat, capacity⟩, ptr, block, []⟩
  have hgrows : AllSteps step Grows (start pool) ops ↔ AllSteps step Fits (start pool) ops :=
    allSteps_congr (I := fun s => 0 < s.pool.memory.resizeBytes)
      (fun _ _ _ h hstep => (resizeBytes_step hstep).symm ▸ h) (fun _ _ h => grows_iff_fits h)
      (Int.lt_of_not_ge hcapacity)
  rw [hgrows, allSteps_fits_iff (Nat.zero_le _) hops hwrites]
  show 0 + (ops.map Op.requested).sum ≤ capacity.toNat ↔ _
  omega

/-- Two requests that fill a block of eight bytes, and a byte stored in the first region. -/
theorem grows_full : ∃ pool, HiwPool.dynamicInit 0 (fun _ => 0) 8 = some pool ∧
    AllSteps step Grows (start pool) [.get 3 none, .write 1 [7], .get 5 none] := by
  have hinit : HiwPool.dynamicInit 0 (fun _ => 0) 8 = some ⟨⟨0, 8, 8⟩, 0, fun _ => 0, []⟩ := rfl
  refine ⟨_, hinit, (grows_iff hinit (by simp) ?_).2 (by decide)⟩
  refine ⟨trivial, fun s₁ h₁ => ⟨?_, fun _ _ => ⟨trivial, fun _ _ => trivial⟩⟩⟩
  obtain rfl := Option.some.inj h₁
  exact ⟨(0, 3), List.mem_singleton.2 rfl, by decide, by decide⟩

/-- A request for five bytes of a dynamic pool of four is answered with a region that does not lie
in the block. -/
theorem not_grows : ¬∀ ptr block capacity pool ops,
    HiwPool.dynamicInit ptr block capacity = some pool → (∀ op ∈ ops, op ≠ Op.reset) →
    AllSteps step WritesInside (start pool) ops → AllSteps step Grows (start pool) ops := by
  intro hall
  have hgrows := hall 0 (fun _ => 0) 4 _ [.get 5 (some (1, fun _ => 0))] rfl (by simp)
    ⟨trivial, fun _ _ => trivial⟩
  have hfits := (grows_iff_fits (by decide)).1 hgrows.1
  exact absurd hfits (by decide)

end PoolRun

end Highway
