import Highway.Std.Pool

/-!
# The capacity loop of `hiw_memory_resize`

The pools that can be made are fixed blocks, with `resize_bytes` -1, dynamic blocks, with a
positive `resize_bytes`, and the pools of `hiw_memory_resize_disabled`, with 0
(`HiwPool.Reachable`).  The test in front of the loop lets through the first and the last kind, and
these do not come nearer to `required_bytes` with an iteration: the loop ends only where nothing
has to be added (`HiwPool.resizes_iff`).
-/

namespace Highway

namespace HiwPool

/-- The pools that can be made and used. -/
inductive Reachable : HiwPool → Prop
  | fixedInit (ptr : ℕ) (block : Buf) (capacity : ℕ) : capacity < 2 ^ 31 →
      Reachable (.fixedInit ptr block capacity)
  | dynamicInit {ptr : ℕ} {block : Buf} {capacity : ℤ} {p : HiwPool} : capacity < 2 ^ 31 →
      dynamicInit ptr block capacity = some p → Reachable p
  | resizeDisabled {p : HiwPool} : Reachable p → Reachable p.resizeDisabled
  | get {p p' : HiwPool} {n : ℕ} {realloc : Realloc} {o : Option ℕ} : Reachable p →
      p.get n realloc = some (o, p') → Reachable p'
  | reset {p : HiwPool} : Reachable p → Reachable p.reset

/-- A call of `hiw_memory_resize` that gets to the capacity loop leaves it after finitely many
iterations, no addition leaves the range of `int`, and the capacity is large enough. -/
structure Resizes (p : HiwPool) (requiredBytes : ℤ) : Prop where
  first : p.memory.resizeEnabled = true →
    -2 ^ 31 ≤ p.memory.capacity + p.memory.resizeBytes ∧
      p.memory.capacity + p.memory.resizeBytes < 2 ^ 31
  loop : p.memory.resizeEnabled = true → ∃ fuel newCapacity,
    HiwMemory.resizeLoop p.memory.resizeBytes requiredBytes fuel
        (p.memory.capacity + p.memory.resizeBytes) = some newCapacity ∧
      requiredBytes ≤ newCapacity

variable {p p' : HiwPool} {n : ℕ} {realloc : Realloc} {o : Option ℕ}

theorem stop_get (h : p.get n realloc = some (o, p')) : p'.memory.stop = p.memory.stop := by
  obtain ⟨-, rfl, -⟩ := get_cases h
  rfl

theorem Reachable.encoding (h : p.Reachable) :
    -1 ≤ p.memory.resizeBytes ∧ p.memory.stop < 2 ^ 31 := by
  induction h with
  | fixedInit ptr block capacity hcap => exact ⟨le_rfl, hcap⟩
  | @dynamicInit ptr block capacity p hcap hinit =>
    unfold HiwPool.dynamicInit at hinit
    split_ifs at hinit with hpos
    obtain rfl := Option.some.inj hinit
    constructor
    · show -1 ≤ capacity
      omega
    · show capacity.toNat < 2 ^ 31
      omega
  | resizeDisabled _ ih => exact ⟨show (-1 : ℤ) ≤ 0 by decide, ih.2⟩
  | get _ hget ih => exact ⟨resizeBytes_get hget ▸ ih.1, stop_get hget ▸ ih.2⟩
  | reset _ ih => exact ih

theorem resizeLoop_of_le {r q c : ℤ} (h : q ≤ c) (fuel : ℕ) :
    HiwMemory.resizeLoop r q (fuel + 1) c = some c := by
  rw [HiwMemory.resizeLoop, if_neg (not_lt.2 h)]

/-- A loop that ends was not needed: nothing that is added makes the capacity larger. -/
theorem Resizes.dynamic_or_le {requiredBytes : ℤ} (h : p.Resizes requiredBytes) :
    0 < p.memory.resizeBytes ∨ requiredBytes ≤ p.memory.capacity + p.memory.resizeBytes := by
  by_contra hno
  obtain ⟨hr, hlt⟩ := not_or.1 hno
  obtain ⟨fuel, newCapacity, hsome, -⟩ := h.2 (decide_eq_true (not_lt.1 hr))
  rw [HiwMemory.resizeLoop_eq_none (not_lt.1 hr) (not_le.1 hlt)] at hsome
  cases hsome

/-- **When `hiw_memory_resize` gets through its loop.**  It does for the pools that do not get to
the loop at all, and otherwise if and only if the first capacity is large enough already. -/
theorem resizes_iff (h : p.Reachable) (requiredBytes : ℤ) :
    p.Resizes requiredBytes ↔ 0 < p.memory.resizeBytes ∨
      requiredBytes ≤ p.memory.capacity + p.memory.resizeBytes := by
  obtain ⟨hkind, hstop⟩ := h.encoding
  refine ⟨Resizes.dynamic_or_le, ?_⟩
  rintro (hr | hle)
  · have hdis : p.memory.resizeEnabled = false := decide_eq_false (not_le.2 hr)
    exact ⟨fun henabled => by simp [hdis] at henabled, fun henabled => by simp [hdis] at henabled⟩
  · refine ⟨fun henabled => ?_, fun _ => ⟨1, _, resizeLoop_of_le hle 0, hle⟩⟩
    have hr : p.memory.resizeBytes ≤ 0 := of_decide_eq_true henabled
    simp only [HiwMemory.capacity]
    omega

/-- A fixed block of four bytes, from which three bytes are asked for. -/
theorem resizes_small : (fixedInit 0 (fun _ => 0) 4).Resizes 3 :=
  (resizes_iff (.fixedInit 0 (fun _ => 0) 4 (by decide)) 3).2 (.inr (by decide))

/-- A fixed block of four bytes, from which five bytes are asked for. -/
theorem not_resizes : ¬∀ (p : HiwPool) (requiredBytes : ℤ), p.Reachable →
    requiredBytes ≤ (2 ^ 31 - 1) / 2 → p.Resizes requiredBytes := by
  intro hall
  have hreach : (fixedInit 0 (fun _ => 0) 4).Reachable := .fixedInit 0 (fun _ => 0) 4 (by decide)
  exact absurd (hall _ 5 hreach (by decide)).dynamic_or_le (by decide)

theorem Resizes.returns {requiredBytes : ℕ} (h : p.Resizes requiredBytes) (realloc : Realloc) :
    ∃ b p', p.resize requiredBytes realloc = some (b, p') := by
  unfold resize
  rcases h.dynamic_or_le with hr | hle
  · have hdis : p.memory.resizeEnabled = false := decide_eq_false (not_le.2 hr)
    exact ⟨false, p, by simp [hdis]⟩
  · split_ifs
    · exact ⟨false, p, rfl⟩
    · rw [show (2 ^ 32 : ℕ) = (2 ^ 32 - 1) + 1 by decide, resizeLoop_of_le hle]
      exact ⟨_, _, rfl⟩

end HiwPool

end Highway
