import Mathlib.Data.List.Nodup
import Mathlib.Data.List.Perm.Subperm
import Mathlib.Logic.Function.Basic

/-!
# Linked chains

A singly linked list in memory is a function `next : α → Option α` on addresses and the address of
the first node.  `Chain next start ps` says that following `next` from `start` visits the nodes
`ps` and then ends; a start from which the walk does not end has no chain at all.

* `Chain.unique`, `Chain.nodup` : the nodes are determined, and no node is visited twice.
* `Chain.congr` : only the nodes of the chain matter.
* `Chain.concat` : storing a node behind the last one extends the chain by it.
* `Chain.follow_eq` : a bounded walk finds the nodes of a chain that is not too long.
* `Chain.freeNodes_eq` : a walk that frees the nodes it leaves frees every node of a chain once.
-/

namespace Lib

variable {α : Type*}

/-- Following `next` from `start` visits `ps` and ends. -/
inductive Chain (next : α → Option α) : Option α → List α → Prop
  | nil : Chain next none []
  | cons {p : α} {ps : List α} : Chain next (next p) ps → Chain next (some p) (p :: ps)

/-- The nodes visited in at most `n` steps. -/
def follow (next : α → Option α) : ℕ → Option α → List α
  | 0, _ => []
  | _ + 1, none => []
  | n + 1, some p => p :: follow next n (next p)

variable {next next' : α → Option α} {start : Option α} {p l : α} {ps qs : List α}

theorem Chain.nil_iff : Chain next none ps ↔ ps = [] := by
  constructor
  · intro h
    cases h
    rfl
  · rintro rfl
    exact .nil

theorem Chain.cons_iff : Chain next (some p) ps ↔ ∃ qs, ps = p :: qs ∧ Chain next (next p) qs := by
  constructor
  · intro h
    cases h with
    | cons h => exact ⟨_, rfl, h⟩
  · rintro ⟨qs, rfl, h⟩
    exact .cons h

theorem Chain.start_eq (h : Chain next start ps) : start = ps.head? := by
  cases h <;> rfl

theorem Chain.unique (h : Chain next start ps) (h' : Chain next start qs) : ps = qs := by
  induction h generalizing qs with
  | nil => exact (Chain.nil_iff.1 h').symm
  | cons _ ih =>
    obtain ⟨qs', rfl, hq⟩ := Chain.cons_iff.1 h'
    rw [ih hq]

theorem Chain.of_mem (h : Chain next start ps) (hp : p ∈ ps) :
    ∃ qs, Chain next (some p) qs ∧ qs.length ≤ ps.length := by
  induction h with
  | nil => cases hp
  | @cons q ps h ih =>
    rcases List.mem_cons.1 hp with rfl | hp
    · exact ⟨_, .cons h, Nat.le_refl _⟩
    · obtain ⟨qs, hq, hle⟩ := ih hp
      exact ⟨qs, hq, Nat.le_succ_of_le hle⟩

/-- A chain does not come back to a node: the way from there to the end would have two lengths. -/
theorem Chain.nodup (h : Chain next start ps) : ps.Nodup := by
  induction h with
  | nil => exact List.nodup_nil
  | @cons p ps h ih =>
    refine List.nodup_cons.2 ⟨fun hmem => ?_, ih⟩
    obtain ⟨qs, hq, hle⟩ := h.of_mem hmem
    have heq := (Chain.cons h).unique hq
    rw [← heq] at hle
    exact absurd hle (Nat.not_succ_le_self _)

/-- Only the links of the chain's nodes matter. -/
theorem Chain.congr (h : Chain next start ps) (heq : ∀ q ∈ ps, next' q = next q) :
    Chain next' start ps := by
  induction h with
  | nil => exact .nil
  | @cons p ps _ ih =>
    obtain ⟨hp, hps⟩ := List.forall_mem_cons.1 heq
    exact .cons (hp ▸ ih hps)

theorem Chain.next_last (h : Chain next start (ps ++ [l])) : next l = none := by
  induction ps generalizing start with
  | nil =>
    cases h with
    | cons h => exact h.start_eq
  | cons p ps ih =>
    cases h with
    | cons h => exact ih h

/-- A walk of enough steps finds the chain. -/
theorem Chain.follow_eq (h : Chain next start ps) {n : ℕ} (hn : ps.length ≤ n) :
    follow next n start = ps := by
  induction n generalizing start ps with
  | zero => exact (List.length_eq_zero_iff.1 (Nat.le_zero.1 hn)).symm
  | succ n ih =>
    cases h with
    | nil => rfl
    | cons h => rw [follow, ih h (Nat.le_of_succ_le_succ hn)]

theorem Chain.length_le {next : ℕ → Option ℕ} {start : Option ℕ} {ps : List ℕ} {n : ℕ}
    (h : Chain next start ps) (hlt : ∀ p ∈ ps, p < n) : ps.length ≤ n := by
  have hsub : ps ⊆ List.range n := fun p hp => List.mem_range.2 (hlt p hp)
  simpa using (h.nodup.subperm hsub).length_le

/-! ### Storing links -/

variable [DecidableEq α]

/-- Free the nodes from the given one on, each after its link has been read, with the nodes freed so
far; `none` when a node is freed twice, or when `n` steps do not come to the end. -/
def freeNodes (next : α → Option α) : ℕ → Option α → List α → Option (List α)
  | _, none, freed => some freed
  | 0, some _, _ => none
  | n + 1, some p, freed =>
    if p ∈ freed then none else freeNodes next n (next p) (freed ++ [p])

/-- The nodes of a chain are freed one after the other. -/
theorem Chain.freeNodes_eq {freed : List α} {n : ℕ} (h : Chain next start ps)
    (hfreed : ∀ p ∈ ps, p ∉ freed) (hn : ps.length ≤ n) :
    freeNodes next n start freed = some (freed ++ ps) := by
  induction h generalizing freed n with
  | nil =>
    rw [List.append_nil]
    cases n <;> rfl
  | @cons p ps h ih =>
    obtain ⟨hp, hps⟩ := List.forall_mem_cons.1 hfreed
    obtain ⟨hpps, -⟩ := List.nodup_cons.1 (Chain.cons h).nodup
    cases n with
    | zero => exact absurd hn (Nat.not_succ_le_zero _)
    | succ n =>
      -- the rest of the chain neither was freed before nor contains `p`
      rw [freeNodes, if_neg hp, ih ?_ (Nat.le_of_succ_le_succ hn), List.append_assoc,
        List.singleton_append]
      intro q hq hmem
      rcases List.mem_append.1 hmem with hmem | hmem
      · exact hps q hq hmem
      · rw [List.mem_singleton.1 hmem] at hq
        exact hpps hq

theorem Chain.update (h : Chain next start ps) (hp : p ∉ ps) (q : Option α) :
    Chain (Function.update next p q) start ps :=
  h.congr fun _ hq => Function.update_of_ne (ne_of_mem_of_not_mem hq hp) _ _

theorem Chain.cons_update (h : Chain next start ps) (hp : p ∉ ps) :
    Chain (Function.update next p start) (some p) (p :: ps) := by
  refine .cons ?_
  rw [Function.update_self]
  exact h.update hp start

/-- **A new node behind the last one.** -/
theorem Chain.concat (h : Chain next start (ps ++ [l])) (hp : p ∉ ps ++ [l]) :
    Chain (Function.update (Function.update next p none) l (some p)) start (ps ++ [l] ++ [p]) := by
  have hnd := h.nodup
  have hpl : p ≠ l := fun heq => hp (by simp [heq])
  induction ps generalizing start with
  | nil =>
    cases h with
    | cons h =>
      refine .cons ?_
      rw [Function.update_self]
      refine .cons ?_
      rw [Function.update_of_ne hpl, Function.update_self]
      exact .nil
  | cons a ps ih =>
    cases h with
    | cons h =>
      obtain ⟨ha, hnd⟩ := List.nodup_cons.1 hnd
      have hal : a ≠ l := fun heq => ha (by simp [heq])
      have hap : a ≠ p := fun heq => hp (by simp [heq])
      refine .cons ?_
      -- both stores are behind `a`, whose link is the old one
      rw [Function.update_of_ne hal, Function.update_of_ne hap]
      exact ih h (fun hmem => hp (List.mem_cons_of_mem _ hmem)) hnd

end Lib
