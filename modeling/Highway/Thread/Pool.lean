import Highway.Thread.Worker
import Mathlib.Data.List.Range

/-!
# The workers of a thread pool

A pool keeps its workers in a doubly linked list.  `hiw_thread_pool_push` takes the first worker,
moves it to the end of the list and gives it the work.

* `HiwThreadPool` : the pool with the memory of its workers, and its functions.
* `HiwThreadPool.WellFormed` : the list is what the loops over it expect.

The list is well formed as it is built, but not after a push: the worker that is moved keeps its
`next`, so that the list becomes a ring (`HiwThreadPool.Ring`); and a pool of one worker has no
second one to become the first (`HiwThreadPool.wellFormed_iff`).
-/

namespace Highway

open Lib

variable {F D : Type*}

/-- `hiw_thread_pool` with the memory of its workers.  Workers are addressed by numbers: `malloc`
hands out `allocated` next. -/
structure HiwThreadPool (F D : Type*) where
  /-- The workers, without their links. -/
  workers : ℕ → HiwThreadPoolWorker F D
  /-- `prev` of each worker -/
  prev : ℕ → Option ℕ
  /-- `next` of each worker -/
  next : ℕ → Option ℕ
  /-- The number of addresses handed out. -/
  allocated : ℕ
  workerFirst : Option ℕ
  workerLast : Option ℕ

namespace HiwThreadPool

/-- `hiw_thread_pool_worker_new` : the address of the worker. -/
def workerNew (pool : HiwThreadPool F D) : ℕ × HiwThreadPool F D :=
  let worker := pool.allocated
  let old := pool.workers worker
  (worker,
    { pool with
      workers := Function.update pool.workers worker (.new old.memory old.running)
      prev := Function.update pool.prev worker none
      next := Function.update pool.next worker none
      allocated := pool.allocated + 1 })

/-- `hiw_thread_pool_add_worker` -/
def addWorker (pool : HiwThreadPool F D) (worker : ℕ) : HiwThreadPool F D :=
  match pool.workerLast with
  | none => { pool with workerFirst := some worker, workerLast := some worker }
  | some last =>
    { pool with
      prev := Function.update pool.prev worker (some last)
      next := Function.update pool.next last (some worker)
      workerLast := some worker }

/-- The loop of `hiw_thread_pool_new`. -/
def newLoop : ℕ → HiwThreadPool F D → HiwThreadPool F D
  | 0, pool => pool
  | count + 1, pool =>
    let (worker, pool) := pool.workerNew
    newLoop count (pool.addWorker worker)

/-- `hiw_thread_pool_new` with `config->count` workers, in memory with the given contents. -/
def new (workers : ℕ → HiwThreadPoolWorker F D) (links : ℕ → Option ℕ) (count : ℕ) :
    HiwThreadPool F D :=
  newLoop count
    { workers
      prev := links
      next := links
      allocated := 0
      workerFirst := none
      workerLast := none }

/-- The first critical section of `hiw_thread_pool_push` : the worker that gets the work; `none` if
`NULL` is dereferenced. -/
def rotate (pool : HiwThreadPool F D) : Option (ℕ × HiwThreadPool F D) :=
  match pool.workerFirst with
  | none => none
  | some worker =>
    match pool.next worker with
    -- `pool->worker_first->prev` of a pool of one worker
    | none => none
    | some first =>
      match pool.workerLast with
      | none => none
      | some last =>
        let prev := Function.update pool.prev first none
        -- `worker->next` stays as it is
        some (worker,
          { pool with
            prev := Function.update prev worker (some last)
            next := Function.update pool.next last (some worker)
            workerFirst := some first
            workerLast := some worker })

/-- `hiw_thread_pool_push` -/
def push (pool : HiwThreadPool F D) (work : F × D) : Option (HiwThreadPool F D) :=
  pool.rotate.map fun (worker, pool) =>
    { pool with
      workers :=
        Function.update pool.workers worker ((pool.workers worker).push work.1 work.2) }

/-- `worker->running = true` -/
def setRunning (pool : HiwThreadPool F D) (worker : ℕ) : HiwThreadPool F D :=
  { pool with
    workers := Function.update pool.workers worker { pool.workers worker with running := true } }

/-- The loop of `hiw_thread_pool_start` from `worker` on, with the workers started so far; `none`
when it does not end within `fuel` iterations. -/
def startLoop (hiwThreadStart : ℕ → Bool) :
    ℕ → Option ℕ → HiwThreadPool F D → List ℕ → Option (Bool × HiwThreadPool F D × List ℕ)
  | _, none, pool, started => some (true, pool, started)
  | 0, some _, _, _ => none
  | fuel + 1, some worker, pool, started =>
    let pool := pool.setRunning worker
    if hiwThreadStart worker then
      startLoop hiwThreadStart fuel (pool.next worker) pool (started ++ [worker])
    else some (false, pool, started)

/-- `hiw_thread_pool_delete` : the workers that it stops and frees. -/
def delete (pool : HiwThreadPool F D) : Option (List ℕ) :=
  freeNodes pool.next pool.allocated pool.workerFirst []

/-- Following `next` from `worker_first` visits every worker once and ends at `worker_last`, and
`prev` is the inverse of `next`. -/
def WellFormed (pool : HiwThreadPool F D) : Prop :=
  ∃ ws, Chain pool.next pool.workerFirst ws ∧ ws.Perm (List.range pool.allocated) ∧
    pool.workerLast = ws.getLast? ∧
    ∀ q < pool.allocated, ∀ p, pool.prev q = some p ↔ p < pool.allocated ∧ pool.next p = some q

/-- `hiw_thread_pool_start` starts every worker once, if all threads start, and
`hiw_thread_pool_delete` frees every worker once. -/
def HandlesOnce (pool : HiwThreadPool F D) : Prop :=
  (∃ fuel pool' started,
    startLoop (fun _ => true) fuel pool.workerFirst pool [] = some (true, pool', started) ∧
      started.Perm (List.range pool.allocated)) ∧
  ∃ freed, pool.delete = some freed ∧ freed.Perm (List.range pool.allocated)

variable {pool pool' : HiwThreadPool F D} {ws : List ℕ} {worker : ℕ} {n k : ℕ} {work : F × D}

/-! ### Loops over the list -/

theorem startLoop_eq {start : Option ℕ} {started : List ℕ} {fuel : ℕ}
    (h : Chain pool.next start ws) (hfuel : ws.length ≤ fuel) :
    ∃ pool', startLoop (fun _ => true) fuel start pool started =
      some (true, pool', started ++ ws) := by
  obtain ⟨next, hnext⟩ : ∃ next, pool.next = next := ⟨_, rfl⟩
  rw [hnext] at h
  induction h generalizing pool started fuel with
  | nil =>
    rw [List.append_nil]
    cases fuel <;> exact ⟨pool, rfl⟩
  | @cons p ws h ih =>
    cases fuel with
    | zero => exact absurd hfuel (Nat.not_succ_le_zero _)
    | succ fuel =>
      obtain ⟨pool', hpool'⟩ : ∃ pool', startLoop (fun _ => true) fuel (next p)
          (pool.setRunning p) (started ++ [p]) = some (true, pool', started ++ [p] ++ ws) :=
        ih (Nat.le_of_succ_le_succ hfuel) hnext
      refine ⟨pool', ?_⟩
      rw [startLoop, if_pos rfl]
      show startLoop _ fuel (pool.next p) (pool.setRunning p) (started ++ [p]) = _
      rw [hnext, hpool', List.append_assoc, List.singleton_append]

theorem WellFormed.handlesOnce (h : pool.WellFormed) : pool.HandlesOnce := by
  obtain ⟨ws, hws, hperm, -⟩ := h
  obtain ⟨pool', hstart⟩ : ∃ pool', startLoop (fun _ => true) ws.length pool.workerFirst pool [] =
      some (true, pool', ws) := startLoop_eq hws (Nat.le_refl _)
  have hlen : ws.length = pool.allocated := by simpa using hperm.length_eq
  have hfree : pool.delete = some ws := hws.freeNodes_eq (fun _ _ => List.not_mem_nil) hlen.le
  exact ⟨⟨_, pool', ws, hstart, hperm⟩, ws, hfree, hperm⟩

/-! ### The list as it is built -/

/-- The workers stand in the order in which they have been made. -/
structure Line (pool : HiwThreadPool F D) (n : ℕ) : Prop where
  allocated : pool.allocated = n
  first : pool.workerFirst = if n = 0 then none else some 0
  last : pool.workerLast = if n = 0 then none else some (n - 1)
  next : ∀ p < n, pool.next p = if p + 1 = n then none else some (p + 1)
  prev : ∀ p < n, pool.prev p = if p = 0 then none else some (p - 1)

theorem Line.add (h : Line pool n) :
    Line (pool.workerNew.2.addWorker pool.workerNew.1) (n + 1) := by
  obtain rfl := h.allocated
  set n := pool.allocated with hn
  have hlast : pool.workerNew.2.workerLast = if n = 0 then none else some (n - 1) := h.last
  -- the first worker is both ends of the line; another one is linked to the last
  by_cases h0 : n = 0
  · rw [if_pos h0] at hlast
    have hp0 : ∀ p < n + 1, p = n := fun p hp => by omega
    simp only [addWorker, hlast]
    refine ⟨rfl, congrArg some h0, rfl, fun p hp => ?_, fun p hp => ?_⟩
    · rw [hp0 p hp, if_pos rfl]
      exact Function.update_self n none pool.next
    · rw [hp0 p hp, if_pos h0]
      exact Function.update_self n none pool.prev
  · rw [if_neg h0] at hlast
    have hfirst : pool.workerNew.2.workerFirst = some 0 := h.first.trans (if_neg h0)
    simp only [addWorker, hlast]
    refine ⟨rfl, hfirst, rfl, fun p hp => ?_, fun p hp => ?_⟩
    · show Function.update (Function.update pool.next n none) (n - 1) (some n) p = _
      have hnext := h.next p
      simp only [Function.update_apply]
      split_ifs with h1 h2 h3 h4 <;> grind
    · show Function.update (Function.update pool.prev n none) n (some (n - 1)) p = _
      have hprev := h.prev p
      simp only [Function.update_apply]
      split_ifs with h1 h2 h3 <;> grind

theorem Line.newLoop (h : Line pool n) (count : ℕ) : Line (newLoop count pool) (n + count) := by
  induction count generalizing pool n with
  | zero => exact h
  | succ count ih =>
    have hadd := ih h.add
    rwa [Nat.add_right_comm, Nat.add_assoc] at hadd

theorem line_new (workers : ℕ → HiwThreadPoolWorker F D) (links : ℕ → Option ℕ) (count : ℕ) :
    Line (new workers links count) count := by
  have h : Line (⟨workers, links, links, 0, none, none⟩ : HiwThreadPool F D) 0 :=
    ⟨rfl, rfl, rfl, fun _ hp => absurd hp (Nat.not_lt_zero _),
      fun _ hp => absurd hp (Nat.not_lt_zero _)⟩
  have hloop := h.newLoop count
  rwa [Nat.zero_add] at hloop

theorem Line.chain_from (h : Line pool n) {m : ℕ} (hk : k + m + 1 = n) :
    Chain pool.next (some k) (List.range' k (m + 1)) := by
  have hnext := h.next k (by omega)
  induction m generalizing k with
  | zero =>
    rw [if_pos hk] at hnext
    refine .cons ?_
    rw [hnext]
    exact .nil
  | succ m ih =>
    rw [if_neg (by omega)] at hnext
    refine .cons ?_
    rw [hnext]
    exact ih (by omega) (h.next _ (by omega))

theorem Line.wellFormed (h : Line pool n) : pool.WellFormed := by
  obtain rfl := h.allocated
  refine ⟨List.range pool.allocated, ?_, .refl _, ?_, fun q hq p => ?_⟩
  · rw [h.first]
    split_ifs with h0
    · rw [h0]
      exact .nil
    · obtain ⟨m, hm⟩ := Nat.exists_eq_succ_of_ne_zero h0
      rw [List.range_eq_range', hm]
      exact h.chain_from (m := m) (by omega)
  · rw [h.last, List.getLast?_range]
  · rw [h.prev q hq]
    -- `prev` counts down and `next` counts up, so one undoes the other
    constructor
    · intro hp
      split_ifs at hp with h0
      obtain rfl := Option.some.inj hp
      have hlt : q - 1 < pool.allocated := by omega
      refine ⟨hlt, ?_⟩
      rw [h.next _ hlt, if_neg (by omega)]
      exact congrArg some (by omega)
    · rintro ⟨hlt, hp⟩
      rw [h.next p hlt] at hp
      split_ifs at hp
      obtain rfl := Option.some.inj hp
      rw [if_neg (Nat.succ_ne_zero p), Nat.add_sub_cancel]

/-! ### The ring -/

/-- What the first critical section of a push does with the list. -/
theorem rotate_links (hrotate : pool.rotate = some (worker, pool')) :
    ∃ first last, pool.workerFirst = some worker ∧ pool.next worker = some first ∧
      pool.workerLast = some last ∧ pool'.workerFirst = some first ∧
      pool'.workerLast = some worker ∧
      pool'.next = Function.update pool.next last (some worker) := by
  unfold rotate at hrotate
  split at hrotate
  · cases hrotate
  · split at hrotate
    · cases hrotate
    · split at hrotate
      · cases hrotate
      · obtain ⟨rfl, rfl⟩ := Prod.mk.inj (Option.some.inj hrotate)
        exact ⟨_, _, ‹_›, ‹_›, ‹_›, rfl, rfl, rfl⟩

/-- The workers stand in a ring, and the worker number `k` is the first one. -/
structure Ring (pool : HiwThreadPool F D) (n k : ℕ) : Prop where
  first : pool.workerFirst = some (k % n)
  last : ∃ last < n, (last + 1) % n = k % n ∧ pool.workerLast = some last
  next : ∀ p < n, pool.next p = some ((p + 1) % n)

/-- The first push takes the worker that was made first, and makes a ring of the line. -/
theorem Line.rotate (h : Line pool n) (hrotate : pool.rotate = some (worker, pool')) :
    worker = 0 ∧ Ring pool' n 1 := by
  obtain ⟨first, last, hfirst, hnext, hlast, hfirst', hlast', hnext'⟩ := rotate_links hrotate
  rw [h.first] at hfirst
  rw [h.last] at hlast
  split_ifs at hfirst hlast with h0
  obtain rfl := Option.some.inj hfirst
  obtain rfl := Option.some.inj hlast
  rw [h.next 0 (Nat.pos_of_ne_zero h0)] at hnext
  split_ifs at hnext with h1
  obtain rfl := Option.some.inj hnext
  have hn : 1 < n := by omega
  refine ⟨rfl, ?_, ⟨0, Nat.pos_of_ne_zero h0, rfl, hlast'⟩, fun p hp => ?_⟩
  · rw [hfirst', Nat.mod_eq_of_lt hn]
  · rw [hnext', Function.update_apply]
    split_ifs with hp'
    · rw [hp', Nat.sub_add_cancel hn.le, Nat.mod_self]
    · rw [h.next p hp, if_neg (by omega), Nat.mod_eq_of_lt (by omega)]

/-- A push takes the first worker, and turns the ring by one. -/
theorem Ring.rotate (h : Ring pool n k) (hrotate : pool.rotate = some (worker, pool')) :
    worker = k % n ∧ Ring pool' n (k + 1) := by
  obtain ⟨first, last, hfirst, hnext, hlast, hfirst', hlast', hnext'⟩ := rotate_links hrotate
  obtain ⟨last, hlt, hmod, hlast₂⟩ := h.last
  obtain rfl := Option.some.inj (hlast₂.symm.trans hlast)
  obtain rfl := Option.some.inj (h.first.symm.trans hfirst)
  have hk : k % n < n := Nat.mod_lt k (by omega)
  rw [h.next _ hk, Nat.mod_add_mod] at hnext
  obtain rfl := Option.some.inj hnext
  refine ⟨rfl, hfirst', ⟨k % n, hk, Nat.mod_add_mod k n 1, hlast'⟩, fun p hp => ?_⟩
  rw [hnext', Function.update_apply]
  split_ifs with hp'
  · rw [hp', hmod]
  · exact h.next p hp

theorem Ring.of_workers (h : Ring pool n k) (workers : ℕ → HiwThreadPoolWorker F D) :
    Ring { pool with workers } n k :=
  ⟨h.first, h.last, h.next⟩

theorem Line.push (h : Line pool n) (hpush : pool.push work = some pool') : Ring pool' n 1 := by
  obtain ⟨⟨worker, pool₁⟩, hrotate, rfl⟩ := Option.map_eq_some_iff.1 hpush
  exact (h.rotate hrotate).2.of_workers _

theorem Ring.push (h : Ring pool n k) (hpush : pool.push work = some pool') :
    Ring pool' n (k + 1) := by
  obtain ⟨⟨worker, pool₁⟩, hrotate, rfl⟩ := Option.map_eq_some_iff.1 hpush
  exact (h.rotate hrotate).2.of_workers _

theorem Ring.pushes (h : Ring pool n k) {items : List (F × D)}
    (hrun : runLabels HiwThreadPool.push pool items = some pool') :
    Ring pool' n (k + items.length) := by
  induction items generalizing pool k with
  | nil =>
    cases hrun
    exact h
  | cons work items ih =>
    obtain ⟨pool₁, hpush, hrun⟩ := Option.bind_eq_some_iff.1 hrun
    have hring := ih (h.push hpush) hrun
    rwa [Nat.add_assoc, Nat.add_comm 1] at hring

theorem Ring.not_wellFormed (h : Ring pool n k) : ¬pool.WellFormed := by
  rintro ⟨ws, hws, -, hlast, -⟩
  obtain ⟨last, hlt, -, hlast'⟩ := h.last
  obtain ⟨ws', rfl⟩ := List.getLast?_eq_some_iff.1 (hlast.symm.trans hlast')
  -- a list ends with `NULL`, and in the ring the last worker has a next one
  have hnone := hws.next_last
  rw [h.next last hlt] at hnone
  cases hnone

/-- **When the list of workers is well formed.**  However many workers a pool is made with: the
pushes dereference no `NULL` and leave the list well formed exactly if there are none. -/
theorem wellFormed_iff (workers : ℕ → HiwThreadPoolWorker F D) (links : ℕ → Option ℕ) (count : ℕ)
    (items : List (F × D)) :
    (∃ pool, runLabels push (new workers links count) items = some pool ∧
      pool.WellFormed ∧ pool.HandlesOnce) ↔ items = [] := by
  have hline := line_new workers links count
  constructor
  · rintro ⟨pool, hrun, hwf, -⟩
    cases items with
    | nil => rfl
    | cons work items =>
      obtain ⟨pool₁, hpush, hrun⟩ := Option.bind_eq_some_iff.1 hrun
      exact absurd hwf ((hline.push hpush).pushes hrun).not_wellFormed
  · rintro rfl
    exact ⟨_, rfl, hline.wellFormed, hline.wellFormed.handlesOnce⟩

/-- One push makes a ring of two workers. -/
theorem not_wellFormed : ¬∀ count items, 1 ≤ count →
    ∃ pool, runLabels push
      (new (F := Unit) (D := Unit) (fun _ => .new (fun _ => ⟨(), (), none⟩) false)
        (fun _ => none) count) items = some pool ∧ pool.WellFormed ∧ pool.HandlesOnce := by
  intro hall
  obtain ⟨pool, hrun, ⟨ws, hws, -, hlast, -⟩, -⟩ := hall 2 [((), ())] (by decide)
  obtain rfl := Option.some.inj hrun
  obtain ⟨ws', rfl⟩ := List.getLast?_eq_some_iff.1 hlast.symm
  cases hws.next_last

end HiwThreadPool

end Highway
