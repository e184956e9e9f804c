import Highway.Thread.Pool
import Highway.Thread.Queue
import Mathlib.Data.Int.CardIntervalMod

/-!
# Whose turn it is

`hiw_thread_pool_push` has two critical sections: in that of the pool it takes the first worker and
turns the ring of workers by one, and in that of the worker it links the work to the worker's
queue.  `PushRun` is the pool with the pushes that have been through the first one.  Pushes of
different callers overlap, and in between anything may happen to the workers' queues.

The pushes take the workers in turn (`PushRun.roundRobin`): the push number `k` works on the worker
that was made as number `k % count`.
-/

namespace Highway

open Lib

variable {F D : Type*}

namespace HiwThreadPoolWorker

/-- The work comes behind what was `work_last`, or is the only one in the queue. -/
def Behind (w : HiwThreadPoolWorker F D) (work : ℕ) : Option ℕ → Prop
  | none => w.workNext = some work ∧ w.workLast = some work
  | some last => w.next last = some work

/-- Whatever the queue is, a push puts its pair behind `work_last`. -/
theorem exists_behind_push (w : HiwThreadPoolWorker F D) (func : F) (data : D) :
    ∃ work, (w.push func data).item work = (func, data) ∧
      (w.push func data).Behind work w.workLast := by
  obtain ⟨work, w', hnew⟩ : ∃ work w', w.workNew func data = (work, w') := ⟨_, _, rfl⟩
  have hlast : w'.workLast = w.workLast := by
    rw [← workLast_workNew w func data, hnew]
  have hitem : w'.item work = (func, data) := by
    cases hf : w.workFree with
    | none =>
      obtain ⟨rfl, rfl⟩ := Prod.mk.inj ((workNew_of_none hf).symm.trans hnew)
      exact (congrFun (item_store w _ func data) _).trans (Function.update_self ..)
    | some free =>
      obtain ⟨rfl, rfl⟩ := Prod.mk.inj ((workNew_of_some hf).symm.trans hnew)
      exact (congrFun (item_store w _ func data) _).trans (Function.update_self ..)
  refine ⟨work, ?_⟩
  cases hl : w.workLast with
  | none =>
    rw [push_of_none hnew (hlast.trans hl)]
    exact ⟨hitem, rfl, rfl⟩
  | some last =>
    rw [push_of_some hnew (hlast.trans hl), item_setNext]
    refine ⟨hitem, ?_⟩
    show (w'.setNext last (some work)).next last = some work
    rw [next_setNext, Function.update_self]

end HiwThreadPoolWorker

/-- A call of `hiw_thread_pool_push` that has been through the critical section of the pool. -/
structure Push (F D : Type*) where
  func : F
  data : D
  /-- The worker it has taken. -/
  worker : ℕ
  /-- It has linked the work, and returned. -/
  returned : Bool

/-- A pool with its pushes, in the order in which they held the critical section of the pool. -/
structure PushRun (F D : Type*) where
  pool : HiwThreadPool F D
  pushes : List (Push F D)
  /-- How much work has been linked to the queue of each worker. -/
  given : ℕ → ℕ

namespace PushRun

/-- What can happen next. -/
inductive Action (F D : Type*) where
  /-- A caller of `hiw_thread_pool_push` goes through the critical section of the pool. -/
  | take (func : F) (data : D)
  /-- The push goes through the critical section of the worker it has taken. -/
  | link (push : ℕ)
  /-- Something else happens to a worker. -/
  | work (worker : ℕ) (after : HiwThreadPoolWorker F D)

/-- A pool that nothing has been pushed to. -/
def start (pool : HiwThreadPool F D) : PushRun F D := ⟨pool, [], fun _ => 0⟩

/-- The state of a worker is set. -/
def setWorker (s : PushRun F D) (worker : ℕ) (after : HiwThreadPoolWorker F D) : PushRun F D :=
  { s with pool := { s.pool with workers := Function.update s.pool.workers worker after } }

/-- One step; `none` if there is no such push under way, or if `NULL` is dereferenced. -/
def step (s : PushRun F D) : Action F D → Option (PushRun F D)
  | .take func data =>
    s.pool.rotate.map fun (worker, pool) =>
      { s with pool, pushes := s.pushes ++ [⟨func, data, worker, false⟩] }
  | .link k =>
    match s.pushes[k]? with
    | none => none
    | some p =>
      if p.returned then none
      else
        let s := s.setWorker p.worker ((s.pool.workers p.worker).push p.func p.data)
        some { s with
          pushes := s.pushes.set k { p with returned := true }
          given := Function.update s.given p.worker (s.given p.worker + 1) }
  | .work worker after => some (s.setWorker worker after)

/-- How many pushes have taken the worker. -/
def taken (s : PushRun F D) (worker : ℕ) : ℕ := s.pushes.countP fun p => p.worker = worker

/-- The pushes to a pool of `n` workers take these in turn. -/
structure RoundRobin (s : PushRun F D) (n : ℕ) : Prop where
  /-- No push dereferences `NULL`. -/
  goesOn : ∀ func data, (s.step (.take func data)).isSome = true
  worker : ∀ k p, s.pushes[k]? = some p → p.worker = k % n
  /-- A push links its work to the queue of the worker it has taken, behind what was its end. -/
  link : ∀ k s', s.step (.link k) = some s' → ∃ p, s.pushes[k]? = some p ∧
    s'.pool.workers = Function.update s.pool.workers (k % n)
      ((s.pool.workers (k % n)).push p.func p.data) ∧
    ∃ work, (s'.pool.workers (k % n)).item work = (p.func, p.data) ∧
      (s'.pool.workers (k % n)).Behind work (s.pool.workers (k % n)).workLast
  even : ∀ a < n, ∀ b < n, s.taken a ≤ s.taken b + 1
  /-- The same for the work that has been linked, when all pushes have returned. -/
  given : (∀ p ∈ s.pushes, p.returned = true) → ∀ a < n, ∀ b < n, s.given a ≤ s.given b + 1

/-- The invariant: the list of workers is the line, or the ring at the next worker. -/
structure Turn (s : PushRun F D) (n : ℕ) : Prop where
  links : (s.pushes = [] ∧ HiwThreadPool.Line s.pool n) ∨
    HiwThreadPool.Ring s.pool n s.pushes.length
  worker : s.pushes.map Push.worker = (List.range s.pushes.length).map (· % n)
  given : ∀ a, s.given a = s.pushes.countP fun p => p.returned && p.worker = a

variable {s s' : PushRun F D} {n a : ℕ}

theorem isSome_rotate (hn : 2 ≤ n) (h : s.Turn n) : s.pool.rotate.isSome = true := by
  obtain ⟨worker, first, last, hfirst, hnext, hlast⟩ : ∃ worker first last,
      s.pool.workerFirst = some worker ∧ s.pool.next worker = some first ∧
        s.pool.workerLast = some last := by
    rcases h.links with ⟨-, hline⟩ | hring
    · refine ⟨0, 1, n - 1, ?_, ?_, ?_⟩
      · rw [hline.first, if_neg (by omega)]
      · rw [hline.next 0 (by omega), if_neg (by omega)]
      · rw [hline.last, if_neg (by omega)]
    · obtain ⟨last, -, -, hlast⟩ := hring.last
      exact ⟨_, _, last, hring.first, hring.next _ (Nat.mod_lt _ (by omega)), hlast⟩
  simp only [HiwThreadPool.rotate, hfirst, hnext, hlast, Option.isSome_some]

theorem Turn.rotate (h : s.Turn n) {worker : ℕ} {pool : HiwThreadPool F D}
    (hrotate : s.pool.rotate = some (worker, pool)) :
    worker = s.pushes.length % n ∧ HiwThreadPool.Ring pool n (s.pushes.length + 1) := by
  rcases h.links with ⟨hnil, hline⟩ | hring
  · obtain ⟨rfl, hring⟩ := hline.rotate hrotate
    rw [hnil]
    exact ⟨(Nat.zero_mod n).symm, hring⟩
  · exact hring.rotate hrotate

theorem Turn.worker_eq (h : s.Turn n) {k : ℕ} {p : Push F D} (hp : s.pushes[k]? = some p) :
    p.worker = k % n := by
  obtain ⟨hk, -⟩ := List.getElem?_eq_some_iff.1 hp
  have hget := congrArg (fun l => l[k]?) h.worker
  simp only [List.getElem?_map, hp, List.getElem?_range hk, Option.map_some] at hget
  exact Option.some.inj hget

theorem turn_start (workers : ℕ → HiwThreadPoolWorker F D) (links : ℕ → Option ℕ) (n : ℕ) :
    (start (.new workers links n)).Turn n :=
  ⟨.inl ⟨rfl, HiwThreadPool.line_new workers links n⟩, rfl, fun _ => rfl⟩

theorem Turn.setWorker (h : s.Turn n) (worker : ℕ) (after : HiwThreadPoolWorker F D) :
    (s.setWorker worker after).Turn n := by
  refine ⟨?_, h.worker, h.given⟩
  rcases h.links with ⟨hnil, hline⟩ | hring
  · exact .inl ⟨hnil, hline.allocated, hline.first, hline.last, hline.next, hline.prev⟩
  · exact .inr (hring.of_workers _)

theorem step_link {k : ℕ} (hstep : s.step (.link k) = some s') :
    ∃ p, s.pushes[k]? = some p ∧ p.returned = false ∧
      s' = { s.setWorker p.worker ((s.pool.workers p.worker).push p.func p.data) with
        pushes := s.pushes.set k { p with returned := true }
        given := Function.update s.given p.worker (s.given p.worker + 1) } := by
  unfold step at hstep
  cases hp : s.pushes[k]? with
  | none => simp [hp] at hstep
  | some p =>
    simp only [hp] at hstep
    split_ifs at hstep with hret
    exact ⟨p, rfl, by simpa using hret, (Option.some.inj hstep).symm⟩

/-- **Every step keeps the turn.** -/
theorem Turn.step {a : Action F D} (h : s.Turn n) (hstep : s.step a = some s') : s'.Turn n := by
  cases a with
  | take func data =>
    obtain ⟨⟨worker, pool⟩, hrotate, rfl⟩ := Option.map_eq_some_iff.1 hstep
    obtain ⟨rfl, hring⟩ := h.rotate hrotate
    refine ⟨.inr ?_, ?_, fun a => ?_⟩
    · rw [List.length_append]
      exact hring
    · rw [List.map_append, h.worker, List.length_append, List.length_singleton, List.range_succ,
        List.map_append]
      rfl
    · rw [List.countP_append, List.countP_singleton]
      exact h.given a
  | link k =>
    obtain ⟨p, hp, hret, rfl⟩ := step_link hstep
    obtain ⟨hk, hget⟩ := List.getElem?_eq_some_iff.1 hp
    have hset := h.setWorker p.worker ((s.pool.workers p.worker).push p.func p.data)
    refine ⟨?_, ?_, fun a => ?_⟩
    · rcases hset.links with ⟨hnil, -⟩ | hring
      · have hnil' : s.pushes = [] := hnil
        rw [hnil'] at hk
        exact absurd hk (Nat.not_lt_zero k)
      · rw [List.length_set]
        exact .inr hring
    · rw [List.map_set, List.length_set, ← h.worker]
      -- the worker of the push stays the same
      refine List.ext_getElem? fun i => ?_
      rw [List.getElem?_set]
      split_ifs with hi hlt
      · rw [← hi, List.getElem?_map, hp]
        rfl
      · rw [List.length_map] at hlt
        omega
      · rfl
    · rw [List.countP_set hk, hget, hret, ← h.given a]
      simp only [Function.update_apply]
      by_cases ha : a = p.worker
      · simp [ha]
      · simp [ha, Ne.symm ha]
  | work worker after =>
    obtain rfl := Option.some.inj hstep
    exact h.setWorker worker after

/-- How often a worker is taken depends on its number, by one at most. -/
theorem Turn.taken_eq (h : s.Turn n) (ha : a < n) :
    s.taken a = s.pushes.length / n + if a < s.pushes.length % n then 1 else 0 := by
  have hcount : s.taken a = Nat.count (· ≡ a [MOD n]) s.pushes.length := by
    have hmap : s.taken a = (s.pushes.map Push.worker).countP (· = a) := by
      rw [List.countP_map]
      rfl
    rw [hmap, h.worker, List.countP_map, Nat.count]
    refine List.countP_congr fun k _ => ?_
    simp [Nat.ModEq, Nat.mod_eq_of_lt ha]
  rw [hcount, Nat.count_modEq_card _ (by omega), Nat.mod_eq_of_lt ha]

theorem Turn.toRoundRobin (h : s.Turn n) (hn : 2 ≤ n) : s.RoundRobin n := by
  have heven : ∀ a < n, ∀ b < n, s.taken a ≤ s.taken b + 1 := by
    intro a ha b hb
    rw [h.taken_eq ha, h.taken_eq hb]
    split_ifs <;> omega
  refine ⟨fun func data => ?_, fun k p hp => h.worker_eq hp, fun k s' hstep => ?_, heven,
    fun hall a ha b hb => ?_⟩
  · rw [PushRun.step, Option.isSome_map]
    exact isSome_rotate hn h
  · obtain ⟨p, hp, -, rfl⟩ := step_link hstep
    rw [← h.worker_eq hp]
    refine ⟨p, hp, rfl, ?_⟩
    have hpush : (s.setWorker p.worker ((s.pool.workers p.worker).push p.func p.data)).pool.workers
        p.worker = (s.pool.workers p.worker).push p.func p.data := Function.update_self ..
    show ∃ work, ((s.setWorker p.worker _).pool.workers p.worker).item work = _ ∧ _
    rw [hpush]
    exact HiwThreadPoolWorker.exists_behind_push _ _ _
  · have htaken : ∀ a, s.given a = s.taken a := by
      intro a
      rw [h.given, taken]
      refine List.countP_congr fun p hp => ?_
      simp [hall p hp]
    rw [htaken, htaken]
    exact heven a ha b hb

/-- **The workers are taken in turn.**  In every run of a pool that has been made with two workers
or more. -/
theorem roundRobin (workers : ℕ → HiwThreadPoolWorker F D) (links : ℕ → Option ℕ) (hn : 2 ≤ n)
    {actions : List (Action F D)}
    (hrun : runLabels step (start (.new workers links n)) actions = some s) : s.RoundRobin n := by
  have hturn : s.Turn n :=
    invariant_of_runLabels (I := fun s => s.Turn n) (fun _ _ _ _ => Turn.step)
      (turn_start workers links n) hrun
  exact hturn.toRoundRobin hn

/-- Two workers and three pushes, the second of which links its work last. -/
theorem roundRobin_two : ∃ s : PushRun Unit ℕ,
    runLabels step (start (.new (fun _ => .new (fun _ => ⟨(), 0, none⟩) true) (fun _ => none) 2))
      [.take () 1, .take () 2, .link 0, .take () 3, .link 2, .link 1] = some s ∧
    s.RoundRobin 2 :=
  ⟨_, rfl, @roundRobin Unit ℕ _ 2 (fun _ => .new (fun _ => ⟨(), 0, none⟩) true) (fun _ => none)
    (by decide) [.take () 1, .take () 2, .link 0, .take () 3, .link 2, .link 1] rfl⟩

end PushRun

end Highway
