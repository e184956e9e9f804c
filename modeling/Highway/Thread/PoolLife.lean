import Highway.Thread.ThreadPoolRun

/-!
# From the start of a thread pool to its end

`hiw_thread_pool_start` and `hiw_thread_pool_delete`, one line at a time, with the threads they
start and join and with the callers of `hiw_thread_pool_push`, in any order.  `PoolLife` knows what
has been freed: who looks at a freed object is recorded, and nothing is said about what comes after.

`PoolLife.Change` lists what a step of the main thread can do.
-/

namespace Highway

open Lib

variable {F D : Type*}

/-- The action is one of the thread of the worker. -/
def WorkerRun.Action.ByThread : WorkerRun.Action F D → Prop
  | .enter | .wake | .call | .done => True
  | _ => False

instance : (a : WorkerRun.Action F D) → Decidable a.ByThread
  | .enter | .wake | .call | .done => isTrue trivial
  | .push .. | .start | .stop => isFalse id

namespace PoolLife

/-- The objects on the heap that a pool is made of. -/
inductive HeapObject where
  | pool
  | worker (a : ℕ)
  /-- The `hiw_thread` of a worker. -/
  | thread (a : ℕ)
  /-- A node of the work of a worker. -/
  | work (a : ℕ) (work : ℕ)
  deriving DecidableEq

/-- Who looks at them. -/
inductive Party where
  /-- The thread that starts and deletes the pool. -/
  | main
  /-- The thread of a worker. -/
  | thread (a : ℕ)
  /-- A caller of `hiw_thread_pool_push`. -/
  | caller
  deriving DecidableEq

/-- Where the main thread is; `next` has been read in front of the worker's end. -/
inductive MainPc where
  /-- In neither function. -/
  | idle
  /-- In `hiw_thread_pool_start`, in front of a worker. -/
  | starting (worker : Option ℕ)
  /-- In `hiw_thread_pool_delete`, in front of a worker. -/
  | walking (worker : Option ℕ)
  /-- At the critical section of `hiw_thread_pool_worker_stop`; `again` when it is called by
  `hiw_thread_pool_worker_delete`. -/
  | stopping (again : Bool) (worker : ℕ) (next : Option ℕ)
  /-- At its `hiw_thread_wait`. -/
  | joining (again : Bool) (worker : ℕ) (next : Option ℕ)
  /-- In the loop of `hiw_thread_pool_worker_delete`. -/
  | cleaning (worker : ℕ) (work : Option ℕ) (next : Option ℕ)
  /-- At its `hiw_thread_delete`. -/
  | deletingThread (worker : ℕ) (next : Option ℕ)
  /-- At its `free`. -/
  | freeingWorker (worker : ℕ) (next : Option ℕ)
  /-- Back from `hiw_thread_pool_delete`. -/
  | done
  deriving DecidableEq

end PoolLife

/-- A thread pool with all who use it. -/
structure PoolLife (F D : Type*) where
  pool : ThreadPoolRun F D
  main : PoolLife.MainPc
  /-- `started` of the thread of each worker -/
  started : ℕ → Bool
  /-- The workers whose threads `pthread_join` was called for. -/
  joined : List ℕ
  freed : List PoolLife.HeapObject
  /-- Who has looked at which freed object. -/
  fault : Option (PoolLife.Party × PoolLife.HeapObject)

namespace PoolLife

/-- What can happen next. -/
inductive Action (F D : Type*) where
  /-- The main thread calls `hiw_thread_pool_start`. -/
  | start
  /-- The main thread calls `hiw_thread_pool_delete`. -/
  | delete
  /-- The main thread goes on; `created` says whether `pthread_create` succeeds. -/
  | main (created : Bool)
  /-- A caller of `hiw_thread_pool_push` or the thread of a worker goes on. -/
  | pool (action : ThreadPoolRun.Action F D)

/-- The list of workers. -/
def list (s : PoolLife F D) : HiwThreadPool F D := s.pool.pushRun.pool

/-- A worker. -/
def worker (s : PoolLife F D) (a : ℕ) : HiwThreadPoolWorker F D := s.list.workers a

/-- The calls of `hiw_thread_pool_push`. -/
def pushes (s : PoolLife F D) : List (Push F D) := s.pool.pushRun.pushes

/-- `worker->running = true`, and the call of `hiw_thread_start`. -/
def launch (s : PoolLife F D) (a : ℕ) (created : Bool) : PoolLife F D :=
  let r := s.pool.run a
  { s with
    pool := s.pool.setRun a
      { r with
        worker := { r.worker with running := true }
        pc := if created then .top else r.pc }
    started := if created then Function.update s.started a true else s.started }

/-- The critical section of `hiw_thread_pool_worker_stop`. -/
def stop (s : PoolLife F D) (a : ℕ) : PoolLife F D :=
  let r := s.pool.run a
  { s with pool := s.pool.setRun a { r with worker := r.worker.stop, stopCalled := true } }

/-- `hiw_thread_wait` ; `none` as long as it waits. -/
def wait (s : PoolLife F D) (a : ℕ) : Option (PoolLife F D) :=
  if s.started a then
    if s.pool.pc a = .returned then
      some { s with started := Function.update s.started a false, joined := s.joined ++ [a] }
    else none
  else some s

/-- The main thread is back from `hiw_thread_pool_worker_stop`. -/
def behindStop (s : PoolLife F D) (again : Bool) (a : ℕ) (next : Option ℕ) : MainPc :=
  if again then .cleaning a (s.worker a).workFree next else .stopping true a next

/-- The main thread goes on. -/
def mainStep (s : PoolLife F D) (created : Bool) : Option (PoolLife F D) :=
  match s.main with
  | .idle | .done => none
  | .starting none => some { s with main := .idle }
  | .starting (some a) =>
    if s.started a then some { s.launch a false with main := .starting (s.list.next a) }
    else if created then some { s.launch a true with main := .starting (s.list.next a) }
    else some { s.launch a false with main := .idle }
  | .walking none => some { s with main := .done, freed := s.freed ++ [.pool] }
  | .walking (some a) => some { s with main := .stopping false a (s.list.next a) }
  | .stopping again a next =>
    if (s.worker a).running then some { s.stop a with main := .joining again a next }
    else some { s.stop a with main := s.behindStop again a next }
  | .joining again a next =>
    (s.wait a).map fun s => { s with main := s.behindStop again a next }
  | .cleaning a none next => some { s with main := .deletingThread a next }
  | .cleaning a (some work) next =>
    some { s with
      main := .cleaning a ((s.worker a).next work) next, freed := s.freed ++ [.work a work] }
  | .deletingThread a next =>
    (s.wait a).map fun s =>
      { s with main := .freeingWorker a next, freed := s.freed ++ [.thread a] }
  | .freeingWorker a next =>
    some { s with main := .walking next, freed := s.freed ++ [.worker a] }

/-- What a step of the main thread looks at. -/
def MainPc.uses : MainPc → List HeapObject
  | .starting (some a) => [.worker a, .thread a]
  | .walking none => [.pool]
  | .walking (some a) => [.worker a]
  | .stopping _ a _ => [.worker a, .pool]
  | .joining _ a _ => [.thread a]
  | .cleaning a (some work) _ => [.work a work]
  | .deletingThread a _ => [.worker a, .thread a]
  | .freeingWorker a _ => [.worker a]
  | .idle | .starting none | .cleaning _ none _ | .done => []

/-- What a step of the others looks at, or has looked at on its way there. -/
def poolUses (s : PoolLife F D) : ThreadPoolRun.Action F D → List HeapObject
  | .take _ _ =>
    let first := s.list.workerFirst
    .pool :: (first.toList ++ (first.bind s.list.next).toList ++ s.list.workerLast.toList).map
      .worker
  | .link k =>
    s.pushes[k]?.toList.flatMap fun p =>
      let w := s.worker p.worker
      .worker p.worker :: (w.workFree.toList ++ w.workLast.toList).map (.work p.worker)
  -- `hiw_thread_pool_func` reads `pool->config` in front of the loop
  | .act a _ =>
    .pool :: .worker a :: .thread a ::
      ((s.worker a).workNext.toList ++ (s.pool.run a).held.toList).map (.work a)

/-- What a step looks at. -/
def uses (s : PoolLife F D) : Action F D → List HeapObject
  | .start | .delete => [.pool]
  | .main _ => s.main.uses
  | .pool action => s.poolUses action

/-- Who makes a step. -/
def Action.party : Action F D → Party
  | .start | .delete | .main _ => .main
  | .pool (.act a _) => .thread a
  | .pool _ => .caller

/-- The threads of the workers do not start and stop themselves. -/
def Allowed : ThreadPoolRun.Action F D → Prop
  | .act _ action => action.ByThread
  | _ => True

instance : (action : ThreadPoolRun.Action F D) → Decidable (Allowed action)
  | .act _ action => inferInstanceAs (Decidable action.ByThread)
  | .take .. | .link .. => isTrue trivial

/-- A step where everything that it looks at is still there. -/
def goOn (s : PoolLife F D) : Action F D → Option (PoolLife F D)
  | .start =>
    if s.main = .idle then some { s with main := .starting s.list.workerFirst } else none
  | .delete =>
    if s.main = .idle then some { s with main := .walking s.list.workerFirst } else none
  | .main created => s.mainStep created
  | .pool action =>
    if Allowed action then (s.pool.step action).map fun pool => { s with pool } else none

/-- One step; `none` when it is not possible, or behind a fault. -/
def step (s : PoolLife F D) (a : Action F D) : Option (PoolLife F D) :=
  if s.fault.isSome then none
  else
    (s.goOn a).map fun s' =>
      match (s.uses a).find? (· ∈ s.freed) with
      | none => s'
      | some o => { s with fault := some (a.party, o) }

/-- The pool as `hiw_thread_pool_new` makes it. -/
def start (workers : ℕ → HiwThreadPoolWorker F D) (links : ℕ → Option ℕ) (n : ℕ) :
    PoolLife F D where
  pool := .start workers links n
  main := .idle
  started := fun _ => false
  joined := []
  freed := []
  fault := none

/-! ### What a step can do -/

variable {s s' : PoolLife F D} {a : Action F D} {created : Bool}

/-- A step either finds everything that it looks at, or is the fault. -/
theorem step_cases (h : s.step a = some s') :
    (s.goOn a = some s' ∧ ∀ o ∈ s.uses a, o ∉ s.freed) ∨
      ∃ o ∈ s.uses a, o ∈ s.freed ∧ s' = { s with fault := some (a.party, o) } := by
  unfold step at h
  split_ifs at h
  obtain ⟨t, hgo, rfl⟩ := Option.map_eq_some_iff.1 h
  cases hfind : (s.uses a).find? (· ∈ s.freed) with
  | none =>
    refine .inl ⟨hgo, fun o ho => ?_⟩
    simpa using List.find?_eq_none.1 hfind o ho
  | some o =>
    refine .inr ⟨o, List.mem_of_find?_eq_some hfind, ?_, rfl⟩
    simpa using List.find?_some hfind

theorem goOn_of_step (h : s.step a = some s') : ∃ t, s.goOn a = some t := by
  unfold step at h
  split_ifs at h
  obtain ⟨t, hgo, -⟩ := Option.map_eq_some_iff.1 h
  exact ⟨t, hgo⟩

theorem fault_eq_none_of_step (h : s.step a = some s') : s.fault = none := by
  unfold step at h
  split_ifs at h with hfault
  simpa using hfault

theorem wait_cases {b : ℕ} (h : s.wait b = some s') :
    (s.started b = false ∧ s' = s) ∨
      (s.started b = true ∧ s.pool.pc b = .returned ∧
        s' = { s with
          started := Function.update s.started b false, joined := s.joined ++ [b] }) := by
  unfold wait at h
  split_ifs at h with hstarted hreturned
  · exact .inr ⟨hstarted, hreturned, (Option.some.inj h).symm⟩
  · exact .inl ⟨by simpa using hstarted, (Option.some.inj h).symm⟩

/-- The steps of the main thread on objects that are still there. -/
inductive Change (s : PoolLife F D) : PoolLife F D → Prop
  | startedAll (hmain : s.main = .starting none) : Change s { s with main := .idle }
  | restarted {b : ℕ} (hmain : s.main = .starting (some b)) (hstarted : s.started b = true) :
    Change s { s.launch b false with main := .starting (s.list.next b) }
  | created {b : ℕ} (hmain : s.main = .starting (some b)) (hstarted : s.started b = false) :
    Change s { s.launch b true with main := .starting (s.list.next b) }
  | refused {b : ℕ} (hmain : s.main = .starting (some b)) (hstarted : s.started b = false) :
    Change s { s.launch b false with main := .idle }
  | freedPool (hmain : s.main = .walking none) :
    Change s { s with main := .done, freed := s.freed ++ [.pool] }
  | came {b : ℕ} (hmain : s.main = .walking (some b)) :
    Change s { s with main := .stopping false b (s.list.next b) }
  | stopped {again : Bool} {b : ℕ} {next : Option ℕ} (hmain : s.main = .stopping again b next)
    (hrunning : (s.worker b).running = true) :
    Change s { s.stop b with main := .joining again b next }
  | skipped {again : Bool} {b : ℕ} {next : Option ℕ} (hmain : s.main = .stopping again b next)
    (hrunning : (s.worker b).running = false) :
    Change s { s.stop b with main := s.behindStop again b next }
  | waited {again : Bool} {b : ℕ} {next : Option ℕ} {t : PoolLife F D}
    (hmain : s.main = .joining again b next) (hwait : s.wait b = some t) :
    Change s { t with main := t.behindStop again b next }
  | cleaned {b : ℕ} {next : Option ℕ} (hmain : s.main = .cleaning b none next) :
    Change s { s with main := .deletingThread b next }
  | freedWork {b work : ℕ} {next : Option ℕ} (hmain : s.main = .cleaning b (some work) next) :
    Change s { s with
      main := .cleaning b ((s.worker b).next work) next, freed := s.freed ++ [.work b work] }
  | freedThread {b : ℕ} {next : Option ℕ} {t : PoolLife F D}
    (hmain : s.main = .deletingThread b next) (hwait : s.wait b = some t) :
    Change s { t with main := .freeingWorker b next, freed := t.freed ++ [.thread b] }
  | freedWorker {b : ℕ} {next : Option ℕ} (hmain : s.main = .freeingWorker b next) :
    Change s { s with main := .walking next, freed := s.freed ++ [.worker b] }

theorem change_of_mainStep (h : s.mainStep created = some s') : Change s s' := by
  unfold mainStep at h
  split at h
  next => cases h
  next => cases h
  next hmain =>
    obtain rfl := Option.some.inj h
    exact .startedAll hmain
  next b hmain =>
    split_ifs at h with hstarted hcreated
    · obtain rfl := Option.some.inj h
      exact .restarted hmain hstarted
    · obtain rfl := Option.some.inj h
      exact .created hmain (by simpa using hstarted)
    · obtain rfl := Option.some.inj h
      exact .refused hmain (by simpa using hstarted)
  next hmain =>
    obtain rfl := Option.some.inj h
    exact .freedPool hmain
  next b hmain =>
    obtain rfl := Option.some.inj h
    exact .came hmain
  next again b next hmain =>
    split_ifs at h with hrunning
    · obtain rfl := Option.some.inj h
      exact .stopped hmain hrunning
    · obtain rfl := Option.some.inj h
      exact .skipped hmain (by simpa using hrunning)
  next again b next hmain =>
    obtain ⟨t, hwait, rfl⟩ := Option.map_eq_some_iff.1 h
    exact .waited hmain hwait
  next b next hmain =>
    obtain rfl := Option.some.inj h
    exact .cleaned hmain
  next b work next hmain =>
    obtain rfl := Option.some.inj h
    exact .freedWork hmain
  next b next hmain =>
    obtain ⟨t, hwait, rfl⟩ := Option.map_eq_some_iff.1 h
    exact .freedThread hmain hwait
  next b next hmain =>
    obtain rfl := Option.some.inj h
    exact .freedWorker hmain

/-- What a step can do, as long as everything that it looks at is there. -/
theorem goOn_cases (h : s.goOn a = some s') :
    (s.main = .idle ∧ s' = { s with main := .starting s.list.workerFirst }) ∨
      (s.main = .idle ∧ s' = { s with main := .walking s.list.workerFirst }) ∨
        (∃ created, a = .main created ∧ Change s s') ∨
          ∃ action pool, a = .pool action ∧ Allowed action ∧ s.pool.step action = some pool ∧
            s' = { s with pool } := by
  cases a with
  | start =>
    simp only [goOn] at h
    split_ifs at h with hmain
    exact .inl ⟨hmain, (Option.some.inj h).symm⟩
  | delete =>
    simp only [goOn] at h
    split_ifs at h with hmain
    exact .inr (.inl ⟨hmain, (Option.some.inj h).symm⟩)
  | main created => exact .inr (.inr (.inl ⟨created, rfl, change_of_mainStep h⟩))
  | pool action =>
    simp only [goOn] at h
    split_ifs at h with hallowed
    obtain ⟨pool, hpool, rfl⟩ := Option.map_eq_some_iff.1 h
    exact .inr (.inr (.inr ⟨action, pool, rfl, hallowed, hpool, rfl⟩))

end PoolLife

end Highway
