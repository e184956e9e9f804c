import Highway.Lib.Chain
import Highway.Lib.Run

/-!
# Thread pool workers

A worker of the thread pool executes the work pushed to it.  Its queue is a linked list of
`hiw_thread_pool_work` nodes between `work_next` and `work_last`; executed nodes go to the list
`work_free`, from where later pushes take them.

* `HiwThreadPoolWorker` : the worker and the memory of its work, with one function for each
  critical section of the source.
* `WorkerRun` : the worker together with the thread that runs `hiw_thread_pool_worker_main`.
  `WorkerRun.step` performs one critical section, or one call of a work function, at a time; every
  interleaving is a list of `Action`s (`Lib.runLabels`).

Work may be lost, repeated and reordered, because `hiw_thread_pool_push` does not move `work_last`
and `hiw_thread_pool_work_new_UNSAFE` does not take the node it reuses out of `work_free`.
`Highway.Thread.Queue` states when this does not happen.
-/

namespace Highway

open Lib

variable {F D : Type*}

/-- `hiw_thread_pool_work` : a function to execute and its data, linked to the next one. -/
structure HiwThreadPoolWork (F D : Type*) where
  func : F
  data : D
  next : Option ℕ

/-- `hiw_thread_pool_worker`.  Work is addressed by numbers: `malloc` hands out `allocated` next,
and no work is freed before the worker is deleted. -/
structure HiwThreadPoolWorker (F D : Type*) where
  /-- The memory of the work. -/
  memory : ℕ → HiwThreadPoolWork F D
  /-- The number of addresses handed out. -/
  allocated : ℕ
  workNext : Option ℕ
  workLast : Option ℕ
  workFree : Option ℕ
  running : Bool

namespace HiwThreadPoolWorker

/-- `hiw_thread_pool_worker_new` ; it initialises neither memory to come nor `running`. -/
def new (memory : ℕ → HiwThreadPoolWork F D) (running : Bool) : HiwThreadPoolWorker F D where
  memory := memory
  allocated := 0
  workNext := none
  workLast := none
  workFree := none
  running := running

/-- `work->next = next` -/
def setNext (w : HiwThreadPoolWorker F D) (work : ℕ) (next : Option ℕ) :
    HiwThreadPoolWorker F D :=
  { w with memory := Function.update w.memory work { w.memory work with next } }

/-- `hiw_thread_pool_work_new_UNSAFE` -/
def workNew (w : HiwThreadPoolWorker F D) (func : F) (data : D) :
    ℕ × HiwThreadPoolWorker F D :=
  let (work, w) :=
    match w.workFree with
    | none => (w.allocated, { w with allocated := w.allocated + 1 })
    -- the rest of the free list goes to `work_next`, and the node stays in `work_free`
    | some work => (work, { w with workNext := (w.memory work).next })
  (work, { w with memory := Function.update w.memory work ⟨func, data, none⟩ })

/-- The critical section of `hiw_thread_pool_push`. -/
def push (w : HiwThreadPoolWorker F D) (func : F) (data : D) : HiwThreadPoolWorker F D :=
  let (work, w) := w.workNew func data
  match w.workLast with
  | none => { w with workNext := some work, workLast := some work }
  -- `work_last` stays where it is
  | some last => w.setNext last (some work)

/-- `hiw_thread_pool_worker_pop_work_UNSAFE` -/
def popWork (w : HiwThreadPoolWorker F D) : Option ℕ × HiwThreadPoolWorker F D :=
  match w.workNext with
  | none => (none, w)
  | some work =>
    match (w.memory work).next with
    | none => (some work, { w with workNext := none, workLast := none })
    | some next => (some work, { w with workNext := some next })

/-- `hiw_thread_pool_work_done` -/
def workDone (w : HiwThreadPoolWorker F D) (work : ℕ) : HiwThreadPoolWorker F D :=
  let w :=
    match w.workFree with
    | none => w
    | some free => w.setNext work (some free)
  { w with workFree := some work }

/-- The critical section of `hiw_thread_pool_worker_stop`. -/
def stop (w : HiwThreadPoolWorker F D) : HiwThreadPoolWorker F D :=
  if w.running then { w with running := false } else w

/-- The function and the data of the work at an address. -/
def item (w : HiwThreadPoolWorker F D) (work : ℕ) : F × D :=
  ((w.memory work).func, (w.memory work).data)

/-- The links. -/
def next (w : HiwThreadPoolWorker F D) (work : ℕ) : Option ℕ := (w.memory work).next

/-- The work that is linked from `work_next`. -/
def pending (w : HiwThreadPoolWorker F D) : List ℕ := follow w.next w.allocated w.workNext

end HiwThreadPoolWorker

/-- Where the thread is in `hiw_thread_pool_worker_main`. -/
inductive WorkerRun.Pc where
  /-- Not started yet. -/
  | notStarted
  /-- At the top of the loop. -/
  | top
  /-- In `hiw_thread_critical_sec_wait`, having seen `running`. -/
  | waiting
  /-- With popped work, in front of the call. -/
  | popped (work : ℕ)
  /-- In the function of the work, or behind it. -/
  | called (work : ℕ)
  /-- Returned. -/
  | returned
  deriving DecidableEq

/-- A worker with its thread.  The lists record what happened: the pairs pushed, and the pairs
whose function has been called. -/
structure WorkerRun (F D : Type*) where
  worker : HiwThreadPoolWorker F D
  pc : WorkerRun.Pc
  pushed : List (F × D)
  executed : List (F × D)
  /-- `hiw_thread_pool_worker_stop` has been called. -/
  stopCalled : Bool

namespace WorkerRun

/-- What can happen next. -/
inductive Action (F D : Type*) where
  /-- `hiw_thread_pool_push` -/
  | push (func : F) (data : D)
  /-- `hiw_thread_pool_start` -/
  | start
  /-- `hiw_thread_pool_worker_stop` -/
  | stop
  /-- The thread enters the critical section and leaves it, or waits in it. -/
  | enter
  /-- The thread wakes up, for whatever reason, and leaves the critical section. -/
  | wake
  /-- The thread calls the function of the work. -/
  | call
  /-- The function returns, and the thread performs `hiw_thread_pool_work_done`. -/
  | done

/-- The action is a push. -/
def Action.IsPush : Action F D → Prop
  | .push _ _ => True
  | _ => False

instance (a : Action F D) : Decidable a.IsPush := by
  cases a <;> first | exact isTrue trivial | exact isFalse id

/-- The state made by `hiw_thread_pool_worker_new`. -/
def init (memory : ℕ → HiwThreadPoolWork F D) (running : Bool) : WorkerRun F D where
  worker := .new memory running
  pc := .notStarted
  pushed := []
  executed := []
  stopCalled := false

/-- Pop work and leave the critical section. -/
def pop (s : WorkerRun F D) : WorkerRun F D :=
  match s.worker.popWork with
  | (none, worker) => { s with worker, pc := .top }
  | (some work, worker) => { s with worker, pc := .popped work }

/-- One step; `none` when it is not possible where the thread is. -/
def step (s : WorkerRun F D) : Action F D → Option (WorkerRun F D)
  | .push func data =>
    some { s with worker := s.worker.push func data, pushed := s.pushed ++ [(func, data)] }
  | .start =>
    if s.pc = .notStarted then
      some { s with worker := { s.worker with running := true }, pc := .top }
    else none
  | .stop => some { s with worker := s.worker.stop, stopCalled := true }
  | .enter =>
    if s.pc = .top then
      let currentRunning := s.worker.running
      if s.worker.workNext = none ∧ currentRunning then some { s with pc := .waiting }
      else if ¬ currentRunning ∧ s.worker.workNext = none then some { s with pc := .returned }
      else some s.pop
    else none
  | .wake => if s.pc = .waiting then some s.pop else none
  | .call =>
    match s.pc with
    | .popped work =>
      some { s with pc := .called work, executed := s.executed ++ [s.worker.item work] }
    | _ => none
  | .done =>
    match s.pc with
    | .called work => some { s with worker := s.worker.workDone work, pc := .top }
    | _ => none

/-- The work in the hands of the thread. -/
def held (s : WorkerRun F D) : Option ℕ :=
  match s.pc with
  | .popped work => some work
  | .called work => some work
  | _ => none

/-- The pair being executed, if its function has not been called yet. -/
def current (s : WorkerRun F D) : List (F × D) :=
  match s.pc with
  | .popped work => [s.worker.item work]
  | _ => []

end WorkerRun

end Highway
