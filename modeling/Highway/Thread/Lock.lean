import Highway.Thread.Worker

/-!
# The critical section of a worker

`WorkerRun` takes each critical section as one step.  `LockRun` is the same thread one call of
`hiw_thread_critical_sec_enter`, `_exit` or `_wait` at a time, from the start of
`hiw_thread_pool_func` to its return, together with who holds the critical section of the worker.
The thread records, for each of its calls, whether it held the section at that time.

The loop of `hiw_thread_pool_worker_main` leaves the critical section before it is left itself, so
the exit at the end of `hiw_thread_pool_func` is one too many: it is the only call that is out of
order (`LockRun.disciplined_iff`).
-/

namespace Highway

open Lib

variable {F D : Type*}

/-- Who may hold the critical section. -/
inductive LockRun.Party where
  /-- The thread of the worker. -/
  | thread
  /-- A caller of `hiw_thread_pool_push` or `hiw_thread_pool_worker_stop` on another thread. -/
  | other (id : ℕ)
  deriving DecidableEq

/-- A call of the worker's thread; `held` if the thread held the section at that time. -/
inductive LockRun.Call where
  /-- `hiw_thread_critical_sec_enter` -/
  | enter (held : Bool)
  /-- `hiw_thread_critical_sec_exit` -/
  | exit (held : Bool)
  deriving DecidableEq

/-- Where the thread is. -/
inductive LockRun.Pc where
  /-- Not started yet. -/
  | notStarted
  /-- In `hiw_thread_pool_func`, in front of `on_start`. -/
  | func
  /-- At the top of the loop of `hiw_thread_pool_worker_main`. -/
  | top
  /-- Behind the enter of the loop. -/
  | entered
  /-- In `hiw_thread_critical_sec_wait`, having seen `running`. -/
  | waiting
  /-- In front of `if (!current_running)`. -/
  | checked (currentRunning : Bool)
  /-- In front of the exit and the `break`. -/
  | stopping
  /-- In front of the exit, with or without work. -/
  | popped (work : Option ℕ)
  /-- In the function of the work. -/
  | called (work : ℕ)
  /-- In the function of the work, which has called `hiw_thread_pool_push`, and this has entered
  the critical section of the same worker. -/
  | pushing (work : ℕ)
  /-- At the top of `hiw_thread_pool_work_done`. -/
  | done (work : ℕ)
  /-- Behind its enter. -/
  | freeing (work : ℕ)
  /-- Back in `hiw_thread_pool_func`, behind `on_start`. -/
  | ending
  /-- Returned. -/
  | returned
  deriving DecidableEq

/-- A worker with its thread and its critical section. -/
structure LockRun (F D : Type*) where
  worker : HiwThreadPoolWorker F D
  pc : LockRun.Pc
  holder : Option LockRun.Party
  /-- The calls of the worker's thread so far. -/
  calls : List LockRun.Call

namespace LockRun

/-- What can happen next. -/
inductive Action (F D : Type*) where
  /-- `hiw_thread_pool_start` -/
  | start
  /-- The thread of the worker goes on. -/
  | thread
  /-- The function of the work calls `hiw_thread_pool_push`, which enters the section. -/
  | enterPush
  /-- This push links its work and exits. -/
  | linkPush (func : F) (data : D)
  /-- Another thread enters the section. -/
  | enter (id : ℕ)
  /-- The other thread is in `hiw_thread_pool_push` ; it links its work and exits. -/
  | push (id : ℕ) (func : F) (data : D)
  /-- The other thread is in `hiw_thread_pool_worker_stop` ; it stops the worker and exits. -/
  | stop (id : ℕ)

/-- The state made by `hiw_thread_pool_worker_new`. -/
def init (memory : ℕ → HiwThreadPoolWork F D) (running : Bool) : LockRun F D where
  worker := .new memory running
  pc := .notStarted
  holder := none
  calls := []

/-- `hiw_thread_critical_sec_enter` of the worker's thread; `none` while another thread holds the
section. -/
def enter (s : LockRun F D) (pc : Pc) : Option (LockRun F D) :=
  match s.holder with
  | some (.other _) => none
  | holder =>
    some { s with
      pc
      holder := some .thread
      calls := s.calls ++ [.enter (decide (holder = some .thread))] }

/-- `hiw_thread_critical_sec_exit` of the worker's thread, whoever holds the section. -/
def exit (s : LockRun F D) (pc : Pc) : LockRun F D :=
  { s with
    pc
    holder := none
    calls := s.calls ++ [.exit (decide (s.holder = some .thread))] }

/-- The thread of the worker goes on; `none` where it cannot. -/
def goOn (s : LockRun F D) : Option (LockRun F D) :=
  match s.pc with
  | .notStarted => none
  | .func => some { s with pc := .top }
  | .top => s.enter .entered
  | .entered =>
    let currentRunning := s.worker.running
    if s.worker.workNext = none ∧ currentRunning then
      -- the wait releases the section
      some { s with pc := .waiting, holder := none }
    else some { s with pc := .checked currentRunning }
  | .waiting =>
    -- the thread wakes up, for whatever reason, when it gets the section
    if s.holder = none then some { s with pc := .checked true, holder := some .thread } else none
  | .checked currentRunning =>
    if ¬ currentRunning ∧ s.worker.workNext = none then some { s with pc := .stopping }
    else
      let (work, worker) := s.worker.popWork
      some { s with worker, pc := .popped work }
  | .stopping => some (s.exit .ending)
  | .popped none => some (s.exit .top)
  | .popped (some work) => some (s.exit (.called work))
  | .called work => some { s with pc := .done work }
  | .pushing _ => none
  | .done work => s.enter (.freeing work)
  | .freeing work => some ({ s with worker := s.worker.workDone work }.exit .top)
  -- `hiw_thread_critical_sec_exit(&worker->critical_section)` behind `on_start`
  | .ending => some (s.exit .returned)
  | .returned => none

/-- One step; `none` when it is not possible. -/
def step (s : LockRun F D) : Action F D → Option (LockRun F D)
  | .start =>
    if s.pc = .notStarted then
      some { s with worker := { s.worker with running := true }, pc := .func }
    else none
  | .thread => s.goOn
  | .enterPush =>
    match s.pc with
    | .called work => s.enter (.pushing work)
    | _ => none
  | .linkPush func data =>
    match s.pc with
    | .pushing work => some ({ s with worker := s.worker.push func data }.exit (.called work))
    | _ => none
  | .enter id => if s.holder = none then some { s with holder := some (.other id) } else none
  | .push id func data =>
    if s.holder = some (.other id) then
      some { s with worker := s.worker.push func data, holder := none }
    else none
  | .stop id =>
    if s.holder = some (.other id) then
      some { s with worker := s.worker.stop, holder := none }
    else none

/-- The call is in order: the thread enters a section that it does not hold, and exits one that it
holds. -/
def Call.InOrder : Call → Prop
  | .enter held => held = false
  | .exit held => held = true

instance (c : Call) : Decidable c.InOrder := by
  cases c <;> exact inferInstanceAs (Decidable (_ = _))

/-- The thread has kept to the rules so far. -/
structure Disciplined (s : LockRun F D) : Prop where
  calls : ∀ c ∈ s.calls, c.InOrder
  returned : s.pc = .returned → s.holder ≠ some .thread

/-- The next step is the exit at the end of `hiw_thread_pool_func`. -/
def LastExit (s : LockRun F D) : Action F D → Prop
  | .thread => s.pc = .ending
  | _ => False

/-- The places between an enter and the exit that belongs to it. -/
def Pc.inside : Pc → Bool
  | .entered | .checked _ | .stopping | .popped _ | .pushing _ | .freeing _ => true
  | _ => false

/-- The invariant: the thread holds the section where it should, and has not come to the last
exit. -/
structure Balanced (s : LockRun F D) : Prop where
  calls : ∀ c ∈ s.calls, c.InOrder
  holder : s.holder = some .thread ↔ s.pc.inside = true
  returned : s.pc ≠ .returned

variable {s s' : LockRun F D} {pc : Pc}

theorem Balanced.disciplined (h : s.Balanced) : s.Disciplined :=
  ⟨h.calls, fun hpc => absurd hpc h.returned⟩

theorem balanced_init (memory : ℕ → HiwThreadPoolWork F D) (running : Bool) :
    (init memory running).Balanced :=
  ⟨fun _ hc => absurd hc List.not_mem_nil, by simp [init, Pc.inside], by simp [init]⟩

theorem Balanced.holder_ne (h : s.Balanced) (hpc : s.pc.inside = false) :
    s.holder ≠ some .thread := by
  intro hholder
  rw [h.holder.1 hholder] at hpc
  cases hpc

theorem Balanced.inside_eq_false (h : s.Balanced) (hholder : s.holder ≠ some .thread) :
    s.pc.inside = false :=
  Bool.eq_false_iff.2 fun hpc => hholder (h.holder.2 hpc)

theorem Balanced.setWorker (h : s.Balanced) (worker : HiwThreadPoolWorker F D) :
    Balanced { s with worker } :=
  ⟨h.calls, h.holder, h.returned⟩

theorem Balanced.goTo (h : s.Balanced) (hpc : pc.inside = s.pc.inside) (hret : pc ≠ .returned) :
    Balanced { s with pc } :=
  ⟨h.calls, h.holder.trans (by rw [hpc]), hret⟩

theorem Balanced.enter (h : s.Balanced) (hpc : s.pc.inside = false) (hpc' : pc.inside = true)
    (hret : pc ≠ .returned) (henter : s.enter pc = some s') : s'.Balanced := by
  have hno := h.holder_ne hpc
  obtain ⟨worker, pc₀, holder, calls⟩ := s
  cases holder with
  | none =>
    obtain rfl := Option.some.inj henter
    refine ⟨fun c hc => ?_, iff_of_true rfl hpc', hret⟩
    rcases List.mem_append.1 hc with hc | hc
    · exact h.calls c hc
    · rw [List.mem_singleton.1 hc]
      rfl
  | some p =>
    cases p with
    | thread => exact absurd rfl hno
    | other id => cases henter

theorem Balanced.exit (h : s.Balanced) (hpc : s.pc.inside = true) (hpc' : pc.inside = false)
    (hret : pc ≠ .returned) : (s.exit pc).Balanced := by
  have hholder := h.holder.2 hpc
  refine ⟨fun c hc => ?_, iff_of_false (by simp [LockRun.exit]) (by simp [LockRun.exit, hpc']),
    hret⟩
  rcases List.mem_append.1 hc with hc | hc
  · exact h.calls c hc
  · rw [List.mem_singleton.1 hc, hholder]
    rfl

theorem Balanced.setHolder (h : s.Balanced) (hpc : s.pc.inside = false)
    {holder : Option Party} (hholder : holder ≠ some .thread) : Balanced { s with holder } :=
  ⟨h.calls, iff_of_false hholder (by simp [hpc]), h.returned⟩

/-- What the thread does by itself keeps the balance, but for the last exit. -/
theorem Balanced.goOn (h : s.Balanced) (hlast : s.pc ≠ .ending) (hstep : s.goOn = some s') :
    s'.Balanced := by
  obtain ⟨worker, pc, holder, calls⟩ := s
  cases pc with
  | notStarted => cases hstep
  | func =>
    obtain rfl := Option.some.inj hstep
    exact h.goTo rfl (by simp)
  | top => exact h.enter rfl rfl (by simp) hstep
  | entered =>
    simp only [LockRun.goOn] at hstep
    split_ifs at hstep
    · -- the wait gives the section away
      obtain rfl := Option.some.inj hstep
      exact ⟨h.calls, iff_of_false (by simp) (by simp [Pc.inside]), by simp⟩
    · obtain rfl := Option.some.inj hstep
      exact h.goTo rfl (by simp)
  | waiting =>
    simp only [LockRun.goOn] at hstep
    split_ifs at hstep
    obtain rfl := Option.some.inj hstep
    exact ⟨h.calls, iff_of_true rfl rfl, by simp⟩
  | checked currentRunning =>
    simp only [LockRun.goOn] at hstep
    split_ifs at hstep
    · obtain rfl := Option.some.inj hstep
      exact h.goTo rfl (by simp)
    · obtain rfl := Option.some.inj hstep
      exact (h.setWorker _).goTo rfl (by simp)
  | stopping =>
    obtain rfl := Option.some.inj hstep
    exact h.exit rfl rfl (by simp)
  | popped work =>
    cases work with
    | none =>
      obtain rfl := Option.some.inj hstep
      exact h.exit rfl rfl (by simp)
    | some work =>
      obtain rfl := Option.some.inj hstep
      exact h.exit rfl rfl (by simp)
  | called work =>
    obtain rfl := Option.some.inj hstep
    exact h.goTo rfl (by simp)
  | pushing work => cases hstep
  | done work => exact h.enter rfl rfl (by simp) hstep
  | freeing work =>
    obtain rfl := Option.some.inj hstep
    exact (h.setWorker _).exit rfl rfl (by simp)
  | ending => exact absurd rfl hlast
  | returned => cases hstep

/-- **Every step but the last exit keeps the balance.** -/
theorem Balanced.step {a : Action F D} (h : s.Balanced) (hlast : ¬ s.LastExit a)
    (hstep : s.step a = some s') : s'.Balanced := by
  cases a with
  | start =>
    simp only [LockRun.step] at hstep
    split_ifs at hstep with hpc
    obtain rfl := Option.some.inj hstep
    exact (h.setWorker _).goTo (by show _ = s.pc.inside; rw [hpc]; rfl) (by simp)
  | thread => exact h.goOn hlast hstep
  | enterPush =>
    obtain ⟨worker, pc, holder, calls⟩ := s
    cases pc with
    | called work => exact h.enter rfl rfl (by simp) hstep
    | _ => cases hstep
  | linkPush func data =>
    obtain ⟨worker, pc, holder, calls⟩ := s
    cases pc with
    | pushing work =>
      obtain rfl := Option.some.inj hstep
      exact (h.setWorker _).exit rfl rfl (by simp)
    | _ => cases hstep
  -- a section that another thread enters or exits is not held by the worker's thread
  | enter id =>
    simp only [LockRun.step] at hstep
    split_ifs at hstep with hfree
    obtain rfl := Option.some.inj hstep
    exact h.setHolder (h.inside_eq_false (by simp [hfree])) (by simp)
  | push id func data =>
    simp only [LockRun.step] at hstep
    split_ifs at hstep with hother
    obtain rfl := Option.some.inj hstep
    exact (h.setWorker (s.worker.push func data)).setHolder
      (h.inside_eq_false (by simp [hother])) (by simp)
  | stop id =>
    simp only [LockRun.step] at hstep
    split_ifs at hstep with hother
    obtain rfl := Option.some.inj hstep
    exact (h.setWorker s.worker.stop).setHolder (h.inside_eq_false (by simp [hother])) (by simp)

/-- The last exit is made by a thread that does not hold the section. -/
theorem Balanced.breaks_of_lastExit {a : Action F D} (h : s.Balanced) (hlast : s.LastExit a) :
    ∃ s', s.step a = some s' ∧ ¬ s'.Disciplined := by
  cases a with
  | thread =>
    obtain ⟨worker, pc, holder, calls⟩ := s
    obtain rfl : pc = .ending := hlast
    refine ⟨_, rfl, fun hdis => ?_⟩
    have hin := hdis.calls (.exit (decide (holder = some .thread))) (by simp [LockRun.exit])
    exact h.holder_ne rfl (of_decide_eq_true hin)
  | _ => exact hlast.elim

/-- In a run in which the thread keeps to the rules, it does not come to the last exit. -/
theorem not_lastExit_of_disciplined {actions : List (Action F D)} (h : s.Balanced)
    (hall : ∀ t, Passes step s actions t → t.Disciplined) :
    AllSteps step (fun u a => ¬ u.LastExit a) s actions := by
  induction actions generalizing s with
  | nil => trivial
  | cons a actions ih =>
    have hlast : ¬ s.LastExit a := by
      intro hlast
      obtain ⟨u, hu, hno⟩ := h.breaks_of_lastExit hlast
      exact hno (hall u (Passes.cons hu (.refl _ _)))
    exact ⟨hlast, fun u hu => ih (h.step hlast hu) fun t ht => hall t (ht.cons hu)⟩

/-- **When the thread keeps to the rules.**  In all states of a run the thread has entered and
exited the section in turn, exactly if the run does not come to the exit at the end of
`hiw_thread_pool_func`. -/
theorem disciplined_iff (memory : ℕ → HiwThreadPoolWork F D) (running : Bool)
    (actions : List (Action F D)) :
    (∀ t, Passes step (init memory running) actions t → t.Disciplined) ↔
      AllSteps step (fun u a => ¬ u.LastExit a) (init memory running) actions := by
  constructor
  · exact not_lastExit_of_disciplined (balanced_init memory running)
  · intro hall t ht
    have hbalanced : t.Balanced :=
      hall.invariant_passes (fun _ _ _ hlast h hstep => h.step hlast hstep)
        (balanced_init memory running) ht
    exact hbalanced.disciplined

/-- A worker that is started and stopped. -/
theorem not_disciplined : ¬ ∀ actions t,
    Passes step (init (fun _ => ⟨(), (), none⟩) false) actions t →
      Disciplined (F := Unit) (D := Unit) t := by
  intro hall
  have hdis := hall [.start, .thread, .enter 0, .stop 0, .thread, .thread, .thread, .thread,
    .thread] _ (Passes.of_run rfl)
  exact absurd (hdis.calls (.exit false) (by decide)) (by decide)

end LockRun

end Highway
