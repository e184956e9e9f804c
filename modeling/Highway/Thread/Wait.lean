import Highway.Thread.Queue

/-!
# Waiting for work

The thread of a worker waits in `hiw_thread_critical_sec_wait` when it finds no work and is to go
on.  `WaitRun` is the worker with its thread, together with what has become of the wait: a push
and a stop notify the thread, and the thread may also wake up by itself.

A thread that waits and has not been notified has nothing to do: no work is pending, and it has
not been stopped (`WaitRun.no_lost_wakeup`).
-/

namespace Highway

open Lib WorkerRun

variable {F D : Type*}

/-- A worker with its thread; `notified` if the thread has been notified since it began to wait. -/
structure WaitRun (F D : Type*) where
  run : WorkerRun F D
  notified : Bool

namespace WaitRun

/-- The state made by `hiw_thread_pool_worker_new`. -/
def init (memory : ℕ → HiwThreadPoolWork F D) (running : Bool) : WaitRun F D where
  run := .init memory running
  notified := false

/-- `hiw_thread_critical_sec_notify_one` ; it is lost on a thread that does not wait. -/
def notifyOne (s : WaitRun F D) : WaitRun F D :=
  if s.run.pc = .waiting then { s with notified := true } else s

/-- One step of the worker, with the notification that it sends. -/
def step (s : WaitRun F D) (a : Action F D) : Option (WaitRun F D) :=
  (s.run.step a).map fun run =>
    match a with
    | .push _ _ => notifyOne { s with run }
    | .stop => if s.run.worker.running then notifyOne { s with run } else { s with run }
    -- if the thread waits now, it begins to
    | .enter => { run, notified := false }
    | _ => { s with run }

/-- A thread that waits without having been notified has nothing to do. -/
def Alert (s : WaitRun F D) : Prop :=
  s.run.pc = .waiting → s.notified = false →
    s.run.worker.workNext = none ∧ s.run.worker.running = true

variable {s s' : WaitRun F D}

/-- A notified thread may have anything to do. -/
theorem alert_notifyOne (s : WaitRun F D) : s.notifyOne.Alert := by
  unfold notifyOne
  split_ifs with hpc
  · intro _ hn
    cases hn
  · exact fun hw => absurd hw hpc

theorem alert_of_pc_ne (h : s.run.pc ≠ .waiting) : s.Alert := fun hw => absurd hw h

theorem pop_pc_ne (t : WorkerRun F D) : t.pop.pc ≠ .waiting := by
  unfold WorkerRun.pop
  split <;> exact fun hw => by cases hw

/-- **Every step leaves a thread that waits without having been notified with nothing to do.** -/
theorem Alert.step {a : Action F D} (h : s.Alert) (hstep : s.step a = some s') : s'.Alert := by
  obtain ⟨t, ht, rfl⟩ := Option.map_eq_some_iff.1 hstep
  cases a with
  | push func data => exact alert_notifyOne _
  | start =>
    obtain ⟨-, rfl⟩ := step_start ht
    exact alert_of_pc_ne fun hw => by cases hw
  | stop =>
    obtain rfl := Option.some.inj ht
    show Alert (if s.run.worker.running then _ else _)
    split_ifs with hrunning
    · exact alert_notifyOne _
    · -- the thread has not begun to wait: it would have seen `running`
      intro hw hn
      exact absurd (h hw hn).2 hrunning
  -- the thread begins to wait only if it has seen nothing to do
  | enter =>
    obtain ⟨-, hs'⟩ := step_enter ht
    rcases hs' with ⟨rfl, hidle⟩ | ⟨rfl, -⟩ | rfl
    · exact fun _ _ => hidle
    · exact alert_of_pc_ne fun hw => by cases hw
    · exact alert_of_pc_ne (pop_pc_ne _)
  | wake =>
    obtain ⟨-, rfl⟩ := step_wake ht
    exact alert_of_pc_ne (pop_pc_ne _)
  | call =>
    obtain ⟨p, -, rfl⟩ := step_call ht
    exact alert_of_pc_ne fun hw => by cases hw
  | done =>
    obtain ⟨p, -, rfl⟩ := step_done ht
    exact alert_of_pc_ne fun hw => by cases hw

/-- **No worker sleeps on work or on a stop.**  In every state of every interleaving, a thread that
waits and has not been notified since it began to has no pending work and is to go on. -/
theorem no_lost_wakeup {memory : ℕ → HiwThreadPoolWork F D} {running : Bool}
    {actions : List (Action F D)} (hrun : runLabels step (init memory running) actions = some s)
    (hwaiting : s.run.pc = .waiting) (hnotified : s.notified = false) :
    s.run.worker.workNext = none ∧ s.run.worker.running = true := by
  have hinit : (init memory running).Alert := alert_of_pc_ne fun hw => by cases hw
  exact invariant_of_runLabels (fun _ _ _ _ => Alert.step) hinit hrun hwaiting hnotified

/-- A thread that is started, executes one item and waits again. -/
theorem no_lost_wakeup_again : ∃ s : WaitRun ℕ ℕ,
    runLabels step (init (fun _ => ⟨0, 0, none⟩) false)
      [.start, .enter, .push 1 1, .wake, .call, .done, .enter] = some s ∧
    s.run.worker.workNext = none ∧ s.run.worker.running = true :=
  ⟨_, rfl, @no_lost_wakeup ℕ ℕ _ (fun _ => ⟨0, 0, none⟩) false
    [.start, .enter, .push 1 1, .wake, .call, .done, .enter] rfl rfl rfl⟩

end WaitRun

end Highway
