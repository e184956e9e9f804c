import Highway.Thread.PoolBound
import Highway.Thread.Wait

/-!
# Nobody waits for a thread that sleeps

`PoolWait` is `PoolLife` together with what has become of the waits: which of the threads that are
in `hiw_thread_critical_sec_wait` have been notified.  A push notifies the thread of its worker, and
`hiw_thread_pool_worker_stop` the thread that it stops; a thread may also wake up by itself.  Each
worker is a `WaitRun` in it (`PoolWait.turn_of_step`).

The main thread waits only for a thread that has been told to stop, so that this thread goes on
without waking up by itself (`PoolWait.exists_joined_step`).
-/

namespace Highway

open Lib

variable {F D : Type*}

theorem WorkerRun.exists_thread_step {r : WorkerRun F D} (hstarted : r.pc ≠ .notStarted)
    (hreturned : r.pc ≠ .returned) :
    ∃ (action : Action F D) (r' : WorkerRun F D), action.ByThread ∧ r.step action = some r' := by
  cases hpc : r.pc with
  | notStarted => exact absurd hpc hstarted
  | returned => exact absurd hpc hreturned
  | top =>
    obtain ⟨r', hr'⟩ : ∃ r', r.step .enter = some r' := by
      simp only [WorkerRun.step, hpc, if_true]
      split_ifs <;> exact ⟨_, rfl⟩
    exact ⟨.enter, r', trivial, hr'⟩
  | waiting => exact ⟨.wake, r.pop, trivial, if_pos hpc⟩
  | popped work => exact ⟨.call, _, trivial, by rw [WorkerRun.step, hpc]⟩
  | called work => exact ⟨.done, _, trivial, by rw [WorkerRun.step, hpc]⟩

/-- A thread pool with all who use it; `notified` says of the thread of each worker whether it has
been notified since it began to wait. -/
structure PoolWait (F D : Type*) where
  life : PoolLife F D
  notified : ℕ → Bool

namespace PoolLife

/-- The worker whose thread is notified in a step. -/
def notifies (s : PoolLife F D) : Action F D → Option ℕ
  | .main _ =>
    match s.main with
    | .stopping _ b _ => if (s.worker b).running then some b else none
    | _ => none
  | .pool (.link k) => s.pushes[k]?.map Push.worker
  | _ => none

variable {s s' : PoolLife F D} {a : Action F D} {b : ℕ}

theorem step_of_goOn (hfault : s.fault = none) (hgo : s.goOn a = some s') :
    ∃ t, s.step a = some t := by
  unfold PoolLife.step
  rw [if_neg (by simp [hfault]), hgo]
  exact ⟨_, rfl⟩

theorem goOn_of_thread {action : WorkerRun.Action F D} {r : WorkerRun F D}
    (hb : b < s.pool.pushRun.pool.allocated) (hthread : action.ByThread)
    (hr : (s.pool.run b).step action = some r) :
    s.goOn (.pool (.act b action)) = some { s with pool := s.pool.setRun b r } := by
  have hnot : ¬ action.IsPush := by
    cases action <;> first | exact hthread.elim | exact id
  have hpool : s.pool.step (.act b action) = some (s.pool.setRun b r) := by
    rw [ThreadPoolRun.step, if_pos ⟨hb, hnot⟩, hr]
    rfl
  rw [goOn, if_pos (show Allowed (.act b action) from hthread), hpool]
  rfl

end PoolLife

namespace PoolWait

open PoolLife (Change MainPc)

/-- The pool as `hiw_thread_pool_new` makes it. -/
def start (workers : ℕ → HiwThreadPoolWorker F D) (links : ℕ → Option ℕ) (n : ℕ) :
    PoolWait F D where
  life := .start workers links n
  notified := fun _ => false

/-- `hiw_thread_critical_sec_notify_one` ; it is lost on a thread that does not wait. -/
def notifyOne (s : PoolWait F D) (b : ℕ) : PoolWait F D :=
  if s.life.pool.pc b = .waiting then { s with notified := Function.update s.notified b true }
  else s

/-- The state behind a step of `PoolLife`, with the notification that is sent in it. -/
def after (s : PoolWait F D) (a : PoolLife.Action F D) (life : PoolLife F D) : PoolWait F D :=
  match s.life.notifies a, a with
  | some b, _ => notifyOne { s with life } b
  -- if the thread waits now, it begins to
  | none, .pool (.act b .enter) => { life, notified := Function.update s.notified b false }
  | none, _ => { s with life }

/-- One step. -/
def step (s : PoolWait F D) (a : PoolLife.Action F D) : Option (PoolWait F D) :=
  (s.life.step a).map (s.after a)

/-- A worker with its thread. -/
def worker (s : PoolWait F D) (b : ℕ) : WaitRun F D := ⟨s.life.pool.run b, s.notified b⟩

variable {s s' : PoolWait F D} {a : PoolLife.Action F D} {b : ℕ}

theorem worker_notifyOne (s : PoolWait F D) (c : ℕ) :
    (s.notifyOne c).worker b = if b = c then (s.worker b).notifyOne else s.worker b := by
  unfold notifyOne WaitRun.notifyOne
  by_cases hbc : b = c
  · subst hbc
    show PoolWait.worker (if (s.worker b).run.pc = .waiting then _ else _) b = _
    rw [if_pos rfl]
    split_ifs
    · simp [worker]
    · rfl
  · rw [if_neg hbc]
    split_ifs
    · simp [worker, hbc]
    · rfl

/-- What a step can do with a worker and its thread. -/
inductive Turn (w : WaitRun F D) : WaitRun F D → Prop
  | stays : Turn w w
  | steps {action : WorkerRun.Action F D} {w' : WaitRun F D} (hstep : w.step action = some w') :
    Turn w w'
  /-- The main thread is at it in `hiw_thread_pool_start`. -/
  | launched (created : Bool) :
    Turn w { w with
      run := { w.run with
        worker := { w.run.worker with running := true }
        pc := if created then .top else w.run.pc } }

theorem worker_setRun {life : PoolLife F D} {notified : ℕ → Bool} {c : ℕ} {r : WorkerRun F D}
    (hlife : life.pool = s.life.pool.setRun c r) (hother : b ≠ c → notified b = s.notified b) :
    worker ⟨life, notified⟩ b = if b = c then ⟨r, notified c⟩ else s.worker b := by
  unfold worker
  rw [hlife, ThreadPoolRun.run_setRun]
  split_ifs with hbc
  · rw [hbc]
  · exact congrArg (WaitRun.mk _) (hother hbc)

theorem turn_launch {c : ℕ} (created : Bool) (main : MainPc) :
    Turn (s.worker b) (worker { s with life := { s.life.launch c created with main } } b) := by
  have hworker : worker { s with life := { s.life.launch c created with main } } b =
      if b = c then _ else s.worker b := worker_setRun rfl fun _ => rfl
  rw [hworker]
  by_cases hbc : b = c
  · rw [if_pos hbc, hbc]
    exact .launched created
  · rw [if_neg hbc]
    exact .stays

theorem worker_stop {c : ℕ} (main : MainPc) :
    worker { s with life := { s.life.stop c with main } } b =
      if b = c then
        { s.worker c with
          run := { s.life.pool.run c with
            worker := (s.life.pool.run c).worker.stop, stopCalled := true } }
      else s.worker b := worker_setRun rfl fun _ => rfl

theorem turn_change {life : PoolLife F D} {created : Bool} (hc : Change s.life life) :
    Turn (s.worker b) ((s.after (.main created) life).worker b) := by
  cases hc with
  | @stopped again c next hmain hrunning =>
    simp only [after, PoolLife.notifies, hmain, hrunning, if_true]
    rw [worker_notifyOne, worker_stop]
    split_ifs with hbc
    · have hrunning' : (s.worker c).run.worker.running = true := hrunning
      have hstep : (s.worker c).step .stop = some (if _ then _ else _) := rfl
      rw [if_pos hrunning'] at hstep
      rw [hbc]
      exact .steps hstep
    · exact .stays
  | @skipped again c next hmain hrunning =>
    simp only [after, PoolLife.notifies, hmain, hrunning]
    rw [if_neg Bool.false_ne_true]
    show Turn _ (worker { s with life := { s.life.stop c with main := _ } } b)
    rw [worker_stop]
    split_ifs with hbc
    · have hrunning' : (s.worker c).run.worker.running = false := hrunning
      have hstep : (s.worker c).step .stop = some (if _ then _ else _) := rfl
      rw [if_neg (by simp [hrunning'])] at hstep
      rw [hbc]
      exact .steps hstep
    · exact .stays
  | restarted hmain | created hmain | refused hmain =>
    simp only [after, PoolLife.notifies, hmain]
    exact turn_launch _ _
  | @waited _ _ _ t hmain hwait | @freedThread _ _ t hmain hwait =>
    rw [PoolLife.wait_eq hwait]
    simp only [after, PoolLife.notifies, hmain]
    exact .stays
  | startedAll hmain | freedPool hmain | came hmain | cleaned hmain | freedWork hmain
  | freedWorker hmain =>
    simp only [after, PoolLife.notifies, hmain]
    exact .stays

theorem turn_pool {action : ThreadPoolRun.Action F D} {pool : ThreadPoolRun F D}
    (hallowed : PoolLife.Allowed action) (hpool : s.life.pool.step action = some pool) :
    Turn (s.worker b) ((s.after (.pool action) { s.life with pool }).worker b) := by
  cases action with
  | take func data =>
    obtain ⟨-, hrun, -⟩ := ThreadPoolRun.step_take hpool
    have hworker : worker { s with life := { s.life with pool } } b = s.worker b :=
      congrArg (WaitRun.mk · _) (hrun b)
    show Turn _ (worker { s with life := { s.life with pool } } b)
    rw [hworker]
    exact .stays
  | link k =>
    obtain ⟨p, hp, -, hworker, hother⟩ := ThreadPoolRun.step_link hpool
    have hnotifies : s.life.notifies (.pool (.link k)) = some p.worker :=
      congrArg (Option.map Push.worker) hp
    simp only [after, hnotifies]
    rw [worker_notifyOne]
    split_ifs with hbp
    · have hstep : (s.worker p.worker).step (.push p.func p.data) = _ :=
        congrArg (Option.map _) hworker
      rw [hbp]
      exact .steps hstep
    · have hsame : worker { s with life := { s.life with pool } } b = s.worker b :=
        congrArg (WaitRun.mk · _) (hother b hbp)
      rw [hsame]
      exact .stays
  | act c action =>
    obtain ⟨-, r, hr, rfl⟩ := ThreadPoolRun.step_act hpool
    have hlife : PoolLife.pool { s.life with pool := s.life.pool.setRun c r } = _ := rfl
    have hstep : (s.worker c).step action = _ := congrArg (Option.map _) hr
    cases action with
    | push | start | stop => exact hallowed.elim
    | enter =>
      show Turn _ (worker ⟨_, Function.update s.notified c false⟩ b)
      rw [worker_setRun hlife fun hbc => Function.update_of_ne hbc _ _, Function.update_self]
      split_ifs with hbc
      · rw [hbc]
        exact .steps hstep
      · exact .stays
    | wake | call | done =>
      show Turn _ (worker ⟨_, s.notified⟩ b)
      rw [worker_setRun hlife fun _ => rfl]
      split_ifs with hbc
      · rw [hbc]
        exact .steps hstep
      · exact .stays

theorem life_after (life : PoolLife F D) : (s.after a life).life = life := by
  unfold after notifyOne
  split
  · split_ifs <;> rfl
  · rfl
  · rfl

theorem life_of_step (hstep : s.step a = some s') : s.life.step a = some s'.life := by
  obtain ⟨life, hlife, rfl⟩ := Option.map_eq_some_iff.1 hstep
  rw [life_after]
  exact hlife

/-- **What a step does with each worker**, as long as nobody has looked at what is freed. -/
theorem turn_of_step (hstep : s.step a = some s') (hfault : s'.life.fault = none) :
    Turn (s.worker b) (s'.worker b) := by
  obtain ⟨life, hlife, rfl⟩ := Option.map_eq_some_iff.1 hstep
  rw [life_after] at hfault
  rcases PoolLife.step_cases hlife with ⟨hgo, -⟩ | ⟨o, -, -, rfl⟩
  · cases a with
    | start | delete =>
      simp only [PoolLife.goOn] at hgo
      split_ifs at hgo
      obtain rfl := Option.some.inj hgo
      exact .stays
    | main created => exact turn_change (PoolLife.change_of_mainStep hgo)
    | pool action =>
      simp only [PoolLife.goOn] at hgo
      split_ifs at hgo with hallowed
      obtain ⟨pool, hpool, rfl⟩ := Option.map_eq_some_iff.1 hgo
      exact turn_pool hallowed hpool
  · cases hfault

/-- A thread that waits without having been notified has nothing to do, wherever it is. -/
theorem alert_of_turn {w w' : WaitRun F D} (h : w.Alert) (hturn : Turn w w') : w'.Alert := by
  cases hturn with
  | stays => exact h
  | steps hstep => exact h.step hstep
  | launched created =>
    intro hpc hnotified
    cases created with
    | false => exact ⟨(h hpc hnotified).1, rfl⟩
    | true => cases hpc

section

variable {workers : ℕ → HiwThreadPoolWorker F D} {links : ℕ → Option ℕ} {n : ℕ}
  {actions : List (PoolLife.Action F D)}

theorem life_of_run (hrun : runLabels step s actions = some s') :
    runLabels PoolLife.step s.life actions = some s'.life := by
  induction actions generalizing s with
  | nil =>
    cases hrun
    rfl
  | cons a actions ih =>
    obtain ⟨t, ht, hrun⟩ := Option.bind_eq_some_iff.1 hrun
    exact Option.bind_eq_some_iff.2 ⟨t.life, life_of_step ht, ih hrun⟩

theorem alert_of_run (hrun : runLabels step (start workers links n) actions = some s)
    (hfault : s.life.fault = none) : (s.worker b).Alert := by
  have hstart : (start workers links n).life.fault = none →
      ((start workers links n).worker b).Alert :=
    fun _ => WaitRun.alert_of_pc_ne (show WorkerRun.Pc.notStarted ≠ .waiting by simp)
  refine invariant_of_runLabels (I := fun s => s.life.fault = none → (s.worker b).Alert)
    (fun u a u' _ h hstep hfault => ?_) hstart hrun hfault
  have hbefore := PoolLife.fault_eq_none_of_step (life_of_step hstep)
  exact alert_of_turn (h hbefore) (turn_of_step hstep hfault)

theorem step_of_goOn {life : PoolLife F D} (hfault : s.life.fault = none)
    (hgo : s.life.goOn a = some life) : ∃ s', s.step a = some s' := by
  obtain ⟨t, ht⟩ := PoolLife.step_of_goOn hfault hgo
  exact ⟨_, congrArg (Option.map (s.after a)) ht⟩

/-- **No deadlock.**  As long as `hiw_thread_pool_delete` has not returned and nobody has looked at
what is freed, the main thread can go on, or it waits for the thread of a worker that can: this
thread does not sleep, or it has been notified. -/
theorem exists_joined_step (hrun : runLabels step (start workers links n) actions = some s)
    (hdeleting : s.life.main.Deleting) (hfault : s.life.fault = none)
    (hdone : s.life.main ≠ .done) :
    (∀ created, ∃ s', s.step (.main created) = some s') ∨
      ∃ again b next action s', s.life.main = .joining again b next ∧ action.ByThread ∧
        (s.life.pool.pc b = .waiting → s.notified b = true) ∧
          s.step (.pool (.act b action)) = some s' := by
  have h := (PoolLife.sound_of_run (life_of_run hrun)).toOrderly
  obtain ⟨k, i, hwalk⟩ := h.walk
  have hplace := hwalk.place
  have hgo : (∀ created, (s.life.mainStep created).isSome) →
      ∀ created, ∃ s', s.step (.main created) = some s' := by
    intro hsome created
    obtain ⟨life, hlife⟩ := Option.isSome_iff_exists.1 (hsome created)
    exact step_of_goOn hfault (show s.life.goOn (.main created) = some life from hlife)
  cases hmain : s.life.main with
  | idle | starting =>
    rw [hmain] at hdeleting
    exact hdeleting.elim
  | done => exact absurd hmain hdone
  | walking worker => cases worker <;> exact .inl (hgo (by simp [PoolLife.mainStep, hmain]))
  | stopping again b next =>
    refine .inl (hgo fun created => ?_)
    simp only [PoolLife.mainStep, hmain]
    split_ifs <;> rfl
  | joining again b next =>
    by_cases hwait : s.life.started b = true ∧ s.life.pool.pc b ≠ .returned
    · -- its thread is on the way to its end
      obtain ⟨hstarted, hreturned⟩ := hwait
      rw [hmain] at hplace
      obtain ⟨hi, rfl, -⟩ := hplace
      have hb : (k + i) % n < s.life.pool.pushRun.pool.allocated :=
        (Nat.mod_lt _ (by omega)).trans_eq h.allocated.symm
      have hbegun : (s.life.pool.run ((k + i) % n)).pc ≠ .notStarted := h.threads.begun _ hstarted
      obtain ⟨action, r, hthread, hr⟩ := WorkerRun.exists_thread_step hbegun hreturned
      obtain ⟨s', hs'⟩ := step_of_goOn hfault (PoolLife.goOn_of_thread hb hthread hr)
      refine .inr ⟨again, _, next, action, s', rfl, hthread, fun hpc => ?_, hs'⟩
      -- it has been told to stop, and would not sleep if it had not been notified
      by_contra hnotified
      have hstopped := h.threads.stopped again _ next hmain
      have hrunning := (alert_of_run hrun hfault hpc (Bool.eq_false_iff.2 hnotified)).2
      exact Bool.false_ne_true (hstopped.symm.trans hrunning)
    · refine .inl (hgo fun created => ?_)
      simp only [PoolLife.mainStep, hmain, Option.isSome_map]
      unfold PoolLife.wait
      split_ifs with hstarted hreturned
      · rfl
      · exact absurd ⟨hstarted, hreturned⟩ hwait
      · rfl
  | cleaning b work next => cases work <;> exact .inl (hgo (by simp [PoolLife.mainStep, hmain]))
  | deletingThread b next =>
    have hstarted := h.threads.waited b (.inr (by rw [hmain]; rfl))
    exact .inl (hgo (by simp [PoolLife.mainStep, hmain, PoolLife.wait, hstarted]))
  | freeingWorker b next => exact .inl (hgo (by simp [PoolLife.mainStep, hmain]))

end

/-- Two threads that sleep, a push to the first worker, and the main thread that waits for the
second one. -/
def sleepAndDelete : List (PoolLife.Action ℕ ℕ) :=
  [.start, .main true, .main true, .main true, .pool (.act 0 .enter), .pool (.act 1 .enter),
    .pool (.take 1 1), .pool (.link 0), .delete, .main true, .main true]

theorem joined_step_sleepAndDelete : ∃ s,
    runLabels step (start (fun _ => .new (fun _ => ⟨0, 0, none⟩) false) (fun _ => none) 2)
      sleepAndDelete = some s ∧
    ∃ again b next action s', s.life.main = .joining again b next ∧ action.ByThread ∧
      (s.life.pool.pc b = .waiting → s.notified b = true) ∧
        s.step (.pool (.act b action)) = some s' := by
  obtain ⟨s, hrun⟩ : ∃ s, runLabels step
      (start (F := ℕ) (D := ℕ) (fun _ => .new (fun _ => ⟨0, 0, none⟩) false) (fun _ => none) 2)
      sleepAndDelete = some s := ⟨_, rfl⟩
  have hmain : s.life.main = .joining false 1 (some 0) := by
    cases hrun
    rfl
  have hfault : s.life.fault = none := by
    cases hrun
    rfl
  refine ⟨s, hrun, (exists_joined_step hrun (hmain ▸ trivial) hfault (by simp [hmain])).resolve_left
    fun hall => ?_⟩
  obtain ⟨s', hs'⟩ := hall true
  cases hrun
  cases hs'

end PoolWait

end Highway
