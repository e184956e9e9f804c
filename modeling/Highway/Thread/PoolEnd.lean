import Highway.Thread.PoolWalk

/-!
# The end of a thread pool

What holds in every run of `PoolLife`, whatever the order in which the main thread, the threads of
the workers and the callers of `hiw_thread_pool_push` go on.

* `Threads` : the main thread has waited for the thread of a worker that it frees.
* `Fresh` : what there is as long as nothing has been pushed.

So the thread of a worker never looks at what is freed (`PoolLife.main_or_caller_of_fault`), and
behind the end of `hiw_thread_pool_delete` nothing has ever been pushed
(`PoolLife.never_pushed_of_done`).
-/

namespace Highway

open Lib

variable {F D : Type*}

namespace PoolLife

variable {s s' t : PoolLife F D} {n k i b : ℕ}

/-! ### The threads -/

/-- The main thread has waited for the threads that it should. -/
structure Threads (s : PoolLife F D) : Prop where
  live : ∀ b, s.pool.pc b ≠ .notStarted → s.pool.pc b ≠ .returned → s.started b = true
  begun : ∀ b, s.started b = true → s.pool.pc b ≠ .notStarted
  running : ∀ b, s.started b = true →
    (s.worker b).running = true ∨ ∃ again next, s.main = .joining again b next
  stopped : ∀ again b next, s.main = .joining again b next → (s.worker b).running = false
  waited : ∀ b, b ∈ s.gone ∨ s.main.waited = some b → s.started b = false
  joined : ∀ b, s.pool.pc b ≠ .notStarted → s.started b = true ∨ b ∈ s.joined
  behind : ∀ b ∈ s.joined, b ∈ s.gone ∨ s.main.waited = some b
  ended : ∀ b ∈ s.joined, s.pool.pc b = .returned
  once : s.joined.Nodup

theorem running_launch (s : PoolLife F D) (b : ℕ) (created : Bool) (x : ℕ) :
    ((s.launch b created).worker x).running = if x = b then true else (s.worker x).running := by
  show (Function.update s.list.workers b _ x).running = _
  rw [Function.update_apply]
  split_ifs <;> rfl

theorem running_stop (s : PoolLife F D) (b x : ℕ) :
    ((s.stop b).worker x).running = if x = b then false else (s.worker x).running := by
  show (Function.update s.list.workers b _ x).running = _
  rw [Function.update_apply]
  split_ifs
  · unfold HiwThreadPoolWorker.stop
    split_ifs with h
    · rfl
    · simpa using h
  · rfl

theorem pc_stop (s : PoolLife F D) (b : ℕ) : (s.stop b).pool.pc = s.pool.pc :=
  Function.update_eq_self b s.pool.pc

theorem thread_step {r r' : WorkerRun F D} {action : WorkerRun.Action F D}
    (hthread : action.ByThread) (hstep : r.step action = some r') :
    r.pc ≠ .notStarted ∧ r.pc ≠ .returned ∧ r'.pc ≠ .notStarted ∧
      r'.worker.running = r.worker.running := by
  have hpop : r.pop.pc ≠ .notStarted ∧ r.pop.worker.running = r.worker.running := by
    unfold WorkerRun.pop HiwThreadPoolWorker.popWork
    cases r.worker.workNext with
    | none => exact ⟨by simp, rfl⟩
    | some work =>
      cases hnext : (r.worker.memory work).next <;> simp [hnext]
  cases action with
  | push | start | stop => exact hthread.elim
  | enter =>
    obtain ⟨hpc, ⟨rfl, -⟩ | ⟨rfl, -⟩ | rfl⟩ := WorkerRun.step_enter hstep
    · simp [hpc]
    · simp [hpc]
    · simpa [hpc] using hpop
  | wake =>
    obtain ⟨hpc, rfl⟩ := WorkerRun.step_wake hstep
    simpa [hpc] using hpop
  | call =>
    obtain ⟨p, hpc, rfl⟩ := WorkerRun.step_call hstep
    simp [hpc]
  | done =>
    obtain ⟨p, hpc, rfl⟩ := WorkerRun.step_done hstep
    refine ⟨by simp [hpc], by simp [hpc], by simp, ?_⟩
    unfold HiwThreadPoolWorker.workDone
    split <;> rfl

theorem Threads.went (h : s.Threads) {main : MainPc} {freed : List HeapObject}
    (hjoining : ∀ again b next, s.main ≠ .joining again b next)
    (hjoining' : ∀ again b next, main ≠ .joining again b next)
    (hwaited : ∀ b, b ∈ gone { s with main, freed } ∨ main.waited = some b ↔
      b ∈ s.gone ∨ s.main.waited = some b) :
    Threads { s with main, freed } where
  live := h.live
  begun := h.begun
  running := fun b hb => by
    rcases h.running b hb with hrunning | ⟨again, next, hmain⟩
    · exact .inl hrunning
    · exact absurd hmain (hjoining again b next)
  stopped := fun again b next hmain => absurd hmain (hjoining' again b next)
  waited := fun b hb => h.waited b ((hwaited b).1 hb)
  joined := h.joined
  behind := fun b hb => (hwaited b).2 (h.behind b hb)
  ended := h.ended
  once := h.once

theorem Threads.launch (h : s.Threads) {created : Bool} {main : MainPc}
    (hmain : s.main = .starting (some b)) (hgone : s.gone = []) (hwaited : main.waited = none)
    (hjoining : ∀ again b next, main ≠ .joining again b next) :
    Threads { s.launch b created with main } where
  live := fun x hx hx' => by
    show (if created then Function.update s.started b true else s.started) x = true
    change (Function.update s.pool.pc b (if created then .top else s.pool.pc b)) x ≠ _ at hx hx'
    cases created with
    | false =>
      simp only [Bool.false_eq_true, if_false, Function.update_eq_self] at hx hx' ⊢
      exact h.live x hx hx'
    | true =>
      simp only [if_true, Function.update_apply] at hx hx' ⊢
      split_ifs with hxb
      · rfl
      · rw [if_neg hxb] at hx hx'
        exact h.live x hx hx'
  begun := fun x hx => by
    show (Function.update s.pool.pc b (if created then .top else s.pool.pc b)) x ≠ _
    change (if created then Function.update s.started b true else s.started) x = true at hx
    cases created with
    | false =>
      simp only [Bool.false_eq_true, if_false, Function.update_eq_self] at hx ⊢
      exact h.begun x hx
    | true =>
      simp only [if_true, Function.update_apply] at hx ⊢
      split_ifs with hxb
      · simp
      · rw [if_neg hxb] at hx
        exact h.begun x hx
  running := fun x hx => by
    refine .inl ((running_launch s b created x).trans ?_)
    split_ifs with hxb
    · rfl
    · have hx' : s.started x = true := by
        change (if created then Function.update s.started b true else s.started) x = true at hx
        cases created with
        | false => exact hx
        | true => simpa [hxb] using hx
      exact (h.running x hx').resolve_right (by simp [hmain])
  stopped := fun again b next hm => absurd hm (hjoining again b next)
  waited := fun x hx => by
    rw [show PoolLife.gone { s.launch b created with main } = [] from hgone, hwaited] at hx
    simp at hx
  joined := fun x hx => by
    show (if created then Function.update s.started b true else s.started) x = true ∨ x ∈ s.joined
    change (Function.update s.pool.pc b (if created then .top else s.pool.pc b)) x ≠ _ at hx
    cases created with
    | false =>
      simp only [Bool.false_eq_true, if_false, Function.update_eq_self] at hx ⊢
      exact h.joined x hx
    | true =>
      simp only [if_true, Function.update_apply] at hx ⊢
      split_ifs with hxb
      · exact .inl rfl
      · rw [if_neg hxb] at hx
        exact h.joined x hx
  behind := fun x hx => by
    have hover := h.behind x hx
    rw [hgone, hmain] at hover
    simp [MainPc.waited] at hover
  ended := fun x hx => by
    have hover := h.behind x hx
    rw [hgone, hmain] at hover
    simp [MainPc.waited] at hover
  once := h.once

theorem Threads.wait (h : s.Threads) {main : MainPc} {freed : List HeapObject}
    (hwait : s.wait b = some t) (hother : ∀ x, x ≠ b → ∀ again next, s.main ≠ .joining again x next)
    (hjoining : ∀ again b next, main ≠ .joining again b next)
    (hwaited : ∀ x, x ∈ gone { t with main, freed } ∨ main.waited = some x ↔
      x ∈ s.gone ∨ s.main.waited = some x ∨ x = b) :
    Threads { t with main, freed } := by
  have hb : t.started b = false := by
    rcases wait_cases hwait with ⟨hb, rfl⟩ | ⟨-, -, rfl⟩
    · exact hb
    · simp
  have hne : ∀ x, x ≠ b → t.started x = s.started x := by
    intro x hx
    rcases wait_cases hwait with ⟨-, rfl⟩ | ⟨-, -, rfl⟩
    · rfl
    · simp [hx]
  have hpc : t.pool = s.pool := by
    rw [wait_eq hwait]
  have hreturned : s.started b = true → s.pool.pc b = .returned ∧ b ∈ t.joined := by
    intro hstarted
    rcases wait_cases hwait with ⟨hb, rfl⟩ | ⟨-, hreturned, rfl⟩
    · rw [hb] at hstarted
      cases hstarted
    · exact ⟨hreturned, List.mem_append_right _ List.mem_cons_self⟩
  have hjoined : (∀ x ∈ s.joined, x ∈ t.joined) ∧ (∀ x ∈ t.joined, x ∈ s.joined ∨ x = b) ∧
      t.joined.Nodup := by
    rcases wait_cases hwait with ⟨-, rfl⟩ | ⟨hstarted, -, rfl⟩
    · exact ⟨fun _ hx => hx, fun _ hx => .inl hx, h.once⟩
    · refine ⟨fun _ hx => List.mem_append_left _ hx, fun x hx => by simpa using hx, ?_⟩
      -- a thread that has been joined is not started any more
      refine h.once.append (List.nodup_singleton b) (List.disjoint_singleton.2 fun hb => ?_)
      rw [h.waited b (h.behind b hb)] at hstarted
      cases hstarted
  refine ⟨fun x hx hx' => ?_, fun x hx => ?_, fun x hx => ?_,
    fun again x next hm => absurd hm (hjoining again x next), fun x hx => ?_, fun x hx => ?_,
    fun x hx => ?_, fun x hx => ?_, hjoined.2.2⟩
  · show t.started x = true
    change t.pool.pc x ≠ _ at hx hx'
    rw [hpc] at hx hx'
    have hstarted := h.live x hx hx'
    have hxb : x ≠ b := by
      rintro rfl
      exact hx' (hreturned hstarted).1
    rw [hne x hxb, hstarted]
  · have hxb : x ≠ b := by
      rintro rfl
      rw [hb] at hx
      cases hx
    show t.pool.pc x ≠ _
    rw [hpc]
    exact h.begun x (hne x hxb ▸ hx)
  · have hxb : x ≠ b := by
      rintro rfl
      rw [hb] at hx
      cases hx
    rw [hne x hxb] at hx
    refine .inl ?_
    show (t.pool.pushRun.pool.workers x).running = true
    rw [hpc]
    exact (h.running x hx).resolve_right fun ⟨again, next, hmain⟩ => hother x hxb again next hmain
  · by_cases hxb : x = b
    · rw [hxb]
      exact hb
    · refine (hne x hxb).trans ?_
      rcases (hwaited x).1 hx with hx | hx | hx
      · exact h.waited x (.inl hx)
      · exact h.waited x (.inr hx)
      · exact absurd hx hxb
  · show t.started x = true ∨ x ∈ t.joined
    change t.pool.pc x ≠ _ at hx
    rw [hpc] at hx
    rcases h.joined x hx with hx | hx
    · by_cases hxb : x = b
      · subst hxb
        exact .inr (hreturned hx).2
      · exact .inl ((hne x hxb).trans hx)
    · exact .inr (hjoined.1 x hx)
  · refine (hwaited x).2 ?_
    rcases hjoined.2.1 x hx with hx | hx
    · exact (h.behind x hx).imp_right .inl
    · exact .inr (.inr hx)
  · show t.pool.pc x = .returned
    rw [hpc]
    rcases wait_cases hwait with ⟨-, rfl⟩ | ⟨-, hb, rfl⟩
    · exact h.ended x hx
    · rcases List.mem_append.1 hx with hx | hx
      · exact h.ended x hx
      · rwa [List.mem_singleton.1 hx]

theorem Threads.stop (h : s.Threads) {main : MainPc}
    (hjoining : ∀ again b next, s.main ≠ .joining again b next)
    (hmain : s.started b = true → ∃ again next, main = .joining again b next)
    (hsame : ∀ again x next, main = .joining again x next → x = b)
    (hwaited : ∀ x, main.waited = some x → s.main.waited = some x ∨ s.started x = false)
    (hover : ∀ x, s.main.waited = some x → main.waited = some x) :
    Threads { s.stop b with main } where
  live := fun x hx hx' => by
    rw [show pool { s.stop b with main } = (s.stop b).pool from rfl, pc_stop] at hx hx'
    exact h.live x hx hx'
  begun := fun x hx => by
    rw [show pool { s.stop b with main } = (s.stop b).pool from rfl, pc_stop]
    exact h.begun x hx
  running := fun x hx => by
    by_cases hxb : x = b
    · subst hxb
      exact .inr (hmain hx)
    · refine .inl ((running_stop s b x).trans ?_)
      rw [if_neg hxb]
      exact (h.running x hx).resolve_right fun ⟨again, next, hm⟩ => hjoining again x next hm
  stopped := fun again x next hm =>
    (running_stop s b x).trans (if_pos (hsame again x next hm))
  waited := fun x hx => by
    rcases hx with hx | hx
    · exact h.waited x (.inl hx)
    · exact (hwaited x hx).elim (fun hx => h.waited x (.inr hx)) id
  joined := fun x hx => by
    rw [show pool { s.stop b with main } = (s.stop b).pool from rfl, pc_stop] at hx
    exact h.joined x hx
  behind := fun x hx => (h.behind x hx).imp_right (hover x)
  ended := fun x hx => by
    rw [show pool { s.stop b with main } = (s.stop b).pool from rfl, pc_stop]
    exact h.ended x hx
  once := h.once

theorem gone_append_of_none {o : HeapObject} {main : MainPc} (ho : o.worker? = none) :
    gone { s with main, freed := s.freed ++ [o] } = s.gone := by
  rw [gone, List.filterMap_append, List.filterMap_cons_none ho, List.filterMap_nil,
    List.append_nil, gone]

theorem waited_behindStop (s : PoolLife F D) (again : Bool) (b : ℕ) (next : Option ℕ) :
    (s.behindStop again b next).waited = some b := by
  cases again <;> rfl

theorem behindStop_ne_joining (s : PoolLife F D) (again : Bool) (b : ℕ) (next : Option ℕ) :
    ∀ again' x next', s.behindStop again b next ≠ .joining again' x next' := by
  cases again <;> simp [behindStop]

/-- **Every step of the main thread keeps the threads in order.** -/
theorem Threads.change (h : s.Threads) (hwalk : s.Walk n k i) (hc : Change s s') :
    s'.Threads := by
  have hplace := hwalk.place
  have hgone := hwalk.gone
  cases hc with
  | startedAll hmain =>
    exact h.went (by simp [hmain]) (by simp) fun x => by rw [hmain]; rfl
  | restarted hmain | created hmain | refused hmain =>
    rw [hmain] at hplace
    obtain rfl : i = 0 := hplace
    exact h.launch hmain hgone rfl (by simp)
  | freedPool hmain =>
    refine h.went (by simp [hmain]) (by simp) fun x => ?_
    rw [gone_append_of_none rfl, hmain]
    rfl
  | came hmain =>
    exact h.went (by simp [hmain]) (by simp) fun x => by rw [hmain]; rfl
  | @stopped again b next hmain hrunning =>
    refine h.stop (by simp [hmain]) (fun _ => ⟨again, next, rfl⟩) (fun _ x _ heq => ?_)
      (fun x hx => .inl ?_) fun x hx => ?_
    · simp only [MainPc.joining.injEq] at heq
      exact heq.2.1.symm
    · rw [hmain]
      exact hx
    · rw [hmain] at hx
      exact hx
  | @skipped again b next hmain hrunning =>
    -- a worker that is not running has no thread
    have hb : s.started b = false := by
      by_contra hstarted
      rcases h.running b (by simpa using hstarted) with hrun | ⟨again, next, hjoining⟩
      · rw [hrunning] at hrun
        cases hrun
      · simp [hmain] at hjoining
    refine h.stop (by simp [hmain]) (fun hstarted => ?_)
      (fun _ x _ heq => absurd heq (behindStop_ne_joining _ _ _ _ _ _ _)) (fun x hx => .inr ?_)
      fun x hx => ?_
    · rw [hb] at hstarted
      cases hstarted
    · rw [waited_behindStop] at hx
      rw [← Option.some.inj hx, hb]
    · rw [hmain] at hx
      rw [waited_behindStop]
      cases again
      · cases hx
      · exact hx
  | @waited again b next t hmain hwait =>
    have hfreed : t.freed = s.freed := by rw [wait_eq hwait]
    show Threads { t with main := t.behindStop again b next, freed := t.freed }
    refine h.wait hwait (fun x hx again' next' heq => ?_) (behindStop_ne_joining _ _ _ _)
      fun x => ?_
    · rw [hmain] at heq
      simp only [MainPc.joining.injEq] at heq
      exact hx heq.2.1.symm
    · rw [waited_behindStop, gone, hfreed, hmain]
      cases again <;> simp [MainPc.waited, gone, eq_comm (a := b)]
  | @cleaned b next hmain =>
    exact h.went (by simp [hmain]) (by simp) fun x => by rw [hmain]; rfl
  | @freedWork b work next hmain =>
    refine h.went (by simp [hmain]) (by simp) fun x => ?_
    rw [gone_append_of_none rfl, hmain]
    rfl
  | @freedThread b next t hmain hwait =>
    have hfreed : t.freed = s.freed := by rw [wait_eq hwait]
    refine h.wait hwait (fun x hx again' next' heq => by simp [hmain] at heq) (by simp)
      fun x => ?_
    rw [gone_append_of_none rfl, gone, hfreed, hmain]
    simp [MainPc.waited, gone, eq_comm (a := b)]
  | @freedWorker b next hmain =>
    refine h.went (by simp [hmain]) (by simp) fun x => ?_
    rw [gone, List.filterMap_append, List.mem_append, hmain]
    simp [MainPc.waited, gone, HeapObject.worker?, eq_comm (a := b)]

theorem running_push (w : HiwThreadPoolWorker F D) (func : F) (data : D) :
    (w.push func data).running = w.running := by
  unfold HiwThreadPoolWorker.push HiwThreadPoolWorker.workNew
  cases w.workFree <;> cases w.workLast <;> simp [HiwThreadPoolWorker.setNext]

/-- **A caller and the thread of a worker leave the other threads as they are.** -/
theorem Threads.other (h : s.Threads) {action : ThreadPoolRun.Action F D}
    {pool : ThreadPoolRun F D}
    (hallowed : Allowed action) (hstep : s.pool.step action = some pool) :
    Threads { s with pool } := by
  have hsame : (∀ x, (pool.pushRun.pool.workers x).running = (s.worker x).running) ∧
      ∀ x, pool.pc x = s.pool.pc x ∨ s.started x = true ∧ pool.pc x ≠ .notStarted := by
    cases action with
    | take func data =>
      obtain ⟨-, hrun, -⟩ := ThreadPoolRun.step_take hstep
      exact ⟨fun x => congrArg (fun r => r.worker.running) (hrun x),
        fun x => .inl (congrArg WorkerRun.pc (hrun x))⟩
    | link j =>
      obtain ⟨p, -, -, hworker, hother⟩ := ThreadPoolRun.step_link hstep
      have hrun : ∀ x, (pool.run x).worker.running = (s.pool.run x).worker.running ∧
          (pool.run x).pc = (s.pool.run x).pc := by
        intro x
        by_cases hx : x = p.worker
        · rw [hx, ← Option.some.inj hworker]
          exact ⟨running_push _ _ _, rfl⟩
        · rw [hother x hx]
          exact ⟨rfl, rfl⟩
      exact ⟨fun x => (hrun x).1, fun x => .inl (hrun x).2⟩
    | act b action =>
      obtain ⟨-, r, hr, rfl⟩ := ThreadPoolRun.step_act hstep
      obtain ⟨hnot, hnot', hpc, hrunning⟩ := thread_step hallowed hr
      refine ⟨fun x => ?_, fun x => ?_⟩
      · show (Function.update s.list.workers b r.worker x).running = _
        rw [Function.update_apply]
        split_ifs with hx
        · rw [hx, hrunning]
          rfl
        · rfl
      · show Function.update s.pool.pc b r.pc x = _ ∨ _ ∧ Function.update s.pool.pc b r.pc x ≠ _
        rw [Function.update_apply]
        split_ifs with hx
        · exact .inr ⟨hx ▸ h.live b hnot hnot', hpc⟩
        · exact .inl rfl
  obtain ⟨hrunning, hpc⟩ := hsame
  refine ⟨fun x hx hx' => ?_, fun x hx => ?_, fun x hx => ?_, fun again x next hm => ?_, h.waited,
    fun x hx => ?_, h.behind, fun x hx => ?_, h.once⟩
  · rcases hpc x with heq | hx
    · exact h.live x (heq ▸ hx) (heq ▸ hx')
    · exact hx.1
  · rcases hpc x with heq | hx'
    · exact fun hnot => h.begun x hx (heq ▸ hnot)
    · exact hx'.2
  · exact (h.running x hx).imp_left fun hrun => (hrunning x).trans hrun
  · exact (hrunning x).trans (h.stopped again x next hm)
  · rcases hpc x with heq | hx
    · exact h.joined x (heq ▸ hx)
    · exact .inl hx.1
  · rcases hpc x with heq | hstarted
    · exact heq.trans (h.ended x hx)
    · rw [h.waited x (h.behind x hx)] at hstarted
      cases hstarted.1

/-! ### Without a push -/

/-- The worker has never had any work. -/
def Untouched (r : WorkerRun F D) : Prop :=
  r.worker.allocated = 0 ∧ r.worker.workFree = none ∧ r.worker.workNext = none ∧ r.held = none

theorem untouched_step {r r' : WorkerRun F D} {action : WorkerRun.Action F D}
    (hthread : action.ByThread) (h : Untouched r) (hstep : r.step action = some r') :
    Untouched r' := by
  obtain ⟨hallocated, hfree, hnext, hheld⟩ := h
  have hpop : r.pop = { r with pc := .top } := by
    simp only [WorkerRun.pop, HiwThreadPoolWorker.popWork, hnext]
  cases action with
  | push | start | stop => exact hthread.elim
  | enter =>
    obtain ⟨-, ⟨rfl, -⟩ | ⟨rfl, -⟩ | rfl⟩ := WorkerRun.step_enter hstep
    · exact ⟨hallocated, hfree, hnext, rfl⟩
    · exact ⟨hallocated, hfree, hnext, rfl⟩
    · rw [hpop]
      exact ⟨hallocated, hfree, hnext, rfl⟩
  | wake =>
    obtain ⟨-, rfl⟩ := WorkerRun.step_wake hstep
    rw [hpop]
    exact ⟨hallocated, hfree, hnext, rfl⟩
  | call =>
    obtain ⟨p, hpc, -⟩ := WorkerRun.step_call hstep
    simp [WorkerRun.held, hpc] at hheld
  | done =>
    obtain ⟨p, hpc, -⟩ := WorkerRun.step_done hstep
    simp [WorkerRun.held, hpc] at hheld

/-- There is no work, and none has been freed. -/
structure Fresh (s : PoolLife F D) (n : ℕ) : Prop where
  untouched : ∀ b < n, Untouched (s.pool.run b)
  cleaning : ∀ b work next, s.main ≠ .cleaning b (some work) next
  freed : ∀ b work, .work b work ∉ s.freed

theorem Fresh.went (h : s.Fresh n) (hpool : ∀ b < n, Untouched (t.pool.run b))
    (hmain : ∀ b work next, t.main ≠ .cleaning b (some work) next)
    (hfreed : ∀ b work, .work b work ∈ t.freed → .work b work ∈ s.freed) : t.Fresh n :=
  ⟨hpool, hmain, fun b work hwork => h.freed b work (hfreed b work hwork)⟩

theorem untouched_launch (h : ∀ b < n, Untouched (s.pool.run b)) (created : Bool) :
    ∀ x < n, Untouched ((s.launch b created).pool.run x) := by
  intro x hx
  show Untouched ((s.pool.setRun b _).run x)
  rw [ThreadPoolRun.run_setRun]
  by_cases hxb : x = b
  · subst hxb
    obtain ⟨hallocated, hfree, hnext, hheld⟩ := h x hx
    rw [if_pos rfl]
    refine ⟨hallocated, hfree, hnext, ?_⟩
    cases created
    · exact hheld
    · rfl
  · rw [if_neg hxb]
    exact h x hx

theorem untouched_stop (h : ∀ b < n, Untouched (s.pool.run b)) :
    ∀ x < n, Untouched ((s.stop b).pool.run x) := by
  intro x hx
  show Untouched ((s.pool.setRun b _).run x)
  rw [ThreadPoolRun.run_setRun]
  split_ifs with hxb
  · subst hxb
    obtain ⟨hallocated, hfree, hnext, hheld⟩ := h x hx
    rw [HiwThreadPoolWorker.stop_eq]
    exact ⟨hallocated, hfree, hnext, hheld⟩
  · exact h x hx

theorem behindStop_ne_cleaning (h : Untouched (s.pool.run b)) (again : Bool) (next : Option ℕ) :
    ∀ x work next', s.behindStop again b next ≠ .cleaning x (some work) next' := by
  have hfree : (s.worker b).workFree = none := h.2.1
  intro x work next'
  cases again <;> simp [behindStop, hfree]

theorem Fresh.change (h : s.Fresh n) (hwalk : s.Walk n k i) (hc : Change s s') : s'.Fresh n := by
  have hplace := hwalk.place
  cases hc with
  | startedAll | came | cleaned => exact h.went h.untouched (by simp) fun _ _ hwork => hwork
  | restarted | created | refused =>
    exact h.went (untouched_launch h.untouched _) (by simp) fun _ _ hwork => hwork
  | freedPool | freedWorker =>
    exact h.went h.untouched (by simp) fun _ _ hwork => by simpa using hwork
  | stopped => exact h.went (untouched_stop h.untouched) (by simp) fun _ _ hwork => hwork
  | @skipped again b next hmain =>
    rw [hmain] at hplace
    obtain ⟨hi, rfl, -⟩ := hplace
    have hb := h.untouched ((k + i) % n) (Nat.mod_lt _ (by omega))
    exact h.went (untouched_stop h.untouched) (behindStop_ne_cleaning hb _ _)
      fun _ _ hwork => hwork
  | @waited again b next t hmain hwait =>
    rw [hmain] at hplace
    obtain ⟨hi, rfl, -⟩ := hplace
    have hb := h.untouched ((k + i) % n) (Nat.mod_lt _ (by omega))
    rw [wait_eq hwait]
    exact h.went h.untouched (behindStop_ne_cleaning hb _ _) fun _ _ hwork => hwork
  | freedWork hmain => exact absurd hmain (h.cleaning _ _ _)
  | freedThread hmain hwait =>
    rw [wait_eq hwait]
    exact h.went h.untouched (by simp) fun _ _ hwork => by simpa using hwork

theorem Fresh.other (h : s.Fresh n) {action : ThreadPoolRun.Action F D} {pool : ThreadPoolRun F D}
    (hallowed : Allowed action) (hstep : s.pool.step action = some pool)
    (hnil : pool.pushRun.pushes = []) : Fresh { s with pool } n := by
  refine ⟨fun x hx => ?_, h.cleaning, h.freed⟩
  cases action with
  | take func data =>
    obtain ⟨-, hrun, -⟩ := ThreadPoolRun.step_take hstep
    exact (hrun x).symm ▸ h.untouched x hx
  | link j =>
    obtain ⟨p, hp, hpush, -⟩ := ThreadPoolRun.step_link hstep
    obtain ⟨q, -, -, heq⟩ := PushRun.step_link hpush
    -- there is a push that links its work
    rw [heq] at hnil
    have hempty : s.pool.pushRun.pushes = [] := by simpa using hnil
    simp [hempty] at hp
  | act b action =>
    obtain ⟨-, r, hr, rfl⟩ := ThreadPoolRun.step_act hstep
    show Untouched ((s.pool.setRun b r).run x)
    rw [ThreadPoolRun.run_setRun]
    split_ifs with hxb
    · exact untouched_step hallowed (hxb ▸ h.untouched x hx) hr
    · exact h.untouched x hx

/-! ### The whole pool -/

/-- The pool is in order; no thread runs that the main thread has waited for. -/
structure Orderly (s : PoolLife F D) (n : ℕ) : Prop where
  allocated : s.list.allocated = n
  links : s.Links n
  walk : ∃ k i, s.Walk n k i
  threads : s.Threads
  fresh : s.pushes = [] → s.Fresh n

/-- What a fault can be: a push, or the end of the pool that comes back to what it has freed. -/
def Explains (s : PoolLife F D) (n : ℕ) (party : Party) (o : HeapObject) : Prop :=
  party = .caller ∨
    party = .main ∧ s.pushes ≠ [] ∧
      ((∃ a work, o = .work a work) ∨ (∃ a < n, o = .worker a) ∧ ∀ b < n, .worker b ∈ s.freed)

theorem orderly_start (workers : ℕ → HiwThreadPoolWorker F D) (links : ℕ → Option ℕ) (n : ℕ) :
    (start workers links n).Orderly n where
  allocated := (HiwThreadPool.line_new workers links n).allocated
  links := .inl ⟨rfl, HiwThreadPool.line_new workers links n⟩
  walk := ⟨0, 0, Nat.zero_le _, rfl, rfl, by simp [start], fun b => by simp [start, gone,
    MainPc.threadless], fun b p hp => by simp [start] at hp, List.nodup_nil⟩
  threads := ⟨fun _ hb => absurd rfl hb, fun _ hb => absurd hb Bool.false_ne_true,
    fun _ hb => absurd hb Bool.false_ne_true, fun _ _ _ hmain => MainPc.noConfusion hmain,
    fun _ _ => rfl,
    fun _ hb => absurd rfl hb, fun _ hb => absurd hb List.not_mem_nil,
    fun _ hb => absurd hb List.not_mem_nil, List.nodup_nil⟩
  fresh := fun _ => by
    refine ⟨fun b hb => ?_, by simp [start], by simp [start]⟩
    have hnew : (start workers links n).pool.pushRun.pool.workers b = _ :=
      HiwThreadPool.workers_new workers links hb
    unfold ThreadPoolRun.run
    rw [hnew]
    exact ⟨rfl, rfl, rfl, rfl⟩

theorem pushes_of_change (hc : Change s s') : s'.pushes = s.pushes := by
  cases hc with
  | @waited _ _ _ t _ hwait | @freedThread _ _ t _ hwait =>
    rw [wait_eq hwait]
    rfl
  | _ => rfl

theorem allocated_of_change (hc : Change s s') : s'.list.allocated = s.list.allocated := by
  cases hc with
  | @waited _ _ _ t _ hwait | @freedThread _ _ t _ hwait =>
    rw [wait_eq hwait]
    rfl
  | _ => rfl

theorem allocated_rotate {list list' : HiwThreadPool F D} {w : ℕ}
    (hrotate : list.rotate = some (w, list')) : list'.allocated = list.allocated := by
  unfold HiwThreadPool.rotate at hrotate
  repeat' split at hrotate
  all_goals cases hrotate
  rfl

/-- **Every step on objects that are there keeps the pool in order.** -/
theorem Orderly.goOn (h : s.Orderly n) {a : Action F D} (hfound : ∀ o ∈ s.uses a, o ∉ s.freed)
    (hgo : s.goOn a = some s') : s'.Orderly n := by
  obtain ⟨k, i, hwalk⟩ := h.walk
  have hplace := hwalk.place
  rcases goOn_cases hgo with ⟨hmain, rfl⟩ | ⟨hmain, rfl⟩ | ⟨created, rfl, hc⟩ |
    ⟨action, pool, rfl, hallowed, hpool, rfl⟩
  · rw [hmain] at hplace
    refine ⟨h.allocated, h.links, ⟨k, i, ?_⟩,
      h.threads.went (by simp [hmain]) (by simp) fun x => ?_,
      fun hnil => (h.fresh hnil).went (h.fresh hnil).untouched (by simp) fun _ _ hwork => hwork⟩
    · exact hwalk.moved rfl rfl hplace (by simp [hmain]) (by rw [hmain]; rfl)
        (by simp [hmain, MainPc.cleaned])
    · rw [hmain]
      rfl
  · rw [hmain] at hplace
    obtain rfl : i = 0 := hplace
    refine ⟨h.allocated, h.links, ⟨s.pushes.length, 0, ?_⟩,
      h.threads.went (by simp [hmain]) (by simp) fun x => ?_,
      fun hnil => (h.fresh hnil).went (h.fresh hnil).untouched (by simp) fun _ _ hwork => hwork⟩
    · have hwalk' : s.Walk n s.pushes.length 0 :=
        ⟨Nat.le_refl _, hwalk.gone, by rw [hmain]; rfl, hwalk.pool, hwalk.thread, hwalk.work,
          hwalk.nodup⟩
      exact hwalk'.moved rfl rfl h.links.target_first (by simp [hmain]) (by rw [hmain]; rfl)
        (by simp [hmain, MainPc.cleaned])
    · rw [hmain]
      rfl
  · refine ⟨(allocated_of_change hc).trans h.allocated, h.links.change hc,
      ⟨k, hwalk.change h.links hfound hc⟩, h.threads.change hwalk hc, fun hnil => ?_⟩
    rw [pushes_of_change hc] at hnil
    exact (h.fresh hnil).change hwalk hc
  · refine ⟨?_, h.links.pool hpool, ⟨k, i, hwalk.other h.links hfound hpool⟩,
      h.threads.other hallowed hpool, fun hnil => ?_⟩
    · rcases list_of_pool hpool with ⟨_, _, w, list', -, hrotate, hlist, -⟩ | ⟨⟨workers, hlist⟩, -⟩
      · show pool.pushRun.pool.allocated = n
        rw [hlist, ← h.allocated]
        exact allocated_rotate hrotate
      · show pool.pushRun.pool.allocated = n
        rw [hlist, ← h.allocated]
    · have hs : s.pushes = [] := by
        rcases list_of_pool hpool with ⟨_, _, w, list', -, -, -, hpushes⟩ | ⟨-, hpushes⟩
        · rw [show pool.pushRun.pushes = [] from hnil] at hpushes
          simp at hpushes
        · rw [show pool.pushRun.pushes = [] from hnil] at hpushes
          exact List.length_eq_zero_iff.1 hpushes.symm
      exact (h.fresh hs).other hallowed hpool hnil

/-- What the main thread finds freed: work, or the worker that it has freed first. -/
theorem Walk.found (h : s.Walk n k i) {o : HeapObject} (ho : o ∈ s.main.uses)
    (hfreed : o ∈ s.freed) :
    (∃ b work next, o = .work b work ∧ s.main = .cleaning b (some work) next) ∨
      i = n ∧ ∃ b, o = .worker b ∧ s.main = .walking (some b) := by
  have hplace := h.place
  have hgone := h.gone
  have hworker : i < n → .worker ((k + i) % n) ∉ s.freed := by
    intro hi hmem
    rw [worker_mem_freed, hgone] at hmem
    exact not_mem_ringFrom hi hmem
  have hthread : i < n → s.main.threadless = none → .thread ((k + i) % n) ∉ s.freed := by
    intro hi hmain hmem
    rw [h.thread, hgone, hmain] at hmem
    exact hmem.elim (not_mem_ringFrom hi) (by simp)
  have hpool : s.main ≠ .done → .pool ∉ s.freed := fun hmain hmem => hmain (h.pool.1 hmem)
  cases hmain : s.main with
  | idle | done =>
    rw [hmain] at ho
    cases ho
  | starting worker =>
    rw [hmain] at ho hplace
    obtain rfl : i = 0 := hplace
    cases worker with
    | none => cases ho
    | some b =>
      simp only [MainPc.uses, List.mem_cons, List.not_mem_nil, or_false] at ho
      rcases ho with rfl | rfl
      · rw [worker_mem_freed, hgone] at hfreed
        cases hfreed
      · rw [h.thread, hgone, hmain] at hfreed
        exact hfreed.elim (fun hb => by cases hb) (by simp [MainPc.threadless])
  | walking worker =>
    rw [hmain] at ho hplace
    cases worker with
    | none =>
      obtain rfl := List.mem_singleton.1 ho
      exact absurd hfreed (hpool (by simp [hmain]))
    | some b =>
      obtain rfl := List.mem_singleton.1 ho
      obtain ⟨rfl, hle, -⟩ := hplace
      refine .inr ⟨Nat.le_antisymm hle (Nat.not_lt.1 fun hi => hworker hi hfreed), _, rfl, rfl⟩
  | stopping again b next =>
    rw [hmain] at ho hplace
    obtain ⟨hi, rfl, -⟩ := hplace
    simp only [MainPc.uses, List.mem_cons, List.not_mem_nil, or_false] at ho
    rcases ho with rfl | rfl
    · exact absurd hfreed (hworker hi)
    · exact absurd hfreed (hpool (by simp [hmain]))
  | joining again b next =>
    rw [hmain] at ho hplace
    obtain ⟨hi, rfl, -⟩ := hplace
    obtain rfl := List.mem_singleton.1 ho
    exact absurd hfreed (hthread hi (by rw [hmain]; rfl))
  | cleaning b work next =>
    rw [hmain] at ho
    cases work with
    | none => cases ho
    | some work => exact .inl ⟨b, work, next, List.mem_singleton.1 ho, rfl⟩
  | deletingThread b next =>
    rw [hmain] at ho hplace
    obtain ⟨hi, rfl, -⟩ := hplace
    simp only [MainPc.uses, List.mem_cons, List.not_mem_nil, or_false] at ho
    rcases ho with rfl | rfl
    · exact absurd hfreed (hworker hi)
    · exact absurd hfreed (hthread hi (by rw [hmain]; rfl))
  | freeingWorker b next =>
    rw [hmain] at ho hplace
    obtain ⟨hi, rfl, -⟩ := hplace
    obtain rfl := List.mem_singleton.1 ho
    exact absurd hfreed (hworker hi)

/-- **The thread of a worker finds everything that it looks at.** -/
theorem Orderly.found_of_act (h : s.Orderly n) {pool : ThreadPoolRun F D}
    {action : WorkerRun.Action F D} (hallowed : action.ByThread)
    (hstep : s.pool.step (.act b action) = some pool) {o : HeapObject}
    (ho : o ∈ s.poolUses (.act b action)) : o ∉ s.freed := by
  obtain ⟨k, i, hwalk⟩ := h.walk
  have hguard : b < n := by
    simp only [ThreadPoolRun.step] at hstep
    split_ifs at hstep with hguard
    exact h.allocated ▸ hguard.1
  obtain ⟨-, r, hr, -⟩ := ThreadPoolRun.step_act hstep
  obtain ⟨hnot, hnot', -⟩ := thread_step hallowed hr
  -- its thread runs, so the main thread has not waited for it
  have hstarted := h.threads.live b hnot hnot'
  have hrest : ¬ (b ∈ s.gone ∨ s.main.waited = some b) := fun hb => by
    rw [h.threads.waited b hb] at hstarted
    cases hstarted
  obtain ⟨hgone, hwaited⟩ := not_or.1 hrest
  simp only [poolUses, List.mem_cons, List.mem_map] at ho
  rcases ho with rfl | rfl | rfl | ⟨work, -, rfl⟩
  · intro hpool
    have hplace := hwalk.place
    rw [hwalk.pool.1 hpool] at hplace
    rw [hwalk.gone, hplace.1] at hgone
    exact hgone (mem_ringFrom hguard)
  · rwa [worker_mem_freed]
  · rw [hwalk.thread]
    refine fun hthread => hthread.elim hgone fun hb => hwaited ?_
    cases hmain : s.main <;> rw [hmain] at hb <;> simp only [MainPc.threadless, reduceCtorEq] at hb
    exact hb
  · refine fun hwork => (hwalk.work b work hwork).elim hgone fun hb => hwaited ?_
    cases hmain : s.main <;> rw [hmain] at hb <;> simp only [MainPc.cleaned, reduceCtorEq] at hb
    all_goals exact hb

theorem Orderly.explains (h : s.Orderly n) {a : Action F D} (hgo : s.goOn a = some s')
    {o : HeapObject} (ho : o ∈ s.uses a) (hfreed : o ∈ s.freed) : s.Explains n a.party o := by
  obtain ⟨k, i, hwalk⟩ := h.walk
  cases a with
  | start | delete =>
    -- the pool is freed when the main thread is done
    obtain rfl := List.mem_singleton.1 ho
    have hdone := hwalk.pool.1 hfreed
    simp [PoolLife.goOn, hdone] at hgo
  | main created =>
    refine .inr ⟨rfl, ?_⟩
    rcases hwalk.found ho hfreed with ⟨b, work, next, rfl, hmain⟩ | ⟨rfl, b, rfl, hmain⟩
    · exact ⟨fun hnil => (h.fresh hnil).cleaning b work next hmain, .inl ⟨b, work, rfl⟩⟩
    · have hplace := hwalk.place
      rw [hmain] at hplace
      obtain ⟨rfl, -, hne⟩ := hplace
      have hall : ∀ b < i, .worker b ∈ s.freed := fun b hb => by
        rw [worker_mem_freed, hwalk.gone]
        exact mem_ringFrom hb
      rw [worker_mem_freed, hwalk.gone] at hfreed
      exact ⟨hne rfl, .inr ⟨⟨_, lt_of_mem_ringFrom (Nat.le_refl i) hfreed, rfl⟩, hall⟩⟩
  | pool action =>
    simp only [PoolLife.goOn] at hgo
    split_ifs at hgo with hallowed
    obtain ⟨pool, hpool, -⟩ := Option.map_eq_some_iff.1 hgo
    cases action with
    | take | link => exact .inl rfl
    | act b action => exact absurd hfreed (h.found_of_act hallowed hpool ho)

/-- The invariant of a run. -/
structure Sound (s : PoolLife F D) (n : ℕ) : Prop extends s.Orderly n where
  fault : ∀ party o, s.fault = some (party, o) → s.Explains n party o

theorem fault_of_goOn {a : Action F D} (hgo : s.goOn a = some s') : s'.fault = s.fault := by
  rcases goOn_cases hgo with ⟨-, rfl⟩ | ⟨-, rfl⟩ | ⟨created, -, hc⟩ | ⟨action, pool, -, -, -, rfl⟩
  · rfl
  · rfl
  · cases hc with
    | @waited _ _ _ t _ hwait | @freedThread _ _ t _ hwait => rw [wait_eq hwait]
    | _ => rfl
  · rfl

theorem Orderly.faulted (h : s.Orderly n) (fault : Option (Party × HeapObject)) :
    Orderly { s with fault } n where
  allocated := h.allocated
  links := h.links
  walk := by
    obtain ⟨k, i, hwalk⟩ := h.walk
    exact ⟨k, i, hwalk.moved rfl rfl (hwalk.place.congr rfl) Iff.rfl rfl fun _ hb => hb⟩
  threads := ⟨h.threads.live, h.threads.begun, h.threads.running, h.threads.stopped,
    h.threads.waited, h.threads.joined, h.threads.behind, h.threads.ended, h.threads.once⟩
  fresh := fun hnil =>
    ⟨(h.fresh hnil).untouched, (h.fresh hnil).cleaning, (h.fresh hnil).freed⟩

theorem Sound.step (h : s.Sound n) {a : Action F D} (hstep : s.step a = some s') :
    s'.Sound n := by
  have hnone := fault_eq_none_of_step hstep
  rcases step_cases hstep with ⟨hgo, hfound⟩ | ⟨o, ho, hfreed, rfl⟩
  · refine ⟨h.toOrderly.goOn hfound hgo, fun party o hfault => ?_⟩
    rw [fault_of_goOn hgo, hnone] at hfault
    cases hfault
  · refine ⟨h.toOrderly.faulted _, fun party o' hfault => ?_⟩
    obtain ⟨rfl, rfl⟩ := Prod.mk.inj (Option.some.inj hfault)
    obtain ⟨s', hgo⟩ := goOn_of_step hstep
    exact h.toOrderly.explains hgo ho hfreed

theorem sound_of_run {workers : ℕ → HiwThreadPoolWorker F D} {links : ℕ → Option ℕ}
    {actions : List (Action F D)} (hrun : runLabels step (start workers links n) actions = some s) :
    s.Sound n :=
  invariant_of_runLabels (I := fun s => s.Sound n) (fun _ _ _ _ h hstep => h.step hstep)
    ⟨orderly_start workers links n, fun _ _ hfault => by cases hfault⟩ hrun

section

variable {workers : ℕ → HiwThreadPoolWorker F D} {links : ℕ → Option ℕ}
  {actions : List (Action F D)}

/-- **Who looks at freed memory.**  However the main thread, the threads of the workers and the
callers of `hiw_thread_pool_push` go on, the thread of a worker never does.  The main thread does
only if something has been pushed: it frees work twice, or it comes back to a worker when all of
them are freed. -/
theorem main_or_caller_of_fault (hrun : runLabels step (start workers links n) actions = some s)
    {party : Party} {o : HeapObject} (hfault : s.fault = some (party, o)) :
    party = .caller ∨
      party = .main ∧ s.pushes ≠ [] ∧
        ((∃ a work, o = .work a work) ∨
          (∃ a < n, o = .worker a) ∧ ∀ b < n, .worker b ∈ s.freed) :=
  (sound_of_run hrun).fault party o hfault

/-- **Behind the end of a pool.**  When `hiw_thread_pool_delete` has returned, nothing has ever been
pushed; the workers, their threads and the pool have been freed, each once, and every thread that
was started has returned and was joined, once. -/
theorem never_pushed_of_done (hrun : runLabels step (start workers links n) actions = some s)
    (hdone : s.main = .done) :
    s.pushes = [] ∧ s.freed.Nodup ∧
      (∀ o, o ∈ s.freed ↔ o = .pool ∨ ∃ a < n, o = .worker a ∨ o = .thread a) ∧
      s.joined.Nodup ∧ ∀ a < n,
        s.pool.pc a = .notStarted ∧ a ∉ s.joined ∨ s.pool.pc a = .returned ∧ a ∈ s.joined := by
  have h := sound_of_run hrun
  obtain ⟨k, i, hwalk⟩ := h.walk
  have hplace := hwalk.place
  rw [hdone] at hplace
  obtain ⟨rfl, hnil⟩ := hplace
  have hfresh := h.fresh hnil
  have hgone : ∀ b, b ∈ s.gone ↔ b < i := fun b => by
    rw [hwalk.gone]
    exact ⟨lt_of_mem_ringFrom (Nat.le_refl i), mem_ringFrom⟩
  refine ⟨hnil, hwalk.nodup, fun o => ?_, h.threads.once, fun b hb => ?_⟩
  · cases o with
    | pool => simp [hwalk.pool, hdone]
    | worker b => simp [worker_mem_freed, hgone]
    | thread b => simp [hwalk.thread, hgone, hdone, MainPc.threadless]
    | work b work => simp [hfresh.freed b work]
  · have hstarted := h.threads.waited b (.inl ((hgone b).2 hb))
    by_cases hjoined : b ∈ s.joined
    · exact .inr ⟨h.threads.ended b hjoined, hjoined⟩
    · refine .inl ⟨?_, hjoined⟩
      by_contra hpc
      rcases h.threads.joined b hpc with hb | hb
      · rw [hstarted] at hb
        cases hb
      · exact hjoined hb

end

/-- Two workers, that are started, and stopped in the order of the given list. -/
def twoWorkers (between : List (Action ℕ ℕ)) (order : List ℕ) : List (Action ℕ ℕ) :=
  [.start, .main true, .main true, .main true] ++ between ++ [.delete] ++
    order.flatMap (fun a =>
      [.main true, .main true, .pool (.act a .enter), .main true, .main true, .main true,
        .main true, .main true])

/-- The pool in front of them. -/
def twoWorkersStart : PoolLife ℕ ℕ :=
  start (fun _ => .new (fun _ => ⟨0, 0, none⟩) false) (fun _ => none) 2

/-- One push that nobody executes: the main thread comes back to the second worker. -/
theorem fault_twoWorkers : ∃ s,
    runLabels step twoWorkersStart
      (twoWorkers [.pool (.take 1 1)] [1, 0] ++ [.main true]) = some s ∧
    (Party.main = .caller ∨ Party.main = .main ∧ s.pushes ≠ [] ∧
      ((∃ a work, HeapObject.worker 1 = .work a work) ∨
        (∃ a < 2, HeapObject.worker 1 = .worker a) ∧ ∀ b < 2, .worker b ∈ s.freed)) :=
  ⟨_, rfl, main_or_caller_of_fault (show runLabels step twoWorkersStart
    (twoWorkers [.pool (.take 1 1)] [1, 0] ++ [.main true]) = some _ from rfl) rfl⟩

theorem done_twoWorkers : ∃ s,
    runLabels step twoWorkersStart (twoWorkers [] [0, 1] ++ [.main true]) = some s ∧
    s.pushes = [] ∧ s.freed.Nodup ∧
      (∀ o, o ∈ s.freed ↔ o = .pool ∨ ∃ a < 2, o = .worker a ∨ o = .thread a) ∧
      s.joined.Nodup ∧ ∀ a < 2,
        s.pool.pc a = .notStarted ∧ a ∉ s.joined ∨ s.pool.pc a = .returned ∧ a ∈ s.joined :=
  ⟨_, rfl, never_pushed_of_done (show runLabels step twoWorkersStart
    (twoWorkers [] [0, 1] ++ [.main true]) = some _ from rfl) rfl⟩

end PoolLife

end Highway
