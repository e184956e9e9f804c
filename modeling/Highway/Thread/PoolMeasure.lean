import Highway.Thread.PoolEnd
import Mathlib.Algebra.BigOperators.Group.Finset.Piecewise
import Mathlib.Algebra.BigOperators.Ring.Finset
import Mathlib.Algebra.Order.BigOperators.Group.Finset

/-!
# How far a thread pool is from its end

The steps that the thread of a worker has left when it is stopped (`WorkerRun.rank`), and those that
the main thread has left in `hiw_thread_pool_delete`, with the threads that it has stopped
(`PoolLife.rank`).

All work that a pool gets to, pending, free or in the hands of a thread, is work of its own
(`PoolLife.Owning`), so there is only so much of it to free.
-/

namespace Highway

open Lib

variable {F D : Type*}

namespace WorkerRun

variable {r r' : WorkerRun F D} {ps : List ℕ} {action : Action F D} {func : F} {data : D}

/-! ### One worker -/

/-- How much has been pushed and not been called. -/
def todo (r : WorkerRun F D) : ℕ := r.pushed.length - r.executed.length

/-- How many steps the thread has left until it takes work again. -/
def Pc.rank : Pc → ℕ
  | .notStarted | .returned | .popped _ => 0
  | .top => 1
  | .waiting | .called _ => 2

/-- How many steps the thread has left when it is stopped. -/
def rank (r : WorkerRun F D) : ℕ := 3 * r.todo + if r.worker.running then 2 else r.pc.rank

theorem rank_le (r : WorkerRun F D) : r.rank ≤ 3 * r.pushed.length + 2 := by
  have hpc : r.pc.rank ≤ 2 := by cases r.pc <;> simp [Pc.rank]
  unfold rank todo
  split_ifs <;> omega

theorem rank_stop (r : WorkerRun F D) :
    rank { r with worker := r.worker.stop, stopCalled := true } ≤ r.rank := by
  have hpc : r.pc.rank ≤ 2 := by cases r.pc <;> simp [Pc.rank]
  have hstop : r.worker.stop.running = false := by
    unfold HiwThreadPoolWorker.stop
    split_ifs with h
    · rfl
    · simpa using h
  unfold rank todo
  simp only [hstop, Bool.false_eq_true, if_false]
  split_ifs <;> omega

theorem rank_push (hstep : r.step (.push func data) = some r') : r'.rank ≤ r.rank + 3 := by
  obtain rfl := Option.some.inj hstep
  have hrunning : (r.worker.push func data).running = r.worker.running :=
    PoolLife.running_push _ _ _
  unfold rank todo
  simp only [hrunning, List.length_append, List.length_singleton]
  split_ifs <;> omega

theorem pop_cases (r : WorkerRun F D) :
    r.worker.workNext = none ∧ r.pop = { r with pc := .top } ∨
      ∃ work workNext workLast, r.worker.workNext = some work ∧
        (∀ q ∈ workNext, q ∈ r.worker.next work) ∧
        r.pop = { r with worker := { r.worker with workNext, workLast }, pc := .popped work } := by
  unfold pop HiwThreadPoolWorker.popWork
  cases r.worker.workNext with
  | none => exact .inl ⟨rfl, rfl⟩
  | some work =>
    refine .inr ?_
    cases hnext : (r.worker.memory work).next with
    | none => exact ⟨work, none, none, rfl, by simp, by simp only [hnext]⟩
    | some next =>
      refine ⟨work, some next, r.worker.workLast, rfl, fun q hq => ?_, by simp only [hnext]⟩
      exact hnext.trans hq

/-- **A thread that is stopped comes nearer to its end.** -/
theorem Inv.rank_step (h : r.Inv ps) (hthread : action.ByThread)
    (hstep : r.step action = some r') :
    r'.rank ≤ r.rank ∧ (r.worker.running = false → r'.rank < r.rank) := by
  have hqueue := congrArg List.length h.queue
  simp only [List.length_append, List.length_map] at hqueue
  have hpop : r.pc = .waiting ∨ r.pc = .top ∧ r.worker.workNext ≠ none →
      r.pop.rank ≤ r.rank ∧ (r.worker.running = false → r.pop.rank < r.rank) := by
    intro hpc
    rcases r.pop_cases with ⟨hnone, heq⟩ | ⟨work, workNext, workLast, -, -, heq⟩
    · have hpc : r.pc = .waiting := hpc.resolve_right fun hpc => hpc.2 hnone
      rw [heq]
      cases hrun : r.worker.running <;> simp [rank, todo, hrun, hpc, Pc.rank]
    · rw [heq]
      rcases hpc with hpc | ⟨hpc, -⟩ <;>
        cases hrun : r.worker.running <;> simp [rank, todo, hrun, hpc, Pc.rank]
  cases action with
  | push | start | stop => exact hthread.elim
  | enter =>
    simp only [WorkerRun.step] at hstep
    split_ifs at hstep with hpc hwait hreturn
    · obtain rfl := Option.some.inj hstep
      simp [rank, todo, hwait.2]
    · obtain rfl := Option.some.inj hstep
      have hrun : r.worker.running = false := by simpa using hreturn.1
      simp [rank, todo, hrun, hpc, Pc.rank]
    · obtain rfl := Option.some.inj hstep
      refine hpop (.inr ⟨hpc, fun hnone => ?_⟩)
      cases hrun : r.worker.running <;> simp_all
  | wake =>
    obtain ⟨hpc, rfl⟩ := step_wake hstep
    exact hpop (.inl hpc)
  | call =>
    obtain ⟨p, hpc, rfl⟩ := step_call hstep
    have hcurrent : r.current.length = 1 := by simp [current, hpc]
    unfold rank todo
    simp only [hpc, Pc.rank, List.length_append, List.length_singleton]
    split_ifs <;> omega
  | done =>
    obtain ⟨p, hpc, rfl⟩ := step_done hstep
    have hrunning : (r.worker.workDone p).running = r.worker.running := by
      unfold HiwThreadPoolWorker.workDone
      split <;> rfl
    unfold rank todo
    simp only [hpc, hrunning, Pc.rank]
    split_ifs <;> simp_all

/-! ### The nodes of a worker -/

/-- All work that the worker gets to is its own. -/
structure Closed (r : WorkerRun F D) : Prop where
  workNext : ∀ q ∈ r.worker.workNext, q < r.worker.allocated
  workFree : ∀ q ∈ r.worker.workFree, q < r.worker.allocated
  held : ∀ q ∈ r.held, q < r.worker.allocated
  next : ∀ p < r.worker.allocated, ∀ q ∈ r.worker.next p, q < r.worker.allocated
  pushed : r.worker.allocated ≤ r.pushed.length

theorem Closed.pop (h : r.Closed) : r.pop.Closed := by
  rcases r.pop_cases with ⟨-, heq⟩ | ⟨work, workNext, workLast, hwork, hnext, heq⟩
  · rw [heq]
    exact ⟨h.workNext, h.workFree, forall_mem_held rfl, h.next, h.pushed⟩
  · have hlt := h.workNext work hwork
    rw [heq]
    refine ⟨fun q hq => h.next work hlt q (hnext q hq), h.workFree, ?_, h.next, h.pushed⟩
    rintro q ⟨⟩
    exact hlt

theorem Closed.push (h : r.Closed) (hstep : r.step (.push func data) = some r') : r'.Closed := by
  obtain rfl := Option.some.inj hstep
  obtain ⟨work, w, hnew⟩ : ∃ work w, r.worker.workNew func data = (work, w) := ⟨_, _, rfl⟩
  -- the node, and the worker in which it is not linked yet
  have hw : work < w.allocated ∧ r.worker.allocated ≤ w.allocated ∧
      w.allocated ≤ r.pushed.length + 1 ∧ w.workFree = r.worker.workFree ∧
      (∀ q ∈ w.workNext, q < w.allocated) ∧
      ∀ p < w.allocated, ∀ q ∈ w.next p, q < w.allocated := by
    cases hfree : r.worker.workFree with
    | none =>
      rw [HiwThreadPoolWorker.workNew_of_none hfree] at hnew
      obtain ⟨rfl, rfl⟩ := Prod.mk.inj hnew
      refine ⟨Nat.lt_succ_self _, Nat.le_succ _, Nat.succ_le_succ h.pushed, hfree,
        fun q hq => Nat.lt_succ_of_lt (h.workNext q hq), fun p hp q hq => ?_⟩
      have hq' : q ∈ (r.worker.store r.worker.allocated func data).next p := hq
      rw [HiwThreadPoolWorker.next_store, Function.update_apply] at hq'
      split_ifs at hq' with hpa
      · cases hq'
      · exact Nat.lt_succ_of_lt (h.next p (by have : p < r.worker.allocated + 1 := hp; omega) q hq')
    | some f =>
      rw [HiwThreadPoolWorker.workNew_of_some hfree] at hnew
      obtain ⟨rfl, rfl⟩ := Prod.mk.inj hnew
      have hf := h.workFree f hfree
      refine ⟨hf, Nat.le_refl _, Nat.le_succ_of_le h.pushed, hfree, h.next f hf,
        fun p hp q hq => ?_⟩
      have hq' : q ∈ (r.worker.store f func data).next p := hq
      rw [HiwThreadPoolWorker.next_store, Function.update_apply] at hq'
      split_ifs at hq' with hpf
      · cases hq'
      · exact h.next p hp q hq'
  obtain ⟨hlt, hle, hlength, hfree, hnext, hlinks⟩ := hw
  have hpushed : w.allocated ≤ (r.pushed ++ [(func, data)]).length := by simpa using hlength
  have hfree' : ∀ q ∈ w.workFree, q < w.allocated := fun q hq =>
    Nat.lt_of_lt_of_le (h.workFree q (hfree ▸ hq)) hle
  have hheld : ∀ q ∈ r.held, q < w.allocated := fun q hq =>
    Nat.lt_of_lt_of_le (h.held q hq) hle
  cases hlast : w.workLast with
  | none =>
    rw [HiwThreadPoolWorker.push_of_none hnew hlast]
    refine ⟨?_, hfree', hheld, hlinks, hpushed⟩
    rintro q ⟨⟩
    exact hlt
  | some last =>
    rw [HiwThreadPoolWorker.push_of_some hnew hlast]
    refine ⟨hnext, hfree', hheld, fun p hp q hq => ?_, hpushed⟩
    have hq' : q ∈ Function.update w.next last (some work) p := by
      rw [← HiwThreadPoolWorker.next_setNext]
      exact hq
    rw [Function.update_apply] at hq'
    split_ifs at hq' with hpl
    · rwa [← Option.some.inj hq']
    · exact hlinks p hp q hq'

theorem Closed.done (h : r.Closed) {p : ℕ} (hpc : r.pc = .called p) :
    Closed { r with worker := r.worker.workDone p, pc := .top } := by
  have hlt : p < r.worker.allocated := h.held p (by rw [WorkerRun.held, hpc]; rfl)
  have hfree : ∀ q ∈ some p, q < r.worker.allocated := by
    rintro q ⟨⟩
    exact hlt
  cases hfree' : r.worker.workFree with
  | none =>
    rw [HiwThreadPoolWorker.workDone_of_none hfree']
    exact ⟨h.workNext, hfree, forall_mem_held rfl, h.next, h.pushed⟩
  | some f =>
    rw [HiwThreadPoolWorker.workDone_of_some hfree']
    refine ⟨h.workNext, hfree, forall_mem_held rfl, fun x hx q hq => ?_, h.pushed⟩
    have hq' : q ∈ Function.update r.worker.next p (some f) x := by
      rw [← HiwThreadPoolWorker.next_setNext]
      exact hq
    rw [Function.update_apply] at hq'
    split_ifs at hq' with hxp
    · exact h.workFree q (hfree'.trans hq')
    · exact h.next x hx q hq'

theorem Closed.step (h : r.Closed) (hstep : r.step action = some r') : r'.Closed := by
  cases action with
  | push func data => exact h.push hstep
  | start =>
    obtain ⟨-, rfl⟩ := step_start hstep
    exact ⟨h.workNext, h.workFree, forall_mem_held rfl, h.next, h.pushed⟩
  | stop =>
    obtain rfl := Option.some.inj hstep
    rw [HiwThreadPoolWorker.stop_eq]
    exact ⟨h.workNext, h.workFree, h.held, h.next, h.pushed⟩
  | enter =>
    obtain ⟨-, ⟨rfl, -⟩ | ⟨rfl, -⟩ | rfl⟩ := step_enter hstep
    · exact ⟨h.workNext, h.workFree, forall_mem_held rfl, h.next, h.pushed⟩
    · exact ⟨h.workNext, h.workFree, forall_mem_held rfl, h.next, h.pushed⟩
    · exact h.pop
  | wake =>
    obtain ⟨-, rfl⟩ := step_wake hstep
    exact h.pop
  | call =>
    obtain ⟨p, hpc, rfl⟩ := step_call hstep
    have hheld : r.held = some p := by rw [WorkerRun.held, hpc]
    exact ⟨h.workNext, h.workFree, fun q hq => h.held q (hheld.trans hq), h.next, h.pushed⟩
  | done =>
    obtain ⟨p, hpc, rfl⟩ := step_done hstep
    exact h.done hpc

theorem allocated_step (hthread : action.ByThread) (hstep : r.step action = some r') :
    r'.worker.allocated = r.worker.allocated := by
  have hpop : r.pop.worker.allocated = r.worker.allocated := by
    rcases r.pop_cases with ⟨-, heq⟩ | ⟨work, workNext, workLast, -, -, heq⟩ <;> rw [heq]
  cases action with
  | push | start | stop => exact hthread.elim
  | enter =>
    obtain ⟨-, ⟨rfl, -⟩ | ⟨rfl, -⟩ | rfl⟩ := step_enter hstep
    · rfl
    · rfl
    · exact hpop
  | wake =>
    obtain ⟨-, rfl⟩ := step_wake hstep
    exact hpop
  | call =>
    obtain ⟨p, -, rfl⟩ := step_call hstep
    rfl
  | done =>
    obtain ⟨p, -, rfl⟩ := step_done hstep
    unfold HiwThreadPoolWorker.workDone
    split <;> rfl

theorem allocated_push (w : HiwThreadPoolWorker F D) (func : F) (data : D) :
    w.allocated ≤ (w.push func data).allocated ∧
      (w.push func data).allocated ≤ w.allocated + 1 := by
  obtain ⟨work, w', hnew⟩ : ∃ work w', w.workNew func data = (work, w') := ⟨_, _, rfl⟩
  have hle : w.allocated ≤ w'.allocated ∧ w'.allocated ≤ w.allocated + 1 := by
    cases hfree : w.workFree with
    | none =>
      rw [HiwThreadPoolWorker.workNew_of_none hfree] at hnew
      obtain ⟨-, rfl⟩ := Prod.mk.inj hnew
      exact ⟨Nat.le_succ _, Nat.le_refl _⟩
    | some f =>
      rw [HiwThreadPoolWorker.workNew_of_some hfree] at hnew
      obtain ⟨-, rfl⟩ := Prod.mk.inj hnew
      exact ⟨Nat.le_refl _, Nat.le_succ _⟩
  cases hlast : w'.workLast with
  | none =>
    rw [HiwThreadPoolWorker.push_of_none hnew hlast]
    exact hle
  | some last =>
    rw [HiwThreadPoolWorker.push_of_some hnew hlast]
    exact hle

end WorkerRun

/-! ### The whole pool -/

namespace PoolLife

variable {s s' : PoolLife F D} {a : Action F D} {n b : ℕ}

/-- In `hiw_thread_pool_delete`, or behind it. -/
def MainPc.Deleting : MainPc → Prop
  | .idle | .starting _ => False
  | _ => True

/-- How many steps the main thread has left, apart from the work that it frees. -/
def MainPc.rank (n gone : ℕ) : MainPc → ℕ
  | .idle | .starting _ | .done => 0
  | .walking _ => 8 * (n - gone) + 1
  | .stopping again _ _ => 8 * (n - (gone + 1)) + if again then 6 else 8
  | .joining again _ _ => 8 * (n - (gone + 1)) + if again then 5 else 7
  | .cleaning _ _ _ => 8 * (n - (gone + 1)) + 4
  | .deletingThread _ _ => 8 * (n - (gone + 1)) + 3
  | .freeingWorker _ _ => 8 * (n - (gone + 1)) + 2

/-- It is a node of some work. -/
def HeapObject.isWork : HeapObject → Bool
  | .work _ _ => true
  | _ => false

/-- All work that has been allocated. -/
def nodes (s : PoolLife F D) (n : ℕ) : List HeapObject :=
  (List.range n).flatMap fun b => (List.range (s.worker b).allocated).map (.work b)

/-- How many steps the main thread and the threads have left that are stopped. -/
def rank (s : PoolLife F D) (n : ℕ) : ℕ :=
  if s.fault.isSome then 0
  else
    s.main.rank n s.gone.length + ((s.nodes n).length - s.freed.countP HeapObject.isWork) +
      ∑ b ∈ Finset.range n, (s.pool.run b).rank

/-- A push that links its work does it where this is safe. -/
def LinkSafe (s : PoolLife F D) : Action F D → Prop
  | .pool action => s.pool.LinkSafe action
  | _ => True

instance (s : PoolLife F D) : ∀ a, Decidable (s.LinkSafe a)
  | .pool action => inferInstanceAs (Decidable (s.pool.LinkSafe action))
  | .start | .delete | .main _ => isTrue trivial

/-- A step of the main thread, or of the thread of a worker that is stopped. -/
def own (s : PoolLife F D) : Action F D → Bool
  | .main _ => true
  | .pool (.act b _) => !(s.worker b).running
  | _ => false

@[simp] theorem mem_nodes {work : ℕ} :
    .work b work ∈ s.nodes n ↔ b < n ∧ work < (s.worker b).allocated := by
  simp [nodes]

/-- All work that the pool gets to is its own. -/
structure Owning (s : PoolLife F D) (n : ℕ) : Prop where
  closed : ∀ b < n, (s.pool.run b).Closed
  cleaning : ∀ b work next, s.main = .cleaning b (some work) next →
    work < (s.worker b).allocated
  freed : ∀ b work, .work b work ∈ s.freed → .work b work ∈ s.nodes n

theorem allocated_launch (s : PoolLife F D) (b : ℕ) (created : Bool) (x : ℕ) :
    ((s.launch b created).worker x).allocated = (s.worker x).allocated := by
  show (Function.update s.list.workers b _ x).allocated = _
  rw [Function.update_apply]
  by_cases hxb : x = b
  · rw [if_pos hxb, hxb]
    rfl
  · rw [if_neg hxb]
    rfl

theorem allocated_stop (s : PoolLife F D) (b x : ℕ) :
    ((s.stop b).worker x).allocated = (s.worker x).allocated := by
  show (Function.update s.list.workers b _ x).allocated = _
  rw [Function.update_apply]
  by_cases hxb : x = b
  · rw [if_pos hxb, hxb, HiwThreadPoolWorker.stop_eq]
    rfl
  · rw [if_neg hxb]
    rfl

theorem closed_launch (h : ∀ b < n, (s.pool.run b).Closed) (created : Bool) :
    ∀ x < n, ((s.launch b created).pool.run x).Closed := by
  intro x hx
  have hclosed := h x hx
  show ((s.pool.setRun b _).run x).Closed
  rw [ThreadPoolRun.run_setRun]
  by_cases hxb : x = b
  · subst hxb
    rw [if_pos rfl]
    refine ⟨hclosed.workNext, hclosed.workFree, ?_, hclosed.next, hclosed.pushed⟩
    cases created
    · exact hclosed.held
    · exact WorkerRun.forall_mem_held rfl
  · rw [if_neg hxb]
    exact hclosed

theorem closed_stop (h : ∀ b < n, (s.pool.run b).Closed) :
    ∀ x < n, ((s.stop b).pool.run x).Closed := by
  intro x hx
  show ((s.pool.setRun b _).run x).Closed
  rw [ThreadPoolRun.run_setRun]
  split_ifs with hxb
  · subst hxb
    have hstep : (s.pool.run x).step .stop =
        some { s.pool.run x with worker := (s.pool.run x).worker.stop, stopCalled := true } := rfl
    exact (h x hx).step hstep
  · exact h x hx

theorem Owning.went {t : PoolLife F D} (h : s.Owning n)
    (hclosed : ∀ b < n, (t.pool.run b).Closed)
    (hallocated : ∀ b, (s.worker b).allocated ≤ (t.worker b).allocated)
    (hcleaning : ∀ b work next, t.main = .cleaning b (some work) next →
      work < (t.worker b).allocated)
    (hfreed : ∀ b work, .work b work ∈ t.freed → .work b work ∈ s.freed ∨
      b < n ∧ work < (s.worker b).allocated) : t.Owning n := by
  refine ⟨hclosed, hcleaning, fun b work hwork => ?_⟩
  have hnode : .work b work ∈ s.nodes n :=
    (hfreed b work hwork).elim (h.freed b work) mem_nodes.2
  obtain ⟨hb, hlt⟩ := mem_nodes.1 hnode
  exact mem_nodes.2 ⟨hb, Nat.lt_of_lt_of_le hlt (hallocated b)⟩

theorem cleaning_behindStop (h : (s.pool.run b).Closed) (again : Bool) (next : Option ℕ) :
    ∀ x work next', s.behindStop again b next = .cleaning x (some work) next' →
      work < (s.worker x).allocated := by
  intro x work next' heq
  cases again with
  | false => simp [behindStop] at heq
  | true =>
    simp only [behindStop, if_true, MainPc.cleaning.injEq] at heq
    obtain ⟨rfl, hfree, -⟩ := heq
    exact h.workFree work hfree

theorem Owning.change {k i : ℕ} (h : s.Owning n) (hwalk : s.Walk n k i) (hc : Change s s') :
    s'.Owning n := by
  have hplace := hwalk.place
  have hle : ∀ b, (s.worker b).allocated ≤ (s.worker b).allocated := fun _ => Nat.le_refl _
  cases hc with
  | startedAll | came | cleaned =>
    exact h.went h.closed hle (by simp) fun _ _ hwork => .inl hwork
  | restarted | created | refused =>
    exact h.went (closed_launch h.closed _) (fun x => (allocated_launch s _ _ x).ge) (by simp)
      fun _ _ hwork => .inl hwork
  | freedPool | freedWorker =>
    exact h.went h.closed hle (by simp) fun _ _ hwork => .inl (by simpa using hwork)
  | stopped =>
    exact h.went (closed_stop h.closed) (fun x => (allocated_stop s _ x).ge) (by simp)
      fun _ _ hwork => .inl hwork
  | @skipped again b next hmain =>
    rw [hmain] at hplace
    obtain ⟨hi, rfl, -⟩ := hplace
    have hb := h.closed _ (Nat.mod_lt (k + i) (by omega : 0 < n))
    refine h.went (closed_stop h.closed) (fun x => (allocated_stop s _ x).ge)
      (fun x work next' heq => ?_) fun _ _ hwork => .inl hwork
    exact (cleaning_behindStop hb again next x work next' heq).trans_eq (allocated_stop s _ x).symm
  | @waited again b next t hmain hwait =>
    rw [hmain] at hplace
    obtain ⟨hi, rfl, -⟩ := hplace
    have hb := h.closed _ (Nat.mod_lt (k + i) (by omega : 0 < n))
    rw [wait_eq hwait]
    exact h.went h.closed hle (cleaning_behindStop hb again next) fun _ _ hwork => .inl hwork
  | @freedWork b work next hmain =>
    rw [hmain] at hplace
    obtain ⟨hi, rfl, -⟩ := hplace
    have hb : (k + i) % n < n := Nat.mod_lt _ (by omega)
    have hlt := h.cleaning _ _ _ hmain
    refine h.went h.closed hle (fun x q next' heq => ?_) fun x q hq => ?_
    · simp only [MainPc.cleaning.injEq] at heq
      obtain ⟨rfl, hq, -⟩ := heq
      exact (h.closed _ hb).next work hlt q hq
    · rcases List.mem_append.1 hq with hq | hq
      · exact .inl hq
      · obtain ⟨rfl, rfl⟩ : x = (k + i) % n ∧ q = work := by simpa using hq
        exact .inr ⟨hb, hlt⟩
  | freedThread hmain hwait =>
    rw [wait_eq hwait]
    exact h.went h.closed hle (by simp) fun _ _ hwork => .inl (by simpa using hwork)

theorem Owning.other (h : s.Owning n) {action : ThreadPoolRun.Action F D}
    {pool : ThreadPoolRun F D} (hallowed : Allowed action)
    (hstep : s.pool.step action = some pool) : Owning { s with pool } n := by
  have hrun : (∀ x < n, (pool.run x).Closed) ∧
      ∀ x, (s.worker x).allocated ≤ (pool.run x).worker.allocated := by
    cases action with
    | take func data =>
      obtain ⟨-, hrun, -⟩ := ThreadPoolRun.step_take hstep
      exact ⟨fun x hx => (hrun x).symm ▸ h.closed x hx, fun x => by rw [hrun x]; rfl⟩
    | link j =>
      obtain ⟨p, -, -, hworker, hother⟩ := ThreadPoolRun.step_link hstep
      refine ⟨fun x hx => ?_, fun x => ?_⟩
      · by_cases hxp : x = p.worker
        · subst hxp
          exact (h.closed _ hx).step hworker
        · rw [hother x hxp]
          exact h.closed x hx
      · by_cases hxp : x = p.worker
        · rw [hxp, ← Option.some.inj hworker]
          exact (WorkerRun.allocated_push _ _ _).1
        · rw [hother x hxp]
          rfl
    | act b action =>
      obtain ⟨-, r, hr, rfl⟩ := ThreadPoolRun.step_act hstep
      refine ⟨fun x hx => ?_, fun x => ?_⟩
      · rw [ThreadPoolRun.run_setRun]
        split_ifs with hxb
        · exact (hxb ▸ h.closed x hx).step hr
        · exact h.closed x hx
      · rw [ThreadPoolRun.run_setRun]
        split_ifs with hxb
        · rw [hxb, WorkerRun.allocated_step hallowed hr]
          rfl
        · rfl
  exact h.went hrun.1 hrun.2
    (fun x work next hmain => Nat.lt_of_lt_of_le (h.cleaning x work next hmain) (hrun.2 x))
    fun _ _ hwork => .inl hwork

end PoolLife

end Highway
