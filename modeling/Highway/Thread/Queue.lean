import Highway.Thread.Worker

/-!
# The queue of a worker

What a worker is for: the pairs executed, followed by the pair in execution and the pairs still
linked from `work_next`, are the pairs pushed (`WorkerRun.Faithful`).

The code keeps this up as long as every push meets `WorkerRun.PushSafe` in the state before it:
the node it reuses is in nobody's hands, and when work is pending, `work_last` is the last pending
node and `work_next` survives the reuse.  `WorkerRun.Inv` is the invariant of such runs, and
`WorkerRun.faithful_of_pushSafe` the result.
-/

namespace Highway

open Lib

variable {F D : Type*}

namespace HiwThreadPoolWorker

variable {w : HiwThreadPoolWorker F D} {p q : ℕ} {ps : List ℕ} {func : F} {data : D}

@[simp] theorem item_setNext (w : HiwThreadPoolWorker F D) (p q : ℕ) (n : Option ℕ) :
    (w.setNext p n).item q = w.item q := by
  by_cases h : q = p
  · subst h
    simp [item, setNext]
  · simp [item, setNext, h]

theorem next_setNext (w : HiwThreadPoolWorker F D) (p : ℕ) (n : Option ℕ) :
    (w.setNext p n).next = Function.update w.next p n := by
  funext q
  by_cases h : q = p
  · subst h
    simp [next, setNext]
  · simp [next, setNext, h]

/-- The worker with new work stored at `p`. -/
def store (w : HiwThreadPoolWorker F D) (p : ℕ) (func : F) (data : D) : HiwThreadPoolWorker F D :=
  { w with memory := Function.update w.memory p ⟨func, data, none⟩ }

theorem next_store (w : HiwThreadPoolWorker F D) (p : ℕ) (func : F) (data : D) :
    (w.store p func data).next = Function.update w.next p none := by
  funext q
  by_cases h : q = p
  · subst h
    simp [next, store]
  · simp [next, store, h]

theorem item_store (w : HiwThreadPoolWorker F D) (p : ℕ) (func : F) (data : D) :
    (w.store p func data).item = Function.update w.item p (func, data) := by
  funext q
  by_cases h : q = p
  · subst h
    simp [item, store]
  · simp [item, store, h]

theorem workNew_of_none (hf : w.workFree = none) : w.workNew func data =
    (w.allocated, { w.store w.allocated func data with allocated := w.allocated + 1 }) := by
  simp only [workNew, hf, store]

theorem workNew_of_some (hf : w.workFree = some p) : w.workNew func data =
    (p, { w.store p func data with workNext := w.next p }) := by
  simp only [workNew, hf, store, next]

theorem workLast_workNew (w : HiwThreadPoolWorker F D) (func : F) (data : D) :
    (w.workNew func data).2.workLast = w.workLast := by
  cases hf : w.workFree with
  | none => rw [workNew_of_none hf]; rfl
  | some p => rw [workNew_of_some hf]; rfl

theorem push_of_none {w' : HiwThreadPoolWorker F D} (hnew : w.workNew func data = (p, w'))
    (hl : w'.workLast = none) :
    w.push func data = { w' with workNext := some p, workLast := some p } := by
  simp only [push, hnew, hl]

/-- Another push links the new node to `work_last`. -/
theorem push_of_some {w' : HiwThreadPoolWorker F D} {l : ℕ} (hnew : w.workNew func data = (p, w'))
    (hl : w'.workLast = some l) : w.push func data = w'.setNext l (some p) := by
  simp only [push, hnew, hl]

theorem workDone_of_none (hf : w.workFree = none) :
    w.workDone p = { w with workFree := some p } := by
  simp only [workDone, hf]

theorem workDone_of_some {f : ℕ} (hf : w.workFree = some f) :
    w.workDone p = { w.setNext p (some f) with workFree := some p } := by
  simp only [workDone, hf]

theorem stop_eq (w : HiwThreadPoolWorker F D) :
    w.stop = { w with running := w.stop.running } := by
  unfold stop
  split_ifs <;> rfl

theorem popWork_eq (h : Chain w.next w.workNext ps) :
    (ps = [] ∧ w.popWork = (none, w)) ∨
    (∃ p, ps = [p] ∧ w.popWork = (some p, { w with workNext := none, workLast := none })) ∨
    (∃ p q qs, ps = p :: q :: qs ∧ w.popWork = (some p, { w with workNext := some q }) ∧
      Chain w.next (some q) (q :: qs)) := by
  rcases ps with _ | ⟨p, _ | ⟨q, qs⟩⟩
  · refine .inl ⟨rfl, ?_⟩
    rw [popWork, h.start_eq]
    rfl
  · have hlast : Chain w.next w.workNext ([] ++ [p]) := h
    have hnext : (w.memory p).next = none := hlast.next_last
    refine .inr (.inl ⟨p, rfl, ?_⟩)
    simp only [popWork, h.start_eq, List.head?_cons, hnext]
  · have hstart := h.start_eq
    rw [hstart, List.head?_cons] at h
    obtain ⟨_, heq, hq⟩ := Chain.cons_iff.1 h
    obtain rfl := (List.cons.inj heq).2
    have hnext : (w.memory p).next = some q := hq.start_eq
    refine .inr (.inr ⟨p, q, qs, rfl, ?_, hnext ▸ hq⟩)
    simp only [popWork, hstart, List.head?_cons, hnext]

end HiwThreadPoolWorker

namespace WorkerRun

/-- **Nothing is lost, repeated or reordered.**  The pairs executed, the pair in execution and the
pairs still reachable from `work_next` are the pairs pushed. -/
def Faithful (s : WorkerRun F D) : Prop :=
  ∃ ps, Chain s.worker.next s.worker.workNext ps ∧
    s.executed ++ s.current ++ ps.map s.worker.item = s.pushed

/-- The state is one in which a push does no harm: the node it reuses is neither pending nor in the
hands of the thread, and if work is pending, then the node is linked to the front of the queue and
`work_last` is the end of the queue. -/
def PushSafe (s : WorkerRun F D) : Prop :=
  (∀ p ∈ s.worker.workFree, p ∉ s.worker.pending ∧ s.held ≠ some p ∧
    (s.worker.pending ≠ [] → s.worker.next p = s.worker.workNext)) ∧
  (s.worker.pending ≠ [] → s.worker.pending.getLast? = s.worker.workLast)

instance (s : WorkerRun F D) : Decidable s.PushSafe := inferInstanceAs (Decidable (_ ∧ _))

/-- The invariant of runs with safe pushes; `ps` is the pending work. -/
structure Inv (s : WorkerRun F D) (ps : List ℕ) : Prop where
  chain : Chain s.worker.next s.worker.workNext ps
  last : s.worker.workLast = none ↔ ps = []
  pending_lt : ∀ p ∈ ps, p < s.worker.allocated
  free_lt : ∀ p ∈ s.worker.workFree, p < s.worker.allocated
  held_lt : ∀ p ∈ s.held, p < s.worker.allocated
  held_notMem : ∀ p ∈ s.held, p ∉ ps
  queue : s.executed ++ s.current ++ ps.map s.worker.item = s.pushed
  running : s.pc ≠ .notStarted → s.worker.running = true ∨ s.stopCalled = true

variable {s s' : WorkerRun F D} {ps : List ℕ} {func : F} {data : D}

theorem inv_init (memory : ℕ → HiwThreadPoolWork F D) (running : Bool) :
    Inv (init memory running) [] where
  chain := .nil
  last := iff_of_true rfl rfl
  pending_lt := fun _ hp => by cases hp
  free_lt := fun _ hp => by cases hp
  held_lt := fun _ hp => by cases hp
  held_notMem := fun _ hp => by cases hp
  queue := rfl
  running h := absurd rfl h

theorem forall_mem_held {Q : ℕ → Prop} (h : s.held = none) : ∀ p ∈ s.held, Q p := by
  intro p hp
  rw [h] at hp
  cases hp

theorem Inv.pending_eq (h : Inv s ps) : s.worker.pending = ps :=
  h.chain.follow_eq (h.chain.length_le h.pending_lt)

/-- The node that a safe push takes: outside of the queue and of the thread's hands, with the pair
stored, and with the front of a non-empty queue as it was. -/
theorem Inv.workNew_spec (h : Inv s ps) (hs : PushSafe s) (func : F) (data : D) :
    ∃ p w, s.worker.workNew func data = (p, w) ∧ p ∉ ps ∧ p ∉ s.held ∧ p < w.allocated ∧
      s.worker.allocated ≤ w.allocated ∧ (ps ≠ [] → w.workNext = s.worker.workNext) ∧
      w = { s.worker.store p func data with allocated := w.allocated, workNext := w.workNext } := by
  have hfree := hs.1
  rw [h.pending_eq] at hfree
  cases hwf : s.worker.workFree with
  | none =>
    refine ⟨_, _, HiwThreadPoolWorker.workNew_of_none hwf, fun hmem => ?_, fun hmem => ?_,
      Nat.lt_succ_self _, Nat.le_succ _, fun _ => rfl, rfl⟩
    · exact absurd (h.pending_lt _ hmem) (lt_irrefl _)
    · exact absurd (h.held_lt _ hmem) (lt_irrefl _)
  | some p =>
    obtain ⟨hp, hheld, hnext⟩ := hfree p hwf
    exact ⟨p, _, HiwThreadPoolWorker.workNew_of_some hwf, hp, hheld, h.free_lt p hwf,
      Nat.le_refl _, hnext, rfl⟩

/-- What a safe push does: it stores the pair at a node outside of the queue, and links this node
to the end. -/
theorem Inv.push_spec (h : Inv s ps) (hs : PushSafe s) (func : F) (data : D) :
    ∃ p, p ∉ ps ∧ p ∉ s.held ∧ p < (s.worker.push func data).allocated ∧
      s.worker.allocated ≤ (s.worker.push func data).allocated ∧
      (s.worker.push func data).workFree = s.worker.workFree ∧
      (s.worker.push func data).running = s.worker.running ∧
      (s.worker.push func data).item = Function.update s.worker.item p (func, data) ∧
      (ps = [] → (s.worker.push func data).workNext = some p ∧
        (s.worker.push func data).workLast = some p ∧
        (s.worker.push func data).next = Function.update s.worker.next p none) ∧
      ∀ qs l, ps = qs ++ [l] → (s.worker.push func data).workNext = s.worker.workNext ∧
        (s.worker.push func data).workLast = some l ∧
        (s.worker.push func data).next =
          Function.update (Function.update s.worker.next p none) l (some p) := by
  have hlast := hs.2
  rw [h.pending_eq] at hlast
  obtain ⟨p, w, hnew, hp, hheld, hlt, hle, hnext, hw⟩ := h.workNew_spec hs func data
  have hwl : w.workLast = s.worker.workLast := by rw [hw]; rfl
  have hwn : w.next = (s.worker.store p func data).next := by rw [hw]; rfl
  have hwi : w.item = (s.worker.store p func data).item := by rw [hw]; rfl
  refine ⟨p, hp, hheld, ?_⟩
  -- an empty queue begins anew; otherwise `work_last` gets a link, and is where the chain ends
  cases hl : s.worker.workLast with
  | none =>
    rw [HiwThreadPoolWorker.push_of_none hnew (hwl.trans hl)]
    have hps := h.last.1 hl
    refine ⟨hlt, hle, by rw [hw]; rfl, by rw [hw]; rfl, ?_, ?_, ?_⟩
    · exact hwi.trans (s.worker.item_store p func data)
    · intro _
      exact ⟨rfl, rfl, hwn.trans (s.worker.next_store p func data)⟩
    · intro qs l hqs
      simp [hps] at hqs
  | some last =>
    rw [HiwThreadPoolWorker.push_of_some hnew (hwl.trans hl)]
    have hne : ps ≠ [] := by
      intro hps
      simp [h.last.2 hps] at hl
    refine ⟨hlt, hle, by rw [hw]; rfl, by rw [hw]; rfl, ?_, fun hps => absurd hps hne, ?_⟩
    · funext q
      rw [HiwThreadPoolWorker.item_setNext, hwi, HiwThreadPoolWorker.item_store]
    · intro qs l hqs
      have hll : l = last := by
        have := hlast hne
        rw [hqs, List.getLast?_concat, hl] at this
        exact Option.some.inj this
      refine ⟨hnext hne, ?_, ?_⟩
      · change w.workLast = some l
        rw [hwl, hl, hll]
      · rw [HiwThreadPoolWorker.next_setNext, hwn, HiwThreadPoolWorker.next_store, hll]

theorem Inv.push (h : Inv s ps) (hs : PushSafe s)
    (hstep : s.step (.push func data) = some s') : ∃ ps', Inv s' ps' := by
  obtain ⟨p, hp, hheld, hlt, hle, hfree, hrun, hitem, hempty, hconcat⟩ := h.push_spec hs func data
  obtain rfl := Option.some.inj hstep
  set w := s.worker.push func data with hw
  -- the items already there are not touched
  have hitems : ps.map w.item = ps.map s.worker.item := by
    refine List.map_congr_left fun q hq => ?_
    rw [hitem, Function.update_of_ne (ne_of_mem_of_not_mem hq hp)]
  have hcurrent : current { s with worker := w, pushed := s.pushed ++ [(func, data)] } =
      s.current := by
    unfold current held at *
    cases hpc : s.pc with
    | popped q =>
      have hne : q ≠ p := by
        rintro rfl
        simp [hpc] at hheld
      simp only [hitem, Function.update_of_ne hne]
    | _ => rfl
  have hp' : w.item p = (func, data) := by rw [hitem, Function.update_self]
  have hchain : Chain w.next w.workNext (ps ++ [p]) ∧ w.workLast ≠ none := by
    rcases List.eq_nil_or_concat' ps with rfl | ⟨qs, l, rfl⟩
    · obtain ⟨hn, hl, hnext⟩ := hempty rfl
      rw [hn, hl, hnext]
      refine ⟨.cons ?_, by simp⟩
      rw [Function.update_self]
      exact .nil
    · obtain ⟨hn, hl, hnext⟩ := hconcat qs l rfl
      rw [hn, hl, hnext]
      exact ⟨h.chain.concat hp, by simp⟩
  refine ⟨ps ++ [p], hchain.1, ?_, ?_, ?_, ?_, ?_, ?_, ?_⟩
  · exact iff_of_false hchain.2 (by simp)
  · intro q hq
    rcases List.mem_append.1 hq with hq | hq
    · exact Nat.lt_of_lt_of_le (h.pending_lt q hq) hle
    · rwa [List.mem_singleton.1 hq]
  · intro q hq
    exact Nat.lt_of_lt_of_le (h.free_lt q (hfree ▸ hq)) hle
  · intro q hq
    exact Nat.lt_of_lt_of_le (h.held_lt q hq) hle
  · intro q hq hmem
    rcases List.mem_append.1 hmem with hmem | hmem
    · exact h.held_notMem q hq hmem
    · obtain rfl := List.mem_singleton.1 hmem
      exact hheld hq
  · rw [hcurrent, List.map_append, hitems, ← List.append_assoc, h.queue, List.map_singleton, hp']
  · intro hpc
    exact hrun ▸ h.running hpc

theorem pop_eq (h : Chain s.worker.next s.worker.workNext ps) :
    (ps = [] ∧ s.pop = { s with pc := .top }) ∨
    (∃ p, ps = [p] ∧ s.pop =
      { s with
        worker := { s.worker with workNext := none, workLast := none }
        pc := .popped p }) ∨
    (∃ p q qs, ps = p :: q :: qs ∧
      s.pop = { s with worker := { s.worker with workNext := some q }, pc := .popped p } ∧
      Chain s.worker.next (some q) (q :: qs)) := by
  rcases HiwThreadPoolWorker.popWork_eq h with ⟨rfl, he⟩ | ⟨p, rfl, he⟩ | ⟨p, q, qs, rfl, he, hq⟩
  · exact .inl ⟨rfl, by simp only [pop, he]⟩
  · exact .inr (.inl ⟨p, rfl, by simp only [pop, he]⟩)
  · exact .inr (.inr ⟨p, q, qs, rfl, by simp only [pop, he], hq⟩)

theorem Inv.pop (h : Inv s ps) (hcurrent : s.current = []) (hpc : s.pc ≠ .notStarted) :
    ∃ ps', Inv s.pop ps' := by
  have hqueue := h.queue
  rw [hcurrent, List.append_nil] at hqueue
  have hrun := h.running hpc
  rcases pop_eq h.chain with ⟨rfl, hpop⟩ | ⟨p, rfl, hpop⟩ | ⟨p, q, qs, rfl, hpop, hchain⟩
  · rw [hpop]
    refine ⟨[], h.chain, h.last, h.pending_lt, h.free_lt, forall_mem_held rfl,
      forall_mem_held rfl, ?_, fun _ => hrun⟩
    simpa [current] using hqueue
  · -- the last pending node was taken
    rw [hpop]
    refine ⟨[], .nil, iff_of_true rfl rfl, List.forall_mem_nil _, h.free_lt, ?_,
      fun _ _ => List.not_mem_nil, ?_, fun _ => hrun⟩
    · rintro _ ⟨rfl⟩
      exact h.pending_lt p (by simp)
    · have hqueue' : s.executed ++ [s.worker.item p] ++ [] = s.pushed := by simpa using hqueue
      exact hqueue'
  · obtain ⟨hp, -⟩ := List.nodup_cons.1 h.chain.nodup
    have hlast : s.worker.workLast ≠ none := fun hl => absurd (h.last.1 hl) (by simp)
    rw [hpop]
    refine ⟨q :: qs, hchain, iff_of_false hlast (by simp),
      fun a ha => h.pending_lt a (List.mem_cons_of_mem _ ha), h.free_lt, ?_, ?_, ?_, fun _ => hrun⟩
    · rintro _ ⟨rfl⟩
      exact h.pending_lt p (by simp)
    · rintro _ ⟨rfl⟩
      exact hp
    · have hqueue' : s.executed ++ [s.worker.item p] ++ (q :: qs).map s.worker.item = s.pushed := by
        simpa using hqueue
      exact hqueue'

theorem Inv.done (h : Inv s ps) {p : ℕ} (hpc : s.pc = .called p) :
    ∃ ps', Inv { s with worker := s.worker.workDone p, pc := .top } ps' := by
  have hheld : p ∈ s.held := by
    rw [held, hpc]
    rfl
  -- the node is not pending, so its link may be overwritten
  have hp := h.held_notMem p hheld
  have hlt := h.held_lt p hheld
  have hqueue := h.queue
  have hcurrent : s.current = [] := by rw [current, hpc]
  rw [hcurrent, List.append_nil] at hqueue
  have hrun := h.running (by simp [hpc])
  cases hf : s.worker.workFree with
  | none =>
    rw [HiwThreadPoolWorker.workDone_of_none hf]
    refine ⟨ps, h.chain, h.last, h.pending_lt, ?_, forall_mem_held rfl, forall_mem_held rfl, ?_,
      fun _ => hrun⟩
    · rintro _ ⟨rfl⟩
      exact hlt
    · have hqueue' : s.executed ++ [] ++ ps.map s.worker.item = s.pushed := by simpa using hqueue
      exact hqueue'
  | some free =>
    have hitem : ps.map (s.worker.setNext p (some free)).item = ps.map s.worker.item :=
      List.map_congr_left fun q _ => HiwThreadPoolWorker.item_setNext _ _ _ _
    rw [HiwThreadPoolWorker.workDone_of_some hf]
    refine ⟨ps, ?_, h.last, h.pending_lt, ?_, forall_mem_held rfl, forall_mem_held rfl, ?_,
      fun _ => hrun⟩
    · have hchain := h.chain.update hp (some free)
      rw [← HiwThreadPoolWorker.next_setNext] at hchain
      exact hchain
    · rintro _ ⟨rfl⟩
      exact hlt
    · change s.executed ++ [] ++ ps.map (s.worker.setNext p (some free)).item = s.pushed
      rw [hitem, List.append_nil]
      exact hqueue

/-! ### One step -/

theorem step_start (hstep : s.step .start = some s') : s.pc = .notStarted ∧
    s' = { s with worker := { s.worker with running := true }, pc := .top } := by
  simp only [WorkerRun.step] at hstep
  split_ifs at hstep with hpc
  exact ⟨hpc, (Option.some.inj hstep).symm⟩

/-- At the top of the loop the thread waits, returns or takes work. -/
theorem step_enter (hstep : s.step .enter = some s') : s.pc = .top ∧
    (s' = { s with pc := .waiting } ∧ s.worker.workNext = none ∧ s.worker.running ∨
      s' = { s with pc := .returned } ∧ ¬s.worker.running ∧ s.worker.workNext = none ∨
      s' = s.pop) := by
  simp only [WorkerRun.step] at hstep
  split_ifs at hstep with hpc hwait hret
  · exact ⟨hpc, .inl ⟨(Option.some.inj hstep).symm, hwait⟩⟩
  · exact ⟨hpc, .inr (.inl ⟨(Option.some.inj hstep).symm, hret⟩)⟩
  · exact ⟨hpc, .inr (.inr (Option.some.inj hstep).symm)⟩

theorem step_wake (hstep : s.step .wake = some s') : s.pc = .waiting ∧ s' = s.pop := by
  simp only [WorkerRun.step] at hstep
  split_ifs at hstep with hpc
  exact ⟨hpc, (Option.some.inj hstep).symm⟩

theorem step_call (hstep : s.step .call = some s') : ∃ p, s.pc = .popped p ∧
    s' = { s with pc := .called p, executed := s.executed ++ [s.worker.item p] } := by
  simp only [WorkerRun.step] at hstep
  split at hstep
  · rename_i p hpc
    exact ⟨p, hpc, (Option.some.inj hstep).symm⟩
  · cases hstep

theorem step_done (hstep : s.step .done = some s') : ∃ p, s.pc = .called p ∧
    s' = { s with worker := s.worker.workDone p, pc := .top } := by
  simp only [WorkerRun.step] at hstep
  split at hstep
  · rename_i p hpc
    exact ⟨p, hpc, (Option.some.inj hstep).symm⟩
  · cases hstep

/-- **Every step keeps the invariant, a push if it is safe.** -/
theorem Inv.step (h : Inv s ps) {a : Action F D} (hs : a.IsPush → PushSafe s)
    (hstep : s.step a = some s') : ∃ ps', Inv s' ps' := by
  cases a with
  | push func data => exact h.push (hs trivial) hstep
  | start =>
    obtain ⟨hpc, rfl⟩ := step_start hstep
    have hqueue := h.queue
    rw [current, hpc] at hqueue
    exact ⟨ps, h.chain, h.last, h.pending_lt, h.free_lt, forall_mem_held rfl, forall_mem_held rfl,
      hqueue, fun _ => .inl rfl⟩
  | stop =>
    obtain rfl := Option.some.inj hstep
    rw [HiwThreadPoolWorker.stop_eq]
    exact ⟨ps, h.chain, h.last, h.pending_lt, h.free_lt, h.held_lt, h.held_notMem, h.queue,
      fun _ => .inr rfl⟩
  | enter =>
    obtain ⟨hpc, hs'⟩ := step_enter hstep
    have hcurrent : s.current = [] := by rw [current, hpc]
    have hrun := h.running (by simp [hpc])
    have hqueue := h.queue
    rw [hcurrent] at hqueue
    rcases hs' with ⟨rfl, -⟩ | ⟨rfl, -⟩ | rfl
    · exact ⟨ps, h.chain, h.last, h.pending_lt, h.free_lt, forall_mem_held rfl, forall_mem_held rfl,
        hqueue, fun _ => hrun⟩
    · exact ⟨ps, h.chain, h.last, h.pending_lt, h.free_lt, forall_mem_held rfl, forall_mem_held rfl,
        hqueue, fun _ => hrun⟩
    · exact h.pop hcurrent (by simp [hpc])
  | wake =>
    obtain ⟨hpc, rfl⟩ := step_wake hstep
    exact h.pop (by rw [current, hpc]) (by simp [hpc])
  -- the pair goes from the current to the executed ones
  | call =>
    obtain ⟨p, hpc, rfl⟩ := step_call hstep
    have hqueue := h.queue
    have hheld : s.held = some p := by rw [held, hpc]
    have hrun := h.running (by simp [hpc])
    rw [current, hpc] at hqueue
    refine ⟨ps, h.chain, h.last, h.pending_lt, h.free_lt, ?_, ?_, ?_, fun _ => hrun⟩
    · rintro _ ⟨rfl⟩
      exact h.held_lt p hheld
    · rintro _ ⟨rfl⟩
      exact h.held_notMem p hheld
    · simpa [current] using hqueue
  | done =>
    obtain ⟨p, hpc, rfl⟩ := step_done hstep
    exact h.done hpc

theorem Inv.faithful (h : Inv s ps) : Faithful s := ⟨ps, h.chain, h.queue⟩

/-- When the thread has returned and nothing was pushed after the stop, nothing is pending. -/
def Drained (s : WorkerRun F D) : Prop :=
  s.pc = .returned → s.stopCalled = true ∧ s.worker.workNext = none

theorem pc_pop_ne_returned (s : WorkerRun F D) : s.pop.pc ≠ .returned := by
  unfold WorkerRun.pop
  split <;> simp

theorem Drained.step (h : Inv s ps) (hd : Drained s) {a : Action F D}
    (hstop : a.IsPush → s.stopCalled = false) (hstep : s.step a = some s') : Drained s' := by
  intro hret
  cases a with
  | push func data =>
    obtain rfl := Option.some.inj hstep
    -- the thread has returned, so the worker was stopped before this push
    have hfalse := hstop trivial
    rw [(hd hret).1] at hfalse
    cases hfalse
  | start =>
    obtain ⟨-, rfl⟩ := step_start hstep
    cases hret
  | stop =>
    obtain rfl := Option.some.inj hstep
    have hw : s.worker.stop.workNext = s.worker.workNext := by
      rw [HiwThreadPoolWorker.stop_eq]
    exact ⟨rfl, hw.trans (hd hret).2⟩
  | enter =>
    obtain ⟨hpc, ⟨rfl, -⟩ | ⟨rfl, hrunning, hnone⟩ | rfl⟩ := step_enter hstep
    · cases hret
    · rcases h.running (by simp [hpc]) with hrun | hcalled
      · exact absurd hrun hrunning
      · exact ⟨hcalled, hnone⟩
    · exact absurd hret s.pc_pop_ne_returned
  | wake =>
    obtain ⟨-, rfl⟩ := step_wake hstep
    exact absurd hret s.pc_pop_ne_returned
  | call =>
    obtain ⟨p, -, rfl⟩ := step_call hstep
    cases hret
  | done =>
    obtain ⟨p, -, rfl⟩ := step_done hstep
    cases hret

/-- **The queue of a worker, on runs with safe pushes.**  In every state reached nothing is lost,
repeated or reordered.  If moreover nothing is pushed after the worker was stopped, then every pair
has been executed once, in the order of the pushes, when the thread returns. -/
theorem faithful_of_pushSafe {memory : ℕ → HiwThreadPoolWork F D} {running : Bool}
    {actions : List (Action F D)} (hrun : runLabels step (init memory running) actions = some s)
    (hsafe : AllSteps step (fun u a => a.IsPush → PushSafe u) (init memory running) actions) :
    Faithful s ∧
      (AllSteps step (fun u a => a.IsPush → u.stopCalled = false) (init memory running) actions →
        s.pc = .returned → s.executed = s.pushed) := by
  constructor
  · obtain ⟨ps, h⟩ := hsafe.invariant (I := fun u => ∃ ps, Inv u ps)
      (fun u a u' hs h hstep => h.choose_spec.step hs hstep) ⟨[], inv_init memory running⟩ hrun
    exact h.faithful
  · intro hstop hret
    have hinit : ∃ ps, Inv (init memory running) ps ∧ Drained (init memory running) :=
      ⟨[], inv_init memory running, fun hpc => by cases hpc⟩
    obtain ⟨ps, h, hd⟩ := (hsafe.and hstop).invariant (I := fun u => ∃ ps, Inv u ps ∧ Drained u)
      (fun u a u' hs h hstep => by
        obtain ⟨ps, h, hd⟩ := h
        obtain ⟨ps', h'⟩ := h.step hs.1 hstep
        exact ⟨ps', h', hd.step h hs.2 hstep⟩) hinit hrun
    -- nothing is pending and nothing is in execution, so what was pushed was executed
    have hps : ps = [] := by
      have hchain := h.chain
      rw [(hd hret).2] at hchain
      exact Chain.nil_iff.1 hchain
    have hqueue := h.queue
    rw [current, hret, hps] at hqueue
    simpa using hqueue

/-- Work pushed one by one, each pair once the one before has been executed: the second push
reuses the node of the first. -/
theorem faithful_one_by_one :
    ∃ s, runLabels step (init (fun _ => ⟨0, 0, none⟩) false) [.push 1 1, .start, .enter, .call,
        .done, .enter, .push 2 2, .wake, .call, .done, .stop, .enter] = some s ∧
      Faithful s ∧ s.executed = s.pushed := by
  set actions : List (Action ℕ ℕ) := [.push 1 1, .start, .enter, .call, .done, .enter, .push 2 2,
    .wake, .call, .done, .stop, .enter] with hactions
  set s₀ : WorkerRun ℕ ℕ := init (fun _ => ⟨0, 0, none⟩) false with hs₀
  have hsafe : AllSteps step (fun u a => a.IsPush → PushSafe u) s₀ actions := by
    refine (allSteps_of_testSteps (G := fun (u : WorkerRun ℕ ℕ) (a : Action ℕ ℕ) =>
      decide (a.IsPush → PushSafe u)) ?_).mono fun _ _ h => of_decide_eq_true h
    decide
  have hstop : AllSteps step (fun u a => a.IsPush → u.stopCalled = false) s₀ actions := by
    refine (allSteps_of_testSteps (G := fun (u : WorkerRun ℕ ℕ) (a : Action ℕ ℕ) =>
      decide (a.IsPush → u.stopCalled = false)) ?_).mono fun _ _ h => of_decide_eq_true h
    decide
  obtain ⟨s, hrun⟩ := Option.isSome_iff_exists.1
    (show (runLabels step s₀ actions).isSome = true by decide)
  have hpc : (runLabels step s₀ actions).map pc = some .returned := by decide
  rw [hrun] at hpc
  obtain ⟨hf, hall⟩ := faithful_of_pushSafe hrun hsafe
  exact ⟨s, hrun, hf, hall hstop (Option.some.inj hpc)⟩

/-- The third of three pushes in a row loses the pair pushed second. -/
theorem not_faithful :
    ¬ ∀ (memory : ℕ → HiwThreadPoolWork ℕ ℕ) (running : Bool) (actions : List (Action ℕ ℕ))
      (s : WorkerRun ℕ ℕ), runLabels step (init memory running) actions = some s → Faithful s := by
  intro hall
  set actions : List (Action ℕ ℕ) := [.push 1 1, .push 2 2, .push 3 3]
  set s₀ : WorkerRun ℕ ℕ := init (fun _ => ⟨0, 0, none⟩) false with hs₀
  have hlinks : (runLabels step s₀ actions).map (fun s =>
      (s.worker.workNext, s.worker.next 0, s.worker.next 2)) = some (some 0, some 2, none) := by
    decide
  have hpairs : (runLabels step s₀ actions).map (fun s =>
      (s.executed ++ s.current ++ [0, 2].map s.worker.item, s.pushed)) =
        some ([(1, 1), (3, 3)], [(1, 1), (2, 2), (3, 3)]) := by
    decide
  obtain ⟨s, hrun⟩ := Option.isSome_iff_exists.1
    (show (runLabels step s₀ actions).isSome = true by decide)
  rw [hrun] at hlinks hpairs
  simp only [Option.map_some, Option.some.injEq, Prod.mk.injEq] at hlinks hpairs
  obtain ⟨hstart, h0, h2⟩ := hlinks
  obtain ⟨ps, hchain, hqueue⟩ := hall _ _ _ s hrun
  have hps : Chain s.worker.next s.worker.workNext [0, 2] := by
    rw [hstart]
    refine .cons ?_
    rw [h0]
    refine .cons ?_
    rw [h2]
    exact .nil
  rw [hchain.unique hps, hpairs.1, hpairs.2] at hqueue
  exact absurd hqueue (by decide)

end WorkerRun

end Highway
