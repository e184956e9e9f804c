import Highway.Thread.PoolMeasure

/-!
# The end of a thread pool is reached

Once `hiw_thread_pool_delete` is called, the main thread and the threads of the workers that are
stopped have a bounded number of steps left (`PoolLife.countSteps_le`).

The bound needs that the pushes are safe (`ThreadPoolRun.LinkSafe`): a queue that is not a chain may
never end.
-/

namespace Highway

open Lib

variable {F D : Type*}

namespace PoolLife

variable {s s' : PoolLife F D} {a : Action F D} {n k i b : ℕ}

/-- The invariant of a run with safe pushes. -/
structure Lasting (s : PoolLife F D) (n : ℕ) : Prop extends s.Sound n where
  balanced : s.pool.Balanced n
  owning : s.Owning n

theorem owning_start (workers : ℕ → HiwThreadPoolWorker F D) (links : ℕ → Option ℕ) (n : ℕ) :
    (start workers links n).Owning n where
  closed := fun b hb => by
    have hworker := HiwThreadPool.workers_new workers links hb
    refine ⟨?_, ?_, WorkerRun.forall_mem_held rfl, ?_, ?_⟩ <;>
      simp [start, ThreadPoolRun.start, ThreadPoolRun.run, PushRun.start, hworker,
        HiwThreadPoolWorker.new]
  cleaning := by simp [start]
  freed := by simp [start]

theorem lasting_start (workers : ℕ → HiwThreadPoolWorker F D) (links : ℕ → Option ℕ) (n : ℕ) :
    (start workers links n).Lasting n where
  toSound := ⟨orderly_start workers links n, fun _ _ hfault => by cases hfault⟩
  balanced := ThreadPoolRun.balanced_start workers links n
  owning := owning_start workers links n

theorem balanced_launch (h : s.pool.Balanced n) {created : Bool}
    (hpc : created = true → s.pool.pc b = .notStarted) :
    (s.launch b created).pool.Balanced n := by
  refine h.setRun (fun hb => ?_) rfl
  obtain ⟨ps, hinv⟩ := h.inv b hb
  cases created with
  | false =>
    exact ⟨ps, hinv.chain, hinv.last, hinv.pending_lt, hinv.free_lt, hinv.held_lt, hinv.held_notMem,
      hinv.queue, fun _ => .inl rfl⟩
  | true =>
    have hstep : (s.pool.run b).step .start = some _ := if_pos (hpc rfl)
    exact hinv.step (fun hpush => absurd hpush id) hstep

theorem balanced_stop (h : s.pool.Balanced n) : (s.stop b).pool.Balanced n := by
  refine h.setRun (fun hb => ?_) rfl
  obtain ⟨ps, hinv⟩ := h.inv b hb
  have hstep : (s.pool.run b).step .stop =
      some { s.pool.run b with worker := (s.pool.run b).worker.stop, stopCalled := true } := rfl
  exact hinv.step (fun hpush => absurd hpush id) hstep

theorem Orderly.pc_of_starting (h : s.Orderly n) (hmain : s.main = .starting (some b))
    (hstarted : s.started b = false) : s.pool.pc b = .notStarted := by
  obtain ⟨k, i, hwalk⟩ := h.walk
  have hplace := hwalk.place
  have hgone := hwalk.gone
  rw [hmain] at hplace
  obtain rfl : i = 0 := hplace
  by_contra hpc
  rcases h.threads.joined b hpc with hb | hb
  · rw [hstarted] at hb
    cases hb
  · have hover := h.threads.behind b hb
    rw [hgone, hmain] at hover
    simp [ringFrom, MainPc.waited] at hover

theorem Lasting.change (h : s.Lasting n) (hc : Change s s') : s'.pool.Balanced n := by
  cases hc with
  | restarted | refused => exact balanced_launch h.balanced (by simp)
  | created hmain hstarted =>
    exact balanced_launch h.balanced fun _ => h.toOrderly.pc_of_starting hmain hstarted
  | stopped | skipped => exact balanced_stop h.balanced
  | @waited _ _ _ t _ hwait | @freedThread _ _ t _ hwait =>
    rw [wait_eq hwait]
    exact h.balanced
  | _ => exact h.balanced

/-- **Every step keeps the invariant, a push if it is safe.** -/
theorem Lasting.step (h : s.Lasting n) (hsafe : s.LinkSafe a) (hstep : s.step a = some s') :
    s'.Lasting n := by
  refine ⟨h.toSound.step hstep, ?_, ?_⟩
  · rcases step_cases hstep with ⟨hgo, -⟩ | ⟨o, -, -, rfl⟩
    · rcases goOn_cases hgo with ⟨-, rfl⟩ | ⟨-, rfl⟩ | ⟨created, -, hc⟩ |
        ⟨action, pool, rfl, -, hpool, rfl⟩
      · exact h.balanced
      · exact h.balanced
      · exact h.change hc
      · exact h.balanced.step hsafe hpool
    · exact h.balanced
  · have hsame : ∀ b, (s.worker b).allocated ≤ (s.worker b).allocated := fun _ => Nat.le_refl _
    rcases step_cases hstep with ⟨hgo, -⟩ | ⟨o, -, -, rfl⟩
    · rcases goOn_cases hgo with ⟨-, rfl⟩ | ⟨-, rfl⟩ | ⟨created, -, hc⟩ |
        ⟨action, pool, -, hallowed, hpool, rfl⟩
      · exact h.owning.went h.owning.closed hsame (by simp) fun _ _ hwork => .inl hwork
      · exact h.owning.went h.owning.closed hsame (by simp) fun _ _ hwork => .inl hwork
      · obtain ⟨k, i, hwalk⟩ := h.walk
        exact h.owning.change hwalk hc
      · exact h.owning.other hallowed hpool
    · exact ⟨h.owning.closed, h.owning.cleaning, h.owning.freed⟩

/-! ### The main thread -/

theorem Walk.length_gone (h : s.Walk n k i) : s.gone.length = i := by
  rw [h.gone, ringFrom, List.length_map, List.length_range]

theorem rank_behindStop (s : PoolLife F D) (again : Bool) (b : ℕ) (next : Option ℕ) (n g : ℕ) :
    (s.behindStop again b next).rank n g + 1 ≤ (MainPc.joining again b next).rank n g := by
  cases again <;> simp [behindStop, MainPc.rank]

/-- **Every step of the main thread brings it nearer to its end, or frees work.** -/
theorem Walk.rank_change (h : s.Walk n k i) (hlinks : s.Links n)
    (hfound : ∀ o ∈ s.main.uses, o ∉ s.freed) (hdeleting : s.main.Deleting) (hc : Change s s') :
    s'.main.Deleting ∧
      (s'.main.rank n s'.gone.length < s.main.rank n s.gone.length ∨
        s'.main.rank n s'.gone.length = s.main.rank n s.gone.length ∧
          ∃ b work, s'.freed = s.freed ++ [.work b work]) := by
  obtain ⟨i', h'⟩ := h.change hlinks hfound hc
  have hplace := h.place
  have hplace' := h'.place
  have hlength' := h'.length_gone
  rw [h.length_gone, hlength']
  cases hc with
  | startedAll hmain | restarted hmain | created hmain | refused hmain =>
    rw [hmain] at hdeleting
    exact hdeleting.elim
  | freedPool hmain =>
    rw [hmain]
    exact ⟨trivial, .inl (by simp [MainPc.rank])⟩
  | came hmain =>
    obtain rfl : i' = i := hlength'.symm.trans h.length_gone
    rw [hmain]
    have hi := hplace'.1
    refine ⟨trivial, .inl ?_⟩
    simp only [MainPc.rank, Bool.false_eq_true, if_false]
    omega
  | @stopped again b next hmain =>
    obtain rfl : i' = i := hlength'.symm.trans h.length_gone
    rw [hmain]
    refine ⟨trivial, .inl ?_⟩
    cases again <;> simp [MainPc.rank]
  | @skipped again b next hmain =>
    obtain rfl : i' = i := hlength'.symm.trans h.length_gone
    rw [hmain]
    refine ⟨?_, .inl ?_⟩
    · cases again <;> trivial
    · have hstopping : (MainPc.joining again b next).rank n i' <
          (MainPc.stopping again b next).rank n i' := by
        cases again <;> simp [MainPc.rank]
      exact Nat.lt_trans (rank_behindStop s again b next n i') hstopping
  | @waited again b next t hmain hwait =>
    have hgone : t.gone = s.gone := by rw [wait_eq hwait]; rfl
    obtain rfl : i' = i := hlength'.symm.trans ((congrArg _ hgone).trans h.length_gone)
    rw [hmain]
    refine ⟨?_, .inl (rank_behindStop t again b next n i')⟩
    cases again <;> trivial
  | cleaned hmain =>
    obtain rfl : i' = i := hlength'.symm.trans h.length_gone
    rw [hmain]
    exact ⟨trivial, .inl (by simp [MainPc.rank])⟩
  | @freedWork b work next hmain =>
    obtain rfl : i' = i :=
      hlength'.symm.trans ((congrArg _ (gone_append_of_none rfl)).trans h.length_gone)
    rw [hmain]
    exact ⟨trivial, .inr ⟨rfl, b, work, rfl⟩⟩
  | @freedThread b next t hmain hwait =>
    have hgone : t.gone = s.gone := by rw [wait_eq hwait]; rfl
    obtain rfl : i' = i := hlength'.symm.trans
      ((congrArg _ ((gone_append_of_none rfl).trans hgone)).trans h.length_gone)
    rw [hmain]
    exact ⟨trivial, .inl (by simp [MainPc.rank])⟩
  | @freedWorker b next hmain =>
    obtain rfl : i' = i + 1 := by
      rw [← hlength', ← h.length_gone, PoolLife.gone, List.filterMap_append, List.length_append]
      rfl
    rw [hmain]
    exact ⟨trivial, .inl (by simp [MainPc.rank])⟩

theorem worker_of_change (hdeleting : s.main.Deleting) (hc : Change s s') (x : ℕ) :
    (s'.worker x).allocated = (s.worker x).allocated ∧
      (s'.pool.run x).rank ≤ (s.pool.run x).rank := by
  have hstop : ∀ b, ((s.stop b).pool.run x).rank ≤ (s.pool.run x).rank := by
    intro b
    show ((s.pool.setRun b _).run x).rank ≤ _
    rw [ThreadPoolRun.run_setRun]
    split_ifs with hxb
    · subst hxb
      exact WorkerRun.rank_stop _
    · exact Nat.le_refl _
  cases hc with
  | startedAll hmain | restarted hmain | created hmain | refused hmain =>
    rw [hmain] at hdeleting
    exact hdeleting.elim
  | @stopped _ b | @skipped _ b => exact ⟨allocated_stop s b x, hstop b⟩
  | @waited _ _ _ t _ hwait | @freedThread _ _ t _ hwait =>
    rw [wait_eq hwait]
    exact ⟨rfl, Nat.le_refl _⟩
  | _ => exact ⟨rfl, Nat.le_refl _⟩

/-! ### The measure of the whole pool -/

theorem rank_eq (hfault : s.fault = none) : s.rank n =
    s.main.rank n s.gone.length + ((s.nodes n).length - s.freed.countP HeapObject.isWork) +
      ∑ b ∈ Finset.range n, (s.pool.run b).rank := by
  simp [rank, hfault]

theorem length_nodes (s : PoolLife F D) (n : ℕ) :
    (s.nodes n).length = ∑ b ∈ Finset.range n, (s.worker b).allocated := by
  rw [nodes, List.length_flatMap]
  simp only [List.length_map, List.length_range]
  rfl

theorem sum_le_sum_add {f g : ℕ → ℕ} {p m : ℕ} (hother : ∀ x, x ≠ p → f x ≤ g x)
    (hp : f p ≤ g p + m) : ∑ x ∈ Finset.range n, f x ≤ ∑ x ∈ Finset.range n, g x + m := by
  have hle : ∀ x, f x ≤ g x + if x = p then m else 0 := by
    intro x
    split_ifs with hx
    · rw [hx]
      exact hp
    · exact hother x hx
  calc ∑ x ∈ Finset.range n, f x
      ≤ ∑ x ∈ Finset.range n, (g x + if x = p then m else 0) :=
        Finset.sum_le_sum fun x _ => hle x
    _ = ∑ x ∈ Finset.range n, g x + ∑ x ∈ Finset.range n, if x = p then m else 0 :=
        Finset.sum_add_distrib
    _ ≤ ∑ x ∈ Finset.range n, g x + m := by
        rw [Finset.sum_ite_eq']
        split_ifs <;> omega

theorem Lasting.countP_freed (h : s.Lasting n) :
    s.freed.countP HeapObject.isWork ≤ (s.nodes n).length := by
  obtain ⟨k, i, hwalk⟩ := h.walk
  rw [List.countP_eq_length_filter]
  refine (List.subperm_of_subset (hwalk.nodup.filter _) fun o ho => ?_).length_le
  obtain ⟨ho, hwork⟩ := List.mem_filter.1 ho
  cases o with
  | work b work => exact h.owning.freed b work ho
  | _ => cases hwork

theorem freed_of_change (hc : Change s s') : s.freed <+: s'.freed := by
  cases hc with
  | @waited _ _ _ t _ hwait => rw [wait_eq hwait]
  | @freedThread _ _ t _ hwait =>
    rw [wait_eq hwait]
    exact List.prefix_append _ _
  | freedPool | freedWork | freedWorker => exact List.prefix_append _ _
  | _ => exact List.prefix_refl _

theorem Lasting.rank_change (h : s.Lasting n) (h' : s'.Lasting n)
    (hfound : ∀ o ∈ s.main.uses, o ∉ s.freed) (hdeleting : s.main.Deleting)
    (hfault : s.fault = none) (hc : Change s s') (hfault' : s'.fault = none) :
    s'.main.Deleting ∧ s'.rank n < s.rank n := by
  obtain ⟨k, i, hwalk⟩ := h.walk
  obtain ⟨hdeleting', hmain⟩ := hwalk.rank_change h.links hfound hdeleting hc
  have hnodes : (s'.nodes n).length = (s.nodes n).length := by
    rw [length_nodes, length_nodes]
    exact Finset.sum_congr rfl fun x _ => (worker_of_change hdeleting hc x).1
  have hworkers : ∑ b ∈ Finset.range n, (s'.pool.run b).rank ≤
      ∑ b ∈ Finset.range n, (s.pool.run b).rank :=
    Finset.sum_le_sum fun x _ => (worker_of_change hdeleting hc x).2
  have hfreed := (freed_of_change hc).sublist.countP_le (p := HeapObject.isWork)
  refine ⟨hdeleting', ?_⟩
  rw [rank_eq hfault, rank_eq hfault', hnodes]
  rcases hmain with hlt | ⟨heq, b, work, happend⟩
  · omega
  · have hle := h'.countP_freed
    rw [hnodes] at hle
    have hcount : s'.freed.countP HeapObject.isWork = s.freed.countP HeapObject.isWork + 1 := by
      rw [happend, List.countP_append]
      rfl
    omega

/-- How many pushes have linked their work. -/
def returned (s : PoolLife F D) : ℕ := (s.pushes.filter Push.returned).length

/-- A step of a caller, or of the thread of a worker: a push adds to what is left, a thread that is
stopped takes from it. -/
theorem rank_other {action : ThreadPoolRun.Action F D} {pool : ThreadPoolRun F D}
    (hallocated : s.list.allocated = n) (hbalanced : s.pool.Balanced n) (hfault : s.fault = none)
    (hallowed : Allowed action) (hstep : s.pool.step action = some pool) :
    (if s.own (.pool action) then 1 else 0) + rank { s with pool } n + 4 * s.returned ≤
      s.rank n + 4 * returned { s with pool } := by
  rw [rank_eq hfault, rank_eq (s := { s with pool }) hfault, length_nodes, length_nodes]
  cases action with
  | take func data =>
    obtain ⟨-, hrun, -⟩ := ThreadPoolRun.step_take hstep
    have hworker : ∀ x, worker { s with pool } x = s.worker x := fun x =>
      congrArg WorkerRun.worker (hrun x)
    have hreturned : returned { s with pool } = s.returned := by
      obtain ⟨pushRun, hpush, rfl⟩ := Option.map_eq_some_iff.1 hstep
      obtain ⟨⟨w, list'⟩, -, rfl⟩ := Option.map_eq_some_iff.1 hpush
      simp [returned, pushes, List.filter_append]
    simp only [hrun, hworker, hreturned, own, Bool.false_eq_true, if_false]
    show 0 + (_ + _ + _) + _ ≤ _
    rw [Nat.zero_add]
    exact Nat.le_refl _
  | link j =>
    obtain ⟨p, hp, hpush, hworker, hother⟩ := ThreadPoolRun.step_link hstep
    have hreturned : returned { s with pool } = s.returned + 1 := by
      obtain ⟨q, hq, hret, heq⟩ := PushRun.step_link hpush
      obtain rfl : p = q := Option.some.inj (hp.symm.trans hq)
      have hpushes : pushes { s with pool } = s.pushes.set j { p with returned := true } := by
        show pool.pushRun.pushes = _
        rw [heq]
        rfl
      have hperm := ThreadPoolRun.filter_set_perm (q := Push.returned) hp (by simpa using hret)
        (x := { p with returned := true }) rfl
      rw [returned, hpushes]
      exact hperm.length_eq.trans List.length_append
    have hallocated' : ∑ x ∈ Finset.range n, (worker { s with pool } x).allocated ≤
        ∑ x ∈ Finset.range n, (s.worker x).allocated + 1 := by
      refine sum_le_sum_add (p := p.worker) (fun x hx => ?_) ?_
      · show (pool.run x).worker.allocated ≤ _
        rw [hother x hx]
        exact Nat.le_refl _
      · show (pool.run p.worker).worker.allocated ≤ _
        rw [← Option.some.inj hworker]
        exact (WorkerRun.allocated_push _ _ _).2
    have hrank : ∑ x ∈ Finset.range n, (pool.run x).rank ≤
        ∑ x ∈ Finset.range n, (s.pool.run x).rank + 3 := by
      refine sum_le_sum_add (p := p.worker) (fun x hx => (congrArg _ (hother x hx)).le) ?_
      exact WorkerRun.rank_push hworker
    rw [hreturned]
    simp only [own, Bool.false_eq_true, if_false]
    show 0 + (s.main.rank n s.gone.length + _ + _) + _ ≤ _
    omega
  | act b action =>
    have hb : b < n := by
      simp only [ThreadPoolRun.step] at hstep
      split_ifs at hstep with hguard
      exact hallocated ▸ hguard.1
    obtain ⟨-, r, hr, rfl⟩ := ThreadPoolRun.step_act hstep
    obtain ⟨ps, hinv⟩ := hbalanced.inv b hb
    obtain ⟨hle, hlt⟩ := hinv.rank_step hallowed hr
    have hsame : ∀ x, (worker { s with pool := s.pool.setRun b r } x).allocated =
        (s.worker x).allocated := by
      intro x
      show ((s.pool.setRun b r).run x).worker.allocated = _
      rw [ThreadPoolRun.run_setRun]
      split_ifs with hx
      · rw [hx, WorkerRun.allocated_step hallowed hr]
        rfl
      · rfl
    have hrank : ∀ x, ((s.pool.setRun b r).run x).rank ≤ (s.pool.run x).rank := by
      intro x
      rw [ThreadPoolRun.run_setRun]
      split_ifs with hx
      · rw [hx]
        exact hle
      · exact Nat.le_refl _
    have hsum : (if s.own (.pool (.act b action)) then 1 else 0) +
        ∑ x ∈ Finset.range n, ((s.pool.setRun b r).run x).rank ≤
          ∑ x ∈ Finset.range n, (s.pool.run x).rank := by
      split_ifs with hown
      · rw [Nat.add_comm]
        refine Finset.sum_lt_sum (fun x _ => hrank x) ⟨b, Finset.mem_range.2 hb, ?_⟩
        rw [ThreadPoolRun.run_setRun, if_pos rfl]
        have hrunning : (s.worker b).running = false := by simpa [own] using hown
        exact hlt hrunning
      · rw [Nat.zero_add]
        exact Finset.sum_le_sum fun x _ => hrank x
    simp only [hsame]
    show _ + (s.main.rank n s.gone.length + _ + _) + 4 * s.returned ≤ _ + 4 * s.returned
    omega

theorem returned_of_change (hc : Change s s') : s'.returned = s.returned := by
  rw [returned, pushes_of_change hc, returned]

/-- Where a step of the main thread or of a thread finds something freed, the main thread is not at
its end. -/
theorem Orderly.rank_pos (h : s.Orderly n) (hfault : s.fault = none) (hgo : s.goOn a = some s')
    {o : HeapObject} (ho : o ∈ s.uses a) (hfreed : o ∈ s.freed) (hown : s.own a = true) :
    0 < s.rank n := by
  obtain ⟨k, i, hwalk⟩ := h.walk
  have hexplains := h.explains hgo ho hfreed
  rw [rank_eq hfault]
  cases a with
  | start | delete => cases hown
  | main created =>
    rcases hwalk.found ho hfreed with ⟨b, work, next, -, hmain⟩ | ⟨-, b, -, hmain⟩ <;>
      simp [hmain, MainPc.rank]
  | pool action =>
    cases action with
    | take | link => cases hown
    | act b action => simp [Explains, Action.party] at hexplains

/-- **One step behind the start of `hiw_thread_pool_delete`.** -/
theorem Lasting.rank_step (h : s.Lasting n) (hdeleting : s.main.Deleting) (hsafe : s.LinkSafe a)
    (hstep : s.step a = some s') :
    s'.main.Deleting ∧
      (if s.own a then 1 else 0) + s'.rank n + 4 * s.returned ≤ s.rank n + 4 * s'.returned := by
  have h' := h.step hsafe hstep
  have hfault := fault_eq_none_of_step hstep
  have hidle : s.main ≠ .idle := by
    intro hmain
    rw [hmain] at hdeleting
    exact hdeleting
  rcases step_cases hstep with ⟨hgo, hfound⟩ | ⟨o, ho, hfreed, rfl⟩
  · have hfault' := (fault_of_goOn hgo).trans hfault
    rcases goOn_cases hgo with ⟨hmain, -⟩ | ⟨hmain, -⟩ | ⟨created, rfl, hc⟩ |
      ⟨action, pool, rfl, hallowed, hpool, rfl⟩
    · exact absurd hmain hidle
    · exact absurd hmain hidle
    · obtain ⟨hdeleting', hlt⟩ := h.rank_change h' hfound hdeleting hfault hc hfault'
      refine ⟨hdeleting', ?_⟩
      rw [returned_of_change hc, own, if_pos rfl]
      omega
    · exact ⟨hdeleting, rank_other h.allocated h.balanced hfault hallowed hpool⟩
  · obtain ⟨t, hgo⟩ := goOn_of_step hstep
    have hzero : rank { s with fault := some (a.party, o) } n = 0 := rfl
    refine ⟨hdeleting, ?_⟩
    show _ + _ + 4 * s.returned ≤ _ + 4 * s.returned
    rw [hzero]
    split_ifs with hown
    · have := h.toOrderly.rank_pos hfault hgo ho hfreed hown
      omega
    · omega

theorem sum_pushed (h : s.pool.Balanced n) :
    ∑ b ∈ Finset.range n, (s.pool.run b).pushed.length ≤ s.returned := by
  rcases Nat.eq_zero_or_pos n with rfl | hn
  · exact Nat.zero_le _
  · have hlength := (h.flatMap_linked hn).length_eq
    rw [List.length_flatMap, List.length_map] at hlength
    have hsum : ∑ b ∈ Finset.range n, (s.pool.run b).pushed.length =
        ∑ b ∈ Finset.range n, (s.pool.linked b).length :=
      Finset.sum_congr rfl fun b _ => (h.linked b).length_eq
    rw [hsum]
    exact hlength.le

theorem Walk.main_rank_le (h : s.Walk n k i) : s.main.rank n s.gone.length ≤ 8 * n + 1 := by
  have hplace := h.place
  rw [h.length_gone]
  cases hmain : s.main with
  | idle | starting | done => exact Nat.zero_le _
  | walking =>
    simp only [MainPc.rank]
    omega
  | stopping again b next | joining again b next =>
    rw [hmain] at hplace
    have hi := hplace.1
    simp only [MainPc.rank]
    split_ifs <;> omega
  | _ =>
    rw [hmain] at hplace
    have hi := hplace.1
    simp only [MainPc.rank]
    omega

theorem Lasting.rank_le (h : s.Lasting n) : s.rank n ≤ 10 * n + 1 + 4 * s.returned := by
  obtain ⟨k, i, hwalk⟩ := h.walk
  have hmain := hwalk.main_rank_le
  have hpushed := sum_pushed h.balanced
  have hnodes : (s.nodes n).length ≤ s.returned := by
    rw [length_nodes]
    refine (Finset.sum_le_sum fun b hb => ?_).trans hpushed
    exact (h.owning.closed b (Finset.mem_range.1 hb)).pushed
  have hworkers : ∑ b ∈ Finset.range n, (s.pool.run b).rank ≤ 3 * s.returned + 2 * n := by
    calc ∑ b ∈ Finset.range n, (s.pool.run b).rank
        ≤ ∑ b ∈ Finset.range n, (3 * (s.pool.run b).pushed.length + 2) :=
          Finset.sum_le_sum fun b _ => WorkerRun.rank_le _
      _ = 3 * ∑ b ∈ Finset.range n, (s.pool.run b).pushed.length + 2 * n := by
          rw [Finset.sum_add_distrib, ← Finset.mul_sum, Finset.sum_const, Finset.card_range,
            nsmul_eq_mul, Nat.cast_id, Nat.mul_comm n 2]
      _ ≤ 3 * s.returned + 2 * n := by omega
  unfold rank
  split_ifs
  · exact Nat.zero_le _
  · omega

variable {workers : ℕ → HiwThreadPoolWorker F D} {links : ℕ → Option ℕ}
  {actions actions' : List (Action F D)}

/-- **The end of a thread pool is bounded.**  Once `hiw_thread_pool_delete` has been called, the
main thread and the threads of the workers that are stopped make at most `10 * n + 1` steps and four
for each push, in whatever order they, the callers and the other threads go on. -/
theorem countSteps_le (hrun : runLabels step (start workers links n) actions = some s)
    (hsafe : AllSteps step LinkSafe (start workers links n) actions) (hdeleting : s.main.Deleting)
    (hrun' : runLabels step s actions' = some s') (hsafe' : AllSteps step LinkSafe s actions') :
    countSteps step own s actions' ≤ 10 * n + 1 + 4 * s'.pushes.length := by
  have h : s.Lasting n := hsafe.invariant (I := fun s => s.Lasting n)
    (fun _ _ _ hsafe h hstep => h.step hsafe hstep) (lasting_start workers links n) hrun
  have hcount : countSteps step own s actions' + s'.rank n + 4 * s.returned ≤
      s.rank n + 4 * s'.returned := by
    refine hsafe'.countSteps_add_le (I := fun s => s.Lasting n ∧ s.main.Deleting)
      (fun s => s.rank n) (fun s => 4 * s.returned) (fun u l u' hsafe hu hstep => ?_)
      ⟨h, hdeleting⟩ hrun'
    obtain ⟨hdeleting', hle⟩ := hu.1.rank_step hu.2 hsafe hstep
    exact ⟨⟨hu.1.step hsafe hstep, hdeleting'⟩, hle⟩
  have hle := h.rank_le
  have hreturned : s'.returned ≤ s'.pushes.length := List.length_filter_le _ _
  omega

/-- A push to the first of two workers, and the end of the pool behind it. -/
def pushAndDelete : List (Action ℕ ℕ) :=
  [.start, .main true, .main true, .main true, .pool (.take 1 1), .pool (.link 0), .delete]

/-- The main thread stops the second worker, and waits for it, while the first executes the work. -/
def firstSteps : List (Action ℕ ℕ) :=
  [.main true, .main true, .pool (.act 0 .enter), .pool (.act 0 .call), .pool (.act 1 .enter)]

theorem linkSafe_pushAndDelete : AllSteps step LinkSafe twoWorkersStart pushAndDelete := by
  refine (allSteps_of_testSteps
    (G := fun (s : PoolLife ℕ ℕ) a => decide (s.LinkSafe a)) ?_).mono
      fun _ _ h => of_decide_eq_true h
  decide

theorem countSteps_firstSteps : ∃ s s', runLabels step twoWorkersStart pushAndDelete = some s ∧
    runLabels step s firstSteps = some s' ∧
    countSteps step own s firstSteps ≤ 10 * 2 + 1 + 4 * s'.pushes.length := by
  refine ⟨_, _, rfl, rfl, countSteps_le (show runLabels step twoWorkersStart pushAndDelete = some _
    from rfl) linkSafe_pushAndDelete trivial rfl ?_⟩
  refine (allSteps_of_testSteps
    (G := fun (s : PoolLife ℕ ℕ) a => decide (s.LinkSafe a)) ?_).mono
      fun _ _ h => of_decide_eq_true h
  decide

end PoolLife

end Highway
