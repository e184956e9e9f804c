import Highway.Thread.Queue
import Mathlib.Data.List.Range

/-!
# Who owns a node

Every node that a worker has allocated should be in one place: pending, free, or in the hands of
the thread (`WorkerRun.Owned`).  Then `hiw_thread_pool_worker_delete` frees every node once.

A push breaks this when work is pending, because it links a node behind `work_last` and does not
move `work_last`; and when there is free work, because it makes pending a node that stays in
`work_free`.  So the nodes are owned in all states of a run exactly if every push finds both lists
empty (`WorkerRun.owned_iff`).
-/

namespace Highway

open Lib

variable {F D : Type*}

/-- `hiw_thread_pool_worker_delete` : the work it frees.  (More iterations than there are nodes
free one twice.) -/
def HiwThreadPoolWorker.delete (w : HiwThreadPoolWorker F D) : Option (List ℕ) :=
  freeNodes w.next w.allocated w.workFree []

namespace WorkerRun

/-- Every node is in exactly one place, and `work_last` is the last pending node. -/
def Owned (s : WorkerRun F D) : Prop :=
  ∃ ps fs, Chain s.worker.next s.worker.workNext ps ∧ Chain s.worker.next s.worker.workFree fs ∧
    s.worker.workLast = ps.getLast? ∧
    (ps ++ fs ++ s.held.toList).Perm (List.range s.worker.allocated)

/-- When the worker has no work left, deleting it frees every node once. -/
def CleansUp (s : WorkerRun F D) : Prop :=
  s.worker.workNext = none → s.held = none →
    ∃ freed, s.worker.delete = some freed ∧ freed.Perm (List.range s.worker.allocated)

/-- The state is one in which a push leaves every node owned: both lists are empty. -/
def PushClean (s : WorkerRun F D) : Prop := s.worker.workNext = none ∧ s.worker.workFree = none

instance (s : WorkerRun F D) : Decidable s.PushClean := inferInstanceAs (Decidable (_ ∧ _))

variable {s s' : WorkerRun F D} {ps fs : List ℕ} {func : F} {data : D}

theorem Owned.cleansUp (h : s.Owned) : s.CleansUp := by
  obtain ⟨ps, fs, hps, hfs, -, hperm⟩ := h
  intro hnext hheld
  rw [hnext] at hps
  rw [Chain.nil_iff.1 hps, hheld, List.nil_append, Option.toList_none, List.append_nil] at hperm
  have hlen : fs.length = s.worker.allocated := by simpa using hperm.length_eq
  have hfree : s.worker.delete = some fs := hfs.freeNodes_eq (fun _ _ => List.not_mem_nil) hlen.le
  exact ⟨fs, hfree, hperm⟩

/-- A push that leaves every node owned has found both lists empty. -/
theorem Owned.pushClean (h : s.Owned) (hstep : s.step (.push func data) = some s')
    (h' : s'.Owned) : s.PushClean := by
  obtain ⟨ps, fs, hps, hfs, hlast, hperm⟩ := h
  obtain rfl := Option.some.inj hstep
  obtain ⟨ps', fs', hps', hfs', hlast', hperm'⟩ := h'
  simp only at hps' hfs' hlast' hperm'
  cases hl : s.worker.workLast with
  | some l =>
    -- the new node is linked behind `work_last`, which is then not the last one
    obtain ⟨p, w, hnew⟩ : ∃ p w, s.worker.workNew func data = (p, w) := ⟨_, _, rfl⟩
    have hwl : w.workLast = some l := by
      rw [← hl, ← HiwThreadPoolWorker.workLast_workNew s.worker func data, hnew]
    rw [HiwThreadPoolWorker.push_of_some hnew hwl] at hps' hlast'
    have hlast'' : ps'.getLast? = some l := hlast'.symm.trans hwl
    obtain ⟨qs, rfl⟩ := List.getLast?_eq_some_iff.1 hlast''
    have hnone := hps'.next_last
    rw [HiwThreadPoolWorker.next_setNext, Function.update_self] at hnone
    cases hnone
  | none =>
    have hnil : ps = [] := List.getLast?_eq_none_iff.1 (hlast.symm.trans hl)
    refine ⟨by rw [hps.start_eq, hnil]; rfl, ?_⟩
    by_contra hne
    -- the node taken becomes pending and stays free
    obtain ⟨f, hf⟩ := Option.ne_none_iff_exists'.1 hne
    have hnew : s.worker.workNew func data = (f, _) := HiwThreadPoolWorker.workNew_of_some hf
    rw [HiwThreadPoolWorker.push_of_none hnew hl] at hps' hfs' hperm'
    have hpending : f ∈ ps' := List.mem_of_mem_head? hps'.start_eq.symm
    have hfree : f ∈ fs' := List.mem_of_mem_head? (hfs'.start_eq.symm.trans hf)
    have hnodup := hperm'.nodup_iff.2 List.nodup_range
    exact List.disjoint_of_nodup_append (List.nodup_append.1 hnodup).1 hpending hfree

/-- The nodes of a worker whose pushes find both lists empty; at most one is pending. -/
structure Neat (s : WorkerRun F D) (ps fs : List ℕ) : Prop where
  pending : Chain s.worker.next s.worker.workNext ps
  free : Chain s.worker.next s.worker.workFree fs
  last : s.worker.workLast = ps.getLast?
  all : (ps ++ fs ++ s.held.toList).Perm (List.range s.worker.allocated)
  short : ps.length ≤ 1
  held : ∀ p ∈ s.held, s.worker.next p = none

theorem Neat.owned (h : Neat s ps fs) : s.Owned := ⟨ps, fs, h.pending, h.free, h.last, h.all⟩

theorem neat_init (memory : ℕ → HiwThreadPoolWork F D) (running : Bool) :
    Neat (init memory running) [] [] where
  pending := .nil
  free := .nil
  last := rfl
  all := .nil
  short := Nat.zero_le _
  held := forall_mem_held rfl

theorem Neat.push (h : Neat s ps fs) (hc : s.PushClean)
    (hstep : s.step (.push func data) = some s') : ∃ ps' fs', Neat s' ps' fs' := by
  obtain ⟨hnext, hfree⟩ := hc
  obtain rfl := Option.some.inj hstep
  -- with both lists empty, all nodes there are in the hands of the thread
  obtain rfl : ps = [] := Chain.nil_iff.1 (hnext ▸ h.pending)
  obtain rfl : fs = [] := Chain.nil_iff.1 (hfree ▸ h.free)
  have hnew : s.worker.workNew func data = (_, _) := HiwThreadPoolWorker.workNew_of_none hfree
  rw [HiwThreadPoolWorker.push_of_none hnew h.last]
  set n := s.worker.allocated with hn
  have hlinks := HiwThreadPoolWorker.next_store s.worker n func data
  have hall : s.held.toList.Perm (List.range n) := h.all
  refine ⟨[n], [], .cons ?_, ?_, rfl, ?_, Nat.le_refl _, fun p hp => ?_⟩
  · show Chain (s.worker.store n func data).next ((s.worker.store n func data).next n) []
    rw [hlinks, Function.update_self]
    exact .nil
  · show Chain (s.worker.store n func data).next s.worker.workFree []
    rw [hfree]
    exact .nil
  · show ([n] ++ [] ++ s.held.toList).Perm (List.range (n + 1))
    rw [List.range_succ, List.append_nil]
    exact List.perm_append_comm.trans (hall.append_right [n])
  · have hp' : p ∈ s.held.toList := Option.mem_toList.2 hp
    have hlt : p < n := List.mem_range.1 (hall.subset hp')
    show (s.worker.store n func data).next p = none
    rw [hlinks, Function.update_of_ne hlt.ne]
    exact h.held p hp

theorem Neat.pop (h : Neat s ps fs) (hheld : s.held = none) : ∃ ps' fs', Neat s.pop ps' fs' := by
  have hall := h.all
  rw [hheld] at hall
  rcases pop_eq h.pending with ⟨rfl, hpop⟩ | ⟨p, rfl, hpop⟩ | ⟨p, q, qs, rfl, -, -⟩
  · rw [hpop]
    exact ⟨[], fs, h.pending, h.free, h.last, hall, h.short, forall_mem_held rfl⟩
  · have hp : s.worker.next p = none := Chain.next_last (show Chain _ _ ([] ++ [p]) from h.pending)
    rw [hpop]
    refine ⟨[], fs, .nil, h.free, rfl, ?_, Nat.zero_le _, ?_⟩
    · show (fs ++ [p]).Perm (List.range s.worker.allocated)
      rw [Option.toList_none, List.append_nil] at hall
      exact List.perm_append_comm.trans hall
    · rintro _ ⟨rfl⟩
      exact hp
  · exact absurd h.short (by simp)

theorem Neat.done (h : Neat s ps fs) {p : ℕ} (hpc : s.pc = .called p) :
    ∃ ps' fs', Neat { s with worker := s.worker.workDone p, pc := .top } ps' fs' := by
  have hheld : s.held = some p := by rw [WorkerRun.held, hpc]
  have hall := h.all
  rw [hheld, Option.toList_some] at hall
  have hnodup := hall.nodup_iff.2 List.nodup_range
  have hp : p ∉ ps ++ fs := fun hmem =>
    List.disjoint_of_nodup_append hnodup hmem (List.mem_singleton.2 rfl)
  obtain ⟨hpps, hpfs⟩ := not_or.1 (List.mem_append.not.1 hp)
  have hall' : (ps ++ p :: fs ++ []).Perm (List.range s.worker.allocated) := by
    rw [List.append_nil]
    exact (List.perm_middle.trans (List.perm_append_singleton p (ps ++ fs)).symm).trans hall
  cases hf : s.worker.workFree with
  | none =>
    -- the node was the last pending one, so its link is still `NULL`
    obtain rfl : fs = [] := Chain.nil_iff.1 (hf ▸ h.free)
    rw [HiwThreadPoolWorker.workDone_of_none hf]
    refine ⟨ps, [p], h.pending, .cons ?_, h.last, hall', h.short, forall_mem_held rfl⟩
    show Chain s.worker.next (s.worker.next p) []
    rw [h.held p hheld]
    exact .nil
  | some f =>
    have hlinks := HiwThreadPoolWorker.next_setNext s.worker p (some f)
    rw [HiwThreadPoolWorker.workDone_of_some hf]
    refine ⟨ps, p :: fs, ?_, ?_, h.last, hall', h.short, forall_mem_held rfl⟩
    · show Chain (s.worker.setNext p (some f)).next s.worker.workNext ps
      rw [hlinks]
      exact h.pending.update hpps (some f)
    · show Chain (s.worker.setNext p (some f)).next (some p) (p :: fs)
      rw [hlinks, ← hf]
      exact h.free.cons_update hpfs

/-- **Every step keeps the nodes neat, a push if it finds both lists empty.** -/
theorem Neat.step (h : Neat s ps fs) {a : Action F D} (hc : a.IsPush → s.PushClean)
    (hstep : s.step a = some s') : ∃ ps' fs', Neat s' ps' fs' := by
  cases a with
  | push func data => exact h.push (hc trivial) hstep
  | start =>
    obtain ⟨hpc, rfl⟩ := step_start hstep
    have hall := h.all
    rw [WorkerRun.held, hpc] at hall
    exact ⟨ps, fs, h.pending, h.free, h.last, hall, h.short, forall_mem_held rfl⟩
  | stop =>
    obtain rfl := Option.some.inj hstep
    rw [HiwThreadPoolWorker.stop_eq]
    exact ⟨ps, fs, h.pending, h.free, h.last, h.all, h.short, h.held⟩
  -- waiting, returning and taking work all start with empty hands
  | enter =>
    obtain ⟨hpc, hs'⟩ := step_enter hstep
    have hheld : s.held = none := by rw [WorkerRun.held, hpc]
    have hall := h.all
    rw [hheld] at hall
    rcases hs' with ⟨rfl, -⟩ | ⟨rfl, -⟩ | rfl
    · exact ⟨ps, fs, h.pending, h.free, h.last, hall, h.short, forall_mem_held rfl⟩
    · exact ⟨ps, fs, h.pending, h.free, h.last, hall, h.short, forall_mem_held rfl⟩
    · exact h.pop hheld
  | wake =>
    obtain ⟨hpc, rfl⟩ := step_wake hstep
    exact h.pop (by rw [WorkerRun.held, hpc])
  | call =>
    obtain ⟨p, hpc, rfl⟩ := step_call hstep
    have hheld : s.held = some p := by rw [WorkerRun.held, hpc]
    have hall := h.all
    rw [hheld] at hall
    exact ⟨ps, fs, h.pending, h.free, h.last, hall, h.short, fun q hq => h.held q (hheld.trans hq)⟩
  | done =>
    obtain ⟨p, hpc, rfl⟩ := step_done hstep
    exact h.done hpc

theorem pushClean_of_owned {actions : List (Action F D)}
    (h : ∀ t, Passes step s actions t → t.Owned) :
    AllSteps step (fun u a => a.IsPush → PushClean u) s actions := by
  induction actions generalizing s with
  | nil => trivial
  | cons a actions ih =>
    refine ⟨fun ha => ?_, fun u hu => ih fun t ht => h t (ht.cons hu)⟩
    cases a with
    | push func data =>
      have hstep : s.step (.push func data) = some _ := rfl
      exact (h s (.refl s _)).pushClean hstep (h _ (Passes.cons hstep (.refl _ _)))
    | _ => exact ha.elim

/-- **When every node is owned.**  In all states of a run every node is in exactly one place, and
deleting the worker when it is out of work frees every node once, exactly if every push of the run
finds neither pending nor free work. -/
theorem owned_iff (memory : ℕ → HiwThreadPoolWork F D) (running : Bool)
    (actions : List (Action F D)) :
    (∀ t, Passes step (init memory running) actions t → t.Owned ∧ t.CleansUp) ↔
      AllSteps step (fun u a => a.IsPush → PushClean u) (init memory running) actions := by
  constructor
  · exact fun h => pushClean_of_owned fun t ht => (h t ht).1
  · intro hclean t ht
    obtain ⟨ps, fs, hneat⟩ := hclean.invariant_passes (I := fun u => ∃ ps fs, Neat u ps fs)
      (fun u a u' hc h hstep => by
        obtain ⟨ps, fs, h⟩ := h
        exact h.step hc hstep) ⟨[], [], neat_init memory running⟩ ht
    exact ⟨hneat.owned, hneat.owned.cleansUp⟩

/-- After two pushes in a row `work_last` is not the last pending node. -/
theorem not_owned : ¬∀ actions t,
    Passes step (init (fun _ => ⟨(), (), none⟩) false) actions t →
      Owned (F := Unit) (D := Unit) t ∧ t.CleansUp := by
  intro hall
  have hrun := hall [.push () (), .push () ()] _ (Passes.of_run rfl)
  obtain ⟨ps, fs, hps, -, hlast, -⟩ := hrun.1
  obtain rfl : ps = [0, 1] := by
    refine hps.unique (.cons (.cons ?_))
    exact .nil
  cases hlast

end WorkerRun

end Highway
