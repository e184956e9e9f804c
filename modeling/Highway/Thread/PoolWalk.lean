import Highway.Thread.PoolLife

/-!
# The way around the workers

`hiw_thread_pool_delete` goes from worker to worker along `next`, and frees each of them.  In every
run of `PoolLife` what is freed fits the place where the main thread is on its way
(`PoolLife.Walk`).  A push makes a ring of the workers, so that the main thread comes back to the
worker that it has freed first.
-/

namespace Highway

open Lib

variable {F D : Type*}

/-- The first workers of the ring from the worker `k` on. -/
def ringFrom (n k i : ℕ) : List ℕ := (List.range i).map fun j => (k + j) % n

theorem ringFrom_succ (n k i : ℕ) : ringFrom n k (i + 1) = ringFrom n k i ++ [(k + i) % n] := by
  simp [ringFrom, List.range_succ]

theorem not_mem_ringFrom {n k i : ℕ} (hi : i < n) : (k + i) % n ∉ ringFrom n k i := by
  simp only [ringFrom, List.mem_map, List.mem_range, not_exists, not_and]
  intro j hj heq
  have hmod : j ≡ i [MOD n] := Nat.ModEq.add_left_cancel' k heq
  have hji := hmod.eq_of_lt_of_lt (by omega) hi
  omega

/-- Once around the ring are all workers. -/
theorem mem_ringFrom {n k b : ℕ} (hb : b < n) : b ∈ ringFrom n k n := by
  have hk : k % n < n := Nat.mod_lt k (by omega)
  refine List.mem_map.2 ⟨(b + (n - k % n)) % n, List.mem_range.2 (Nat.mod_lt _ (by omega)), ?_⟩
  have hsum : k % n + (b + (n - k % n)) = b + n := by omega
  rw [Nat.add_mod_mod, ← Nat.mod_add_mod, hsum, Nat.add_mod_right, Nat.mod_eq_of_lt hb]

theorem lt_of_mem_ringFrom {n k i b : ℕ} (hi : i ≤ n) (hb : b ∈ ringFrom n k i) : b < n := by
  obtain ⟨j, hj, rfl⟩ := List.mem_map.1 hb
  have hj' := List.mem_range.1 hj
  exact Nat.mod_lt _ (by omega)

namespace PoolLife

variable {s s' t : PoolLife F D} {n k i b : ℕ}

/-- The worker that has been freed. -/
def HeapObject.worker? : HeapObject → Option ℕ
  | .worker a => some a
  | _ => none

/-- The workers that have been freed, in order. -/
def gone (s : PoolLife F D) : List ℕ := s.freed.filterMap HeapObject.worker?

theorem worker_mem_freed : .worker b ∈ s.freed ↔ b ∈ s.gone := by
  rw [gone, List.mem_filterMap]
  constructor
  · exact fun h => ⟨_, h, rfl⟩
  · rintro ⟨o, ho, heq⟩
    cases o <;> simp only [HeapObject.worker?, reduceCtorEq, Option.some.injEq] at heq
    exact heq ▸ ho

/-- The worker whose thread has been waited for. -/
def MainPc.waited : MainPc → Option ℕ
  | .stopping again b _ | .joining again b _ => if again then some b else none
  | .cleaning b _ _ | .deletingThread b _ | .freeingWorker b _ => some b
  | _ => none

/-- The worker whose work is freed. -/
def MainPc.cleaned : MainPc → Option ℕ
  | .cleaning b _ _ | .deletingThread b _ | .freeingWorker b _ => some b
  | _ => none

/-- The worker whose thread is freed. -/
def MainPc.threadless : MainPc → Option ℕ
  | .freeingWorker b _ => some b
  | _ => none

/-! ### The way around the workers -/

/-- The workers stand in a line until something is pushed, and then in a ring. -/
def Links (s : PoolLife F D) (n : ℕ) : Prop :=
  (s.pushes = [] ∧ HiwThreadPool.Line s.list n) ∨
    (s.pushes ≠ [] ∧ HiwThreadPool.Ring s.list n s.pushes.length)

/-- The pointer that the main thread comes to behind `i` workers. -/
def Target (s : PoolLife F D) (n k i : ℕ) : Option ℕ → Prop
  | none => i = n ∧ s.pushes = []
  | some b => b = (k + i) % n ∧ i ≤ n ∧ (i = n → s.pushes ≠ [])

/-- The place of the main thread behind `i` workers. -/
def Place (s : PoolLife F D) (n k i : ℕ) : MainPc → Prop
  | .idle | .starting _ => i = 0
  | .walking worker => s.Target n k i worker
  | .stopping _ b next | .joining _ b next | .cleaning b _ next | .deletingThread b next
  | .freeingWorker b next => i < n ∧ b = (k + i) % n ∧ s.Target n k (i + 1) next
  | .done => i = n ∧ s.pushes = []

/-- The main thread is behind `i` workers, and has freed what it should. -/
structure Walk (s : PoolLife F D) (n k i : ℕ) : Prop where
  le : k ≤ s.pushes.length
  gone : s.gone = ringFrom n k i
  place : s.Place n k i s.main
  pool : .pool ∈ s.freed ↔ s.main = .done
  thread : ∀ b, .thread b ∈ s.freed ↔ b ∈ s.gone ∨ s.main.threadless = some b
  work : ∀ b p, .work b p ∈ s.freed → b ∈ s.gone ∨ s.main.cleaned = some b
  nodup : s.freed.Nodup

theorem Target.congr {worker : Option ℕ} (h : s.Target n k i worker)
    (hpushes : t.pushes.length = s.pushes.length) : t.Target n k i worker := by
  have hnil : t.pushes = [] ↔ s.pushes = [] := by
    rw [← List.length_eq_zero_iff, ← List.length_eq_zero_iff, hpushes]
  cases worker with
  | none => exact ⟨h.1, hnil.2 h.2⟩
  | some b => exact ⟨h.1, h.2.1, fun hi => fun heq => h.2.2 hi (hnil.1 heq)⟩

theorem Place.congr {main : MainPc} (h : s.Place n k i main)
    (hpushes : t.pushes.length = s.pushes.length) : t.Place n k i main := by
  cases main with
  | idle | starting => exact h
  | walking => exact Target.congr h hpushes
  | done => exact ⟨h.1, List.length_eq_zero_iff.1 (by rw [hpushes, h.2]; rfl)⟩
  | _ => exact ⟨h.1, h.2.1, h.2.2.congr hpushes⟩

theorem Links.target_first (h : s.Links n) :
    s.Target n s.pushes.length 0 s.list.workerFirst := by
  rcases h with ⟨hnil, hline⟩ | ⟨hne, hring⟩
  · rw [hline.first, hnil]
    split_ifs with hn
    · exact ⟨hn.symm, hnil⟩
    · exact ⟨(Nat.zero_mod n).symm, Nat.zero_le n, fun h0 => absurd h0.symm hn⟩
  · rw [hring.first]
    exact ⟨rfl, Nat.zero_le n, fun _ => hne⟩

theorem Links.target_next (h : s.Links n) (hk : k ≤ s.pushes.length) (hi : i < n) :
    s.Target n k (i + 1) (s.list.next ((k + i) % n)) := by
  have hlt : (k + i) % n < n := Nat.mod_lt _ (by omega)
  rcases h with ⟨hnil, hline⟩ | ⟨hne, hring⟩
  · obtain rfl : k = 0 := by simpa [hnil] using hk
    rw [Nat.zero_add, Nat.mod_eq_of_lt hi, hline.next i hi]
    split_ifs with hn
    · exact ⟨hn, hnil⟩
    · refine ⟨?_, hi, fun heq => absurd heq hn⟩
      rw [Nat.zero_add, Nat.mod_eq_of_lt (by omega)]
  · rw [hring.next _ hlt]
    exact ⟨by rw [Nat.mod_add_mod, Nat.add_assoc], hi, fun _ => hne⟩

/-- The main thread goes on without freeing anything, or somebody else does. -/
theorem Walk.moved (h : s.Walk n k i) (hpushes : t.pushes.length = s.pushes.length)
    (hfreed : t.freed = s.freed) (hplace : t.Place n k i t.main)
    (hdone : t.main = .done ↔ s.main = .done) (hthread : t.main.threadless = s.main.threadless)
    (hwork : ∀ b, s.main.cleaned = some b → t.main.cleaned = some b) : t.Walk n k i where
  le := hpushes ▸ h.le
  gone := by
    rw [PoolLife.gone, hfreed]
    exact h.gone
  place := hplace
  pool := by rw [hfreed, h.pool, hdone]
  thread := fun b => by
    rw [hfreed, h.thread, PoolLife.gone, PoolLife.gone, hfreed, hthread]
  work := fun b p hp => by
    rw [hfreed] at hp
    refine (h.work b p hp).imp (fun hgone => ?_) (hwork b)
    rw [PoolLife.gone, hfreed]
    exact hgone
  nodup := hfreed ▸ h.nodup

/-- The main thread frees an object that is not a worker. -/
theorem Walk.freed {o : HeapObject} {main : MainPc} (h : s.Walk n k i)
    (hpushes : t.pushes.length = s.pushes.length) (hfreed : t.freed = s.freed ++ [o])
    (hmain : t.main = main) (hplace : t.Place n k i main) (ho : o ∉ s.freed)
    (hworker : o.worker? = none) (hpool : main = .done ↔ s.main = .done ∨ o = .pool)
    (hthread : ∀ b, main.threadless = some b ↔ s.main.threadless = some b ∨ o = .thread b)
    (hwork : ∀ b, (s.main.cleaned = some b ∨ ∃ p, o = .work b p) → main.cleaned = some b) :
    t.Walk n k i := by
  have hgone : t.gone = s.gone := by
    rw [PoolLife.gone, hfreed, List.filterMap_append, List.filterMap_cons_none hworker,
      List.filterMap_nil, List.append_nil, PoolLife.gone]
  refine ⟨hpushes ▸ h.le, hgone.trans h.gone, by rwa [hmain], ?_, fun b => ?_, fun b p hp => ?_, ?_⟩
  · rw [hfreed, List.mem_append, List.mem_singleton, h.pool, hmain, hpool, eq_comm (a := o)]
  · rw [hfreed, List.mem_append, List.mem_singleton, h.thread, hgone, hmain, hthread,
      eq_comm (a := o), or_assoc]
  · rw [hfreed, List.mem_append, List.mem_singleton] at hp
    rw [hgone, hmain]
    rcases hp with hp | hp
    · exact (h.work b p hp).imp_right fun hc => hwork b (.inl hc)
    · exact .inr (hwork b (.inr ⟨p, hp.symm⟩))
  · rw [hfreed]
    exact h.nodup.append (List.nodup_singleton o) (by simpa using ho)

theorem Place.behindStop {again : Bool} {next : Option ℕ}
    (h : i < n ∧ b = (k + i) % n ∧ s.Target n k (i + 1) next) :
    s.Place n k i (t.behindStop again b next) := by
  cases again <;> exact h

theorem threadless_behindStop (s : PoolLife F D) (again : Bool) (b : ℕ) (next : Option ℕ) :
    (s.behindStop again b next).threadless = none := by
  cases again <;> rfl

theorem behindStop_ne_done (s : PoolLife F D) (again : Bool) (b : ℕ) (next : Option ℕ) :
    s.behindStop again b next ≠ .done := by
  cases again <;> simp [PoolLife.behindStop]

theorem wait_eq (h : s.wait b = some t) :
    t = { s with started := t.started, joined := t.joined } := by
  rcases wait_cases h with ⟨-, rfl⟩ | ⟨-, -, rfl⟩ <;> rfl

/-- **Every step of the main thread keeps to its way.** -/
theorem Walk.change (h : s.Walk n k i) (hlinks : s.Links n)
    (hfound : ∀ o ∈ s.main.uses, o ∉ s.freed) (hc : Change s s') : ∃ i', s'.Walk n k i' := by
  have hplace := h.place
  cases hc with
  | startedAll hmain =>
    rw [hmain] at hplace
    exact ⟨i, h.moved rfl rfl hplace (by simp [hmain]) (by simp [hmain, MainPc.threadless])
      (by simp [hmain, MainPc.cleaned])⟩
  | restarted hmain | created hmain | refused hmain =>
    rw [hmain] at hplace
    exact ⟨i, h.moved rfl rfl hplace (by simp [hmain]) (by simp [hmain, MainPc.threadless])
      (by simp [hmain, MainPc.cleaned])⟩
  | freedPool hmain =>
    rw [hmain] at hplace hfound
    exact ⟨i, h.freed rfl rfl rfl hplace (hfound _ List.mem_cons_self) rfl (by simp)
      (by simp [hmain, MainPc.threadless]) (by simp [hmain, MainPc.cleaned])⟩
  | @came b hmain =>
    rw [hmain] at hplace
    obtain ⟨rfl, hle, hne⟩ := hplace
    -- the main thread has not come back to the first worker, since it is freed
    rw [hmain] at hfound
    have hnot : (k + i) % n ∉ s.gone := fun hgone =>
      hfound _ List.mem_cons_self (worker_mem_freed.2 hgone)
    rw [h.gone] at hnot
    have hi : i < n := by
      refine Nat.lt_of_le_of_ne hle fun heq => ?_
      rcases hlinks with ⟨hnil, -⟩ | ⟨-, hring⟩
      · exact hne heq hnil
      · obtain ⟨last, hlt, -⟩ := hring.last
        subst heq
        exact hnot (mem_ringFrom (Nat.mod_lt _ (by omega)))
    exact ⟨i, h.moved rfl rfl ⟨hi, rfl, (hlinks.target_next h.le hi)⟩ (by simp [hmain])
      (by simp [hmain, MainPc.threadless]) (by simp [hmain, MainPc.cleaned])⟩
  | stopped hmain hrunning =>
    rw [hmain] at hplace
    exact ⟨i, h.moved rfl rfl hplace (by simp [hmain]) (by simp [hmain, MainPc.threadless])
      (by simp [hmain, MainPc.cleaned])⟩
  | @skipped again b next hmain hrunning =>
    rw [hmain] at hplace
    exact ⟨i, h.moved rfl rfl (Place.behindStop hplace)
      (iff_of_false (behindStop_ne_done _ _ _ _) (by simp [hmain]))
      ((threadless_behindStop ..).trans (by rw [hmain]; rfl)) (by simp [hmain, MainPc.cleaned])⟩
  | @waited again b next t hmain hwait =>
    rw [hmain] at hplace
    rw [wait_eq hwait]
    exact ⟨i, h.moved rfl rfl (Place.behindStop hplace)
      (iff_of_false (behindStop_ne_done _ _ _ _) (by simp [hmain]))
      ((threadless_behindStop ..).trans (by rw [hmain]; rfl)) (by simp [hmain, MainPc.cleaned])⟩
  | cleaned hmain =>
    rw [hmain] at hplace
    exact ⟨i, h.moved rfl rfl hplace (by simp [hmain]) (by simp [hmain, MainPc.threadless])
      (by simp [hmain, MainPc.cleaned])⟩
  | freedWork hmain =>
    rw [hmain] at hplace hfound
    exact ⟨i, h.freed rfl rfl rfl hplace (hfound _ List.mem_cons_self) rfl (by simp [hmain])
      (by simp [hmain, MainPc.threadless]) (by simp [hmain, MainPc.cleaned])⟩
  | @freedThread b next t hmain hwait =>
    rw [hmain] at hplace hfound
    rw [wait_eq hwait]
    exact ⟨i, h.freed rfl rfl rfl hplace (hfound (.thread b) (by simp [MainPc.uses])) rfl
      (by simp [hmain]) (by simp [hmain, MainPc.threadless]) (by simp [hmain, MainPc.cleaned])⟩
  | @freedWorker b next hmain =>
    rw [hmain] at hplace hfound
    obtain ⟨hi, rfl, htarget⟩ := hplace
    have hgone : PoolLife.gone
        { s with main := .walking next, freed := s.freed ++ [.worker ((k + i) % n)] } =
          ringFrom n k (i + 1) := by
      rw [ringFrom_succ, ← h.gone, PoolLife.gone, List.filterMap_append]
      rfl
    refine ⟨i + 1, h.le, hgone, htarget, ?_, fun b => ?_, fun b p hp => ?_, ?_⟩
    · simp [h.pool, hmain]
    · rw [hgone, ringFrom_succ, ← h.gone, List.mem_append, List.mem_singleton, List.mem_append,
        List.mem_singleton, h.thread, hmain]
      simp [MainPc.threadless, eq_comm (a := b)]
    · rw [hgone, ringFrom_succ, ← h.gone, List.mem_append, List.mem_singleton]
      have hp' : .work b p ∈ s.freed := by simpa using hp
      have hwork := h.work b p hp'
      rw [hmain] at hwork
      exact .inl (hwork.imp_right fun hb => (Option.some.inj hb).symm)
    · exact h.nodup.append (List.nodup_singleton _)
        (by simpa using hfound _ List.mem_cons_self)

theorem Links.of_workers {workers : ℕ → HiwThreadPoolWorker F D} (h : s.Links n)
    (hpushes : t.pushes.length = s.pushes.length) (hlist : t.list = { s.list with workers }) :
    t.Links n := by
  have hnil : t.pushes = [] ↔ s.pushes = [] := by
    rw [← List.length_eq_zero_iff, ← List.length_eq_zero_iff, hpushes]
  rcases h with ⟨hs, hline⟩ | ⟨hs, hring⟩
  · refine .inl ⟨hnil.2 hs, ?_⟩
    rw [hlist]
    exact ⟨hline.allocated, hline.first, hline.last, hline.next, hline.prev⟩
  · refine .inr ⟨fun ht => hs (hnil.1 ht), ?_⟩
    rw [hlist, hpushes]
    exact hring.of_workers workers

theorem Links.change (h : s.Links n) (hc : Change s s') : s'.Links n := by
  have hsame : s.list = { s.list with workers := s.list.workers } := rfl
  cases hc with
  | restarted | created | refused | stopped | skipped => exact h.of_workers rfl rfl
  | @waited _ _ _ t _ hwait | @freedThread _ _ t _ hwait =>
    rw [wait_eq hwait]
    exact h.of_workers rfl hsame
  | _ => exact h.of_workers rfl hsame

/-- What a caller or a thread does with the list: a caller takes a worker, or it stays as it is. -/
theorem list_of_pool {action : ThreadPoolRun.Action F D} {pool : ThreadPoolRun F D}
    (hstep : s.pool.step action = some pool) :
    (∃ func data w list', action = .take func data ∧ s.list.rotate = some (w, list') ∧
      pool.pushRun.pool = list' ∧ pool.pushRun.pushes = s.pushes ++ [⟨func, data, w, false⟩]) ∨
    (∃ workers, pool.pushRun.pool = { s.list with workers }) ∧
      pool.pushRun.pushes.length = s.pushes.length := by
  cases action with
  | take func data =>
    obtain ⟨pushRun, hpush, rfl⟩ := Option.map_eq_some_iff.1 hstep
    obtain ⟨⟨w, list'⟩, hrotate, rfl⟩ := Option.map_eq_some_iff.1 hpush
    exact .inl ⟨func, data, w, list', rfl, hrotate, rfl, rfl⟩
  | link j =>
    obtain ⟨p, -, hpush, -⟩ := ThreadPoolRun.step_link hstep
    obtain ⟨q, -, -, heq⟩ := PushRun.step_link hpush
    rw [heq]
    exact .inr ⟨⟨_, rfl⟩, List.length_set⟩
  | act b action =>
    obtain ⟨-, r, -, rfl⟩ := ThreadPoolRun.step_act hstep
    exact .inr ⟨⟨_, rfl⟩, rfl⟩

theorem Links.pool {action : ThreadPoolRun.Action F D} {pool : ThreadPoolRun F D}
    (h : s.Links n) (hstep : s.pool.step action = some pool) : Links { s with pool } n := by
  rcases list_of_pool hstep with ⟨func, data, w, list', -, hrotate, hlist, hpushes⟩ |
    ⟨⟨workers, hlist⟩, hpushes⟩
  · have hring : HiwThreadPool.Ring list' n (s.pushes.length + 1) := by
      rcases h with ⟨hnil, hline⟩ | ⟨-, hring⟩
      · rw [hnil]
        exact (hline.rotate hrotate).2
      · exact (hring.rotate hrotate).2
    have hpushes' : pushes { s with pool } = s.pushes ++ [⟨func, data, w, false⟩] := hpushes
    refine .inr ⟨by simp [hpushes'], ?_⟩
    rw [hpushes', List.length_append]
    show HiwThreadPool.Ring pool.pushRun.pool n _
    rw [hlist]
    exact hring
  · exact h.of_workers hpushes hlist

/-- A caller that takes a worker for the first time finds two of them, and the first is there. -/
theorem Walk.no_end {w : ℕ} {list' : HiwThreadPool F D} (h : s.Walk n k i) (hlinks : s.Links n)
    (hnil : s.pushes = []) (hrotate : s.list.rotate = some (w, list'))
    (hfound : ∀ first ∈ s.list.workerFirst, .worker first ∉ s.freed) : i + 1 < n := by
  have hline : HiwThreadPool.Line s.list n := by
    rcases hlinks with ⟨-, hline⟩ | ⟨hne, -⟩
    · exact hline
    · exact absurd hnil hne
  obtain ⟨first, last, hfirst, hnext, -⟩ := HiwThreadPool.rotate_links hrotate
  have hgone := hfound w hfirst
  rw [worker_mem_freed, h.gone] at hgone
  rw [hline.first] at hfirst
  split_ifs at hfirst with h0
  obtain rfl := Option.some.inj hfirst
  rw [hline.next 0 (Nat.pos_of_ne_zero h0)] at hnext
  split_ifs at hnext with h1
  obtain rfl : k = 0 := by simpa [hnil] using h.le
  have hi : i = 0 := by
    by_contra hi
    exact hgone (List.mem_map.2 ⟨0, List.mem_range.2 (Nat.pos_of_ne_zero hi), Nat.zero_mod n⟩)
  omega

/-- **Every step of a caller or a thread leaves the main thread on its way.** -/
theorem Walk.other {action : ThreadPoolRun.Action F D} {pool : ThreadPoolRun F D}
    (h : s.Walk n k i) (hlinks : s.Links n) (hfound : ∀ o ∈ s.poolUses action, o ∉ s.freed)
    (hstep : s.pool.step action = some pool) : Walk { s with pool } n k i := by
  rcases list_of_pool hstep with ⟨func, data, w, list', rfl, hrotate, -, hpushes⟩ | ⟨-, hpushes⟩
  · have hpushes' : pushes { s with pool } = s.pushes ++ [⟨func, data, w, false⟩] := hpushes
    have hne : pushes { s with pool } ≠ [] := by simp [hpushes']
    have hfirst : ∀ first ∈ s.list.workerFirst, .worker first ∉ s.freed := fun first hfirst =>
      hfound _ (by simp [poolUses, Option.mem_def.1 hfirst])
    have hend : s.pushes = [] → i + 1 < n := fun hnil => h.no_end hlinks hnil hrotate hfirst
    have htarget : ∀ {j worker}, j ≤ i + 1 → s.Target n k j worker →
        Target { s with pool } n k j worker := by
      intro j worker hj htarget
      cases worker with
      | none =>
        have := hend htarget.2
        have := htarget.1
        omega
      | some b => exact ⟨htarget.1, htarget.2.1, fun _ => hne⟩
    have hdone : s.main ≠ .done := fun hdone =>
      hfound .pool List.mem_cons_self (h.pool.2 hdone)
    refine ⟨?_, h.gone, ?_, h.pool, h.thread, h.work, h.nodup⟩
    · rw [hpushes', List.length_append]
      exact Nat.le_add_right_of_le h.le
    · have hplace := h.place
      show Place _ n k i s.main
      cases hmain : s.main with
      | idle | starting =>
        rw [hmain] at hplace
        exact hplace
      | walking =>
        rw [hmain] at hplace
        exact htarget (Nat.le_succ i) hplace
      | done => exact absurd hmain hdone
      | _ =>
        rw [hmain] at hplace
        exact ⟨hplace.1, hplace.2.1, htarget (Nat.le_refl _) hplace.2.2⟩
  · exact h.moved hpushes rfl (h.place.congr hpushes) Iff.rfl rfl fun _ hb => hb

end PoolLife

end Highway
