import Highway.Boot.ServletRun

/-!
# The end of a servlet

What holds in every run of `ServletRun`, whatever the order in which the main thread, the threads
and the signal handler go on.

* `Tidy` : what is freed and who is joined fits the place where the main thread is.
* `Listened` : the listening socket is shut down before anybody waits for a thread.
* `Punctual` : how many clients a thread gets that should stop.

Only the signal handler can look at what is freed, and it does so whenever it runs after the server
is deleted (`fault_eq_none_iff`).
-/

namespace Highway

open Lib

namespace ServletRun

variable {s s' : ServletRun} {a : Action} {who : Option ℕ} {c : Choice}

/-! ### Memory -/

/-- How many threads may have been created. -/
def MainPc.created (count : ℕ) : MainPc → ℕ
  | .starting k => k
  | _ => count

/-- How many threads the main thread has waited for. -/
def MainPc.passed (count : ℕ) : MainPc → ℕ
  | .starting _ | .looping | .stopping _ => 0
  | .joining k => k
  | .freeingThread k | .freeingServletThread k => k + 1
  | _ => count

/-- The objects of the first threads. -/
def ofThreads (n : ℕ) : List HeapObject :=
  (List.range n).flatMap fun k => [.thread k, .servletThread k]

/-- What is freed when the main thread is at the given place. -/
def MainPc.freed (count : ℕ) : MainPc → List HeapObject
  | .starting _ | .looping | .stopping _ => []
  | .joining k | .freeingThread k => ofThreads k
  | .freeingServletThread k => ofThreads k ++ [.thread k]
  | .closingServer | .freeingServer => ofThreads count
  | .freeingServlet => ofThreads count ++ [.server]
  | .done => ofThreads count ++ [.server, .servlet]

/-- The thread that the main thread is at exists. -/
def MainPc.InRange (count : ℕ) : MainPc → Prop
  | .starting k | .joining k => k ≤ count
  | .freeingThread k | .freeingServletThread k => k < count
  | _ => True

/-- The memory and the threads fit the place where the main thread is. -/
structure Tidy (s : ServletRun) : Prop where
  inRange : s.main.InRange s.count
  freed : s.freed = s.main.freed s.count
  joined : s.joined =
    (List.range (s.main.passed s.count)).filter fun k => s.loop (some k) ≠ .absent
  passed : ∀ k < s.main.passed s.count, (s.loop (some k)).Idle
  created : ∀ k, s.main.created s.count ≤ k → s.loop (some k) = .absent
  starting : ∀ k, s.main = .starting k → s.loop none = .absent
  main : s.main ≠ .looping → (s.loop none).Idle

theorem ofThreads_succ (n : ℕ) :
    ofThreads (n + 1) = ofThreads n ++ [.thread n] ++ [.servletThread n] := by
  simp [ofThreads, List.range_succ]

@[simp] theorem thread_mem_ofThreads {n k : ℕ} : .thread k ∈ ofThreads n ↔ k < n := by
  simp [ofThreads]

@[simp] theorem servletThread_mem_ofThreads {n k : ℕ} :
    .servletThread k ∈ ofThreads n ↔ k < n := by
  simp [ofThreads]

@[simp] theorem server_not_mem_ofThreads {n : ℕ} : .server ∉ ofThreads n := by
  simp [ofThreads]

@[simp] theorem servlet_not_mem_ofThreads {n : ℕ} : .servlet ∉ ofThreads n := by
  simp [ofThreads]

theorem LoopPc.Idle.next_eq_none {pc : LoopPc} (h : pc.Idle) (running shut : Bool) :
    pc.next running shut c = none := by
  rcases h with rfl | rfl <;> cases c <;> rfl

theorem LoopPc.Idle.uses_eq_nil {pc : LoopPc} (h : pc.Idle) : pc.uses who = [] := by
  rcases h with rfl | rfl <;> rfl

theorem tidy_start (count listening : ℕ) : (start count listening).Tidy where
  inRange := Nat.zero_le _
  freed := rfl
  joined := rfl
  passed := fun _ hk => absurd hk (Nat.not_lt_zero _)
  created := fun _ _ => rfl
  starting := fun _ _ => rfl
  main := fun _ => .inl rfl

theorem ne_of_idle {w : Option ℕ} (hwho : ¬ (s.loop who).Idle) (h : (s.loop w).Idle) :
    w ≠ who := by
  rintro rfl
  exact hwho h

theorem Tidy.looped {pc : LoopPc} {late : Option ℕ → ℕ} (h : s.Tidy)
    (hwho : ¬ (s.loop who).Idle) :
    Tidy { s with loop := Function.update s.loop who pc, late } where
  inRange := h.inRange
  freed := h.freed
  joined := by
    refine h.joined.trans (List.filter_congr fun k hk => ?_)
    have hne := ne_of_idle hwho (h.passed k (List.mem_range.1 hk))
    simp only [Function.update_of_ne hne]
  passed := fun k hk => by
    have hidle := h.passed k hk
    simpa only [Function.update_of_ne (ne_of_idle hwho hidle)] using hidle
  created := fun k hk => by
    have habsent := h.created k hk
    simpa only [Function.update_of_ne (ne_of_idle hwho (.inl habsent))] using habsent
  starting := fun k hk => by
    have habsent := h.starting k hk
    simpa only [Function.update_of_ne (ne_of_idle hwho (.inl habsent))] using habsent
  main := fun hmain => by
    have hidle := h.main hmain
    simpa only [Function.update_of_ne (ne_of_idle hwho hidle)] using hidle

/-- The main thread goes on, without a change to the threads; `k` is a thread that it passes. -/
theorem Tidy.went {server : HiwServer} {t : Descriptors} {main : MainPc} {freed : List HeapObject}
    {joined : List ℕ} (h : s.Tidy) (hmain : (s.loop none).Idle)
    (hrange : main.InRange s.count) (hfreed : freed = main.freed s.count)
    (hjoined : joined =
      (List.range (main.passed s.count)).filter fun k => s.loop (some k) ≠ .absent)
    (hpassed : ∀ k < main.passed s.count, (s.loop (some k)).Idle)
    (hcreated : main.created s.count = s.count)
    (hstarting : ∀ k, main ≠ .starting k) :
    Tidy { s with server, descriptors := t, main, freed, joined } where
  inRange := hrange
  freed := hfreed
  joined := hjoined
  passed := hpassed
  created := fun k hk => by
    refine h.created k (Nat.le_trans ?_ hk)
    rw [hcreated]
    have hrange := h.inRange
    unfold MainPc.created
    split
    next heq =>
      rw [heq] at hrange
      exact hrange
    next => exact Nat.le_refl _
  starting := fun k hk => absurd hk (hstarting k)
  main := fun _ => hmain

/-- **Memory and threads stay tidy** at every step on objects that are still there. -/
theorem Tidy.change (h : s.Tidy) (hchange : Change s a s') : s'.Tidy := by
  have hrange := h.inRange
  have hfreed := h.freed
  have hjoined := h.joined
  have hpassed := h.passed
  have hcreated := h.created
  have hidle := h.main
  cases hchange with
  | @created k hmain hk =>
    rw [hmain] at hfreed hjoined hcreated
    refine ⟨hk, hfreed, hjoined, fun i hi => absurd hi (Nat.not_lt_zero i), fun i hi => ?_,
      fun _ _ => ?_, fun _ => ?_⟩
    · have hik : some i ≠ some k := fun heq => by
        obtain rfl := Option.some.inj heq
        exact Nat.lt_irrefl _ hi
      simpa only [Function.update_of_ne hik] using hcreated i (Nat.le_of_succ_le hi)
    · simpa using h.starting k hmain
    · exact .inl (by simpa using h.starting k hmain)
  | @refused k hmain hk =>
    rw [hmain] at hfreed hjoined
    exact h.went (.inl (h.starting k hmain)) trivial hfreed hjoined
      (fun i hi => absurd hi (Nat.not_lt_zero i)) rfl (fun _ => by simp)
  | @entered k created hmain hk =>
    rw [hmain] at hfreed hjoined hcreated hrange
    refine ⟨trivial, hfreed, hjoined.trans rfl, fun i hi => absurd hi (Nat.not_lt_zero i),
      fun i hi => ?_, fun _ hs => by simp at hs, fun hs => absurd rfl hs⟩
    simpa using hcreated i (Nat.le_trans hrange hi)
  | left hmain hloop =>
    rw [hmain] at hfreed hjoined
    exact h.went (.inr hloop) trivial hfreed hjoined
      (fun i hi => absurd hi (Nat.not_lt_zero i)) rfl (fun _ => by simp)
  | stopLine hmain hline =>
    rw [hmain] at hfreed hjoined
    exact h.went (hidle (by simp [hmain])) trivial hfreed hjoined
      (fun i hi => absurd hi (Nat.not_lt_zero i)) rfl (fun _ => by simp)
  | stopped hmain hline =>
    rw [hmain] at hfreed hjoined
    exact h.went (hidle (by simp [hmain])) (Nat.zero_le _) hfreed hjoined
      (fun i hi => absurd hi (Nat.not_lt_zero i)) rfl (fun _ => by simp)
  | @skipped k created hmain hk hloop =>
    rw [hmain] at hfreed hjoined hpassed
    refine h.went (hidle (by simp [hmain])) hk hfreed ?_ (fun i hi => ?_) rfl (fun _ => by simp)
    · rw [hjoined]
      simp [MainPc.passed, List.range_succ, hloop]
    · rcases Nat.lt_succ_iff_lt_or_eq.1 hi with hi | rfl
      · exact hpassed i hi
      · exact .inl hloop
  | @joined k created hmain hk hloop =>
    rw [hmain] at hfreed hjoined hpassed
    refine h.went (hidle (by simp [hmain])) hk hfreed ?_ (fun i hi => ?_) rfl (fun _ => by simp)
    · rw [hjoined]
      simp [MainPc.passed, List.range_succ, hloop]
    · rcases Nat.lt_succ_iff_lt_or_eq.1 hi with hi | rfl
      · exact hpassed i hi
      · exact .inr hloop
  | @allJoined k created hmain hk =>
    rw [hmain] at hfreed hjoined hpassed hrange
    obtain rfl : k = s.count := Nat.le_antisymm hrange (Nat.not_lt.1 hk)
    exact h.went (hidle (by simp [hmain])) trivial hfreed hjoined hpassed rfl (fun _ => by simp)
  | @freedThread k created hmain =>
    rw [hmain] at hfreed hjoined hpassed hrange
    exact h.went (hidle (by simp [hmain])) hrange (by rw [hfreed]; rfl) hjoined hpassed rfl
      (fun _ => by simp)
  | @freedServletThread k created hmain =>
    rw [hmain] at hfreed hjoined hpassed hrange
    exact h.went (hidle (by simp [hmain])) hrange
      (by rw [hfreed]; exact (ofThreads_succ k).symm) hjoined hpassed rfl (fun _ => by simp)
  | noSocket hmain hsocket =>
    rw [hmain] at hfreed hjoined hpassed
    exact h.went (hidle (by simp [hmain])) trivial hfreed hjoined hpassed rfl (fun _ => by simp)
  | closed hmain hsocket =>
    rw [hmain] at hfreed hjoined hpassed
    exact h.went (hidle (by simp [hmain])) trivial hfreed hjoined hpassed rfl (fun _ => by simp)
  | freedServer hmain =>
    rw [hmain] at hfreed hjoined hpassed
    exact h.went (hidle (by simp [hmain])) trivial (by rw [hfreed]; rfl) hjoined hpassed rfl
      (fun _ => by simp)
  | freedServlet hmain =>
    rw [hmain] at hfreed hjoined hpassed
    exact h.went (hidle (by simp [hmain])) trivial
      (by rw [hfreed]; simp [MainPc.freed]) hjoined hpassed rfl (fun _ => by simp)
  | @looped who c pc hnext =>
    refine h.looped fun hwho => ?_
    rw [hwho.next_eq_none] at hnext
    cases hnext
  | ignored hid hrun => exact h
  | signalled hid hrun => exact ⟨hrange, hfreed, hjoined, hpassed, hcreated, h.starting, hidle⟩
  | signalLine hpc hline => exact ⟨hrange, hfreed, hjoined, hpassed, hcreated, h.starting, hidle⟩

theorem Tidy.not_mem_freed {k : ℕ} (h : s.Tidy) (hk : s.main.passed s.count ≤ k) :
    .thread k ∉ s.freed ∧ .servletThread k ∉ s.freed := by
  rw [h.freed]
  cases hmain : s.main <;> rw [hmain] at hk <;>
    simp only [MainPc.freed, MainPc.passed] at hk ⊢ <;> simp <;> omega

theorem Tidy.server_not_mem (h : s.Tidy) (hserver : s.main ≠ .freeingServlet)
    (hdone : s.main ≠ .done) : .server ∉ s.freed := by
  rw [h.freed]
  cases hmain : s.main <;> simp_all [MainPc.freed]

theorem Tidy.servlet_not_mem (h : s.Tidy) (hdone : s.main ≠ .done) : .servlet ∉ s.freed := by
  rw [h.freed]
  cases hmain : s.main <;> simp_all [MainPc.freed]

/-- What a thread looks at are its own objects, the servlet and the server. -/
theorem LoopPc.mem_of_mem_uses {o : HeapObject} {pc : LoopPc} (ho : o ∈ pc.uses who) :
    o ∈ own who ∨ o = .servlet ∨ o = .server := by
  cases pc <;> simp only [LoopPc.uses, List.mem_append, List.mem_cons, List.not_mem_nil] at ho <;>
    tauto

/-- As long as a thread runs, neither its own objects nor the servlet or the server are freed. -/
theorem Tidy.found_of_loop {o : HeapObject} (h : s.Tidy) (hwho : ¬ (s.loop who).Idle)
    (ho : o ∈ (s.loop who).uses who) : o ∉ s.freed := by
  -- the main thread has come to the end only behind all threads
  have hmain : s.main ≠ .freeingServlet ∧ s.main ≠ .done := by
    refine ⟨fun hmain => ?_, fun hmain => ?_⟩
    all_goals
      cases who with
      | none => exact hwho (h.main (by simp [hmain]))
      | some k =>
        have hpassed := h.passed k
        have hcreated := h.created k
        rw [hmain] at hpassed hcreated
        rcases Nat.lt_or_ge k s.count with hk | hk
        · exact hwho (hpassed hk)
        · exact hwho (.inl (hcreated hk))
  rcases LoopPc.mem_of_mem_uses ho with ho | rfl | rfl
  · cases who with
    | none => cases ho
    | some k =>
      have hk := h.not_mem_freed (Nat.not_lt.1 fun hk => hwho (h.passed k hk))
      simp only [own, List.mem_cons, List.not_mem_nil, or_false] at ho
      rcases ho with rfl | rfl
      · exact hk.2
      · exact hk.1
  · exact h.servlet_not_mem hmain.2
  · exact h.server_not_mem hmain.1 hmain.2

theorem Tidy.found_of_main {o : HeapObject} (h : s.Tidy) (ho : o ∈ s.main.uses s.count) :
    o ∉ s.freed := by
  rw [h.freed]
  cases hmain : s.main <;> rw [hmain] at ho <;> simp only [MainPc.uses] at ho
  case starting k => split_ifs at ho <;> simp [MainPc.freed]
  case joining k =>
    split_ifs at ho
    · simp only [List.mem_cons, List.not_mem_nil, or_false] at ho
      rcases ho with rfl | rfl <;> simp [MainPc.freed]
    · obtain rfl := List.mem_singleton.1 ho
      simp [MainPc.freed]
  case freeingServletThread k =>
    obtain rfl := List.mem_singleton.1 ho
    simp [MainPc.freed]
  case freeingServlet =>
    obtain rfl := List.mem_singleton.1 ho
    simp [MainPc.freed]
  case looping | done => cases ho
  all_goals
    simp only [List.mem_cons, List.not_mem_nil, or_false] at ho
    rcases ho with rfl | rfl <;> simp [MainPc.freed]

/-- **Nobody but the signal handler looks at what is freed.** -/
theorem Tidy.found (h : s.Tidy) {o : HeapObject} (ho : o ∈ s.uses a)
    (hfreed : o ∈ s.freed) : o = .server ∧ ∃ id, a = .signal id := by
  cases a with
  | main created => exact absurd hfreed (h.found_of_main ho)
  | loop who c =>
    refine absurd hfreed (h.found_of_loop (fun hidle => ?_) ho)
    rw [uses, hidle.uses_eq_nil] at ho
    cases ho
  | signal id => exact ⟨List.mem_singleton.1 ho, id, rfl⟩

/-- The invariant of a run: tidy, and what the fault can be. -/
structure Sound (s : ServletRun) : Prop extends s.Tidy where
  fault : ∀ f, s.fault = some f → f.2 = .server ∧ ∃ id, f.1 = .signal id

theorem Tidy.faulted {f : Option (Party × HeapObject)} (h : s.Tidy) :
    Tidy { s with fault := f } :=
  ⟨h.inRange, h.freed, h.joined, h.passed, h.created, h.starting, h.main⟩

theorem fault_of_goOn (h : s.goOn a = some s') : s'.fault = s.fault := by
  cases change_of_goOn h <;> rfl

theorem Sound.step (h : s.Sound) (hstep : s.step a = some s') : s'.Sound := by
  have hnone := fault_eq_none_of_step hstep
  rcases step_cases hstep with ⟨hgo, -⟩ | ⟨o, ho, hfreed, rfl⟩
  · refine ⟨h.change (change_of_goOn hgo), fun f hf => ?_⟩
    rw [fault_of_goOn hgo, hnone] at hf
    cases hf
  · refine ⟨h.toTidy.faulted, ?_⟩
    rintro f ⟨⟩
    obtain ⟨rfl, id, rfl⟩ := h.found ho hfreed
    exact ⟨rfl, id, rfl⟩

theorem sound_start (count listening : ℕ) : (start count listening).Sound :=
  ⟨tidy_start count listening, fun _ hf => by cases hf⟩

/-- The signal handler runs when the server is deleted already. -/
def TooLate (s : ServletRun) : Action → Prop
  | .signal _ => .server ∈ s.freed
  | _ => False

theorem runLabels_of_fault {t : ServletRun} {actions : List Action} (hfault : t.fault ≠ none)
    (hrun : runLabels step t actions = some s) : s = t := by
  cases actions with
  | nil => exact (Option.some.inj hrun).symm
  | cons a actions =>
    obtain ⟨u, hu, -⟩ := Option.bind_eq_some_iff.1 hrun
    exact absurd (fault_eq_none_of_step hu) hfault

theorem allSteps_of_fault_eq_none {t : ServletRun} {actions : List Action}
    (hrun : runLabels step t actions = some s) (hfault : s.fault = none) :
    AllSteps step (fun t a => ¬ t.TooLate a) t actions := by
  induction actions generalizing t with
  | nil => trivial
  | cons a actions ih =>
    obtain ⟨u, hu, hrest⟩ := Option.bind_eq_some_iff.1 hrun
    have hnone : u.fault = none := by
      by_contra hne
      exact hne (runLabels_of_fault hne hrest ▸ hfault)
    refine ⟨?_, fun u' hu' => ?_⟩
    · rcases step_cases hu with ⟨-, hfound⟩ | ⟨o, -, -, rfl⟩
      · cases a with
        | main created => exact id
        | loop who c => exact id
        | signal id => exact hfound .server (List.mem_singleton_self _)
      · cases hnone
    · obtain rfl := Option.some.inj (hu.symm.trans hu')
      exact ih hrest

theorem Sound.step_of_not_tooLate (h : s.Sound) (hlate : ¬ s.TooLate a)
    (hstep : s.step a = some s') : s'.fault = none := by
  have hnone := fault_eq_none_of_step hstep
  rcases step_cases hstep with ⟨hgo, -⟩ | ⟨o, ho, hfreed, rfl⟩
  · rw [fault_of_goOn hgo, hnone]
  · obtain ⟨rfl, id, rfl⟩ := h.found ho hfreed
    exact absurd hfreed hlate

/-- **Who looks at freed memory.**  However the threads, the main thread and the signal handler
take turns, only the handler can look at a freed object, which is the server; and it does exactly
if one of its steps comes after the main thread has deleted the server. -/
theorem fault_eq_none_iff {count listening : ℕ} {actions : List Action}
    (hrun : runLabels step (start count listening) actions = some s) :
    (∀ f, s.fault = some f → f.2 = .server ∧ ∃ id, f.1 = .signal id) ∧
      (s.fault = none ↔
        AllSteps step (fun t a => ¬ t.TooLate a) (start count listening) actions) := by
  have hsound : s.Sound :=
    invariant_of_runLabels (fun _ _ _ _ h => h.step) (sound_start count listening) hrun
  refine ⟨hsound.fault, allSteps_of_fault_eq_none hrun, fun hlate => ?_⟩
  have hstart : (start count listening).Sound ∧ (start count listening).fault = none :=
    ⟨sound_start count listening, rfl⟩
  have hinv : s.Sound ∧ s.fault = none :=
    hlate.invariant (I := fun t => t.Sound ∧ t.fault = none) (fun t a t' hlate ht htt' =>
      ⟨ht.1.step htt', ht.1.step_of_not_tooLate hlate htt'⟩) hstart hrun
  exact hinv.2

/-- A servlet with one more thread, whose handler is called again behind its end. -/
def lateSignal : List Action :=
  [.main true, .main true, .loop none .goOn, .loop none .goOn, .loop none .goOn,
    .loop (some 0) .goOn, .loop (some 0) .goOn, .loop (some 0) .goOn,
    .signal 0, .signal 0, .signal 0, .signal 0, .signal 0,
    .loop none .goOn, .loop none .goOn,
    .loop (some 0) .client, .loop (some 0) .goOn, .loop (some 0) .goOn,
    .main true, .main true, .main true, .main true, .main true, .main true, .main true,
    .main true, .main true, .signal 1]

theorem fault_lateSignal :
    ∃ s, runLabels step (start 1 3) lateSignal = some s ∧
      s.fault = some (.signal 1, .server) ∧
      ¬ AllSteps step (fun t a => ¬ t.TooLate a) (start 1 3) lateSignal :=
  ⟨_, rfl, rfl, fun h => by
    have hnone := (fault_eq_none_iff
      (show runLabels step (start 1 3) lateSignal = some _ from rfl)).2.2 h
    cases hnone⟩

/-! ### The listening socket -/

/-- What the listening socket and the calls of `hiw_server_stop` have to do with each other; the
predicate says which lines of it somebody is at. -/
structure Shutting (listening : ℕ) (server : HiwServer) (t : Descriptors) (stops : StopPc → Prop) :
    Prop where
  socket : ∀ x, server.socket = some x → x = listening
  shut : ∀ x ∈ t.shut, x = listening
  cleared : server.socket = none → listening ∈ t.shut
  closing : server.running = false → listening ∈ t.shut ∨ stops .close
  invalidating : stops .invalidate → listening ∈ t.shut

/-- Somebody is at the given line of `hiw_server_stop`. -/
def Stops (s : ServletRun) (pc : StopPc) : Prop :=
  s.main = .stopping pc ∨ ∃ id, s.signal id = some pc

variable {listening : ℕ} {server server' : HiwServer} {t t' : Descriptors}
  {stops stops' : StopPc → Prop} {pc : StopPc} {pc' : Option StopPc}

theorem Shutting.mono (h : Shutting listening server t stops)
    (hclose : stops .close → stops' .close) (hinv : stops' .invalidate → stops .invalidate) :
    Shutting listening server t stops' :=
  ⟨h.socket, h.shut, h.cleared, fun hrun => (h.closing hrun).imp_right hclose,
    fun hs => h.invalidating (hinv hs)⟩

theorem Shutting.line (h : Shutting listening server t stops) (hpc : stops pc)
    (hline : server.stopLine t pc = (pc', server', t'))
    (hold : ∀ q, stops q → q = pc ∨ stops' q) (hnew : ∀ q, pc' = some q → stops' q)
    (honly : ∀ q, stops' q → stops q ∨ pc' = some q) :
    Shutting listening server' t' stops' := by
  cases pc with
  | test =>
    obtain ⟨rfl, rfl, rfl⟩ := by simpa only [HiwServer.stopLine, Prod.mk.injEq] using hline
    refine h.mono (fun hs => (hold _ hs).resolve_left (by simp)) fun hs => ?_
    refine (honly _ hs).resolve_right fun heq => ?_
    split_ifs at heq
    cases heq
  | clear =>
    obtain ⟨rfl, rfl, rfl⟩ := by simpa only [HiwServer.stopLine, Prod.mk.injEq] using hline
    refine ⟨h.socket, h.shut, h.cleared, fun _ => .inr (hnew _ rfl), fun hs => ?_⟩
    exact h.invalidating ((honly _ hs).resolve_right (by simp))
  | close =>
    unfold HiwServer.stopLine at hline
    cases hsocket : server.socket with
    | none =>
      -- whoever has cleared the socket has shut it down
      simp only [hsocket, Prod.mk.injEq] at hline
      obtain ⟨rfl, rfl, rfl⟩ := hline
      have hshut := h.cleared hsocket
      exact ⟨h.socket, h.shut, h.cleared, fun _ => .inl hshut, fun _ => hshut⟩
    | some x =>
      simp only [hsocket, Prod.mk.injEq] at hline
      obtain ⟨rfl, rfl, rfl⟩ := hline
      obtain rfl := h.socket x hsocket
      have hshut : x ∈ (t.hiwSocketClose x).shut := List.mem_append_right _ (by simp)
      refine ⟨h.socket, fun y hy => ?_, fun _ => hshut, fun _ => .inl hshut, fun _ => hshut⟩
      rcases List.mem_append.1 hy with hy | hy
      · exact h.shut y hy
      · exact List.mem_singleton.1 hy
  | invalidate =>
    obtain ⟨rfl, rfl, rfl⟩ := by simpa only [HiwServer.stopLine, Prod.mk.injEq] using hline
    have hshut := h.invalidating hpc
    exact ⟨fun _ hx => (by cases hx), h.shut, fun _ => hshut, fun _ => .inl hshut, fun _ => hshut⟩

/-- The main thread is behind the `s->running = false` of `hiw_server_stop`. -/
def MainPc.Released : MainPc → Prop
  | .starting _ | .looping | .stopping .test | .stopping .clear => False
  | _ => True

/-- The main thread is behind the socket of `hiw_server_delete`. -/
def MainPc.Deleted : MainPc → Prop
  | .freeingServer | .freeingServlet | .done => True
  | _ => False

/-- The listening socket fits the place where the main thread is. -/
structure Listened (listening : ℕ) (s : ServletRun) : Prop where
  shutting : Shutting listening s.server s.descriptors s.Stops
  released : s.main.Released → s.server.running = false
  deleted : s.main.Deleted → listening ∈ s.descriptors.shut

theorem listened_start (count listening : ℕ) : (start count listening).Listened listening where
  shutting := {
    socket := fun _ hx => (Option.some.inj hx).symm
    shut := fun _ hx => absurd hx List.not_mem_nil
    cleared := fun h => by cases h
    closing := fun h => by cases h
    invalidating := fun h => by
      rcases h with h | ⟨id, h⟩
      · cases h
      · cases h }
  released := fun h => h.elim
  deleted := fun h => h.elim

theorem Listened.went {main : MainPc} {loop : Option ℕ → LoopPc} {freed : List HeapObject}
    {joined : List ℕ} {late : Option ℕ → ℕ} (h : s.Listened listening)
    (hclose : s.main ≠ .stopping .close) (hinv : main ≠ .stopping .invalidate)
    (hreleased : main.Released → s.main.Released) (hdeleted : main.Deleted → s.main.Deleted) :
    Listened listening { s with main, loop, freed, joined, late } where
  shutting := h.shutting.mono (fun hs => .inr (hs.resolve_left hclose))
    fun hs => .inr (hs.resolve_left hinv)
  released := fun hr => h.released (hreleased hr)
  deleted := fun hd => h.deleted (hdeleted hd)

theorem Listened.stopLine {main : MainPc} (h : s.Listened listening)
    (hmain : s.main = .stopping pc)
    (hline : s.server.stopLine s.descriptors pc = (pc', server', t'))
    (hnext : ∀ q, main = .stopping q ↔ pc' = some q) (hdeleted : ¬ main.Deleted)
    (hreleased : main.Released → server'.running = false) :
    Listened listening { s with server := server', descriptors := t', main } where
  shutting := by
    refine h.shutting.line (.inl hmain) hline (fun q hq => ?_)
      (fun q hq => .inl ((hnext q).2 hq)) fun q hq => ?_
    · rcases hq with hq | hq
      · exact .inl (MainPc.stopping.inj (hq.symm.trans hmain))
      · exact .inr (.inr hq)
    · rcases hq with hq | hq
      · exact .inr ((hnext q).1 hq)
      · exact .inl (.inr hq)
  released := hreleased
  deleted := fun hd => absurd hd hdeleted

theorem stopLine_mono (hline : server.stopLine t pc = (pc', server', t')) :
    (server.running = false → server'.running = false) ∧ ∀ x ∈ t.shut, x ∈ t'.shut := by
  unfold HiwServer.stopLine at hline
  split at hline
  · obtain ⟨-, rfl, rfl⟩ := by simpa only [Prod.mk.injEq] using hline
    exact ⟨id, fun _ hx => hx⟩
  · obtain ⟨-, rfl, rfl⟩ := by simpa only [Prod.mk.injEq] using hline
    exact ⟨fun _ => rfl, fun _ hx => hx⟩
  · split at hline
    · obtain ⟨-, rfl, rfl⟩ := by simpa only [Prod.mk.injEq] using hline
      exact ⟨id, fun _ hx => hx⟩
    · obtain ⟨-, rfl, rfl⟩ := by simpa only [Prod.mk.injEq] using hline
      exact ⟨id, fun _ hx => List.mem_append_left _ hx⟩
  · obtain ⟨-, rfl, rfl⟩ := by simpa only [Prod.mk.injEq] using hline
    exact ⟨id, fun _ hx => hx⟩

theorem running_of_stopLine (hline : server.stopLine t pc = (pc', server', t'))
    (hpc : server.running = false ∨ pc = .clear ∨ pc' = none ∧ pc = .test) :
    server'.running = false := by
  rcases hpc with hrun | rfl | ⟨rfl, rfl⟩
  · exact (stopLine_mono hline).1 hrun
  · obtain ⟨-, rfl, -⟩ := by simpa only [HiwServer.stopLine, Prod.mk.injEq] using hline
    rfl
  · simp only [HiwServer.stopLine, Prod.mk.injEq] at hline
    obtain ⟨htest, rfl, -⟩ := hline
    by_contra hrun
    simp [hrun] at htest

theorem update_eq_some_iff {signal : ℕ → Option StopPc} {i j : ℕ} :
    Function.update signal i pc' j = some pc ↔
      j = i ∧ pc' = some pc ∨ j ≠ i ∧ signal j = some pc := by
  by_cases h : j = i <;> simp [h]

/-- **The listening socket stays as it should** at every step on objects that are still there. -/
theorem Listened.change (h : s.Listened listening) (hchange : Change s a s') :
    s'.Listened listening := by
  have hshutting := h.shutting
  have hreleased := h.released
  cases hchange with
  | @stopLine pc pc' server t created hmain hline =>
    refine h.stopLine hmain hline (fun q => by simp) id fun hr => ?_
    refine running_of_stopLine hline ?_
    rw [hmain] at hreleased
    cases pc with
    | test =>
      -- from the test, one comes to the line behind it only
      simp only [HiwServer.stopLine, Prod.mk.injEq, Option.ite_none_right_eq_some] at hline
      obtain rfl := Option.some.inj hline.1.2
      exact hr.elim
    | clear => exact .inr (.inl rfl)
    | close => exact .inl (hreleased trivial)
    | invalidate => exact .inl (hreleased trivial)
  | @stopped pc server t created hmain hline =>
    refine h.stopLine hmain hline (fun q => by simp) id fun _ => ?_
    refine running_of_stopLine hline ?_
    rw [hmain] at hreleased
    cases pc with
    | test => exact .inr (.inr ⟨rfl, rfl⟩)
    | clear => exact .inr (.inl rfl)
    | close => exact .inl (hreleased trivial)
    | invalidate => exact .inl (hreleased trivial)
  | noSocket hmain hsocket =>
    refine ⟨hshutting.mono (fun hs => .inr (hs.resolve_left (by simp [hmain])))
      fun hs => .inr (hs.resolve_left (by simp)), fun _ => ?_, fun _ => ?_⟩
    · exact hreleased (by rw [hmain]; trivial)
    · exact hshutting.cleared hsocket
  | @closed x created hmain hsocket =>
    obtain rfl := hshutting.socket x hsocket
    have hshut : x ∈ (s.descriptors.hiwSocketClose x).shut := List.mem_append_right _ (by simp)
    refine ⟨⟨fun _ hx => (by cases hx), fun y hy => ?_, fun _ => hshut, fun _ => .inl hshut,
      fun _ => hshut⟩, fun _ => ?_, fun _ => hshut⟩
    · rcases List.mem_append.1 hy with hy | hy
      · exact hshutting.shut y hy
      · exact List.mem_singleton.1 hy
    · exact hreleased (by rw [hmain]; trivial)
  | looped hnext => exact ⟨hshutting, hreleased, h.deleted⟩
  | ignored hidle hrun => exact h
  | @signalled id hidle hrun =>
    refine ⟨hshutting.mono (fun hs => hs.imp_right ?_) (fun hs => hs.imp_right ?_), hreleased,
      h.deleted⟩
    · rintro ⟨i, hi⟩
      refine ⟨i, update_eq_some_iff.2 (.inr ⟨?_, hi⟩)⟩
      rintro rfl
      rw [hidle] at hi
      cases hi
    · rintro ⟨i, hi⟩
      rcases update_eq_some_iff.1 hi with ⟨-, hi⟩ | ⟨-, hi⟩
      · cases hi
      · exact ⟨i, hi⟩
  | @signalLine id pc pc' server t hpc hline =>
    obtain ⟨hrunning, hshut⟩ := stopLine_mono hline
    refine ⟨hshutting.line (.inr ⟨id, hpc⟩) hline (fun q hq => ?_) (fun q hq => ?_)
      (fun q hq => ?_), fun hr => hrunning (hreleased hr), fun hd => hshut _ (h.deleted hd)⟩
    · rcases hq with hq | ⟨i, hi⟩
      · exact .inr (.inl hq)
      · by_cases heq : i = id
        · subst heq
          exact .inl (Option.some.inj (hi.symm.trans hpc))
        · exact .inr (.inr ⟨i, update_eq_some_iff.2 (.inr ⟨heq, hi⟩)⟩)
    · exact .inr ⟨id, update_eq_some_iff.2 (.inl ⟨rfl, hq⟩)⟩
    · rcases hq with hq | ⟨i, hi⟩
      · exact .inl (.inl hq)
      · rcases update_eq_some_iff.1 hi with ⟨-, hi⟩ | ⟨-, hi⟩
        · exact .inr hi
        · exact .inl (.inr ⟨i, hi⟩)
  | created hmain hk | refused hmain hk | entered hmain hk | left hmain hloop
  | skipped hmain hk hloop | joined hmain hk hloop | allJoined hmain hk | freedThread hmain
  | freedServletThread hmain | freedServer hmain | freedServlet hmain =>
    exact h.went (by simp [hmain]) (by simp) (by simp [hmain, MainPc.Released])
      (by simp [hmain, MainPc.Deleted])

/-! ### Clients behind the stop -/

/-- A thread gets a client behind the stop if it is in `accept` then; afterwards it is on its way
out of the loop. -/
def Punctual (s : ServletRun) : Prop :=
  ∀ who, s.late who = 0 ∨ s.late who = 1 ∧ s.server.running = false ∧
    (s.loop who = .serving ∨ s.loop who = .checking ∨ s.loop who = .returned)

theorem Change.running (hchange : Change s a s') (hrun : s.server.running = false) :
    s'.server.running = false := by
  cases hchange with
  | stopLine hmain hline => exact (stopLine_mono hline).1 hrun
  | stopped hmain hline => exact (stopLine_mono hline).1 hrun
  | signalLine hpc hline => exact (stopLine_mono hline).1 hrun
  | _ => exact hrun

theorem LoopPc.next_of_late {pc pc' : LoopPc} {shut : Bool}
    (hpc : pc = .serving ∨ pc = .checking ∨ pc = .returned)
    (hnext : pc.next false shut c = some pc') :
    c ≠ .client ∧ (pc' = .serving ∨ pc' = .checking ∨ pc' = .returned) := by
  rcases hpc with rfl | rfl | rfl <;> cases c <;>
    simp only [LoopPc.next, Option.some.injEq, reduceCtorEq] at hnext <;> subst hnext <;> simp

theorem LoopPc.eq_serving_of_client {pc pc' : LoopPc} {running shut : Bool}
    (hnext : pc.next running shut .client = some pc') : pc' = .serving := by
  cases pc <;> simp only [LoopPc.next, Option.some.injEq, reduceCtorEq] at hnext
  exact hnext.symm

theorem Punctual.update (h : s.Punctual) {main : MainPc} (habsent : s.loop who = .absent) :
    Punctual { s with main, loop := Function.update s.loop who .entry } := by
  intro w
  rcases h w with hw | ⟨-, -, hw⟩
  · exact .inl hw
  · have hne : w ≠ who := by
      rintro rfl
      simp [habsent] at hw
    simpa only [Function.update_of_ne hne] using h w

theorem Punctual.looped {pc : LoopPc} (h : s.Punctual)
    (hnext : (s.loop who).next s.server.running s.shut c = some pc) :
    Punctual { s with
      loop := Function.update s.loop who pc
      late :=
        if c = .client ∧ s.server.running = false then
          Function.update s.late who (s.late who + 1)
        else s.late } := by
  intro w
  by_cases hne : w = who
  · subst hne
    simp only [Function.update_self]
    rcases h w with hzero | ⟨hone, hrun, hloop⟩
    · split_ifs with hclient
      · obtain ⟨rfl, hrun⟩ := hclient
        obtain rfl := LoopPc.eq_serving_of_client hnext
        exact .inr ⟨by rw [Function.update_self, hzero], hrun, .inl rfl⟩
      · exact .inl hzero
    · rw [hrun] at hnext
      obtain ⟨hc, hpc⟩ := LoopPc.next_of_late hloop hnext
      rw [if_neg fun hclient => hc hclient.1]
      exact .inr ⟨hone, hrun, hpc⟩
  · have hlate : (if c = .client ∧ s.server.running = false then
        Function.update s.late who (s.late who + 1) else s.late) w = s.late w := by
      split_ifs
      · exact Function.update_of_ne hne _ _
      · rfl
    simpa only [hlate, Function.update_of_ne hne] using h w

theorem Punctual.change (h : s.Punctual) (htidy : s.Tidy) (hchange : Change s a s') :
    s'.Punctual := by
  have hrunning := hchange.running
  -- where neither the threads nor the counts change, only `running` matters
  have hkeep : s'.loop = s.loop → s'.late = s.late → s'.Punctual := by
    intro hloop hlate who
    rw [hloop, hlate]
    exact (h who).imp_right fun ⟨hone, hrun, hpc⟩ => ⟨hone, hrunning hrun, hpc⟩
  cases hchange with
  | @created k hmain hk =>
    refine h.update (htidy.created k ?_)
    rw [hmain]
    exact Nat.le_refl k
  | entered hmain hk => exact h.update (htidy.starting _ hmain)
  | looped hnext => exact h.looped hnext
  | _ => exact hkeep rfl rfl

/-! ### Runs -/

theorem LoopPc.next_ne_absent {pc pc' : LoopPc} {running shut : Bool}
    (hnext : pc.next running shut c = some pc') : pc' ≠ .absent := by
  rintro rfl
  cases pc <;> cases c <;> cases running <;> cases shut <;> cases hnext

/-- What holds in every run. -/
structure Orderly (count listening : ℕ) (s : ServletRun) : Prop extends s.Sound where
  count : s.count = count
  listened : s.Listened listening
  punctual : s.Punctual
  awake : s.main = .looping → s.loop none ≠ .absent

variable {count : ℕ} {actions : List Action}

theorem Change.awake (hchange : Change s a s') (h : s.main = .looping → s.loop none ≠ .absent) :
    s'.main = .looping → s'.loop none ≠ .absent := by
  intro hmain
  cases hchange with
  | entered hmain hk => simp
  | @looped who c pc hnext =>
    by_cases hwho : who = none
    · subst hwho
      simpa using LoopPc.next_ne_absent hnext
    · simpa only [Function.update_of_ne (Ne.symm hwho)] using h hmain
  | ignored hidle hrun => exact h hmain
  | signalled hidle hrun => exact h hmain
  | signalLine hpc hline => exact h hmain
  | _ => cases hmain

theorem Change.count_eq (hchange : Change s a s') : s'.count = s.count := by
  cases hchange <;> rfl

theorem Orderly.step (h : s.Orderly count listening) (hstep : s.step a = some s') :
    s'.Orderly count listening := by
  have hsound := h.toSound.step hstep
  rcases step_cases hstep with ⟨hgo, -⟩ | ⟨o, ho, hfreed, rfl⟩
  · have hchange := change_of_goOn hgo
    exact ⟨hsound, hchange.count_eq.trans h.count, h.listened.change hchange,
      h.punctual.change h.toTidy hchange, hchange.awake h.awake⟩
  · exact ⟨hsound, h.count, ⟨h.listened.shutting, h.listened.released, h.listened.deleted⟩,
      h.punctual, h.awake⟩

theorem orderly_of_run
    (hrun : runLabels step (start count listening) actions = some s) :
    s.Orderly count listening :=
  invariant_of_runLabels (fun _ _ _ _ h => h.step)
    ⟨sound_start count listening, rfl, listened_start count listening, fun _ => .inl rfl,
      fun h => by cases h⟩ hrun

theorem nodup_ofThreads (n : ℕ) : (ofThreads n).Nodup := by
  induction n with
  | zero => exact List.nodup_nil
  | succ n ih =>
    rw [ofThreads_succ, List.append_assoc]
    refine List.nodup_append.2 ⟨ih, by simp, fun x hx y hy => ?_⟩
    rintro rfl
    simp only [List.cons_append, List.nil_append, List.mem_cons, List.not_mem_nil, or_false] at hy
    rcases hy with rfl | rfl
    · simp at hx
    · simp at hx

/-- **A servlet that has ended.**  Every object is freed, and none twice; the main thread has joined
every thread that was created, and none runs; the listening socket is shut down. -/
theorem freed_of_done
    (hrun : runLabels step (start count listening) actions = some s) (hdone : s.main = .done) :
    s.freed = ofThreads count ++ [.server, .servlet] ∧ s.freed.Nodup ∧
      s.joined = (List.range count).filter (fun k => s.loop (some k) ≠ .absent) ∧
      (∀ who, (s.loop who).Idle) ∧ s.server.running = false ∧
      listening ∈ s.descriptors.shut ∧ ∀ x ∈ s.descriptors.shut, x = listening := by
  have h := orderly_of_run hrun
  have hfreed := h.freed
  have hjoined := h.joined
  have hpassed := h.passed
  have hcreated := h.created
  have hreleased := h.listened.released
  have hdeleted := h.listened.deleted
  rw [hdone, h.count] at hfreed hjoined hpassed hcreated
  rw [hdone] at hreleased hdeleted
  refine ⟨hfreed, ?_, hjoined, fun who => ?_, hreleased trivial, hdeleted trivial,
    h.listened.shutting.shut⟩
  · rw [hfreed]
    refine List.nodup_append.2 ⟨nodup_ofThreads _, by simp, fun x hx y hy => ?_⟩
    rintro rfl
    simp only [List.mem_cons, List.not_mem_nil, or_false] at hy
    rcases hy with rfl | rfl
    · exact server_not_mem_ofThreads hx
    · exact servlet_not_mem_ofThreads hx
  · cases who with
    | none => exact h.main (by simp [hdone])
    | some k =>
      rcases Nat.lt_or_ge k count with hk | hk
      · exact hpassed k hk
      · exact .inl (hcreated k hk)

/-- The same run, up to the end of the main thread. -/
theorem freed_lateSignal :
    ∃ s, runLabels step (start 1 3) lateSignal.dropLast = some s ∧
      s.freed = ofThreads 1 ++ [.server, .servlet] ∧ s.freed.Nodup ∧
      s.joined = (List.range 1).filter (fun k => s.loop (some k) ≠ .absent) ∧
      (∀ who, (s.loop who).Idle) ∧ s.server.running = false ∧
      3 ∈ s.descriptors.shut ∧ ∀ x ∈ s.descriptors.shut, x = 3 :=
  ⟨_, rfl, freed_of_done
    (show runLabels step (start 1 3) lateSignal.dropLast = some _ from rfl) rfl⟩

/-- **A thread that should stop gets at most one more client.** -/
theorem late_le_one
    (hrun : runLabels step (start count listening) actions = some s) (who : Option ℕ) :
    s.late who ≤ 1 := by
  rcases (orderly_of_run hrun).punctual who with h | ⟨h, -⟩
  · exact Nat.le_succ_of_le (Nat.le_of_eq h)
  · exact Nat.le_of_eq h

/-- The thread of this run does get one. -/
theorem late_lateSignal :
    ∃ s, runLabels step (start 1 3) lateSignal = some s ∧ s.late (some 0) = 1 ∧
      s.late (some 0) ≤ 1 :=
  ⟨_, rfl, rfl, late_le_one (show runLabels step (start 1 3) lateSignal = some _ from rfl) (some 0)⟩

end ServletRun

end Highway
