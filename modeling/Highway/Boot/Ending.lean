import Highway.Boot.Shutdown
import Mathlib.Algebra.BigOperators.Group.Finset.Basic
import Mathlib.Algebra.Order.BigOperators.Group.Finset

/-!
# A servlet that is stopped comes to its end

Once `running` is false, the threads and the main thread have a bounded number of steps left, apart
from the requests on connections that are kept (`ServletRun.length_own_le`), and none of them waits
forever: as long as the main thread is not done, somebody can go on without the help of a client,
unless the main thread waits for a thread that is with a client (`ServletRun.exists_alone_step`).
-/

namespace Highway

open Lib

namespace ServletRun

/-- How many steps a thread that should stop has left. -/
def LoopPc.rank : LoopPc → ℕ
  | .absent | .returned => 0
  | .checking => 1
  | .entry | .accepting | .serving => 2
  | .blocked => 3

theorem LoopPc.rank_absent : LoopPc.absent.rank = 0 := rfl

theorem LoopPc.rank_entry : LoopPc.entry.rank = 2 := rfl

/-- How many steps the main thread has left, and those of the threads that it still creates. -/
def MainPc.rank (count : ℕ) : MainPc → ℕ
  | .starting k => 3 * count + 12 + 3 * (count - k)
  | .looping => 3 * count + 9
  | .stopping .test => 3 * count + 8
  | .stopping .clear => 3 * count + 7
  | .stopping .close => 3 * count + 6
  | .stopping .invalidate => 3 * count + 5
  | .joining k => 3 * (count - k) + 4
  | .freeingThread k => 3 * (count - k) + 3
  | .freeingServletThread k => 3 * (count - k) + 2
  | .closingServer => 3
  | .freeingServer => 2
  | .freeingServlet => 1
  | .done => 0

/-- How many steps the main thread and the threads have left. -/
def rank (s : ServletRun) : ℕ :=
  s.main.rank s.count + (s.loop none).rank + ∑ k ∈ Finset.range s.count, (s.loop (some k)).rank

/-- A step of the main thread or of a thread, which does not serve one more request. -/
def Action.own : Action → Bool
  | .main _ => true
  | .loop _ c => c ≠ .keep
  | .signal _ => false

variable {s s' : ServletRun} {a : Action} {who : Option ℕ} {c : Choice} {count listening : ℕ}
  {actions actions' : List Action}

theorem LoopPc.rank_next {pc pc' : LoopPc} {shut : Bool}
    (hnext : pc.next false shut c = some pc') :
    pc'.rank ≤ pc.rank ∧ (c ≠ .keep → pc'.rank < pc.rank) := by
  cases pc <;> cases c <;> simp only [LoopPc.next, reduceCtorEq, Option.some.injEq] at hnext
  case blocked.goOn =>
    split_ifs at hnext
    obtain rfl := Option.some.inj hnext
    simp [LoopPc.rank]
  all_goals
    subst hnext
    simp [LoopPc.rank]

theorem rank_update (s : ServletRun) (pc : LoopPc) (hwho : ∀ k, who = some k → k < s.count) :
    s.main.rank s.count + (Function.update s.loop who pc none).rank +
        ∑ k ∈ Finset.range s.count, (Function.update s.loop who pc (some k)).rank +
        (s.loop who).rank = s.rank + pc.rank := by
  unfold rank
  cases who with
  | none =>
    simp only [Function.update_self]
    have hrest : ∀ k ∈ Finset.range s.count,
        (Function.update s.loop none pc (some k)).rank = (s.loop (some k)).rank := by
      intro k _
      rw [Function.update_of_ne (by simp)]
    rw [Finset.sum_congr rfl hrest]
    omega
  | some i =>
    have hi : i ∈ Finset.range s.count := Finset.mem_range.2 (hwho i rfl)
    have hrest : ∀ k ∈ (Finset.range s.count).erase i,
        (Function.update s.loop (some i) pc (some k)).rank = (s.loop (some k)).rank := by
      intro k hk
      rw [Function.update_of_ne (by simpa using Finset.ne_of_mem_erase hk)]
    rw [← Finset.add_sum_erase _ _ hi,
      ← Finset.add_sum_erase _ (fun k => (s.loop (some k)).rank) hi,
      Finset.sum_congr rfl hrest, Function.update_self, Function.update_of_ne (by simp)]
    omega

theorem rank_main {main : MainPc} {server : HiwServer} {t : Descriptors} {freed : List HeapObject}
    {joined : List ℕ} (hmain : main.rank s.count < s.main.rank s.count) :
    rank { s with server, descriptors := t, main, freed, joined } ≤ s.rank ∧
      (a.own = true → rank { s with server, descriptors := t, main, freed, joined } < s.rank) := by
  have hlt : rank { s with server, descriptors := t, main, freed, joined } < s.rank := by
    unfold rank
    simp only
    omega
  exact ⟨Nat.le_of_lt hlt, fun _ => hlt⟩

theorem rank_stopLine {server server' : HiwServer} {t t' : Descriptors} {pc : StopPc}
    {pc' : Option StopPc} (hrun : server.running = false)
    (hline : server.stopLine t pc = (pc', server', t')) (count : ℕ) :
    MainPc.rank count (.joining 0) < MainPc.rank count (.stopping pc) ∧
      ∀ q, pc' = some q → MainPc.rank count (.stopping q) < MainPc.rank count (.stopping pc) := by
  refine ⟨by cases pc <;> simp [MainPc.rank], ?_⟩
  rintro q rfl
  cases pc with
  | test =>
    simp only [HiwServer.stopLine, hrun] at hline
    cases hline
  | clear =>
    simp only [HiwServer.stopLine, Prod.mk.injEq, Option.some.injEq] at hline
    obtain ⟨rfl, -⟩ := hline
    simp [MainPc.rank]
  | close =>
    simp only [HiwServer.stopLine] at hline
    split at hline
    · cases hline
    · simp only [Prod.mk.injEq, Option.some.injEq] at hline
      obtain ⟨rfl, -⟩ := hline
      simp [MainPc.rank]
  | invalidate => cases hline

/-- **Every step but those of a connection that is kept, and of the handler, counts.** -/
theorem rank_change (h : s.Tidy) (hrun : s.server.running = false) (hchange : Change s a s') :
    s'.rank ≤ s.rank ∧ (a.own = true → s'.rank < s.rank) := by
  have hrange := h.inRange
  have hcreated := h.created
  cases hchange with
  | @created k hmain hk =>
    have hsum := s.rank_update .entry fun i (hi : some k = some i) => Option.some.inj hi ▸ hk
    have habsent : s.loop (some k) = .absent := by
      rw [hmain] at hcreated
      exact hcreated k (Nat.le_refl k)
    have hlt : rank { s with
        main := .starting (k + 1), loop := Function.update s.loop (some k) .entry } < s.rank := by
      unfold rank at hsum ⊢
      rw [hmain] at hsum ⊢
      simp only [habsent, LoopPc.rank_absent, LoopPc.rank_entry, MainPc.rank] at hsum ⊢
      omega
    exact ⟨Nat.le_of_lt hlt, fun _ => hlt⟩
  | @entered k created hmain hk =>
    have hsum := s.rank_update .entry fun i (hi : none = some i) => by cases hi
    have hlt : rank { s with
        main := .looping, loop := Function.update s.loop none .entry } < s.rank := by
      unfold rank at hsum ⊢
      rw [hmain] at hsum ⊢
      simp only [h.starting k hmain, LoopPc.rank_absent, LoopPc.rank_entry, MainPc.rank]
        at hsum ⊢
      omega
    exact ⟨Nat.le_of_lt hlt, fun _ => hlt⟩
  | @looped who c pc hnext =>
    have hwho : ∀ k, who = some k → k < s.count := by
      rintro k rfl
      by_contra hk
      have habsent : s.loop (some k) = .absent := by
        refine hcreated k (Nat.le_trans ?_ (Nat.not_lt.1 hk))
        cases hmain : s.main with
        | starting i =>
          rw [hmain] at hrange
          exact hrange
        | _ => exact Nat.le_refl _
      rw [LoopPc.Idle.next_eq_none (.inl habsent)] at hnext
      cases hnext
    have hsum := s.rank_update pc hwho
    rw [hrun] at hnext
    obtain ⟨hle, hlt⟩ := LoopPc.rank_next hnext
    refine ⟨?_, fun hown => ?_⟩
    · unfold rank at hsum ⊢
      simp only
      omega
    · have := hlt (by simpa [Action.own] using hown)
      unfold rank at hsum ⊢
      simp only
      omega
  | stopLine hmain hline =>
    refine rank_main ?_
    rw [hmain]
    exact (rank_stopLine hrun hline s.count).2 _ rfl
  | stopped hmain hline =>
    refine rank_main ?_
    rw [hmain]
    exact (rank_stopLine hrun hline s.count).1
  | ignored hidle hnot => exact ⟨Nat.le_refl _, fun hown => by cases hown⟩
  | signalled hidle hnot => exact ⟨Nat.le_refl _, fun hown => by cases hown⟩
  | signalLine hpc hline => exact ⟨Nat.le_refl _, fun hown => by cases hown⟩
  | @freedServletThread k created hmain =>
    refine rank_main ?_
    rw [hmain] at hrange ⊢
    have hk : k < s.count := hrange
    simp only [MainPc.rank]
    omega
  | refused hmain hk | left hmain hloop | skipped hmain hk hloop | joined hmain hk hloop
  | allJoined hmain hk | freedThread hmain | noSocket hmain hsocket | closed hmain hsocket
  | freedServer hmain | freedServlet hmain =>
    refine rank_main ?_
    rw [hmain]
    simp only [MainPc.rank]
    omega

/-- Behind the stop, every step of the main thread and of the threads counts. -/
theorem Orderly.rank_step (h : s.Orderly count listening) (hrun : s.server.running = false)
    (hstep : s.step a = some s') :
    s'.server.running = false ∧ s'.rank ≤ s.rank ∧ (a.own = true → s'.rank < s.rank) := by
  rcases step_cases hstep with ⟨hgo, -⟩ | ⟨o, ho, hfreed, rfl⟩
  · have hchange := change_of_goOn hgo
    exact ⟨hchange.running hrun, rank_change h.toTidy hrun hchange⟩
  · obtain ⟨-, id, rfl⟩ := h.found ho hfreed
    exact ⟨hrun, Nat.le_refl _, fun hown => by cases hown⟩

theorem rank_le (h : s.Tidy) : s.rank ≤ 9 * s.count + 15 := by
  have hmain : s.main.rank s.count ≤ 6 * s.count + 12 := by
    have hrange := h.inRange
    cases hmain : s.main with
    | stopping pc => cases pc <;> simp only [MainPc.rank] <;> omega
    | _ =>
      simp only [MainPc.rank]
      omega
  have hloop : ∀ pc : LoopPc, pc.rank ≤ 3 := fun pc => by cases pc <;> simp [LoopPc.rank]
  have hsum : ∑ k ∈ Finset.range s.count, (s.loop (some k)).rank ≤ s.count * 3 := by
    have := Finset.sum_le_card_nsmul (Finset.range s.count) (fun k => (s.loop (some k)).rank) 3
      fun k _ => hloop _
    simpa using this
  have := hloop (s.loop none)
  unfold rank
  omega

/-- **A servlet that is stopped has a bounded number of steps left**, apart from those that serve
one more request of a connection that is kept. -/
theorem length_own_le (hrun : runLabels step (start count listening) actions = some s)
    (hstop : s.server.running = false) (hrest : runLabels step s actions' = some s') :
    (actions'.filter Action.own).length ≤ 9 * count + 15 := by
  have horderly := orderly_of_run hrun
  have hbound := rank_le horderly.toTidy
  rw [horderly.count] at hbound
  have hsum := length_filter_add_le (I := fun u => u.Orderly count listening ∧
    u.server.running = false) rank (fun u b u' hu hstep => by
      obtain ⟨hrunning, hrank⟩ := hu.1.rank_step hu.2 hstep
      exact ⟨⟨hu.1.step hstep, hrunning⟩, hrank⟩) ⟨horderly, hstop⟩ hrest
  omega

/-- One thread, stopped while both are in `accept`. -/
theorem own_lateSignal :
    ∃ s s', runLabels step (start 1 3) (lateSignal.take 11) = some s ∧
      runLabels step s (lateSignal.drop 11) = some s' ∧
      ((lateSignal.drop 11).filter Action.own).length ≤ 9 * 1 + 15 :=
  ⟨_, _, rfl, rfl, length_own_le
    (show runLabels step (start 1 3) (lateSignal.take 11) = some _ from rfl) rfl rfl⟩

/-- The step does not need a client, nor a new signal: a thread that serves a client may have to
wait for its next request. -/
def Alone (s : ServletRun) : Action → Prop
  | .main _ => True
  | .loop who c => c = .goOn ∧ s.loop who ≠ .serving
  | .signal id => s.signal id ≠ none

/-- The thread that the main thread waits for. -/
def Awaits (s : ServletRun) : Option ℕ → Prop
  | none => s.main = .looping
  | some k => s.main = .joining k ∧ k < s.count

theorem isSome_step (hfault : s.fault = none) (hgo : (s.goOn a).isSome = true) :
    (s.step a).isSome = true := by
  simpa [step, hfault] using hgo

theorem LoopPc.isSome_next {pc : LoopPc} {running shut : Bool} (hidle : ¬ pc.Idle)
    (hblocked : pc = .blocked → shut = true) : (pc.next running shut .goOn).isSome = true := by
  cases pc with
  | absent => exact absurd (.inl rfl) hidle
  | returned => exact absurd (.inr rfl) hidle
  | blocked => simp [LoopPc.next, hblocked rfl]
  | _ => rfl

/-- Where a thread has to end, somebody can go on: itself, or the handler that is to wake it. -/
theorem exists_alone_of_loop (h : s.Listened listening) (hfault : s.fault = none)
    (hstop : s.server.running = false) (hmain : s.main ≠ .stopping .close)
    (hidle : ¬ (s.loop who).Idle) (hserving : s.loop who ≠ .serving) :
    ∃ a, s.Alone a ∧ (s.step a).isSome = true := by
  by_cases hshut : s.shut = true
  · refine ⟨.loop who .goOn, ⟨rfl, hserving⟩, isSome_step hfault ?_⟩
    simpa [goOn, loopStep] using LoopPc.isSome_next hidle fun _ => hshut
  · -- the socket is not shut down, so somebody is in front of that
    rcases h.shutting.closing hstop with hmem | hclose | ⟨id, hid⟩
    · exact absurd (by simp [shut, List.ne_nil_of_mem hmem]) hshut
    · exact absurd hclose hmain
    · exact ⟨.signal id, by simp [Alone, hid], isSome_step hfault rfl⟩

/-- **Nobody waits forever but for a client** : once the server is stopped, and as long as the main
thread is not done, the main thread, a thread or the signal handler can go on, or the main thread
waits for a thread that serves a client. -/
theorem exists_alone_step (hrun : runLabels step (start count listening) actions = some s)
    (hfault : s.fault = none) (hstop : s.server.running = false) (hdone : s.main ≠ .done) :
    (∃ a, s.Alone a ∧ (s.step a).isSome = true) ∨
      ∃ who, s.Awaits who ∧ s.loop who = .serving := by
  have h := orderly_of_run hrun
  by_cases hgo : (s.mainStep true).isSome = true
  · exact .inl ⟨.main true, trivial, isSome_step hfault hgo⟩
  · -- the main thread waits for itself or for a thread
    have hwaits : ∀ who, s.Awaits who → s.main ≠ .stopping .close → ¬ (s.loop who).Idle →
        (∃ a, s.Alone a ∧ (s.step a).isSome = true) ∨
          ∃ who, s.Awaits who ∧ s.loop who = .serving := by
      intro who hawaits hmain hidle
      by_cases hserving : s.loop who = .serving
      · exact .inr ⟨who, hawaits, hserving⟩
      · exact .inl (exists_alone_of_loop h.listened hfault hstop hmain hidle hserving)
    unfold mainStep at hgo
    split at hgo
    · split_ifs at hgo <;> simp at hgo
    · next hmain =>
      refine hwaits none hmain (by simp [hmain]) ?_
      rintro (habsent | hreturned)
      · exact h.awake hmain habsent
      · simp [hreturned] at hgo
    · simp at hgo
    · next k hmain =>
      split_ifs at hgo with hk
      · refine hwaits (some k) ⟨hmain, hk⟩ (by simp [hmain]) ?_
        rintro (habsent | hreturned)
        · simp [habsent] at hgo
        · simp [hreturned] at hgo
      · simp at hgo
    · simp at hgo
    · simp at hgo
    · split at hgo <;> simp at hgo
    · simp at hgo
    · simp at hgo
    · next hmain => exact absurd hmain hdone

/-- There, the handler has not shut down the socket yet, and both wait for it. -/
theorem alone_lateSignal :
    ∃ s, runLabels step (start 1 3) (lateSignal.take 11) = some s ∧ s.shut = false ∧
      ∃ a, s.Alone a ∧ (s.step a).isSome = true := by
  refine ⟨_, rfl, rfl, (exists_alone_step
    (show runLabels step (start 1 3) (lateSignal.take 11) = some _ from rfl) rfl rfl
    (by decide)).resolve_right ?_⟩
  rintro ⟨_ | k, hawaits, hserving⟩
  · cases hserving
  · cases hawaits.1

end ServletRun

end Highway
