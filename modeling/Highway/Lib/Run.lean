import Mathlib.Data.Nat.Basic
import Mathlib.Data.List.Basic
import Mathlib.Logic.Relation

/-!
# Runs of step machines

Two kinds of machines, and the induction over their runs, stated once.

* A *deterministic* machine is a function `step : S → S` with a test `final` for the states
  where it has stopped.  `Visited` collects the states of a run, `runFuel` executes it, and a
  measure that decreases at every step shows that enough fuel reaches a final state
  (`final_runFuel`).
* A *labelled* machine is a partial function `step : S → L → Option S`: the labels are chosen
  from outside (an interleaving, a sequence of calls), the state reached is determined.
  `runLabels` executes a list of labels, `Passes` collects the states of a run, and `AllSteps`
  states that every step of such a run meets a condition on the state before it.

A step of a labelled machine is often made of smaller changes, a relation `R` on its states, so that
a run is a path of changes (`reflTransGen_of_runLabels`); an invariant is then one case for each
kind of change (`invariant_of_reflTransGen`).

Invariants come in a guarded form: a step may use that it belongs to the run at hand, so a
condition on the states of the run is available when the invariant is re-established.
-/

namespace Lib

variable {S T L : Type*}

/-! ### Deterministic machines -/

section Deterministic

variable {step : S → S} {final : S → Bool}

/-- The states a machine passes through from `s`, the last one included. -/
inductive Visited (step : S → S) (final : S → Bool) (s : S) : S → Prop
  | refl : Visited step final s s
  | tail {t : S} : Visited step final s t → final t = false → Visited step final s (step t)

/-- Execute at most `n` steps, stopping at a final state. -/
def runFuel (step : S → S) (final : S → Bool) : ℕ → S → S
  | 0, s => s
  | n + 1, s => if final s then s else runFuel step final n (step s)

theorem Visited.head {s t : S} (hf : final s = false) (h : Visited step final (step s) t) :
    Visited step final s t := by
  induction h with
  | refl => exact .tail .refl hf
  | tail _ hft ih => exact .tail ih hft

theorem Visited.cases_head {s t : S} (h : Visited step final s t) :
    t = s ∨ final s = false ∧ Visited step final (step s) t := by
  induction h with
  | refl => exact .inl rfl
  | tail _ hft ih =>
    rcases ih with rfl | ⟨hf, hv⟩
    · exact .inr ⟨hft, .refl⟩
    · exact .inr ⟨hf, hv.tail hft⟩

theorem Visited.trans {s t u : S} (ht : Visited step final s t) (hu : Visited step final t u) :
    Visited step final s u := by
  induction hu with
  | refl => exact ht
  | tail _ hf ih => exact ih.tail hf

/-- Of two states of a run, one comes after the other. -/
theorem Visited.total {s t u : S} (ht : Visited step final s t) (hu : Visited step final s u) :
    Visited step final t u ∨ Visited step final u t := by
  induction ht with
  | refl => exact .inl hu
  | tail _ hft ih =>
    rcases ih with h | h
    · rcases h.cases_head with rfl | ⟨-, h⟩
      · exact .inr (.tail .refl hft)
      · exact .inl h
    · exact .inr (h.tail hft)

theorem Visited.of_final {s t u : S} (hu : Visited step final s u) (ht : Visited step final s t)
    (hft : final t = true) : Visited step final u t := by
  rcases hu.total ht with h | h
  · exact h
  · rcases h.cases_head with rfl | ⟨hf, -⟩
    · exact .refl
    · simp [hft] at hf

theorem Visited.exists_last {s t : S} (h : Visited step final s t) (hne : final s ≠ final t) :
    ∃ u, Visited step final s u ∧ final u = false ∧ t = step u := by
  cases h with
  | refl => exact absurd rfl hne
  | tail hu hf => exact ⟨_, hu, hf, rfl⟩

theorem Visited.eq_of_final {s t u : S} (ht : Visited step final s t)
    (hu : Visited step final s u) (hft : final t = true) (hfu : final u = true) : t = u := by
  rcases (ht.of_final hu hfu).cases_head with rfl | ⟨hf, -⟩
  · rfl
  · simp [hft] at hf

/-- A predicate that holds at the start and is preserved by the steps of the run holds at every
state of the run. -/
theorem Visited.invariant {I : S → Prop} {s t : S} (h : Visited step final s t) (h₀ : I s)
    (hstep : ∀ u, Visited step final s u → final u = false → I u → I (step u)) : I t := by
  induction h with
  | refl => exact h₀
  | tail hv hf ih => exact hstep _ hv hf ih

/-- What every step but a bad one preserves holds, unless a bad one has been made. -/
theorem Visited.invariant_or {I B : S → Prop} {s t : S} (h : Visited step final s t) (h₀ : I s)
    (hstep : ∀ u, Visited step final s u → final u = false → ¬ B u → I u → I (step u)) :
    I t ∨ ∃ u, Visited step final s u ∧ B u ∧ Visited step final u t := by
  induction h with
  | refl => exact .inl h₀
  | @tail t hv hf ih =>
    rcases ih with hI | ⟨u, hu, hB, hut⟩
    · by_cases hB : B t
      · exact .inr ⟨t, hv, hB, .tail .refl hf⟩
      · exact .inl (hstep t hv hf hB hI)
    · exact .inr ⟨u, hu, hB, hut.tail hf⟩

theorem visited_runFuel (n : ℕ) (s : S) : Visited step final s (runFuel step final n s) := by
  induction n generalizing s with
  | zero => exact .refl
  | succ n ih =>
    simp only [runFuel]
    split_ifs with hf
    · exact .refl
    · exact (ih (step s)).head (by simpa using hf)

theorem runFuel_of_final {s : S} (h : final s = true) (n : ℕ) : runFuel step final n s = s := by
  cases n <;> simp [runFuel, h]

/-- Test the states of a run, for at most `n` steps. -/
def testFuel (step : S → S) (final : S → Bool) (p : S → Bool) : ℕ → S → Bool
  | 0, _ => false
  | n + 1, s => p s && (final s || testFuel step final p n (step s))

/-- A run that passes the test within the fuel has it in all its states. -/
theorem of_testFuel {p : S → Bool} {n : ℕ} {s t : S} (h : testFuel step final p n s = true)
    (hv : Visited step final s t) : p t = true := by
  have hinv : p t = true ∧ (final t = false → ∃ k, testFuel step final p k (step t) = true) := by
    have hstep : ∀ {k u}, testFuel step final p k u = true →
        p u = true ∧ (final u = false → ∃ k, testFuel step final p k (step u) = true) := by
      intro k u hu
      cases k with
      | zero => simp [testFuel] at hu
      | succ k =>
        simp only [testFuel, Bool.and_eq_true, Bool.or_eq_true] at hu
        exact ⟨hu.1, fun hf => ⟨k, hu.2.resolve_left (by simp [hf])⟩⟩
    induction hv with
    | refl => exact hstep h
    | tail hv hf ih =>
      obtain ⟨k, hk⟩ := ih.2 hf
      exact hstep hk
  exact hinv.1

/-- How many of the states of a run have `p`, within `n` steps; a final state does not count. -/
def countFuel (step : S → S) (final : S → Bool) (p : S → Bool) : ℕ → S → ℕ
  | 0, _ => 0
  | n + 1, s =>
    if final s then 0 else (if p s then 1 else 0) + countFuel step final p n (step s)

/-- A measure that never grows, and decreases where `p` holds, bounds how often it does. -/
theorem countFuel_le {I : S → Prop} {p : S → Bool} (μ : S → ℕ)
    (hstep : ∀ u, I u → final u = false →
      I (step u) ∧ μ (step u) ≤ μ u ∧ (p u = true → μ (step u) < μ u)) {s : S} (h₀ : I s) (n : ℕ) :
    countFuel step final p n s ≤ μ s := by
  induction n generalizing s with
  | zero => exact Nat.zero_le _
  | succ n ih =>
    simp only [countFuel]
    split_ifs with hf hp
    · exact Nat.zero_le _
    · obtain ⟨hI, -, hlt⟩ := hstep s h₀ (by simpa using hf)
      have := ih hI
      have := hlt hp
      omega
    · obtain ⟨hI, hle, -⟩ := hstep s h₀ (by simpa using hf)
      have := ih hI
      omega

/-- A measure that decreases at every step of the run bounds the fuel it needs. -/
theorem final_runFuel {I : S → Prop} (μ : S → ℕ)
    (hstep : ∀ u, I u → final u = false → I (step u) ∧ μ (step u) < μ u) {n : ℕ} {s : S}
    (h₀ : I s) (hn : μ s < n) : final (runFuel step final n s) = true := by
  induction n generalizing s with
  | zero => omega
  | succ n ih =>
    simp only [runFuel]
    split_ifs with hf
    · exact hf
    · obtain ⟨hI, hlt⟩ := hstep s h₀ (by simpa using hf)
      exact ih hI (by omega)

/-- Two machines in lock step: a relation that holds at the start, is preserved along the first
run and agrees on finality relates the states they stop in. -/
theorem runFuel_related {step' : T → T} {final' : T → Bool} {R : S → T → Prop}
    {s : S} {s' : T} (h₀ : R s s') (hfin : ∀ u u', R u u' → final u = final' u')
    (hstep : ∀ u u', Visited step final s u → final u = false → R u u' →
      R (step u) (step' u')) (n : ℕ) :
    R (runFuel step final n s) (runFuel step' final' n s') := by
  induction n generalizing s s' with
  | zero => exact h₀
  | succ n ih =>
    simp only [runFuel, ← hfin _ _ h₀]
    split_ifs with hf
    · exact h₀
    · have hf' : final s = false := by simpa using hf
      exact ih (hstep _ _ .refl hf' h₀) fun u u' hv => hstep u u' (hv.head hf')

end Deterministic

/-! ### Labelled machines -/

section Labelled

variable {step : S → L → Option S}

/-- Perform the steps `ls` in order; `none` as soon as one of them is not possible. -/
def runLabels (step : S → L → Option S) : S → List L → Option S
  | s, [] => some s
  | s, l :: ls => (step s l).bind fun s' => runLabels step s' ls

@[simp] theorem runLabels_nil (s : S) : runLabels step s [] = some s := rfl

theorem runLabels_cons (s : S) (l : L) (ls : List L) :
    runLabels step s (l :: ls) = (step s l).bind fun s' => runLabels step s' ls := rfl

theorem runLabels_append (s : S) (ls ls' : List L) :
    runLabels step s (ls ++ ls') = (runLabels step s ls).bind fun s' => runLabels step s' ls' := by
  induction ls generalizing s with
  | nil => rfl
  | cons l ls ih =>
    simp only [List.cons_append, runLabels_cons, Option.bind_assoc]
    exact congrArg _ (funext ih)

/-- What every step of a run preserves holds at its end. -/
theorem invariant_of_runLabels {I : S → Prop} {s s' : S} {ls : List L}
    (hstep : ∀ u u', ∀ l ∈ ls, I u → step u l = some u' → I u') (h₀ : I s)
    (hr : runLabels step s ls = some s') : I s' := by
  induction ls generalizing s with
  | nil => cases hr; exact h₀
  | cons l ls ih =>
    obtain ⟨u, hu, hr⟩ := Option.bind_eq_some_iff.1 hr
    exact ih (fun v v' l' hl' => hstep v v' l' (List.mem_cons_of_mem _ hl'))
      (hstep s u l (by simp) h₀ hu) hr

/-- A machine that follows every step of another follows its runs. -/
theorem related_of_runLabels {R : S → T → Prop} {f : T → L → T}
    (hstep : ∀ u u' l t, R u t → step u l = some u' → R u' (f t l)) {s s' : S} {t : T} {ls : List L}
    (h₀ : R s t) (hr : runLabels step s ls = some s') : R s' (ls.foldl f t) := by
  induction ls generalizing s t with
  | nil => cases hr; exact h₀
  | cons l ls ih =>
    obtain ⟨u, hu, hr⟩ := Option.bind_eq_some_iff.1 hr
    exact ih (hstep s u l t h₀ hu) hr

/-- How many steps of the run of `ls` from `s` count; `counts` sees the state before the step. -/
def countSteps (step : S → L → Option S) (counts : S → L → Bool) : S → List L → ℕ
  | _, [] => 0
  | s, l :: ls =>
    (if counts s l then 1 else 0) +
      match step s l with
      | some s' => countSteps step counts s' ls
      | none => 0

/-- The steps that count by their label alone. -/
theorem countSteps_of_label {counts : L → Bool} {s s' : S} {ls : List L}
    (hr : runLabels step s ls = some s') :
    countSteps step (fun _ => counts) s ls = (ls.filter counts).length := by
  induction ls generalizing s with
  | nil => rfl
  | cons l ls ih =>
    obtain ⟨u, hu, hr⟩ := Option.bind_eq_some_iff.1 hr
    simp only [countSteps, hu, ih hr, List.filter_cons]
    split_ifs <;> simp [Nat.add_comm]

/-- Every step of the run of `ls` from `s` meets `G`, which sees the state before the step. -/
def AllSteps (step : S → L → Option S) (G : S → L → Prop) : S → List L → Prop
  | _, [] => True
  | s, l :: ls => G s l ∧ ∀ s', step s l = some s' → AllSteps step G s' ls

/-- Test the steps of the run of `ls` from `s`. -/
def testSteps (step : S → L → Option S) (G : S → L → Bool) : S → List L → Bool
  | _, [] => true
  | s, l :: ls =>
    G s l &&
      match step s l with
      | some s' => testSteps step G s' ls
      | none => true

theorem allSteps_of_testSteps {G : S → L → Bool} {s : S} {ls : List L}
    (h : testSteps step G s ls = true) : AllSteps step (fun s l => G s l = true) s ls := by
  induction ls generalizing s with
  | nil => trivial
  | cons l ls ih =>
    obtain ⟨hG, hs⟩ := (Bool.and_eq_true _ _).mp h
    refine ⟨hG, fun s' hs' => ih ?_⟩
    simpa only [hs'] using hs

theorem allSteps_true (s : S) (ls : List L) : AllSteps step (fun _ _ => True) s ls := by
  induction ls generalizing s with
  | nil => trivial
  | cons l ls ih => exact ⟨trivial, fun s' _ => ih s'⟩

theorem AllSteps.mono {G G' : S → L → Prop} (hG : ∀ s l, G s l → G' s l) {s : S} {ls : List L}
    (h : AllSteps step G s ls) : AllSteps step G' s ls := by
  induction ls generalizing s with
  | nil => trivial
  | cons l ls ih => exact ⟨hG _ _ h.1, fun s' hs' => ih (h.2 s' hs')⟩

theorem AllSteps.and {G G' : S → L → Prop} {s : S} {ls : List L} (h : AllSteps step G s ls)
    (h' : AllSteps step G' s ls) : AllSteps step (fun s l => G s l ∧ G' s l) s ls := by
  induction ls generalizing s with
  | nil => trivial
  | cons l ls ih => exact ⟨⟨h.1, h'.1⟩, fun s' hs' => ih (h.2 s' hs') (h'.2 s' hs')⟩

theorem AllSteps.append {G : S → L → Prop} {s s' : S} {ls ls' : List L}
    (h : AllSteps step G s (ls ++ ls')) (hr : runLabels step s ls = some s') :
    AllSteps step G s ls ∧ AllSteps step G s' ls' := by
  induction ls generalizing s with
  | nil => cases hr; exact ⟨trivial, h⟩
  | cons l ls ih =>
    obtain ⟨u, hu, hr⟩ := Option.bind_eq_some_iff.1 hr
    refine ⟨⟨h.1, fun v hv => ?_⟩, (ih (h.2 u hu) hr).2⟩
    obtain rfl : u = v := Option.some.inj (hu.symm.trans hv)
    exact (ih (h.2 u hu) hr).1

/-- A predicate preserved by every step that meets the guard holds at the end of every run whose
steps all meet it. -/
theorem AllSteps.invariant {G : S → L → Prop} {I : S → Prop}
    (hstep : ∀ s l s', G s l → I s → step s l = some s' → I s') {s s' : S} {ls : List L}
    (hg : AllSteps step G s ls) (h₀ : I s) (hr : runLabels step s ls = some s') : I s' := by
  induction ls generalizing s with
  | nil => cases hr; exact h₀
  | cons l ls ih =>
    obtain ⟨u, hu, hr⟩ := Option.bind_eq_some_iff.1 hr
    exact ih (hg.2 u hu) (hstep _ _ _ hg.1 h₀ hu) hr

/-- What a step loses exactly if it does not meet the guard, and none brings back, is there at the
end of the runs whose steps all meet it. -/
theorem iff_allSteps_of_runLabels {G : S → L → Prop} {I Q : S → Prop}
    (hstep : ∀ s l s', I s → step s l = some s' → I s' ∧ (Q s' ↔ Q s ∧ G s l)) {s s' : S}
    {ls : List L} (h₀ : I s) (hr : runLabels step s ls = some s') :
    Q s' ↔ Q s ∧ AllSteps step G s ls := by
  induction ls generalizing s with
  | nil =>
    obtain rfl := Option.some.inj hr
    exact (and_iff_left trivial).symm
  | cons l ls ih =>
    obtain ⟨u, hu, hr⟩ := Option.bind_eq_some_iff.1 hr
    obtain ⟨hI, hQ⟩ := hstep s l u h₀ hu
    rw [ih hI hr, hQ, and_assoc]
    refine and_congr_right fun _ => and_congr_right fun _ => ⟨fun h v hv => ?_, fun h => h u hu⟩
    obtain rfl : u = v := Option.some.inj (hu.symm.trans hv)
    exact h

/-- A measure that decreases at the steps that count bounds how many of them a run has, even if
what comes from outside makes it grow: the steps that add to the credit `c` may. -/
theorem AllSteps.countSteps_add_le {G : S → L → Prop} {I : S → Prop} {counts : S → L → Bool}
    (μ c : S → ℕ) {s s' : S} {ls : List L} (hg : AllSteps step G s ls)
    (hstep : ∀ u l u', G u l → I u → step u l = some u' →
      I u' ∧ (if counts u l then 1 else 0) + μ u' + c u ≤ μ u + c u') (h₀ : I s)
    (hr : runLabels step s ls = some s') :
    countSteps step counts s ls + μ s' + c s ≤ μ s + c s' := by
  induction ls generalizing s with
  | nil =>
    obtain rfl := Option.some.inj hr
    simp [countSteps]
  | cons l ls ih =>
    obtain ⟨u, hu, hr⟩ := Option.bind_eq_some_iff.1 hr
    obtain ⟨hI, hle⟩ := hstep s l u hg.1 h₀ hu
    have hrest := ih (hg.2 u hu) hI hr
    simp only [countSteps, hu]
    omega

/-- A measure that never grows, and decreases at the labels that count, bounds how many of them a
run has. -/
theorem length_filter_add_le {I : S → Prop} {counts : L → Bool} (μ : S → ℕ)
    (hstep : ∀ u l u', I u → step u l = some u' →
      I u' ∧ μ u' ≤ μ u ∧ (counts l = true → μ u' < μ u)) {s s' : S} {ls : List L} (h₀ : I s)
    (hr : runLabels step s ls = some s') : (ls.filter counts).length + μ s' ≤ μ s := by
  rw [← countSteps_of_label hr]
  refine (allSteps_true s ls).countSteps_add_le μ (fun _ => 0) (fun u l u' _ hI hu => ?_) h₀ hr
  obtain ⟨hI', hle, hlt⟩ := hstep u l u' hI hu
  refine ⟨hI', ?_⟩
  split_ifs with hl
  · have := hlt hl
    omega
  · omega

/-- The state `t` is one that the run of `ls` from `s` comes through. -/
def Passes (step : S → L → Option S) (s : S) (ls : List L) (t : S) : Prop :=
  ∃ before after, ls = before ++ after ∧ runLabels step s before = some t

theorem Passes.refl (s : S) (ls : List L) : Passes step s ls s := ⟨[], ls, rfl, rfl⟩

theorem Passes.of_run {s t : S} {ls : List L} (hr : runLabels step s ls = some t) :
    Passes step s ls t := ⟨ls, [], (List.append_nil ls).symm, hr⟩

theorem Passes.cons {s u t : S} {l : L} {ls : List L} (hu : step s l = some u)
    (h : Passes step u ls t) : Passes step s (l :: ls) t := by
  obtain ⟨before, after, rfl, hr⟩ := h
  exact ⟨l :: before, after, rfl, by rw [runLabels_cons, hu, Option.bind_some, hr]⟩

/-- The invariant of the run holds in every state that it comes through. -/
theorem AllSteps.invariant_passes {G : S → L → Prop} {I : S → Prop}
    (hstep : ∀ s l s', G s l → I s → step s l = some s' → I s') {s t : S} {ls : List L}
    (hg : AllSteps step G s ls) (h₀ : I s) (hp : Passes step s ls t) : I t := by
  obtain ⟨before, after, rfl, hr⟩ := hp
  exact (hg.append hr).1.invariant hstep h₀ hr

/-- Guards that agree where an invariant holds are met by the same runs. -/
theorem allSteps_congr {G G' : S → L → Prop} {I : S → Prop}
    (hI : ∀ s l s', I s → step s l = some s' → I s') (hG : ∀ s l, I s → (G s l ↔ G' s l))
    {s : S} {ls : List L} (h₀ : I s) : AllSteps step G s ls ↔ AllSteps step G' s ls := by
  induction ls generalizing s with
  | nil => exact Iff.rfl
  | cons l ls ih =>
    refine and_congr (hG s l h₀) (forall_congr' fun s' => ?_)
    exact forall_congr' fun hs' => ih (hI s l s' h₀ hs')

/-! ### Steps made of changes -/

section Changes

open Relation

variable {R : S → S → Prop} {I : S → Prop}

/-- What every change preserves holds at the end of a path. -/
theorem invariant_of_reflTransGen (hR : ∀ u u', R u u' → I u → I u') {s s' : S}
    (h : ReflTransGen R s s') (h₀ : I s) : I s' := by
  induction h with
  | refl => exact h₀
  | tail _ hstep ih => exact hR _ _ hstep ih

/-- A run whose steps are paths of changes is a path of changes.  The steps may use an invariant
of the changes. -/
theorem reflTransGen_of_runLabels (hR : ∀ u u', R u u' → I u → I u') {s s' : S} {ls : List L}
    (hstep : ∀ u u', ∀ l ∈ ls, I u → step u l = some u' → ReflTransGen R u u') (h₀ : I s)
    (hr : runLabels step s ls = some s') : ReflTransGen R s s' := by
  induction ls generalizing s with
  | nil => cases hr; exact .refl
  | cons l ls ih =>
    obtain ⟨u, hu, hr⟩ := Option.bind_eq_some_iff.1 hr
    have hpath := hstep s u l (by simp) h₀ hu
    exact hpath.trans (ih (fun v v' l' hl' => hstep v v' l' (List.mem_cons_of_mem _ hl'))
      (invariant_of_reflTransGen hR hpath h₀) hr)

end Changes

end Labelled

end Lib
