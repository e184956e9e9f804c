import Mathlib.Data.List.Basic

/-!
# Machines made of independent parts

A machine answers each of its inputs and goes on to another state; `respond` lists the inputs with
their answers.  When each input belongs to one part of the state, is answered from this part and
changes nothing but this part (`Local`), then what a part sees of a run is a run of its own, with
those inputs of the run that belong to it (`Local.respond`).
-/

namespace Lib

variable {S E I A K : Type*}

/-- The inputs with their answers, and the state behind them. -/
def respond (step : S → I → A × S) : S → List I → List (I × A) × S
  | s, [] => ([], s)
  | s, i :: is =>
    let (a, s) := step s i
    let (as, s) := respond step s is
    ((i, a) :: as, s)

section

variable {step : S → I → A × S} {s : S} {i : I} {is js : List I}

@[simp] theorem respond_nil : respond step s [] = ([], s) := rfl

theorem respond_cons : respond step s (i :: is) =
    ((i, (step s i).1) :: (respond step (step s i).2 is).1, (respond step (step s i).2 is).2) :=
  rfl

theorem respond_append : respond step s (is ++ js) =
    ((respond step s is).1 ++ (respond step (respond step s is).2 js).1,
      (respond step (respond step s is).2 js).2) := by
  induction is generalizing s with
  | nil => rfl
  | cons i is ih => simp only [List.cons_append, respond_cons, ih]

theorem map_fst_respond : (respond step s is).1.map Prod.fst = is := by
  induction is generalizing s with
  | nil => rfl
  | cons i is ih => rw [respond_cons, List.map_cons, ih]

/-- What every step preserves holds behind the inputs. -/
theorem invariant_of_respond {P : S → Prop} (hstep : ∀ s, ∀ i ∈ is, P s → P (step s i).2)
    (h : P s) : P (respond step s is).2 := by
  induction is generalizing s with
  | nil => exact h
  | cons i is ih =>
    obtain ⟨hi, his⟩ : (∀ s, P s → P (step s i).2) ∧ ∀ s, ∀ j ∈ is, P s → P (step s j).2 :=
      ⟨fun s => hstep s i List.mem_cons_self, fun s j hj => hstep s j (List.mem_cons_of_mem _ hj)⟩
    exact ih his (hi s h)

/-- If moreover the answers have a property where it holds, then all of them do. -/
theorem answers_of_respond {P : S → Prop} {Q : I → A → Prop}
    (hstep : ∀ s, ∀ i ∈ is, P s → P (step s i).2) (hanswer : ∀ s, ∀ i ∈ is, P s → Q i (step s i).1)
    (h : P s) : ∀ p ∈ (respond step s is).1, Q p.1 p.2 := by
  induction is generalizing s with
  | nil => exact fun _ hp => absurd hp List.not_mem_nil
  | cons i is ih =>
    refine List.forall_mem_cons.2 ⟨hanswer s i List.mem_cons_self h, ?_⟩
    exact ih (fun s j hj => hstep s j (List.mem_cons_of_mem _ hj))
      (fun s j hj => hanswer s j (List.mem_cons_of_mem _ hj)) (hstep s i List.mem_cons_self h)

end

/-- In the states with `P`, the inputs with a key from `B` belong to the part with this key. -/
structure Local (step : S → I → A × S) (part : E → I → A × E) (view : K → S → E) (key : I → K)
    (B : K → Prop) (P : S → Prop) : Prop where
  keeps : ∀ s i, P s → P (step s i).2
  own : ∀ s i, P s → B (key i) → (step s i).1 = (part (view (key i) s) i).1 ∧
    view (key i) (step s i).2 = (part (view (key i) s) i).2
  other : ∀ s i k, P s → B (key i) → B k → k ≠ key i → view k (step s i).2 = view k s

variable {step : S → I → A × S} {part : E → I → A × E} {view : K → S → E} {key : I → K}
  {B : K → Prop} {P : S → Prop}

/-- **What a part sees of a run is a run of its own.** -/
theorem Local.respond [DecidableEq K] (h : Local step part view key B P) {is : List I}
    (his : ∀ i ∈ is, B (key i)) {k : K} (hk : B k) {s : S} (hs : P s) :
    ((Lib.respond step s is).1.filter fun p => decide (key p.1 = k)) =
        (Lib.respond part (view k s) (is.filter fun i => decide (key i = k))).1 ∧
      view k (Lib.respond step s is).2 =
        (Lib.respond part (view k s) (is.filter fun i => decide (key i = k))).2 := by
  induction is generalizing s with
  | nil => exact ⟨rfl, rfl⟩
  | cons i is ih =>
    obtain ⟨hi, his⟩ := List.forall_mem_cons.1 his
    obtain ⟨hanswers, hview⟩ := ih his (h.keeps s i hs)
    rw [respond_cons]
    by_cases hkey : key i = k
    · subst hkey
      obtain ⟨hanswer, hown⟩ := h.own s i hs hi
      rw [hown] at hanswers hview
      rw [List.filter_cons_of_pos (by simp), List.filter_cons_of_pos (by simp), respond_cons,
        hanswers, hanswer]
      exact ⟨rfl, hview⟩
    · have hother := h.other s i k hs hi hk (Ne.symm hkey)
      rw [hother] at hanswers hview
      rw [List.filter_cons_of_neg (by simpa using hkey),
        List.filter_cons_of_neg (by simpa using hkey)]
      exact ⟨hanswers, hview⟩

end Lib
