import Mathlib.Data.List.Basic
import Mathlib.Data.List.TakeDrop

/-!
# Reading a stream line by line

A reader of delimited lines is a function `f : σ → List α → σ ⊕ ρ` from its state and the next
line to either a new state or a result.  `scan` runs it over a stream one element at a time,
keeping the unfinished line, so that

* cutting the stream anywhere makes no difference (`scan_append`): the state after a prefix,
  resumed on the rest, is the state after the whole;
* a complete line is one call of `f` (`scan_line`), and a stream without a delimiter leaves the
  reader where it is (`scan_of_not_mem`).

This is what a reader that loses nothing between two receives computes; an implementation that
parses out of a buffer is compared with it.
-/

namespace Lib

variable {σ ρ α : Type*}

/-- What a line reader has made of a stream. -/
inductive Scan (σ ρ α : Type*) where
  /-- The stream ended inside a line, whose elements so far are `part`. -/
  | more (s : σ) (part : List α)
  /-- The reader stopped at the end of a line with result `r`; `rest` follows the line. -/
  | stop (r : ρ) (rest : List α)
  deriving DecidableEq

/-! ### Lists of lines -/

/-- The lines `ls`, each with its delimiter. -/
def unlines (d : α) (ls : List (List α)) : List α := (ls.map (· ++ [d])).flatten

@[simp] theorem unlines_nil (d : α) : unlines d [] = [] := rfl

@[simp] theorem unlines_cons (d : α) (l : List α) (ls : List (List α)) :
    unlines d (l :: ls) = l ++ d :: unlines d ls := by
  simp [unlines]

theorem unlines_append (d : α) (ls ls' : List (List α)) :
    unlines d (ls ++ ls') = unlines d ls ++ unlines d ls' := by
  simp [unlines]

variable [DecidableEq α] {d : α}

theorem count_unlines {ls : List (List α)} (h : ∀ l ∈ ls, d ∉ l) :
    (unlines d ls).count d = ls.length := by
  induction ls with
  | nil => rfl
  | cons l ls ih =>
    rw [unlines_cons, List.count_append, List.count_cons_self, List.count_eq_zero_of_not_mem
      (h l (by simp)), ih fun x hx => h x (List.mem_cons_of_mem _ hx), List.length_cons]
    omega

/-- The complete lines of a stream. -/
def lines (d : α) (xs : List α) : List (List α) := (xs.splitOn d).dropLast

theorem lines_line {l : List α} (hl : d ∉ l) (rest : List α) :
    lines d (l ++ d :: rest) = l :: lines d rest := by
  rw [lines, List.splitOn_append_cons_self_of_not_mem hl,
    List.dropLast_cons_of_ne_nil (List.splitOn_ne_nil _ _), lines]

theorem lines_unlines {ls : List (List α)} (h : ∀ l ∈ ls, d ∉ l) (rest : List α) :
    lines d (unlines d ls ++ rest) = ls ++ lines d rest := by
  induction ls with
  | nil => rfl
  | cons l ls ih =>
    obtain ⟨hl, hls⟩ := List.forall_mem_cons.1 h
    rw [unlines_cons, List.append_assoc, List.cons_append, lines_line hl, ih hls, List.cons_append]

/-! ### Scanning a stream -/

variable {f : σ → List α → σ ⊕ ρ}

/-- Run the reader `f` of lines ending in `d`, from state `s` inside the line `part`. -/
def scan (d : α) (f : σ → List α → σ ⊕ ρ) : σ → List α → List α → Scan σ ρ α
  | s, part, [] => .more s part
  | s, part, x :: xs =>
    if x = d then
      match f s part with
      | .inl s' => scan d f s' [] xs
      | .inr r => .stop r xs
    else scan d f s (part ++ [x]) xs

/-- Go on with the stream `ys` that follows. -/
def Scan.resume (d : α) (f : σ → List α → σ ⊕ ρ) (ys : List α) : Scan σ ρ α → Scan σ ρ α
  | .more s part => scan d f s part ys
  | .stop r rest => .stop r (rest ++ ys)

@[simp] theorem scan_nil (s : σ) (part : List α) : scan d f s part [] = .more s part := rfl

/-- **Where the stream is cut makes no difference.** -/
theorem scan_append (s : σ) (part xs ys : List α) :
    scan d f s part (xs ++ ys) = (scan d f s part xs).resume d f ys := by
  induction xs generalizing s part with
  | nil => rfl
  | cons x xs ih =>
    simp only [List.cons_append, scan]
    split_ifs with hx
    · cases f s part with
      | inl s' => exact ih s' []
      | inr r => rfl
    · exact ih s (part ++ [x])

theorem scan_of_not_mem {s : σ} {part l : List α} (hl : d ∉ l) :
    scan d f s part l = .more s (part ++ l) := by
  induction l generalizing part with
  | nil => simp
  | cons x l ih =>
    obtain ⟨hx, hl⟩ := not_or.1 (List.mem_cons.not.1 hl)
    rw [scan, if_neg (Ne.symm hx), ih hl, List.append_assoc, List.singleton_append]

theorem scan_line {s : σ} {part l rest : List α} (hl : d ∉ l) :
    scan d f s part (l ++ d :: rest) =
      match f s (part ++ l) with
      | .inl s' => scan d f s' [] rest
      | .inr r => .stop r rest := by
  rw [scan_append, scan_of_not_mem hl, Scan.resume, scan, if_pos rfl]

theorem scan_line_of_inl {s s' : σ} {l rest : List α} (hl : d ∉ l) (h : f s l = .inl s') :
    scan d f s [] (l ++ d :: rest) = scan d f s' [] rest := by
  rw [scan_line hl, List.nil_append, h]

theorem scan_line_of_inr {s : σ} {l rest : List α} {r : ρ} (hl : d ∉ l) (h : f s l = .inr r) :
    scan d f s [] (l ++ d :: rest) = .stop r rest := by
  rw [scan_line hl, List.nil_append, h]

/-- A stream on which the reader stops gives the same result whatever follows it. -/
theorem scan_append_of_stop {s : σ} {part xs rest : List α} {r : ρ}
    (h : scan d f s part xs = .stop r rest) (ys : List α) :
    scan d f s part (xs ++ ys) = .stop r (rest ++ ys) := by
  rw [scan_append, h, Scan.resume]

end Lib
