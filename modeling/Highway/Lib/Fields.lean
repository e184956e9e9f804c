import Mathlib.Data.List.Basic
import Mathlib.Data.List.DropRight
import Mathlib.Data.List.TakeWhile

/-!
# Cutting a list at a delimiter

`fields d k l` cuts `l` at its first `k` delimiters `d`, so it has at most `k + 1` parts and the
last part keeps the delimiters that are left.  `trimWith` removes a class of elements at both
ends of a list, with the one irregularity that readers which look at the element *behind* the
list show: a list of such elements only gives that element unless it is of the class, too.
-/

namespace Lib

variable {α : Type*}

section Fields

variable [DecidableEq α] {d : α}

/-- Cut a list at its first `k` delimiters. -/
def fields (d : α) : ℕ → List α → List (List α)
  | 0, l => [l]
  | k + 1, l =>
    if d ∈ l then l.takeWhile (· ≠ d) :: fields d k ((l.dropWhile (· ≠ d)).drop 1) else [l]

theorem fields_of_not_mem {l : List α} (h : d ∉ l) (k : ℕ) : fields d k l = [l] := by
  cases k <;> simp [fields, h]

theorem fields_append {a : List α} (h : d ∉ a) (k : ℕ) (r : List α) :
    fields d (k + 1) (a ++ d :: r) = a :: fields d k r := by
  have ha : ∀ x ∈ a, decide (x ≠ d) = true := fun x hx => by
    simpa using ne_of_mem_of_not_mem hx h
  rw [fields, if_pos (by simp), List.takeWhile_append_of_pos ha, List.dropWhile_append_of_pos ha]
  simp

theorem fields_ne_nil (k : ℕ) (l : List α) : fields d k l ≠ [] := by
  cases k with
  | zero => exact List.cons_ne_nil _ _
  | succ k =>
    rw [fields]
    split_ifs
    · exact List.cons_ne_nil _ _
    · exact List.cons_ne_nil _ _

/-- A list is cut at its delimiters, as far as it may be cut. -/
theorem length_fields (k : ℕ) (l : List α) :
    (fields d k l).length = min (k + 1) (1 + l.count d) := by
  induction k generalizing l with
  | zero =>
    rw [fields, List.length_singleton]
    omega
  | succ k ih =>
    by_cases hd : d ∈ l
    · obtain ⟨a, r, rfl, ha⟩ := List.eq_append_cons_of_mem hd
      rw [fields_append ha, List.length_cons, ih, List.count_append, List.count_cons_self,
        List.count_eq_zero_of_not_mem ha]
      omega
    · rw [fields_of_not_mem hd, List.length_singleton, List.count_eq_zero_of_not_mem hd]
      omega

/-- **Joining the parts gives back the list.** -/
theorem intercalate_fields (k : ℕ) (l : List α) : [d].intercalate (fields d k l) = l := by
  induction k generalizing l with
  | zero => exact List.intercalate_singleton
  | succ k ih =>
    by_cases hd : d ∈ l
    · obtain ⟨a, r, rfl, ha⟩ := List.eq_append_cons_of_mem hd
      rw [fields_append ha, List.intercalate_cons_of_ne_nil (fields_ne_nil k r), ih,
        List.append_assoc, List.singleton_append]
    · rw [fields_of_not_mem hd, List.intercalate_singleton]

theorem not_mem_of_mem_dropLast_fields {k : ℕ} {l f : List α}
    (h : f ∈ (fields d k l).dropLast) : d ∉ f := by
  induction k generalizing l with
  | zero => cases h
  | succ k ih =>
    by_cases hd : d ∈ l
    · obtain ⟨a, r, rfl, ha⟩ := List.eq_append_cons_of_mem hd
      rw [fields_append ha, List.dropLast_cons_of_ne_nil (fields_ne_nil k r)] at h
      rcases List.mem_cons.1 h with rfl | h
      · exact ha
      · exact ih h
    · rw [fields_of_not_mem hd] at h
      cases h

/-- The last part contains the delimiter only if the list has not been cut at all of them. -/
theorem length_fields_of_mem_last {k : ℕ} {l f : List α} (h : f ∈ (fields d k l).getLast?)
    (hf : d ∈ f) : (fields d k l).length = k + 1 := by
  induction k generalizing l with
  | zero => rfl
  | succ k ih =>
    by_cases hd : d ∈ l
    · obtain ⟨a, r, rfl, ha⟩ := List.eq_append_cons_of_mem hd
      rw [fields_append ha, List.getLast?_cons_of_ne_nil (fields_ne_nil k r)] at h
      rw [fields_append ha, List.length_cons, ih h]
    · rw [fields_of_not_mem hd, List.getLast?_singleton, Option.mem_some_iff] at h
      exact absurd (h ▸ hf) hd

end Fields

/-- Only one end of a list begins with its last delimiter. -/
theorem cons_suffix_iff {d : α} {p r w : List α} (hr : d ∉ r) (hw : d ∉ w) :
    d :: w <:+ p ++ d :: r ↔ w = r := by
  have hend : ∀ {a b : List α}, d ∉ b → d :: a <:+ d :: b → a = b := by
    intro a b hb h
    rcases List.suffix_cons_iff.1 h with heq | hlt
    · exact (List.cons.inj heq).2
    · exact absurd (hlt.subset List.mem_cons_self) hb
  constructor
  · intro h
    rcases List.suffix_or_suffix_of_suffix h (List.suffix_append p (d :: r)) with h | h
    · exact hend hr h
    · exact (hend hw h).symm
  · rintro rfl
    exact List.suffix_append p _

section Trim

variable {p : α → Bool}

/-- Drop the elements with `p` at both ends of `l`; when there are only such elements, what is
left is the element `next` behind the list, if it lacks `p`. -/
def trimWith (p : α → Bool) (next : α) (l : List α) : List α :=
  if l = [] then []
  else if l.all p then (if p next then [] else [next])
  else (l.dropWhile p).rdropWhile p

/-- Behind a list that is followed by an element of the class, `trimWith` is the plain trim. -/
theorem trimWith_of_next {next : α} (h : p next = true) (l : List α) :
    trimWith p next l = (l.dropWhile p).rdropWhile p := by
  unfold trimWith
  split_ifs with h₁ h₂
  · simp [h₁]
  · have : l.dropWhile p = [] := List.dropWhile_eq_nil_iff.2 (List.all_eq_true.1 h₂)
    rw [this, List.rdropWhile_nil]
  · rfl

/-- A list with an element outside the class is trimmed plainly, whatever follows it. -/
theorem trimWith_of_exists {next : α} {l : List α} (h : ∃ x ∈ l, p x = false) :
    trimWith p next l = (l.dropWhile p).rdropWhile p := by
  obtain ⟨x, hx, hpx⟩ := h
  rw [trimWith, if_neg (List.ne_nil_of_mem hx), if_neg]
  intro hall
  simp [List.all_eq_true.1 hall x hx] at hpx

theorem rdropWhile_append_of_pos {a b : List α} (h : ∀ x ∈ b, p x = true) :
    (a ++ b).rdropWhile p = a.rdropWhile p := by
  rw [List.rdropWhile, List.reverse_append, List.dropWhile_append_of_pos (by simpa using h),
    List.rdropWhile]

/-- What stands between elements of the class, and has none of them at its ends, is what the trim
leaves. -/
theorem trim_append {a b v : List α} (hb : ∀ x ∈ b, p x = true) (ha : ∀ x ∈ a, p x = true)
    (hhead : ∀ x ∈ v.head?, p x = false) (hlast : ∀ x ∈ v.getLast?, p x = false) :
    ((b ++ (v ++ a)).dropWhile p).rdropWhile p = v := by
  have hleft : ∀ {l r : List α}, (∀ x ∈ l.head?, p x = false) → l ≠ [] →
      (l ++ r).dropWhile p = l ++ r := by
    intro l r hl hne
    cases l with
    | nil => exact absurd rfl hne
    | cons x l => rw [List.cons_append, List.dropWhile_cons_of_neg (by simp [hl x rfl])]
  rw [List.dropWhile_append_of_pos hb]
  rcases eq_or_ne v [] with rfl | hne
  · rw [List.nil_append, List.dropWhile_eq_nil_iff.2 ha, List.rdropWhile_nil]
  · have hrev := hleft (l := v.reverse) (r := []) (by simpa using hlast) (by simpa using hne)
    rw [hleft hhead hne, List.rdropWhile, List.reverse_append,
      List.dropWhile_append_of_pos (by simpa using ha)]
    rw [List.append_nil] at hrev
    rw [hrev, List.reverse_reverse]

end Trim

end Lib
