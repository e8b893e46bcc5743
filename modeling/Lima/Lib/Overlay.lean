import Mathlib

/-!
# Overlays of functions on an index interval

Loops that store into consecutive cells compute an overlay: outside an interval
the function is unchanged, inside it is given by an index. `fill` is that
overlay. The recursion lemmas peel one cell off the front, the way a loop with
an advancing pointer does; the algebra lemmas say how a second pass over the
same interval undoes the first.
-/

namespace Overlay

variable {α : Type*}

/-- `f`, except that cell `lo + k` holds `g k` for `k < n`. -/
def fill (f : ℕ → α) (lo n : ℕ) (g : ℕ → α) : ℕ → α :=
  fun i => if lo ≤ i ∧ i < lo + n then g (i - lo) else f i

theorem fill_of_mem {f g : ℕ → α} {lo n i : ℕ} (h : lo ≤ i ∧ i < lo + n) :
    fill f lo n g i = g (i - lo) := if_pos h

theorem fill_of_not_mem {f g : ℕ → α} {lo n i : ℕ}
    (h : ¬ (lo ≤ i ∧ i < lo + n)) : fill f lo n g i = f i := if_neg h

@[simp] theorem fill_zero (f g : ℕ → α) (lo : ℕ) : fill f lo 0 g = f := by
  funext i
  exact fill_of_not_mem (by omega)

/-- Storing the first cell and then filling the rest is filling the whole. -/
theorem fill_succ (f g : ℕ → α) (lo n : ℕ) :
    fill f lo (n + 1) g =
      fill (Function.update f lo (g 0)) (lo + 1) n fun k => g (k + 1) := by
  funext i
  by_cases hi : lo + 1 ≤ i ∧ i < lo + 1 + n
  · rw [fill_of_mem hi, fill_of_mem (by omega)]
    congr 1
    omega
  · rw [fill_of_not_mem hi]
    by_cases hlo : i = lo
    · subst hlo
      rw [Function.update_self, fill_of_mem (by omega), Nat.sub_self]
    · rw [Function.update_of_ne hlo, fill_of_not_mem (by omega)]

/-- A second pass over the same interval hides the first. -/
theorem fill_fill (f g g' : ℕ → α) (lo n : ℕ) :
    fill (fill f lo n g) lo n g' = fill f lo n g' := by
  funext i
  by_cases hi : lo ≤ i ∧ i < lo + n
  · rw [fill_of_mem hi, fill_of_mem hi]
  · rw [fill_of_not_mem hi, fill_of_not_mem hi, fill_of_not_mem hi]

/-- Filling an interval with what it already holds changes nothing. -/
theorem fill_eq_self {f g : ℕ → α} {lo n : ℕ}
    (h : ∀ k < n, f (lo + k) = g k) : fill f lo n g = f := by
  funext i
  by_cases hi : lo ≤ i ∧ i < lo + n
  · rw [fill_of_mem hi, ← h (i - lo) (by omega)]
    congr 1
    omega
  · exact fill_of_not_mem hi

theorem fill_congr {f g g' : ℕ → α} {lo n : ℕ} (h : ∀ k < n, g k = g' k) :
    fill f lo n g = fill f lo n g' := by
  funext i
  by_cases hi : lo ≤ i ∧ i < lo + n
  · rw [fill_of_mem hi, fill_of_mem hi, h _ (by omega)]
  · rw [fill_of_not_mem hi, fill_of_not_mem hi]

end Overlay
