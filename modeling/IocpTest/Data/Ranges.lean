import Mathlib.Data.List.Basic
import Mathlib.Algebra.BigOperators.Group.List.Basic
import Mathlib.Algebra.GroupWithZero.Nat

/-!
# Ranges that follow each other

A range of positions is its start and its length. Ranges are contiguous from a start
when each begins where the one before ends. They then overlap nowhere and leave no
position out (`Contiguous.pairwise`, `Contiguous.covers`).
-/

namespace Ranges

/-- Each range begins where the one before ends, the first one at `start`. -/
def Contiguous : Nat → List (Nat × Nat) → Prop
  | _, [] => True
  | start, r :: rest => r.1 = start ∧ Contiguous (start + r.2) rest

/-- The number of positions in all ranges. -/
def total (ranges : List (Nat × Nat)) : Nat := (ranges.map Prod.snd).sum

@[simp] theorem total_nil : total [] = 0 := rfl

@[simp] theorem total_cons (r : Nat × Nat) (ranges : List (Nat × Nat)) :
    total (r :: ranges) = r.2 + total ranges := by
  simp [total]

@[simp] theorem total_append (first rest : List (Nat × Nat)) :
    total (first ++ rest) = total first + total rest := by
  simp [total]

variable {start : Nat} {ranges : List (Nat × Nat)}

theorem contiguous_append {first rest : List (Nat × Nat)} :
    Contiguous start (first ++ rest) ↔
      Contiguous start first ∧ Contiguous (start + total first) rest := by
  induction first generalizing start with
  | nil => simp [Contiguous]
  | cons r first ih =>
      rw [List.cons_append, Contiguous, Contiguous, ih, total_cons, and_assoc, Nat.add_assoc]

/-- One more range fits behind the others when it begins where they end. -/
theorem contiguous_concat {r : Nat × Nat} :
    Contiguous start (ranges ++ [r]) ↔ Contiguous start ranges ∧ r.1 = start + total ranges := by
  rw [contiguous_append, Contiguous, Contiguous, and_true]

namespace Contiguous

theorem start_le (h : Contiguous start ranges) : ∀ r ∈ ranges, start ≤ r.1 := by
  induction ranges generalizing start with
  | nil => simp
  | cons first rest ih =>
      obtain ⟨rfl, next⟩ := h
      rw [List.forall_mem_cons]
      exact ⟨Nat.le_refl _, fun r hr => Nat.le_of_add_right_le (ih next r hr)⟩

/-- A range ends before every later one begins. -/
theorem pairwise (h : Contiguous start ranges) :
    ranges.Pairwise fun first later => first.1 + first.2 ≤ later.1 := by
  induction ranges generalizing start with
  | nil => exact .nil
  | cons first rest ih =>
      obtain ⟨rfl, next⟩ := h
      exact .cons next.start_le (ih next)

/-- Every position from the start to the end lies in one of the ranges. -/
theorem covers (h : Contiguous start ranges) {x : Nat} (above : start ≤ x)
    (below : x < start + total ranges) : ∃ r ∈ ranges, r.1 ≤ x ∧ x < r.1 + r.2 := by
  induction ranges generalizing start with
  | nil =>
      rw [total_nil] at below
      omega
  | cons first rest ih =>
      obtain ⟨rfl, next⟩ := h
      rw [total_cons] at below
      by_cases here : x < first.1 + first.2
      · exact ⟨first, List.mem_cons_self, above, here⟩
      · obtain ⟨r, hr, hx⟩ := ih next (by omega) (by omega)
        exact ⟨r, List.mem_cons_of_mem _ hr, hx⟩

end Contiguous

end Ranges
