import Mathlib.Data.List.Range
import Mathlib.Order.Bounds.Basic

/-!
# The longest run of successors received in order

A receiver that stands at `r` and sees the numbers `xs` one after another moves
to `r + 1` when it sees `r + 1`, then to `r + 2`, and ignores everything else.
`lastInOrder r xs` is where it ends. `lastInOrder_isGreatest` gives the meaning
of that fold without the fold: it is the greatest `n` for which `r + 1, …, n`
is a subsequence of `xs`.
-/

namespace Consecutive

/-- One observation of the receiver: only the next number moves it. -/
def observe (r x : Nat) : Nat := if x = r + 1 then x else r

/-- Where the receiver stands after a list of observations. -/
def lastInOrder (r : Nat) (xs : List Nat) : Nat := xs.foldl observe r

/-- The numbers after `r` up to `n` occur in this order. -/
def InOrder (r : Nat) (xs : List Nat) (n : Nat) : Prop :=
  r ≤ n ∧ (List.range' (r + 1) (n - r)).Sublist xs

@[simp] theorem lastInOrder_nil (r : Nat) : lastInOrder r [] = r := rfl

@[simp] theorem lastInOrder_cons (r x : Nat) (xs : List Nat) :
    lastInOrder r (x :: xs) = lastInOrder (observe r x) xs := rfl

@[simp] theorem lastInOrder_append (r : Nat) (xs ys : List Nat) :
    lastInOrder r (xs ++ ys) = lastInOrder (lastInOrder r xs) ys := by
  simp [lastInOrder]

@[simp] theorem observe_next (r : Nat) : observe r (r + 1) = r + 1 := by simp [observe]

theorem observe_of_ne {r x : Nat} (h : x ≠ r + 1) : observe r x = r := by simp [observe, h]

theorem le_observe (r x : Nat) : r ≤ observe r x := by
  by_cases h : x = r + 1
  · rw [h, observe_next]
    omega
  · rw [observe_of_ne h]

theorem le_lastInOrder (r : Nat) (xs : List Nat) : r ≤ lastInOrder r xs := by
  induction xs generalizing r with
  | nil => exact Nat.le_refl r
  | cons x xs ih => exact Nat.le_trans (le_observe r x) (ih (observe r x))

theorem observe_mono {r r' : Nat} (h : r ≤ r') (x : Nat) : observe r x ≤ observe r' x := by
  have le := le_observe r' x
  rw [observe]
  split
  · next next =>
      rcases Nat.eq_or_lt_of_le h with rfl | lt
      · rw [next, observe_next]
      · omega
  · omega

/-- A receiver that is ahead stays ahead. -/
theorem lastInOrder_mono {r r' : Nat} (h : r ≤ r') (xs : List Nat) :
    lastInOrder r xs ≤ lastInOrder r' xs := by
  induction xs generalizing r r' with
  | nil => exact h
  | cons x xs ih => exact ih (observe_mono h x)

theorem lastInOrder_take_le (r k : Nat) (xs : List Nat) :
    lastInOrder r (xs.take k) ≤ lastInOrder r xs := by
  have le := le_lastInOrder (lastInOrder r (xs.take k)) (xs.drop k)
  rwa [← lastInOrder_append, List.take_append_drop] at le

/-- What occurs in order up to `n` does so up to anything before. -/
theorem InOrder.anti {r m n : Nat} {xs : List Nat} (h : InOrder r xs n) (low : r ≤ m)
    (le : m ≤ n) : InOrder r xs m := by
  have shorter : (List.range' (r + 1) (m - r)).Sublist (List.range' (r + 1) (n - r)) :=
    List.range'_sublist_right.mpr (by omega)
  exact ⟨low, shorter.trans h.2⟩

private theorem range'_split {r n : Nat} (h : r < n) :
    List.range' (r + 1) (n - r) = (r + 1) :: List.range' (r + 1 + 1) (n - (r + 1)) := by
  obtain ⟨m, rfl⟩ : ∃ m, n = r + 1 + m := ⟨n - (r + 1), by omega⟩
  rw [show r + 1 + m - r = m + 1 by omega, show r + 1 + m - (r + 1) = m by omega,
    List.range'_succ]

/-- Everything up to the receiver's position did occur in order. -/
theorem lastInOrder_inOrder (r : Nat) (xs : List Nat) : InOrder r xs (lastInOrder r xs) := by
  induction xs generalizing r with
  | nil => simp [InOrder]
  | cons x xs ih =>
      refine ⟨le_lastInOrder r (x :: xs), ?_⟩
      by_cases h : x = r + 1
      · subst h
        have hlt : r < lastInOrder (r + 1) xs := le_lastInOrder (r + 1) xs
        rw [lastInOrder_cons, observe_next, range'_split hlt]
        exact (ih (r + 1)).2.cons_cons (r + 1)
      · rw [lastInOrder_cons, observe_of_ne h]
        exact (ih r).2.cons x

/-- Nothing beyond the receiver's position occurred in order. -/
theorem le_lastInOrder_of_inOrder {r n : Nat} {xs : List Nat} (h : InOrder r xs n) :
    n ≤ lastInOrder r xs := by
  induction xs generalizing r with
  | nil =>
      have hnil := List.eq_nil_of_sublist_nil h.2
      rw [List.range'_eq_nil_iff] at hnil
      rw [lastInOrder_nil]
      omega
  | cons x xs ih =>
      obtain ⟨hle, hsub⟩ := h
      rcases Nat.eq_or_lt_of_le hle with rfl | hlt
      · exact le_lastInOrder _ _
      rw [lastInOrder_cons]
      by_cases hx : x = r + 1
      · subst hx
        rw [observe_next]
        rw [range'_split hlt] at hsub
        exact ih ⟨hlt, List.cons_sublist_cons.mp hsub⟩
      · rw [observe_of_ne hx]
        refine ih ⟨hle, ?_⟩
        rw [range'_split hlt] at hsub ⊢
        cases hsub with
        | cons _ tail => exact tail
        | cons_cons _ _ => exact absurd rfl hx

/-- The fold is the greatest number reached in order. -/
theorem lastInOrder_isGreatest (r : Nat) (xs : List Nat) :
    IsGreatest {n | InOrder r xs n} (lastInOrder r xs) :=
  ⟨lastInOrder_inOrder r xs, fun _ h => le_lastInOrder_of_inOrder h⟩

/-- The same, counted from where the receiver stood. -/
theorem lastInOrder_sub_isGreatest (r : Nat) (xs : List Nat) :
    IsGreatest {m | (List.range' (r + 1) m).Sublist xs} (lastInOrder r xs - r) := by
  refine ⟨(lastInOrder_inOrder r xs).2, ?_⟩
  intro m h
  have inOrder : InOrder r xs (r + m) := by
    refine ⟨Nat.le_add_right r m, ?_⟩
    rw [Nat.add_sub_cancel_left]
    exact h
  have le := le_lastInOrder_of_inOrder inOrder
  omega

/-- The receiver stands where it stood or at a number that it saw. -/
theorem lastInOrder_mem (r : Nat) (xs : List Nat) :
    lastInOrder r xs = r ∨ lastInOrder r xs ∈ xs := by
  induction xs generalizing r with
  | nil => exact .inl rfl
  | cons x xs ih =>
      rw [lastInOrder_cons]
      cases ih (observe r x) with
      | inr h => exact .inr (List.mem_cons_of_mem x h)
      | inl h =>
          rw [h, observe]
          split
          · exact .inr List.mem_cons_self
          · exact .inl rfl

/-- Numbers in increasing order move the receiver once only: the next number it would
take is behind it in the list or not there. -/
theorem lastInOrder_again {r : Nat} {xs : List Nat} (increasing : xs.Pairwise (· < ·)) :
    lastInOrder (lastInOrder r xs) xs = lastInOrder r xs := by
  induction xs generalizing r with
  | nil => rfl
  | cons x xs ih =>
      obtain ⟨above, increasing'⟩ := List.pairwise_cons.mp increasing
      have skipped : x ≠ lastInOrder r (x :: xs) + 1 := by
        rw [lastInOrder_cons]
        by_cases next : x = r + 1
        · have le := le_lastInOrder (observe r x) xs
          rw [next, observe_next] at le ⊢
          omega
        · rw [observe_of_ne next]
          cases lastInOrder_mem r xs with
          | inl same => rw [same]; exact next
          | inr member =>
              have later := above _ member
              omega
      rw [lastInOrder_cons (lastInOrder r (x :: xs)), observe_of_ne skipped, lastInOrder_cons]
      exact ih increasing'

end Consecutive
