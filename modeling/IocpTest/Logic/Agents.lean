import Mathlib.Data.List.Nodup
import Mathlib.Algebra.BigOperators.Group.List.Basic
import Mathlib.Algebra.GroupWithZero.Nat

/-!
# Lists of agents

Any number of agents run at once, and a step moves one of them. `Moves` says which
one, whatever its place in the list. An invariant over all agents is then a balance:
how many agents stand at a point, or what they add up to, changes by the one that
moved (`Moves.countP`, `Moves.sum`).
-/

namespace StepSystem

variable {α β : Type*}

/-- One agent goes from `a` to `a'`; all others stay. -/
def Moves (agents agents' : List α) (a a' : α) : Prop :=
  ∃ before after, agents = before ++ a :: after ∧ agents' = before ++ a' :: after

/-- An agent of the list can go anywhere. -/
theorem exists_moves {agents : List α} {a : α} (h : a ∈ agents) (a' : α) :
    ∃ agents', Moves agents agents' a a' := by
  obtain ⟨before, after, rfl⟩ := List.append_of_mem h
  exact ⟨_, before, after, rfl, rfl⟩

/-- The agent with this number goes to `a'`. -/
theorem moves_set {agents : List α} {i : Nat} {a : α} (here : agents[i]? = some a) (a' : α) :
    Moves agents (agents.set i a') a a' := by
  obtain ⟨inside, rfl⟩ := List.getElem?_eq_some_iff.mp here
  refine ⟨agents.take i, agents.drop (i + 1), ?_, ?_⟩
  · rw [List.getElem_cons_drop, List.take_append_drop]
  · exact List.set_eq_take_append_cons_drop.trans (if_pos inside)

theorem set_self {agents : List α} {i : Nat} {a : α} (here : agents[i]? = some a) :
    agents.set i a = agents := by
  obtain ⟨inside, rfl⟩ := List.getElem?_eq_some_iff.mp here
  exact List.set_getElem_self inside

theorem two_le_countP {agents : List α} {a b : α} {p : α → Bool} (ha : a ∈ agents)
    (hb : b ∈ agents) (ne : b ≠ a) (pa : p a = true) (pb : p b = true) :
    2 ≤ agents.countP p := by
  obtain ⟨before, after, rfl⟩ := List.append_of_mem ha
  have others : b ∈ before ++ after := by
    simp only [List.mem_append, List.mem_cons] at hb ⊢
    exact hb.imp_right fun h => h.resolve_left ne
  have pos : 0 < (before ++ after).countP p := List.countP_pos_iff.mpr ⟨b, others, pb⟩
  rw [List.countP_append] at pos
  rw [List.countP_append, List.countP_cons, if_pos pa]
  omega

/-- One named agent changes its mind about a property. -/
theorem countP_flip {agents : List α} {a : α} {name : α → β} {p q : α → Bool}
    (names : (agents.map name).Nodup) (ha : a ∈ agents)
    (others : ∀ x ∈ agents, name x ≠ name a → q x = p x) :
    agents.countP q + (if p a then 1 else 0) = agents.countP p + (if q a then 1 else 0) := by
  obtain ⟨before, after, rfl⟩ := List.append_of_mem ha
  rw [List.map_append, List.map_cons, List.nodup_middle, List.nodup_cons,
    ← List.map_append] at names
  have same : (before ++ after).countP q = (before ++ after).countP p := by
    apply List.countP_congr
    intro x hx
    have member : x ∈ before ++ a :: after :=
      (List.Sublist.append_left (List.sublist_cons_self a after) before).subset hx
    rw [others x member fun h => names.1 (h ▸ List.mem_map_of_mem hx)]
  simp only [List.countP_append, List.countP_cons] at same ⊢
  omega

namespace Moves

variable {agents agents' : List α} {a a' : α}

theorem mem (m : Moves agents agents' a a') : a ∈ agents := by
  obtain ⟨before, after, rfl, rfl⟩ := m
  exact List.mem_append_right _ List.mem_cons_self

theorem mem_after (m : Moves agents agents' a a') : a' ∈ agents' := by
  obtain ⟨before, after, rfl, rfl⟩ := m
  exact List.mem_append_right _ List.mem_cons_self

theorem length_eq (m : Moves agents agents' a a') : agents'.length = agents.length := by
  obtain ⟨before, after, rfl, rfl⟩ := m
  simp only [List.length_append, List.length_cons]

/-- An agent after the step is the one that moved or was there before. -/
theorem mem_cases (m : Moves agents agents' a a') {x : α} (hx : x ∈ agents') :
    x = a' ∨ x ∈ agents := by
  obtain ⟨before, after, rfl, rfl⟩ := m
  cases List.mem_append.mp hx with
  | inl h => exact .inr (List.mem_append_left _ h)
  | inr h =>
      cases List.mem_cons.mp h with
      | inl h => exact .inl h
      | inr h => exact .inr (List.mem_append_right _ (List.mem_cons_of_mem _ h))

theorem mem_of_ne (m : Moves agents agents' a a') {x : α} (hx : x ∈ agents) (ne : x ≠ a) :
    x ∈ agents' := by
  obtain ⟨before, after, rfl, rfl⟩ := m
  simp only [List.mem_append, List.mem_cons] at hx ⊢
  exact hx.imp_right fun h => .inr (h.resolve_left ne)

/-- When the agents have names, those that stayed have other names. -/
theorem mem_cases_of_nodup (m : Moves agents agents' a a') {f : α → β}
    (names : (agents.map f).Nodup) {x : α} (hx : x ∈ agents') :
    x = a' ∨ (x ∈ agents ∧ f x ≠ f a) := by
  obtain ⟨before, after, rfl, rfl⟩ := m
  rw [List.map_append, List.map_cons, List.nodup_middle, List.nodup_cons, List.mem_append,
    not_or] at names
  obtain ⟨⟨notBefore, notAfter⟩, _⟩ := names
  cases List.mem_append.mp hx with
  | inl h =>
      refine .inr ⟨List.mem_append_left _ h, fun same => notBefore ?_⟩
      rw [← same]
      exact List.mem_map_of_mem h
  | inr h =>
      cases List.mem_cons.mp h with
      | inl h => exact .inl h
      | inr h =>
          refine .inr ⟨List.mem_append_right _ (List.mem_cons_of_mem _ h), fun same => notAfter ?_⟩
          rw [← same]
          exact List.mem_map_of_mem h

/-- What holds of all agents still does if it holds of the one that moved. -/
theorem forall_mem (m : Moves agents agents' a a') {P : α → Prop} (all : ∀ x ∈ agents, P x)
    (moved : P a') : ∀ x ∈ agents', P x := by
  intro x hx
  cases m.mem_cases hx with
  | inl h => rw [h]; exact moved
  | inr h => exact all x h

/-- The number of agents at a point changes by the one that moved. -/
theorem countP (m : Moves agents agents' a a') (p : α → Bool) :
    agents'.countP p + (if p a then 1 else 0) = agents.countP p + (if p a' then 1 else 0) := by
  obtain ⟨before, after, rfl, rfl⟩ := m
  simp only [List.countP_append, List.countP_cons]
  omega

theorem sum (m : Moves agents agents' a a') (f : α → Nat) :
    (agents'.map f).sum + f a = (agents.map f).sum + f a' := by
  obtain ⟨before, after, rfl, rfl⟩ := m
  simp only [List.map_append, List.map_cons, List.sum_append, List.sum_cons]
  omega

/-- Among the agents of a kind, too, only the one that moved has changed. -/
theorem filter (m : Moves agents agents' a a') (p : α → Bool) :
    ∃ before after, agents.filter p = before ++ [a].filter p ++ after ∧
      agents'.filter p = before ++ [a'].filter p ++ after := by
  obtain ⟨before, after, rfl, rfl⟩ := m
  refine ⟨before.filter p, after.filter p, ?_, ?_⟩ <;>
    simp only [← List.filter_append, List.append_assoc, List.singleton_append]

/-- An agent that is of the kind neither before nor after the step. -/
theorem filter_eq (m : Moves agents agents' a a') {p : α → Bool} (before : p a = false)
    (after : p a' = false) : agents'.filter p = agents.filter p := by
  obtain ⟨l, r, old, new⟩ := m.filter p
  rw [old, new]
  simp [before, after]

/-- Nobody else is of the kind. -/
theorem filter_singleton (m : Moves agents agents' a a') {p : α → Bool}
    (alone : agents.filter p = [a].filter p) : agents'.filter p = [a'].filter p := by
  obtain ⟨before, after, old, new⟩ := m.filter p
  have length := congrArg List.length (old.symm.trans alone)
  simp only [List.length_append] at length
  obtain rfl : before = [] := List.eq_nil_of_length_eq_zero (by omega)
  obtain rfl : after = [] := List.eq_nil_of_length_eq_zero (by omega)
  simpa using new

/-- A label that the step leaves alone. -/
theorem map_eq (m : Moves agents agents' a a') {f : α → β} (same : f a' = f a) :
    agents'.map f = agents.map f := by
  obtain ⟨before, after, rfl, rfl⟩ := m
  simp only [List.map_append, List.map_cons, same]

end Moves

end StepSystem
