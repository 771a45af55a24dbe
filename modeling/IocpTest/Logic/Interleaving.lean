import IocpTest.Logic.Run
import Mathlib.Logic.Function.Basic

/-!
# Many systems side by side

A family of systems in which each step is one of a single member. `component` reads a
member's own run out of a run of the family (`Run.component`), with the guards of its steps
(`guarded_component`).
-/

namespace StepSystem

variable {ι σ ε : Type*} {step : σ → ε → σ → Prop}

/-- One member of the family takes a step, all others stay. -/
def Interleaved (step : σ → ε → σ → Prop) (f : ι → σ) (e : ι × ε) (g : ι → σ) : Prop :=
  step (f e.1) e.2 (g e.1) ∧ ∀ k, k ≠ e.1 → g k = f k

variable [DecidableEq ι]

/-- The steps of one member. -/
def component (k : ι) (trace : List ((ι → σ) × ι × ε)) : List (σ × ε) :=
  trace.filterMap fun taken => if taken.2.1 = k then some (taken.1 k, taken.2.2) else none

variable {k : ι} {f g : ι → σ} {e : ι × ε} {trace : List ((ι → σ) × ι × ε)}

@[simp] theorem component_nil : component k ([] : List ((ι → σ) × ι × ε)) = [] := by
  simp [component]

theorem component_cons_self (here : e.1 = k) :
    component k ((f, e) :: trace) = (f k, e.2) :: component k trace := by
  simp [component, here]

theorem component_cons_of_ne (other : e.1 ≠ k) :
    component k ((f, e) :: trace) = component k trace := by
  simp [component, other]

/-- A run of the family is a run of each member. -/
theorem Run.component (run : Run (Interleaved step) f trace g) (k : ι) :
    Run step (f k) (component k trace) (g k) := by
  induction run with
  | nil f => simpa using Run.nil (f k)
  | @cons f h g e trace first _ ih =>
      by_cases here : e.1 = k
      · subst here
        rw [component_cons_self rfl]
        exact .cons first.1 ih
      · rw [component_cons_of_ne here]
        simpa only [first.2 k (Ne.symm here)] using ih

theorem guarded_component {ok : σ → ε → Prop}
    (guard : Guarded (fun f e => e.1 = k → ok (f k) e.2) trace) :
    Guarded ok (component k trace) := by
  intro taken member
  obtain ⟨⟨f, e⟩, inside, same⟩ := List.mem_filterMap.mp member
  obtain ⟨here, same⟩ := Option.ite_none_right_eq_some.mp same
  obtain rfl := Option.some.inj same
  exact guard _ inside here

end StepSystem
