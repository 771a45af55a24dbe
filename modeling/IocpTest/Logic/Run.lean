import Mathlib.Data.List.Basic

/-!
# Finite runs of a labelled step relation

A step relation `step s e t` takes a state `s` to a state `t` under a label `e`.
`Run` collects finitely many steps and keeps, for each of them, the state in
which it was taken. A condition on a run can then speak about the state before
a step, which is where a caller or a scheduler decides to take it.

`Run.everywhere_of_guarded` is the induction that carries an invariant along a run
whose steps all meet a guard, and `Run.everywhere_of_invariant` the one without.
`Run.everywhere_iff_guarded` is the exact form of the latter: when
every unguarded step breaks the property, the property holds at every state
reached if and only if every step was guarded. `Run.simulate` carries a run of a
concrete system to a run of an abstract one.
-/

namespace StepSystem

variable {σ ε : Type*} {step : σ → ε → σ → Prop}

/-- A finite run, with the state and the label of each step in order. -/
inductive Run (step : σ → ε → σ → Prop) : σ → List (σ × ε) → σ → Prop
  | nil (s : σ) : Run step s [] s
  | cons {s t u : σ} {e : ε} {trace : List (σ × ε)} :
      step s e t → Run step t trace u → Run step s ((s, e) :: trace) u

/-- `P` holds in every state of a run: before each step and at the end. -/
def Everywhere (P : σ → Prop) (trace : List (σ × ε)) (last : σ) : Prop :=
  (∀ taken ∈ trace, P taken.1) ∧ P last

/-- Every step of a run was taken in a state that meets its guard. -/
def Guarded (ok : σ → ε → Prop) (trace : List (σ × ε)) : Prop :=
  ∀ taken ∈ trace, ok taken.1 taken.2

@[simp] theorem guarded_nil (ok : σ → ε → Prop) : Guarded ok [] := by
  simp [Guarded]

@[simp] theorem guarded_cons {ok : σ → ε → Prop} {s : σ} {e : ε} {trace : List (σ × ε)} :
    Guarded ok ((s, e) :: trace) ↔ ok s e ∧ Guarded ok trace := by
  simp [Guarded]

@[simp] theorem guarded_append {ok : σ → ε → Prop} {first rest : List (σ × ε)} :
    Guarded ok (first ++ rest) ↔ Guarded ok first ∧ Guarded ok rest := by
  simp only [Guarded, List.forall_mem_append]

@[simp] theorem everywhere_nil {P : σ → Prop} {s : σ} :
    Everywhere (ε := ε) P [] s ↔ P s := by
  simp [Everywhere]

@[simp] theorem everywhere_cons {P : σ → Prop} {s last : σ} {e : ε} {trace : List (σ × ε)} :
    Everywhere P ((s, e) :: trace) last ↔ P s ∧ Everywhere P trace last := by
  simp [Everywhere, and_assoc]

/-- What the steps of a run put out, in order. -/
def outputs {β : Type*} (out : σ → ε → Option β) (trace : List (σ × ε)) : List β :=
  trace.filterMap fun taken => out taken.1 taken.2

theorem outputs_cons {β : Type*} (out : σ → ε → Option β) (s : σ) (e : ε)
    (trace : List (σ × ε)) :
    outputs out ((s, e) :: trace) = (out s e).toList ++ outputs out trace := by
  rw [outputs, List.filterMap_cons]
  cases out s e <;> rfl

theorem outputs_append {β : Type*} (out : σ → ε → Option β) (first rest : List (σ × ε)) :
    outputs out (first ++ rest) = outputs out first ++ outputs out rest :=
  List.filterMap_append

section

variable {σ' ε' : Type*} {step' : σ' → ε' → σ' → Prop} (abs : σ → σ') (move : σ → ε → ε')

/-- A trace seen through an abstraction of the states and the labels. -/
def mapTrace (trace : List (σ × ε)) : List (σ' × ε') :=
  trace.map fun taken => (abs taken.1, move taken.1 taken.2)

theorem everywhere_mapTrace {P : σ' → Prop} {trace : List (σ × ε)} {last : σ} :
    Everywhere P (mapTrace abs move trace) (abs last) ↔
      Everywhere (fun s => P (abs s)) trace last := by
  simp only [Everywhere, mapTrace, List.forall_mem_map]

theorem guarded_mapTrace {ok : σ' → ε' → Prop} {trace : List (σ × ε)} :
    Guarded ok (mapTrace abs move trace) ↔
      Guarded (fun s e => ok (abs s) (move s e)) trace := by
  simp only [Guarded, mapTrace, List.forall_mem_map]

/-- A step-by-step simulation carries a run to a run. -/
theorem Run.simulate (inv : σ → Prop)
    (sim : ∀ s e t, inv s → step s e t → inv t ∧ step' (abs s) (move s e) (abs t))
    {s t : σ} {trace : List (σ × ε)} (run : Run step s trace t) (start : inv s) :
    Run step' (abs s) (mapTrace abs move trace) (abs t) := by
  induction run with
  | nil s => exact .nil (abs s)
  | cons first _ ih =>
      obtain ⟨next, image⟩ := sim _ _ _ start first
      exact .cons image (ih next)

end

namespace Run

variable {P : σ → Prop} {ok : σ → ε → Prop} {s t : σ} {trace : List (σ × ε)}

/-- A run goes on where another ends. -/
theorem append {u : σ} {rest : List (σ × ε)} (run : Run step s trace t)
    (next : Run step t rest u) : Run step s (trace ++ rest) u := by
  induction run with
  | nil => exact next
  | cons first _ ih => exact .cons first (ih next)

theorem steps (run : Run step s trace t) : Guarded (fun s e => ∃ t, step s e t) trace := by
  induction run with
  | nil => exact guarded_nil _
  | cons first _ ih => exact guarded_cons.mpr ⟨⟨_, first⟩, ih⟩

/-- A guarded run is a run of the guarded steps. -/
theorem strengthen (run : Run step s trace t) (guard : Guarded ok trace) :
    Run (fun s e t => step s e t ∧ ok s e) s trace t := by
  induction run with
  | nil s => exact .nil s
  | cons first _ ih =>
      obtain ⟨hok, hrest⟩ := guarded_cons.mp guard
      exact .cons ⟨first, hok⟩ (ih hrest)

/-- A property of every state of a run holds where the run starts. -/
theorem head (run : Run step s trace t) (all : Everywhere P trace t) : P s := by
  cases run with
  | nil => exact all.2
  | cons _ _ => exact (everywhere_cons.mp all).1

/-- A guarded run has the invariant, and what it implies, in every state reached. -/
theorem everywhere_of_guarded (inv : σ → Prop)
    (keep : ∀ s e t, inv s → ok s e → step s e t → inv t) (safe : ∀ s, inv s → P s)
    (run : Run step s trace t) (start : inv s) (guard : Guarded ok trace) :
    Everywhere P trace t := by
  induction run with
  | nil s => exact everywhere_nil.mpr (safe s start)
  | cons first _ ih =>
      obtain ⟨hok, hrest⟩ := guarded_cons.mp guard
      exact everywhere_cons.mpr ⟨safe _ start, ih (keep _ _ _ start hok first) hrest⟩

/-- The same for a property of the steps themselves. -/
theorem guarded_of_guarded {safe : σ → ε → Prop} (inv : σ → Prop)
    (keep : ∀ s e t, inv s → ok s e → step s e t → inv t)
    (take : ∀ s e t, inv s → ok s e → step s e t → safe s e)
    (run : Run step s trace t) (start : inv s) (guard : Guarded ok trace) :
    Guarded safe trace := by
  induction run with
  | nil => exact guarded_nil safe
  | cons first _ ih =>
      obtain ⟨hok, hrest⟩ := guarded_cons.mp guard
      exact guarded_cons.mpr ⟨take _ _ _ start hok first, ih (keep _ _ _ start hok first) hrest⟩

/-- What holds at the end of every guarded run holds in every state reached. -/
theorem everywhere_of_ends
    (ends : ∀ {trace t}, Run step s trace t → Guarded ok trace → P t)
    (run : Run step s trace t) (guard : Guarded ok trace) : Everywhere P trace t := by
  induction run with
  | nil s => exact everywhere_nil.mpr (ends (.nil s) (guarded_nil ok))
  | cons first _ ih =>
      obtain ⟨hok, hrest⟩ := guarded_cons.mp guard
      refine everywhere_cons.mpr ⟨ends (.nil _) (guarded_nil ok), ih ?_ hrest⟩
      intro trace t rest guard
      exact ends (.cons first rest) (guarded_cons.mpr ⟨hok, guard⟩)

/-- An invariant that every step keeps needs no guard. -/
theorem everywhere_of_invariant (inv : σ → Prop) (keep : ∀ s e t, inv s → step s e t → inv t)
    (safe : ∀ s, inv s → P s) (run : Run step s trace t) (start : inv s) :
    Everywhere P trace t := by
  have guard : Guarded (fun _ _ => True) trace := fun _ _ => trivial
  exact run.everywhere_of_guarded inv (fun s e t h _ => keep s e t h) safe start guard

/-- What goes in comes out in the same order, or is left. -/
theorem flatMap_balance {β : Type*} (get put : σ → ε → List β) (left : σ → List β)
    (inv : σ → Prop) (keep : ∀ s e t, inv s → ok s e → step s e t → inv t)
    (balance : ∀ s e t, inv s → ok s e → step s e t → get s e ++ left t = left s ++ put s e)
    (run : Run step s trace t) (start : inv s) (guard : Guarded ok trace) :
    (trace.flatMap fun taken => get taken.1 taken.2) ++ left t =
      left s ++ trace.flatMap fun taken => put taken.1 taken.2 := by
  induction run with
  | nil s => simp
  | cons first _ ih =>
      obtain ⟨hok, hrest⟩ := guarded_cons.mp guard
      have here := balance _ _ _ start hok first
      have later := ih (keep _ _ _ start hok first) hrest
      simp only [List.flatMap_cons, List.append_assoc] at later ⊢
      rw [later, ← List.append_assoc, here, List.append_assoc]

/-- The same when it comes in pieces, and other pieces come out. -/
theorem flatten_balance {β : Type*} (get put : σ → ε → List (List β)) (left : σ → List β)
    (balance : ∀ s e t, step s e t → (get s e).flatten ++ left t = left s ++ (put s e).flatten)
    (run : Run step s trace t) :
    (trace.flatMap fun taken => get taken.1 taken.2).flatten ++ left t =
      left s ++ (trace.flatMap fun taken => put taken.1 taken.2).flatten := by
  simp only [List.flatten_eq_flatMap, List.flatMap_assoc] at balance ⊢
  have guard : Guarded (fun _ _ => True) trace := fun _ _ => trivial
  exact run.flatMap_balance _ _ left (fun _ => True) (fun _ _ _ _ _ _ => trivial)
    (fun s e t _ _ => balance s e t) trivial guard

/-- If guarded steps keep an invariant that implies `P`, and a step that reaches
a state with `P` must have been guarded, then `P` everywhere is the guard. -/
theorem everywhere_iff_guarded (inv : σ → Prop)
    (keep : ∀ s e t, inv s → ok s e → step s e t → inv t)
    (safe : ∀ s, inv s → P s)
    (need : ∀ s e t, inv s → step s e t → P t → ok s e)
    (run : Run step s trace t) (start : inv s) :
    Everywhere P trace t ↔ Guarded ok trace := by
  induction run with
  | nil s => simp [safe s start]
  | @cons s t u e trace first rest ih =>
      rw [everywhere_cons, guarded_cons]
      constructor
      · rintro ⟨_, all⟩
        have hok : ok s e := need s e t start first (rest.head all)
        exact ⟨hok, (ih (keep s e t start hok first)).mp all⟩
      · rintro ⟨hok, guard⟩
        exact ⟨safe s start, (ih (keep s e t start hok first)).mpr guard⟩

/-- A property that no step can repair holds everywhere once it holds at the end. -/
theorem everywhere_of_last (back : ∀ s e t, step s e t → P t → P s)
    (run : Run step s trace t) (last : P t) : Everywhere P trace t := by
  induction run with
  | nil => simpa using last
  | cons first rest ih =>
      have all := ih last
      exact everywhere_cons.mpr ⟨back _ _ _ first (rest.head all), all⟩

/-- A property that no step can repair may be assumed of every step's target. -/
theorem restrict (P : σ → Prop) (back : ∀ s e t, step s e t → P t → P s)
    (run : Run step s trace t) (last : P t) :
    Run (fun s e t => step s e t ∧ P t) s trace t := by
  induction run with
  | nil s => exact .nil s
  | cons first rest ih =>
      have here := rest.head (rest.everywhere_of_last back last)
      exact .cons ⟨first, here⟩ (ih last)

end Run

end StepSystem
