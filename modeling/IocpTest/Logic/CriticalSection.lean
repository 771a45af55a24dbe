import IocpTest.Logic.Run
import Mathlib.Logic.Function.Basic
import Mathlib.Logic.Relation

/-!
# Sections under one lock

Any number of threads share data that is only touched by a thread that has taken a lock. A
thread enters a section while the lock is free, goes through it step by step and leaves it.
`Step` is the system of the small steps. In `AtomicStep` a whole section is one step.

`atomic_of_run`: the small steps do what the sections do one after the other, in the order in
which they end. `run_of_atomic` is the other direction. Nothing in a section tests who holds
the lock, so mutual exclusion is a consequence (`Refines.alone`) and not an assumption.
-/

namespace CriticalSection

open StepSystem Function Relation

/-- What a thread does: outside of a section it is in a state of type `ω`, inside in one of
type `κ`, and inside it works on the shared data. -/
structure Text (δ ω κ : Type*) where
  outer : ω → ω → Prop
  enter : ω → κ → Prop
  inner : κ × δ → κ × δ → Prop
  leave : κ → ω → Prop

inductive Place (ω κ : Type*) where
  | outside (l : ω)
  | inside (k : κ)

structure State (ι δ ω κ : Type*) where
  shared : δ
  holder : Option ι
  threads : ι → Place ω κ

inductive Event (ι : Type*) where
  | outer (i : ι)
  | enter (i : ι)
  | inner (i : ι)
  | leave (i : ι)

/-- The shared data and the threads, none of them inside a section. -/
structure Atomic (ι δ ω : Type*) where
  shared : δ
  threads : ι → ω

inductive AtomicEvent (ι : Type*) where
  | outer (i : ι)
  | whole (i : ι)
  deriving DecidableEq

/-- The atomic event that ends with a small step. -/
def Event.ends {ι : Type*} : Event ι → Option (AtomicEvent ι)
  | .outer i => some (.outer i)
  | .leave i => some (.whole i)
  | _ => none

variable {ι δ ω κ : Type*} {t : Text δ ω κ}

/-- A thread goes through a whole section, with nobody in between. -/
def Text.Whole (t : Text δ ω κ) (l : ω) (d : δ) (l' : ω) (d' : δ) : Prop :=
  ∃ k k', t.enter l k ∧ ReflTransGen t.inner (k, d) (k', d') ∧ t.leave k' l'

/-- The small steps have got as far as `a`, and the holder of the lock some way further. -/
structure Refines (t : Text δ ω κ) (s : State ι δ ω κ) (a : Atomic ι δ ω) : Prop where
  free : s.holder = none → s.shared = a.shared
  outside : ∀ i, s.holder ≠ some i → s.threads i = .outside (a.threads i)
  inside : ∀ i, s.holder = some i → ∃ k₀ k, t.enter (a.threads i) k₀ ∧
    s.threads i = .inside k ∧ ReflTransGen t.inner (k₀, a.shared) (k, s.shared)

/-- The lock is free. -/
def Atomic.unlocked (a : Atomic ι δ ω) : State ι δ ω κ :=
  ⟨a.shared, none, fun i => .outside (a.threads i)⟩

theorem Refines.unlocked (a : Atomic ι δ ω) : Refines t a.unlocked a where
  free := fun _ => rfl
  outside := fun _ _ => rfl
  inside := fun _ held => by cases held

namespace Refines

variable {s : State ι δ ω κ} {a b : Atomic ι δ ω} {i j : ι}

/-- Between two sections there is nothing left to do. -/
theorem eq_of_unlocked (h : Refines t b.unlocked a) : a = b := by
  have shared : b.shared = a.shared := h.free rfl
  have threads : a.threads = b.threads := by
    funext i
    have here := h.outside i (by simp [Atomic.unlocked])
    exact (Place.outside.inj here).symm
  cases a
  cases b
  simp_all

/-- Whoever is inside a section holds the lock. -/
theorem holder_of_inside (h : Refines t s a) {k : κ} (here : s.threads i = .inside k) :
    s.holder = some i := by
  by_contra other
  have out := h.outside i other
  rw [here] at out
  cases out

/-- No two threads are inside a section. -/
theorem alone (h : Refines t s a) {k k' : κ} (hi : s.threads i = .inside k)
    (hj : s.threads j = .inside k') : i = j :=
  Option.some.inj ((h.holder_of_inside hi).symm.trans (h.holder_of_inside hj))

theorem ne_holder_of_outside (h : Refines t s a) {l : ω} (here : s.threads i = .outside l) :
    s.holder ≠ some i := by
  intro held
  obtain ⟨_, k, _, inside, _⟩ := h.inside i held
  rw [here] at inside
  cases inside

theorem threads_eq (h : Refines t s a) {l : ω} (here : s.threads i = .outside l) :
    a.threads i = l := by
  have out := h.outside i (h.ne_holder_of_outside here)
  exact Place.outside.inj (out.symm.trans here)

end Refines

variable [DecidableEq ι]

def Step (t : Text δ ω κ) (s : State ι δ ω κ) : Event ι → State ι δ ω κ → Prop
  | .outer i, s' =>
      ∃ l l', s.threads i = .outside l ∧ t.outer l l' ∧
        s' = { s with threads := update s.threads i (.outside l') }
  | .enter i, s' =>
      ∃ l k, s.holder = none ∧ s.threads i = .outside l ∧ t.enter l k ∧
        s' = ⟨s.shared, some i, update s.threads i (.inside k)⟩
  | .inner i, s' =>
      ∃ k k' d, s.threads i = .inside k ∧ t.inner (k, s.shared) (k', d) ∧
        s' = ⟨d, s.holder, update s.threads i (.inside k')⟩
  | .leave i, s' =>
      ∃ k l, s.threads i = .inside k ∧ t.leave k l ∧
        s' = ⟨s.shared, none, update s.threads i (.outside l)⟩

def AtomicStep (t : Text δ ω κ) (a : Atomic ι δ ω) : AtomicEvent ι → Atomic ι δ ω → Prop
  | .outer i, a' =>
      ∃ l, t.outer (a.threads i) l ∧ a' = { a with threads := update a.threads i l }
  | .whole i, a' =>
      ∃ l d, t.Whole (a.threads i) a.shared l d ∧ a' = ⟨d, update a.threads i l⟩

namespace Refines

variable {s s' : State ι δ ω κ} {a : Atomic ι δ ω} {i : ι}

theorem outer (h : Refines t s a) (step : Step t s (.outer i) s') :
    ∃ a', AtomicStep t a (.outer i) a' ∧ Refines t s' a' := by
  obtain ⟨l, l', here, moves, rfl⟩ := step
  obtain rfl := h.threads_eq here
  refine ⟨_, ⟨l', moves, rfl⟩, h.free, ?_, ?_⟩
  · intro j hj
    by_cases same : j = i
    · subst same
      simp
    · simpa [same] using h.outside j hj
  · intro j held
    have apart : j ≠ i := fun same => h.ne_holder_of_outside here (same ▸ held)
    simpa [apart] using h.inside j held

theorem enter (h : Refines t s a) (step : Step t s (.enter i) s') : Refines t s' a := by
  obtain ⟨l, k, free, here, enters, rfl⟩ := step
  obtain rfl := h.threads_eq here
  refine ⟨fun held => (by cases held), ?_, ?_⟩
  · intro j hj
    have apart : j ≠ i := fun same => hj (same ▸ rfl)
    simpa [apart] using h.outside j (by simp [free])
  · intro j held
    obtain rfl := Option.some.inj held
    refine ⟨k, k, enters, update_self _ _ _, ?_⟩
    rw [h.free free]

theorem inner (h : Refines t s a) (step : Step t s (.inner i) s') : Refines t s' a := by
  obtain ⟨k, k', d, here, moves, rfl⟩ := step
  have held := h.holder_of_inside here
  refine ⟨fun free => (by rw [held] at free; cases free), ?_, ?_⟩
  · intro j hj
    have apart : j ≠ i := fun same => hj (same ▸ held)
    simpa [apart] using h.outside j hj
  · intro j hj
    obtain rfl := Option.some.inj (held.symm.trans hj)
    obtain ⟨k₀, k₁, enters, inside, path⟩ := h.inside i held
    obtain rfl := Place.inside.inj (here.symm.trans inside)
    exact ⟨k₀, k', enters, update_self _ _ _, path.tail moves⟩

theorem leave (h : Refines t s a) (step : Step t s (.leave i) s') :
    ∃ a', AtomicStep t a (.whole i) a' ∧ Refines t s' a' := by
  obtain ⟨k, l, here, leaves, rfl⟩ := step
  have held := h.holder_of_inside here
  obtain ⟨k₀, k₁, enters, inside, path⟩ := h.inside i held
  obtain rfl := Place.inside.inj (here.symm.trans inside)
  refine ⟨_, ⟨l, s.shared, ⟨k₀, k, enters, path, leaves⟩, rfl⟩, fun _ => rfl, ?_, fun j held => ?_⟩
  · intro j _
    by_cases same : j = i
    · subst same
      simp
    · have other : s.holder ≠ some j := fun hj => same (Option.some.inj (hj.symm.trans held))
      simpa [same] using h.outside j other
  · cases held

/-- A small step ends a step of the atomic system or none. -/
theorem step (h : Refines t s a) {e : Event ι} (step : Step t s e s') :
    e.ends = none ∧ Refines t s' a ∨
      ∃ x a', e.ends = some x ∧ AtomicStep t a x a' ∧ Refines t s' a' := by
  cases e with
  | outer i =>
      obtain ⟨a', atom, next⟩ := h.outer step
      exact .inr ⟨_, a', rfl, atom, next⟩
  | enter i => exact .inl ⟨rfl, h.enter step⟩
  | inner i => exact .inl ⟨rfl, h.inner step⟩
  | leave i =>
      obtain ⟨a', atom, next⟩ := h.leave step
      exact .inr ⟨_, a', rfl, atom, next⟩

end Refines

/-- Every run of the small steps is a run of whole sections, in the order of their ends. -/
theorem atomic_of_run {s s' : State ι δ ω κ} {a : Atomic ι δ ω}
    {trace : List (State ι δ ω κ × Event ι)} (run : Run (Step t) s trace s')
    (start : Refines t s a) :
    ∃ atoms a', Run (AtomicStep t) a atoms a' ∧ Refines t s' a' ∧
      atoms.map Prod.snd = trace.filterMap fun taken => taken.2.ends := by
  induction run generalizing a with
  | nil s => exact ⟨[], a, .nil a, start, rfl⟩
  | cons first _ ih =>
      obtain ⟨none, next⟩ | ⟨x, b, ends, atom, next⟩ := start.step first
      · obtain ⟨atoms, a', run, last, events⟩ := ih next
        exact ⟨atoms, a', run, last, by simp [events, none]⟩
      · obtain ⟨atoms, a', run, last, events⟩ := ih next
        exact ⟨_, a', .cons atom run, last, by simp [events, ends]⟩

/-- An invariant of the atomic system holds of the data whenever the lock is free, and of
the data that the holder of the lock has found. -/
theorem everywhere_of_atomic {P : State ι δ ω κ → Prop} (inv : Atomic ι δ ω → Prop)
    (keep : ∀ a e a', inv a → AtomicStep t a e a' → inv a')
    (safe : ∀ s a, Refines t s a → inv a → P s)
    {s s' : State ι δ ω κ} {a : Atomic ι δ ω} {trace : List (State ι δ ω κ × Event ι)}
    (run : Run (Step t) s trace s') (start : Refines t s a) (initial : inv a) :
    Everywhere P trace s' := by
  refine run.everywhere_of_invariant (fun s => ∃ a, Refines t s a ∧ inv a) ?_ ?_
    ⟨a, start, initial⟩
  · rintro s e s' ⟨a, refines, holds⟩ step
    obtain ⟨_, next⟩ | ⟨x, b, _, atom, next⟩ := refines.step step
    · exact ⟨a, next, holds⟩
    · exact ⟨b, next, keep _ _ _ holds atom⟩
  · rintro s ⟨a, refines, holds⟩
    exact safe s a refines holds

/-- The holder of the lock goes along a path of its section. -/
theorem run_of_path {i : ι} {x y : κ × δ} (path : ReflTransGen t.inner x y)
    (threads : ι → Place ω κ) :
    ∃ trace, Run (Step t) ⟨x.2, some i, update threads i (.inside x.1)⟩ trace
      ⟨y.2, some i, update threads i (.inside y.1)⟩ := by
  induction path using ReflTransGen.head_induction_on with
  | refl => exact ⟨[], .nil _⟩
  | @head x z first _ ih =>
      obtain ⟨trace, run⟩ := ih
      have step : Step t ⟨x.2, some i, update threads i (.inside x.1)⟩ (.inner i)
          ⟨z.2, some i, update threads i (.inside z.1)⟩ :=
        ⟨x.1, z.1, z.2, update_self i _ threads, first, by simp⟩
      exact ⟨_, .cons step run⟩

/-- A whole section is a run of its steps. -/
theorem run_of_atomicStep {a a' : Atomic ι δ ω} {e : AtomicEvent ι}
    (step : AtomicStep t a e a') :
    ∃ trace, Run (Step t) a.unlocked trace a'.unlocked := by
  have outside : ∀ (i : ι) (l : ω),
      update (fun j => (.outside (a.threads j) : Place ω κ)) i (.outside l) =
        fun j => .outside (update a.threads i l j) := by
    intro i l
    funext j
    by_cases same : j = i
    · subst same
      simp
    · simp [same]
  cases e with
  | outer i =>
      obtain ⟨l, moves, rfl⟩ := step
      have one : Step t a.unlocked (.outer i)
          (Atomic.unlocked { a with threads := update a.threads i l }) :=
        ⟨a.threads i, l, rfl, moves, by simp [Atomic.unlocked, outside]⟩
      exact ⟨_, .cons one (.nil _)⟩
  | whole i =>
      obtain ⟨l, d, ⟨k, k', enters, path, leaves⟩, rfl⟩ := step
      obtain ⟨trace, run⟩ := run_of_path (i := i) path fun j => .outside (a.threads j)
      have first : Step t a.unlocked (.enter i)
          ⟨a.shared, some i, update (fun j => .outside (a.threads j)) i (.inside k)⟩ :=
        ⟨a.threads i, k, rfl, rfl, enters, rfl⟩
      have last : Step t ⟨d, some i, update (fun j => .outside (a.threads j)) i (.inside k')⟩
          (.leave i) (Atomic.unlocked ⟨d, update a.threads i l⟩) :=
        ⟨k', l, by simp, leaves, by simp [Atomic.unlocked, outside]⟩
      exact ⟨_, .cons first (run.append (.cons last (.nil _)))⟩

/-- Every run of whole sections is a run of the small steps. -/
theorem run_of_atomic {a a' : Atomic ι δ ω} {atoms : List (Atomic ι δ ω × AtomicEvent ι)}
    (run : Run (AtomicStep t) a atoms a') :
    ∃ trace, Run (Step t) a.unlocked trace a'.unlocked := by
  induction run with
  | nil a => exact ⟨[], .nil _⟩
  | cons first _ ih =>
      obtain ⟨trace, run⟩ := run_of_atomicStep first
      obtain ⟨rest, next⟩ := ih
      exact ⟨_, run.append next⟩

end CriticalSection
