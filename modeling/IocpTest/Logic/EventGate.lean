import IocpTest.Logic.Run
import Mathlib.Logic.Function.Basic

/-!
# A manual-reset event used as a lock

Threads share one event and one slot for an asynchronous operation. A thread
waits for the event, lowers it, writes to the slot and posts an operation; a
completion raises the event again. Waiting and lowering are separate steps, so two
threads can be admitted by one signal, and a thread may also enter without waiting.

`exclusive_of_alone` says when the pattern does exclude: it needs every thread to
be admitted into an empty section. `open_iff_covered` says when the event can still
be raised: a post that fails must not be the last thing that would have raised it.
-/

namespace EventGate

open StepSystem Function

/-- Where a thread stands: before its wait or after its post, between the wait and
the lowering of the event, or between that and its post. -/
inductive Stage where
  | outside
  | admitted
  | owner
  deriving DecidableEq, Repr

structure Gate where
  event : Bool
  /-- How many operations are outstanding. -/
  pending : Nat
  /-- The slot was written while an operation was outstanding. -/
  dirty : Bool
  stage : Nat → Stage

inductive Move where
  /-- A thread enters without waiting. -/
  | enter (i : Nat)
  | pass (i : Nat)
  | lower (i : Nat)
  | write (i : Nat)
  | post (i : Nat) (accepted : Bool)
  | complete
  | idle

def Step (g : Gate) : Move → Gate → Prop
  | .enter i, g' => g.stage i = .outside ∧ g' = { g with stage := update g.stage i .owner }
  | .pass i, g' =>
      g.stage i = .outside ∧ g.event = true ∧
        g' = { g with stage := update g.stage i .admitted }
  | .lower i, g' =>
      g.stage i = .admitted ∧ g' = { g with event := false, stage := update g.stage i .owner }
  | .write i, g' =>
      g.stage i = .owner ∧ g' = { g with dirty := g.dirty || decide (0 < g.pending) }
  | .post i accepted, g' =>
      g.stage i = .owner ∧ g' = { g with
        pending := g.pending + accepted.toNat
        stage := update g.stage i .outside }
  | .complete, g' => 0 < g.pending ∧ g' = { g with event := true, pending := g.pending - 1 }
  | .idle, g' => g' = g

/-- Some thread is between its wait and its post. -/
def Gate.Occupied (g : Gate) : Prop := ∃ i, g.stage i ≠ .outside

/-! ## Exclusion -/

/-- At most one operation is outstanding, and none was written under. -/
structure Gate.Exclusive (g : Gate) : Prop where
  pending : g.pending ≤ 1
  clean : g.dirty = false

/-- The section is entered only while it is empty, and without a wait only while
nothing is outstanding and the event is down. -/
def Alone (g : Gate) : Move → Prop
  | .enter _ => g.event = false ∧ g.pending = 0 ∧ ¬g.Occupied
  | .pass _ => ¬g.Occupied
  | _ => True

/-- One thread at most is inside, and then nothing is outstanding. A raised event
means that nothing is outstanding, and an owner has lowered it. -/
structure Gate.Held (g : Gate) : Prop where
  alone : ∀ i j, g.stage i ≠ .outside → g.stage j ≠ .outside → i = j
  settled : g.Occupied → g.pending = 0
  lowered : ∀ i, g.stage i = .owner → g.event = false
  raised : g.event = true → g.pending = 0
  few : g.pending ≤ 1
  clean : g.dirty = false

section

variable {g g' : Gate} {i j : Nat}

theorem not_occupied_iff : ¬g.Occupied ↔ ∀ i, g.stage i = .outside := by
  simp [Gate.Occupied]

/-- After a thread alone has moved inside, it is the only one there. -/
theorem eq_of_update_ne_outside {st : Stage} (others : ∀ k, k ≠ i → g.stage k = .outside)
    (h : update g.stage i st j ≠ .outside) : j = i := by
  by_contra hne
  rw [update_of_ne hne] at h
  exact h (others j hne)

theorem Gate.Held.others (held : g.Held) (h : g.stage i ≠ .outside) :
    ∀ k, k ≠ i → g.stage k = .outside := by
  intro k hk
  by_contra hout
  exact hk (held.alone k i hout h)

theorem Gate.Held.enter (held : g.Held) (alone : Alone g (.enter i))
    (step : Step g (.enter i) g') : g'.Held := by
  obtain ⟨_, rfl⟩ := step
  obtain ⟨lowered, settled, empty⟩ := alone
  have others : ∀ k, k ≠ i → g.stage k = .outside := fun k _ => not_occupied_iff.mp empty k
  refine ⟨?_, fun _ => settled, fun _ _ => lowered, held.raised, held.few, held.clean⟩
  intro j k hj hk
  exact (eq_of_update_ne_outside others hj).trans (eq_of_update_ne_outside others hk).symm

theorem Gate.Held.pass (held : g.Held) (alone : Alone g (.pass i))
    (step : Step g (.pass i) g') : g'.Held := by
  obtain ⟨_, raised, rfl⟩ := step
  have others : ∀ k, k ≠ i → g.stage k = .outside := fun k _ => not_occupied_iff.mp alone k
  refine ⟨?_, fun _ => held.raised raised, ?_, held.raised, held.few, held.clean⟩
  · intro j k hj hk
    exact (eq_of_update_ne_outside others hj).trans (eq_of_update_ne_outside others hk).symm
  · intro j (hj : update g.stage i .admitted j = .owner)
    obtain rfl := eq_of_update_ne_outside others (by rw [hj]; decide)
    rw [update_self] at hj
    cases hj

theorem Gate.Held.lower (held : g.Held) (step : Step g (.lower i) g') : g'.Held := by
  obtain ⟨hi, rfl⟩ := step
  have inside : g.stage i ≠ .outside := by rw [hi]; decide
  have others := held.others inside
  refine ⟨?_, fun _ => held.settled ⟨i, inside⟩, fun _ _ => rfl, ?_, held.few,
    held.clean⟩
  · intro j k hj hk
    exact (eq_of_update_ne_outside others hj).trans (eq_of_update_ne_outside others hk).symm
  · intro raised
    cases raised

theorem Gate.Held.write (held : g.Held) (step : Step g (.write i) g') : g'.Held := by
  obtain ⟨hi, rfl⟩ := step
  have settled : g.pending = 0 := held.settled ⟨i, by rw [hi]; decide⟩
  refine ⟨held.alone, held.settled, held.lowered, held.raised, held.few, ?_⟩
  simp [held.clean, settled]

theorem Gate.Held.post {accepted : Bool} (held : g.Held)
    (step : Step g (.post i accepted) g') : g'.Held := by
  obtain ⟨hi, rfl⟩ := step
  have inside : g.stage i ≠ .outside := by rw [hi]; decide
  have settled : g.pending = 0 := held.settled ⟨i, inside⟩
  have lowered : g.event = false := held.lowered i hi
  -- With its only thread gone the section is empty.
  have empty : ∀ j, update g.stage i .outside j = .outside := by
    intro j
    by_contra hj
    obtain rfl := eq_of_update_ne_outside (held.others inside) hj
    exact hj (update_self _ _ _)
  refine ⟨?_, ?_, fun _ _ => lowered, ?_, ?_, held.clean⟩
  · intro j k hj
    exact absurd (empty j) hj
  · rintro ⟨j, hj⟩
    exact absurd (empty j) hj
  · intro raised
    rw [lowered] at raised
    cases raised
  · simpa [settled] using accepted.toNat_le

theorem Gate.Held.complete (held : g.Held) (step : Step g .complete g') : g'.Held := by
  obtain ⟨busy, rfl⟩ := step
  have empty : ¬g.Occupied := fun occupied => Nat.ne_of_gt busy (held.settled occupied)
  refine ⟨held.alone, fun occupied => absurd occupied empty, ?_,
    fun _ => Nat.sub_eq_zero_of_le held.few, Nat.le_trans (Nat.sub_le _ _) held.few, held.clean⟩
  intro i (hi : g.stage i = .owner)
  rw [not_occupied_iff.mp empty i] at hi
  cases hi

theorem Gate.Held.step {m : Move} (held : g.Held) (alone : Alone g m) (step : Step g m g') :
    g'.Held := by
  cases m with
  | enter i => exact held.enter alone step
  | pass i => exact held.pass alone step
  | lower i => exact held.lower step
  | write i => exact held.write step
  | post i accepted => exact held.post step
  | complete => exact held.complete step
  | idle => obtain rfl : g' = g := step; exact held

/-- If every thread is admitted into an empty section, operations never overlap. -/
theorem exclusive_of_alone {trace : List (Gate × Move)} (run : Run Step g trace g')
    (start : g.Held) (alone : Guarded Alone trace) :
    Everywhere Gate.Exclusive trace g' :=
  run.everywhere_of_guarded Gate.Held (fun _ _ _ held alone step => held.step alone step)
    (fun _ held => ⟨held.few, held.clean⟩) start alone

end

/-! ## Liveness of the gate -/

/-- The event is up, or an outstanding operation or a thread inside will raise it. -/
def Gate.Open (g : Gate) : Prop := g.event = true ∨ 0 < g.pending ∨ g.Occupied

/-- A failing post is not the last hope of raising the event. -/
def Covered (g : Gate) : Move → Prop
  | .post i accepted =>
      accepted = false → g.event = true ∨ 0 < g.pending ∨ ∃ j, j ≠ i ∧ g.stage j ≠ .outside
  | _ => True

/-- No post fails. -/
def Accepted : Move → Prop
  | .post _ accepted => accepted = true
  | _ => True

section

variable {g g' : Gate} {m : Move}

theorem Covered.of_other (other : ∀ i accepted, m ≠ .post i accepted) : Covered g m := by
  cases m with
  | post i accepted => exact absurd rfl (other i accepted)
  | _ => trivial

theorem Accepted.of_other (other : ∀ i accepted, m ≠ .post i accepted) : Accepted m := by
  cases m with
  | post i accepted => exact absurd rfl (other i accepted)
  | _ => trivial

theorem Gate.Open.step (isOpen : g.Open) (covered : Covered g m) (step : Step g m g') :
    g'.Open := by
  cases m with
  | enter i =>
      obtain ⟨_, rfl⟩ := step
      exact .inr (.inr ⟨i, by simp⟩)
  | pass i =>
      obtain ⟨_, raised, rfl⟩ := step
      exact .inl raised
  | lower i =>
      obtain ⟨_, rfl⟩ := step
      exact .inr (.inr ⟨i, by simp⟩)
  | write i =>
      obtain ⟨_, rfl⟩ := step
      exact isOpen
  | post i accepted =>
      obtain ⟨_, rfl⟩ := step
      cases accepted with
      | true => exact .inr (.inl (Nat.succ_pos _))
      | false =>
          rcases covered rfl with raised | busy | ⟨j, hj, inside⟩
          · exact .inl raised
          · exact .inr (.inl busy)
          · exact .inr (.inr ⟨j, by simpa [hj] using inside⟩)
  | complete =>
      obtain ⟨_, rfl⟩ := step
      exact .inl rfl
  | idle =>
      obtain rfl : g' = g := step
      exact isOpen

/-- A gate that is open after a failing post was open without the failed thread. -/
theorem covered_of_open (step : Step g m g') (isOpen : g'.Open) : Covered g m := by
  cases m with
  | post i accepted =>
      obtain ⟨_, rfl⟩ := step
      rintro rfl
      rcases isOpen with raised | busy | ⟨j, inside⟩
      · exact .inl raised
      · exact .inr (.inl busy)
      · have hj : j ≠ i := by
          rintro rfl
          exact inside (update_self _ _ _)
        exact .inr (.inr ⟨j, hj, by simpa [hj] using inside⟩)
  | _ => trivial

/-- Along a run the gate stays open if and only if every failing post is covered. -/
theorem open_iff_covered {trace : List (Gate × Move)} (run : Run Step g trace g')
    (start : g.Open) : Everywhere Gate.Open trace g' ↔ Guarded Covered trace := by
  apply run.everywhere_iff_guarded Gate.Open ?_ (fun _ h => h) ?_ start
  · intro g m g' isOpen covered step
    exact isOpen.step covered step
  · intro g m g' _ step isOpen
    exact covered_of_open step isOpen

theorem Accepted.covered (accepted : Accepted m) : Covered g m := by
  cases m with
  | post i outcome =>
      rintro rfl
      cases accepted
  | _ => trivial

/-- Of threads that enter alone, the one that posts is the last hope. -/
theorem Gate.Held.accepted_of_covered (held : g.Held) (covered : Covered g m)
    (step : Step g m g') : Accepted m := by
  cases m with
  | post i accepted =>
      have owner : g.stage i = .owner := step.1
      have inside : g.stage i ≠ .outside := by rw [owner]; decide
      rw [Accepted]
      by_contra failed
      rcases covered (Bool.eq_false_iff.mpr failed) with raised | busy | ⟨j, other, also⟩
      · rw [held.lowered i owner] at raised
        cases raised
      · exact Nat.ne_of_gt busy (held.settled ⟨i, inside⟩)
      · exact other (held.alone j i also inside)
  | _ => trivial

/-- If every thread is admitted into an empty section, the gate stays open if and only if no
post fails. -/
theorem open_iff_accepted {trace : List (Gate × Move)} (run : Run Step g trace g')
    (start : g.Open) (held : g.Held) (alone : Guarded Alone trace) :
    Everywhere Gate.Open trace g' ↔ Guarded (fun _ m => Accepted m) trace := by
  rw [open_iff_covered run start]
  constructor
  · intro covered
    have both : Guarded (fun g m => Alone g m ∧ Covered g m) trace :=
      fun taken member => ⟨alone taken member, covered taken member⟩
    exact run.guarded_of_guarded Gate.Held (fun _ _ _ held ok step => held.step ok.1 step)
      (fun _ _ _ held ok step => held.accepted_of_covered ok.2 step) held both
  · exact fun accepted taken member => (accepted taken member).covered

end

end EventGate
