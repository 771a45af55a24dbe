import IocpTest.ThreadPool.Pool

/-!
# The capacity of the thread pool

`AddElem` asks `HasSpace`, which takes the lock and gives it back, and takes the lock
again to insert. Here the two critical sections are two steps, so that any number of
calls can stand between them while others insert and workers scan the list.

`Reserves` is what keeps the list within `MAX_THREAD_ELEMS`: a call passes the check
only while there is room for it beside the calls that have passed and not yet
inserted. `exists_overflow` shows that nothing less will do, and
`exists_run_of_poolStep` that a pool whose `AddElem` is one critical section does it.
-/

namespace IocpTest.ThreadPool

open StepSystem

/-- The checks of `AddElem`: whether the call goes on to its insertion. -/
def addElemPasses (param : ThreadElem) (elems : List ThreadElem) : Bool :=
  if param.runCount = 0#32 ∧ param.runCount ≠ maxThreadRunCount then false
  else if !hasSpace elems then false
  else true

/-- With nobody between its two sections `AddElem` is its checks and its insertion. -/
theorem addElem_eq (param : ThreadElem) (elems : List ThreadElem) :
    addElem param elems =
      if addElemPasses param elems then (true, elems ++ [param]) else (false, elems) := by
  rw [addElem, addElemPasses]
  split
  · rfl
  · split
    · rfl
    · rfl

theorem addElemPasses_iff (param : ThreadElem) (elems : List ThreadElem) :
    addElemPasses param elems = true ↔
      param.runCount ≠ 0#32 ∧ elems.length < maxThreadElems := by
  have finite : (0#32 : DWORD) ≠ maxThreadRunCount := by decide
  by_cases hzero : param.runCount = 0#32
  · simp [addElemPasses, hzero, finite]
  · simp [addElemPasses, hzero, hasSpace]

/-- The list, and the parameters of the calls of `AddElem` that have passed their
checks and not yet inserted. -/
structure Adders where
  elems : List ThreadElem
  passed : List ThreadElem

def Adders.empty : Adders := ⟨[], []⟩

inductive AddersEvent where
  /-- `AddElem` up to the end of `HasSpace`. -/
  | check (param : ThreadElem)
  /-- The `push_back` of `AddElem`. -/
  | push (param : ThreadElem)
  | get (tick : DWORD)

def AddersStep (s : Adders) : AddersEvent → Adders → Prop
  | .check param, s' =>
      s' = if addElemPasses param s.elems then { s with passed := param :: s.passed } else s
  | .push param, s' =>
      param ∈ s.passed ∧ s' = ⟨s.elems ++ [param], s.passed.erase param⟩
  | .get tick, s' => s' = { s with elems := (getElem tick s.elems).elems }

/-- `m_elems.size()` does not exceed `MAX_THREAD_ELEMS`. -/
def WithinCapacity (s : Adders) : Prop := s.elems.length ≤ maxThreadElems

/-- A call passes the check only while there is room for it and for all calls that
have passed and not yet inserted. -/
def Reserves (s : Adders) : AddersEvent → Prop
  | .check param =>
      addElemPasses param s.elems = true → s.elems.length + s.passed.length < maxThreadElems
  | _ => True

def Adders.Reserved (s : Adders) : Prop := s.elems.length + s.passed.length ≤ maxThreadElems

theorem getElem_length_le (tick : DWORD) (elems : List ThreadElem) :
    (getElem tick elems).elems.length ≤ elems.length := by
  have ids := (getElem_scanned tick elems).ids_sublist.length_le
  simpa only [List.length_map] using ids

theorem Adders.Reserved.step {s s' : Adders} {e : AddersEvent} (inv : s.Reserved)
    (reserves : Reserves s e) (step : AddersStep s e s') : s'.Reserved := by
  rw [Adders.Reserved] at inv ⊢
  cases e with
  | check param =>
      obtain rfl := step
      cases h : addElemPasses param s.elems with
      | false => exact inv
      | true => exact Nat.succ_le_of_lt (reserves h)
  | push param =>
      obtain ⟨hmem, rfl⟩ := step
      have less := List.length_erase_of_mem hmem
      have some := List.length_pos_of_mem hmem
      simp only [List.length_append, List.length_singleton]
      omega
  | get tick =>
      obtain rfl := step
      have less := getElem_length_le tick s.elems
      change (getElem tick s.elems).elems.length + s.passed.length ≤ maxThreadElems
      omega

/-- In every run of any number of calls and workers in which the checks reserve, the
list stays within its capacity. -/
theorem withinCapacity_of_reserves {trace : List (Adders × AddersEvent)} {s : Adders}
    (run : Run AddersStep Adders.empty trace s) (reserves : Guarded Reserves trace) :
    Everywhere WithinCapacity trace s :=
  run.everywhere_of_guarded Adders.Reserved (fun _ _ _ inv ok step => inv.step ok step)
    (fun _ inv => Nat.le_trans (Nat.le_add_right _ _) inv) (Nat.zero_le _) reserves

/-! ## The condition is exact -/

/-- All calls that have passed can insert. -/
theorem exists_run_push_all (passed : List ThreadElem) (elems : List ThreadElem) :
    ∃ trace t, Run AddersStep ⟨elems, passed⟩ trace t ∧
      t.elems.length = elems.length + passed.length := by
  induction passed generalizing elems with
  | nil => exact ⟨[], _, .nil _, rfl⟩
  | cons param rest ih =>
      have push : AddersStep ⟨elems, param :: rest⟩ (.push param) ⟨elems ++ [param], rest⟩ :=
        ⟨List.mem_cons_self, by rw [List.erase_cons_head]⟩
      obtain ⟨trace, t, run, length⟩ := ih (elems ++ [param])
      refine ⟨_, t, .cons push run, ?_⟩
      rw [length, List.length_append, List.length_singleton, List.length_cons]
      omega

/-- After a check that does not reserve there is a schedule that overfills the list. -/
theorem exists_overflow {s s' : Adders} {param : ThreadElem}
    (step : AddersStep s (.check param) s') (short : ¬Reserves s (.check param)) :
    ∃ trace t, Run AddersStep s' trace t ∧ ¬WithinCapacity t := by
  simp only [Reserves, Classical.not_imp] at short
  obtain ⟨passes, full⟩ := short
  rw [AddersStep, if_pos passes] at step
  subst step
  obtain ⟨trace, t, run, length⟩ := exists_run_push_all (param :: s.passed) s.elems
  refine ⟨trace, t, run, ?_⟩
  rw [List.length_cons] at length
  rw [WithinCapacity]
  omega

/-- An element of its own for every number. -/
def newElem (id : Nat) : ThreadElem := { oneShot with id := id }

theorem newElem_runCount (id : Nat) : (newElem id).runCount ≠ 0#32 := by
  have once : (newElem id).runCount = 1#32 := rfl
  rw [once]
  decide

/-- A call that nobody disturbs inserts its element when there is room. -/
theorem addersStep_undisturbed {param : ThreadElem} {elems : List ThreadElem}
    (passes : addElemPasses param elems = true) :
    AddersStep ⟨elems, []⟩ (.check param) ⟨elems, [param]⟩ ∧
      AddersStep ⟨elems, [param]⟩ (.push param) ⟨elems ++ [param], []⟩ ∧
      Reserves ⟨elems, []⟩ (.check param) := by
  refine ⟨?_, ⟨List.mem_cons_self, ?_⟩, fun _ => ((addElemPasses_iff param elems).mp passes).2⟩
  · rw [AddersStep, if_pos passes]
  · rw [List.erase_cons_head]

/-- One call after the other fills the list to any length within the capacity. -/
theorem exists_run_filled {n : Nat} (h : n ≤ maxThreadElems) :
    ∃ trace elems, Run AddersStep Adders.empty trace ⟨elems, []⟩ ∧ Guarded Reserves trace ∧
      elems.length = n := by
  induction n with
  | zero => exact ⟨[], [], .nil _, guarded_nil _, rfl⟩
  | succ n ih =>
      obtain ⟨trace, elems, run, guard, length⟩ := ih (Nat.le_of_succ_le h)
      have passes : addElemPasses (newElem n) elems = true :=
        (addElemPasses_iff _ _).mpr ⟨newElem_runCount n, by omega⟩
      obtain ⟨check, push, reserves⟩ := addersStep_undisturbed passes
      refine ⟨_, _, run.append (.cons check (.cons push (.nil _))), ?_, ?_⟩
      · simp only [guarded_append, guarded_cons, guarded_nil]
        exact ⟨guard, reserves, trivial, trivial⟩
      · rw [List.length_append, List.length_singleton, length]

/-- The list is filled to the last place and stays within its capacity. -/
theorem withinCapacity_filled : ∃ trace elems,
    Run AddersStep Adders.empty trace ⟨elems, []⟩ ∧ elems.length = maxThreadElems ∧
      Everywhere WithinCapacity trace ⟨elems, []⟩ := by
  obtain ⟨trace, elems, run, guard, length⟩ := exists_run_filled (Nat.le_refl maxThreadElems)
  exact ⟨trace, elems, run, length, withinCapacity_of_reserves run guard⟩

/-- One place is left, and two calls pass the check before either inserts. -/
theorem not_withinCapacity : ¬∀ (trace : List (Adders × AddersEvent)) (s : Adders),
    Run AddersStep Adders.empty trace s → Everywhere WithinCapacity trace s := by
  intro all
  obtain ⟨trace, elems, run, _, length⟩ :=
    exists_run_filled (Nat.le_succ (maxThreadElems - 1))
  have room : elems.length < maxThreadElems := by rw [length]; decide
  have passes : ∀ id, addElemPasses (newElem id) elems = true := fun id =>
    (addElemPasses_iff _ _).mpr ⟨newElem_runCount id, room⟩
  let first : Adders := ⟨elems, [newElem 2000]⟩
  have check : AddersStep ⟨elems, []⟩ (.check (newElem 2000)) first :=
    (addersStep_undisturbed (passes 2000)).1
  have again : AddersStep first (.check (newElem 2001)) ⟨elems, [newElem 2001, newElem 2000]⟩ := by
    rw [AddersStep, if_pos (passes 2001)]
  have short : ¬Reserves first (.check (newElem 2001)) := by
    intro reserves
    have beside : elems.length + 1 < maxThreadElems := reserves (passes 2001)
    rw [length] at beside
    exact absurd beside (by decide)
  obtain ⟨rest, t, pushes, overfull⟩ := exists_overflow again short
  have safe := all _ t (run.append (.cons check (.cons again pushes)))
  exact overfull safe.2

/-! ## `AddElem` in one critical section -/

/-- A pool whose `AddElem` keeps the lock is a run of the finer system that reserves. -/
theorem exists_run_of_poolStep {trace : List (Pool × PoolEvent)} {p p' : Pool}
    (run : Run PoolStep p trace p') :
    ∃ fine, Run AddersStep ⟨p.elems, []⟩ fine ⟨p'.elems, []⟩ ∧ Guarded Reserves fine := by
  induction run with
  | nil p => exact ⟨[], .nil _, guarded_nil _⟩
  | @cons p q p' e trace first _ ih =>
      obtain ⟨fine, rest, guard⟩ := ih
      cases e with
      | get time =>
          obtain ⟨_, rfl⟩ := first
          have get : AddersStep ⟨p.elems, []⟩ (.get (BitVec.ofNat 32 time))
              ⟨(p.get time).elems, []⟩ := rfl
          exact ⟨_, .cons get rest, guarded_cons.mpr ⟨trivial, guard⟩⟩
      | add param =>
          obtain ⟨_, rfl⟩ := first
          rw [Pool.add, addElem_eq] at rest
          cases passes : addElemPasses param p.elems with
          | false =>
              rw [passes] at rest
              exact ⟨fine, rest, guard⟩
          | true =>
              rw [passes] at rest
              obtain ⟨check, push, reserves⟩ := addersStep_undisturbed passes
              refine ⟨_, .cons check (.cons push rest), ?_⟩
              simp only [guarded_cons]
              exact ⟨reserves, trivial, guard⟩

end IocpTest.ThreadPool
