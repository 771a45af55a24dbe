import IocpTest.ThreadPool.GetElem
import Mathlib.Algebra.Group.Int.Defs
import Mathlib.Data.List.Flatten
import Mathlib.Data.List.Pairwise
import Mathlib.Data.List.TakeWhile

/-!
# One scheduling pass

`schedulingPass` says what a call of `GetElem` is for: it hands out the first element
that is due with a run left, and on the way there it drops the due elements whose runs
are used up. Time is an integer difference modulo `2 ^ 32` here, and the list is cut
at the element handed out before anything is done to it. `GetElem` drops, updates and
looks in one loop.

What is dropped is deleted together with its `pParam`. Where the objects and their
parameters are distinct, nothing is deleted twice.
-/

namespace IocpTest.ThreadPool

open Function (onFun)

namespace ThreadElem

/-- The milliseconds since `startTime`, modulo `2 ^ 32`, exceed the interval. -/
def Due (e : ThreadElem) (tick : DWORD) : Prop :=
  (e.interval.toNat : Int) < ((tick.toNat : Int) - e.startTime.toNat) % 2 ^ 32

instance (e : ThreadElem) (tick : DWORD) : Decidable (e.Due tick) :=
  inferInstanceAs (Decidable (_ < _))

/-- The difference of two `DWORD`s is the one of the integers modulo `2 ^ 32`. -/
theorem due_eq_decide (e : ThreadElem) (tick : DWORD) : e.due tick = decide (e.Due tick) := by
  have elapsed : ((tick - e.startTime).toNat : Int) =
      ((tick.toNat : Int) - e.startTime.toNat) % 2 ^ 32 := by
    have hstart := e.startTime.isLt
    have htick := tick.isLt
    rw [BitVec.toNat_sub]
    omega
  rw [due, decide_eq_decide, Due, ← elapsed, BitVec.lt_def, Int.ofNat_lt]

theorem runnable_eq_decide (e : ThreadElem) (tick : DWORD) :
    e.runnable tick = decide (e.Due tick ∧ e.runCount ≠ 0#32) := by
  rw [runnable, due_eq_decide, bne, beq_eq_decide, Bool.decide_and, decide_not]

theorem spent_eq_decide (e : ThreadElem) (tick : DWORD) :
    e.spent tick = decide (e.Due tick ∧ e.runCount = 0#32) := by
  rw [spent, due_eq_decide, beq_eq_decide, Bool.decide_and]

end ThreadElem

/-- What a `delete` can be applied to. -/
inductive Freed where
  | pParam (p : Nat)
  | elem (id : Nat)
  deriving DecidableEq

/-- `SAFE_DELETE(oneElem->pParam)`, which skips a null pointer, and `SAFE_DELETE(oneElem)`. -/
def ThreadElem.safeDelete (e : ThreadElem) : List Freed :=
  (e.pParam.map Freed.pParam).toList ++ [.elem e.id]

/-- The deletes of a call of `GetElem`, in order. -/
def GetResult.frees (r : GetResult) : List Freed := r.deleted.flatMap ThreadElem.safeDelete

/-- The elements that stand before the first one that is due with a run left. -/
def passedOver (tick : DWORD) (elems : List ThreadElem) : List ThreadElem :=
  elems.takeWhile fun e => !decide (e.Due tick ∧ e.runCount ≠ 0#32)

/-- The due elements among them whose runs are used up. -/
def removed (tick : DWORD) (elems : List ThreadElem) : List ThreadElem :=
  (passedOver tick elems).filter fun e => decide (e.Due tick ∧ e.runCount = 0#32)

/-- One pass over the list. -/
def schedulingPass (tick : DWORD) (elems : List ThreadElem) : GetResult where
  returned := (elems.find? fun e => decide (e.Due tick ∧ e.runCount ≠ 0#32)).map (·.run tick)
  elems :=
    ((passedOver tick elems).filter fun e => !decide (e.Due tick ∧ e.runCount = 0#32)) ++
      (elems.dropWhile fun e => !decide (e.Due tick ∧ e.runCount ≠ 0#32)).modifyHead (·.run tick)
  deleted := (removed tick elems).map (·.stamp tick)

/-! ## The code makes this pass -/

section

variable {tick : DWORD} {elems : List ThreadElem} {r : GetResult}

theorem Scanned.eq_schedulingPass (h : Scanned tick elems r) : r = schedulingPass tick elems := by
  simp only [schedulingPass, removed, passedOver, ← ThreadElem.runnable_eq_decide,
    ← ThreadElem.spent_eq_decide]
  cases h with
  | null before idle =>
      have idle' : ∀ e ∈ elems, (!e.runnable tick) = true := fun e he => by rw [idle e he]; rfl
      have none : elems.find? (fun e => e.runnable tick) = none :=
        List.find?_eq_none.mpr fun e he => by simp [idle e he]
      rw [List.takeWhile_eq_self_iff.mpr idle', List.dropWhile_eq_nil_iff.mpr idle', none,
        List.modifyHead_nil, List.append_nil, Option.map_none]
  | handOut before e rest idle runnable =>
      have idle' : ∀ e ∈ before, (!e.runnable tick) = true := fun e he => by rw [idle e he]; rfl
      have here : (e :: rest).takeWhile (fun e => !e.runnable tick) = [] := by simp [runnable]
      have stays : (e :: rest).dropWhile (fun e => !e.runnable tick) = e :: rest := by
        simp [runnable]
      have none : before.find? (fun e => e.runnable tick) = none :=
        List.find?_eq_none.mpr fun e he => by simp [idle e he]
      have first : (e :: rest).find? (fun e => e.runnable tick) = some e := by simp [runnable]
      rw [List.takeWhile_append_of_pos idle', List.dropWhile_append_of_pos idle',
        here, stays, List.append_nil, List.modifyHead_cons, List.find?_append, none, Option.none_or,
        first, Option.map_some]

theorem frees_schedulingPass :
    (schedulingPass tick elems).frees = (removed tick elems).flatMap ThreadElem.safeDelete := by
  rw [GetResult.frees, schedulingPass, List.flatMap_map]
  rfl

/-! ## Nothing is deleted twice -/

theorem ThreadElem.mem_safeDelete {e : ThreadElem} {f : Freed} :
    f ∈ e.safeDelete ↔ (∃ p, e.pParam = some p ∧ f = .pParam p) ∨ f = .elem e.id := by
  rw [safeDelete, List.mem_append, List.mem_singleton]
  cases e.pParam <;> simp

theorem removed_sublist : (removed tick elems).Sublist elems :=
  List.filter_sublist.trans (List.takeWhile_sublist _)

/-- Elements with an object or a parameter in common are the same element. -/
theorem pairwise_disjoint_safeDelete (objects : (elems.map ThreadElem.id).Nodup)
    (params : (elems.filterMap ThreadElem.pParam).Nodup) :
    elems.Pairwise (onFun List.Disjoint ThreadElem.safeDelete) := by
  have objects : elems.Pairwise fun x y => x.id ≠ y.id := List.pairwise_map.mp objects
  have params := List.pairwise_filterMap.mp params
  refine (objects.and params).imp ?_
  rintro x y ⟨ids, pParams⟩ f hx hy
  rcases ThreadElem.mem_safeDelete.mp hx with ⟨p, hp, rfl⟩ | rfl
  · rcases ThreadElem.mem_safeDelete.mp hy with ⟨q, hq, same⟩ | other
    · exact pParams p hp q hq (Freed.pParam.inj same)
    · cases other
  · rcases ThreadElem.mem_safeDelete.mp hy with ⟨q, _, other⟩ | same
    · cases other
    · exact ids (Freed.elem.inj same)

theorem nodup_flatMap_safeDelete (objects : (elems.map ThreadElem.id).Nodup)
    (params : (elems.filterMap ThreadElem.pParam).Nodup) :
    (elems.flatMap ThreadElem.safeDelete).Nodup := by
  refine List.nodup_flatMap.mpr ⟨fun e _ => ?_, pairwise_disjoint_safeDelete objects params⟩
  rw [ThreadElem.safeDelete]
  cases e.pParam <;> simp

/-- Only the removal of an element deletes what belongs to it. -/
theorem mem_flatMap_safeDelete_removed (objects : (elems.map ThreadElem.id).Nodup)
    (params : (elems.filterMap ThreadElem.pParam).Nodup) {x : ThreadElem} (hx : x ∈ elems)
    {f : Freed} (hf : f ∈ x.safeDelete) :
    f ∈ (removed tick elems).flatMap ThreadElem.safeDelete ↔ x ∈ removed tick elems := by
  constructor
  · intro h
    obtain ⟨y, hy, hfy⟩ := List.mem_flatMap.mp h
    by_contra gone
    have apart : y ≠ x := fun same => gone (same ▸ hy)
    have : Std.Symm (onFun List.Disjoint ThreadElem.safeDelete) :=
      ⟨fun _ _ disjoint => List.disjoint_symm disjoint⟩
    have disjoint := (pairwise_disjoint_safeDelete objects params).forall
      (removed_sublist.subset hy) hx apart
    exact disjoint hfy hf
  · intro h
    exact List.mem_flatMap.mpr ⟨x, h, hf⟩

theorem count_removed (objects : (elems.map ThreadElem.id).Nodup)
    (params : (elems.filterMap ThreadElem.pParam).Nodup) {x : ThreadElem} (hx : x ∈ elems)
    {f : Freed} (hf : f ∈ x.safeDelete) :
    (schedulingPass tick elems).frees.count f = if x ∈ removed tick elems then 1 else 0 := by
  have nodup : ((removed tick elems).flatMap ThreadElem.safeDelete).Nodup :=
    (nodup_flatMap_safeDelete objects params).sublist (removed_sublist.flatMap _)
  rw [frees_schedulingPass, nodup.count,
    if_congr (mem_flatMap_safeDelete_removed objects params hx hf) rfl rfl]

/-- Every element that is removed is deleted once, with its `pParam`, and nothing else is. -/
structure DeletesOnce (tick : DWORD) (elems : List ThreadElem) (r : GetResult) : Prop where
  elem : ∀ x ∈ elems, r.frees.count (.elem x.id) = if x ∈ removed tick elems then 1 else 0
  pParam : ∀ x ∈ elems, ∀ p, x.pParam = some p →
    r.frees.count (.pParam p) = if x ∈ removed tick elems then 1 else 0
  only : ∀ f ∈ r.frees, ∃ x ∈ removed tick elems, f ∈ x.safeDelete

end

/-- For distinct objects with distinct parameters `GetElem` makes one scheduling pass and
deletes what it removes once. -/
theorem getElem_onePass (tick : DWORD) (elems : List ThreadElem)
    (objects : (elems.map ThreadElem.id).Nodup)
    (params : (elems.filterMap ThreadElem.pParam).Nodup) :
    getElem tick elems = schedulingPass tick elems ∧
      DeletesOnce tick elems (getElem tick elems) := by
  have pass := (getElem_scanned tick elems).eq_schedulingPass
  refine ⟨pass, ?_⟩
  rw [pass]
  refine ⟨?_, ?_, ?_⟩
  · intro x hx
    exact count_removed objects params hx (ThreadElem.mem_safeDelete.mpr (.inr rfl))
  · intro x hx p hp
    exact count_removed objects params hx (ThreadElem.mem_safeDelete.mpr (.inl ⟨p, hp, rfl⟩))
  · intro f hf
    rw [frees_schedulingPass] at hf
    exact List.mem_flatMap.mp hf

/-- Behind the wrap of the clock: one element used up, one not due, one to run, and one
used up that is not looked at. -/
def mixedElems : List ThreadElem :=
  [⟨0, some 1, some 10, 0#32, 0xfffffff0#32, 10#32⟩, ⟨1, some 1, some 11, 3#32, 5#32, 0#32⟩,
    ⟨2, some 1, some 12, 2#32, 0xffffffff#32, 5#32⟩, ⟨3, some 1, some 13, 0#32, 0#32, 0#32⟩]

/-- The third is handed out and the first is gone. -/
theorem getElem_onePass_mixedElems :
    (getElem 5#32 mixedElems = schedulingPass 5#32 mixedElems ∧
      DeletesOnce 5#32 mixedElems (getElem 5#32 mixedElems)) ∧
    (getElem 5#32 mixedElems).returned = some ⟨2, some 1, some 12, 1#32, 5#32, 5#32⟩ ∧
    (getElem 5#32 mixedElems).elems.map ThreadElem.id = [1, 2, 3] ∧
    (getElem 5#32 mixedElems).frees = [.pParam 10, .elem 0] :=
  ⟨getElem_onePass 5#32 mixedElems (by decide) (by decide), by decide, by decide, by decide⟩

end IocpTest.ThreadPool
