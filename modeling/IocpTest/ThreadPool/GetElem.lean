import Mathlib.Algebra.Group.Nat.Defs
import Mathlib.Data.List.Nodup

/-!
# The element list of the thread pool

`ThreadPool` keeps a list of pointers to `_ThreadElem` objects. `GetElem` scans it
under the lock: an element whose interval has passed is deleted if its runs are
used up, and otherwise handed out with one run less and left in the list.

`Scanned` is the closed form of the scan: the list splits at the first element that
is due and has runs left, and only what stands before it can be deleted. `Fate` is
what becomes of one element when the objects are distinct.
-/

namespace IocpTest.ThreadPool

abbrev DWORD := BitVec 32

/-- `MAX_THREAD_RUNCOUNT`, which is -1 in a `DWORD`. -/
def maxThreadRunCount : DWORD := 0xffffffff#32

/-- `MAX_THREAD_ELEMS` -/
def maxThreadElems : Nat := 2000

/-- A `_ThreadElem` object. `id` is its identity as an object; the pointers
`callback` and `pParam` are numbers and `none` is the null pointer. -/
structure ThreadElem where
  id : Nat
  callback : Option Nat
  pParam : Option Nat
  runCount : DWORD
  startTime : DWORD
  interval : DWORD
  deriving DecidableEq, Repr

namespace ThreadElem

/-- `tick - startTime > interval` -/
def due (e : ThreadElem) (tick : DWORD) : Bool := decide (e.interval < tick - e.startTime)

/-- Due with no run left: the scan deletes the element. -/
def spent (e : ThreadElem) (tick : DWORD) : Bool := e.due tick && e.runCount == 0#32

/-- Due with a run left: the scan hands the element out. -/
def runnable (e : ThreadElem) (tick : DWORD) : Bool := e.due tick && e.runCount != 0#32

/-- The element as `GetElem` hands it out. -/
def run (e : ThreadElem) (tick : DWORD) : ThreadElem :=
  { e with
    startTime := tick
    runCount := if e.runCount = maxThreadRunCount then e.runCount else e.runCount - 1 }

/-- `startTime = tick`, which the scan does to every due element. -/
def stamp (e : ThreadElem) (tick : DWORD) : ThreadElem := { e with startTime := tick }

@[simp] theorem run_id (e : ThreadElem) (tick : DWORD) : (e.run tick).id = e.id := rfl
@[simp] theorem run_pParam (e : ThreadElem) (tick : DWORD) : (e.run tick).pParam = e.pParam := rfl

@[simp] theorem run_startTime (e : ThreadElem) (tick : DWORD) : (e.run tick).startTime = tick := rfl

theorem run_runCount_of_eq {e : ThreadElem} (tick : DWORD) (h : e.runCount = maxThreadRunCount) :
    (e.run tick).runCount = maxThreadRunCount := by
  simp only [run, h, if_true]

/-- A finite element is handed out with one run less. -/
theorem run_runCount_toNat {e : ThreadElem} (tick : DWORD) (left : e.runCount ≠ 0#32)
    (finite : e.runCount ≠ maxThreadRunCount) :
    (e.run tick).runCount.toNat + 1 = e.runCount.toNat := by
  have pos : e.runCount.toNat ≠ 0 := fun h => left (BitVec.eq_of_toNat_eq h)
  have one : (1 : DWORD).toNat = 1 := rfl
  have small := e.runCount.isLt
  rw [run, if_neg finite, BitVec.toNat_sub, one]
  omega

/-- While the clock has not wrapped since the stamp, due means that the interval has passed. -/
theorem due_iff {e : ThreadElem} {since now : Nat} (stamp : e.startTime = BitVec.ofNat 32 since)
    (order : since ≤ now) (recent : now - since < 2 ^ 32) :
    e.due (BitVec.ofNat 32 now) = true ↔ e.interval.toNat < now - since := by
  have elapsed : (BitVec.ofNat 32 now - e.startTime).toNat = now - since := by
    rw [stamp, BitVec.toNat_sub, BitVec.toNat_ofNat, BitVec.toNat_ofNat]
    omega
  rw [due, decide_eq_true_iff, BitVec.lt_def, elapsed]

end ThreadElem

/-- What a call of `GetElem` returns, leaves in the list and deletes. -/
structure GetResult where
  returned : Option ThreadElem
  elems : List ThreadElem
  deleted : List ThreadElem
  deriving DecidableEq

/-- The loop of `GetElem` from the iterator on. -/
def scan (tick : DWORD) : List ThreadElem → GetResult
  | [] => ⟨none, [], []⟩
  | oneElem :: rest =>
      if tick - oneElem.startTime > oneElem.interval then
        let oneElem := { oneElem with startTime := tick }
        if oneElem.runCount = 0#32 ∧ oneElem.runCount ≠ maxThreadRunCount then
          let next := scan tick rest
          { next with deleted := oneElem :: next.deleted }
        else
          let oneElem :=
            if oneElem.runCount ≠ maxThreadRunCount then
              { oneElem with runCount := oneElem.runCount - 1 }
            else oneElem
          ⟨some oneElem, oneElem :: rest, []⟩
      else
        let next := scan tick rest
        { next with elems := oneElem :: next.elems }

/-- `GetElem`, with the tick it reads. A deleted element takes its `pParam` with it. -/
def getElem (tick : DWORD) (elems : List ThreadElem) : GetResult :=
  if elems.length = 0 then ⟨none, elems, []⟩ else scan tick elems

/-- `HasSpace` -/
def hasSpace (elems : List ThreadElem) : Bool := decide (elems.length < maxThreadElems)

/-- `AddElem`, with nobody between its check and its insertion. -/
def addElem (param : ThreadElem) (elems : List ThreadElem) : Bool × List ThreadElem :=
  if param.runCount = 0#32 ∧ param.runCount ≠ maxThreadRunCount then (false, elems)
  else if !hasSpace elems then (false, elems)
  else (true, elems ++ [param])

/-! ## The scan in closed form -/

section

variable (tick : DWORD)

theorem getElem_eq_scan (elems : List ThreadElem) : getElem tick elems = scan tick elems := by
  cases elems <;> rfl

theorem scan_cons_of_not_due {e : ThreadElem} (rest : List ThreadElem) (h : e.due tick = false) :
    scan tick (e :: rest) =
      { scan tick rest with elems := e :: (scan tick rest).elems } := by
  have hdue : ¬tick - e.startTime > e.interval := of_decide_eq_false h
  rw [scan, if_neg hdue]

theorem scan_cons_of_spent {e : ThreadElem} (rest : List ThreadElem) (h : e.spent tick = true) :
    scan tick (e :: rest) =
      { scan tick rest with
        deleted := e.stamp tick :: (scan tick rest).deleted } := by
  obtain ⟨due, zero⟩ := Bool.and_eq_true_iff.mp h
  have hdue : tick - e.startTime > e.interval := of_decide_eq_true due
  have hzero : e.runCount = 0#32 := eq_of_beq zero
  have hfinite : e.runCount ≠ maxThreadRunCount := by rw [hzero]; decide
  rw [scan, if_pos hdue, if_pos ⟨hzero, hfinite⟩]
  rfl

theorem scan_cons_of_runnable {e : ThreadElem} (rest : List ThreadElem)
    (h : e.runnable tick = true) :
    scan tick (e :: rest) = ⟨some (e.run tick), e.run tick :: rest, []⟩ := by
  obtain ⟨due, left⟩ := Bool.and_eq_true_iff.mp h
  have hdue : tick - e.startTime > e.interval := of_decide_eq_true due
  have hleft : e.runCount ≠ 0#32 := bne_iff_ne.mp left
  rw [scan, if_pos hdue, if_neg fun hzero => hleft hzero.1]
  by_cases hmax : e.runCount = maxThreadRunCount <;> simp [ThreadElem.run, hmax]

/-- Every element is handed out, deleted or passed over. -/
theorem ThreadElem.cases_due (e : ThreadElem) :
    e.runnable tick = true ∨ e.runnable tick = false ∧ e.spent tick = true ∨
      e.runnable tick = false ∧ e.spent tick = false ∧ e.due tick = false := by
  cases hdue : e.due tick <;> cases hzero : e.runCount == 0#32 <;>
    simp [runnable, spent, hdue, hzero, bne]

/-- What `GetElem` makes of a list: it splits at the first element that is due with
runs left. Before it the spent elements go, behind it nothing is looked at. -/
inductive Scanned : List ThreadElem → GetResult → Prop
  | null (before : List ThreadElem) (idle : ∀ e ∈ before, e.runnable tick = false) :
      Scanned before
        { returned := none
          elems := before.filter fun e => !e.spent tick
          deleted := (before.filter fun e => e.spent tick).map (·.stamp tick) }
  | handOut (before : List ThreadElem) (e : ThreadElem) (rest : List ThreadElem)
      (idle : ∀ e ∈ before, e.runnable tick = false) (runnable : e.runnable tick = true) :
      Scanned (before ++ e :: rest)
        { returned := some (e.run tick)
          elems := (before.filter fun e => !e.spent tick) ++ e.run tick :: rest
          deleted := (before.filter fun e => e.spent tick).map (·.stamp tick) }

variable {tick}

/-- An element that is not handed out goes in front of what is known of the rest. -/
theorem Scanned.cons {elems : List ThreadElem} {r : GetResult} (h : Scanned tick elems r)
    {e : ThreadElem} (idle : e.runnable tick = false) :
    Scanned tick (e :: elems)
      { r with
        elems := if e.spent tick then r.elems else e :: r.elems
        deleted := if e.spent tick then e.stamp tick :: r.deleted else r.deleted } := by
  cases h with
  | null _ others =>
      have key := Scanned.null (e :: elems) (List.forall_mem_cons.mpr ⟨idle, others⟩)
      cases hspent : e.spent tick <;> simpa [hspent] using key
  | handOut before x rest others runnable =>
      have key := Scanned.handOut (e :: before) x rest
        (List.forall_mem_cons.mpr ⟨idle, others⟩) runnable
      cases hspent : e.spent tick <;> simpa [hspent] using key

theorem scan_scanned (elems : List ThreadElem) : Scanned tick elems (scan tick elems) := by
  induction elems with
  | nil => exact .null [] (by simp)
  | cons e rest ih =>
      rcases e.cases_due tick with runnable | ⟨idle, spent⟩ | ⟨idle, kept, notDue⟩
      · rw [scan_cons_of_runnable tick rest runnable]
        exact .handOut [] e rest (by simp) runnable
      · rw [scan_cons_of_spent tick rest spent]
        simpa [spent] using ih.cons idle
      · rw [scan_cons_of_not_due tick rest notDue]
        simpa [kept] using ih.cons idle

/-- The closed form of `GetElem`. -/
theorem getElem_scanned (tick : DWORD) (elems : List ThreadElem) :
    Scanned tick elems (getElem tick elems) := by
  rw [getElem_eq_scan]
  exact scan_scanned elems

/-! ## What becomes of one element -/

/-- The three things that a call of `GetElem` can do to an element of the list. -/
inductive Fate (tick : DWORD) (x : ThreadElem) (r : GetResult) : Prop
  | kept (member : x ∈ r.elems) (other : ∀ e, r.returned = some e → e.id ≠ x.id)
  | handedOut (runnable : x.runnable tick = true) (member : x.run tick ∈ r.elems)
      (returned : r.returned = some (x.run tick))
  | deleted (spent : x.spent tick = true) (gone : ∀ y ∈ r.elems, y.id ≠ x.id)
      (other : ∀ e, r.returned = some e → e.id ≠ x.id)

section

variable {elems : List ThreadElem} {r : GetResult} {x y : ThreadElem}

theorem Scanned.ids_sublist (h : Scanned tick elems r) :
    (r.elems.map ThreadElem.id).Sublist (elems.map ThreadElem.id) := by
  cases h with
  | null before _ => exact List.filter_sublist.map _
  | handOut before e rest _ _ =>
      rw [List.map_append, List.map_append]
      exact (List.filter_sublist.map _).append (List.Sublist.refl _)

/-- What is deleted was in the list, due and without a run left. -/
theorem Scanned.deleted (h : Scanned tick elems r) (hy : y ∈ r.deleted) :
    ∃ x ∈ elems, x.spent tick = true ∧ y = x.stamp tick := by
  cases h with
  | null before _ =>
      obtain ⟨x, hx, rfl⟩ := List.mem_map.mp hy
      obtain ⟨hmem, spent⟩ := List.mem_filter.mp hx
      exact ⟨x, hmem, spent, rfl⟩
  | handOut before e rest _ _ =>
      obtain ⟨x, hx, rfl⟩ := List.mem_map.mp hy
      obtain ⟨hmem, spent⟩ := List.mem_filter.mp hx
      exact ⟨x, List.mem_append_left _ hmem, spent, rfl⟩

/-- What is handed out was in the list, due and with a run left. -/
theorem Scanned.returned (h : Scanned tick elems r) (hy : r.returned = some y) :
    ∃ x ∈ elems, x.runnable tick = true ∧ y = x.run tick := by
  cases h with
  | null before _ => cases hy
  | handOut before e rest _ runnable =>
      exact ⟨e, List.mem_append_right _ List.mem_cons_self, runnable, (Option.some.inj hy).symm⟩

/-- Distinct objects: those before an element, the element and those behind it. -/
theorem ids_apart {before rest : List ThreadElem} {e : ThreadElem}
    (nodup : ((before ++ e :: rest).map ThreadElem.id).Nodup) :
    (∀ y ∈ before, ∀ z ∈ e :: rest, y.id ≠ z.id) ∧ ∀ z ∈ rest, e.id ≠ z.id := by
  rw [List.map_append] at nodup
  constructor
  · intro y hy z hz hid
    exact List.disjoint_of_nodup_append nodup (List.mem_map_of_mem hy)
      (hid ▸ List.mem_map_of_mem hz)
  · intro z hz hid
    exact (List.nodup_cons.mp nodup.of_append_right).1 (hid ▸ List.mem_map_of_mem hz)

/-- Distinct objects: every element of the list has one of the three fates. -/
theorem Scanned.fate (h : Scanned tick elems r) (nodup : (elems.map ThreadElem.id).Nodup)
    (hx : x ∈ elems) : Fate tick x r := by
  have same : ∀ y ∈ elems, y.id = x.id → y = x := fun y hy hid =>
    List.inj_on_of_nodup_map nodup hy hx hid
  cases h with
  | null before idle =>
      cases hspent : x.spent tick with
      | true =>
          refine .deleted hspent ?_ (by simp)
          intro y hy hid
          obtain ⟨hmem, kept⟩ := List.mem_filter.mp hy
          rw [same y hmem hid, hspent] at kept
          cases kept
      | false => exact .kept (List.mem_filter.mpr ⟨hx, by rw [hspent]; rfl⟩) (by simp)
  | handOut before e rest idle runnable =>
      obtain ⟨apart, first⟩ := ids_apart nodup
      cases List.mem_append.mp hx with
      | inl hx =>
          have other : ∀ y, some (e.run tick) = some y → y.id ≠ x.id := by
            intro y hy
            obtain rfl := Option.some.inj hy
            exact (apart x hx e List.mem_cons_self).symm
          cases hspent : x.spent tick with
          | true =>
              refine .deleted hspent ?_ other
              intro y hy hid
              cases List.mem_append.mp hy with
              | inl hy =>
                  obtain ⟨hmem, kept⟩ := List.mem_filter.mp hy
                  rw [same y (List.mem_append_left _ hmem) hid, hspent] at kept
                  cases kept
              | inr hy =>
                  cases List.mem_cons.mp hy with
                  | inl hy =>
                      rw [hy] at hid
                      exact apart x hx e List.mem_cons_self hid.symm
                  | inr hy => exact apart x hx y (List.mem_cons_of_mem _ hy) hid.symm
          | false =>
              refine .kept (List.mem_append_left _ ?_) other
              exact List.mem_filter.mpr ⟨hx, by rw [hspent]; rfl⟩
      | inr hx =>
          cases List.mem_cons.mp hx with
          | inl here =>
              subst here
              exact .handedOut runnable (List.mem_append_right _ List.mem_cons_self) rfl
          | inr hx =>
              refine .kept (List.mem_append_right _ (List.mem_cons_of_mem _ hx)) ?_
              intro y hy
              obtain rfl := Option.some.inj hy
              exact first x hx

/-- Where an element of the new list comes from. -/
theorem Scanned.origin (h : Scanned tick elems r) (nodup : (elems.map ThreadElem.id).Nodup)
    (hy : y ∈ r.elems) :
    (y ∈ elems ∧ ∀ e, r.returned = some e → e.id ≠ y.id) ∨
      (r.returned = some y ∧ ∃ x ∈ elems, x.runnable tick = true ∧ y = x.run tick) := by
  have only : ∀ z ∈ r.elems, z.id = y.id → y = z := fun z hz hid =>
    List.inj_on_of_nodup_map (nodup.sublist h.ids_sublist) hy hz hid.symm
  obtain ⟨x, hx, hid⟩ := List.mem_map.mp (h.ids_sublist.subset (List.mem_map_of_mem hy))
  cases h.fate nodup hx with
  | kept stays other =>
      obtain rfl := only x stays hid
      exact .inl ⟨hx, other⟩
  | handedOut runnable stays returned =>
      obtain rfl := only _ stays hid
      exact .inr ⟨returned, x, hx, runnable, rfl⟩
  | deleted _ gone _ => exact absurd hid.symm (gone y hy)

end

end

end IocpTest.ThreadPool
