import IocpTest.ThreadPool.Pool
import Mathlib.Algebra.BigOperators.Group.List.Basic
import Mathlib.Algebra.GroupWithZero.Nat

/-!
# Who runs when several calls meet

The list is scanned from its start by every call, so the order in the list is the order of
precedence. Calls that read the same tick share the due elements between them: each gets the
next one, since an element handed out at a tick is not due at that tick any more
(`returned_afterCalls`).

At later ticks the elements in front can be due again and are taken first. `handedOut_within`
bounds how often that can happen to an element that waits: no more often than the elements
in front of it have runs left. An element without end in front of it voids the bound
(`exists_run_starved`).
-/

namespace IocpTest.ThreadPool

open StepSystem Function

/-- The list after `k` calls of `GetElem` at the same tick. -/
def afterCalls (tick : DWORD) : Nat → List ThreadElem → List ThreadElem
  | 0, elems => elems
  | k + 1, elems => afterCalls tick k (getElem tick elems).elems

/-- An element when nobody is due any more at this tick. -/
def ThreadElem.settle (e : ThreadElem) (tick : DWORD) : ThreadElem :=
  if e.runnable tick then e.run tick else e

/-! ## Calls at the same tick -/

section

variable {tick : DWORD} {e : ThreadElem} {done rest : List ThreadElem}

theorem due_of_runnable (h : e.runnable tick = true) : e.due tick = true :=
  (Bool.and_eq_true_iff.mp h).1

/-- What has been handed out at a tick is not due at it. -/
theorem run_not_due (e : ThreadElem) (tick : DWORD) : (e.run tick).due tick = false := by
  simp [ThreadElem.due]

theorem scan_append_of_not_due (idle : ∀ e ∈ done, e.due tick = false) (rest : List ThreadElem) :
    scan tick (done ++ rest) = { scan tick rest with elems := done ++ (scan tick rest).elems } := by
  induction done with
  | nil => rfl
  | cons e done ih =>
      obtain ⟨here, others⟩ := List.forall_mem_cons.mp idle
      simp only [List.cons_append, scan_cons_of_not_due tick _ here, ih others]

theorem afterCalls_of_not_due (idle : ∀ e ∈ done, e.due tick = false) (k : Nat) :
    afterCalls tick k done = done := by
  induction k with
  | zero => rfl
  | succ k ih =>
      have none := scan_append_of_not_due idle []
      rw [List.append_nil] at none
      simpa [afterCalls, getElem_eq_scan, none, scan] using ih

/-- Where the iterator of the scan would stand, the rest of the list decides. -/
theorem returned_append (done : List ThreadElem) (idle : ∀ e ∈ done, e.due tick = false)
    (rest : List ThreadElem) (k : Nat) :
    (getElem tick (afterCalls tick k (done ++ rest))).returned =
      ((rest.filter fun e => e.runnable tick)[k]?).map (·.run tick) := by
  induction rest generalizing done k with
  | nil =>
      have none := scan_append_of_not_due idle []
      rw [List.append_nil] at none ⊢
      simp [afterCalls_of_not_due idle, getElem_eq_scan, none, scan]
  | cons e rest ih =>
      rcases e.cases_due tick with runnable | ⟨idleHere, spent⟩ | ⟨idleHere, _, notDue⟩
      · cases k with
        | zero =>
            simp [afterCalls, getElem_eq_scan, scan_append_of_not_due idle,
              scan_cons_of_runnable tick rest runnable, runnable]
        | succ k =>
            have next := ih (done ++ [e.run tick]) (k := k) (by
              simpa [or_imp, forall_and, run_not_due] using idle)
            simpa [afterCalls, getElem_eq_scan, scan_append_of_not_due idle,
              scan_cons_of_runnable tick rest runnable, runnable] using next
      · have next := ih done idle k
        cases k <;>
          simpa [afterCalls, getElem_eq_scan, scan_append_of_not_due idle,
            scan_cons_of_spent tick rest spent, idleHere] using next
      · have next := ih (done ++ [e]) (k := k) (by
          simpa [or_imp, forall_and, notDue] using idle)
        simpa [idleHere] using next

theorem afterCalls_append (done : List ThreadElem) (idle : ∀ e ∈ done, e.due tick = false)
    {k : Nat}
    (enough : (rest.countP fun e => e.runnable tick) < k) :
    afterCalls tick k (done ++ rest) =
      done ++ (rest.filter fun e => !e.spent tick).map (·.settle tick) := by
  induction rest generalizing done k with
  | nil => simpa using afterCalls_of_not_due idle k
  | cons e rest ih =>
      rcases e.cases_due tick with runnable | ⟨idleHere, spent⟩ | ⟨idleHere, kept, notDue⟩
      · obtain ⟨k, rfl⟩ : ∃ m, k = m + 1 := ⟨k - 1, by omega⟩
        have left : e.spent tick = false := by
          have some := (Bool.and_eq_true_iff.mp runnable).2
          simpa [ThreadElem.spent, due_of_runnable runnable] using some
        have next := ih (done ++ [e.run tick]) (k := k) (by
          simpa [or_imp, forall_and, run_not_due] using idle) (by
          simpa [runnable] using enough)
        simpa [afterCalls, getElem_eq_scan, scan_append_of_not_due idle,
          scan_cons_of_runnable tick rest runnable, runnable, left, ThreadElem.settle] using next
      · obtain ⟨k, rfl⟩ : ∃ m, k = m + 1 := ⟨k - 1, by omega⟩
        have next := ih done idle (k := k + 1) (by simpa [idleHere] using enough)
        simpa [afterCalls, getElem_eq_scan, scan_append_of_not_due idle,
          scan_cons_of_spent tick rest spent, spent] using next
      · have next := ih (done ++ [e]) (k := k) (by
          simpa [or_imp, forall_and, notDue] using idle) (by simpa [idleHere] using enough)
        simpa [idleHere, kept, ThreadElem.settle] using next

end

/-- Calls at one tick hand out each element that is due with a run left once, in the order of
the list. A further call returns null, and then the spent elements are gone and nothing else
has changed. -/
theorem returned_afterCalls (tick : DWORD) (elems : List ThreadElem) :
    (∀ k, (getElem tick (afterCalls tick k elems)).returned =
      ((elems.filter fun e => e.runnable tick)[k]?).map (·.run tick)) ∧
    ∀ k, (elems.countP fun e => e.runnable tick) < k →
      afterCalls tick k elems = (elems.filter fun e => !e.spent tick).map (·.settle tick) :=
  ⟨returned_append [] (by simp) elems, fun _ => afterCalls_append [] (by simp)⟩

/-! ## Calls at later ticks -/

def PoolEvent.isGet : PoolEvent → Bool
  | .get _ => true
  | .add _ => false

def runsLeft (elems : List ThreadElem) : Nat := (elems.map fun e => e.runCount.toNat).sum

/-- The call hands out this element. -/
def HandsOut (x : ThreadElem) (p : Pool) : PoolEvent → Prop
  | .get time =>
      (getElem (BitVec.ofNat 32 time) p.elems).returned = some (x.run (BitVec.ofNat 32 time))
  | .add _ => False

section

variable {tick : DWORD} {x : ThreadElem} {front rest : List ThreadElem}

/-- A call that does not hand out an element with a run to do takes a run from in front of
it. -/
theorem front_of_overtaken (runnable : x.runnable tick = true)
    (finite : ∀ y ∈ front, y.runCount ≠ maxThreadRunCount)
    (other : (getElem tick (front ++ x :: rest)).returned ≠ some (x.run tick)) :
    ∃ front', (getElem tick (front ++ x :: rest)).elems = front' ++ x :: rest ∧
      (∀ y ∈ front', y.runCount ≠ maxThreadRunCount) ∧ runsLeft front' + 1 ≤ runsLeft front := by
  rw [getElem_eq_scan] at other ⊢
  induction front with
  | nil =>
      rw [List.nil_append, scan_cons_of_runnable tick rest runnable] at other
      exact absurd rfl other
  | cons y front ih =>
      obtain ⟨here, others⟩ := List.forall_mem_cons.mp finite
      rcases y.cases_due tick with ready | ⟨_, spent⟩ | ⟨_, _, notDue⟩
      · have left : y.runCount ≠ 0#32 := bne_iff_ne.mp (Bool.and_eq_true_iff.mp ready).2
        have oneLess := ThreadElem.run_runCount_toNat tick left here
        refine ⟨y.run tick :: front, ?_, ?_, ?_⟩
        · simp [scan_cons_of_runnable tick _ ready]
        · refine List.forall_mem_cons.mpr ⟨?_, others⟩
          intro endless
          have small := y.runCount.isLt
          rw [endless] at oneLess
          simp only [maxThreadRunCount, BitVec.toNat_ofNat] at oneLess
          omega
        · simp only [runsLeft, List.map_cons, List.sum_cons]
          omega
      · rw [List.cons_append, scan_cons_of_spent tick _ spent] at other ⊢
        obtain ⟨front', split, finite', less⟩ := ih others other
        refine ⟨front', split, finite', ?_⟩
        simp only [runsLeft, List.map_cons, List.sum_cons] at less ⊢
        omega
      · rw [List.cons_append, scan_cons_of_not_due tick _ notDue] at other ⊢
        obtain ⟨front', split, finite', less⟩ := ih others other
        refine ⟨y :: front', by simp [split], List.forall_mem_cons.mpr ⟨here, finite'⟩, ?_⟩
        simp only [runsLeft, List.map_cons, List.sum_cons] at less ⊢
        omega

end

/-- An element that has a run to do at every call is handed out before there have been more
calls than the elements in front of it have runs left, whatever is added meanwhile. -/
theorem handedOut_within {p p' : Pool} {trace : List (Pool × PoolEvent)}
    {x : ThreadElem} (front rest : List ThreadElem) (run : Run PoolStep p trace p')
    (split : p.elems = front ++ x :: rest)
    (finite : ∀ y ∈ front, y.runCount ≠ maxThreadRunCount)
    (due : ∀ taken ∈ trace, ∀ time, taken.2 = .get time →
      x.runnable (BitVec.ofNat 32 time) = true)
    (enough : runsLeft front < trace.countP fun taken => taken.2.isGet) :
    ∃ taken ∈ trace, HandsOut x taken.1 taken.2 := by
  induction run generalizing front rest with
  | nil => simp at enough
  | @cons p q p' e trace first _ ih =>
      obtain ⟨now, later⟩ := List.forall_mem_cons.mp due
      cases e with
      | add param =>
          obtain ⟨_, rfl⟩ := first
          have split' : ∃ rest', (p.add param).elems = front ++ x :: rest' := by
            cases p.add_cases param with
            | inl same => exact ⟨rest, by rw [same, split]⟩
            | inr added => exact ⟨rest ++ [param], by simp [added, split]⟩
          obtain ⟨rest', split'⟩ := split'
          obtain ⟨taken, member, handed⟩ := ih front rest' split' finite later (by
            simpa [PoolEvent.isGet] using enough)
          exact ⟨taken, List.mem_cons_of_mem _ member, handed⟩
      | get time =>
          obtain ⟨_, rfl⟩ := first
          by_cases handed : HandsOut x p (.get time)
          · exact ⟨_, List.mem_cons_self, handed⟩
          · have runnable := now time rfl
            simp only [HandsOut, split] at handed
            obtain ⟨front', split', finite', less⟩ := front_of_overtaken runnable finite handed
            have elems : (p.get time).elems = front' ++ x :: rest := by
              simpa [Pool.get, split] using split'
            rw [List.countP_cons_of_pos rfl] at enough
            obtain ⟨taken, member, handed⟩ := ih front' rest elems finite' later (by omega)
            exact ⟨taken, List.mem_cons_of_mem _ member, handed⟩

/-- An element in front that runs twice, and one behind it that waits. -/
def twoWaiting : List ThreadElem :=
  [⟨0, some 1, some 10, 2#32, 0#32, 0#32⟩, ⟨1, some 1, some 11, 1#32, 0#32, 0#32⟩]

/-- The third call is its turn. -/
theorem handedOut_within_twoWaiting : ∃ trace p,
    Run PoolStep ⟨twoWaiting, 0, [], fun _ => []⟩ trace p ∧
      trace.map Prod.snd = [.get 1, .get 2, .get 3] ∧
      ∃ taken ∈ trace, HandsOut ⟨1, some 1, some 11, 1#32, 0#32, 0#32⟩ taken.1 taken.2 := by
  let start : Pool := ⟨twoWaiting, 0, [], fun _ => []⟩
  let first := start.get 1
  let second := first.get 2
  have get : PoolStep start (.get 1) first := ⟨Nat.zero_le 1, rfl⟩
  have again : PoolStep first (.get 2) second := ⟨Nat.le_succ 1, rfl⟩
  have last : PoolStep second (.get 3) (second.get 3) := ⟨Nat.le_succ 2, rfl⟩
  have run := Run.cons get (.cons again (.cons last (.nil _)))
  refine ⟨_, _, run, rfl, handedOut_within [_] [] run rfl ?_ ?_ ?_⟩
  · decide
  · intro taken member time here
    simp only [List.mem_cons, List.not_mem_nil, or_false] at member
    obtain rfl | rfl | rfl := member <;> cases here <;> decide
  · decide

/-- Behind an element without end and without an interval nobody else runs, for any number
of calls that are a millisecond apart. -/
theorem exists_run_starved {p : Pool} {y : ThreadElem} {rest : List ThreadElem}
    (split : p.elems = y :: rest) (endless : y.runCount = maxThreadRunCount)
    (always : y.interval = 0#32) (stamp : y.startTime = BitVec.ofNat 32 p.now) (n : Nat) :
    ∃ trace p', Run PoolStep p trace p' ∧
      trace.map Prod.snd = (List.range n).map (fun k => .get (p.now + k + 1)) ∧
      ∀ taken ∈ trace, ∀ x, x.id ≠ y.id → ¬HandsOut x taken.1 taken.2 := by
  induction n generalizing p y with
  | zero => exact ⟨[], p, .nil p, rfl, by simp⟩
  | succ n ih =>
      have tick : BitVec.ofNat 32 (p.now + 1) - BitVec.ofNat 32 p.now = (1#32 : DWORD) := by
        rw [BitVec.ofNat_add, BitVec.add_comm]
        exact BitVec.add_sub_cancel _ _
      have runnable : y.runnable (BitVec.ofNat 32 (p.now + 1)) = true := by
        have some : (maxThreadRunCount != 0#32) = true := by decide
        simp [ThreadElem.runnable, ThreadElem.due, stamp, always, endless, tick, some]
      have scanned := scan_cons_of_runnable _ rest runnable
      have get : PoolStep p (.get (p.now + 1)) (p.get (p.now + 1)) := ⟨Nat.le_succ _, rfl⟩
      have next : (p.get (p.now + 1)).elems = y.run (BitVec.ofNat 32 (p.now + 1)) :: rest := by
        simp [Pool.get, split, getElem_eq_scan, scanned]
      obtain ⟨trace, p', run, events, others⟩ := ih next
        (ThreadElem.run_runCount_of_eq _ endless) always rfl
      refine ⟨_, p', .cons get run, ?_, List.forall_mem_cons.mpr ⟨?_, others⟩⟩
      · have later : (p.get (p.now + 1)).now = p.now + 1 := rfl
        simp [events, later, List.range_succ_eq_map, comp_def, Nat.add_comm, Nat.add_left_comm]
      · intro x other handed
        simp only [HandsOut, split, getElem_eq_scan, scanned, Option.some.injEq] at handed
        exact other (congrArg ThreadElem.id handed).symm

end IocpTest.ThreadPool
