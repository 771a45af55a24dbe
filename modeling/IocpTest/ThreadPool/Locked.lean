import IocpTest.Logic.CriticalSection
import IocpTest.ThreadPool.Capacity
import IocpTest.ThreadPool.Lifetime

/-!
# The sections of the thread pool, statement by statement

`GetElem`, `HasSpace` and the insertion of `AddElem` each hold `m_csLocker` from their first
statement to their return. Here any number of threads go through them statement by statement:
the scan moves its iterator, stamps an element, deletes its `pParam` and then the object, and
only then takes the pointer out of the list.

`path_scan` follows the scan to its return. Behind the clock a section has one way to go, so
this is what every call does: `atomicStep_iff` gives the whole sections as steps, with
`GetElem`, `HasSpace` and the insertion as the rest of the development has them.
-/

namespace IocpTest.ThreadPool

open StepSystem CriticalSection Relation Function

/-- Where a thread stands in a section. The scan carries the time it has read and how many
elements are in front of its iterator. -/
inductive Point where
  /-- Before `m_elems.size() == 0`. -/
  | entered
  /-- Before `tick = timeGetTime()`. -/
  | sized
  /-- Before the loop test. -/
  | looping (time n : Nat)
  /-- Before `tick - oneElem->startTime > oneElem->interval`. -/
  | testing (time n : Nat)
  /-- Before `oneElem->startTime = tick`. -/
  | due (time n : Nat)
  /-- Before the test of `runCount`. -/
  | stamped (time n : Nat)
  /-- Before `SAFE_DELETE(oneElem->pParam)`. -/
  | spent (time n : Nat)
  /-- Before `SAFE_DELETE(oneElem)`. -/
  | stripped (time n : Nat)
  /-- Before `m_elems.erase(m_elemIt)`: the pointer in the list dangles. -/
  | dangling (time n : Nat)
  /-- Before `--oneElem->runCount` and the return. -/
  | found (time n : Nat)
  /-- `GetElem` returns. -/
  | returning (result : Option ThreadElem)
  /-- Before `m_elems.size() < MAX_THREAD_ELEMS`. -/
  | checking (param : ThreadElem)
  /-- `HasSpace` returns. -/
  | checked (param : ThreadElem) (space : Bool)
  /-- Before `m_elems.push_back(param)`. -/
  | pushing (param : ThreadElem)
  | pushed

/-- A thread outside of the sections. -/
inductive Caller where
  | idle
  /-- `AddElem` is called. -/
  | adding (param : ThreadElem)
  /-- Before `HasSpace`. -/
  | asking (param : ThreadElem)
  | told (param : ThreadElem) (space : Bool)
  /-- Before the lock of the insertion. -/
  | inserting (param : ThreadElem)
  /-- `AddElem` has returned. -/
  | added (result : Bool)
  /-- Before `GetElem`. -/
  | fetching
  | fetched (result : Option ThreadElem)

/-- The statement at a point, taken when the clock shows `clock`. `now` is the time of the last
call. `none`: the section is over, there is no element at the iterator, or the clock would
have gone back. -/
def Point.next (clock : Nat) : Point → Ledger → Option (Point × Ledger)
  | .entered, s =>
      if s.elems.length = 0 then
        if s.now ≤ clock then some (.returning none, { s with now := clock }) else none
      else some (.sized, s)
  | .sized, s => if s.now ≤ clock then some (.looping clock 0, { s with now := clock }) else none
  | .looping time n, s =>
      some (if n = s.elems.length then .returning none else .testing time n, s)
  | .testing time n, s =>
      s.elems[n]?.map fun oneElem =>
        (if BitVec.ofNat 32 time - oneElem.startTime > oneElem.interval then .due time n
          else .looping time (n + 1), s)
  | .due time n, s =>
      s.elems[n]?.map fun oneElem =>
        (.stamped time n,
          { s with elems := s.elems.set n { oneElem with startTime := BitVec.ofNat 32 time } })
  | .stamped time n, s =>
      s.elems[n]?.map fun oneElem =>
        (if oneElem.runCount = 0#32 ∧ oneElem.runCount ≠ maxThreadRunCount then .spent time n
          else .found time n, s)
  | .spent time n, s =>
      s.elems[n]?.map fun oneElem =>
        (.stripped time n,
          { s with
            elems := s.elems.set n { oneElem with pParam := none }
            freed := s.freed ++ (oneElem.pParam.map Freed.pParam).toList })
  | .stripped time n, s =>
      s.elems[n]?.map fun oneElem =>
        (.dangling time n, { s with freed := s.freed ++ [.elem oneElem.id] })
  | .dangling time n, s =>
      s.elems[n]?.map fun _ => (.looping time n, { s with elems := s.elems.eraseIdx n })
  | .found time n, s =>
      s.elems[n]?.map fun oneElem =>
        let oneElem :=
          if oneElem.runCount ≠ maxThreadRunCount then
            { oneElem with runCount := oneElem.runCount - 1 }
          else oneElem
        (.returning (some oneElem),
          { s with
            elems := s.elems.set n oneElem
            returns := s.record time (some oneElem) })
  | .checking param, s => some (.checked param (hasSpace s.elems), s)
  | .pushing param, s => some (.pushed, s.push param)
  | .returning _, _ => none
  | .checked _ _, _ => none
  | .pushed, _ => none

/-- The pool's text. An inserted object is a new one with a new parameter. -/
def poolText : Text Ledger Caller Point where
  outer
    | .idle, l' => l' = .fetching ∨ ∃ param, l' = .adding param
    | .adding param, l' =>
        l' = if param.runCount = 0#32 ∧ param.runCount ≠ maxThreadRunCount then .added false
          else .asking param
    | .told param space, l' => l' = if !space then .added false else .inserting param
    | .added _, l' => l' = .idle
    | .fetched _, l' => l' = .idle
    | _, _ => False
  enter
    | .asking param, k => k = .checking param
    | .inserting param, k => k = .pushing param
    | .fetching, k => k = .entered
    | _, _ => False
  inner x y :=
    (∃ clock, x.1.next clock x.2 = some y) ∧ ∀ param, x.1 = .pushing param → x.2.New param
  leave
    | .returning result, l => l = .fetched result
    | .checked param space, l => l = .told param space
    | .pushed, l => l = .added true
    | _, _ => False

/-! ## The scan -/

section

variable {s : Ledger} {e : ThreadElem} {front rest : List ThreadElem} {time : Nat}

/-- What the scan from the iterator on makes of the pool. -/
def Ledger.scanned (s : Ledger) (time : Nat) (front rest : List ThreadElem) : Ledger :=
  { s with
    elems := front ++ (scan (BitVec.ofNat 32 time) rest).elems
    returns := s.record time (scan (BitVec.ofNat 32 time) rest).returned
    freed := s.freed ++ (scan (BitVec.ofNat 32 time) rest).frees }

theorem inner_of_next {p p' : Point} {s' : Ledger} (time : Nat)
    (next : p.next time s = some (p', s'))
    (plain : ∀ param, p ≠ .pushing param) : poolText.inner (p, s) (p', s') :=
  ⟨⟨time, next⟩, fun param here => absurd here (plain param)⟩

theorem at_iterator (h : s.elems = front ++ e :: rest) : s.elems[front.length]? = some e := by
  simp [h]

theorem path_testing (h : s.elems = front ++ e :: rest) :
    poolText.inner (.looping time front.length, s) (.testing time front.length, s) := by
  refine inner_of_next time ?_ (by simp)
  simp [Point.next, h]

theorem path_of_not_due (h : s.elems = front ++ e :: rest)
    (notDue : e.due (BitVec.ofNat 32 time) = false) :
    ReflTransGen poolText.inner (.looping time front.length, s)
      (.looping time (front.length + 1), s) := by
  have test : poolText.inner (.testing time front.length, s)
      (.looping time (front.length + 1), s) := by
    refine inner_of_next time ?_ (by simp)
    have := of_decide_eq_false notDue
    simp [Point.next, at_iterator h, this]
  exact .head (path_testing h) (.single test)

theorem path_stamped (h : s.elems = front ++ e :: rest)
    (due : e.due (BitVec.ofNat 32 time) = true) :
    ReflTransGen poolText.inner (.looping time front.length, s)
      (.stamped time front.length,
        { s with elems := front ++ e.stamp (BitVec.ofNat 32 time) :: rest }) := by
  have test : poolText.inner (.testing time front.length, s) (.due time front.length, s) := by
    refine inner_of_next time ?_ (by simp)
    have := of_decide_eq_true due
    simp [Point.next, at_iterator h, this]
  have stamp : poolText.inner (.due time front.length, s) (.stamped time front.length,
      { s with elems := front ++ e.stamp (BitVec.ofNat 32 time) :: rest }) := by
    refine inner_of_next time ?_ (by simp)
    simp [Point.next, h, ThreadElem.stamp]
  exact .head (path_testing h) (.head test (.single stamp))

/-- A spent element loses its parameter, its object and its place in the list. -/
theorem path_of_spent (h : s.elems = front ++ e :: rest)
    (spent : e.spent (BitVec.ofNat 32 time) = true) :
    ReflTransGen poolText.inner (.looping time front.length, s)
      (.looping time front.length,
        { s with elems := front ++ rest, freed := s.freed ++ e.safeDelete }) := by
  obtain ⟨due, zero⟩ := Bool.and_eq_true_iff.mp spent
  have none : e.runCount = 0#32 := eq_of_beq zero
  have unmarked : ¬(0#32 : DWORD) = maxThreadRunCount := by decide
  let stamped : Ledger := { s with elems := front ++ e.stamp (BitVec.ofNat 32 time) :: rest }
  let bare : ThreadElem := { e.stamp (BitVec.ofNat 32 time) with pParam := Option.none }
  let stripped : Ledger :=
    { s with
      elems := front ++ bare :: rest
      freed := s.freed ++ (e.pParam.map Freed.pParam).toList }
  let dangling : Ledger := { stripped with freed := s.freed ++ e.safeDelete }
  have decides : poolText.inner (.stamped time front.length, stamped)
      (.spent time front.length, stamped) := by
    refine inner_of_next time ?_ (by simp)
    simp [Point.next, stamped, ThreadElem.stamp, none, unmarked]
  have strips : poolText.inner (.spent time front.length, stamped)
      (.stripped time front.length, stripped) := by
    refine inner_of_next time ?_ (by simp)
    simp [Point.next, stamped, stripped, bare, ThreadElem.stamp]
  have drops : poolText.inner (.stripped time front.length, stripped)
      (.dangling time front.length, dangling) := by
    refine inner_of_next time ?_ (by simp)
    simp [Point.next, stripped, dangling, bare, ThreadElem.stamp, ThreadElem.safeDelete]
  have erases : poolText.inner (.dangling time front.length, dangling)
      (.looping time front.length,
        { s with elems := front ++ rest, freed := s.freed ++ e.safeDelete }) := by
    refine inner_of_next time ?_ (by simp)
    simp [Point.next, dangling, stripped, List.eraseIdx_append_of_length_le]
  exact (path_stamped h due).trans (.head decides (.head strips (.head drops (.single erases))))

/-- The first element with a run left ends the scan. -/
theorem path_of_runnable (h : s.elems = front ++ e :: rest)
    (runnable : e.runnable (BitVec.ofNat 32 time) = true) :
    ReflTransGen poolText.inner (.looping time front.length, s)
      (.returning (some (e.run (BitVec.ofNat 32 time))),
        { s with
          elems := front ++ e.run (BitVec.ofNat 32 time) :: rest
          returns := s.record time (some (e.run (BitVec.ofNat 32 time))) }) := by
  obtain ⟨due, some⟩ := Bool.and_eq_true_iff.mp runnable
  have left : ¬e.runCount = 0#32 := bne_iff_ne.mp some
  let stamped : Ledger := { s with elems := front ++ e.stamp (BitVec.ofNat 32 time) :: rest }
  have decides : poolText.inner (.stamped time front.length, stamped)
      (.found time front.length, stamped) := by
    refine inner_of_next time ?_ (by simp)
    simp [Point.next, stamped, ThreadElem.stamp, left]
  refine (path_stamped h due).trans (.head decides (.single ?_))
  refine inner_of_next time ?_ (by simp)
  by_cases endless : e.runCount = maxThreadRunCount <;>
    simp [Point.next, stamped, ThreadElem.stamp, ThreadElem.run, endless, Pool.record]

/-- From any place of the iterator the scan comes to its return. -/
theorem path_scan (time : Nat) (front : List ThreadElem) (h : s.elems = front ++ rest) :
    ReflTransGen poolText.inner (.looping time front.length, s)
      (.returning (scan (BitVec.ofNat 32 time) rest).returned, s.scanned time front rest) := by
  induction rest generalizing s front with
  | nil =>
      refine .single (inner_of_next time ?_ (by simp))
      obtain rfl : front = s.elems := by simpa using h.symm
      simp [Point.next, scan, Ledger.scanned, GetResult.frees, Pool.record]
  | cons e rest ih =>
      rcases e.cases_due (BitVec.ofNat 32 time) with runnable | ⟨_, spent⟩ | ⟨_, _, notDue⟩
      · have path := path_of_runnable h runnable
        simpa [Ledger.scanned, scan_cons_of_runnable _ rest runnable, GetResult.frees] using path
      · refine (path_of_spent h spent).trans ?_
        have path := ih (s := { s with
          elems := front ++ rest
          freed := s.freed ++ e.safeDelete }) front rfl
        simpa [Ledger.scanned, scan_cons_of_spent _ rest spent, GetResult.frees, Pool.record,
          ThreadElem.stamp, ThreadElem.safeDelete] using path
      · refine (path_of_not_due h notDue).trans ?_
        have path := ih (front ++ [e]) (s := s) (by simp [h])
        simpa [Ledger.scanned, scan_cons_of_not_due _ rest notDue, GetResult.frees] using path

end

/-! ## Whole sections -/

section

variable {s s' : Ledger} {p : Point} {l : Caller} {y : Point × Ledger}

def Point.Timed (p : Point) : Prop := p ≠ .entered ∧ p ≠ .sized

theorem Point.Timed.next {p' : Point} {clock : Nat} (timed : p.Timed)
    (next : p.next clock s = some (p', s')) : p'.Timed := by
  obtain ⟨first, second⟩ := timed
  cases p with
  | entered => exact absurd rfl first
  | sized => exact absurd rfl second
  | returning | checked | pushed => cases next
  | looping | testing | due | stamped | spent | stripped | dangling | found | checking | pushing =>
      simp only [Point.next, Option.map_eq_some_iff, Option.some.injEq, Prod.mk.injEq] at next
      grind [Point.Timed]

/-- The clock is read once. -/
theorem Point.Timed.next_eq (timed : p.Timed) (clock clock' : Nat) (s : Ledger) :
    p.next clock s = p.next clock' s := by
  obtain ⟨first, second⟩ := timed
  cases p with
  | entered => exact absurd rfl first
  | sized => exact absurd rfl second
  | _ => rfl

/-- Behind the clock a section has one way to go. -/
theorem rightUnique_walk :
    Relator.RightUnique fun x y : Point × Ledger => x.1.Timed ∧ poolText.inner x y := by
  rintro x y z ⟨timed, ⟨clock, toY⟩, _⟩ ⟨_, ⟨clock', toZ⟩, _⟩
  rw [timed.next_eq clock clock'] at toY
  exact Option.some.inj (toY.symm.trans toZ)

theorem walk_of_path {x : Point × Ledger} (path : ReflTransGen poolText.inner x y)
    (timed : x.1.Timed) :
    ReflTransGen (fun x y : Point × Ledger => x.1.Timed ∧ poolText.inner x y) x y ∧
      y.1.Timed := by
  induction path with
  | refl => exact ⟨.refl, timed⟩
  | tail _ last ih =>
      obtain ⟨walk, here⟩ := ih
      obtain ⟨clock, next⟩ := last.1
      exact ⟨walk.tail ⟨here, last⟩, here.next next⟩

def Point.Over (p : Point) : Prop := ∀ clock s, p.next clock s = none

theorem over_of_leave (leaves : poolText.leave p l) : p.Over := by
  cases p with
  | returning | checked | pushed => exact fun _ _ => rfl
  | _ => cases leaves

/-- A section that is over goes nowhere. -/
theorem Point.Over.eq_of_path (ended : p.Over) (path : ReflTransGen poolText.inner (p, s) y) :
    y = (p, s) := by
  obtain same | ⟨_, ⟨⟨clock, next⟩, _⟩, _⟩ := path.cases_head
  · exact same.symm
  · rw [ended clock] at next
    cases next

theorem eq_of_paths {x : Point × Ledger} {p' : Point} (timed : x.1.Timed) (ended : p.Over)
    (ended' : p'.Over) (first : ReflTransGen poolText.inner x (p, s))
    (second : ReflTransGen poolText.inner x (p', s')) : (p, s) = (p', s') := by
  have ends := ReflTransGen.total_of_right_unique rightUnique_walk
    (walk_of_path first timed).1 (walk_of_path second timed).1
  cases ends with
  | inl walk =>
      have path := ReflTransGen.mono (fun _ _ step => step.2) _ _ walk
      exact (ended.eq_of_path path).symm
  | inr walk =>
      have path := ReflTransGen.mono (fun _ _ step => step.2) _ _ walk
      exact ended'.eq_of_path path

theorem Ledger.get_of_empty {time : Nat} (empty : s.elems = []) :
    s.get time = { s with now := time } := by
  simp [Ledger.get, Pool.get, empty, getElem, GetResult.frees, Pool.record]

/-- The scan from the start of the list, at the time just read, is the call. -/
theorem Ledger.scanned_nil (s : Ledger) (time : Nat) :
    Ledger.scanned { s with now := time } time [] s.elems = s.get time := by
  simp [Ledger.scanned, Ledger.get, Pool.get, getElem_eq_scan, Pool.record]

/-- A call of `GetElem` gets to its return. -/
theorem path_getElem {time : Nat} (later : s.now ≤ time) :
    ReflTransGen poolText.inner (.entered, s)
      (.returning (getElem (BitVec.ofNat 32 time) s.elems).returned, s.get time) := by
  by_cases empty : s.elems = []
  · refine .single (inner_of_next time ?_ (by simp))
    simp [Point.next, empty, later, Ledger.get_of_empty, getElem]
  · have tests : poolText.inner (.entered, s) (.sized, s) := by
      refine inner_of_next time ?_ (by simp)
      simp [Point.next, empty]
    have reads : poolText.inner (.sized, s) (.looping time 0, { s with now := time }) := by
      refine inner_of_next time ?_ (by simp)
      simp [Point.next, later]
    have scans := path_scan (s := { s with now := time }) time [] rfl
    rw [Ledger.scanned_nil, ← getElem_eq_scan] at scans
    exact .head tests (.head reads scans)

/-- And it ends nowhere else. -/
theorem getElem_of_path (ended : p.Over)
    (path : ReflTransGen poolText.inner (.entered, s) (p, s')) :
    ∃ time, s.now ≤ time ∧ s' = s.get time ∧
      p = .returning (getElem (BitVec.ofNat 32 time) s.elems).returned := by
  obtain same | ⟨x, ⟨⟨clock, next⟩, _⟩, path⟩ := path.cases_head
  · obtain ⟨rfl, rfl⟩ := Prod.mk.inj same
    have none := ended s.now s
    simp only [Point.next, Nat.le_refl, if_true] at none
    split at none <;> cases none
  by_cases empty : s.elems = []
  · simp only [Point.next, List.length_eq_zero_iff, if_pos empty, Option.ite_none_right_eq_some,
      Option.some.injEq] at next
    obtain ⟨later, rfl⟩ := next
    have ends : (Point.returning none).Over := fun _ _ => rfl
    obtain ⟨rfl, rfl⟩ := Prod.mk.inj (ends.eq_of_path path)
    exact ⟨clock, later, (Ledger.get_of_empty empty).symm, by simp [empty, getElem]⟩
  · simp only [Point.next, List.length_eq_zero_iff, if_neg empty, Option.some.injEq] at next
    subst next
    obtain same | ⟨x, ⟨⟨time, next⟩, _⟩, path⟩ := path.cases_head
    · obtain ⟨rfl, rfl⟩ := Prod.mk.inj same
      have none := ended s.now s
      simp [Point.next] at none
    simp only [Point.next, Option.ite_none_right_eq_some, Option.some.injEq] at next
    obtain ⟨later, rfl⟩ := next
    have scans := path_scan (s := { s with now := time }) time [] rfl
    rw [Ledger.scanned_nil, ← getElem_eq_scan] at scans
    obtain ⟨rfl, rfl⟩ := Prod.mk.inj
      (eq_of_paths ⟨by simp, by simp⟩ ended (fun _ _ => rfl) path scans)
    exact ⟨time, later, rfl, rfl⟩

theorem whole_fetching_iff :
    poolText.Whole .fetching s l s' ↔ ∃ time, s.now ≤ time ∧ s' = s.get time ∧
      l = .fetched (getElem (BitVec.ofNat 32 time) s.elems).returned := by
  constructor
  · rintro ⟨k, k', rfl, path, leaves⟩
    obtain ⟨time, later, rfl, rfl⟩ := getElem_of_path (over_of_leave leaves) path
    exact ⟨time, later, rfl, leaves⟩
  · rintro ⟨time, later, rfl, rfl⟩
    exact ⟨_, _, rfl, path_getElem later, rfl⟩

theorem whole_asking_iff {param : ThreadElem} :
    poolText.Whole (.asking param) s l s' ↔ s' = s ∧ l = .told param (hasSpace s.elems) := by
  have asks : poolText.inner (.checking param, s) (.checked param (hasSpace s.elems), s) :=
    inner_of_next 0 rfl (by simp)
  constructor
  · rintro ⟨k, k', rfl, path, leaves⟩
    have ended := over_of_leave leaves
    obtain same | ⟨x, ⟨⟨clock, next⟩, _⟩, path⟩ := path.cases_head
    · obtain ⟨rfl, rfl⟩ := Prod.mk.inj same
      cases ended 0 s
    · obtain rfl := Option.some.inj next
      have ends : (Point.checked param (hasSpace s.elems)).Over := fun _ _ => rfl
      obtain ⟨rfl, rfl⟩ := Prod.mk.inj (ends.eq_of_path path)
      exact ⟨rfl, leaves⟩
  · rintro ⟨rfl, rfl⟩
    exact ⟨_, _, rfl, .single asks, rfl⟩

theorem whole_inserting_iff {param : ThreadElem} :
    poolText.Whole (.inserting param) s l s' ↔
      s.New param ∧ s' = s.push param ∧ l = .added true := by
  constructor
  · rintro ⟨k, k', rfl, path, leaves⟩
    have ended := over_of_leave leaves
    obtain same | ⟨x, ⟨⟨clock, next⟩, new⟩, path⟩ := path.cases_head
    · obtain ⟨rfl, rfl⟩ := Prod.mk.inj same
      cases ended 0 s
    · obtain rfl := Option.some.inj next
      have ends : Point.pushed.Over := fun _ _ => rfl
      obtain ⟨rfl, rfl⟩ := Prod.mk.inj (ends.eq_of_path path)
      exact ⟨new param rfl, rfl, leaves⟩
  · rintro ⟨new, rfl, rfl⟩
    have inserts : poolText.inner (.pushing param, s) (.pushed, s.push param) := by
      refine ⟨⟨0, rfl⟩, fun other here => ?_⟩
      obtain rfl := Point.pushing.inj here
      exact new
    exact ⟨_, _, rfl, .single inserts, rfl⟩

end

/-! ## The pool with whole sections as steps -/

/-- The steps of the pool when every section is one of them. -/
def CallStep (a : Atomic Nat Ledger Caller) : AtomicEvent Nat → Atomic Nat Ledger Caller → Prop
  | .outer i, a' =>
      ∃ l, poolText.outer (a.threads i) l ∧ a' = { a with threads := update a.threads i l }
  | .whole i, a' =>
      match a.threads i with
      | .asking param =>
          a' = { a with threads := update a.threads i (.told param (hasSpace a.shared.elems)) }
      | .inserting param =>
          a.shared.New param ∧
            a' = ⟨a.shared.push param, update a.threads i (.added true)⟩
      | .fetching =>
          ∃ time, a.shared.now ≤ time ∧ a' = ⟨a.shared.get time, update a.threads i
            (.fetched (getElem (BitVec.ofNat 32 time) a.shared.elems).returned)⟩
      | _ => False

theorem atomicStep_iff {a a' : Atomic Nat Ledger Caller} {e : AtomicEvent Nat} :
    AtomicStep poolText a e a' ↔ CallStep a e a' := by
  cases e with
  | outer i => exact Iff.rfl
  | whole i =>
      simp only [AtomicStep, CallStep]
      cases a.threads i with
      | asking param => simp [whole_asking_iff]
      | inserting param => simp [whole_inserting_iff, and_assoc]
      | fetching =>
          simp only [whole_fetching_iff]
          constructor
          · rintro ⟨_, _, ⟨time, later, rfl, rfl⟩, rfl⟩
            exact ⟨time, later, rfl⟩
          · rintro ⟨time, later, rfl⟩
            exact ⟨_, _, ⟨time, later, rfl, rfl⟩, rfl⟩
      | _ => simp [Text.Whole, poolText]

end IocpTest.ThreadPool
