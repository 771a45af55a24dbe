import IocpTest.ThreadPool.Pool
import Mathlib.Data.List.Chain

/-!
# The interval between two runs of an element

`GetElem` compares `DWORD` differences of the clock, and the clock wraps. An element that
has been handed out carries the tick of that moment (`Pool.Stamped`), so while less than
`2 ^ 32` milliseconds have passed its test is the one on the true times. Later the test
may fail though the interval is long over, but it never succeeds too early: an interval
is a `DWORD`, and less than `2 ^ 32` itself.
-/

namespace IocpTest.ThreadPool

open StepSystem

/-- The elements that the loop of `GetElem` looks at. It ends at one it hands out. -/
def reached (tick : DWORD) : List ThreadElem → List ThreadElem
  | [] => []
  | oneElem :: rest =>
      if oneElem.runnable tick then [oneElem] else oneElem :: reached tick rest

/-- The call hands the object out or deletes it, which it does to due elements. -/
def TreatedAsDue (r : GetResult) (id : Nat) : Prop :=
  (∃ y, r.returned = some y ∧ y.id = id) ∨ ∃ y ∈ r.deleted, y.id = id

/-- Consecutive returns of an accepted element are more than its interval apart. -/
def Spaced (p : Pool) : Prop :=
  ∀ e ∈ p.accepted, (p.returns e.id).IsChain fun later earlier =>
    earlier + e.interval.toNat < later

/-- An accepted element that a call looks at less than `2 ^ 32` milliseconds after its
last return is treated as due exactly if more than its interval has passed. -/
def DueExact (p : Pool) : PoolEvent → Prop
  | .add _ => True
  | .get time => ∀ e ∈ p.accepted, ∀ x ∈ reached (BitVec.ofNat 32 time) p.elems, x.id = e.id →
      ∀ last, (p.returns e.id).head? = some last → time - last < 2 ^ 32 →
        (TreatedAsDue (getElem (BitVec.ofNat 32 time) p.elems) e.id ↔
          e.interval.toNat < time - last)

/-! ## What the scan does to the elements it looks at -/

section

variable {tick : DWORD} {elems : List ThreadElem} {r : GetResult} {x : ThreadElem}

theorem reached_of_idle {before : List ThreadElem}
    (idle : ∀ e ∈ before, e.runnable tick = false) (rest : List ThreadElem) :
    reached tick (before ++ rest) = before ++ reached tick rest := by
  induction before with
  | nil => rfl
  | cons e before ih =>
      obtain ⟨here, others⟩ := List.forall_mem_cons.mp idle
      rw [List.cons_append, reached, here, if_neg Bool.false_ne_true, ih others]
      rfl

theorem reached_sublist : (reached tick elems).Sublist elems := by
  induction elems with
  | nil => exact List.Sublist.refl _
  | cons e rest ih =>
      rw [reached]
      split
      · exact (List.nil_sublist rest).cons_cons e
      · exact ih.cons_cons e

/-- A due element that is looked at is handed out or deleted. -/
theorem Scanned.treated (h : Scanned tick elems r) (hx : x ∈ reached tick elems)
    (due : x.due tick = true) : TreatedAsDue r x.id := by
  have deletes : ∀ before : List ThreadElem, x ∈ before → x.runnable tick = false →
      x.stamp tick ∈ (before.filter fun e => e.spent tick).map (·.stamp tick) := by
    intro before hbefore idle
    have spent : x.spent tick = true := by
      rcases x.cases_due tick with run | ⟨_, spent⟩ | ⟨_, _, notDue⟩
      · exact absurd run (by simp [idle])
      · exact spent
      · exact absurd due (by simp [notDue])
    exact List.mem_map_of_mem (List.mem_filter.mpr ⟨hbefore, spent⟩)
  cases h with
  | null _ idle =>
      have hmem := reached_sublist.subset hx
      exact .inr ⟨_, deletes _ hmem (idle x hmem), rfl⟩
  | handOut before e rest idle runnable =>
      rw [reached_of_idle idle, reached, if_pos runnable] at hx
      cases List.mem_append.mp hx with
      | inl hbefore => exact .inr ⟨_, deletes _ hbefore (idle x hbefore), rfl⟩
      | inr here =>
          obtain rfl := List.mem_singleton.mp here
          exact .inl ⟨_, rfl, rfl⟩

/-- What is handed out or deleted was due. -/
theorem Scanned.due_of_treated (h : Scanned tick elems r)
    (nodup : (elems.map ThreadElem.id).Nodup) (hx : x ∈ elems)
    (treated : TreatedAsDue r x.id) : x.due tick = true := by
  have same : ∀ z ∈ elems, z.id = x.id → z = x := fun z hz hid =>
    List.inj_on_of_nodup_map nodup hz hx hid
  rcases treated with ⟨y, returned, hid⟩ | ⟨y, deleted, hid⟩
  · obtain ⟨z, hz, runnable, rfl⟩ := h.returned returned
    obtain rfl := same z hz hid
    exact (Bool.and_eq_true_iff.mp runnable).1
  · obtain ⟨z, hz, spent, rfl⟩ := h.deleted deleted
    obtain rfl := same z hz hid
    exact (Bool.and_eq_true_iff.mp spent).1

end

/-! ## The invariant of the runs -/

/-- The balance and the stamps of the pool, and each object keeps the interval it was
accepted with. -/
structure Pool.Timed (p : Pool) : Prop where
  inv : p.Inv
  stamped : p.Stamped
  interval : ∀ e ∈ p.accepted, ∀ x ∈ p.elems, x.id = e.id → x.interval = e.interval
  spaced : Spaced p

namespace Pool.Timed

variable {p : Pool}

theorem empty : Pool.empty.Timed where
  inv := .empty
  stamped := ⟨by simp [Pool.empty], by simp [Pool.empty]⟩
  interval := by simp [Pool.empty]
  spaced := by simp [Spaced, Pool.empty]

theorem add {param : ThreadElem} (timed : p.Timed) (fresh : ∀ a ∈ p.accepted, a.id ≠ param.id) :
    (p.add param).Timed := by
  have inv := timed.inv.add fresh
  have stamped := timed.stamped.add timed.inv fresh
  cases p.add_cases param with
  | inl same =>
      rw [same]
      exact timed
  | inr added =>
      rw [added] at inv stamped ⊢
      refine ⟨inv, stamped, ?_, ?_⟩
      · intro e he x hx hid
        cases Pool.mem_accepted_push.mp he with
        | inl he =>
            cases Pool.mem_elems_push.mp hx with
            | inl hx => exact timed.interval e he x hx hid
            | inr hx => exact absurd (hid.symm.trans (congrArg ThreadElem.id hx)) (fresh e he)
        | inr he =>
            cases Pool.mem_elems_push.mp hx with
            | inl hx =>
                obtain ⟨a, ha, haid⟩ := timed.inv.known x hx
                exact absurd (haid.trans (hid.trans (congrArg ThreadElem.id he))) (fresh a ha)
            | inr hx => rw [hx, he]
      · intro e he
        cases Pool.mem_accepted_push.mp he with
        | inl he => exact timed.spaced e he
        | inr he =>
            rw [Pool.push_returns, he, timed.inv.unseen param.id fresh]
            exact List.isChain_nil

/-- The test on an element that has been handed out, in true time. -/
theorem due_iff (timed : p.Timed) {e x : ThreadElem} (he : e ∈ p.accepted) (hx : x ∈ p.elems)
    (hid : x.id = e.id) {time last : Nat} (later : p.now ≤ time)
    (hlast : (p.returns e.id).head? = some last) (recent : time - last < 2 ^ 32) :
    x.due (BitVec.ofNat 32 time) = true ↔ e.interval.toNat < time - last := by
  have past : last ≤ p.now := timed.stamped.past e.id last (List.mem_of_mem_head? hlast)
  have stamp : x.startTime = BitVec.ofNat 32 last :=
    timed.stamped.stamp x hx last (by rw [hid]; exact hlast)
  rw [ThreadElem.due_iff stamp (past.trans later) recent, timed.interval e he x hx hid]

/-- An element is never handed out before its interval is over. -/
theorem interval_lt (timed : p.Timed) {e x : ThreadElem} (he : e ∈ p.accepted)
    (hx : x ∈ p.elems) (hid : x.id = e.id) {time last : Nat} (later : p.now ≤ time)
    (hlast : (p.returns e.id).head? = some last) (due : x.due (BitVec.ofNat 32 time) = true) :
    last + e.interval.toNat < time := by
  have small := e.interval.isLt
  by_cases recent : time - last < 2 ^ 32
  · have passed := (timed.due_iff he hx hid later hlast recent).mp due
    omega
  · omega

theorem get {time : Nat} (timed : p.Timed) (later : p.now ≤ time) : (p.get time).Timed := by
  have scanned := getElem_scanned (BitVec.ofNat 32 time) p.elems
  refine ⟨timed.inv.get time, timed.stamped.get timed.inv later, ?_, ?_⟩
  · intro e he y hy hid
    rcases scanned.origin timed.inv.nodup hy with ⟨hmem, _⟩ | ⟨_, x, hx, _, rfl⟩
    · exact timed.interval e he y hmem hid
    · exact timed.interval e he x hx hid
  · intro e he
    by_cases handedOut : ∃ y, (getElem (BitVec.ofNat 32 time) p.elems).returned = some y ∧
        y.id = e.id
    · obtain ⟨y, returned, hid⟩ := handedOut
      obtain ⟨x, hx, runnable, rfl⟩ := scanned.returned returned
      have due := (Bool.and_eq_true_iff.mp runnable).1
      rw [← hid, Pool.returns_get_of_eq returned, hid]
      refine List.isChain_cons.mpr ⟨?_, timed.spaced e he⟩
      intro last hlast
      exact timed.interval_lt he hx hid later hlast due
    · have same : (p.get time).returns e.id = p.returns e.id :=
        Pool.returns_get_of_ne fun y returned hid => handedOut ⟨y, returned, hid⟩
      rw [same]
      exact timed.spaced e he

theorem step {p' : Pool} {e : PoolEvent} (timed : p.Timed) (step : PoolStep p e p') :
    p'.Timed := by
  cases e with
  | add param =>
      obtain ⟨fresh, rfl⟩ := step
      exact timed.add fresh
  | get time =>
      obtain ⟨later, rfl⟩ := step
      exact timed.get later

/-- A call treats what it looks at by the true time. -/
theorem dueExact {p' : Pool} {e : PoolEvent} (timed : p.Timed) (step : PoolStep p e p') :
    DueExact p e := by
  cases e with
  | add param => trivial
  | get time =>
      obtain ⟨later, _⟩ := step
      intro e he x hx hid last hlast recent
      have hmem := reached_sublist.subset hx
      have scanned := getElem_scanned (BitVec.ofNat 32 time) p.elems
      rw [← timed.due_iff he hmem hid later hlast recent, ← hid]
      exact ⟨scanned.due_of_treated timed.inv.nodup hmem, scanned.treated hx⟩

end Pool.Timed

/-- Over every run of the pool, however long: the returns of an element are spaced by its
interval, and within `2 ^ 32` milliseconds of a return it is due when the interval is over. -/
theorem spaced_everywhere {trace : List (Pool × PoolEvent)} {p : Pool}
    (run : Run PoolStep Pool.empty trace p) :
    Everywhere Spaced trace p ∧ Guarded DueExact trace := by
  constructor
  · exact run.everywhere_of_invariant Pool.Timed (fun _ _ _ timed step => timed.step step)
      (fun _ timed => timed.spaced) Pool.Timed.empty
  · have guard : Guarded (fun _ _ => True) trace := fun _ _ => trivial
    exact run.guarded_of_guarded Pool.Timed (fun _ _ _ timed _ step => timed.step step)
      (fun _ _ _ timed _ step => timed.dueExact step) Pool.Timed.empty guard

/-- An element without end, every ten milliseconds. -/
def endless : ThreadElem := ⟨0, some 1, some 2, maxThreadRunCount, 0#32, 10#32⟩

/-- It is handed out just before the clock wraps and again just behind it. -/
theorem spaced_everywhere_endless : ∃ trace p, Run PoolStep Pool.empty trace p ∧
    p.returns 0 = [2 ^ 32 + 6, 2 ^ 32 - 5] ∧
    Everywhere Spaced trace p ∧ Guarded DueExact trace := by
  let added := Pool.empty.add endless
  let first := added.get (2 ^ 32 - 5)
  let again := first.get (2 ^ 32 + 5)
  have add : PoolStep Pool.empty (.add endless) added := ⟨by simp [Pool.empty], rfl⟩
  have get : PoolStep added (.get (2 ^ 32 - 5)) first := ⟨Nat.zero_le _, rfl⟩
  have early : PoolStep first (.get (2 ^ 32 + 5)) again :=
    ⟨show 2 ^ 32 - 5 ≤ 2 ^ 32 + 5 by omega, rfl⟩
  have second : PoolStep again (.get (2 ^ 32 + 6)) (again.get (2 ^ 32 + 6)) :=
    ⟨show 2 ^ 32 + 5 ≤ 2 ^ 32 + 6 by omega, rfl⟩
  have run := Run.cons add (.cons get (.cons early (.cons second (.nil _))))
  exact ⟨_, _, run, by decide, spaced_everywhere run⟩

end IocpTest.ThreadPool
