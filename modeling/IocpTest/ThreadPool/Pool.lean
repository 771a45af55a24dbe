import IocpTest.Logic.Run
import IocpTest.ThreadPool.GetElem
import Mathlib.Logic.Function.Basic

/-!
# How often and when an element runs

Any order of `AddElem` and `GetElem`, each under the lock. Time is a natural number
that never decreases and `GetElem` reads it modulo `2 ^ 32`.

`Tally` is the invariant of one accepted element: in the list, the runs it has left
and the times it was handed out add up to the runs it was accepted with; out of the
list, all of them are used up. `Stamped` says that `startTime` is the tick at which
an element was last handed out.
-/

namespace IocpTest.ThreadPool

open StepSystem Function

/-- The pool and, as history, which elements `AddElem` accepted and at which times
each object was handed out, the last time first. -/
structure Pool where
  elems : List ThreadElem
  now : Nat
  accepted : List ThreadElem
  returns : Nat → List Nat

def Pool.empty : Pool := ⟨[], 0, [], fun _ => []⟩

inductive PoolEvent where
  | add (param : ThreadElem)
  | get (time : Nat)

/-- The history after `GetElem` has returned at `time`. -/
def Pool.record (p : Pool) (time : Nat) : Option ThreadElem → Nat → List Nat
  | none => p.returns
  | some e => update p.returns e.id (time :: p.returns e.id)

/-- `AddElem` on a new object. -/
def Pool.add (p : Pool) (param : ThreadElem) : Pool :=
  { p with
    elems := (addElem param p.elems).2
    accepted := if (addElem param p.elems).1 then p.accepted ++ [param] else p.accepted }

def Pool.get (p : Pool) (time : Nat) : Pool :=
  { p with
    elems := (getElem (BitVec.ofNat 32 time) p.elems).elems
    now := time
    returns := p.record time (getElem (BitVec.ofNat 32 time) p.elems).returned }

def PoolStep (p : Pool) : PoolEvent → Pool → Prop
  | .add param, p' => (∀ a ∈ p.accepted, a.id ≠ param.id) ∧ p' = p.add param
  | .get time, p' => p.now ≤ time ∧ p' = p.get time

/-- An element accepted with a finite `runCount` is handed out at most that often,
leaves the list only after that often and never looks endless; one accepted with
`MAX_THREAD_RUNCOUNT` stays in the list and keeps it. -/
structure ExactRuns (p : Pool) (e : ThreadElem) : Prop where
  atMost : e.runCount ≠ maxThreadRunCount → (p.returns e.id).length ≤ e.runCount.toNat
  exact : e.runCount ≠ maxThreadRunCount → (∀ x ∈ p.elems, x.id ≠ e.id) →
    (p.returns e.id).length = e.runCount.toNat
  finite : e.runCount ≠ maxThreadRunCount →
    ∀ x ∈ p.elems, x.id = e.id → x.runCount ≠ maxThreadRunCount
  stays : e.runCount = maxThreadRunCount → ∃ x ∈ p.elems, x.id = e.id
  endless : e.runCount = maxThreadRunCount →
    ∀ x ∈ p.elems, x.id = e.id → x.runCount = maxThreadRunCount

/-- Every accepted element has its exact runs. -/
def RunCountsExact (p : Pool) : Prop := ∀ e ∈ p.accepted, ExactRuns p e

/-! ## The invariant -/

/-- The balance of one accepted element. -/
inductive Tally (p : Pool) (e : ThreadElem) : Prop
  | listed (x : ThreadElem) (member : x ∈ p.elems) (id : x.id = e.id)
      (endless : e.runCount = maxThreadRunCount → x.runCount = maxThreadRunCount)
      (finite : e.runCount ≠ maxThreadRunCount →
        x.runCount.toNat + (p.returns e.id).length = e.runCount.toNat)
  | gone (absent : ∀ x ∈ p.elems, x.id ≠ e.id) (finite : e.runCount ≠ maxThreadRunCount)
      (used : (p.returns e.id).length = e.runCount.toNat)

structure Pool.Inv (p : Pool) : Prop where
  nodup : (p.elems.map ThreadElem.id).Nodup
  known : ∀ x ∈ p.elems, ∃ e ∈ p.accepted, e.id = x.id
  unseen : ∀ i, (∀ e ∈ p.accepted, e.id ≠ i) → p.returns i = []
  tally : ∀ e ∈ p.accepted, Tally p e

theorem toNat_lt_of_ne_max {n : DWORD} (h : n ≠ maxThreadRunCount) : n.toNat < 2 ^ 32 - 1 := by
  have hmax : n.toNat ≠ 2 ^ 32 - 1 := fun heq => h (BitVec.eq_of_toNat_eq heq)
  have := n.isLt
  omega

/-- A finite balance never reads as endless. -/
theorem ne_max_of_add {n left : DWORD} {used : Nat} (h : n ≠ maxThreadRunCount)
    (sum : left.toNat + used = n.toNat) : left ≠ maxThreadRunCount := by
  rintro rfl
  have small := toNat_lt_of_ne_max h
  have : maxThreadRunCount.toNat = 2 ^ 32 - 1 := rfl
  omega

theorem Tally.exactRuns {p : Pool} {e : ThreadElem} (nodup : (p.elems.map ThreadElem.id).Nodup)
    (t : Tally p e) : ExactRuns p e := by
  cases t with
  | listed x member id endless finite =>
      have only : ∀ y ∈ p.elems, y.id = e.id → y = x := fun y hy hid =>
        List.inj_on_of_nodup_map nodup hy member (hid.trans id.symm)
      refine ⟨?_, fun _ absent => absurd id (absent x member), ?_, fun _ => ⟨x, member, id⟩, ?_⟩
      · intro h
        have := finite h
        omega
      · intro h y hy hid
        rw [only y hy hid]
        exact ne_max_of_add h (finite h)
      · intro h y hy hid
        rw [only y hy hid]
        exact endless h
  | gone absent finite used =>
      exact ⟨fun _ => Nat.le_of_eq used, fun _ _ => used,
        fun _ x hx hid => absurd hid (absent x hx), fun h => absurd h finite,
        fun h => absurd h finite⟩

theorem Pool.Inv.exact {p : Pool} (inv : p.Inv) : RunCountsExact p :=
  fun e he => (inv.tally e he).exactRuns inv.nodup

theorem Pool.Inv.empty : Pool.empty.Inv where
  nodup := List.nodup_nil
  known := by simp [Pool.empty]
  unseen := fun _ _ => rfl
  tally := by simp [Pool.empty]

/-! ## `AddElem` -/

/-- An element is accepted and put at the end. -/
def Pool.push (p : Pool) (param : ThreadElem) : Pool :=
  { p with elems := p.elems ++ [param], accepted := p.accepted ++ [param] }

@[simp] theorem Pool.push_elems (p : Pool) (param : ThreadElem) :
    (p.push param).elems = p.elems ++ [param] := rfl

@[simp] theorem Pool.push_accepted (p : Pool) (param : ThreadElem) :
    (p.push param).accepted = p.accepted ++ [param] := rfl

@[simp] theorem Pool.push_returns (p : Pool) (param : ThreadElem) :
    (p.push param).returns = p.returns := rfl

/-- A new object at the end keeps the objects of a list different. -/
theorem nodup_ids_concat {elems : List ThreadElem} {param : ThreadElem}
    (nodup : (elems.map ThreadElem.id).Nodup) (absent : ∀ x ∈ elems, x.id ≠ param.id) :
    ((elems ++ [param]).map ThreadElem.id).Nodup := by
  rw [List.map_append, List.map_singleton, ← List.concat_eq_append]
  apply nodup.concat
  intro h
  obtain ⟨x, hx, hid⟩ := List.mem_map.mp h
  exact absent x hx hid

theorem Pool.mem_elems_push {p : Pool} {param x : ThreadElem} :
    x ∈ (p.push param).elems ↔ x ∈ p.elems ∨ x = param := by
  rw [Pool.push_elems, List.mem_append, List.mem_singleton]

theorem Pool.mem_accepted_push {p : Pool} {param e : ThreadElem} :
    e ∈ (p.push param).accepted ↔ e ∈ p.accepted ∨ e = param := by
  rw [Pool.push_accepted, List.mem_append, List.mem_singleton]

/-- An accepted element is put at the end; a rejected one changes nothing. -/
theorem Pool.add_cases (p : Pool) (param : ThreadElem) :
    p.add param = p ∨ p.add param = p.push param := by
  rw [Pool.add, addElem]
  split
  · exact .inl rfl
  · split
    · exact .inl rfl
    · exact .inr rfl

theorem Pool.Inv.push {p : Pool} {param : ThreadElem} (inv : p.Inv)
    (fresh : ∀ a ∈ p.accepted, a.id ≠ param.id) : (p.push param).Inv := by
  have absent : ∀ x ∈ p.elems, x.id ≠ param.id := by
    intro x hx hid
    obtain ⟨e, he, heid⟩ := inv.known x hx
    exact fresh e he (heid.trans hid)
  refine ⟨nodup_ids_concat inv.nodup absent, ?_, ?_, ?_⟩
  · intro x hx
    cases Pool.mem_elems_push.mp hx with
    | inl hx =>
        obtain ⟨e, he, hid⟩ := inv.known x hx
        exact ⟨e, Pool.mem_accepted_push.mpr (.inl he), hid⟩
    | inr hx => exact ⟨param, Pool.mem_accepted_push.mpr (.inr rfl), by rw [hx]⟩
  · intro i hi
    exact inv.unseen i fun e he => hi e (Pool.mem_accepted_push.mpr (.inl he))
  · intro e he
    cases Pool.mem_accepted_push.mp he with
    | inl he =>
        cases inv.tally e he with
        | listed x member id endless finite =>
            exact .listed x (Pool.mem_elems_push.mpr (.inl member)) id endless finite
        | gone gone finite used =>
            refine .gone ?_ finite used
            intro x hx
            cases Pool.mem_elems_push.mp hx with
            | inl hx => exact gone x hx
            | inr hx =>
                rw [hx]
                exact (fresh e he).symm
    | inr he =>
        subst he
        refine .listed e (Pool.mem_elems_push.mpr (.inr rfl)) rfl id ?_
        intro _
        rw [Pool.push_returns, inv.unseen e.id fresh]
        rfl

theorem Pool.Inv.add {p : Pool} {param : ThreadElem} (inv : p.Inv)
    (fresh : ∀ a ∈ p.accepted, a.id ≠ param.id) : (p.add param).Inv := by
  cases p.add_cases param with
  | inl same =>
      rw [same]
      exact inv
  | inr added =>
      rw [added]
      exact inv.push fresh

/-! ## `GetElem` -/

theorem Pool.returns_get_of_ne {p : Pool} {time i : Nat}
    (h : ∀ e, (getElem (BitVec.ofNat 32 time) p.elems).returned = some e → e.id ≠ i) :
    (p.get time).returns i = p.returns i := by
  rw [Pool.get]
  cases hret : (getElem (BitVec.ofNat 32 time) p.elems).returned with
  | none => rfl
  | some e => exact update_of_ne (h e hret).symm _ _

/-- Only the element that is handed out gets a new entry. -/
theorem Pool.returns_get_of_returned {p : Pool} {time i : Nat} {e : ThreadElem}
    (h : (getElem (BitVec.ofNat 32 time) p.elems).returned = some e) (ne : i ≠ e.id) :
    (p.get time).returns i = p.returns i := by
  apply Pool.returns_get_of_ne
  intro x hx
  rw [h] at hx
  obtain rfl := Option.some.inj hx
  exact ne.symm

theorem Pool.returns_get_of_eq {p : Pool} {time : Nat} {e : ThreadElem}
    (h : (getElem (BitVec.ofNat 32 time) p.elems).returned = some e) :
    (p.get time).returns e.id = time :: p.returns e.id := by
  rw [Pool.get, h]
  exact update_self _ _ _

theorem Pool.returns_get (p : Pool) (time i : Nat) :
    (p.get time).returns i = p.returns i ∨ (p.get time).returns i = time :: p.returns i := by
  by_cases h : ∃ e, (getElem (BitVec.ofNat 32 time) p.elems).returned = some e ∧ e.id = i
  · obtain ⟨e, returned, rfl⟩ := h
    exact .inr (Pool.returns_get_of_eq returned)
  · exact .inl (Pool.returns_get_of_ne fun e returned hid => h ⟨e, returned, hid⟩)

/-- What is handed out has been accepted, and a finite one has a run left. -/
theorem Pool.Inv.handedOut {p : Pool} {time : Nat} {y : ThreadElem} (inv : p.Inv)
    (returned : (getElem (BitVec.ofNat 32 time) p.elems).returned = some y) :
    ∃ e ∈ p.accepted, e.id = y.id ∧
      (e.runCount ≠ maxThreadRunCount → (p.returns e.id).length < e.runCount.toNat) := by
  obtain ⟨x, hx, runnable, rfl⟩ := (getElem_scanned _ p.elems).returned returned
  obtain ⟨e, he, hid⟩ := inv.known x hx
  refine ⟨e, he, hid, fun h => ?_⟩
  cases inv.tally e he with
  | gone absent finite used => exact absurd hid.symm (absent x hx)
  | listed z member id endless finite =>
      obtain rfl : z = x := List.inj_on_of_nodup_map inv.nodup member hx (id.trans hid)
      have left : z.runCount ≠ 0#32 := bne_iff_ne.mp (Bool.and_eq_true_iff.mp runnable).2
      have pos : z.runCount.toNat ≠ 0 := fun zero => left (BitVec.eq_of_toNat_eq zero)
      have sum := finite h
      omega

/-- One call of `GetElem` keeps the balance of an accepted element. -/
theorem Tally.get {p : Pool} {e : ThreadElem} (time : Nat)
    (nodup : (p.elems.map ThreadElem.id).Nodup) (t : Tally p e) : Tally (p.get time) e := by
  have scanned := getElem_scanned (BitVec.ofNat 32 time) p.elems
  cases t with
  | gone absent finite used =>
      have others : ∀ y, (getElem (BitVec.ofNat 32 time) p.elems).returned = some y →
          y.id ≠ e.id := by
        intro y hy
        obtain ⟨x, hx, _, rfl⟩ := scanned.returned hy
        exact absent x hx
      refine .gone ?_ finite (by rw [Pool.returns_get_of_ne others]; exact used)
      intro x hx hid
      obtain ⟨y, hy, hyid⟩ := List.mem_map.mp (scanned.ids_sublist.subset (List.mem_map_of_mem hx))
      exact absent y hy (hyid.trans hid)
  | listed x member id endless finite =>
      cases scanned.fate nodup member with
      | kept stays other =>
          have same : (p.get time).returns e.id = p.returns e.id :=
            Pool.returns_get_of_ne fun y hy => id ▸ other y hy
          exact .listed x stays id endless (by rw [same]; exact finite)
      | handedOut runnable stays returned =>
          have left : x.runCount ≠ 0#32 := bne_iff_ne.mp (Bool.and_eq_true_iff.mp runnable).2
          have more : (p.get time).returns e.id = time :: p.returns e.id := by
            rw [← id]
            exact Pool.returns_get_of_eq (e := x.run _) returned
          refine .listed _ stays id (fun h => ThreadElem.run_runCount_of_eq _ (endless h)) ?_
          intro h
          have sum := finite h
          have oneLess := ThreadElem.run_runCount_toNat (BitVec.ofNat 32 time) left
            (ne_max_of_add h sum)
          rw [more, List.length_cons]
          omega
      | deleted spent gone other =>
          have zero : x.runCount = 0#32 := eq_of_beq (Bool.and_eq_true_iff.mp spent).2
          have same : (p.get time).returns e.id = p.returns e.id :=
            Pool.returns_get_of_ne fun y hy => id ▸ other y hy
          have hfinite : e.runCount ≠ maxThreadRunCount := by
            intro h
            have := endless h
            rw [zero] at this
            exact absurd this (by decide)
          refine .gone (fun y hy => id ▸ gone y hy) hfinite ?_
          have sum := finite hfinite
          rw [zero] at sum
          rw [same, ← sum]
          exact (Nat.zero_add _).symm

theorem Pool.Inv.get {p : Pool} (inv : p.Inv) (time : Nat) : (p.get time).Inv := by
  have scanned := getElem_scanned (BitVec.ofNat 32 time) p.elems
  have known : ∀ x ∈ (p.get time).elems, ∃ e ∈ p.accepted, e.id = x.id := by
    intro x hx
    obtain ⟨y, hy, hid⟩ := List.mem_map.mp (scanned.ids_sublist.subset (List.mem_map_of_mem hx))
    rw [← hid]
    exact inv.known y hy
  refine ⟨inv.nodup.sublist scanned.ids_sublist, known, ?_,
    fun e he => (inv.tally e he).get time inv.nodup⟩
  intro i hi
  rw [Pool.returns_get_of_ne]
  · exact inv.unseen i hi
  · intro y hy hid
    obtain ⟨x, hx, _, rfl⟩ := scanned.returned hy
    obtain ⟨e, he, heid⟩ := inv.known x hx
    exact hi e he (heid.trans hid)

theorem Pool.Inv.step {p p' : Pool} {e : PoolEvent} (inv : p.Inv) (step : PoolStep p e p') :
    p'.Inv := by
  cases e with
  | add param =>
      obtain ⟨fresh, rfl⟩ := step
      exact inv.add fresh
  | get time =>
      obtain ⟨_, rfl⟩ := step
      exact inv.get time

/-- An element that has been handed out carries the tick of the last time. -/
structure Pool.Stamped (p : Pool) : Prop where
  past : ∀ i, ∀ time ∈ p.returns i, time ≤ p.now
  stamp : ∀ x ∈ p.elems, ∀ last, (p.returns x.id).head? = some last →
    x.startTime = BitVec.ofNat 32 last

theorem Pool.Stamped.add {p : Pool} {param : ThreadElem} (stamped : p.Stamped) (inv : p.Inv)
    (fresh : ∀ a ∈ p.accepted, a.id ≠ param.id) : (p.add param).Stamped := by
  cases p.add_cases param with
  | inl same =>
      rw [same]
      exact stamped
  | inr added =>
      rw [added]
      refine ⟨stamped.past, ?_⟩
      intro x hx last hlast
      cases Pool.mem_elems_push.mp hx with
      | inl hx => exact stamped.stamp x hx last hlast
      | inr hx =>
          rw [hx, Pool.push_returns, inv.unseen param.id fresh] at hlast
          cases hlast

theorem Pool.Stamped.get {p : Pool} {time : Nat} (stamped : p.Stamped) (inv : p.Inv)
    (later : p.now ≤ time) : (p.get time).Stamped := by
  have scanned := getElem_scanned (BitVec.ofNat 32 time) p.elems
  constructor
  · intro i t ht
    cases p.returns_get time i with
    | inl same =>
        rw [same] at ht
        exact Nat.le_trans (stamped.past i t ht) later
    | inr more =>
        rw [more] at ht
        cases List.mem_cons.mp ht with
        | inl ht => exact Nat.le_of_eq ht
        | inr ht => exact Nat.le_trans (stamped.past i t ht) later
  · intro y hy last hlast
    cases scanned.origin inv.nodup hy with
    | inl kept =>
        rw [Pool.returns_get_of_ne kept.2] at hlast
        exact stamped.stamp y kept.1 last hlast
    | inr handedOut =>
        obtain ⟨returned, x, _, _, rfl⟩ := handedOut
        rw [Pool.returns_get_of_eq returned] at hlast
        obtain rfl := Option.some.inj hlast
        rfl

/-- Over every run of the pool every accepted element has its exact runs. -/
theorem runCountsExact {trace : List (Pool × PoolEvent)} {p : Pool}
    (run : Run PoolStep Pool.empty trace p) : Everywhere RunCountsExact trace p :=
  run.everywhere_of_invariant Pool.Inv (fun _ _ _ inv step => inv.step step)
    (fun _ inv => inv.exact) Pool.Inv.empty

/-- An element that runs once, as soon as a millisecond has passed. -/
def oneShot : ThreadElem := ⟨0, some 1, some 2, 1#32, 0#32, 0#32⟩

/-- It is added, handed out and deleted. -/
theorem runCountsExact_oneShot : ∃ trace p, Run PoolStep Pool.empty trace p ∧
    trace.map Prod.snd = [.add oneShot, .get 1, .get 2] ∧ Everywhere RunCountsExact trace p := by
  let added := Pool.empty.add oneShot
  have add : PoolStep Pool.empty (.add oneShot) added := ⟨by simp [Pool.empty], rfl⟩
  have first : PoolStep added (.get 1) (added.get 1) := ⟨Nat.zero_le 1, rfl⟩
  have second : PoolStep (added.get 1) (.get 2) ((added.get 1).get 2) := ⟨Nat.le_succ 1, rfl⟩
  have run := Run.cons add (.cons first (.cons second (.nil _)))
  exact ⟨_, _, run, rfl, runCountsExact run⟩

end IocpTest.ThreadPool
