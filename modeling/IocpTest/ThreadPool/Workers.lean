import IocpTest.ThreadPool.Pool

/-!
# Workers that run elements outside the lock

`GetElem` hands out a pointer and leaves the object in the list. The worker reads
`callback` and `pParam` and runs the callback later, outside the lock. Meanwhile
the object can be handed out again, and once its runs are used up another worker's
`GetElem` can delete it.

`FinishesInTime` is the discipline under which that does not happen: a worker is
done with a used-up element before its interval has passed once more, and no two
elements share a `pParam`.
-/

namespace IocpTest.ThreadPool

open StepSystem Function

/-- A worker has an element from `GetElem`, or has read its `callback` and `pParam`
and runs the callback. -/
inductive Worker where
  | idle
  | holding (e : ThreadElem)
  | running (e : ThreadElem)

/-- The element that a worker has obtained and not finished. -/
def Worker.holds : Worker → Option ThreadElem
  | .idle => none
  | .holding e => some e
  | .running e => some e

structure Crew where
  pool : Pool
  workers : Nat → Worker

def Crew.initial : Crew := ⟨Pool.empty, fun _ => .idle⟩

inductive CrewEvent where
  | add (param : ThreadElem)
  | get (w : Nat) (time : Nat)
  | read (w : Nat)
  | finish (w : Nat)

/-- What `ThreadFunc` does with the result of `GetElem`. -/
def Worker.ofReturned : Option ThreadElem → Worker
  | none => .idle
  | some e => .holding e

def CrewStep (c : Crew) : CrewEvent → Crew → Prop
  | .add param, c' =>
      (∀ a ∈ c.pool.accepted, a.id ≠ param.id) ∧ c' = { c with pool := c.pool.add param }
  | .get w time, c' =>
      c.workers w = .idle ∧ c.pool.now ≤ time ∧
        c' = ⟨c.pool.get time, update c.workers w
          (.ofReturned (getElem (BitVec.ofNat 32 time) c.pool.elems).returned)⟩
  | .read w, c' =>
      ∃ e, c.workers w = .holding e ∧ c' = { c with workers := update c.workers w (.running e) }
  | .finish w, c' =>
      ∃ e, c.workers w = .running e ∧ c' = { c with workers := update c.workers w .idle }

/-- `GetElem` deletes no element, and with an element no `pParam`, that another
worker has obtained and not finished. -/
def DeletesUnused (c : Crew) : CrewEvent → Prop
  | .get w time =>
      ∀ x ∈ (getElem (BitVec.ofNat 32 time) c.pool.elems).deleted, ∀ v e, v ≠ w →
        (c.workers v).holds = some e →
          e.id ≠ x.id ∧ ∀ param, x.pParam = some param → e.pParam ≠ some param
  | _ => True

/-- When `GetElem` runs, a worker still busy with an element that has no run left is
so for at most the interval since that element was last handed out. An added element
does not share its `pParam` with one in the list or one that a worker holds. -/
def FinishesInTime (c : Crew) : CrewEvent → Prop
  | .get _ time =>
      ∀ v e, (c.workers v).holds = some e → ∀ x ∈ c.pool.elems, x.id = e.id →
        x.runCount = 0#32 → ∀ last, (c.pool.returns e.id).head? = some last →
          time ≤ last + x.interval.toNat
  | .add param =>
      ∀ p, param.pParam = some p → (∀ x ∈ c.pool.elems, x.pParam ≠ some p) ∧
        ∀ v e, (c.workers v).holds = some e → e.pParam ≠ some p
  | _ => True

/-! ## The invariant -/

structure Crew.Inv (c : Crew) : Prop where
  pool : c.pool.Inv
  stamped : c.pool.Stamped
  /-- What a worker holds has been handed out. -/
  handed : ∀ v e, (c.workers v).holds = some e → ∃ last, (c.pool.returns e.id).head? = some last
  /-- Two objects in the list have two parameters. -/
  unshared : ∀ x ∈ c.pool.elems, ∀ y ∈ c.pool.elems, ∀ p,
    x.pParam = some p → y.pParam = some p → x.id = y.id
  /-- An object in the list and another one with a worker have two parameters. -/
  apart : ∀ x ∈ c.pool.elems, ∀ v e p, (c.workers v).holds = some e →
    x.pParam = some p → e.pParam = some p → x.id = e.id

theorem Crew.Inv.initial : Crew.initial.Inv where
  pool := Pool.Inv.empty
  stamped := ⟨by simp [Crew.initial, Pool.empty], by simp [Crew.initial, Pool.empty]⟩
  handed := by simp [Crew.initial, Worker.holds]
  unshared := by simp [Crew.initial, Pool.empty]
  apart := by simp [Crew.initial, Pool.empty]

/-- Under the discipline a call of `GetElem` deletes nothing that is in use. -/
theorem Crew.Inv.deletesUnused {c c' : Crew} {e : CrewEvent} (inv : c.Inv)
    (inTime : FinishesInTime c e) (step : CrewStep c e c') : DeletesUnused c e := by
  cases e with
  | add | read | finish => trivial
  | get w time =>
      obtain ⟨_, later, _⟩ := step
      intro y hy v e _ hholds
      obtain ⟨x, hx, spent, rfl⟩ := (getElem_scanned _ c.pool.elems).deleted hy
      obtain ⟨due, zero⟩ := Bool.and_eq_true_iff.mp spent
      have other : e.id ≠ x.id := by
        intro hid
        obtain ⟨last, hlast⟩ := inv.handed v e hholds
        have bound := inTime v e hholds x hx hid.symm (eq_of_beq zero) last hlast
        have past := inv.stamped.past e.id last (List.mem_of_mem_head? hlast)
        have stamp := inv.stamped.stamp x hx last (by rw [← hid]; exact hlast)
        have small := x.interval.isLt
        have passed := (ThreadElem.due_iff stamp (Nat.le_trans past later) (by omega)).mp due
        omega
      exact ⟨other, fun p hp he => other (inv.apart x hx v e p hholds hp he).symm⟩

theorem Crew.Inv.add {c : Crew} {param : ThreadElem} (inv : c.Inv)
    (fresh : ∀ a ∈ c.pool.accepted, a.id ≠ param.id) (own : FinishesInTime c (.add param)) :
    Crew.Inv { c with pool := c.pool.add param } := by
  have pool := inv.pool.add fresh
  have stamped := inv.stamped.add inv.pool fresh
  cases c.pool.add_cases param with
  | inl same =>
      rw [same]
      exact inv
  | inr added =>
      rw [added] at pool stamped ⊢
      refine ⟨pool, stamped, inv.handed, ?_, ?_⟩
      · intro x hx y hy p hxp hyp
        cases Pool.mem_elems_push.mp hx with
        | inl hx =>
            cases Pool.mem_elems_push.mp hy with
            | inl hy => exact inv.unshared x hx y hy p hxp hyp
            | inr hy =>
                rw [hy] at hyp
                exact absurd hxp ((own p hyp).1 x hx)
        | inr hx =>
            rw [hx] at hxp
            cases Pool.mem_elems_push.mp hy with
            | inl hy => exact absurd hyp ((own p hxp).1 y hy)
            | inr hy => rw [hx, hy]
      · intro x hx v e p hholds hxp hep
        cases Pool.mem_elems_push.mp hx with
        | inl hx => exact inv.apart x hx v e p hholds hxp hep
        | inr hx =>
            rw [hx] at hxp
            exact absurd hep ((own p hxp).2 v e hholds)

theorem Crew.Inv.get {c : Crew} {w time : Nat} (inv : c.Inv) (later : c.pool.now ≤ time) :
    Crew.Inv ⟨c.pool.get time, update c.workers w
      (.ofReturned (getElem (BitVec.ofNat 32 time) c.pool.elems).returned)⟩ := by
  have scanned := getElem_scanned (BitVec.ofNat 32 time) c.pool.elems
  have source : ∀ y ∈ (c.pool.get time).elems,
      ∃ x ∈ c.pool.elems, x.id = y.id ∧ x.pParam = y.pParam := by
    intro y hy
    cases scanned.origin inv.pool.nodup hy with
    | inl kept => exact ⟨y, kept.1, rfl, rfl⟩
    | inr handedOut =>
        obtain ⟨_, x, hx, _, rfl⟩ := handedOut
        exact ⟨x, hx, rfl, rfl⟩
  have obtained : ∀ v e, (update c.workers w
      (.ofReturned (getElem (BitVec.ofNat 32 time) c.pool.elems).returned) v).holds = some e →
      (c.workers v).holds = some e ∨
        (getElem (BitVec.ofNat 32 time) c.pool.elems).returned = some e := by
    intro v e hholds
    by_cases hv : v = w
    · subst hv
      rw [update_self] at hholds
      cases hret : (getElem (BitVec.ofNat 32 time) c.pool.elems).returned with
      | none => rw [hret] at hholds; cases hholds
      | some e' => rw [hret] at hholds; exact .inr hholds
    · rw [update_of_ne hv] at hholds
      exact .inl hholds
  refine ⟨inv.pool.get time, inv.stamped.get inv.pool later, ?_, ?_, ?_⟩
  · intro v e hholds
    cases obtained v e hholds with
    | inl before =>
        obtain ⟨last, hlast⟩ := inv.handed v e before
        cases c.pool.returns_get time e.id with
        | inl same => exact ⟨last, by rw [same]; exact hlast⟩
        | inr more => exact ⟨time, by rw [more]; rfl⟩
    | inr returned => exact ⟨time, by rw [Pool.returns_get_of_eq returned]; rfl⟩
  · intro y hy z hz p hyp hzp
    obtain ⟨x, hx, hxid, hxp⟩ := source y hy
    obtain ⟨u, hu, huid, hup⟩ := source z hz
    rw [← hxid, ← huid]
    exact inv.unshared x hx u hu p (hxp.trans hyp) (hup.trans hzp)
  · intro y hy v e p hholds hyp hep
    obtain ⟨x, hx, hxid, hxp⟩ := source y hy
    rw [← hxid]
    cases obtained v e hholds with
    | inl before => exact inv.apart x hx v e p before (hxp.trans hyp) hep
    | inr returned =>
        obtain ⟨u, hu, _, rfl⟩ := scanned.returned returned
        exact inv.unshared x hx u hu p (hxp.trans hyp) hep

/-- A worker that goes on with its element, or drops it, keeps the invariant. -/
theorem Crew.Inv.work {c : Crew} {w : Nat} {t : Worker} (inv : c.Inv)
    (own : ∀ e, t.holds = some e → (c.workers w).holds = some e) :
    Crew.Inv { c with workers := update c.workers w t } := by
  have before : ∀ v e, (update c.workers w t v).holds = some e →
      (c.workers v).holds = some e := by
    intro v e hholds
    by_cases hv : v = w
    · subst hv
      rw [update_self] at hholds
      exact own e hholds
    · rw [update_of_ne hv] at hholds
      exact hholds
  exact ⟨inv.pool, inv.stamped, fun v e h => inv.handed v e (before v e h), inv.unshared,
    fun x hx v e p h => inv.apart x hx v e p (before v e h)⟩

theorem Crew.Inv.step {c c' : Crew} {e : CrewEvent} (inv : c.Inv) (inTime : FinishesInTime c e)
    (step : CrewStep c e c') : c'.Inv := by
  cases e with
  | add param =>
      obtain ⟨fresh, rfl⟩ := step
      exact inv.add fresh inTime
  | get w time =>
      obtain ⟨_, later, rfl⟩ := step
      exact inv.get later
  | read w =>
      obtain ⟨e, hw, rfl⟩ := step
      exact inv.work fun _ h => by rw [hw]; exact h
  | finish w =>
      obtain ⟨e, _, rfl⟩ := step
      exact inv.work fun _ h => by cases h

/-- In every run of any number of workers that keeps the discipline, no object is
deleted while a worker uses it. -/
theorem deletesUnused_of_finishesInTime {trace : List (Crew × CrewEvent)} {c : Crew}
    (run : Run CrewStep Crew.initial trace c) (inTime : Guarded FinishesInTime trace) :
    Guarded DeletesUnused trace :=
  run.guarded_of_guarded Crew.Inv (fun _ _ _ inv ok step => inv.step ok step)
    (fun _ _ _ inv ok step => inv.deletesUnused ok step) Crew.Inv.initial inTime

/-- The one-shot element is in the list. -/
def oneShotAdded : Crew := ⟨Pool.empty.add oneShot, fun _ => .idle⟩

/-- Worker 0 has obtained it after one millisecond. -/
def oneShotHeld : Crew :=
  ⟨oneShotAdded.pool.get 1, update oneShotAdded.workers 0 (.holding (oneShot.run 1#32))⟩

theorem oneShot_add : CrewStep Crew.initial (.add oneShot) oneShotAdded :=
  ⟨by simp [Crew.initial, Pool.empty], rfl⟩

theorem oneShot_get : CrewStep oneShotAdded (.get 0 1) oneShotHeld :=
  ⟨rfl, Nat.zero_le 1, rfl⟩

theorem oneShotHeld_holds {v : Nat} {e : ThreadElem}
    (h : (oneShotHeld.workers v).holds = some e) : oneShot.run 1#32 = e := by
  by_cases hv : v = 0
  · subst hv
    exact Option.some.inj h
  · have idle : oneShotHeld.workers v = .idle := update_of_ne hv _ _
    rw [idle] at h
    cases h

/-- Worker 1 looks once more while worker 0 is busy, and again when it is done. -/
theorem deletesUnused_oneShot : ∃ trace c, Run CrewStep Crew.initial trace c ∧
    trace.map Prod.snd =
      [.add oneShot, .get 0 1, .get 1 1, .read 0, .finish 0, .get 1 2] ∧
    Guarded DeletesUnused trace := by
  let looked : Crew := ⟨oneShotHeld.pool.get 1, update oneShotHeld.workers 1 .idle⟩
  let started : Crew :=
    { looked with workers := update looked.workers 0 (.running (oneShot.run 1#32)) }
  let done : Crew := { started with workers := update started.workers 0 .idle }
  have look : CrewStep oneShotHeld (.get 1 1) looked := ⟨rfl, Nat.le_refl 1, rfl⟩
  have read : CrewStep looked (.read 0) started := ⟨_, rfl, rfl⟩
  have finish : CrewStep started (.finish 0) done := ⟨_, rfl, rfl⟩
  have delete : CrewStep done (.get 1 2) _ := ⟨rfl, Nat.le_succ 1, rfl⟩
  have run := Run.cons oneShot_add (.cons oneShot_get (.cons look (.cons read (.cons finish
    (.cons delete (.nil _))))))
  refine ⟨_, _, run, rfl, deletesUnused_of_finishesInTime run ?_⟩
  have looks : FinishesInTime oneShotHeld (.get 1 1) := by
    intro v e hholds x hx _ _ last hlast
    obtain rfl := oneShotHeld_holds hholds
    obtain rfl : 1 = last := Option.some.inj hlast
    exact Nat.le_add_right 1 _
  have idle : ∀ v, done.workers v = .idle := by
    intro v
    by_cases h0 : v = 0 <;> by_cases h1 : v = 1 <;>
      simp [done, started, looked, oneShotHeld, oneShotAdded, h0, h1, update_apply]
  have deletes : FinishesInTime done (.get 1 2) := by
    intro v e hholds
    rw [idle v] at hholds
    cases hholds
  simp only [guarded_cons, guarded_nil]
  refine ⟨?_, ?_, looks, trivial, trivial, deletes, trivial⟩
  · intro p _
    exact ⟨fun x hx => absurd hx List.not_mem_nil, fun v e hholds => by cases hholds⟩
  · intro v e hholds
    cases hholds

/-- Worker 1 deletes the element two milliseconds in, while worker 0 still runs it. -/
theorem oneShot_not_deletesUnused : ¬∀ (trace : List (Crew × CrewEvent)) (c : Crew),
    Run CrewStep Crew.initial trace c → Guarded DeletesUnused trace := by
  intro all
  have delete : CrewStep oneShotHeld (.get 1 2) _ := ⟨rfl, Nat.le_succ 1, rfl⟩
  have safe := all _ _ (.cons oneShot_add (.cons oneShot_get (.cons delete (.nil _))))
  have last : DeletesUnused oneShotHeld (.get 1 2) :=
    safe (oneShotHeld, .get 1 2)
      (List.mem_cons_of_mem _ (List.mem_cons_of_mem _ List.mem_cons_self))
  have deleted : (oneShot.run 1#32).stamp 2#32 ∈
      (getElem (BitVec.ofNat 32 2) oneShotHeld.pool.elems).deleted := by decide
  exact (last _ deleted 0 (oneShot.run 1#32) (by decide) rfl).1 rfl

end IocpTest.ThreadPool
