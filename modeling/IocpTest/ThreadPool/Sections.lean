import IocpTest.ThreadPool.Locked

/-!
# The lock keeps the sections of the pool whole

Over every run of any number of threads, statement by statement, the pool goes through the
states of the pool with whole sections as steps (`locked_refines_calls`). Counts, intervals
and lives of its elements carry over to every moment at which the lock is free.

Inside a section the list is not always in order: between the `delete` of an object and the
`erase` it holds a pointer to nothing. `Sane` says that this is the only such moment, and that
no statement of a section looks at that pointer.
-/

namespace IocpTest.ThreadPool

open StepSystem CriticalSection Relation Function

/-- A pool that nobody has used, and threads that have not called it. -/
def idlePool : Atomic Nat Ledger Caller := ⟨Ledger.empty, fun _ => .idle⟩

theorem atomicStep_eq :
    (AtomicStep poolText : Atomic Nat Ledger Caller → AtomicEvent Nat → _ → Prop) = CallStep := by
  funext a e a'
  exact propext atomicStep_iff

/-- Every run of the statements is a run of whole calls, in the order in which their
sections end, and the holder of the lock is on its way through a section. -/
theorem locked_refines_calls {a : Atomic Nat Ledger Caller}
    {trace : List (State Nat Ledger Caller Point × Event Nat)}
    {s : State Nat Ledger Caller Point} (run : Run (Step poolText) a.unlocked trace s) :
    ∃ calls b, Run CallStep a calls b ∧ Refines poolText s b ∧
      calls.map Prod.snd = trace.filterMap fun taken => taken.2.ends := by
  obtain ⟨calls, b, atoms, refines, events⟩ := atomic_of_run run (Refines.unlocked a)
  rw [atomicStep_eq] at atoms
  exact ⟨calls, b, atoms, refines, events⟩

/-- With the lock free, the statements get to the same states as the whole calls. -/
theorem locked_iff_calls (a b : Atomic Nat Ledger Caller) :
    (∃ trace, Run (Step poolText) a.unlocked trace b.unlocked) ↔
      ∃ calls, Run CallStep a calls b := by
  constructor
  · rintro ⟨trace, run⟩
    obtain ⟨calls, b', atoms, refines, _⟩ := locked_refines_calls run
    obtain rfl := refines.eq_of_unlocked
    exact ⟨calls, atoms⟩
  · rintro ⟨calls, atoms⟩
    rw [← atomicStep_eq] at atoms
    exact run_of_atomic atoms

theorem CallStep.kept {a a' : Atomic Nat Ledger Caller} {e : AtomicEvent Nat}
    (kept : a.shared.Kept) (step : CallStep a e a') : a'.shared.Kept := by
  cases e with
  | outer i =>
      obtain ⟨_, _, rfl⟩ := step
      exact kept
  | whole i =>
      rw [CallStep] at step
      split at step
      · obtain rfl := step
        exact kept
      · obtain ⟨new, rfl⟩ := step
        exact kept.push new
      · obtain ⟨time, later, rfl⟩ := step
        exact kept.get later
      · cases step

/-! ## Inside a section -/

/-- The elements whose objects exist: all but the one about to be taken out of the list. -/
def Point.live : Point → List ThreadElem → List ThreadElem
  | .dangling _ n, elems => elems.eraseIdx n
  | _, elems => elems

/-- The iterator of a statement that looks at its element. -/
def Point.reads : Point → Option Nat
  | .testing _ n => some n
  | .due _ n => some n
  | .stamped _ n => some n
  | .spent _ n => some n
  | .stripped _ n => some n
  | .found _ n => some n
  | _ => none

/-- Nothing that a statement of a section looks at has been deleted, and nothing has been
deleted twice. -/
structure Sane (p : Point) (s : Ledger) : Prop where
  objects : (s.elems.map ThreadElem.id).Nodup
  params : ∀ x ∈ s.elems, ∀ y ∈ s.elems, ∀ q,
    x.pParam = some q → y.pParam = some q → x.id = y.id
  elem : ∀ x ∈ p.live s.elems, .elem x.id ∉ s.freed
  pParam : ∀ x ∈ s.elems, ∀ q, x.pParam = some q → .pParam q ∉ s.freed
  once : s.freed.Nodup

theorem exists_split {α : Type*} {l : List α} {n : Nat} {a : α} (h : l[n]? = some a) :
    ∃ front rest, l = front ++ a :: rest ∧ front.length = n := by
  obtain ⟨bound, rfl⟩ := List.getElem?_eq_some_iff.mp h
  exact ⟨l.take n, l.drop (n + 1), by simp, by simp; omega⟩

theorem Point.live_eq {p : Point} (h : ∀ time n, p ≠ .dangling time n)
    (elems : List ThreadElem) : p.live elems = elems := by
  cases p with
  | dangling time n => exact absurd rfl (h time n)
  | _ => rfl

namespace Sane

variable {p p' : Point} {s : Ledger} {e e' : ThreadElem} {front rest : List ThreadElem}

theorem look (sane : Sane p s) (here : ∀ time n, p ≠ .dangling time n)
    (there : ∀ time n, p' ≠ .dangling time n) (now : Nat) :
    Sane p' { s with now := now } := by
  have elem := sane.elem
  rw [Point.live_eq here] at elem
  refine ⟨sane.objects, sane.params, ?_, sane.pParam, sane.once⟩
  rwa [Point.live_eq there]

/-- Another value for the element at the iterator, with the same object and parameter or
without the parameter. -/
theorem source (e' : ThreadElem) (h : s.elems = front ++ e :: rest) (same : e'.id = e.id)
    (param : ∀ q, e'.pParam = some q → e.pParam = some q) :
    ∀ y ∈ front ++ e' :: rest, ∃ x ∈ s.elems, x.id = y.id ∧
      ∀ q, y.pParam = some q → x.pParam = some q := by
  intro y hy
  rw [h]
  simp only [List.mem_append, List.mem_cons] at hy ⊢
  obtain hy | rfl | hy := hy
  · exact ⟨y, .inl hy, rfl, fun _ => id⟩
  · exact ⟨e, .inr (.inl rfl), same.symm, param⟩
  · exact ⟨y, .inr (.inr hy), rfl, fun _ => id⟩

theorem params_of_source (sane : Sane p s) {elems : List ThreadElem}
    (source : ∀ y ∈ elems, ∃ x ∈ s.elems, x.id = y.id ∧
      ∀ q, y.pParam = some q → x.pParam = some q) :
    ∀ x ∈ elems, ∀ y ∈ elems, ∀ q, x.pParam = some q → y.pParam = some q → x.id = y.id := by
  intro x hx y hy q hxq hyq
  obtain ⟨x', hx', xid, xq⟩ := source x hx
  obtain ⟨y', hy', yid, yq⟩ := source y hy
  rw [← xid, ← yid]
  exact sane.params x' hx' y' hy' q (xq q hxq) (yq q hyq)

theorem assign (sane : Sane p s) (p' : Point) (e' : ThreadElem) (here : ∀ time n, p ≠ .dangling time n)
    (there : ∀ time n, p' ≠ .dangling time n) (h : s.elems = front ++ e :: rest)
    (same : e'.id = e.id) (param : e'.pParam = e.pParam) (returns : Nat → List Nat) :
    Sane p' { s with elems := front ++ e' :: rest, returns := returns } := by
  have elem := sane.elem
  rw [Point.live_eq here] at elem
  have source := source e' h same (fun q hq => param ▸ hq)
  refine ⟨?_, sane.params_of_source source, ?_, ?_, sane.once⟩
  · simpa [h, same] using sane.objects
  · rw [Point.live_eq there]
    intro y hy
    obtain ⟨x, hx, id, _⟩ := source y hy
    exact id ▸ elem x hx
  · intro y hy q hq
    obtain ⟨x, hx, _, params⟩ := source y hy
    exact sane.pParam x hx q (params q hq)

/-- `SAFE_DELETE(oneElem->pParam)` -/
theorem strip (sane : Sane p s) (p' : Point) (here : ∀ time n, p ≠ .dangling time n)
    (there : ∀ time n, p' ≠ .dangling time n) (h : s.elems = front ++ e :: rest) :
    Sane p' { s with
      elems := front ++ { e with pParam := none } :: rest
      freed := s.freed ++ (e.pParam.map Freed.pParam).toList } := by
  have elem := sane.elem
  rw [Point.live_eq here] at elem
  have member : e ∈ s.elems := by simp [h]
  have source := source { e with pParam := none } h rfl (fun q hq => by cases hq)
  have objects := sane.objects
  rw [h] at objects
  obtain ⟨before, behind⟩ := ids_apart objects
  refine ⟨?_, sane.params_of_source source, ?_, ?_, ?_⟩
  · simpa [h] using sane.objects
  · rw [Point.live_eq there]
    intro y hy
    obtain ⟨x, hx, id, _⟩ := source y hy
    simpa [← id] using elem x hx
  · intro y hy q hq
    have old : y ∈ s.elems ∧ y.id ≠ e.id := by
      rw [h]
      simp only [List.mem_append, List.mem_cons] at hy ⊢
      obtain hy | rfl | hy := hy
      · exact ⟨.inl hy, before y hy e List.mem_cons_self⟩
      · cases hq
      · exact ⟨.inr (.inr hy), (behind y hy).symm⟩
    simp only [List.mem_append, not_or]
    refine ⟨sane.pParam y old.1 q hq, ?_⟩
    intro now
    obtain ⟨r, hr, same⟩ := Option.map_eq_some_iff.mp (Option.mem_toList.mp now)
    obtain rfl := Freed.pParam.inj same
    exact old.2 (sane.params y old.1 e member r hq hr)
  · refine sane.once.append ?_ ?_
    · cases e.pParam <;> simp
    · intro f old now
      obtain ⟨q, hq, rfl⟩ := Option.map_eq_some_iff.mp (Option.mem_toList.mp now)
      exact sane.pParam e member q hq old

/-- `SAFE_DELETE(oneElem)` -/
theorem drop {time : Nat} (sane : Sane p s) (here : ∀ time n, p ≠ .dangling time n)
    (h : s.elems = front ++ e :: rest) :
    Sane (.dangling time front.length) { s with freed := s.freed ++ [.elem e.id] } := by
  have elem := sane.elem
  rw [Point.live_eq here] at elem
  have objects := sane.objects
  rw [h] at objects
  obtain ⟨before, behind⟩ := ids_apart objects
  refine ⟨sane.objects, sane.params, ?_, ?_, ?_⟩
  · intro y hy
    have others : y ∈ s.elems ∧ y.id ≠ e.id := by
      simp only [Point.live, h, List.eraseIdx_append_of_length_le (Nat.le_refl _), Nat.sub_self,
        List.eraseIdx_cons_zero, List.mem_append] at hy
      rw [h]
      simp only [List.mem_append, List.mem_cons]
      obtain hy | hy := hy
      · exact ⟨.inl hy, before y hy e List.mem_cons_self⟩
      · exact ⟨.inr (.inr hy), (behind y hy).symm⟩
    simp [elem y others.1, others.2]
  · intro y hy q hq
    simp [sane.pParam y hy q hq]
  · refine sane.once.append (List.nodup_singleton _) ?_
    intro f old now
    obtain rfl := List.mem_singleton.mp now
    exact elem e (by simp [h]) old

/-- `m_elems.erase(m_elemIt)` -/
theorem erase {time : Nat} (sane : Sane (.dangling time front.length) s) (p' : Point)
    (there : ∀ time n, p' ≠ .dangling time n) (h : s.elems = front ++ e :: rest) :
    Sane p' { s with elems := front ++ rest } := by
  have live : (Point.dangling time front.length).live s.elems = front ++ rest := by
    simp [Point.live, h, List.eraseIdx_append_of_length_le]
  have fewer : (front ++ rest).Sublist s.elems := by simp [h]
  have elem := sane.elem
  rw [live] at elem
  refine ⟨sane.objects.sublist (fewer.map _), ?_, ?_, ?_, sane.once⟩
  · exact fun x hx y hy => sane.params x (fewer.subset hx) y (fewer.subset hy)
  · rwa [Point.live_eq there]
  · exact fun x hx => sane.pParam x (fewer.subset hx)

/-- One statement of a section, the insertion apart. -/
theorem next {clock : Nat} {s' : Ledger} (sane : Sane p s)
    (next : p.next clock s = some (p', s')) (plain : ∀ param, p ≠ .pushing param) :
    Sane p' s' := by
  cases p with
  | returning | checked | pushed => cases next
  | pushing param => exact absurd rfl (plain param)
  | entered =>
      simp only [Point.next] at next
      split at next
      · obtain ⟨_, same⟩ := Option.ite_none_right_eq_some.mp next
        obtain ⟨rfl, rfl⟩ := Prod.mk.inj (Option.some.inj same)
        exact sane.look (by simp) (by simp) _
      · obtain ⟨rfl, rfl⟩ := Prod.mk.inj (Option.some.inj next)
        exact sane.look (by simp) (by simp) _
  | sized =>
      obtain ⟨_, same⟩ := Option.ite_none_right_eq_some.mp next
      obtain ⟨rfl, rfl⟩ := Prod.mk.inj (Option.some.inj same)
      exact sane.look (by simp) (by simp) _
  | looping time n =>
      obtain ⟨rfl, rfl⟩ := Prod.mk.inj (Option.some.inj next)
      exact sane.look (by simp) (by intro _ _; split <;> simp) _
  | testing time n | stamped time n =>
      obtain ⟨e, _, same⟩ := Option.map_eq_some_iff.mp next
      obtain ⟨rfl, rfl⟩ := Prod.mk.inj same
      exact sane.look (by simp) (by intro _ _; split <;> simp) _
  | due time n =>
      obtain ⟨e, here, same⟩ := Option.map_eq_some_iff.mp next
      obtain ⟨rfl, rfl⟩ := Prod.mk.inj same
      obtain ⟨front, rest, h, rfl⟩ := exists_split here
      have assigned := sane.assign (.stamped time front.length)
        { e with startTime := BitVec.ofNat 32 time } (by simp) (by simp) h rfl rfl s.returns
      simpa [h] using assigned
  | spent time n =>
      obtain ⟨e, here, same⟩ := Option.map_eq_some_iff.mp next
      obtain ⟨rfl, rfl⟩ := Prod.mk.inj same
      obtain ⟨front, rest, h, rfl⟩ := exists_split here
      have stripped := sane.strip (.stripped time front.length) (by simp) (by simp) h
      simpa [h] using stripped
  | stripped time n =>
      obtain ⟨e, here, same⟩ := Option.map_eq_some_iff.mp next
      obtain ⟨rfl, rfl⟩ := Prod.mk.inj same
      obtain ⟨front, rest, h, rfl⟩ := exists_split here
      exact sane.drop (by simp) h
  | dangling time n =>
      obtain ⟨e, here, same⟩ := Option.map_eq_some_iff.mp next
      obtain ⟨rfl, rfl⟩ := Prod.mk.inj same
      obtain ⟨front, rest, h, rfl⟩ := exists_split here
      have erased := sane.erase (.looping time front.length) (by simp) h
      simpa [h, List.eraseIdx_append_of_length_le] using erased
  | found time n =>
      obtain ⟨e, here, same⟩ := Option.map_eq_some_iff.mp next
      obtain ⟨rfl, rfl⟩ := Prod.mk.inj same
      obtain ⟨front, rest, h, rfl⟩ := exists_split here
      have assigned := fun e' same param => sane.assign (.returning (some e')) e' (by simp)
        (by simp) h same param (s.record time (some e'))
      by_cases endless : e.runCount = maxThreadRunCount
      · simpa [h, endless] using assigned e rfl rfl
      · simpa [h, endless] using assigned { e with runCount := e.runCount - 1 } rfl rfl
  | checking param =>
      obtain ⟨rfl, rfl⟩ := Prod.mk.inj (Option.some.inj next)
      exact sane.look (by simp) (by simp) _

theorem of_kept (kept : s.Kept) (here : ∀ time n, p ≠ .dangling time n) : Sane p s := by
  have unfreed : ∀ x ∈ s.elems, ∀ f ∈ x.safeDelete, f ∉ s.freed := by
    intro x hx f hf
    obtain ⟨e, he, key⟩ := kept.accepted_of_mem hx
    rw [← ThreadElem.safeDelete_eq_of_key key] at hf
    have listed : s.Listed e := ⟨x, hx, (Prod.mk.inj key).1.symm⟩
    have count := kept.once e he f hf
    rw [if_pos listed] at count
    exact List.count_eq_zero.mp count
  refine ⟨kept.nodup_elems, ?_, ?_, ?_, ?_⟩
  · intro x hx y hy q hxq hyq
    obtain ⟨a, ha, akey⟩ := kept.accepted_of_mem hx
    obtain ⟨b, hb, bkey⟩ := kept.accepted_of_mem hy
    obtain ⟨aid, aparam⟩ := Prod.mk.inj akey
    obtain ⟨bid, bparam⟩ := Prod.mk.inj bkey
    have shared : ∀ c : ThreadElem, c.pParam = some q → Freed.pParam q ∈ c.safeDelete :=
      fun c hc => ThreadElem.mem_safeDelete.mpr (.inl ⟨q, hc, rfl⟩)
    have one := kept.eq_of_mem_safeDelete ha hb (shared a (aparam.trans hxq))
      (shared b (bparam.trans hyq))
    exact aid.symm.trans ((congrArg ThreadElem.id one).trans bid)
  · rw [Point.live_eq here]
    intro x hx
    exact unfreed x hx _ (ThreadElem.mem_safeDelete.mpr (.inr rfl))
  · intro x hx q hq
    exact unfreed x hx _ (ThreadElem.mem_safeDelete.mpr (.inl ⟨q, hq, rfl⟩))
  · rw [List.nodup_iff_count_le_one]
    intro f
    by_cases hf : f ∈ s.freed
    · obtain ⟨e, he, hfe⟩ := kept.only f hf
      rw [kept.once e he f hfe]
      split <;> omega
    · rw [List.count_eq_zero.mpr hf]
      exact Nat.zero_le 1

/-- The insertion is the first statement of its section. -/
theorem next_ne_pushing {clock : Nat} {s' : Ledger} (next : p.next clock s = some (p', s'))
    (param : ThreadElem) : p' ≠ .pushing param := by
  cases p with
  | returning | checked | pushed => cases next
  | _ =>
      simp only [Point.next, Option.map_eq_some_iff, Option.some.injEq, Prod.mk.injEq] at next
      grind

theorem of_path {l : Caller} {k : Point} {y : Point × Ledger} (kept : s.Kept)
    (enters : poolText.enter l k) (path : ReflTransGen poolText.inner (k, s) y) :
    Sane y.1 y.2 := by
  have scans : ∀ (k : Point) (y : Point × Ledger), (∀ time n, k ≠ .dangling time n) →
      (∀ param, k ≠ .pushing param) → ReflTransGen poolText.inner (k, s) y →
      Sane y.1 y.2 ∧ ∀ param, y.1 ≠ .pushing param := by
    intro k y here plain path
    induction path with
    | refl => exact ⟨of_kept kept here, plain⟩
    | tail _ last ih =>
        obtain ⟨⟨clock, step⟩, _⟩ := last
        exact ⟨ih.1.next step ih.2, next_ne_pushing step⟩
  cases l with
  | asking param =>
      obtain rfl := enters
      exact (scans _ _ (by simp) (by simp) path).1
  | fetching =>
      obtain rfl := enters
      exact (scans _ _ (by simp) (by simp) path).1
  | inserting param =>
      obtain rfl := enters
      obtain rfl | ⟨x, ⟨⟨clock, step⟩, new⟩, path⟩ := path.cases_head
      · exact of_kept kept (by simp)
      · obtain rfl := Option.some.inj step
        have ends : Point.pushed.Over := fun _ _ => rfl
        obtain rfl := ends.eq_of_path path
        exact of_kept (kept.push (new param rfl)) (by simp)
  | _ => cases enters

end Sane

/-! ## Every state of every run -/

/-- What the lock provides for. -/
structure PoolSound (s : State Nat Ledger Caller Point) : Prop where
  /-- One thread at most is in a section. -/
  alone : ∀ i j p q, s.threads i = .inside p → s.threads j = .inside q → i = j
  /-- A statement looks at an object and a parameter that have not been deleted. -/
  reads : ∀ i p n e, s.threads i = .inside p → p.reads = some n → s.shared.elems[n]? = some e →
    ∀ f ∈ e.safeDelete, f ∉ s.shared.freed
  /-- Nothing is deleted twice. -/
  once : s.shared.freed.Nodup
  exact : s.holder = none → RunCountsExact s.shared.toPool
  spaced : s.holder = none → Spaced s.shared.toPool
  lives : s.holder = none → LivesOnce s.shared

theorem poolSound_of_refines {s : State Nat Ledger Caller Point} {a : Atomic Nat Ledger Caller}
    (refines : Refines poolText s a) (kept : a.shared.Kept) : PoolSound s := by
  have inside : ∀ i p, s.threads i = .inside p → Sane p s.shared := by
    intro i p here
    obtain ⟨k₀, k, enters, there, path⟩ := refines.inside i (refines.holder_of_inside here)
    obtain rfl := Place.inside.inj (here.symm.trans there)
    exact Sane.of_path kept enters path
  have free : s.holder = none → s.shared.Kept := by
    intro none
    rw [refines.free none]
    exact kept
  refine ⟨fun i j p q => refines.alone, ?_, ?_, fun none => (free none).timed.inv.exact,
    fun none => (free none).timed.spaced, fun none => (free none).livesOnce⟩
  · intro i p n e here reads found f hf
    have sane := inside i p here
    have member := List.mem_of_getElem? found
    have elem := sane.elem
    rw [Point.live_eq (by rintro time m rfl; cases reads)] at elem
    obtain ⟨q, hq, rfl⟩ | rfl := ThreadElem.mem_safeDelete.mp hf
    · exact sane.pParam e member q hq
    · exact elem e member
  · cases held : s.holder with
    | none => exact (Sane.of_kept (p := .pushed) (free held) (by simp)).once
    | some i =>
        obtain ⟨k₀, k, enters, here, path⟩ := refines.inside i held
        exact (inside i k here).once

/-- Any number of threads, in every order of their statements: the sections exclude each
other, no statement touches a deleted object, and whenever the lock is free every accepted
element has its exact runs, its interval and one life. -/
theorem poolSound_everywhere {trace : List (State Nat Ledger Caller Point × Event Nat)}
    {s : State Nat Ledger Caller Point} (run : Run (Step poolText) idlePool.unlocked trace s) :
    Everywhere PoolSound trace s := by
  refine everywhere_of_atomic (fun a => a.shared.Kept) ?_ (fun s a => poolSound_of_refines) run
    (Refines.unlocked idlePool) Ledger.Kept.empty
  intro a e a' kept step
  exact (atomicStep_iff.mp step).kept kept

section

variable {a : Atomic Nat Ledger Caller} {i : Nat}

theorem CallStep.outer {l : Caller} (l' : Caller) (here : a.threads i = l)
    (moves : poolText.outer l l') :
    CallStep a (.outer i) ⟨a.shared, update a.threads i l'⟩ :=
  ⟨l', here ▸ moves, rfl⟩

/-- A thread alone adds a new element with a run while there is room. -/
theorem exists_run_addElem {param : ThreadElem} (idle : a.threads i = .idle)
    (runs : param.runCount ≠ 0#32) (room : hasSpace a.shared.elems = true)
    (new : a.shared.New param) :
    ∃ calls, Run CallStep a calls ⟨a.shared.push param, update a.threads i (.added true)⟩ := by
  have adds := CallStep.outer (.adding param) idle (.inr ⟨param, rfl⟩)
  have asks := CallStep.outer (a := ⟨a.shared, update a.threads i (.adding param)⟩)
    (.asking param) (update_self i _ _) (by simp [poolText, runs])
  have told : CallStep ⟨a.shared, update a.threads i (.asking param)⟩ (.whole i)
      ⟨a.shared, update a.threads i (.told param true)⟩ := by
    simp [CallStep, room]
  have goesOn := CallStep.outer (a := ⟨a.shared, update a.threads i (.told param true)⟩)
    (.inserting param) (update_self i _ _) (by simp [poolText])
  have inserts : CallStep ⟨a.shared, update a.threads i (.inserting param)⟩ (.whole i)
      ⟨a.shared.push param, update a.threads i (.added true)⟩ := by
    simp [CallStep, new]
  simp only [update_idem] at asks goesOn
  exact ⟨_, .cons adds (.cons asks (.cons told (.cons goesOn (.cons inserts (.nil _)))))⟩

theorem exists_run_getElem (time : Nat) (idle : a.threads i = .idle)
    (later : a.shared.now ≤ time) :
    ∃ calls threads, Run CallStep a calls ⟨a.shared.get time, threads⟩ ∧
      ∀ j, j ≠ i → threads j = a.threads j := by
  have fetches := CallStep.outer .fetching idle (.inl rfl)
  have gets : CallStep ⟨a.shared, update a.threads i .fetching⟩ (.whole i)
      ⟨a.shared.get time, update a.threads i
        (.fetched (getElem (BitVec.ofNat 32 time) a.shared.elems).returned)⟩ := by
    simp only [CallStep, update_self, update_idem]
    exact ⟨time, later, rfl⟩
  exact ⟨_, _, .cons fetches (.cons gets (.nil _)), fun j other => update_of_ne other _ _⟩

end

/-- One thread adds the one-shot element, a second one gets it, a third one deletes it. -/
theorem poolSound_oneShot : ∃ trace s, Run (Step poolText) idlePool.unlocked trace s ∧
    s.holder = none ∧ s.shared.freed = [.pParam 2, .elem 0] ∧ Everywhere PoolSound trace s := by
  let added : Atomic Nat Ledger Caller :=
    ⟨Ledger.empty.push oneShot, update (fun _ => .idle) 0 (.added true)⟩
  obtain ⟨adds, addRun⟩ : ∃ calls, Run CallStep idlePool calls added :=
    exists_run_addElem rfl (by decide) (by decide) (by simp [Ledger.New, idlePool, Ledger.empty,
      Pool.empty])
  obtain ⟨gets, threads, getRun, same⟩ :=
    exists_run_getElem (a := added) (i := 1) 1 rfl (Nat.zero_le 1)
  let fetched : Atomic Nat Ledger Caller := ⟨added.shared.get 1, threads⟩
  obtain ⟨deletes, threads', deleteRun, _⟩ :=
    exists_run_getElem (a := fetched) (i := 2) 2 (same 2 (by decide)) (Nat.le_succ 1)
  obtain ⟨trace, run⟩ := (locked_iff_calls _ _).mpr
    ⟨_, addRun.append (getRun.append deleteRun)⟩
  have deleted : (((Ledger.empty.push oneShot).get 1).get 2).freed = [.pParam 2, .elem 0] := by
    decide
  exact ⟨trace, _, run, rfl, deleted, poolSound_everywhere run⟩

end IocpTest.ThreadPool
