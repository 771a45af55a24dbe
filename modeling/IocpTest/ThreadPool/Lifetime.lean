import IocpTest.ThreadPool.SchedulingPass
import IocpTest.ThreadPool.Spacing

/-!
# The life of an element object

The two locked sections that change the list are the insertion of `AddElem` and `GetElem`.
`Ledger` is the pool with these as its steps and, as history, every `delete` made so far.
The check of `AddElem` is not part of its insertion, so the list may also grow beyond
`MAX_THREAD_ELEMS` here.

`Ledger.Kept` is the invariant: the list holds accepted objects in the order of their
acceptance, and what has been deleted are the accepted objects that are no longer in it.
-/

namespace IocpTest.ThreadPool

open StepSystem Function

/-- The pool and the deletes made so far, in order. -/
structure Ledger extends Pool where
  freed : List Freed

namespace Ledger

def empty : Ledger := ⟨Pool.empty, []⟩

/-- The insertion of `AddElem`. -/
def push (s : Ledger) (param : ThreadElem) : Ledger := { s with toPool := s.toPool.push param }

/-- `GetElem` -/
def get (s : Ledger) (time : Nat) : Ledger where
  toPool := s.toPool.get time
  freed := s.freed ++ (getElem (BitVec.ofNat 32 time) s.elems).frees

@[simp] theorem push_freed (s : Ledger) (param : ThreadElem) : (s.push param).freed = s.freed := rfl

@[simp] theorem get_freed (s : Ledger) (time : Nat) :
    (s.get time).freed = s.freed ++ (getElem (BitVec.ofNat 32 time) s.elems).frees := rfl

/-- `param` is a new object, and its `pParam` is one too. -/
def New (s : Ledger) (param : ThreadElem) : Prop :=
  ∀ a ∈ s.accepted, a.id ≠ param.id ∧ ∀ p, a.pParam = some p → param.pParam ≠ some p

/-- The object of an accepted element is in the list. -/
def Listed (s : Ledger) (e : ThreadElem) : Prop := ∃ x ∈ s.elems, x.id = e.id

instance (s : Ledger) (e : ThreadElem) : Decidable (s.Listed e) :=
  inferInstanceAs (Decidable (∃ x ∈ s.elems, x.id = e.id))

end Ledger

inductive LedgerEvent where
  | push (param : ThreadElem)
  | get (time : Nat)

def LedgerStep (s : Ledger) : LedgerEvent → Ledger → Prop
  | .push param, s' => s.New param ∧ s' = s.push param
  | .get time, s' => s.now ≤ time ∧ s' = s.get time

/-- The identity of the object and of its parameter. -/
def ThreadElem.key (e : ThreadElem) : Nat × Option Nat := (e.id, e.pParam)

/-- An accepted object is in the list or has been deleted, once, with its `pParam`; it is
only deleted after all of its runs; nothing else is deleted; the list is in the order of
acceptance. -/
structure LivesOnce (s : Ledger) : Prop where
  once : ∀ e ∈ s.accepted, ∀ f ∈ e.safeDelete, s.freed.count f = if s.Listed e then 0 else 1
  used : ∀ e ∈ s.accepted, ¬s.Listed e →
    e.runCount ≠ maxThreadRunCount ∧ (s.returns e.id).length = e.runCount.toNat
  only : ∀ f ∈ s.freed, ∃ e ∈ s.accepted, f ∈ e.safeDelete
  order : (s.elems.map ThreadElem.key).Sublist (s.accepted.map ThreadElem.key)

/-! ## Objects and their parameters -/

section

variable {elems : List ThreadElem} {tick : DWORD} {r : GetResult} {x y : ThreadElem}

theorem ThreadElem.safeDelete_eq_of_key (h : x.key = y.key) : x.safeDelete = y.safeDelete := by
  obtain ⟨ids, params⟩ := Prod.mk.inj h
  simp only [ThreadElem.safeDelete, ids, params]

theorem ids_eq_keys (elems : List ThreadElem) :
    elems.map ThreadElem.id = (elems.map ThreadElem.key).map Prod.fst := by
  simp [ThreadElem.key, comp_def]

theorem params_eq_keys (elems : List ThreadElem) :
    elems.filterMap ThreadElem.pParam = (elems.map ThreadElem.key).filterMap Prod.snd := by
  simp [ThreadElem.key, List.filterMap_map, comp_def]

/-- `GetElem` keeps the order of what it leaves in the list. -/
theorem Scanned.keys_sublist (h : Scanned tick elems r) :
    (r.elems.map ThreadElem.key).Sublist (elems.map ThreadElem.key) := by
  cases h with
  | null before _ => exact List.filter_sublist.map _
  | handOut before e rest _ _ =>
      simp only [List.map_append, List.map_cons]
      exact (List.filter_sublist.map _).append (List.Sublist.refl _)

/-- Every object of the list is left in it or deleted. -/
theorem Scanned.ids_perm (h : Scanned tick elems r) :
    (r.elems.map ThreadElem.id ++ r.deleted.map ThreadElem.id).Perm (elems.map ThreadElem.id) := by
  have parts : ∀ before : List ThreadElem,
      ((before.filter fun e => !e.spent tick).map ThreadElem.id ++
        (before.filter fun e => e.spent tick).map ThreadElem.id).Perm
        (before.map ThreadElem.id) := by
    intro before
    have split := (List.filter_append_perm (fun e => e.spent tick) before).map ThreadElem.id
    rw [List.map_append] at split
    exact List.perm_append_comm.trans split
  have stamped : ∀ dead : List ThreadElem,
      (dead.map (·.stamp tick)).map ThreadElem.id = dead.map ThreadElem.id := by
    intro dead
    simp [ThreadElem.stamp, comp_def]
  cases h with
  | null _ _ =>
      rw [stamped]
      exact parts _
  | handOut before e rest _ _ =>
      simp only [stamped, List.map_append, List.map_cons, ThreadElem.run_id, List.append_assoc]
      refine (List.perm_append_comm.append_left _).trans ?_
      rw [← List.append_assoc]
      exact (parts before).append_right _

/-- An element of the list is removed exactly if its object is no longer in it. -/
theorem mem_removed_iff (nodup : (elems.map ThreadElem.id).Nodup) (hx : x ∈ elems) :
    x ∈ removed tick elems ↔ ∀ y ∈ (getElem tick elems).elems, y.id ≠ x.id := by
  have scanned := getElem_scanned tick elems
  have deleted : (getElem tick elems).deleted.map ThreadElem.id =
      (removed tick elems).map ThreadElem.id := by
    rw [scanned.eq_schedulingPass]
    simp [schedulingPass, ThreadElem.stamp, comp_def]
  have parts := scanned.ids_perm
  rw [deleted] at parts
  have apart := List.disjoint_of_nodup_append (parts.nodup_iff.mpr nodup)
  constructor
  · intro gone y hy same
    exact apart (List.mem_map_of_mem hy) (same ▸ List.mem_map_of_mem gone)
  · intro absent
    cases List.mem_append.mp (parts.mem_iff.mpr (List.mem_map_of_mem hx)) with
    | inl stays =>
        obtain ⟨y, hy, same⟩ := List.mem_map.mp stays
        exact absurd same (absent y hy)
    | inr gone =>
        obtain ⟨y, hy, same⟩ := List.mem_map.mp gone
        obtain rfl := List.inj_on_of_nodup_map nodup (removed_sublist.subset hy) hx same
        exact hy

/-- New objects with new parameters have nothing to delete in common with the old ones. -/
theorem disjoint_safeDelete (ids : x.id ≠ y.id)
    (params : ∀ p, x.pParam = some p → y.pParam ≠ some p) :
    List.Disjoint x.safeDelete y.safeDelete := by
  intro f hx hy
  rcases ThreadElem.mem_safeDelete.mp hx with ⟨p, hp, rfl⟩ | rfl
  · rcases ThreadElem.mem_safeDelete.mp hy with ⟨q, hq, same⟩ | other
    · obtain rfl := Freed.pParam.inj same
      exact params p hp hq
    · cases other
  · rcases ThreadElem.mem_safeDelete.mp hy with ⟨_, _, other⟩ | same
    · cases other
    · exact ids (Freed.elem.inj same)

end

/-! ## The insertion without its check -/

theorem Pool.Stamped.push {p : Pool} {param : ThreadElem} (stamped : p.Stamped) (inv : p.Inv)
    (fresh : ∀ a ∈ p.accepted, a.id ≠ param.id) : (p.push param).Stamped := by
  refine ⟨stamped.past, ?_⟩
  intro x hx last hlast
  cases Pool.mem_elems_push.mp hx with
  | inl hx => exact stamped.stamp x hx last hlast
  | inr hx =>
      rw [hx, Pool.push_returns, inv.unseen param.id fresh] at hlast
      cases hlast

theorem Pool.Timed.push {p : Pool} {param : ThreadElem} (timed : p.Timed)
    (fresh : ∀ a ∈ p.accepted, a.id ≠ param.id) : (p.push param).Timed := by
  refine ⟨timed.inv.push fresh, timed.stamped.push timed.inv fresh, ?_, ?_⟩
  · intro e he x hx hid
    cases Pool.mem_accepted_push.mp he with
    | inl he =>
        cases Pool.mem_elems_push.mp hx with
        | inl hx => exact timed.interval e he x hx hid
        | inr hx => exact absurd (hx ▸ hid).symm (fresh e he)
    | inr he =>
        cases Pool.mem_elems_push.mp hx with
        | inl hx =>
            obtain ⟨a, ha, same⟩ := timed.inv.known x hx
            exact absurd (same.trans (he ▸ hid)) (fresh a ha)
        | inr hx => rw [hx, he]
  · intro e he
    cases Pool.mem_accepted_push.mp he with
    | inl he => exact timed.spaced e he
    | inr he =>
        rw [Pool.push_returns, he, timed.inv.unseen param.id fresh]
        exact List.isChain_nil

/-! ## The invariant -/

/-- The accepted objects are distinct, and so are their parameters. -/
structure Ledger.Kept (s : Ledger) : Prop where
  timed : s.toPool.Timed
  objects : (s.accepted.map ThreadElem.id).Nodup
  params : (s.accepted.filterMap ThreadElem.pParam).Nodup
  order : (s.elems.map ThreadElem.key).Sublist (s.accepted.map ThreadElem.key)
  once : ∀ e ∈ s.accepted, ∀ f ∈ e.safeDelete, s.freed.count f = if s.Listed e then 0 else 1
  only : ∀ f ∈ s.freed, ∃ e ∈ s.accepted, f ∈ e.safeDelete

namespace Ledger.Kept

variable {s s' : Ledger}

theorem empty : Ledger.empty.Kept where
  timed := .empty
  objects := List.nodup_nil
  params := List.nodup_nil
  order := List.Sublist.refl _
  once := by simp [Ledger.empty, Pool.empty]
  only := by simp [Ledger.empty]

theorem nodup_elems (kept : s.Kept) : (s.elems.map ThreadElem.id).Nodup := by
  have objects := kept.objects
  rw [ids_eq_keys] at objects ⊢
  exact objects.sublist (kept.order.map _)

theorem nodup_params (kept : s.Kept) : (s.elems.filterMap ThreadElem.pParam).Nodup := by
  have params := kept.params
  rw [params_eq_keys] at params ⊢
  exact params.sublist (kept.order.filterMap _)

/-- What is in the list has been accepted, with the same object and parameter. -/
theorem accepted_of_mem (kept : s.Kept) {x : ThreadElem} (hx : x ∈ s.elems) :
    ∃ e ∈ s.accepted, e.key = x.key :=
  List.mem_map.mp (kept.order.subset (List.mem_map_of_mem hx))

theorem safeDelete_eq (kept : s.Kept) {x e : ThreadElem} (hx : x ∈ s.elems)
    (he : e ∈ s.accepted) (same : x.id = e.id) : x.safeDelete = e.safeDelete := by
  obtain ⟨a, ha, key⟩ := kept.accepted_of_mem hx
  have ids : a.id = e.id := (Prod.mk.inj key).1.trans same
  obtain rfl := List.inj_on_of_nodup_map kept.objects ha he ids
  exact (ThreadElem.safeDelete_eq_of_key key).symm

/-- Two accepted objects with something to delete in common are one. -/
theorem eq_of_mem_safeDelete (kept : s.Kept) {a e : ThreadElem} (ha : a ∈ s.accepted)
    (he : e ∈ s.accepted) {f : Freed} (hfa : f ∈ a.safeDelete) (hfe : f ∈ e.safeDelete) :
    a = e := by
  by_contra ne
  have : Std.Symm (onFun List.Disjoint ThreadElem.safeDelete) :=
    ⟨fun _ _ disjoint => List.disjoint_symm disjoint⟩
  exact (pairwise_disjoint_safeDelete kept.objects kept.params).forall ha he ne hfa hfe

theorem push {param : ThreadElem} (kept : s.Kept) (new : s.New param) : (s.push param).Kept := by
  have apart : ∀ a ∈ s.accepted, List.Disjoint a.safeDelete param.safeDelete := fun a ha =>
    disjoint_safeDelete (new a ha).1 (new a ha).2
  have listed : ∀ e ∈ s.accepted, (s.push param).Listed e ↔ s.Listed e := by
    intro e he
    constructor
    · rintro ⟨x, hx, same⟩
      cases Pool.mem_elems_push.mp hx with
      | inl hx => exact ⟨x, hx, same⟩
      | inr hx => exact absurd (hx ▸ same).symm (new e he).1
    · rintro ⟨x, hx, same⟩
      exact ⟨x, Pool.mem_elems_push.mpr (.inl hx), same⟩
  refine ⟨kept.timed.push fun a ha => (new a ha).1, ?_, ?_, ?_, ?_, ?_⟩
  · exact nodup_ids_concat kept.objects fun a ha => (new a ha).1
  · simp only [Ledger.push, Pool.push_accepted, List.filterMap_append]
    refine kept.params.append ?_ ?_
    · cases h : param.pParam <;> simp [h]
    · intro p old here
      obtain ⟨a, ha, hp⟩ := List.mem_filterMap.mp old
      exact (new a ha).2 p hp (by simpa using here)
  · simp only [Ledger.push, Pool.push_elems, Pool.push_accepted, List.map_append]
    exact kept.order.append (List.Sublist.refl _)
  · intro e he f hf
    cases Pool.mem_accepted_push.mp he with
    | inl he =>
        simpa only [push_freed, listed e he] using kept.once e he f hf
    | inr here =>
        subst here
        have unseen : f ∉ s.freed := by
          intro seen
          obtain ⟨a, ha, hfa⟩ := kept.only f seen
          exact apart a ha hfa hf
        have now : (s.push e).Listed e := ⟨e, Pool.mem_elems_push.mpr (.inr rfl), rfl⟩
        rw [if_pos now]
        exact List.count_eq_zero.mpr unseen
  · intro f hf
    obtain ⟨e, he, hfe⟩ := kept.only f hf
    exact ⟨e, Pool.mem_accepted_push.mpr (.inl he), hfe⟩

theorem get {time : Nat} (kept : s.Kept) (later : s.now ≤ time) : (s.get time).Kept := by
  have scanned := getElem_scanned (BitVec.ofNat 32 time) s.elems
  have frees : (getElem (BitVec.ofNat 32 time) s.elems).frees =
      (removed (BitVec.ofNat 32 time) s.elems).flatMap ThreadElem.safeDelete := by
    rw [scanned.eq_schedulingPass, frees_schedulingPass]
  have only : ∀ f ∈ (getElem (BitVec.ofNat 32 time) s.elems).frees,
      ∃ x ∈ removed (BitVec.ofNat 32 time) s.elems, f ∈ x.safeDelete := by
    intro f hf
    rw [frees] at hf
    exact List.mem_flatMap.mp hf
  refine ⟨kept.timed.get later, kept.objects, kept.params, ?_, ?_, ?_⟩
  · exact scanned.keys_sublist.trans kept.order
  · intro e he f hf
    rw [get_freed, List.count_append, kept.once e he f hf]
    by_cases here : s.Listed e
    · obtain ⟨x, hx, same⟩ := here
      rw [← kept.safeDelete_eq hx he same] at hf
      have listed : (s.get time).Listed e ↔ x ∉ removed (BitVec.ofNat 32 time) s.elems := by
        rw [mem_removed_iff kept.nodup_elems hx, same]
        simp [Ledger.Listed, Ledger.get, Pool.get]
      have counted : (schedulingPass (BitVec.ofNat 32 time) s.elems).frees.count f =
          if x ∈ removed (BitVec.ofNat 32 time) s.elems then 1 else 0 :=
        count_removed kept.nodup_elems kept.nodup_params hx hf
      rw [scanned.eq_schedulingPass, counted, if_pos ⟨x, hx, same⟩, Nat.zero_add]
      by_cases gone : x ∈ removed (BitVec.ofNat 32 time) s.elems
      · rw [if_pos gone, if_neg fun stays => listed.mp stays gone]
      · rw [if_neg gone, if_pos (listed.mpr gone)]
    · -- An object that is gone does not come back, and nothing of it is deleted again.
      have stays : ¬(s.get time).Listed e := by
        rintro ⟨y, hy, same⟩
        have ids := scanned.ids_sublist.subset (List.mem_map_of_mem hy)
        obtain ⟨x, hx, hid⟩ := List.mem_map.mp ids
        exact here ⟨x, hx, hid.trans same⟩
      have absent : f ∉ (getElem (BitVec.ofNat 32 time) s.elems).frees := by
        intro now
        obtain ⟨x, hx, hfx⟩ := only f now
        have member := removed_sublist.subset hx
        obtain ⟨a, ha, key⟩ := kept.accepted_of_mem member
        have hfa : f ∈ a.safeDelete := (ThreadElem.safeDelete_eq_of_key key).symm ▸ hfx
        obtain rfl := kept.eq_of_mem_safeDelete ha he hfa hf
        exact here ⟨x, member, (Prod.mk.inj key).1.symm⟩
      rw [if_neg here, if_neg stays, List.count_eq_zero.mpr absent]
  · intro f hf
    cases List.mem_append.mp hf with
    | inl old => exact kept.only f old
    | inr now =>
        obtain ⟨x, hx, hfx⟩ := only f now
        obtain ⟨e, he, key⟩ := kept.accepted_of_mem (removed_sublist.subset hx)
        exact ⟨e, he, (ThreadElem.safeDelete_eq_of_key key).symm ▸ hfx⟩

theorem step {e : LedgerEvent} (kept : s.Kept) (step : LedgerStep s e s') : s'.Kept := by
  cases e with
  | push param =>
      obtain ⟨new, rfl⟩ := step
      exact kept.push new
  | get time =>
      obtain ⟨later, rfl⟩ := step
      exact kept.get later

theorem livesOnce (kept : s.Kept) : LivesOnce s where
  once := kept.once
  used := by
    intro e he gone
    have runs := kept.timed.inv.exact e he
    have absent : ∀ x ∈ s.elems, x.id ≠ e.id := fun x hx same => gone ⟨x, hx, same⟩
    have finite : e.runCount ≠ maxThreadRunCount := fun endless => gone (runs.stays endless)
    exact ⟨finite, runs.exact finite absent⟩
  only := kept.only
  order := kept.order

end Ledger.Kept

/-- Over every run of insertions and calls of `GetElem` each accepted object has one life. -/
theorem livesOnce_everywhere {trace : List (Ledger × LedgerEvent)} {s : Ledger}
    (run : Run LedgerStep Ledger.empty trace s) : Everywhere LivesOnce trace s :=
  run.everywhere_of_invariant Ledger.Kept (fun _ _ _ kept step => kept.step step)
    (fun _ kept => kept.livesOnce) Ledger.Kept.empty

/-- The one-shot element and its parameter are deleted two milliseconds in. -/
theorem livesOnce_oneShot : ∃ trace s, Run LedgerStep Ledger.empty trace s ∧
    s.freed = [.pParam 2, .elem 0] ∧ Everywhere LivesOnce trace s := by
  let added := Ledger.empty.push oneShot
  have push : LedgerStep Ledger.empty (.push oneShot) added :=
    ⟨by simp [Ledger.New, Ledger.empty, Pool.empty], rfl⟩
  have first : LedgerStep added (.get 1) (added.get 1) := ⟨Nat.zero_le 1, rfl⟩
  have second : LedgerStep (added.get 1) (.get 2) ((added.get 1).get 2) := ⟨Nat.le_succ 1, rfl⟩
  have run := Run.cons push (.cons first (.cons second (.nil _)))
  exact ⟨_, _, run, by decide, livesOnce_everywhere run⟩

end IocpTest.ThreadPool
