import IocpTest.Logic.Agents
import Mathlib.Data.List.Nodup
import Mathlib.Order.Lattice

/-!
# A map ordered by its keys

A map is the list of its entries in strictly increasing order of the keys, so there is
one entry at most for a key. `assign` is assignment through a key, which replaces an
entry or makes one, and `updateLast` a search from the end that changes the first
value it finds.

Each of the two says once what becomes of the entries: `assign_cases` and
`updateLast_cases`. One entry moves, in the sense of `Moves`, or one is added.
-/

open StepSystem

/-- Entries in strictly increasing order of their keys. -/
structure OrderedMap (κ α : Type*) [LinearOrder κ] where
  entries : List (κ × α)
  sorted : entries.Pairwise fun a b => a.1 < b.1

namespace OrderedMap

variable {κ α : Type*}

section

variable [LinearOrder κ]

def empty : OrderedMap κ α := ⟨[], .nil⟩

/-- The value at a key. -/
def lookup (m : OrderedMap κ α) (k : κ) : Option α :=
  (m.entries.find? fun e => decide (e.1 = k)).map Prod.snd

theorem nodup_keys (m : OrderedMap κ α) : (m.entries.map Prod.fst).Nodup :=
  List.pairwise_map.mpr (m.sorted.imp ne_of_lt)

/-- A key has one value. -/
theorem eq_of_mem {m : OrderedMap κ α} {k : κ} {v v' : α} (h : (k, v) ∈ m.entries)
    (h' : (k, v') ∈ m.entries) : v = v' :=
  congrArg Prod.snd (List.inj_on_of_nodup_map m.nodup_keys h h' rfl)

theorem mem_of_lookup {m : OrderedMap κ α} {k : κ} {v : α} (h : m.lookup k = some v) :
    (k, v) ∈ m.entries := by
  obtain ⟨e, found, rfl⟩ := Option.map_eq_some_iff.mp h
  have key := List.find?_some found
  rw [← of_decide_eq_true key]
  exact List.mem_of_find?_eq_some found

theorem lookup_eq_some_iff {m : OrderedMap κ α} {k : κ} {v : α} :
    m.lookup k = some v ↔ (k, v) ∈ m.entries := by
  refine ⟨mem_of_lookup, fun h => ?_⟩
  cases found : m.lookup k with
  | none =>
      have absent := List.find?_eq_none.mp (Option.map_eq_none_iff.mp found) (k, v) h
      exact absurd (decide_eq_true rfl) absent
  | some v' => rw [eq_of_mem (mem_of_lookup found) h]

theorem lookup_eq_none_iff {m : OrderedMap κ α} {k : κ} :
    m.lookup k = none ↔ ∀ e ∈ m.entries, e.1 ≠ k := by
  rw [lookup, Option.map_eq_none_iff, List.find?_eq_none]
  simp only [decide_eq_true_eq, ne_eq]

/-! ## Assignment -/

/-- Put an entry into its place, or replace the one with its key. -/
def assignEntry (k : κ) (v : α) : List (κ × α) → List (κ × α)
  | [] => [(k, v)]
  | e :: rest =>
      if k < e.1 then (k, v) :: e :: rest
      else if k = e.1 then (k, v) :: rest
      else e :: assignEntry k v rest

theorem mem_assignEntry {k : κ} {v : α} {entries : List (κ × α)} {e : κ × α}
    (h : e ∈ assignEntry k v entries) : e = (k, v) ∨ e ∈ entries := by
  induction entries with
  | nil => exact .inl (List.mem_singleton.mp h)
  | cons first rest ih =>
      rw [assignEntry] at h
      split at h
      · exact List.mem_cons.mp h
      · split at h
        · exact (List.mem_cons.mp h).imp_right (List.mem_cons_of_mem _)
        · cases List.mem_cons.mp h with
          | inl h => exact .inr (h ▸ List.mem_cons_self)
          | inr h => exact (ih h).imp_right (List.mem_cons_of_mem _)

theorem sorted_assignEntry (k : κ) (v : α) {entries : List (κ × α)}
    (sorted : entries.Pairwise fun a b => a.1 < b.1) :
    (assignEntry k v entries).Pairwise fun a b => a.1 < b.1 := by
  induction entries with
  | nil => exact List.pairwise_singleton _ _
  | cons first rest ih =>
      obtain ⟨below, sorted'⟩ := List.pairwise_cons.mp sorted
      rw [assignEntry]
      split
      · next lt =>
          refine List.pairwise_cons.mpr ⟨?_, sorted⟩
          rw [List.forall_mem_cons]
          exact ⟨lt, fun e he => lt_trans lt (below e he)⟩
      · next notLt =>
          split
          · next eq => exact List.pairwise_cons.mpr ⟨fun e he => eq ▸ below e he, sorted'⟩
          · next ne =>
              refine List.pairwise_cons.mpr ⟨?_, ih sorted'⟩
              intro e he
              cases mem_assignEntry he with
              | inl h => rw [h]; exact lt_of_le_of_ne (not_lt.mp notLt) (Ne.symm ne)
              | inr h => exact below e h

/-- `m[k] = v` -/
def assign (m : OrderedMap κ α) (k : κ) (v : α) : OrderedMap κ α :=
  ⟨assignEntry k v m.entries, sorted_assignEntry k v m.sorted⟩

/-- Assignment adds an entry under a new key, or replaces the value of the key. -/
theorem assign_cases (m : OrderedMap κ α) (k : κ) (v : α) :
    (m.lookup k = none ∧ (m.assign k v).entries.Perm ((k, v) :: m.entries)) ∨
      ∃ old, m.lookup k = some old ∧ Moves m.entries (m.assign k v).entries (k, old) (k, v) := by
  have key : ∀ entries : List (κ × α), (entries.Pairwise fun a b => a.1 < b.1) →
      ((∀ e ∈ entries, e.1 ≠ k) ∧ (assignEntry k v entries).Perm ((k, v) :: entries)) ∨
        ∃ old, Moves entries (assignEntry k v entries) (k, old) (k, v) := by
    intro entries sorted
    induction entries with
    | nil => exact .inl ⟨by simp, .refl _⟩
    | cons first rest ih =>
        obtain ⟨below, sorted'⟩ := List.pairwise_cons.mp sorted
        rw [assignEntry]
        split
        · next lt =>
            refine .inl ⟨?_, .refl _⟩
            rw [List.forall_mem_cons]
            exact ⟨lt.ne', fun e he => (lt_trans lt (below e he)).ne'⟩
        · split
          · next eq => exact .inr ⟨first.2, [], rest, by rw [eq]; rfl, rfl⟩
          · next ne =>
              cases ih sorted' with
              | inl h =>
                  refine .inl ⟨?_, (h.2.cons first).trans (.swap _ _ _)⟩
                  rw [List.forall_mem_cons]
                  exact ⟨Ne.symm ne, h.1⟩
              | inr h =>
                  obtain ⟨old, before, after, hrest, hassign⟩ := h
                  exact .inr ⟨old, first :: before, after, by rw [hrest]; rfl, by rw [hassign]; rfl⟩
  cases key m.entries m.sorted with
  | inl h => exact .inl ⟨lookup_eq_none_iff.mpr h.1, h.2⟩
  | inr h =>
      obtain ⟨old, moves⟩ := h
      exact .inr ⟨old, lookup_eq_some_iff.mpr moves.mem, moves⟩

/-- Assignment to a new key adds an entry. -/
theorem assign_of_absent {m : OrderedMap κ α} {k : κ} (v : α) (absent : m.lookup k = none) :
    (m.assign k v).entries.Perm ((k, v) :: m.entries) := by
  cases m.assign_cases k v with
  | inl h => exact h.2
  | inr h =>
      obtain ⟨old, here, _⟩ := h
      rw [absent] at here
      cases here

theorem lookup_assign_self (m : OrderedMap κ α) (k : κ) (v : α) :
    (m.assign k v).lookup k = some v := by
  rw [lookup_eq_some_iff]
  cases m.assign_cases k v with
  | inl h => exact h.2.mem_iff.mpr List.mem_cons_self
  | inr h =>
      obtain ⟨old, _, moves⟩ := h
      exact moves.mem_after

/-- A map in which one value has moved is the same at all other keys. -/
theorem lookup_of_moves {m m' : OrderedMap κ α} {k k' : κ} {v v' : α}
    (moves : Moves m.entries m'.entries (k, v) (k, v')) (h : k' ≠ k) :
    m'.lookup k' = m.lookup k' := by
  apply Option.ext
  intro x
  rw [lookup_eq_some_iff, lookup_eq_some_iff]
  obtain ⟨before, after, hm, hm'⟩ := moves
  rw [hm, hm']
  simp [h]

theorem lookup_assign_of_ne (m : OrderedMap κ α) {k k' : κ} (v : α) (h : k' ≠ k) :
    (m.assign k v).lookup k' = m.lookup k' := by
  cases m.assign_cases k v with
  | inl new =>
      apply Option.ext
      intro x
      rw [lookup_eq_some_iff, lookup_eq_some_iff, new.2.mem_iff]
      simp [h]
  | inr replaced =>
      obtain ⟨old, _, moves⟩ := replaced
      exact lookup_of_moves moves h

end

/-! ## Search from the end -/

/-- Change the first value that satisfies `p`, and return it as it was. -/
def updateFirst (p : α → Bool) (f : α → α) : List (κ × α) → Option α × List (κ × α)
  | [] => (none, [])
  | e :: rest =>
      if p e.2 then (some e.2, (e.1, f e.2) :: rest)
      else
        let next := updateFirst p f rest
        (next.1, e :: next.2)

section

variable (p : α → Bool) (f : α → α)

theorem map_fst_updateFirst (entries : List (κ × α)) :
    (updateFirst p f entries).2.map Prod.fst = entries.map Prod.fst := by
  induction entries with
  | nil => rfl
  | cons e rest ih =>
      rw [updateFirst]
      split
      · rfl
      · rw [List.map_cons, List.map_cons, ih]

theorem updateFirst_cases (entries : List (κ × α)) :
    ((∀ e ∈ entries, p e.2 = false) ∧ updateFirst p f entries = (none, entries)) ∨
      ∃ before e after, entries = before ++ e :: after ∧ (∀ b ∈ before, p b.2 = false) ∧
        p e.2 = true ∧ updateFirst p f entries = (some e.2, before ++ (e.1, f e.2) :: after) := by
  induction entries with
  | nil => exact .inl ⟨by simp, rfl⟩
  | cons first rest ih =>
      rw [updateFirst]
      cases h : p first.2 with
      | true => exact .inr ⟨[], first, rest, rfl, by simp, h, rfl⟩
      | false =>
          cases ih with
          | inl none =>
              refine .inl ⟨List.forall_mem_cons.mpr ⟨h, none.1⟩, ?_⟩
              rw [none.2]
              rfl
          | inr found =>
              obtain ⟨before, e, after, rfl, skipped, hit, same⟩ := found
              refine .inr ⟨first :: before, e, after, rfl,
                List.forall_mem_cons.mpr ⟨h, skipped⟩, hit, ?_⟩
              rw [same]
              rfl

variable [LinearOrder κ]

/-- Search the map from its greatest key down. -/
def updateLast (m : OrderedMap κ α) : Option α × OrderedMap κ α :=
  let found := updateFirst p f m.entries.reverse
  (found.1,
    { entries := found.2.reverse
      sorted := by
        have keys : found.2.reverse.map Prod.fst = m.entries.map Prod.fst := by
          rw [List.map_reverse, map_fst_updateFirst, List.map_reverse, List.reverse_reverse]
        have sorted : (m.entries.map Prod.fst).Pairwise (· < ·) :=
          List.pairwise_map.mpr m.sorted
        rw [← keys] at sorted
        exact List.pairwise_map.mp sorted })

/-- Nothing satisfies `p` and nothing changes, or the entry with the greatest key among
those that do. -/
theorem updateLast_cases (m : OrderedMap κ α) :
    ((∀ e ∈ m.entries, p e.2 = false) ∧ m.updateLast p f = (none, m)) ∨
      ∃ e, p e.2 = true ∧ (∀ x ∈ m.entries, p x.2 = true → x.1 ≤ e.1) ∧
        (m.updateLast p f).1 = some e.2 ∧
        Moves m.entries (m.updateLast p f).2.entries e (e.1, f e.2) := by
  cases updateFirst_cases p f m.entries.reverse with
  | inl h =>
      refine .inl ⟨fun e he => h.1 e (List.mem_reverse.mpr he), ?_⟩
      simp only [updateLast, h.2, List.reverse_reverse]
  | inr h =>
      obtain ⟨before, e, after, split, skipped, hit, same⟩ := h
      have entries : m.entries = after.reverse ++ e :: before.reverse := by
        rw [← List.reverse_reverse m.entries, split]
        simp
      refine .inr ⟨e, hit, ?_, ?_, after.reverse, before.reverse, entries, ?_⟩
      · intro x hx satisfied
        rw [entries] at hx
        have sorted := m.sorted
        rw [entries, List.pairwise_append] at sorted
        cases List.mem_append.mp hx with
        | inl h => exact (sorted.2.2 x h e List.mem_cons_self).le
        | inr h =>
            cases List.mem_cons.mp h with
            | inl h => rw [h]
            | inr h =>
                rw [skipped x (List.mem_reverse.mp h)] at satisfied
                cases satisfied
      · simp only [updateLast, same]
      · simp only [updateLast, same]
        simp

end

end OrderedMap
