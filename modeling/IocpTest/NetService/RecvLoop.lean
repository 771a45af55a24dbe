import IocpTest.NetService.Data

/-!
# The record loop of `RecvCmdData`

`recvPass` is one pass through the loop body, `recvLoop` the `while` loop and
`recvRecords` the three branches on `length` around it. The cursor keeps, beside
`pBuff` and `recvID`, what the C++ program leaves no trace of: the records it
went through, every read it made and every place it moved `pBuff` to.

The loop stops only at a zero field or when `pBuff` equals `pend`, so it need not
stop at all. `recvLoop` therefore takes fuel and answers `none` when the fuel is
spent; `Scans` says that some fuel is enough.
-/

namespace IocpTest.NetService

open Bytes

/-- The header of one record, as the loop reads it. -/
structure CmdHeader where
  serSendID : UINT
  msgID : USHORT
  msgLength : USHORT
  deriving DecidableEq

/-- What the loop does with `pBuff`: read through it or move it. -/
inductive Access where
  | read (offset width : Nat)
  | move (offset : Nat)
  deriving DecidableEq

/-- The locals of the loop. Offsets count from `pdata->buffer`. -/
structure Cursor where
  pBuff : Nat
  recvID : UINT
  visited : List CmdHeader
  accesses : List Access
  deriving DecidableEq

namespace Cursor

def start (recvID : UINT) : Cursor := ⟨0, recvID, [], []⟩

def read (s : Cursor) (width : Nat) : Cursor :=
  { s with accesses := s.accesses ++ [.read s.pBuff width] }

def move (s : Cursor) (n : Nat) : Cursor :=
  { s with pBuff := s.pBuff + n, accesses := s.accesses ++ [.move (s.pBuff + n)] }

end Cursor

/-- The conditional update of `recvID` at the end of the loop body. -/
def acknowledge (recvID serSendID : UINT) : UINT :=
  if serSendID = recvID + 1 then serSendID else recvID

def Cursor.visit (s : Cursor) (header : CmdHeader) : Cursor :=
  { s with
    recvID := acknowledge s.recvID header.serSendID
    visited := s.visited ++ [header] }

/-- How a pass ends: at a `break` or at the end of the loop body. -/
inductive Pass where
  | stop (s : Cursor)
  | again (s : Cursor)

def recvPass (mem : Memory) (s : Cursor) : Pass :=
  let serSendID := readUINT mem s.pBuff
  let s := s.read 4
  if serSendID = 0#32 then .stop s
  else
    let s := s.move 4
    let msgID := readUSHORT mem s.pBuff
    let s := s.read 2
    if msgID = 0#16 then .stop s
    else
      let s := s.move 2
      let msgLength := readUSHORT mem s.pBuff
      let s := s.read 2
      if msgLength = 0#16 then .stop s
      else
        let s := s.move (msgLength.toNat + 2)
        .again (s.visit ⟨serSendID, msgID, msgLength⟩)

/-- `while (pBuff != pend)`. -/
def recvLoop (mem : Memory) (pend : Nat) : Nat → Cursor → Option Cursor
  | 0, _ => none
  | fuel + 1, s =>
    if s.pBuff = pend then some s
    else
      match recvPass mem s with
      | .stop s => some s
      | .again s => recvLoop mem pend fuel s

/-- The branches of `RecvCmdData` on `length`. A datagram shorter than the answer
word is only logged, and one that is just the answer word is only read. -/
def recvRecords (mem : Memory) (recvID : UINT) (length fuel : Nat) : Option Cursor :=
  if length < 4 then some (.start recvID)
  else if length = 4 then some ((Cursor.start recvID).read 4)
  else recvLoop mem length fuel (((Cursor.start recvID).read 4).move 4)

/-- The receive branch terminates, with this cursor. -/
def Scans (mem : Memory) (recvID : UINT) (length : Nat) (t : Cursor) : Prop :=
  ∃ fuel, recvRecords mem recvID length fuel = some t

/-! ## One pass -/

section

variable {mem : Memory} {s t : Cursor}

theorem recvPass_noSendID (h : readUINT mem s.pBuff = 0#32) :
    recvPass mem s = .stop (s.read 4) := by
  simp [recvPass, h]

theorem recvPass_noMsgID (hid : readUINT mem s.pBuff ≠ 0#32)
    (h : readUSHORT mem (s.pBuff + 4) = 0#16) :
    recvPass mem s = .stop (((s.read 4).move 4).read 2) := by
  simp [recvPass, hid, Cursor.move, Cursor.read, h]

theorem recvPass_noLength (hid : readUINT mem s.pBuff ≠ 0#32)
    (hmsg : readUSHORT mem (s.pBuff + 4) ≠ 0#16) (h : readUSHORT mem (s.pBuff + 6) = 0#16) :
    recvPass mem s = .stop (((((s.read 4).move 4).read 2).move 2).read 2) := by
  simp [recvPass, hid, Cursor.move, Cursor.read, hmsg, h, Nat.add_assoc]

/-- The header that starts at the cursor. -/
def Cursor.header (mem : Memory) (s : Cursor) : CmdHeader :=
  ⟨readUINT mem s.pBuff, readUSHORT mem (s.pBuff + 4), readUSHORT mem (s.pBuff + 6)⟩

/-- The cursor after a pass that reaches the end of the loop body. -/
def Cursor.next (mem : Memory) (s : Cursor) : Cursor :=
  ((((((s.read 4).move 4).read 2).move 2).read 2).move
    ((s.header mem).msgLength.toNat + 2)).visit (s.header mem)

theorem recvPass_again (hid : readUINT mem s.pBuff ≠ 0#32)
    (hmsg : readUSHORT mem (s.pBuff + 4) ≠ 0#16) (hlen : readUSHORT mem (s.pBuff + 6) ≠ 0#16) :
    recvPass mem s = .again (s.next mem) := by
  simp [recvPass, hid, Cursor.move, Cursor.read, hmsg, hlen, Cursor.next, Cursor.header,
    Nat.add_assoc]

theorem Cursor.next_pBuff :
    (s.next mem).pBuff = s.pBuff + 8 + (readUSHORT mem (s.pBuff + 6)).toNat := by
  simp only [Cursor.next, Cursor.header, Cursor.visit, Cursor.move, Cursor.read]
  omega

@[simp] theorem Cursor.next_visited :
    (s.next mem).visited = s.visited ++ [s.header mem] := rfl

@[simp] theorem Cursor.next_recvID :
    (s.next mem).recvID = acknowledge s.recvID (s.header mem).serSendID := rfl

theorem Cursor.accesses_subset_next (mem : Memory) (s : Cursor) :
    s.accesses ⊆ (s.next mem).accesses := by
  simp [Cursor.next, Cursor.visit, Cursor.move, Cursor.read]

/-- Every pass goes exactly one of four ways. -/
theorem recvPass_cases (mem : Memory) (s : Cursor) :
    (readUINT mem s.pBuff = 0#32 ∧ recvPass mem s = .stop (s.read 4)) ∨
    (readUINT mem s.pBuff ≠ 0#32 ∧ readUSHORT mem (s.pBuff + 4) = 0#16 ∧
      recvPass mem s = .stop (((s.read 4).move 4).read 2)) ∨
    (readUINT mem s.pBuff ≠ 0#32 ∧ readUSHORT mem (s.pBuff + 4) ≠ 0#16 ∧
      readUSHORT mem (s.pBuff + 6) = 0#16 ∧
      recvPass mem s = .stop (((((s.read 4).move 4).read 2).move 2).read 2)) ∨
    (readUINT mem s.pBuff ≠ 0#32 ∧ readUSHORT mem (s.pBuff + 4) ≠ 0#16 ∧
      readUSHORT mem (s.pBuff + 6) ≠ 0#16 ∧ recvPass mem s = .again (s.next mem)) := by
  by_cases hid : readUINT mem s.pBuff = 0#32
  · exact .inl ⟨hid, recvPass_noSendID hid⟩
  by_cases hmsg : readUSHORT mem (s.pBuff + 4) = 0#16
  · exact .inr (.inl ⟨hid, hmsg, recvPass_noMsgID hid hmsg⟩)
  by_cases hlen : readUSHORT mem (s.pBuff + 6) = 0#16
  · exact .inr (.inr (.inl ⟨hid, hmsg, hlen, recvPass_noLength hid hmsg hlen⟩))
  · exact .inr (.inr (.inr ⟨hid, hmsg, hlen, recvPass_again hid hmsg hlen⟩))

/-- A pass that goes on found three fields that are not zero. -/
theorem recvPass_eq_again (pass : recvPass mem s = .again t) :
    (readUINT mem s.pBuff ≠ 0#32 ∧ readUSHORT mem (s.pBuff + 4) ≠ 0#16 ∧
      readUSHORT mem (s.pBuff + 6) ≠ 0#16) ∧ t = s.next mem := by
  rcases recvPass_cases mem s with
    ⟨_, hp⟩ | ⟨_, _, hp⟩ | ⟨_, _, _, hp⟩ | ⟨hid, hmsg, hlen, hp⟩ <;> rw [hp] at pass <;> cases pass
  exact ⟨⟨hid, hmsg, hlen⟩, rfl⟩

end

/-! ## The loop -/

section

variable {mem : Memory} {pend fuel : Nat} {s t : Cursor}

theorem recvLoop_done (h : s.pBuff = pend) : recvLoop mem pend (fuel + 1) s = some s := by
  simp [recvLoop, h]

theorem recvLoop_stop (h : s.pBuff ≠ pend) (pass : recvPass mem s = .stop t) :
    recvLoop mem pend (fuel + 1) s = some t := by
  simp [recvLoop, h, pass]

theorem recvLoop_again (h : s.pBuff ≠ pend) (pass : recvPass mem s = .again t) :
    recvLoop mem pend (fuel + 1) s = recvLoop mem pend fuel t := by
  simp [recvLoop, h, pass]

/-- More fuel never changes a result. -/
theorem recvLoop_mono (extra : Nat) (h : recvLoop mem pend fuel s = some t) :
    recvLoop mem pend (fuel + extra) s = some t := by
  induction fuel generalizing s with
  | zero => simp [recvLoop] at h
  | succ fuel ih =>
      rw [Nat.succ_add]
      by_cases hend : s.pBuff = pend
      · rw [recvLoop_done hend] at h ⊢
        exact h
      · cases pass : recvPass mem s with
        | stop u =>
            rw [recvLoop_stop hend pass] at h ⊢
            exact h
        | again u =>
            rw [recvLoop_again hend pass] at h ⊢
            exact ih h

/-- The loop rule: a relation between the cursor and the result that holds at
both exits and is carried backwards over a full pass holds of every run. -/
theorem recvLoop_induction (rel : Cursor → Cursor → Prop)
    (done : ∀ s, s.pBuff = pend → rel s s)
    (stop : ∀ s t, s.pBuff ≠ pend → recvPass mem s = .stop t → rel s t)
    (again : ∀ s t, s.pBuff ≠ pend → recvPass mem s = .again (s.next mem) →
      rel (s.next mem) t → rel s t)
    (h : recvLoop mem pend fuel s = some t) : rel s t := by
  induction fuel generalizing s with
  | zero => simp [recvLoop] at h
  | succ fuel ih =>
      by_cases hend : s.pBuff = pend
      · rw [recvLoop_done hend] at h
        obtain rfl := Option.some.inj h
        exact done _ hend
      · cases pass : recvPass mem s with
        | stop u =>
            rw [recvLoop_stop hend pass] at h
            obtain rfl := Option.some.inj h
            exact stop _ _ hend pass
        | again u =>
            rw [recvLoop_again hend pass] at h
            obtain ⟨_, rfl⟩ := recvPass_eq_again pass
            exact again s t hend pass (ih h)

/-- A pass that stops leaves `recvID` and the visited records alone. -/
theorem recvPass_stop_fields (pass : recvPass mem s = .stop t) :
    t.recvID = s.recvID ∧ t.visited = s.visited ∧ s.accesses ⊆ t.accesses := by
  rcases recvPass_cases mem s with
    ⟨_, hp⟩ | ⟨_, _, hp⟩ | ⟨_, _, _, hp⟩ | ⟨_, _, _, hp⟩ <;> rw [hp] at pass <;> cases pass
  all_goals simp [Cursor.read, Cursor.move]

/-- `recvID` is folded over the records in the order in which they are visited. -/
theorem recvLoop_recvID (h : recvLoop mem pend fuel s = some t) :
    ∃ headers, t.visited = s.visited ++ headers ∧
      t.recvID = (headers.map CmdHeader.serSendID).foldl acknowledge s.recvID := by
  apply recvLoop_induction (fun s t => ∃ headers, t.visited = s.visited ++ headers ∧
    t.recvID = (headers.map CmdHeader.serSendID).foldl acknowledge s.recvID) ?_ ?_ ?_ h
  · intro s _
    exact ⟨[], by simp, rfl⟩
  · intro s t _ pass
    obtain ⟨hr, hv, _⟩ := recvPass_stop_fields pass
    exact ⟨[], by simp [hv], by simp [hr]⟩
  · rintro s t _ _ ⟨headers, hv, hr⟩
    refine ⟨s.header mem :: headers, ?_, ?_⟩
    · rw [hv, Cursor.next_visited, List.append_assoc, List.singleton_append]
    · rw [hr, Cursor.next_recvID]
      rfl

/-- A record with the number 0 is never gone through: it ends the packet. -/
theorem recvLoop_serSendID_ne (h : recvLoop mem pend fuel s = some t) :
    ∀ x ∈ t.visited, x ∈ s.visited ∨ x.serSendID ≠ 0#32 := by
  apply recvLoop_induction (fun s t => ∀ x ∈ t.visited, x ∈ s.visited ∨ x.serSendID ≠ 0#32)
    ?_ ?_ ?_ h
  · intro s _ x hx
    exact .inl hx
  · intro s t _ pass x hx
    rw [(recvPass_stop_fields pass).2.1] at hx
    exact .inl hx
  · intro s t _ pass rest x hx
    obtain ⟨⟨hid, _, _⟩, _⟩ := recvPass_eq_again pass
    cases rest x hx with
    | inr h => exact .inr h
    | inl h =>
        rw [Cursor.next_visited, List.mem_append, List.mem_singleton] at h
        cases h with
        | inl h => exact .inl h
        | inr h => exact .inr (h ▸ hid)

/-- Nothing is ever taken out of the list of accesses. -/
theorem recvLoop_accesses (h : recvLoop mem pend fuel s = some t) :
    s.accesses ⊆ t.accesses := by
  apply recvLoop_induction (fun s t => s.accesses ⊆ t.accesses) ?_ ?_ ?_ h
  · intro s _
    exact List.Subset.refl _
  · intro s t _ pass
    exact (recvPass_stop_fields pass).2.2
  · intro s t _ _ rest
    exact List.Subset.trans (s.accesses_subset_next mem) rest

end

/-! ## What the loop does not depend on -/

/-- The same cursor with another number acknowledged. -/
def Cursor.withRecvID (s : Cursor) (recvID : UINT) : Cursor := { s with recvID := recvID }

section

variable {mem : Memory} {pend fuel : Nat} {s t : Cursor} (recvID : UINT)

theorem recvPass_stop_withRecvID (pass : recvPass mem s = .stop t) :
    recvPass mem (s.withRecvID recvID) = .stop (t.withRecvID recvID) := by
  rcases recvPass_cases mem s with
    ⟨hid, hp⟩ | ⟨hid, hmsg, hp⟩ | ⟨hid, hmsg, hlen, hp⟩ | ⟨_, _, _, hp⟩ <;>
    rw [hp] at pass <;> cases pass
  · exact recvPass_noSendID hid
  · exact recvPass_noMsgID hid hmsg
  · exact recvPass_noLength hid hmsg hlen

/-- Which records the loop goes through does not depend on `recvID`. -/
theorem recvLoop_withRecvID (h : recvLoop mem pend fuel s = some t) :
    ∃ fuel u, recvLoop mem pend fuel (s.withRecvID recvID) = some u ∧ u.visited = t.visited := by
  refine recvLoop_induction (fun s t => ∀ recvID, ∃ fuel u,
    recvLoop mem pend fuel (s.withRecvID recvID) = some u ∧ u.visited = t.visited)
    ?_ ?_ ?_ h recvID
  · intro s hend recvID
    exact ⟨1, _, recvLoop_done hend, rfl⟩
  · intro s t hend pass recvID
    exact ⟨1, _, recvLoop_stop hend (recvPass_stop_withRecvID recvID pass), rfl⟩
  · intro s t hend pass rest recvID
    obtain ⟨⟨hid, hmsg, hlen⟩, _⟩ := recvPass_eq_again pass
    have pass' : recvPass mem (s.withRecvID recvID) = .again ((s.withRecvID recvID).next mem) :=
      recvPass_again hid hmsg hlen
    obtain ⟨fuel, u, hloop, hvisited⟩ := rest (acknowledge recvID (s.header mem).serSendID)
    have hend' : (s.withRecvID recvID).pBuff ≠ pend := hend
    refine ⟨fuel + 1, u, ?_, hvisited⟩
    rw [recvLoop_again hend' pass']
    exact hloop

end

/-! ## The receive branch -/

variable {mem : Memory} {recvID : UINT} {length : Nat} {s t : Cursor}

/-- The cursor with which the loop is entered. -/
def Cursor.afterAnswer (recvID : UINT) : Cursor := ((Cursor.start recvID).read 4).move 4

theorem recvRecords_short {fuel : Nat} (h : length < 4) :
    recvRecords mem recvID length fuel = some (.start recvID) := by
  simp [recvRecords, h]

theorem recvRecords_answer {fuel : Nat} :
    recvRecords mem recvID 4 fuel = some ((Cursor.start recvID).read 4) := by
  simp [recvRecords]

theorem recvRecords_long {fuel : Nat} (h : 4 < length) :
    recvRecords mem recvID length fuel = recvLoop mem length fuel (.afterAnswer recvID) := by
  have hshort : ¬length < 4 := by omega
  have hanswer : length ≠ 4 := by omega
  simp [recvRecords, hshort, hanswer, Cursor.afterAnswer]

theorem recvRecords_mono {fuel : Nat} (more : Nat)
    (scan : recvRecords mem recvID length fuel = some t) :
    recvRecords mem recvID length (fuel + more) = some t := by
  simp only [recvRecords] at scan ⊢
  split_ifs at scan ⊢
  · exact scan
  · exact scan
  · exact recvLoop_mono more scan

/-- A scan that ends does so with any fuel from some amount on. -/
theorem Scans.enough (h : Scans mem recvID length t) :
    ∃ enough, ∀ fuel, enough ≤ fuel → recvRecords mem recvID length fuel = some t := by
  obtain ⟨enough, scan⟩ := h
  refine ⟨enough, fun fuel le => ?_⟩
  obtain ⟨more, rfl⟩ := Nat.exists_eq_add_of_le le
  exact recvRecords_mono more scan

/-- The result does not depend on how much fuel was provided. -/
theorem Scans.unique (first : Scans mem recvID length s) (second : Scans mem recvID length t) :
    s = t := by
  obtain ⟨a, ha⟩ := first.enough
  obtain ⟨b, hb⟩ := second.enough
  exact Option.some.inj
    ((ha _ (Nat.le_max_left a b)).symm.trans (hb _ (Nat.le_max_right a b)))

/-- Up to the answer word there is no record. -/
theorem exists_scans_of_le (h : length ≤ 4) :
    ∃ u, Scans mem recvID length u ∧ u.visited = [] ∧ u.recvID = recvID := by
  rcases Nat.lt_or_eq_of_le h with hlt | rfl
  · exact ⟨_, ⟨0, recvRecords_short hlt⟩, rfl, rfl⟩
  · exact ⟨_, ⟨0, recvRecords_answer⟩, rfl, rfl⟩

/-- Behind it a scan is a run of the loop. -/
theorem scans_iff_of_lt (h : 4 < length) :
    Scans mem recvID length t ↔
      ∃ fuel, recvLoop mem length fuel (.afterAnswer recvID) = some t := by
  simp only [Scans, recvRecords_long h]

/-- A scan goes through no record, or its loop has come to the end. -/
theorem Scans.cases (h : Scans mem recvID length t) :
    (length ≤ 4 ∧ t.visited = [] ∧ t.recvID = recvID) ∨
      (4 < length ∧ ∃ fuel, recvLoop mem length fuel (.afterAnswer recvID) = some t) := by
  rcases Nat.lt_or_ge 4 length with long | short
  · exact .inr ⟨long, (scans_iff_of_lt long).mp h⟩
  · have noRecord : ∃ u, Scans mem recvID length u ∧ u.visited = [] ∧ u.recvID = recvID :=
      exists_scans_of_le short
    obtain ⟨u, scan, none⟩ := noRecord
    obtain rfl := scan.unique h
    exact .inl ⟨short, none⟩

theorem Scans.serSendID_ne (h : Scans mem recvID length t) :
    ∀ x ∈ t.visited, x.serSendID ≠ 0#32 := by
  intro x hx
  rcases h.cases with ⟨_, none, _⟩ | ⟨_, fuel, loop⟩
  · rw [none] at hx
    exact absurd hx List.not_mem_nil
  · exact (recvLoop_serSendID_ne loop x hx).resolve_left List.not_mem_nil

/-- The same buffer is scanned from any `recvID`, through the same records. -/
theorem Scans.withRecvID (h : Scans mem recvID length t) (recvID' : UINT) :
    ∃ u, Scans mem recvID' length u ∧ u.visited = t.visited := by
  rcases h.cases with ⟨short, none, _⟩ | ⟨long, fuel, loop⟩
  · obtain ⟨u, scan, none', _⟩ := exists_scans_of_le short
    exact ⟨u, scan, none'.trans none.symm⟩
  · obtain ⟨fuel', u, loop', visited⟩ := recvLoop_withRecvID recvID' loop
    exact ⟨u, (scans_iff_of_lt long).mpr ⟨fuel', loop'⟩, visited⟩

/-- The new `recvID` is the fold of the visited sequence numbers over the old one. -/
theorem Scans.recvID_eq (h : Scans mem recvID length t) :
    t.recvID = (t.visited.map CmdHeader.serSendID).foldl acknowledge recvID := by
  rcases h.cases with ⟨_, none, same⟩ | ⟨_, fuel, loop⟩
  · rw [none, same]
    rfl
  · obtain ⟨headers, hv, hr⟩ := recvLoop_recvID loop
    have hv' : t.visited = headers := by simpa [Cursor.afterAnswer, Cursor.start,
      Cursor.read, Cursor.move] using hv
    rw [hr, hv']
    rfl

end IocpTest.NetService
