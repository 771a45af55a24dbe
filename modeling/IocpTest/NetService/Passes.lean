import IocpTest.Logic.Run
import IocpTest.NetService.RecvLoop

/-!
# The record loop pass by pass

A loop that does not end has no result, but it goes through records, reads memory and moves
`recvID` all the same. `PassStep` is one full pass through the loop body, so that a run of
`PassStep` is the loop up to any point of it; `Scans.passes` gives the run of a loop that
ends.

`received` is the buffer as a receive leaves it: the datagram, the zeros of the `memset`
before the receive up to the end of the buffer, and behind the buffer whatever is there.
-/

namespace IocpTest.NetService

open Bytes StepSystem

/-- One full pass of the loop, over a record with this header. -/
def PassStep (mem : Memory) (pend : Nat) (s : Cursor) (header : CmdHeader) (t : Cursor) : Prop :=
  s.pBuff ≠ pend ∧ recvPass mem s = .again t ∧ header = s.header mem

/-- The passes of `RecvCmdData` up to a point of its loop. Up to a length of 4 there is
no loop. -/
def Passes (mem : Memory) (recvID : UINT) (length : Nat) (trace : List (Cursor × CmdHeader))
    (t : Cursor) : Prop :=
  4 < length ∧ Run (PassStep mem length) (.afterAnswer recvID) trace t

/-- The header at an offset has no zero field. -/
def HeaderAt (mem : Memory) (p : Nat) : Prop :=
  readUINT mem p ≠ 0#32 ∧ readUSHORT mem (p + 4) ≠ 0#16 ∧ readUSHORT mem (p + 6) ≠ 0#16

theorem passStep_iff {mem : Memory} {pend : Nat} {s t : Cursor} {header : CmdHeader} :
    PassStep mem pend s header t ↔
      s.pBuff ≠ pend ∧ HeaderAt mem s.pBuff ∧ header = s.header mem ∧ t = s.next mem := by
  constructor
  · rintro ⟨hend, pass, rfl⟩
    obtain ⟨fields, rfl⟩ := recvPass_eq_again pass
    exact ⟨hend, fields, rfl, rfl⟩
  · rintro ⟨hend, ⟨hid, hmsg, hlen⟩, rfl, rfl⟩
    exact ⟨hend, recvPass_again hid hmsg hlen, rfl⟩

/-- What a run of passes adds to the visited records. -/
theorem visited_of_run {mem : Memory} {pend : Nat} {s t : Cursor}
    {trace : List (Cursor × CmdHeader)} (run : Run (PassStep mem pend) s trace t) :
    t.visited = s.visited ++ trace.map Prod.snd := by
  induction run with
  | nil => exact (List.append_nil _).symm
  | cons first _ ih =>
      obtain ⟨_, _, rfl, rfl⟩ := passStep_iff.mp first
      rw [ih, Cursor.next_visited, List.append_assoc]
      rfl

/-- A loop that ends has made its passes and has then stopped without moving `recvID`. -/
theorem run_of_recvLoop {mem : Memory} {pend fuel : Nat} {s t : Cursor}
    (h : recvLoop mem pend fuel s = some t) :
    ∃ trace u, Run (PassStep mem pend) s trace u ∧ t.visited = u.visited ∧
      t.recvID = u.recvID := by
  apply recvLoop_induction (fun s t => ∃ trace u, Run (PassStep mem pend) s trace u ∧
    t.visited = u.visited ∧ t.recvID = u.recvID) ?_ ?_ ?_ h
  · intro s _
    exact ⟨[], s, .nil s, rfl, rfl⟩
  · intro s t _ pass
    obtain ⟨hrecvID, hvisited, _⟩ := recvPass_stop_fields pass
    exact ⟨[], s, .nil s, hvisited, hrecvID⟩
  · rintro s t hend pass ⟨trace, u, run, hvisited, hrecvID⟩
    exact ⟨_, u, .cons ⟨hend, pass, rfl⟩ run, hvisited, hrecvID⟩

/-- The passes of a scan are over the records that it goes through. -/
theorem Scans.passes {mem : Memory} {recvID : UINT} {length : Nat} {t : Cursor}
    (h : Scans mem recvID length t) (long : 4 < length) :
    ∃ trace u, Passes mem recvID length trace u ∧ t.visited = trace.map Prod.snd ∧
      t.recvID = u.recvID := by
  obtain ⟨fuel, h⟩ := h
  rw [recvRecords_long long] at h
  obtain ⟨trace, u, run, hvisited, hrecvID⟩ := run_of_recvLoop h
  exact ⟨trace, u, ⟨long, run⟩, hvisited.trans (visited_of_run run), hrecvID⟩

/-! ## The buffer after a receive -/

/-- A datagram in a cleared buffer. -/
def received (behind : Memory) (capacity : Nat) (d : List Byte) : Memory :=
  memcpy (memset behind 0 0#8 capacity) 0 d

section

variable (behind : Memory) {capacity i p : Nat} {d : List Byte}

/-- The rest of the buffer is zero. -/
theorem received_padding (h : d.length ≤ i) (inside : i < capacity) :
    received behind capacity d i = 0#8 := by
  have after : ¬i < d.length := by omega
  simp [received, memcpy, memset, after, inside]

theorem received_behind (fits : d.length ≤ capacity) (outside : capacity ≤ i) :
    received behind capacity d i = behind i := by
  have after : ¬i < d.length := by omega
  have outside' : ¬i < capacity := by omega
  simp [received, memcpy, memset, after, outside']

/-- The buffer itself is the same whatever lies behind it. -/
theorem received_inside (behind' : Memory) (inside : i < capacity) :
    received behind capacity d i = received behind' capacity d i := by
  simp [received, memcpy, memset, inside]

theorem readUINT_received (behind' : Memory) (inside : p + 4 ≤ capacity) :
    readUINT (received behind capacity d) p = readUINT (received behind' capacity d) p :=
  readUINT_congr fun i _ _ => received_inside behind behind' (by omega)

theorem readUSHORT_received (behind' : Memory) (inside : p + 2 ≤ capacity) :
    readUSHORT (received behind capacity d) p = readUSHORT (received behind' capacity d) p :=
  readUSHORT_congr fun i _ _ => received_inside behind behind' (by omega)

/-- A number in the padding is 0. -/
theorem readUINT_padding (h : d.length ≤ p) (inside : p + 4 ≤ capacity) :
    readUINT (received behind capacity d) p = 0#32 :=
  readUINT_eq_zero.mpr fun i _ _ => received_padding behind (by omega) (by omega)

end

end IocpTest.NetService
