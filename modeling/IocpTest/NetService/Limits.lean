import IocpTest.NetService.Cumulative

/-!
# The limits of the sequence numbers

`recvID` is a `UINT` and counts up by one. The answer that reports it carries a flag in
its top bit, and the records that move it end at the number 0. So from `2 ^ 31` on the
answer no longer says which number was received, and the successor of `2 ^ 32 - 1` is not
received at all. Up to `2 ^ 31 - 2` nothing of this shows.

`exists_run_recvID` says that a session comes to every one of these numbers.
-/

namespace IocpTest.NetService

open Bytes StepSystem

/-- A datagram that `RecvCmdData` handles: the memory from the buffer on, the length
reported, and whether the `WSASend` of the answer is accepted. -/
structure Datagram where
  mem : Memory
  length : Nat
  accepted : Bool

/-- One call of `RecvCmdData`. -/
def RecvStep (c : Channel) (e : Datagram) (c' : Channel) : Prop :=
  TrafficStep c (.datagram e.mem e.length e.accepted) c'

/-- The first record has the number after `recvID`, a message number, and a body that is
not empty and inside the packet. -/
structure CarriesNext (mem : Memory) (recvID : UINT) (length : Nat) : Prop where
  number : readUINT mem 4 = recvID + 1
  msgID : readUSHORT mem 8 ≠ 0#16
  body : readUSHORT mem 10 ≠ 0#16
  inside : 12 + (readUSHORT mem 10).toNat ≤ length

section

variable {mem : Memory} {recvID : UINT} {length : Nat}

theorem acknowledge_next (recvID : UINT) : acknowledge recvID (recvID + 1) = recvID + 1 := by
  rw [acknowledge, if_pos rfl]

/-- The first pass goes through the record, unless its number is 0. -/
theorem CarriesNext.pass (first : CarriesNext mem recvID length) (next : recvID + 1 ≠ 0#32) :
    recvPass mem (.afterAnswer recvID) = .again ((Cursor.afterAnswer recvID).next mem) ∧
      (Cursor.afterAnswer recvID).pBuff ≠ length := by
  have inside := first.inside
  refine ⟨recvPass_again (by rw [afterAnswer_pBuff, first.number]; exact next) first.msgID
    first.body, ?_⟩
  rw [afterAnswer_pBuff]
  omega

theorem CarriesNext.recvID_next (first : CarriesNext mem recvID length) :
    ((Cursor.afterAnswer recvID).next mem).recvID = recvID + 1 := by
  have header : ((Cursor.afterAnswer recvID).header mem).serSendID = recvID + 1 := first.number
  rw [Cursor.next, Cursor.visit, header]
  exact acknowledge_next recvID

/-- A packet with nothing behind the record is handled. -/
theorem CarriesNext.scans (first : CarriesNext mem recvID length)
    (whole : 12 + (readUSHORT mem 10).toNat = length) (next : recvID + 1 ≠ 0#32) :
    Scans mem recvID length ((Cursor.afterAnswer recvID).next mem) := by
  obtain ⟨pass, here⟩ := first.pass next
  have done : ((Cursor.afterAnswer recvID).next mem).pBuff = length := by
    rw [Cursor.next_pBuff, afterAnswer_pBuff]
    exact whole
  refine ⟨2, ?_⟩
  rw [recvRecords_long (by omega), recvLoop_again here pass, recvLoop_done done]

/-- What comes behind the record leaves `recvID` alone unless it has the number after it. -/
theorem CarriesNext.recvID_eq (first : CarriesNext mem recvID length) (next : recvID + 1 ≠ 0#32)
    {t : Cursor} (scan : Scans mem recvID length t)
    (behind : ∀ h ∈ t.visited.drop 1, h.serSendID ≠ recvID + 1 + 1) : t.recvID = recvID + 1 := by
  obtain ⟨pass, here⟩ := first.pass next
  obtain ⟨fuel, hscan⟩ := scan
  rw [recvRecords_long (by have := first.inside; omega)] at hscan
  cases fuel with
  | zero => cases hscan
  | succ fuel =>
      rw [recvLoop_again here pass] at hscan
      obtain ⟨headers, visited, fold⟩ := recvLoop_recvID hscan
      have rest : t.visited.drop 1 = headers := by
        rw [visited]
        rfl
      rw [rest] at behind
      rw [fold, first.recvID_next]
      apply foldl_acknowledge_of_absent
      intro member
      obtain ⟨h, hh, number⟩ := List.mem_map.mp member
      exact behind h hh number

end

section

variable {c c' : Channel} {mem : Memory} {length : Nat}

/-- What a scan that ended in `t` leaves behind when `RecvCmdData` returns. -/
structure Left (c : Channel) (t : Cursor) (accepted : Bool) (c' : Channel) : Prop where
  recvID : c'.data.recvID = t.recvID
  received : c'.received.drop (c.received.length + 1) = t.visited.drop 1
  posts : ∃ d, c'.posts = c.posts ++ [(postOf (answerData t.recvID d) .answer, accepted)]

theorem RecvStep.left {e : Datagram} (step : RecvStep c e c') :
    ∃ t, Scans e.mem c.data.recvID e.length t ∧ Left c t e.accepted c' := by
  obtain ⟨t, scan, rfl⟩ := TrafficStep.datagram_iff.mp step
  refine ⟨t, scan, rfl, ?_, _, rfl⟩
  rw [Channel.finish, ← List.drop_drop]
  exact congrArg (List.drop 1) List.drop_left

end

end IocpTest.NetService
