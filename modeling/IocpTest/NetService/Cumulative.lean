import IocpTest.NetService.Acknowledgement

/-!
# One packet as a step of the acknowledgement

`RecvCmdData` looks at one record after the other and moves `recvID` when it sees the next
number. `Cumulative` says what that comes to for a whole packet: the longest run of
successors that occurs in it in order. Duplicates, gaps and strangers do not matter, two
packets count as one with the records of both, and a packet whose numbers increase does
nothing when it comes again.

The only condition is that the counter does not wrap while the packet is handled.
-/

namespace IocpTest.NetService

open Bytes StepSystem Consecutive

def Cursor.numbers (t : Cursor) : List UINT := t.visited.map CmdHeader.serSendID

/-- What a scan of `length` bytes of `mem` from `recvID` that ends in `t` comes to. -/
structure Cumulative (mem : Memory) (recvID : UINT) (length : Nat) (t : Cursor) : Prop where
  /-- `recvID` moves to the end of the longest run of successors. In a session whose wait
  succeeds `RecvCmdData` returns, with `recvID` there, and it has sent the four bytes that
  say so. -/
  greatest : ∃ m,
    IsGreatest {m | (List.range' (recvID.toNat + 1) m).Sublist (t.numbers.map BitVec.toNat)} m ∧
      t.recvID.toNat = recvID.toNat + m ∧
      ∀ c : Channel, c.event = true → c.data.buffer = mem → c.data.recvID = recvID →
        ∀ accepted, ∃ c' enough,
          (∀ fuel, enough ≤ fuel → runStmts fuel accepted (recvCmdData length) c = some c') ∧
          c'.data.recvID = t.recvID ∧ ∃ p, c'.posts = c.posts ++ [(p, accepted)] ∧
            p.dir = .send ∧
            p.payload = uintBytes (htonl ((recvID + BitVec.ofNat 32 m) ||| 0x80000000#32))
  /-- A record that is not the next one when it is visited can be left out. -/
  dropped : ∀ before h after, t.visited = before ++ h :: after →
    h.serSendID ≠ (before.map CmdHeader.serSendID).foldl acknowledge recvID + 1 →
    ∀ mem' length' u, Scans mem' recvID length' u → u.visited = before ++ after →
      u.recvID = t.recvID
  /-- Two packets count as one with the records of both. -/
  concatenated : ∀ mem' length' u mem'' length'' v, Scans mem' t.recvID length' u →
    Scans mem'' recvID length'' v → v.visited = t.visited ++ u.visited → v.recvID = u.recvID
  /-- A packet with increasing numbers that comes again changes nothing. -/
  again : t.numbers.Pairwise (· < ·) →
    ∃ u, Scans mem t.recvID length u ∧ u.visited = t.visited ∧ u.recvID = t.recvID

/-- While the counter does not wrap the code's fold is the receiver of successors. -/
theorem foldl_acknowledge_eq {r : UINT} {xs : List UINT} (few : r.toNat + xs.length < 2 ^ 32) :
    (xs.foldl acknowledge r).toNat = lastInOrder r.toNat (xs.map BitVec.toNat) := by
  induction xs generalizing r with
  | nil => rfl
  | cons x xs ih =>
      rw [List.length_cons] at few
      have step := acknowledge_toNat (x := x) (show r.toNat + 1 < 2 ^ 32 by omega)
      have le : (acknowledge r x).toNat ≤ r.toNat + 1 := by
        rw [step, observe]
        split <;> omega
      rw [List.foldl_cons, List.map_cons, lastInOrder_cons, ← step]
      exact ih (by omega)

theorem add_ofNat_sub {r x : UINT} (le : r.toNat ≤ x.toNat) :
    r + BitVec.ofNat 32 (x.toNat - r.toNat) = x := by
  apply BitVec.eq_of_toNat_eq
  have small := x.isLt
  rw [BitVec.toNat_add, BitVec.toNat_ofNat]
  omega

theorem payload_answer (recvID : UINT) (d : NetIoData) :
    (postOf (answerData recvID d) .answer).payload = uintBytes (htonl (setAnswer recvID)) := by
  have answer : readUINT (answerData recvID d).buffer 0 = htonl (setAnswer recvID) := by
    rw [answerData, readUINT_writeUINT]
  exact slice_eq_uintBytes.mpr answer

/-- Only the next number moves `recvID`. -/
theorem foldl_acknowledge_of_absent {r : UINT} {xs : List UINT} (absent : r + 1 ∉ xs) :
    xs.foldl acknowledge r = r := by
  induction xs with
  | nil => rfl
  | cons x xs ih =>
      rw [List.mem_cons, not_or] at absent
      obtain ⟨other, absent⟩ := absent
      rw [List.foldl_cons, acknowledge, if_neg (Ne.symm other)]
      exact ih absent

section

variable {mem : Memory} {recvID : UINT} {length : Nat} {t : Cursor}

theorem Scans.recvID_toNat (h : Scans mem recvID length t)
    (few : recvID.toNat + t.visited.length < 2 ^ 32) :
    t.recvID.toNat = lastInOrder recvID.toNat (t.numbers.map BitVec.toNat) := by
  have fold := h.recvID_eq
  rw [← Cursor.numbers] at fold
  rw [fold, foldl_acknowledge_eq]
  rw [Cursor.numbers, List.length_map]
  exact few

/-- The number after the last of a packet with increasing numbers is not in it. -/
theorem Scans.next_not_mem (h : Scans mem recvID length t)
    (few : recvID.toNat + t.visited.length < 2 ^ 32) (increasing : t.numbers.Pairwise (· < ·)) :
    t.recvID + 1 ∉ t.numbers := by
  intro member
  have last := h.recvID_toNat few
  have increasing' : (t.numbers.map BitVec.toNat).Pairwise (· < ·) :=
    List.pairwise_map.mpr increasing
  have fixed := lastInOrder_again (r := recvID.toNat) increasing'
  rw [← last] at fixed
  by_cases wraps : t.recvID.toNat + 1 < 2 ^ 32
  · have next := toNat_add_one wraps
    have member' : t.recvID.toNat + 1 ∈ t.numbers.map BitVec.toNat :=
      next ▸ List.mem_map_of_mem member
    have inOrder : InOrder t.recvID.toNat (t.numbers.map BitVec.toNat) (t.recvID.toNat + 1) := by
      refine ⟨Nat.le_succ _, ?_⟩
      rw [Nat.add_sub_cancel_left]
      exact List.singleton_sublist.mpr member'
    have le := le_lastInOrder_of_inOrder inOrder
    omega
  · -- The counter stands at its last value, and 0 is never gone through.
    have small := t.recvID.isLt
    have zero : t.recvID + 1 = 0#32 := add_one_eq_zero_iff.mpr (by omega)
    obtain ⟨x, hx, number⟩ := List.mem_map.mp member
    exact h.serSendID_ne x hx (number.trans zero)

/-- Every scan that ends does what `Cumulative` says, while the counter does not wrap. -/
theorem cumulative_of_scans (h : Scans mem recvID length t)
    (few : recvID.toNat + t.visited.length < 2 ^ 32) : Cumulative mem recvID length t where
  greatest := by
    have last := h.recvID_toNat few
    have le := le_lastInOrder recvID.toNat (t.numbers.map BitVec.toNat)
    refine ⟨_, lastInOrder_sub_isGreatest recvID.toNat (t.numbers.map BitVec.toNat), ?_, ?_⟩
    · rw [last, Nat.add_sub_cancel' le]
    · rw [← last] at le ⊢
      rintro c ready rfl rfl accepted
      obtain ⟨enough, scan⟩ := h.enough
      refine ⟨_, enough, fun fuel more => (runStmts_recvCmdData_iff length).mpr
        ⟨ready, t, scan fuel more, rfl⟩, rfl, _, rfl, rfl, ?_⟩
      rw [payload_answer, setAnswer, add_ofNat_sub le]
  dropped := by
    intro before x after split notNext mem' length' u scan visited
    have skipped : acknowledge ((before.map CmdHeader.serSendID).foldl acknowledge recvID)
        x.serSendID = (before.map CmdHeader.serSendID).foldl acknowledge recvID := if_neg notNext
    rw [h.recvID_eq, scan.recvID_eq, split, visited, List.map_append, List.map_append,
      List.map_cons, List.foldl_append, List.foldl_append, List.foldl_cons, skipped]
  concatenated := by
    intro mem' length' u mem'' length'' v second both visited
    rw [both.recvID_eq, visited, List.map_append, List.foldl_append, ← h.recvID_eq,
      ← second.recvID_eq]
  again := by
    intro increasing
    obtain ⟨u, scan, visited⟩ := h.withRecvID t.recvID
    refine ⟨u, scan, visited, ?_⟩
    rw [scan.recvID_eq, visited]
    exact foldl_acknowledge_of_absent (h.next_not_mem few increasing)

end

/-- A packet with message 2 alone moves a new session to 2, and the answer says 2. -/
theorem cumulative_joinablePacket : ∃ t,
    Cumulative (received (fun _ => 0#8) iocpBufferSize joinablePacket) 1#32 iocpBufferSize t ∧
      ∃ c c' : Channel, ∃ fuel,
        runStmts fuel true (recvCmdData iocpBufferSize) c = some c' ∧
        c.data.recvID = 1#32 ∧ c'.data.recvID = 2#32 ∧
        c'.posts.map (fun p => p.1.payload) = [[0x80#8, 0#8, 0#8, 2#8]] := by
  let mem := received (fun _ => 0#8) iocpBufferSize joinablePacket
  have scanned : ∃ t, Scans (received (fun _ => 0#8) iocpBufferSize joinablePacket) 1#32
      iocpBufferSize t ∧ t.visited.map CmdHeader.serSendID = [2#32] := ⟨_, ⟨2, rfl⟩, rfl⟩
  obtain ⟨t, scan, visited⟩ := scanned
  have one : t.visited.length = 1 := by
    have same := congrArg List.length visited
    rwa [List.length_map] at same
  have cumulative : Cumulative mem 1#32 iocpBufferSize t :=
    cumulative_of_scans scan (by rw [one]; decide)
  have number : t.recvID = 2#32 := by
    rw [scan.recvID_eq, visited]
    decide
  let c := (registered { freshIoData 1#64 with recvID := 1#32 }).ready.deliver mem
  obtain ⟨m, _, moved, answered⟩ := cumulative.greatest
  obtain ⟨c', enough, run, recvID, p, posts, _, payload⟩ := answered c rfl rfl rfl true
  have next : m = 1 := by
    rw [number] at moved
    exact (Nat.add_left_cancel moved).symm
  refine ⟨t, cumulative, c, c', enough, run enough (Nat.le_refl _), rfl,
    recvID.trans number, ?_⟩
  have none : c.posts = [] := rfl
  rw [posts, none, List.nil_append, List.map_singleton, payload, next]
  decide

end IocpTest.NetService
