import IocpTest.NetService.Packets
import IocpTest.NetService.Passes
import IocpTest.NetService.Traffic

/-!
# The size of the buffer in place of the size of the datagram

The worker calls `Callback`, and so `RecvCmdData`, with the size of the buffer whatever the
size of the datagram. With the true size the loop ends where the datagram does; with the
size of the buffer it goes on to the zeros behind it and takes the first four of them for a
number that ends the packet.

The two calls come to the same whenever there is room for that number and the parse with
the true size reads nothing but the datagram (`sameOutcome_of_readsOnly`).
-/

namespace IocpTest.NetService

open Bytes StepSystem

def ReadInside (n : Nat) : Access → Prop
  | .read offset width => offset + width ≤ n
  | .move _ => True

/-- The cursor at the end of a pass, full or not. -/
def Pass.cursor : Pass → Cursor
  | .stop s => s
  | .again s => s

/-- From `s` on the loop reads only the first `n` bytes, whether or not it ends. -/
def ReadsOnlyFrom (mem : Memory) (n : Nat) (s : Cursor) : Prop :=
  ∀ trace t, Run (PassStep mem n) s trace t → t.pBuff ≠ n →
    ∀ a ∈ (recvPass mem t).cursor.accesses, ReadInside n a

/-- The parse of the first `n` bytes reads only these. Up to four bytes it reads no more
than the answer word. -/
def ReadsOnly (mem : Memory) (recvID : UINT) (n : Nat) : Prop :=
  4 < n → ReadsOnlyFrom mem n (.afterAnswer recvID)

/-- A call of `RecvCmdData` with `capacity` in place of `length` goes through the same
records and leaves the session with the same `recvID` and the same answer; its reads lie
in the first `capacity` bytes. -/
structure SameOutcome (mem : Memory) (recvID : UINT) (length capacity fuel : Nat)
    (t u : Cursor) : Prop where
  short : recvRecords mem recvID length fuel = some t
  long : recvRecords mem recvID capacity fuel = some u
  visited : u.visited = t.visited
  recvID : u.recvID = t.recvID
  inside : ∀ a ∈ u.accesses, ReadInside capacity a

theorem ReadInside.mono {m n : Nat} (h : m ≤ n) {a : Access} (inside : ReadInside m a) :
    ReadInside n a := by
  cases a with
  | read offset width => exact Nat.le_trans inside h
  | move => trivial

/-- Every pass starts with the number at the cursor. -/
theorem read_mem_recvPass (mem : Memory) (s : Cursor) :
    .read s.pBuff 4 ∈ (recvPass mem s).cursor.accesses := by
  rcases recvPass_cases mem s with ⟨_, hp⟩ | ⟨_, _, hp⟩ | ⟨_, _, _, hp⟩ | ⟨_, _, _, hp⟩ <;>
    rw [hp] <;> simp [Pass.cursor, Cursor.read, Cursor.move, Cursor.next, Cursor.visit]

section

variable {mem : Memory} {n capacity : Nat} {s : Cursor}

theorem ReadsOnlyFrom.room (reads : ReadsOnlyFrom mem n s) (h : s.pBuff ≠ n) :
    s.pBuff + 4 ≤ n :=
  reads [] s (.nil s) h _ (read_mem_recvPass mem s)

theorem ReadsOnlyFrom.next (reads : ReadsOnlyFrom mem n s) (h : s.pBuff ≠ n)
    (pass : recvPass mem s = .again (s.next mem)) : ReadsOnlyFrom mem n (s.next mem) :=
  fun _ t run => reads _ t (.cons ⟨h, pass, rfl⟩ run)

/-- The two loops go together up to the end of the datagram, where the one stops and the
other finds the number 0. -/
theorem exists_both (room : n + 4 ≤ capacity) (zero : readUINT mem n = 0#32)
    (reads : ReadsOnlyFrom mem n s) (before : ∀ a ∈ s.accesses, ReadInside n a) :
    ∃ fuel t u, recvLoop mem n fuel s = some t ∧ recvLoop mem capacity fuel s = some u ∧
      u.visited = t.visited ∧ u.recvID = t.recvID ∧ ∀ a ∈ u.accesses, ReadInside capacity a := by
  induction h : n - s.pBuff using Nat.strong_induction_on generalizing s with
  | _ left ih =>
      by_cases hend : s.pBuff = n
      · have further : s.pBuff ≠ capacity := by omega
        rw [← hend] at zero
        refine ⟨1, s, s.read 4, recvLoop_done hend,
          recvLoop_stop further (recvPass_noSendID zero), rfl, rfl, ?_⟩
        intro a ha
        cases List.mem_append.mp ha with
        | inl ha => exact (before a ha).mono (by omega)
        | inr ha =>
            rw [List.mem_singleton.mp ha]
            have inside : s.pBuff + 4 ≤ capacity := by omega
            exact inside
      · have here := reads.room hend
        have further : s.pBuff ≠ capacity := by omega
        have inside := reads [] s (.nil s) hend
        cases pass : recvPass mem s with
        | stop x =>
            rw [pass] at inside
            exact ⟨1, x, x, recvLoop_stop hend pass, recvLoop_stop further pass, rfl, rfl,
              fun a ha => (inside a ha).mono (by omega)⟩
        | again x =>
            obtain ⟨_, rfl⟩ := recvPass_eq_again pass
            rw [pass] at inside
            have closer : n - (s.next mem).pBuff < left := by
              rw [Cursor.next_pBuff]
              omega
            obtain ⟨fuel, t, u, short, long, same⟩ :=
              ih _ closer (reads.next hend pass) inside rfl
            refine ⟨fuel + 1, t, u, ?_, ?_, same⟩
            · rw [recvLoop_again hend pass]
              exact short
            · rw [recvLoop_again further pass]
              exact long

end

theorem long_of_short {mem : Memory} {capacity : Nat} (recvID : UINT) (large : 8 ≤ capacity)
    (zero : readUINT mem 4 = 0#32) :
    recvRecords mem recvID capacity 1 = some ((Cursor.afterAnswer recvID).read 4) := by
  have further : (Cursor.afterAnswer recvID).pBuff ≠ capacity := by
    change 4 ≠ capacity
    omega
  rw [recvRecords_long (by omega)]
  exact recvLoop_stop further (recvPass_noSendID zero)

/-- A datagram in a cleared buffer with room for one more number, whose parse reads nothing
else: the size of the buffer does as well as its own. -/
theorem sameOutcome_of_readsOnly {capacity : Nat} (large : 8 ≤ capacity) {d : List Byte}
    (room : d.length + 4 ≤ capacity) (behind : Memory) (recvID : UINT)
    (reads : ReadsOnly (received behind capacity d) recvID d.length) :
    ∃ fuel t u, SameOutcome (received behind capacity d) recvID d.length capacity fuel t u := by
  by_cases long : 4 < d.length
  · have zero : readUINT (received behind capacity d) d.length = 0#32 :=
      readUINT_padding behind (Nat.le_refl _) room
    obtain ⟨fuel, t, u, hshort, hlong, visited, same, inside⟩ :=
      exists_both room zero (reads long) (by simp [Cursor.afterAnswer, Cursor.start, Cursor.read,
        Cursor.move, ReadInside, Nat.le_of_lt long])
    refine ⟨fuel, t, u, ?_, ?_, visited, same, inside⟩
    · rw [recvRecords_long long]
      exact hshort
    · rw [recvRecords_long (by omega)]
      exact hlong
  · have zero : readUINT (received behind capacity d) 4 = 0#32 :=
      readUINT_padding behind (by omega) large
    have inside : ∀ a ∈ ((Cursor.afterAnswer recvID).read 4).accesses, ReadInside capacity a := by
      simp [Cursor.afterAnswer, Cursor.start, Cursor.read, Cursor.move, ReadInside]
      omega
    by_cases answer : d.length = 4
    · refine ⟨1, (Cursor.start recvID).read 4, _, ?_, long_of_short recvID large zero, rfl, rfl,
        inside⟩
      rw [answer]
      exact recvRecords_answer
    · exact ⟨1, _, _, recvRecords_short (by omega), long_of_short recvID large zero, rfl, rfl,
        inside⟩

/-- Two calls with the same outcome leave the session in one state and hand the same bytes
to `WSASend`. -/
theorem SameOutcome.runStmts_eq {length capacity fuel : Nat} {c : Channel} {t u : Cursor}
    (same : SameOutcome c.data.buffer c.data.recvID length capacity fuel t u) (accepted : Bool)
    (ready : c.event = true) :
    ∃ c', runStmts fuel accepted (recvCmdData length) c = some c' ∧
      runStmts fuel accepted (recvCmdData capacity) c = some c' := by
  refine ⟨_, (runStmts_recvCmdData_iff length).mpr ⟨ready, t, same.short, rfl⟩,
    (runStmts_recvCmdData_iff capacity).mpr ⟨ready, u, same.long, ?_⟩⟩
  rw [same.visited, same.recvID]

/-- The call with the size of the buffer and the call with the size of the datagram are one
and the same, for a session whose event is signalled. -/
theorem constantSize_harmless {capacity : Nat} (large : 8 ≤ capacity) {d : List Byte}
    (room : d.length + 4 ≤ capacity) (behind : Memory) (recvID : UINT)
    (reads : ReadsOnly (received behind capacity d) recvID d.length) :
    ∃ fuel t u, SameOutcome (received behind capacity d) recvID d.length capacity fuel t u ∧
      ∀ (c : Channel) (accepted : Bool), c.event = true →
        c.data.buffer = received behind capacity d → c.data.recvID = recvID →
        ∃ c', runStmts fuel accepted (recvCmdData d.length) c = some c' ∧
          runStmts fuel accepted (recvCmdData capacity) c = some c' := by
  obtain ⟨fuel, t, u, same⟩ := sameOutcome_of_readsOnly large room behind recvID reads
  refine ⟨fuel, t, u, same, ?_⟩
  intro c accepted ready buffer number
  rw [← buffer, ← number] at same
  exact same.runStmts_eq accepted ready

/-! ## Well-framed datagrams -/

theorem accesses_of_run {mem : Memory} {pend fuel : Nat} {s t u : Cursor}
    {trace : List (Cursor × CmdHeader)} (run : Run (PassStep mem pend) s trace u)
    (h : recvLoop mem pend fuel s = some t) (hend : u.pBuff ≠ pend) :
    (recvPass mem u).cursor.accesses ⊆ t.accesses := by
  induction run generalizing fuel with
  | nil s =>
      cases fuel with
      | zero => simp [recvLoop] at h
      | succ fuel =>
          cases pass : recvPass mem s with
          | stop x =>
              rw [recvLoop_stop hend pass] at h
              obtain rfl := Option.some.inj h
              exact List.Subset.refl _
          | again x =>
              rw [recvLoop_again hend pass] at h
              exact recvLoop_accesses h
  | cons first _ ih =>
      obtain ⟨more, pass, _⟩ := first
      cases fuel with
      | zero => simp [recvLoop] at h
      | succ fuel =>
          rw [recvLoop_again more pass] at h
          exact ih h hend

theorem readsOnly_of_readsWithin {mem : Memory} {recvID : UINT} {n : Nat}
    (h : ReadsWithin mem recvID n) : ReadsOnly mem recvID n := by
  obtain ⟨t, ⟨fuel, hscan⟩, bounds⟩ := h
  intro long trace u run hend a ha
  rw [recvRecords_long long] at hscan
  have inside := bounds a (accesses_of_run run hscan hend ha)
  cases a with
  | read offset width => exact inside
  | move => trivial

/-- The datagram with one record is 13 bytes long, and no other is read. -/
theorem readsOnly_joinable (behind : Memory) (recvID : UINT) :
    ReadsOnly (received behind iocpBufferSize joinablePacket) recvID joinablePacket.length ∧
      ∃ t, Scans (received behind iocpBufferSize joinablePacket) recvID joinablePacket.length t ∧
        t.visited = [joinableRecord.header] := by
  have framed := framed_records [joinableRecord]
  have window : slice (received behind iocpBufferSize joinablePacket) 4
      (joinablePacket.length - 4) = [joinableRecord].flatMap CmdRecord.bytes :=
    (slice_packet _ 0x80000001#32 [joinableRecord]).2
  rw [← window] at framed
  obtain ⟨t, scan, visited, _, bounds⟩ := scans_of_framed recvID (by decide) framed
  exact ⟨readsOnly_of_readsWithin ⟨t, scan, bounds⟩, t, scan, visited⟩

theorem exists_scans_joinable (behind : Memory) (recvID : UINT) :
    ∃ t, Scans (received behind iocpBufferSize joinablePacket) recvID iocpBufferSize t ∧
      t.visited = [joinableRecord.header] := by
  obtain ⟨reads, v, scan, visited⟩ := readsOnly_joinable behind recvID
  obtain ⟨fuel, t, u, same⟩ :=
    sameOutcome_of_readsOnly (by decide) (by decide) behind recvID reads
  obtain rfl : t = v := Scans.unique ⟨fuel, same.short⟩ scan
  exact ⟨u, ⟨fuel, same.long⟩, same.visited.trans visited⟩

/-- At its 13 bytes and at the size the worker passes: both calls go through the record, the
one up to its end and the other up to the zeros behind it. -/
theorem constantSize_harmless_joinable : ∃ fuel t u,
    SameOutcome (received (fun _ => 0#8) iocpBufferSize joinablePacket) 1#32 13 iocpBufferSize
        fuel t u ∧ u.visited = [joinableRecord.header] ∧ u.recvID = 2#32 ∧
      ∃ c c' : Channel, c.data.buffer = received (fun _ => 0#8) iocpBufferSize joinablePacket ∧
        runStmts fuel true (recvCmdData 13) c = some c' ∧
        runStmts fuel true (recvCmdData iocpBufferSize) c = some c' := by
  let mem := received (fun _ => 0#8) iocpBufferSize joinablePacket
  obtain ⟨reads, v, scan, visited⟩ := readsOnly_joinable (fun _ => 0#8) 1#32
  obtain ⟨fuel, t, u, same, calls⟩ :=
    constantSize_harmless (by decide) (by decide) (fun _ => 0#8) 1#32 reads
  obtain rfl : t = v := Scans.unique ⟨fuel, same.short⟩ scan
  refine ⟨fuel, t, u, same, same.visited.trans visited, ?_, ?_⟩
  · rw [same.recvID, scan.recvID_eq, visited]
    decide
  · let c := (registered { freshIoData 1#64 with recvID := 1#32 }).ready.deliver mem
    obtain ⟨c', short, long⟩ := calls c true rfl rfl rfl
    exact ⟨c, c', rfl, short, long⟩

end IocpTest.NetService
