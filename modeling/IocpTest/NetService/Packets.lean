import IocpTest.NetService.Framing
import Mathlib.Data.List.TakeWhile

/-!
# Whole packets in the receive branch

A packet is the answer word and then records. The receive branch is run on a
buffer that starts with the packet's bytes. It stays inside the bytes it was
given exactly on framed packets, and it goes through all records of a packet
exactly when none of them has an empty body: a zero length is taken for the end
of the packet wherever it stands.
-/

namespace IocpTest.NetService

open Bytes

/-- The bytes after the answer word follow the record format. -/
def WellFramed (mem : Memory) (length : Nat) : Prop :=
  ∃ headers unread, Framed (slice mem 4 (length - 4)) headers unread

/-- The receive branch terminates, every read lies in the first `length` bytes of
the buffer and the cursor never passes `pend`. -/
def ReadsWithin (mem : Memory) (recvID : UINT) (length : Nat) : Prop :=
  ∃ t, Scans mem recvID length t ∧ ∀ a ∈ t.accesses, InBounds length a

@[simp] theorem afterAnswer_pBuff (recvID : UINT) : (Cursor.afterAnswer recvID).pBuff = 4 := rfl

/-- A well-framed buffer is scanned to its terminator, inside its bounds. -/
theorem scans_of_framed {mem : Memory} {length unread : Nat} (recvID : UINT)
    {headers : List CmdHeader} (h : 4 < length)
    (framed : Framed (slice mem 4 (length - 4)) headers unread) :
    ∃ t, Scans mem recvID length t ∧ t.visited = headers ∧ t.pBuff + unread = length ∧
      ∀ a ∈ t.accesses, InBounds length a := by
  obtain ⟨fuel, t, hloop, hvisited, hunread, within⟩ :=
    recvLoop_of_framed mem length framed (.afterAnswer recvID)
      (by rw [slice_length]; rfl)
      (by rw [slice_length, afterAnswer_pBuff]; omega)
  have answer : (Cursor.start recvID).Within length (.afterAnswer recvID) := by
    apply (Cursor.Within.refl _).field
    simp only [Cursor.start]
    omega
  refine ⟨t, ⟨fuel, ?_⟩, ?_, hunread, ?_⟩
  · rw [recvRecords_long h]
    exact hloop
  · simpa [Cursor.afterAnswer, Cursor.start, Cursor.read, Cursor.move] using hvisited
  · intro a ha
    exact (answer.trans within a ha).resolve_left List.not_mem_nil

/-- The receive branch is safe on exactly the well-framed buffers. Truncated
headers, over-long bodies and a missing terminator are all outside the format. -/
theorem readsWithin_iff_wellFramed (mem : Memory) (recvID : UINT) (length : Nat) :
    ReadsWithin mem recvID length ↔ WellFramed mem length := by
  rcases Nat.lt_trichotomy length 4 with hlt | rfl | hgt
  · refine iff_of_true ⟨_, ⟨0, recvRecords_short hlt⟩, by simp [Cursor.start]⟩ ⟨[], 0, ?_⟩
    rw [show length - 4 = 0 by omega]
    exact .done
  · refine iff_of_true ⟨_, ⟨0, recvRecords_answer⟩, ?_⟩ ⟨[], 0, .done⟩
    simp [Cursor.start, Cursor.read, InBounds]
  · constructor
    · rintro ⟨t, ⟨fuel, hscan⟩, bounds⟩
      rw [recvRecords_long hgt] at hscan
      have hstart : (Cursor.afterAnswer recvID).pBuff = 4 := rfl
      have framed := (framedIfInBounds_of_recvLoop hscan).framed (by rw [hstart]; omega) bounds
      rwa [hstart] at framed
    · rintro ⟨headers, unread, framed⟩
      obtain ⟨t, hscan, _, _, bounds⟩ := scans_of_framed recvID hgt framed
      exact ⟨t, hscan, bounds⟩

/-- A datagram with one header whose length field reaches past the buffer. -/
def overlong : Memory :=
  memcpy (fun _ => 0#8) 0
    (uintBytes 0x80000001#32 ++ (uintBytes 2#32 ++ (ushortBytes 6004#16 ++ ushortBytes 0xffff#16)))

/-- At the size the worker passes, an over-long body moves the cursor past `pend`. -/
theorem overlong_not_readsWithin : ¬∀ (mem : Memory) (recvID : UINT) (length : Nat),
    length ≤ iocpBufferSize → ReadsWithin mem recvID length := by
  intro all
  obtain ⟨t, ⟨fuel, hscan⟩, bounds⟩ := all overlong 1#32 iocpBufferSize (Nat.le_refl _)
  rw [recvRecords_long (by decide)] at hscan
  cases fuel with
  | zero => simp [recvLoop] at hscan
  | succ fuel =>
      have pass : recvPass overlong (.afterAnswer 1#32) =
          .again ((Cursor.afterAnswer 1#32).next overlong) :=
        recvPass_again (by decide) (by decide) (by decide)
      rw [recvLoop_again (by decide) pass] at hscan
      have moved : Access.move 65547 ∈ ((Cursor.afterAnswer 1#32).next overlong).accesses := by
        decide
      have hle : 65547 ≤ iocpBufferSize := bounds _ (recvLoop_accesses hscan moved)
      exact absurd hle (by decide)

/-! ## Packets made of records -/

/-- The bytes of a packet: the answer word and the records behind it. -/
def packetBytes (answer : UINT) (records : List CmdRecord) : List Byte :=
  uintBytes answer ++ records.flatMap CmdRecord.bytes

/-- The complete records in front of some bytes, one after another: behind the last of them
no further one begins. -/
inductive LaidOut : List Byte → List CmdRecord → Prop
  | stop {bs : List Byte} (none : ∀ (r : CmdRecord) (rest : List Byte), bs ≠ r.bytes ++ rest) :
      LaidOut bs []
  | record (r : CmdRecord) {rest : List Byte} {records : List CmdRecord}
      (tail : LaidOut rest records) : LaidOut (r.bytes ++ rest) (r :: records)

/-- A record tells its own length. -/
theorem CmdRecord.append_inj {r r' : CmdRecord} {rest rest' : List Byte}
    (h : r.bytes ++ rest = r'.bytes ++ rest') : r = r' ∧ rest = rest' := by
  rw [bytes_append, bytes_append] at h
  obtain ⟨hid, h⟩ := List.append_inj h (by simp)
  obtain ⟨hmsg, h⟩ := List.append_inj h (by simp)
  obtain ⟨hlen, h⟩ := List.append_inj h (by simp)
  have same : r.body.length = r'.body.length := by
    rw [← r.msgLength_toNat, ushortBytes_inj hlen, r'.msgLength_toNat]
  obtain ⟨hbody, hrest⟩ := List.append_inj h same
  refine ⟨?_, hrest⟩
  cases r
  cases r'
  cases uintBytes_inj hid
  cases ushortBytes_inj hmsg
  cases hbody
  rfl

theorem LaidOut.behind {r : CmdRecord} {rest : List Byte} {records : List CmdRecord}
    (laid : LaidOut (r.bytes ++ rest) records) :
    ∃ tail, records = r :: tail ∧ LaidOut rest tail := by
  generalize h : r.bytes ++ rest = bs at laid
  cases laid with
  | stop none => exact absurd h.symm (none r rest)
  | record r' tail =>
      obtain ⟨rfl, rfl⟩ := CmdRecord.append_inj h
      exact ⟨_, rfl, tail⟩

/-- Some bytes lay out one list of records. -/
theorem LaidOut.unique {bs : List Byte} {records records' : List CmdRecord}
    (first : LaidOut bs records) (second : LaidOut bs records') : records = records' := by
  induction first generalizing records' with
  | stop none =>
      cases second with
      | stop => rfl
      | record r _ => exact absurd rfl (none r _)
  | record r _ ih =>
      obtain ⟨tail, rfl, later⟩ := second.behind
      rw [ih later]

theorem exists_laidOut (bs : List Byte) : ∃ records, LaidOut bs records := by
  induction h : bs.length using Nat.strong_induction_on generalizing bs with
  | _ n ih =>
      by_cases none : ∀ (r : CmdRecord) (rest : List Byte), bs ≠ r.bytes ++ rest
      · exact ⟨[], .stop none⟩
      · simp only [not_forall, not_not] at none
        obtain ⟨r, rest, rfl⟩ := none
        rw [List.length_append, r.bytes_length] at h
        obtain ⟨records, laid⟩ := ih rest.length (by omega) rest rfl
        exact ⟨r :: records, .record r laid⟩

/-- Fewer than eight bytes are no record. -/
theorem laidOut_of_short {bs : List Byte} (short : bs.length < 8) : LaidOut bs [] := by
  refine .stop fun r rest same => ?_
  rw [same, List.length_append, r.bytes_length] at short
  omega

/-- A packet made of records lays out these records. -/
theorem laidOut_packet (answer : UINT) (records : List CmdRecord) :
    LaidOut ((packetBytes answer records).drop 4) records := by
  rw [packetBytes, List.drop_left' (uintBytes_length answer)]
  induction records with
  | nil => exact laidOut_of_short (by simp)
  | cons r records ih => exact .record r ih

/-- The bytes behind the cursor when the loop meets the first empty body. -/
def bytesBehindEmpty : List CmdRecord → Nat
  | [] => 0
  | r :: rs => if r.body = [] then 2 + (rs.flatMap CmdRecord.bytes).length else bytesBehindEmpty rs

theorem bytesBehindEmpty_eq_zero {records : List CmdRecord} :
    bytesBehindEmpty records = 0 ↔ ∀ r ∈ records, r.body ≠ [] := by
  induction records with
  | nil => simp [bytesBehindEmpty]
  | cons r rs ih =>
      by_cases hbody : r.body = []
      · simp [bytesBehindEmpty, hbody]
      · simp [bytesBehindEmpty, hbody, ih]

theorem takeWhile_of_bytesBehindEmpty {records : List CmdRecord}
    (h : bytesBehindEmpty records = 0) :
    records.takeWhile (fun r => r.body ≠ []) = records := by
  rw [List.takeWhile_eq_self_iff]
  simpa using bytesBehindEmpty_eq_zero.mp h

/-- Records follow the format up to the first one with an empty body. -/
theorem framed_records (records : List CmdRecord) :
    Framed (records.flatMap CmdRecord.bytes)
      ((records.takeWhile (fun r => r.body ≠ [])).map CmdRecord.header)
      (bytesBehindEmpty records) := by
  induction records with
  | nil => exact .done
  | cons r rs ih =>
      rw [List.flatMap_cons]
      by_cases hbody : r.body = []
      · have hlen : r.msgLength = 0#16 := r.msgLength_eq_zero.mpr hbody
        rw [CmdRecord.bytes_append, hlen, hbody, List.nil_append,
          List.takeWhile_cons_of_neg (by simpa using hbody), bytesBehindEmpty, if_pos hbody]
        exact .noLength r.serSendID_ne r.msgID_ne _
      · rw [List.takeWhile_cons_of_pos (by simpa using hbody), bytesBehindEmpty, if_neg hbody,
          List.map_cons]
        exact .record r hbody ih

section

variable (mem : Memory) (recvID answer : UINT) {records : List CmdRecord}

theorem packetBytes_length (records : List CmdRecord) :
    (packetBytes answer records).length = 4 + (records.flatMap CmdRecord.bytes).length := by
  simp [packetBytes]

/-- A buffer that starts with a packet: its answer word and the window of its records. -/
theorem slice_packet (records : List CmdRecord) :
    readUINT (memcpy mem 0 (packetBytes answer records)) 0 = answer ∧
      slice (memcpy mem 0 (packetBytes answer records)) 4
        ((packetBytes answer records).length - 4) = records.flatMap CmdRecord.bytes := by
  obtain ⟨_, hanswer, hrest⟩ := slice_eq_append (slice_memcpy mem 0 (packetBytes answer records))
  rw [uintBytes_length] at hanswer hrest
  rw [packetBytes_length, Nat.add_sub_cancel_left]
  exact ⟨slice_eq_uintBytes.mp hanswer, hrest⟩

/-- A packet is scanned up to its first record with an empty body. -/
theorem scans_packet (some : records ≠ []) :
    ∃ t, Scans (memcpy mem 0 (packetBytes answer records)) recvID
        (packetBytes answer records).length t ∧
      t.visited = (records.takeWhile (fun r => r.body ≠ [])).map CmdRecord.header ∧
      t.pBuff + bytesBehindEmpty records = (packetBytes answer records).length := by
  have hlong : 4 < (packetBytes answer records).length := by
    obtain ⟨r, rs, rfl⟩ := List.exists_cons_of_ne_nil some
    rw [packetBytes_length, List.flatMap_cons, List.length_append, CmdRecord.bytes_length]
    omega
  have framed := framed_records records
  rw [← (slice_packet mem answer records).2] at framed
  obtain ⟨t, hscan, hvisited, hunread, _⟩ := scans_of_framed recvID hlong framed
  exact ⟨t, hscan, hvisited, hunread⟩

end

/-- All records of the packet are visited, in order and with their fields, and
the cursor stops exactly at the end of the packet. -/
def VisitsExactly (mem : Memory) (recvID answer : UINT) (records : List CmdRecord) : Prop :=
  ∃ t, Scans (memcpy mem 0 (packetBytes answer records)) recvID
      (packetBytes answer records).length t ∧
    t.visited = records.map CmdRecord.header ∧
    (records ≠ [] → t.pBuff = (packetBytes answer records).length)

/-- The parser is complete on exactly the packets without an empty body. -/
theorem visitsExactly_iff (mem : Memory) (recvID answer : UINT) (records : List CmdRecord) :
    VisitsExactly mem recvID answer records ↔ ∀ r ∈ records, r.body ≠ [] := by
  rw [← bytesBehindEmpty_eq_zero]
  by_cases hnil : records = []
  · subst hnil
    exact iff_of_true ⟨_, ⟨0, recvRecords_answer⟩, rfl, fun h => absurd rfl h⟩ rfl
  obtain ⟨t, hscan, hvisited, hunread⟩ := scans_packet mem recvID answer hnil
  constructor
  · rintro ⟨u, hscan', _, hend⟩
    rw [← hscan.unique hscan'] at hend
    have := hend hnil
    omega
  · intro hzero
    refine ⟨t, hscan, ?_, fun _ => by omega⟩
    rw [hvisited, takeWhile_of_bytesBehindEmpty hzero]

/-- Message 2 of the server with a one-byte body. -/
def joinableRecord : CmdRecord where
  serSendID := 2#32
  msgID := 6030#16
  body := [0#8]
  serSendID_ne := by decide
  msgID_ne := by decide
  body_lt := by decide

/-- A datagram with message 2 alone. -/
def joinablePacket : List Byte := packetBytes 0x80000001#32 [joinableRecord]

/-- A connect-finished message: its number and no body. -/
def connectFinish : CmdRecord where
  serSendID := 2#32
  msgID := 6030#16
  body := []
  serSendID_ne := by decide
  msgID_ne := by decide
  body_lt := by decide

/-- The record of a message without fields is taken for the end of the packet. -/
theorem connectFinish_not_visited : ¬∀ (mem : Memory) (recvID answer : UINT)
    (records : List CmdRecord), (packetBytes answer records).length ≤ iocpBufferSize →
      VisitsExactly mem recvID answer records := by
  intro all
  obtain ⟨t, hscan, hvisited, _⟩ :=
    all (fun _ => 0#8) 1#32 0x80000001#32 [connectFinish] (by decide)
  have hstop : ∃ u, Scans (memcpy (fun _ => 0#8) 0 (packetBytes 0x80000001#32 [connectFinish]))
      1#32 (packetBytes 0x80000001#32 [connectFinish]).length u ∧ u.visited = [] :=
    ⟨_, ⟨1, rfl⟩, rfl⟩
  obtain ⟨u, hscan', hnone⟩ := hstop
  rw [hscan.unique hscan', hnone] at hvisited
  exact absurd hvisited (by decide)

end IocpTest.NetService
