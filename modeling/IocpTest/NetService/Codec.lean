import IocpTest.NetService.Packets
import IocpTest.NetService.Traffic

/-!
# The two directions of the command channel

The three requests and `RecvCmdData` share one packet layout: the answer word and a
record with an eight-byte header. What they do not share is the byte order. Everything
that is sent on the channel is put into network order, and nothing that is received is
taken out of it, so the parser reads another packet than the one that was built.

`hostOrder` is the conversion between the two. With it the parser gives back what a
request encoded, as long as the message has a body (`request_decodes`).
-/

namespace IocpTest.NetService

open Bytes

/-- `RecvCmdData` finds in the first `length` bytes of the buffer an answer word with the
flag and the number `answer`, and then one record with this header up to the end. -/
structure Decodes (mem : Memory) (recvID : UINT) (length : Nat) (answer : UINT)
    (header : CmdHeader) : Prop where
  flagged : isAnswer (readUINT mem 0) = true
  answer : resetAnswer (readUINT mem 0) = answer
  record : ∃ t, Scans mem recvID length t ∧ t.visited = [header] ∧ t.pBuff = length

/-- The four header fields of a packet taken out of network order. -/
def hostOrder (packet : List Byte) : List Byte :=
  (packet.take 4).reverse ++ (((packet.drop 4).take 4).reverse ++
    (((packet.drop 8).take 2).reverse ++ (((packet.drop 10).take 2).reverse ++ packet.drop 12)))

/-! ## The bytes of a request -/

section

variable (mem : Memory) (recvID sendID : UINT) (msgID : Protos) (msg : Message)

/-- The packet that a request builds, field by field. -/
theorem slice_requestBuffer :
    slice (requestBuffer mem recvID sendID msgID msg) 0 (msg.byteSize + 12) =
      uintBytes (htonl (setAnswer recvID)) ++ (uintBytes (htonl sendID) ++
        (ushortBytes (htons msgID.number) ++
          (ushortBytes (htons (BitVec.ofNat 16 msg.byteSize)) ++ msg.bytes))) := by
  have hanswer := slice_eq_uintBytes.mpr (requestBuffer_answer mem recvID sendID msgID msg)
  have hnumber := slice_eq_uintBytes.mpr (requestBuffer_number mem recvID sendID msgID msg)
  have hmsgID : slice (requestBuffer mem recvID sendID msgID msg) 8 2 =
      ushortBytes (htons msgID.number) := by
    rw [requestBuffer, slice_memcpy_of_disjoint _ (.inl (by omega)), writeUSHORT,
      slice_memcpy_of_disjoint _ (.inl (by omega)), writeUSHORT]
    exact slice_memcpy _ 8 (ushortBytes _)
  have hlength : slice (requestBuffer mem recvID sendID msgID msg) 10 2 =
      ushortBytes (htons (BitVec.ofNat 16 msg.byteSize)) := by
    rw [requestBuffer, slice_memcpy_of_disjoint _ (.inl (by omega)), writeUSHORT]
    exact slice_memcpy _ 10 (ushortBytes _)
  have hbody : slice (requestBuffer mem recvID sendID msgID msg) 12 msg.byteSize = msg.bytes :=
    slice_memcpy _ 12 msg.bytes
  rw [show msg.byteSize + 12 = 4 + (4 + (2 + (2 + msg.byteSize))) by omega, slice_add, slice_add,
    slice_add, slice_add, hanswer, hnumber, hmsgID, hlength, hbody]

end

theorem hostOrder_append {a b c l : List Byte} (body : List Byte) (ha : a.length = 4)
    (hb : b.length = 4) (hc : c.length = 2) (hl : l.length = 2) :
    hostOrder (a ++ (b ++ (c ++ (l ++ body)))) =
      a.reverse ++ (b.reverse ++ (c.reverse ++ (l.reverse ++ body))) := by
  have second : (a ++ (b ++ (c ++ (l ++ body)))).drop 4 = b ++ (c ++ (l ++ body)) :=
    List.drop_left' ha
  have third : (a ++ (b ++ (c ++ (l ++ body)))).drop 8 = c ++ (l ++ body) := by
    rw [show 8 = 4 + 4 by rfl, ← List.drop_drop, second, List.drop_left' hb]
  have fourth : (a ++ (b ++ (c ++ (l ++ body)))).drop 10 = l ++ body := by
    rw [show 10 = 8 + 2 by rfl, ← List.drop_drop, third, List.drop_left' hc]
  have last : (a ++ (b ++ (c ++ (l ++ body)))).drop 12 = body := by
    rw [show 12 = 10 + 2 by rfl, ← List.drop_drop, fourth, List.drop_left' hl]
  rw [hostOrder, second, third, fourth, last, List.take_left' ha, List.take_left' hb,
    List.take_left' hc, List.take_left' hl]

/-- The conversion undoes what the request did to each field. -/
theorem hostOrder_fields (a b : UINT) (c l : USHORT) (body : List Byte) :
    hostOrder (uintBytes (htonl a) ++ (uintBytes (htonl b) ++
      (ushortBytes (htons c) ++ (ushortBytes (htons l) ++ body)))) =
      uintBytes a ++ (uintBytes b ++ (ushortBytes c ++ (ushortBytes l ++ body))) := by
  rw [hostOrder_append body (uintBytes_length _) (uintBytes_length _) (ushortBytes_length _)
    (ushortBytes_length _)]
  simp only [uintBytes_htonl, ushortBytes_htons, List.reverse_reverse]

namespace Request

/-- The sequence number, message number and body size that a request encodes. -/
def header (r : Request) (d : NetIoData) : CmdHeader :=
  ⟨d.sendID + 1, r.msgID.number, BitVec.ofNat 16 r.message.byteSize⟩

/-- The acknowledgement that a request encodes. -/
def answer (r : Request) (d : NetIoData) : UINT := r.assigned.getD d.recvID

theorem number_ne (r : Request) : r.msgID.number ≠ 0#16 := by
  cases r with
  | joinTable | startSyncFish | bullet =>
      rw [msgID]
      decide

theorem body_lt (r : Request) : r.message.bytes.length < 2 ^ 16 := by
  have fits := r.message.fits
  have size : iocpBufferSize = 8192 := rfl
  omega

/-- The record of a request, as it is meant. -/
def record (r : Request) (d : NetIoData) (number : d.sendID + 1 ≠ 0) : CmdRecord where
  serSendID := d.sendID + 1
  msgID := r.msgID.number
  body := r.message.bytes
  serSendID_ne := number
  msgID_ne := r.number_ne
  body_lt := r.body_lt

/-- What a request hands to `WSASend`. -/
theorem payload_eq (r : Request) (d : NetIoData) :
    (postOf (r.result d) r.call).payload =
      uintBytes (htonl (setAnswer (r.answer d))) ++ (uintBytes (htonl (d.sendID + 1)) ++
        (ushortBytes (htons r.msgID.number) ++
          (ushortBytes (htons (BitVec.ofNat 16 r.message.byteSize)) ++ r.message.bytes))) := by
  rw [result, requestData_payload r.call_dir, slice_requestBuffer, answer]

theorem twelve_le_payload (r : Request) (d : NetIoData) :
    12 ≤ (postOf (r.result d) r.call).payload.length := by
  rw [result, requestData_payload r.call_dir, slice_length]
  omega

/-- In host order it is the packet of the record. -/
theorem hostOrder_payload (r : Request) (d : NetIoData) (number : d.sendID + 1 ≠ 0) :
    hostOrder (postOf (r.result d) r.call).payload =
      packetBytes (setAnswer (r.answer d)) [r.record d number] := by
  rw [payload_eq, hostOrder_fields]
  simp [packetBytes, CmdRecord.bytes, record, CmdRecord.msgLength, Message.byteSize]

end Request

theorem length_hostOrder {packet : List Byte} (h : 12 ≤ packet.length) :
    (hostOrder packet).length = packet.length := by
  simp only [hostOrder, List.length_append, List.length_reverse, List.length_take,
    List.length_drop]
  omega

/-- In host order a packet with a body is parsed back to what it was built from. -/
theorem decodes_of_body (mem : Memory) (recvID : UINT) {r : Request} {d : NetIoData}
    (number : d.sendID + 1 ≠ 0) (small : d.recvID.toNat < 2 ^ 31) (body : r.message.bytes ≠ []) :
    let packet := hostOrder (postOf (r.result d) r.call).payload
    Decodes (memcpy mem 0 packet) recvID packet.length (r.answer d) (r.header d) := by
  intro packet
  have bytes : packet = packetBytes (setAnswer (r.answer d)) [r.record d number] :=
    r.hostOrder_payload d number
  have word := (slice_packet mem (setAnswer (r.answer d)) [r.record d number]).1
  obtain ⟨t, hscan, hvisited, hunread⟩ := scans_packet mem recvID (setAnswer (r.answer d))
    (List.cons_ne_nil (r.record d number) [])
  have full : bytesBehindEmpty [r.record d number] = 0 := by
    simpa [bytesBehindEmpty_eq_zero, Request.record] using body
  rw [← bytes] at word hscan hunread
  refine ⟨?_, ?_, t, hscan, ?_, ?_⟩
  · rw [word]
    exact isAnswer_setAnswer _
  · rw [word]
    apply resetAnswer_setAnswer
    cases r with
    | joinTable => show (2#32 : UINT).toNat < 2 ^ 31; decide
    | startSyncFish => show (3#32 : UINT).toNat < 2 ^ 31; decide
    | bullet => exact small
  · rw [hvisited, takeWhile_of_bytesBehindEmpty full]
    rfl
  · rw [← hunread, full, Nat.add_zero]

/-- Whatever a request of any session hands to `WSASend`, taken out of network order it is
parsed back to the numbers it was built from, if the message has a body. -/
theorem request_decodes {c c' : Channel} {r : Request} {accepted : Bool}
    (step : TrafficStep c (.call r accepted) c') (number : c.data.sendID + 1 ≠ 0)
    (small : c.data.recvID.toNat < 2 ^ 31) (body : r.message.bytes ≠ []) (mem : Memory)
    (recvID : UINT) :
    ∃ p, c'.posts = c.posts ++ [(p, accepted)] ∧
      Decodes (memcpy mem 0 (hostOrder p.payload)) recvID p.payload.length (r.answer c.data)
        (r.header c.data) := by
  obtain rfl := TrafficStep.call_iff.mp step
  refine ⟨postOf (r.result c.data) r.call, rfl, ?_⟩
  rw [← length_hostOrder (r.twelve_le_payload c.data)]
  exact decodes_of_body mem recvID number small body

/-- `ReqJoinTable` on a new session. -/
theorem request_decodes_joinTable : ∃ c' p,
    TrafficStep (registered (freshIoData 1#64)) (.call (.joinTable joinRoomMessage) true) c' ∧
      c'.posts = [(p, true)] ∧
      Decodes (memcpy (fun _ => 0#8) 0 (hostOrder p.payload)) 1#32 p.payload.length 2#32
        ⟨2#32, 6003#16, 2#16⟩ := by
  have step : TrafficStep (registered (freshIoData 1#64))
      (.call (.joinTable joinRoomMessage) true) _ := TrafficStep.call_iff.mpr rfl
  obtain ⟨p, posts, decodes⟩ :=
    request_decodes step (by decide) (by decide) (by decide) (fun _ => 0#8) 1#32
  exact ⟨_, p, step, posts, decodes⟩

/-! ## Without the conversion -/

/-- The first record that the loop goes through starts where the loop does. -/
theorem recvLoop_first {mem : Memory} {pend fuel : Nat} {s t : Cursor}
    (h : recvLoop mem pend fuel s = some t) :
    t.visited = s.visited ∨ ∃ rest, t.visited = s.visited ++ s.header mem :: rest := by
  apply recvLoop_induction (fun s t => t.visited = s.visited ∨
    ∃ rest, t.visited = s.visited ++ s.header mem :: rest) ?_ ?_ ?_ h
  · intro s _
    exact .inl rfl
  · intro s t _ pass
    exact .inl (recvPass_stop_fields pass).2.1
  · intro s t _ _ later
    rw [Cursor.next_visited] at later
    cases later with
    | inl none => exact .inr ⟨[], none⟩
    | inr some =>
        obtain ⟨rest, some⟩ := some
        rw [List.append_assoc] at some
        exact .inr ⟨_, some⟩

/-- As it is sent, no packet of any request is parsed back: the message number that is
read is the other way round, and none of the three reads the same both ways. -/
theorem not_decodes_networkOrder (mem : Memory) (recvID answer : UINT) (r : Request)
    (d : NetIoData) :
    ¬Decodes (memcpy mem 0 (postOf (r.result d) r.call).payload) recvID
      (postOf (r.result d) r.call).payload.length answer (r.header d) := by
  rintro ⟨_, _, t, ⟨fuel, hscan⟩, hvisited, _⟩
  have long := r.twelve_le_payload d
  have window := slice_memcpy mem 0 (postOf (r.result d) r.call).payload
  rw [recvRecords_long (by omega)] at hscan
  rw [r.payload_eq d] at window hscan
  obtain ⟨_, _, records⟩ := slice_uint window
  obtain ⟨_, _, fields⟩ := slice_uint records
  obtain ⟨_, read, _⟩ := slice_ushort fields
  cases recvLoop_first hscan with
  | inl none =>
      rw [hvisited] at none
      cases none
  | inr some =>
      obtain ⟨rest, some⟩ := some
      rw [hvisited] at some
      have same : r.msgID.number = htons r.msgID.number :=
        (congrArg CmdHeader.msgID (List.cons.inj some).1).trans read
      cases r with
      | joinTable | startSyncFish | bullet =>
          rw [Request.msgID] at same
          exact absurd same (by decide)

/-- `ReqJoinTable` on a new session does not read back as it is sent. -/
theorem joinTable_not_decodes : ¬∀ (c c' : Channel) (r : Request) (accepted : Bool)
    (p : Post) (recvID : UINT), TrafficStep c (.call r accepted) c' →
      0 < c.data.recvID.toNat → c.data.recvID.toNat < 2 ^ 31 →
      0 < (c.data.sendID + 1).toNat → (c.data.sendID + 1).toNat < 2 ^ 31 →
      c'.posts = c.posts ++ [(p, accepted)] →
      Decodes (memcpy (fun _ => 0#8) 0 p.payload) recvID p.payload.length (r.answer c.data)
        (r.header c.data) := by
  intro all
  have step : TrafficStep (registered (freshIoData 1#64))
      (.call (.joinTable joinRoomMessage) true) _ := TrafficStep.call_iff.mpr rfl
  exact not_decodes_networkOrder _ _ _ _ _
    (all _ _ _ true _ 1#32 step (by decide) (by decide) (by decide) (by decide) rfl)

end IocpTest.NetService
