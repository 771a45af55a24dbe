import IocpTest.Data.Consecutive
import IocpTest.Logic.Run
import IocpTest.NetService.Effects

/-!
# Sequence numbers along a session's traffic

A run of a session's traffic is any order of datagrams handled by `RecvCmdData`
and of requests, each with any outcome of its `WSASend`. The wait of every
operation is taken to succeed, so no order is ruled out by the event.

The answer word and the sequence number are read back from the bytes handed to
`WSASend`, not from the session, so the statements are about the wire.
-/

namespace IocpTest.NetService

open Bytes StepSystem Consecutive

/-! ## Words on the wire -/

/-- The word at offset `k` of a datagram. -/
def wordAt (bs : List Byte) (k : Nat) : UINT := BitVec.ofNat 32 (leNat ((bs.drop k).take 4))

theorem wordAt_slice (mem : Memory) {k n : Nat} (h : k + 4 ≤ n) :
    wordAt (slice mem 0 n) k = readUINT mem k := by
  obtain ⟨m, rfl⟩ : ∃ m, n = k + (4 + m) := ⟨n - (k + 4), by omega⟩
  have hk : (slice mem 0 k).length = k := slice_length mem 0 k
  rw [slice_add, Nat.zero_add, slice_add, wordAt, List.drop_left' hk,
    List.take_left' (slice_length mem k 4), readUINT, readNat]

/-- The acknowledgement a datagram carries: its answer word without the flag. -/
def ackOf (p : Post) : UINT := resetAnswer (ntohl (wordAt p.payload 0))

/-- The sequence number a request carries. -/
def numberOf (p : Post) : UINT := ntohl (wordAt p.payload 4)

theorem ackOf_answer (recvID : UINT) (d : NetIoData) :
    ackOf (postOf (answerData recvID d) .answer) = resetAnswer (setAnswer recvID) := by
  have hlen : (answerData recvID d).wsabufLen.toNat = 4 := rfl
  simp only [ackOf, postOf, Call.dir, hlen]
  rw [wordAt_slice _ (Nat.le_refl 4), answerData, readUINT_writeUINT, ntohl_htonl]

section

variable (mem : Memory) (recvID sendID : UINT) (msgID : Protos) (msg : Message)

theorem requestBuffer_answer :
    readUINT (requestBuffer mem recvID sendID msgID msg) 0 = htonl (setAnswer recvID) := by
  rw [requestBuffer, readUINT_memcpy_of_disjoint _ (.inl (by omega)), writeUSHORT,
    readUINT_memcpy_of_disjoint _ (.inl (by omega)), writeUSHORT,
    readUINT_memcpy_of_disjoint _ (.inl (by omega)), writeUINT,
    readUINT_memcpy_of_disjoint _ (.inl (by omega)), readUINT_writeUINT]

theorem requestBuffer_number :
    readUINT (requestBuffer mem recvID sendID msgID msg) 4 = htonl sendID := by
  rw [requestBuffer, readUINT_memcpy_of_disjoint _ (.inl (by omega)), writeUSHORT,
    readUINT_memcpy_of_disjoint _ (.inl (by omega)), writeUSHORT,
    readUINT_memcpy_of_disjoint _ (.inl (by omega)), readUINT_writeUINT]

end

section

variable {call : Call} (send : call.dir = .send) (opt : UINT) (recvID : Option UINT)
  (msgID : Protos) (msg : Message) (d : NetIoData)

include send

theorem requestData_payload :
    (postOf (requestData opt recvID msgID msg d) call).payload =
      slice (requestBuffer d.buffer (recvID.getD d.recvID) (d.sendID + 1) msgID msg) 0
        (msg.byteSize + 12) := by
  have hfit : msg.byteSize + 12 < 2 ^ 32 :=
    Nat.lt_of_le_of_lt msg.fits (by decide)
  simp only [postOf, send, requestData, BitVec.toNat_ofNat, Nat.mod_eq_of_lt hfit]

theorem ackOf_request :
    ackOf (postOf (requestData opt recvID msgID msg d) call) =
      resetAnswer (setAnswer (recvID.getD d.recvID)) := by
  rw [ackOf, requestData_payload send, wordAt_slice _ (by omega), requestBuffer_answer, ntohl_htonl]

theorem numberOf_request :
    numberOf (postOf (requestData opt recvID msgID msg d) call) = d.sendID + 1 := by
  rw [numberOf, requestData_payload send, wordAt_slice _ (by omega), requestBuffer_number, ntohl_htonl]

end

/-! ## Runs -/

/-- The three requests, each with the message it serializes. -/
inductive Request where
  | joinTable (msg : Message)
  | startSyncFish (msg : Message)
  | bullet (msg : Message)

namespace Request

def program : Request → List Stmt
  | .joinTable msg => reqJoinTable msg
  | .startSyncFish msg => reqStartSyncFish msg
  | .bullet msg => reqBullet msg

/-- The function that makes the request. -/
def call : Request → Call
  | .joinTable _ => .joinTable
  | .startSyncFish _ => .startSyncFish
  | .bullet _ => .bullet

@[simp] theorem call_dir (r : Request) : r.call.dir = .send := by
  cases r <;> rfl

/-- The `OPT` of a request. -/
def opt : Request → UINT
  | .joinTable _ => 2#32
  | .startSyncFish _ => 3#32
  | .bullet _ => 4#32

/-- The value a request assigns to `recvID`, if any. -/
def assigned : Request → Option UINT
  | .joinTable _ => some 2#32
  | .startSyncFish _ => some 3#32
  | .bullet _ => none

def msgID : Request → Protos
  | .joinTable _ => .reqJoinRoom
  | .startSyncFish _ => .reqStartSyncFish
  | .bullet _ => .reqBullet

def message : Request → Message
  | .joinTable msg => msg
  | .startSyncFish msg => msg
  | .bullet msg => msg

theorem program_eq (r : Request) :
    r.program = request r.call r.opt r.assigned r.msgID r.message := by
  cases r <;> rfl

/-- The session after the request. -/
def result (r : Request) (d : NetIoData) : NetIoData :=
  requestData r.opt r.assigned r.msgID r.message d

end Request

/-- One event of the traffic. A datagram leaves `mem` in the buffer. -/
inductive Traffic where
  | datagram (mem : Memory) (length : Nat) (accepted : Bool)
  | call (r : Request) (accepted : Bool)

/-- The session with the event signalled and nothing in flight. -/
def Channel.ready (c : Channel) : Channel := { c with event := true, inflight := [] }

def Channel.deliver (c : Channel) (mem : Memory) : Channel :=
  { c with data := { c.data with buffer := mem } }

def TrafficStep (c : Channel) : Traffic → Channel → Prop
  | .datagram mem length accepted, c' =>
      ∃ fuel, runStmts fuel accepted (recvCmdData length) (c.ready.deliver mem) = some c'
  | .call r accepted, c' => runStmts 0 accepted r.program c.ready = some c'

/-- A handled datagram: the records it was scanned for and the answer to it. -/
theorem TrafficStep.datagram_iff {c c' : Channel} {mem : Memory} {length : Nat}
    {accepted : Bool} :
    TrafficStep c (.datagram mem length accepted) c' ↔
      ∃ t, Scans mem c.data.recvID length t ∧
        c' = { c.ready.deliver mem with
          received := c.received ++ t.visited, unread := false }.finish
            (answerData t.recvID { c.data with buffer := mem }) .answer accepted := by
  simp only [TrafficStep, runStmts_recvCmdData_iff, Scans]
  constructor
  · rintro ⟨fuel, _, t, hscan, hc⟩
    exact ⟨t, ⟨fuel, hscan⟩, hc⟩
  · rintro ⟨t, ⟨fuel, hscan⟩, hc⟩
    exact ⟨fuel, rfl, t, hscan, hc⟩

theorem TrafficStep.call_iff {c c' : Channel} {r : Request} {accepted : Bool} :
    TrafficStep c (.call r accepted) c' ↔
      c' = c.ready.finish (r.result c.data) r.call accepted := by
  rw [TrafficStep, r.program_eq, runStmts_request_iff r.call_dir]
  exact and_iff_right rfl

end IocpTest.NetService
