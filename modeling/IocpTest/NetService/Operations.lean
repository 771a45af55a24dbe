import IocpTest.NetService.RecvLoop

/-!
# The operations of a session, statement by statement

Each operation of `NetService` on one session is the list of its statements in
source order. `Stmt.exec` gives every statement its effect on the session and on
the kernel objects beside it: the manual-reset event of the `OVERLAPPED`, the
overlapped operations in flight and the completion packets in the queue.

`runStmts` runs a list in one go, which is an operation taken as one atomic step.
The same lists are interleaved statement by statement where threads are modelled,
so both views are about one text.

`accepted` says whether a `WSASend` or `WSARecv` was taken by the system: it
returned 0 or `WSA_IO_PENDING`. A call that fails at once starts nothing, signals
nothing and queues nothing. `fuel` bounds the record loop only.
-/

namespace IocpTest.NetService

open Bytes

inductive Direction where
  | send
  | recv
  deriving DecidableEq, Repr

inductive Call where
  | checkUid
  | joinTable
  | startSyncFish
  | bullet
  /-- The answer that `RecvCmdData` sends. -/
  | answer
  /-- The receive that a branch of `Callback` posts. -/
  | receive
  deriving DecidableEq, Repr

def Call.dir : Call → Direction
  | .receive => .recv
  | _ => .send

/-- One call of `WSASend` or `WSARecv`: where it was made, the `OPT` it was made under
and, for a send, the bytes it was given. Only the `OPT` and the bytes are known to the
code; the place is history. -/
structure Post where
  call : Call
  opt : UINT
  payload : List Byte
  deriving DecidableEq

def Post.dir (p : Post) : Direction := p.call.dir

/-- The call of `WSASend` or `WSARecv` that a session in state `d` makes. -/
def postOf (d : NetIoData) (call : Call) : Post :=
  { call := call
    opt := d.opt
    payload :=
      match call.dir with
      | .send => slice d.buffer 0 d.wsabufLen.toNat
      | .recv => [] }

section

variable (d : NetIoData) {call : Call}

@[simp] theorem postOf_dir : (postOf d call).dir = call.dir := rfl

theorem postOf_payload_send (send : call.dir = .send) :
    (postOf d call).payload = slice d.buffer 0 d.wsabufLen.toNat := by
  simp only [postOf, send]

theorem postOf_payload_recv (recv : call.dir = .recv) : (postOf d call).payload = [] := by
  simp only [postOf, recv]

end

/-- One session with its kernel objects. The fields from `posts` on are history:
no statement reads them. -/
structure Channel where
  data : NetIoData
  event : Bool
  inflight : List Post
  packets : List Post
  /-- Every call made so far, with whether it was accepted. -/
  posts : List (Post × Bool)
  /-- The records that `RecvCmdData` went through so far. -/
  received : List CmdHeader
  /-- A datagram lies in the buffer that no receive branch has looked at. -/
  unread : Bool
  /-- Such a datagram has been overwritten. -/
  lost : Bool
  /-- `OPT`, `wsabuf` or `buffer` was written while an operation was in flight. -/
  raced : Bool

inductive Stmt where
  /-- `WaitForSingleObject(pdata->overlapped.hEvent, INFINITE)` -/
  | wait
  /-- `WSAResetEvent(pdata->overlapped.hEvent)` -/
  | resetEvent
  /-- The check-uid reply is read from the buffer. -/
  | readBuffer
  /-- The branches on `length` in `RecvCmdData`. -/
  | recvRecords (length : Nat)
  | setBuffer (f : NetIoData → Memory)
  | setOpt (value : UINT)
  | setLen (value : UINT)
  | setSendID (f : NetIoData → UINT)
  | setRecvID (value : UINT)
  /-- `WSASend` or `WSARecv` -/
  | post (call : Call)
  | ret (value : Bool)

namespace Channel

/-- A write to one of the fields that an operation in flight owns. -/
def touch (c : Channel) : Channel := { c with raced := c.raced || !c.inflight.isEmpty }

def overwrite (c : Channel) : Channel := { c with lost := c.lost || c.unread, unread := false }

/-- A receive gives the buffer to the system. -/
def handOver (c : Channel) : Call → Channel
  | .receive => c.overwrite
  | _ => c

theorem handOver_send {call : Call} (send : call.dir = .send) (c : Channel) :
    c.handOver call = c := by
  cases call with
  | receive => cases send
  | checkUid | joinTable | startSyncFish | bullet | answer => rfl

section

variable (c : Channel) (call : Call)

@[simp] theorem handOver_data : (c.handOver call).data = c.data := by cases call <;> rfl

@[simp] theorem handOver_event : (c.handOver call).event = c.event := by cases call <;> rfl

@[simp] theorem handOver_inflight : (c.handOver call).inflight = c.inflight := by
  cases call <;> rfl

@[simp] theorem handOver_packets : (c.handOver call).packets = c.packets := by
  cases call <;> rfl

@[simp] theorem handOver_posts : (c.handOver call).posts = c.posts := by cases call <;> rfl

end

def makePost (c : Channel) (call : Call) (accepted : Bool) : Channel :=
  { c with
    posts := c.posts ++ [(postOf c.data call, accepted)]
    inflight := if accepted then postOf c.data call :: c.inflight else c.inflight }

end Channel

/-- The effect of one statement. `none`: the statement does not complete here. -/
def Stmt.exec (fuel : Nat) (accepted : Bool) : Stmt → Channel → Option Channel
  | .wait, c => if c.event then some c else none
  | .resetEvent, c => some { c with event := false }
  | .readBuffer, c => some { c with unread := false }
  | .recvRecords length, c =>
      (NetService.recvRecords c.data.buffer c.data.recvID length fuel).map fun t =>
        { c with
          data := { c.data with recvID := t.recvID }
          received := c.received ++ t.visited
          unread := false }
  | .setBuffer f, c =>
      some { c.touch.overwrite with data := { c.data with buffer := f c.data } }
  | .setOpt value, c => some { c.touch with data := { c.data with opt := value } }
  | .setLen value, c => some { c.touch with data := { c.data with wsabufLen := value } }
  | .setSendID f, c => some { c with data := { c.data with sendID := f c.data } }
  | .setRecvID value, c => some { c with data := { c.data with recvID := value } }
  | .post call, c => some ((c.handOver call).makePost call accepted)
  | .ret _, c => some c

/-- A whole list of statements as one step. -/
def runStmts (fuel : Nat) (accepted : Bool) : List Stmt → Channel → Option Channel
  | [], c => some c
  | stmt :: rest, c => (stmt.exec fuel accepted c).bind (runStmts fuel accepted rest)

def returns : List Stmt → Option Bool
  | [] => none
  | .ret value :: _ => some value
  | _ :: rest => returns rest

/-! ## The source functions -/

/-- A serialized message that fits behind the 12-byte header. -/
structure Message where
  bytes : List Byte
  fits : bytes.length + 12 ≤ iocpBufferSize

def Message.byteSize (msg : Message) : Nat := msg.bytes.length

/-- `ReqJoinRoomMessage` with `roomID = 0`: one tag and one varint. -/
def joinRoomMessage : Message := ⟨[0x10#8, 0x00#8], by decide⟩

/-- `ReqStartSyncFishMessage`: no field is set, so nothing is serialized. -/
def startSyncFishMessage : Message := ⟨[], by decide⟩

/-- `ReqBulletMessage` with `angle = -25` as a ten-byte varint, `lockFishID = 0` and
`launcherType = 0`. -/
def bulletMessage : Message :=
  ⟨[0x10#8, 0xe7#8, 0xff#8, 0xff#8, 0xff#8, 0xff#8, 0xff#8, 0xff#8, 0xff#8, 0xff#8, 0x01#8,
    0x18#8, 0x00#8, 0x20#8, 0x00#8], by decide⟩

/-- `ReqEnterFishServerMessage` with `playerOnlyID = 1`: one tag and one varint. -/
def enterFishServerMessage : Message := ⟨[0x10#8, 0x01#8], by decide⟩

/-- `memset(pdata->buffer, 0, IOCP_BUFFER_SIZE)` -/
def clearBuffer : Stmt := .setBuffer fun d => memset d.buffer 0 0#8 iocpBufferSize

/-- The branches of `Callback` that only post the next receive. -/
def rearm (opt : UINT) : List Stmt :=
  [.wait, .resetEvent, clearBuffer, .setOpt opt, .setLen (BitVec.ofNat 32 iocpBufferSize),
    .post .receive]

def recvCmdData (length : Nat) : List Stmt :=
  [.wait, .resetEvent, .recvRecords length, clearBuffer,
    .setBuffer fun d => writeUINT d.buffer 0 (htonl (setAnswer d.recvID)),
    .setOpt (0x20000#32 ||| 0#32), .setLen 4#32, .post .answer, .ret true]

/-- `CheckUid`, with the session found. It is the one operation that does not wait. -/
def checkUid (msg : Message) : List Stmt :=
  [.setOpt 1#32,
    .setBuffer fun d => writeUSHORT d.buffer 0 Protos.reqEnterFishServer.number,
    .setBuffer fun d => writeUSHORT d.buffer 2 (BitVec.ofNat 16 msg.byteSize),
    .setBuffer fun d => memcpy d.buffer 4 msg.bytes,
    .setLen (BitVec.ofNat 32 (msg.byteSize + 4)), .post .checkUid, .ret true]

/-- The text that `ReqJoinTable`, `ReqStartSyncFish` and `ReqBullet` share, with the
session found. They differ in `OPT`, in the message and in whether `recvID` is assigned. -/
def request (call : Call) (opt : UINT) (recvID : Option UINT) (msgID : Protos) (msg : Message) :
    List Stmt :=
  [.wait, .resetEvent, clearBuffer, .setOpt opt, .setSendID fun d => d.sendID + 1] ++
  (recvID.map Stmt.setRecvID).toList ++
  [.setBuffer fun d => writeUINT d.buffer 0 (htonl (setAnswer d.recvID)),
    .setBuffer fun d => writeUINT d.buffer 4 (htonl d.sendID),
    .setBuffer fun d => writeUSHORT d.buffer 8 (htons msgID.number),
    .setBuffer fun d => writeUSHORT d.buffer 10 (htons (BitVec.ofNat 16 msg.byteSize)),
    .setBuffer fun d => memcpy d.buffer 12 msg.bytes,
    .setLen (BitVec.ofNat 32 (msg.byteSize + 12)), .post call, .ret true]

def reqJoinTable (msg : Message) : List Stmt :=
  request .joinTable 2#32 (some 2#32) .reqJoinRoom msg

def reqStartSyncFish (msg : Message) : List Stmt :=
  request .startSyncFish 3#32 (some 3#32) .reqStartSyncFish msg

def reqBullet (msg : Message) : List Stmt := request .bullet 4#32 none .reqBullet msg

/-- The branches of `Callback`, named after the completion each is written for. -/
inductive Branch where
  | checkUidSent
  | checkUidReceived
  | joinTableSent
  | startSyncFishSent
  | bulletSent
  | answerSent
  | cmdDataReceived
  | other
  deriving DecidableEq, Repr

/-- The chain of tests on `opt_h` and `opt_l`. -/
def branchOf (opt : UINT) : Branch :=
  let opt_h : USHORT := ((opt >>> 16) &&& 0xffff#32).setWidth 16
  let opt_l : USHORT := (opt &&& 0xffff#32).setWidth 16
  if 1#16 = opt_l ∧ 0#16 = opt_h then .checkUidSent
  else if 1#16 = opt_h ∧ 1#16 = opt_l then .checkUidReceived
  else if 0#16 = opt_h ∧ 2#16 = opt_l then .joinTableSent
  else if 0#16 = opt_h ∧ 3#16 = opt_l then .startSyncFishSent
  else if 0#16 = opt_h ∧ 4#16 = opt_l then .bulletSent
  else if 2#16 = opt_h ∧ 0#16 = opt_l then .answerSent
  else if 0xf#16 = opt_h ∧ 0#16 = opt_l then .cmdDataReceived
  else .other

/-- The statements of a branch. A check-uid reply with another message number is
only logged: nothing is waited for and nothing is posted. -/
def Branch.body (d : NetIoData) (size : Nat) : Branch → List Stmt
  | .checkUidSent => rearm (0x10000#32 ||| 1#32)
  | .checkUidReceived =>
      .readBuffer ::
        if Protos.resEnterFishServer.number = readUSHORT d.buffer 0 then
          rearm (0xf0000#32 ||| 0#32)
        else []
  | .joinTableSent => rearm (0xf0000#32 ||| 0#32)
  | .startSyncFishSent => rearm (0xf0000#32 ||| 0#32)
  | .bulletSent => rearm (0xf0000#32 ||| 0#32)
  | .answerSent => rearm (0xf0000#32 ||| 0#32)
  | .cmdDataReceived => recvCmdData size
  | .other => recvCmdData size

/-- `Callback`, entered with the session in state `d`. -/
def callback (d : NetIoData) (size : Nat) : List Stmt :=
  (branchOf d.opt).body d size ++ [.ret true]

/-- The session `RegesterNewSocket` puts into the map. `mem` is what lies behind
the object; the object itself is cleared. -/
def newIoData (mem : Memory) (sData : CreateSocketData) (uid : INT64) : NetIoData where
  buffer := memset mem 0 0#8 iocpBufferSize
  pSocketData := sData
  wsabufLen := BitVec.ofNat 32 iocpBufferSize
  opt := 0#32
  sendID := 1#32
  recvID := 1#32
  uid := uid

/-- The session registered for a uid, in a process whose other memory is zero. -/
def freshIoData (uid : INT64) : NetIoData := newIoData (fun _ => 0#8) ⟨0, 0#16, true⟩ uid

/-- A registered session: `WSACreateEvent` makes a manual-reset event that is not
signalled, and no call has been made. -/
def registered (d : NetIoData) : Channel where
  data := d
  event := false
  inflight := []
  packets := []
  posts := []
  received := []
  unread := false
  lost := false
  raced := false

end IocpTest.NetService
