import IocpTest.NetService.Operations

/-!
# What the operations do as one step

Every operation that waits ends the same way: the event is reset, the buffer is
overwritten and one call of `WSASend` or `WSARecv` is made with the session in its
new state. `Channel.finish` is that ending for a given final session; the
equations below give the final session of each operation and say that the
operation completes exactly when its wait does.
-/

namespace IocpTest.NetService

open Bytes

/-- An operation ends in session state `d` with one call. -/
def Channel.finish (c : Channel) (d : NetIoData) (call : Call) (accepted : Bool) : Channel :=
  { c with
    data := d
    event := false
    inflight := if accepted then postOf d call :: c.inflight else c.inflight
    posts := c.posts ++ [(postOf d call, accepted)]
    unread := false
    lost := c.lost || c.unread
    raced := c.raced || !c.inflight.isEmpty }

/-- The session after a branch that posts the next receive. -/
def rearmData (opt : UINT) (d : NetIoData) : NetIoData :=
  { d with
    buffer := memset d.buffer 0 0#8 iocpBufferSize
    opt := opt
    wsabufLen := BitVec.ofNat 32 iocpBufferSize }

/-- The session after `RecvCmdData` went through records up to `recvID`. -/
def answerData (recvID : UINT) (d : NetIoData) : NetIoData :=
  { d with
    buffer := writeUINT (memset d.buffer 0 0#8 iocpBufferSize) 0 (htonl (setAnswer recvID))
    opt := 0x20000#32 ||| 0#32
    recvID := recvID
    wsabufLen := 4#32 }

/-- The bytes a request builds in the cleared buffer. -/
def requestBuffer (mem : Memory) (recvID sendID : UINT) (msgID : Protos) (msg : Message) : Memory :=
  memcpy (writeUSHORT (writeUSHORT (writeUINT (writeUINT (memset mem 0 0#8 iocpBufferSize)
    0 (htonl (setAnswer recvID))) 4 (htonl sendID)) 8 (htons msgID.number))
    10 (htons (BitVec.ofNat 16 msg.byteSize))) 12 msg.bytes

/-- The session after a request. -/
def requestData (opt : UINT) (recvID : Option UINT) (msgID : Protos) (msg : Message)
    (d : NetIoData) : NetIoData :=
  { d with
    buffer := requestBuffer d.buffer (recvID.getD d.recvID) (d.sendID + 1) msgID msg
    opt := opt
    sendID := d.sendID + 1
    recvID := recvID.getD d.recvID
    wsabufLen := BitVec.ofNat 32 (msg.byteSize + 12) }

/-- The session after `CheckUid`. -/
def checkUidData (msg : Message) (d : NetIoData) : NetIoData :=
  { d with
    buffer := memcpy (writeUSHORT (writeUSHORT d.buffer 0 Protos.reqEnterFishServer.number) 2
      (BitVec.ofNat 16 msg.byteSize)) 4 msg.bytes
    opt := 1#32
    wsabufLen := BitVec.ofNat 32 (msg.byteSize + 4) }

/-- A session that `CheckUid` has started: its send was accepted. -/
def started (d : NetIoData) (msg : Message) : Channel :=
  (registered (checkUidData msg d)).makePost .checkUid true

theorem runStmts_checkUid (fuel : Nat) (d : NetIoData) (msg : Message) :
    runStmts fuel true (checkUid msg) (registered d) = some (started d msg) := by
  simp [checkUid, runStmts, Stmt.exec, started, checkUidData, registered, Channel.touch,
    Channel.overwrite, Channel.handOver, Channel.makePost]

section

variable {fuel : Nat} {accepted : Bool} {c c' : Channel}

theorem runStmts_append (first rest : List Stmt) :
    runStmts fuel accepted (first ++ rest) c =
      (runStmts fuel accepted first c).bind (runStmts fuel accepted rest) := by
  induction first generalizing c with
  | nil => rfl
  | cons stmt first ih =>
      rw [List.cons_append, runStmts, runStmts, Option.bind_assoc]
      exact congrArg _ (funext fun c => ih)

theorem runStmts_callback (d : NetIoData) (size : Nat) :
    runStmts fuel accepted (callback d size) c =
      runStmts fuel accepted ((branchOf d.opt).body d size) c := by
  rw [callback, runStmts_append]
  exact Option.bind_fun_some _

theorem runStmts_rearm_iff (opt : UINT) :
    runStmts fuel accepted (rearm opt) c = some c' ↔
      c.event = true ∧ c' = c.finish (rearmData opt c.data) .receive accepted := by
  cases hevent : c.event
  · simp [rearm, runStmts, Stmt.exec, hevent]
  · simp [rearm, clearBuffer, runStmts, Stmt.exec, hevent, Channel.finish, rearmData,
      Channel.touch, Channel.overwrite, Channel.handOver, Channel.makePost, eq_comm]

theorem runStmts_recvCmdData_iff (length : Nat) :
    runStmts fuel accepted (recvCmdData length) c = some c' ↔
      c.event = true ∧ ∃ t, recvRecords c.data.buffer c.data.recvID length fuel = some t ∧
        c' = { c with received := c.received ++ t.visited, unread := false }.finish
          (answerData t.recvID c.data) .answer accepted := by
  cases hevent : c.event
  · simp [recvCmdData, runStmts, Stmt.exec, hevent]
  · cases hscan : recvRecords c.data.buffer c.data.recvID length fuel
    · simp [recvCmdData, runStmts, Stmt.exec, hevent, hscan]
    · simp [recvCmdData, clearBuffer, runStmts, Stmt.exec, hevent, hscan, Channel.finish,
        answerData, Channel.touch, Channel.overwrite, Channel.handOver, Channel.makePost,
        eq_comm]

theorem runStmts_request_iff {call : Call} (send : call.dir = .send) (opt : UINT)
    (recvID : Option UINT) (msgID : Protos) (msg : Message) :
    runStmts fuel accepted (request call opt recvID msgID msg) c = some c' ↔
      c.event = true ∧
        c' = c.finish (requestData opt recvID msgID msg c.data) call accepted := by
  cases hevent : c.event
  · simp [request, runStmts, Stmt.exec, hevent]
  · cases recvID <;>
      simp [request, clearBuffer, runStmts, Stmt.exec, Channel.handOver_send send, hevent,
        Channel.finish, requestData, requestBuffer, Channel.touch, Channel.overwrite,
        Channel.makePost, eq_comm]

end

end IocpTest.NetService
