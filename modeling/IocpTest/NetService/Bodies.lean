import IocpTest.NetService.Codec
import IocpTest.NetService.Contents
import IocpTest.Protobuf.RoundTrip
import Mathlib.Algebra.Order.BigOperators.Group.List

/-!
# What is inside the datagrams

A datagram carries a header and a serialized message. The messages that the operations send
are the objects they fill in (`joinRoomMessage_bytes` and its siblings, `loginMessage`), so
whoever parses the body gets the object back (`Reads`). Where every wait is passed alone, no
datagram is torn or put together from two operations (`datagrams_whole`).
-/

namespace IocpTest.NetService

open Bytes StepSystem Protobuf
open Protobuf.Message (empty)

/-! ## The messages -/

theorem joinRoomMessage_bytes : joinRoomMessage.bytes = (empty.setRoomID 0#32).toArray := by
  decide

theorem startSyncFishMessage_bytes :
    startSyncFishMessage.bytes = (empty : Protobuf.Message reqStartSyncFishMessage).toArray := by
  decide

theorem bulletMessage_bytes : bulletMessage.bytes =
    (((empty.setAngle (-25#32)).setLockFishID 0#32).setLauncherType 0#32).toArray := by
  decide

/-- A value takes at most ten bytes. -/
theorem fieldType_size_le (type : FieldType) (value : type.Value) : type.size value ≤ 10 := by
  rw [← FieldType.length_toArray]
  cases type <;> simp only [FieldType.toArray, writeVarint32SignExtendedToArray_eq,
    writeVarint64ToArray_eq] <;> exact Varint.encode_length_le _ _

/-- Eleven bytes for a field with its tag. -/
theorem byteSize_le {D : Descriptor} {m : Protobuf.Message D} (plain : m.unknown = []) :
    m.byteSize ≤ 11 * D.fields.length := by
  have each : ∀ n ∈ (List.finRange D.fields.length).map m.fieldSize, n ≤ 11 := by
    simp only [List.forall_mem_map]
    intro i _
    rw [Protobuf.Message.fieldSize]
    cases m.value i with
    | none => exact Nat.zero_le 11
    | some value =>
        have size := fieldType_size_le _ value
        simp only
        omega
  have sum := List.sum_le_card_nsmul _ 11 each
  simp only [List.length_map, List.length_finRange, nsmul_eq_mul, Nat.cast_id] at sum
  rw [Protobuf.Message.byteSize, plain, computeUnknownFieldsSize]
  omega

theorem loginMessage_fits (uid : INT64) :
    (empty.setPlayerOnlyID uid).toArray.length + 12 ≤ iocpBufferSize := by
  have size : (empty.setPlayerOnlyID uid).byteSize ≤ 22 := byteSize_le rfl
  rw [Protobuf.Message.length_toArray, iocpBufferSize]
  omega

/-- `ReqEnterFishServerMessage` with `playerOnlyID = uid`. -/
def loginMessage (uid : INT64) : Message :=
  ⟨(empty.setPlayerOnlyID uid).toArray, loginMessage_fits uid⟩

example : enterFishServerMessage.bytes = (loginMessage 1#64).bytes := by decide

/-- A message without unknown fields is read back. -/
theorem parse_plain {D : Descriptor} {m : Protobuf.Message D} (plain : m.unknown = [])
    (initialized : m.isInitialized = true) (few : D.fields.length ≤ 16) :
    parseFromArray D m.toArray = some m := by
  have kept : m.Kept := by simp [Message.Kept, plain]
  have size := byteSize_le plain
  have short : m.byteSize ≤ kDefaultTotalBytesLimit := by
    have limit : kDefaultTotalBytesLimit = 67108864 := rfl
    omega
  exact parseFromArray_toArray kept initialized short

/-! ## What the other side reads -/

/-- The object that the body of a message is parsed to. -/
inductive Reads (uid : INT64) : Protos → List Byte → Prop
  | enterFishServer {body : List Byte} :
      parseFromArray reqEnterFishServerMessage body = some (empty.setPlayerOnlyID uid) →
        Reads uid .reqEnterFishServer body
  | joinRoom {body : List Byte} :
      parseFromArray reqJoinRoomMessage body = some (empty.setRoomID 0#32) →
        Reads uid .reqJoinRoom body
  | startSyncFish {body : List Byte} :
      parseFromArray reqStartSyncFishMessage body = some empty → Reads uid .reqStartSyncFish body
  | bullet {body : List Byte} :
      parseFromArray reqBulletMessage body =
          some (((empty.setAngle (-25#32)).setLockFishID 0#32).setLauncherType 0#32) →
        Reads uid .reqBullet body

/-- What a session sends: the login with its header in host order, a request with its header
in network order, or an acknowledgement alone. -/
inductive WholeDatagram (uid : INT64) : List Byte → Prop
  | login {body : List Byte} : body.length < 2 ^ 16 → Reads uid .reqEnterFishServer body →
      WholeDatagram uid (ushortBytes Protos.reqEnterFishServer.number ++
        (ushortBytes (BitVec.ofNat 16 body.length) ++ body))
  | request (answer number : UINT) {id : Protos} {body : List Byte} : body.length < 2 ^ 16 →
      Reads uid id body →
      WholeDatagram uid (uintBytes (htonl (setAnswer answer)) ++ (uintBytes (htonl number) ++
        (ushortBytes (htons id.number) ++
          (ushortBytes (htons (BitVec.ofNat 16 body.length)) ++ body))))
  | answer (recvID : UINT) : WholeDatagram uid (uintBytes (htonl (setAnswer recvID)))

/-- The operations as the program calls them. -/
def Operation.Own (uid : INT64) : Operation → Prop
  | .checkUid msg => msg = loginMessage uid
  | .request (.joinTable msg) => msg = joinRoomMessage
  | .request (.startSyncFish msg) => msg = startSyncFishMessage
  | .request (.bullet msg) => msg = bulletMessage
  | _ => True

theorem reads_loginMessage (uid : INT64) :
    Reads uid .reqEnterFishServer (loginMessage uid).bytes :=
  .enterFishServer (parse_plain rfl rfl (by decide))

theorem reads_request {uid : INT64} {r : Request} (own : (Operation.request r).Own uid) :
    Reads uid r.msgID r.message.bytes := by
  cases r with
  | joinTable msg =>
      obtain rfl : msg = joinRoomMessage := own
      apply Reads.joinRoom
      rw [Request.message, joinRoomMessage_bytes]
      exact parse_plain rfl rfl (by decide)
  | startSyncFish msg =>
      obtain rfl : msg = startSyncFishMessage := own
      apply Reads.startSyncFish
      rw [Request.message, startSyncFishMessage_bytes]
      exact parse_plain rfl rfl (by decide)
  | bullet msg =>
      obtain rfl : msg = bulletMessage := own
      apply Reads.bullet
      rw [Request.message, bulletMessage_bytes]
      exact parse_plain rfl rfl (by decide)

/-! ## The calls -/

/-- What `CheckUid` hands to `WSASend`. -/
theorem checkUid_payload (msg : Message) (d : NetIoData) :
    (postOf (checkUidData msg d) .checkUid).payload =
      ushortBytes Protos.reqEnterFishServer.number ++
        (ushortBytes (BitVec.ofNat 16 msg.byteSize) ++ msg.bytes) := by
  have size : iocpBufferSize = 8192 := rfl
  have fits := msg.fits
  have length : (BitVec.ofNat 32 (msg.byteSize + 4)).toNat = 2 + (2 + msg.byteSize) := by
    rw [BitVec.toNat_ofNat, Message.byteSize]
    omega
  have number : slice (checkUidData msg d).buffer 0 2 =
      ushortBytes Protos.reqEnterFishServer.number := by
    rw [checkUidData, slice_memcpy_of_disjoint _ (.inl (by omega)), writeUSHORT,
      slice_memcpy_of_disjoint _ (.inl (by omega)), writeUSHORT]
    exact slice_memcpy _ 0 (ushortBytes _)
  have header : slice (checkUidData msg d).buffer 2 2 =
      ushortBytes (BitVec.ofNat 16 msg.byteSize) := by
    rw [checkUidData, slice_memcpy_of_disjoint _ (.inl (by omega)), writeUSHORT]
    exact slice_memcpy _ 2 (ushortBytes _)
  have body : slice (checkUidData msg d).buffer 4 msg.byteSize = msg.bytes :=
    slice_memcpy _ 4 msg.bytes
  have all : (postOf (checkUidData msg d) .checkUid).payload =
      slice (checkUidData msg d).buffer 0 (2 + (2 + msg.byteSize)) := by
    rw [← length]
    rfl
  rw [all, slice_add, slice_add, number, header, body]

/-- What an operation hands to the system. -/
def Operation.Makes (op : Operation) (p : Post) : Prop :=
  ∃ d d', op.Leaves d d' ∧ p = postOf d' op.call

theorem OperationStep.posts {c c' : Channel} {e : OperationEvent} (step : OperationStep c e c') :
    c'.posts = c.posts ∨ ∃ op accepted p, e = .run op accepted ∧ op.Makes p ∧
      c'.posts = c.posts ++ [(p, accepted)] := by
  cases e with
  | complete p mem =>
      obtain ⟨_, rfl⟩ := step
      cases hdir : p.dir <;> exact .inl (by simp only [Channel.complete, hdir]; rfl)
  | run op accepted =>
      exact .inr ⟨op, accepted, _, rfl, ⟨c.data, c'.data, step.done.data, rfl⟩, step.done.posts⟩

theorem Operation.Makes.whole {uid : INT64} {op : Operation} {p : Post} (makes : op.Makes p)
    (own : op.Own uid) (send : p.dir = .send) : WholeDatagram uid p.payload := by
  obtain ⟨d, d', leaves, rfl⟩ := makes
  cases op with
  | checkUid msg =>
      obtain rfl := leaves
      obtain rfl : msg = loginMessage uid := own
      show WholeDatagram uid (postOf _ .checkUid).payload
      rw [checkUid_payload]
      exact .login (Nat.lt_of_le_of_lt (Nat.le_of_add_right_le (loginMessage uid).fits) (by decide))
        (reads_loginMessage uid)
  | request r =>
      obtain rfl := leaves
      show WholeDatagram uid (postOf _ r.call).payload
      rw [r.payload_eq]
      exact .request _ _ r.body_lt (reads_request own)
  | rearm opt => cases send
  | answer length =>
      obtain ⟨recvID, rfl⟩ := leaves
      show WholeDatagram uid (postOf _ .answer).payload
      rw [payload_answer]
      exact .answer recvID

/-! ## The runs -/

section

variable {trace : List (System × Action)} {s : System}

theorem posts_run {P : Operation → Prop} {a c : Channel}
    {events : List (Channel × OperationEvent)} (run : Run OperationStep a events c)
    (allowed : Guarded (fun _ e => e.Allowed P) events) (x : Post × Bool) (made : x ∈ c.posts) :
    x ∈ a.posts ∨ ∃ op, P op ∧ op.Makes x.1 := by
  induction run with
  | nil => exact .inl made
  | cons step _ ih =>
      obtain ⟨known, allowed⟩ := guarded_cons.mp allowed
      rcases ih allowed made with before | here
      · rcases step.posts with same | ⟨op, accepted, p, rfl, makes, more⟩
        · exact .inl (same ▸ before)
        · rw [more, List.mem_append, List.mem_singleton] at before
          rcases before with before | rfl
          · exact .inl before
          · exact .inr ⟨op, known, makes⟩
      · exact .inr here

/-- Over every run of a registered session whose waits are all passed alone, whatever is
handed to `WSASend` is one whole datagram, and its body is parsed to the object that the
operation has filled in. -/
theorem datagrams_whole (d : NetIoData) (run : Run SystemStep (registered d).alone trace s)
    (guard : Guarded EntersAlone trace)
    (own : ∀ taken ∈ trace, ∀ op ∈ taken.2.operation, op.Own d.uid) :
    ∀ x ∈ s.chan.posts, x.1.dir = .send → WholeDatagram d.uid x.1.payload := by
  intro x made send
  obtain ⟨events, c, serialRun, allowed, serial⟩ := exists_serial d run guard
  rw [serial.posts.1] at made
  rcases posts_run serialRun allowed x made with before | ⟨op, asked, makes⟩
  · cases before
  · apply makes.whole _ send
    cases op with
    | rearm | answer => trivial
    | checkUid | request =>
        obtain ⟨taken, member, same⟩ := asked
        exact own taken member _ same

end

/-- The login, the join and the acknowledgement of a datagram. -/
theorem datagrams_whole_conversation : ∃ trace c,
    Run SystemStep (registered (freshIoData 1#64)).alone trace (Channel.alone c) ∧
      c.places = [.checkUid, .receive, .joinTable, .receive, .answer] ∧
      ∀ x ∈ c.posts, x.1.dir = .send → WholeDatagram 1#64 x.1.payload := by
  obtain ⟨trace, c, run, guard, _, only, places, _⟩ :=
    exists_run_conversation (loginMessage 1#64)
  refine ⟨trace, c, run, places, datagrams_whole (freshIoData 1#64) run guard ?_⟩
  intro taken member op called
  rcases only taken member op called with rfl | rfl
  · exact rfl
  · exact rfl

end IocpTest.NetService
