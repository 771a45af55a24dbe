import IocpTest.Protobuf.Message

/-!
# The messages of the game

The four classes of `Game60_FishingMessage` that the client serializes. A message is
complete when its required fields are set, so `ReqStartSyncFishMessage` always is.
-/

namespace IocpTest.Protobuf

def protosGame60FishingIsValid (value : Uint32) : Bool :=
  [6001#32, 6002#32, 6003#32, 6004#32, 6006#32, 6008#32, 6009#32, 6010#32, 6012#32, 6014#32,
    6016#32, 6017#32, 6018#32, 6019#32, 6020#32, 6022#32, 6024#32, 6025#32, 6026#32, 6027#32,
    6028#32, 6030#32, 6031#32, 6032#32, 6034#32].contains value

/-- `optional Protos_Game60Fishing msgID = 1` -/
def msgID : FieldDecl := ⟨1#29, .enum protosGame60FishingIsValid, false⟩

def reqEnterFishServerMessage : Descriptor where
  fields := [msgID, ⟨2#29, .int64, true⟩]
  small := by simp [msgID]
  distinct := by decide

def reqJoinRoomMessage : Descriptor where
  fields := [msgID, ⟨2#29, .int32, true⟩]
  small := by simp [msgID]
  distinct := by decide

def reqStartSyncFishMessage : Descriptor where
  fields := [msgID]
  small := by simp [msgID]
  distinct := by decide

def reqBulletMessage : Descriptor where
  fields := [msgID, ⟨2#29, .int32, true⟩, ⟨3#29, .int32, false⟩, ⟨4#29, .int32, true⟩]
  small := by simp [msgID]
  distinct := by decide

namespace Message

/-- `ReqEnterFishServerMessage::set_playeronlyid` -/
def setPlayerOnlyID (m : Message reqEnterFishServerMessage) (value : Uint64) :
    Message reqEnterFishServerMessage :=
  m.set ⟨1, by decide⟩ value

/-- `ReqJoinRoomMessage::set_roomid` -/
def setRoomID (m : Message reqJoinRoomMessage) (value : Uint32) : Message reqJoinRoomMessage :=
  m.set ⟨1, by decide⟩ value

/-- `ReqBulletMessage::set_angle` -/
def setAngle (m : Message reqBulletMessage) (value : Uint32) : Message reqBulletMessage :=
  m.set ⟨1, by decide⟩ value

/-- `ReqBulletMessage::set_lockfishid` -/
def setLockFishID (m : Message reqBulletMessage) (value : Uint32) : Message reqBulletMessage :=
  m.set ⟨2, by decide⟩ value

/-- `ReqBulletMessage::set_launchertype` -/
def setLauncherType (m : Message reqBulletMessage) (value : Uint32) : Message reqBulletMessage :=
  m.set ⟨3, by decide⟩ value

end Message

end IocpTest.Protobuf
