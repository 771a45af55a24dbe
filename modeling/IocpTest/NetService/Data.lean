import IocpTest.Data.Bytes

/-!
# Session data and wire words

The data of one session (`NetIoData` with the `PerIocpData` it extends), the
macros on the answer word, the byte-order functions and the message numbers the
command channel uses. The host is little-endian, as on every Windows target of
the project.

`buffer` is the memory from `pdata->buffer` on. Its first `iocpBufferSize` bytes
are the array itself; the bytes after it belong to whatever the compiler put
there, and a read past the array sees them.
-/

namespace IocpTest

open Bytes

abbrev USHORT := BitVec 16
abbrev UINT := BitVec 32
abbrev DWORD := BitVec 32
abbrev INT64 := BitVec 64
abbrev SOCKET := Nat

/-- `IOCP_BUFFER_SIZE`. -/
def iocpBufferSize : Nat := 8 * 1024

/-- The socket a session owns, as `CreateSocket` fills it in. -/
structure CreateSocketData where
  socket : SOCKET
  port : USHORT
  regState : Bool

/-- One session. The event of its `OVERLAPPED` is a kernel object and is kept
with the other kernel state of the session. -/
structure NetIoData where
  buffer : Memory
  pSocketData : CreateSocketData
  wsabufLen : UINT
  opt : UINT
  sendID : UINT
  recvID : UINT
  uid : INT64

/-- The message numbers of `Protos_Game60Fishing` that the service uses. -/
inductive Protos where
  | reqEnterFishServer
  | resEnterFishServer
  | reqJoinRoom
  | reqBullet
  | reqStartSyncFish
  deriving DecidableEq, Repr

def Protos.number : Protos → USHORT
  | .reqEnterFishServer => 6001
  | .resEnterFishServer => 6002
  | .reqJoinRoom => 6003
  | .reqBullet => 6009
  | .reqStartSyncFish => 6031

/-- `SET_ANSWER`. -/
def setAnswer (x : UINT) : UINT := x ||| 0x80000000#32

/-- `IS_ANSWER`. -/
def isAnswer (x : UINT) : Bool := x &&& 0x80000000#32 != 0#32

/-- `RESET_ANSWER`. -/
def resetAnswer (x : UINT) : UINT := x &&& 0x7fffffff#32

/-- Below `2 ^ 31` the flag bit is free, and removing it gives the number back. -/
theorem resetAnswer_setAnswer {x : UINT} (h : x.toNat < 2 ^ 31) :
    resetAnswer (setAnswer x) = x := by
  have hflag : (0x80000000#32 &&& 0x7fffffff#32 : UINT) = 0#32 := by decide
  have hmask : x &&& 0x7fffffff#32 = x := by
    apply BitVec.eq_of_toNat_eq
    rw [BitVec.toNat_and, show (0x7fffffff#32 : UINT).toNat = 2 ^ 31 - 1 by decide,
      Nat.and_two_pow_sub_one_eq_mod, Nat.mod_eq_of_lt h]
  have hdistrib : (x ||| 0x80000000#32) &&& 0x7fffffff#32 =
      (x &&& 0x7fffffff#32) ||| (0x80000000#32 &&& 0x7fffffff#32) := by
    ext i hi
    simp only [BitVec.getElem_and, BitVec.getElem_or, Bool.and_or_distrib_right]
  rw [resetAnswer, setAnswer, hdistrib, hflag, hmask, BitVec.or_zero]

/-- The last number is the only one that has 0 as its successor. -/
theorem add_one_eq_zero_iff {x : UINT} : x + 1 = 0#32 ↔ x.toNat + 1 = 2 ^ 32 := by
  have small := x.isLt
  have one : (1 : UINT).toNat = 1 := rfl
  have zero : (0#32 : UINT).toNat = 0 := rfl
  rw [← BitVec.toNat_inj, BitVec.toNat_add, one, zero]
  omega

/-- Below it counting up does not wrap. -/
theorem toNat_add_one {x : UINT} (h : x.toNat + 1 < 2 ^ 32) : (x + 1).toNat = x.toNat + 1 := by
  rw [BitVec.toNat_add]
  exact Nat.mod_eq_of_lt h

/-- The flag is there whatever the number is. -/
theorem isAnswer_setAnswer (x : UINT) : isAnswer (setAnswer x) = true := by
  have hflag : setAnswer x &&& 0x80000000#32 = 0x80000000#32 := by
    ext i hi
    simp only [setAnswer, BitVec.getElem_and, BitVec.getElem_or]
    cases x[i] <;> simp
  rw [isAnswer, hflag]
  decide

def htonl (x : UINT) : UINT := BitVec.ofNat 32 (byteSwap 4 x.toNat)

def htons (x : USHORT) : USHORT := BitVec.ofNat 16 (byteSwap 2 x.toNat)

/-- `ntohl` is the same swap as `htonl`. -/
def ntohl (x : UINT) : UINT := htonl x

theorem htonl_toNat (x : UINT) : (htonl x).toNat = byteSwap 4 x.toNat := by
  rw [htonl, BitVec.toNat_ofNat]
  exact Nat.mod_eq_of_lt (byteSwap_lt 4 x.toNat)

theorem htons_toNat (x : USHORT) : (htons x).toNat = byteSwap 2 x.toNat := by
  rw [htons, BitVec.toNat_ofNat]
  exact Nat.mod_eq_of_lt (byteSwap_lt 2 x.toNat)

@[simp] theorem ntohl_htonl (x : UINT) : ntohl (htonl x) = x := by
  apply BitVec.eq_of_toNat_eq
  rw [ntohl, htonl_toNat, htonl_toNat, byteSwap_byteSwap]
  exact x.isLt

/-- `*(UINT*)p`. -/
def readUINT (mem : Memory) (p : Nat) : UINT := BitVec.ofNat 32 (readNat mem p 4)

/-- `*(USHORT*)p`. -/
def readUSHORT (mem : Memory) (p : Nat) : USHORT := BitVec.ofNat 16 (readNat mem p 2)

def uintBytes (x : UINT) : List Byte := leBytes 4 x.toNat

def ushortBytes (x : USHORT) : List Byte := leBytes 2 x.toNat

@[simp] theorem uintBytes_length (x : UINT) : (uintBytes x).length = 4 := by simp [uintBytes]

@[simp] theorem ushortBytes_length (x : USHORT) : (ushortBytes x).length = 2 := by
  simp [ushortBytes]

/-- Network order is the other order of the bytes. -/
theorem uintBytes_inj {x y : UINT} (h : uintBytes x = uintBytes y) : x = y := by
  apply BitVec.eq_of_toNat_eq
  rw [← leNat_leBytes (k := 4) x.isLt, ← leNat_leBytes (k := 4) y.isLt]
  exact congrArg leNat h

theorem ushortBytes_inj {x y : USHORT} (h : ushortBytes x = ushortBytes y) : x = y := by
  apply BitVec.eq_of_toNat_eq
  rw [← leNat_leBytes (k := 2) x.isLt, ← leNat_leBytes (k := 2) y.isLt]
  exact congrArg leNat h

theorem uintBytes_htonl (x : UINT) : uintBytes (htonl x) = (uintBytes x).reverse := by
  rw [uintBytes, htonl_toNat, leBytes_byteSwap, uintBytes]

theorem ushortBytes_htons (x : USHORT) : ushortBytes (htons x) = (ushortBytes x).reverse := by
  rw [ushortBytes, htons_toNat, leBytes_byteSwap, ushortBytes]

theorem readUINT_toNat (mem : Memory) (p : Nat) : (readUINT mem p).toNat = readNat mem p 4 := by
  rw [readUINT, BitVec.toNat_ofNat]
  exact Nat.mod_eq_of_lt (readNat_lt mem p 4)

theorem readUSHORT_toNat (mem : Memory) (p : Nat) :
    (readUSHORT mem p).toNat = readNat mem p 2 := by
  rw [readUSHORT, BitVec.toNat_ofNat]
  exact Nat.mod_eq_of_lt (readNat_lt mem p 2)

/-- The four bytes at an offset hold exactly the word read there. -/
theorem slice_eq_uintBytes {mem : Memory} {p : Nat} {x : UINT} :
    slice mem p 4 = uintBytes x ↔ readUINT mem p = x := by
  constructor
  · intro h
    apply BitVec.eq_of_toNat_eq
    rw [readUINT_toNat, readNat_of_slice x.isLt h]
  · rintro rfl
    rw [slice_eq_leBytes, uintBytes, readUINT_toNat]

theorem slice_eq_ushortBytes {mem : Memory} {p : Nat} {x : USHORT} :
    slice mem p 2 = ushortBytes x ↔ readUSHORT mem p = x := by
  constructor
  · intro h
    apply BitVec.eq_of_toNat_eq
    rw [readUSHORT_toNat, readNat_of_slice x.isLt h]
  · rintro rfl
    rw [slice_eq_leBytes, ushortBytes, readUSHORT_toNat]

/-- A word reads as zero when all of its bytes are. -/
theorem readUINT_eq_zero {mem : Memory} {p : Nat} :
    readUINT mem p = 0#32 ↔ ∀ i, p ≤ i → i < p + 4 → mem i = 0#8 := by
  rw [← slice_eq_uintBytes, ← slice_eq_replicate]
  rfl

theorem readUSHORT_eq_zero {mem : Memory} {p : Nat} :
    readUSHORT mem p = 0#16 ↔ ∀ i, p ≤ i → i < p + 2 → mem i = 0#8 := by
  rw [← slice_eq_ushortBytes, ← slice_eq_replicate]
  rfl

theorem readUINT_congr {mem mem' : Memory} {p : Nat}
    (h : ∀ i, p ≤ i → i < p + 4 → mem i = mem' i) : readUINT mem p = readUINT mem' p := by
  rw [readUINT, readUINT, readNat, readNat, slice_congr h]

theorem readUSHORT_congr {mem mem' : Memory} {p : Nat}
    (h : ∀ i, p ≤ i → i < p + 2 → mem i = mem' i) : readUSHORT mem p = readUSHORT mem' p := by
  rw [readUSHORT, readUSHORT, readNat, readNat, slice_congr h]

/-- `memcpy_s(p, 4, &x, 4)`. -/
def writeUINT (mem : Memory) (p : Nat) (x : UINT) : Memory := memcpy mem p (uintBytes x)

/-- `memcpy_s(p, 2, &x, 2)`. -/
def writeUSHORT (mem : Memory) (p : Nat) (x : USHORT) : Memory := memcpy mem p (ushortBytes x)

@[simp] theorem readUINT_writeUINT (mem : Memory) (p : Nat) (x : UINT) :
    readUINT (writeUINT mem p x) p = x := by
  rw [← slice_eq_uintBytes, writeUINT]
  simpa using slice_memcpy mem p (uintBytes x)

theorem readUINT_memcpy_of_disjoint (mem : Memory) {p q : Nat} {bs : List Byte}
    (h : q + 4 ≤ p ∨ p + bs.length ≤ q) : readUINT (memcpy mem p bs) q = readUINT mem q := by
  rw [readUINT, readNat, slice_memcpy_of_disjoint mem h, readUINT, readNat]

end IocpTest
