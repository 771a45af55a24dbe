import IocpTest.Logic.Agents
import IocpTest.Logic.Run
import IocpTest.NetService.Data

/-!
# The log file

`TranceLog` cuts a message into chunks and hands each of them to an overlapped
`WriteFile`. One buffer and one `OVERLAPPED` serve all chunks of all messages.

A `WriteFile` that stays pending takes its bytes from the buffer at some later moment
and completes at another one; both are steps of their own. Nothing in the code waits
for them: the completion packet ends in `CLog::Callback`, which is empty.
-/

namespace IocpTest.CLog

open StepSystem Bytes

/-- A call of `TranceLog`: the formatted message and how much of it is written. -/
structure Progress where
  message : List Byte
  writenLen : Nat

def Progress.lastWriteLen (c : Progress) : Nat :=
  if c.message.length - c.writenLen ≥ iocpBufferSize then iocpBufferSize
  else c.message.length - c.writenLen

/-- The bytes of the message that are copied into the buffer. -/
def Progress.chunk (c : Progress) : List Byte :=
  (c.message.drop c.writenLen).take c.lastWriteLen

/-- Where the logger stands in `TranceLog`. -/
inductive LogPoint where
  | idle
  /-- Before the loop test. -/
  | looping (c : Progress)
  /-- The chunk is in the buffer. -/
  | filled (c : Progress)
  /-- `WriteFile` has returned. -/
  | issued (c : Progress)

/-- A call of `WriteFile`: the position in the `OVERLAPPED`, the length, and as history
the chunk it is meant for. -/
structure WriteCall where
  offset : DWORD
  offsetHigh : DWORD
  length : Nat
  chunk : List Byte

def WriteCall.position (call : WriteCall) : Nat :=
  2 ^ 32 * call.offsetHigh.toNat + call.offset.toNat

/-- Its bytes are there once it has taken them. -/
structure PendingWrite where
  call : WriteCall
  taken : Option (List Byte)

/-- The result of `WriteFile`: TRUE, FALSE with `ERROR_IO_PENDING`, or FALSE with
another error. -/
inductive WriteOutcome where
  | written
  | pending
  | failed
  deriving DecidableEq, Repr

/-- The logger with the writes of its file. The fields from `accepted` on are history. -/
structure Logger where
  bOpened : Bool
  buffer : Memory
  offset : DWORD
  offsetHigh : DWORD
  point : LogPoint
  pending : List PendingWrite
  /-- The writes that succeeded or stayed pending, in the order of their calls. -/
  accepted : List WriteCall
  /-- The writes that failed. -/
  failed : List WriteCall
  /-- The writes that are in the file, with the bytes they stored. -/
  stored : List (WriteCall × List Byte)
  /-- The buffer or the `OVERLAPPED` was written or reused while a write was pending. -/
  disturbed : Bool

/-- `SetFilePointer(m_fileHandle, 0, NULL, FILE_END)` for a file of `size` bytes. Without
a pointer for the high half a position that does not fit is an error. -/
def setFilePointerEnd (size : Nat) : DWORD :=
  if size < 2 ^ 32 then BitVec.ofNat 32 size else 0xffffffff#32

/-- `Init` on a file of `size` bytes. -/
def Logger.init (size : Nat) (registered : Bool) : Logger where
  bOpened := registered
  buffer := fun _ => 0
  offset := setFilePointerEnd size
  offsetHigh := 0
  point := .idle
  pending := []
  accepted := []
  failed := []
  stored := []
  disturbed := false

namespace Logger

/-- A write to, or another use of, what a pending write needs. -/
def touch (s : Logger) : Logger := { s with disturbed := s.disturbed || !s.pending.isEmpty }

def call (s : Logger) (c : Progress) : WriteCall :=
  ⟨s.offset, s.offsetHigh, c.lastWriteLen, c.chunk⟩

/-- The system's part of `WriteFile`. -/
def writeFile (s : Logger) (call : WriteCall) : WriteOutcome → Logger
  | .written =>
      { s with
        accepted := s.accepted ++ [call]
        stored := (call, slice s.buffer 0 call.length) :: s.stored }
  | .pending =>
      { s with accepted := s.accepted ++ [call], pending := ⟨call, none⟩ :: s.pending }
  | .failed => { s with failed := s.failed ++ [call] }

end Logger

inductive LogEvent where
  | call (message : List Byte)
  /-- A call for which `nCount + 1` overflows: `new` throws. -/
  | overflow (message : List Byte)
  /-- `memset` and `memcpy_s` of the next chunk. -/
  | fill
  | write (outcome : WriteOutcome)
  /-- `Offset += lastWriteLen` and `writenLen += lastWriteLen` -/
  | advance
  | return
  /-- The system takes the bytes of a pending write from the buffer. -/
  | take (w : PendingWrite)
  /-- A pending write completes. -/
  | complete (w : PendingWrite) (bytes : List Byte)

def LogStep (s : Logger) : LogEvent → Logger → Prop
  | .call message, s' =>
      s.point = .idle ∧ s.bOpened = true ∧ message.length + 1 < 2 ^ 31 ∧
        s' = { s with point := .looping ⟨message, 0⟩ }
  | .overflow message, s' =>
      -- the greatest length that `_vscprintf` can report
      s.point = .idle ∧ s.bOpened = true ∧ message.length + 1 = 2 ^ 31 ∧ s' = s
  | .fill, s' =>
      ∃ c, s.point = .looping c ∧ c.writenLen < c.message.length ∧
        s' = { s.touch with
          point := .filled c
          buffer := memcpy (memset s.buffer 0 0 iocpBufferSize) 0 c.chunk }
  | .write outcome, s' =>
      ∃ c, s.point = .filled c ∧
        s' = { s.touch.writeFile (s.call c) outcome with point := .issued c }
  | .advance, s' =>
      ∃ c, s.point = .issued c ∧
        s' = { s.touch with
          point := .looping { c with writenLen := c.writenLen + c.lastWriteLen }
          offset := s.offset + BitVec.ofNat 32 c.lastWriteLen }
  | .return, s' =>
      ∃ c, s.point = .looping c ∧ ¬c.writenLen < c.message.length ∧ s' = { s with point := .idle }
  | .take w, s' =>
      ∃ pending, Moves s.pending pending w
        { w with taken := some (slice s.buffer 0 w.call.length) } ∧ w.taken = none ∧
        s' = { s with pending := pending }
  | .complete w bytes, s' =>
      ∃ before after, s.pending = before ++ w :: after ∧ w.taken = some bytes ∧
        s' = { s with pending := before ++ after, stored := (w.call, bytes) :: s.stored }

/-! ## The chunks -/

theorem Progress.lastWriteLen_le (c : Progress) :
    c.lastWriteLen ≤ c.message.length - c.writenLen ∧ c.lastWriteLen ≤ iocpBufferSize := by
  rw [lastWriteLen]
  split
  · next h => exact ⟨h, Nat.le_refl _⟩
  · next h => exact ⟨Nat.le_refl _, Nat.le_of_not_le h⟩

@[simp] theorem Progress.length_chunk (c : Progress) : c.chunk.length = c.lastWriteLen := by
  rw [chunk, List.length_take, List.length_drop]
  exact Nat.min_eq_left c.lastWriteLen_le.1

theorem Progress.slice_fill (c : Progress) (mem : Memory) :
    slice (memcpy mem 0 c.chunk) 0 c.lastWriteLen = c.chunk := by
  have copied := slice_memcpy mem 0 c.chunk
  rwa [c.length_chunk] at copied

theorem Logger.touch_eq {s : Logger} (h : s.pending = []) : s.touch = s := by
  have same : (s.disturbed || !s.pending.isEmpty) = s.disturbed := by simp [h]
  rw [touch, same]

/-! ## A message of one byte -/

def oneByte (b : Byte) : Progress := ⟨[b], 0⟩

/-- An idle logger puts the byte into the buffer. -/
theorem run_fill {s : Logger} (idle : s.point = .idle) (opened : s.bOpened = true) (b : Byte) :
    Run LogStep s [(s, .call [b]), ({ s with point := .looping (oneByte b) }, .fill)]
      { Logger.touch { s with point := .looping (oneByte b) } with
        point := .filled (oneByte b)
        buffer := memcpy (memset s.buffer 0 0 iocpBufferSize) 0 [b] } := by
  have short : [b].length + 1 < 2 ^ 31 := Nat.lt_of_succ_lt (by decide : 3 < 2 ^ 31)
  have call : LogStep s (.call [b]) { s with point := .looping (oneByte b) } :=
    ⟨idle, opened, short, rfl⟩
  have fill : LogStep { s with point := .looping (oneByte b) } .fill _ :=
    ⟨_, rfl, Nat.zero_lt_one, rfl⟩
  exact .cons call (.cons fill (.nil _))

/-- `WriteFile` for the byte at the start of the file. -/
def oneByteCall (b : Byte) : WriteCall := ⟨0, 0, 1, [b]⟩

def firstFilled : Logger :=
  { Logger.init 0 true with
    point := .filled (oneByte 65)
    buffer := memcpy (memset (fun _ => 0) 0 0 iocpBufferSize) 0 [65] }

theorem run_firstFilled : Run LogStep (Logger.init 0 true)
    [(Logger.init 0 true, .call [65]),
      ({ Logger.init 0 true with point := .looping (oneByte 65) }, .fill)] firstFilled :=
  run_fill rfl rfl 65

namespace Logger

def filledByte (s : Logger) (b : Byte) : Logger :=
  { s with
    point := .filled (oneByte b)
    buffer := memcpy (memset s.buffer 0 0 iocpBufferSize) 0 [b] }

def writtenByte (s : Logger) (b : Byte) : Logger :=
  { s.filledByte b with
    point := .issued (oneByte b)
    accepted := s.accepted ++ [s.call (oneByte b)]
    stored := (s.call (oneByte b), [b]) :: s.stored }

def countedByte (s : Logger) (b : Byte) : Logger :=
  { s.writtenByte b with point := .looping ⟨[b], 1⟩, offset := s.offset + 1 }

/-- The logger when the call is over. -/
def logByte (s : Logger) (b : Byte) : Logger := { s.countedByte b with point := .idle }

def byteTrace (s : Logger) (b : Byte) : List (Logger × LogEvent) :=
  [(s, .call [b]), ({ s with point := .looping (oneByte b) }, .fill),
    (s.filledByte b, .write .written), (s.writtenByte b, .advance), (s.countedByte b, .return)]

end Logger

/-- A call that nobody interrupts, whose write is done at once. -/
theorem run_logByte {s : Logger} (idle : s.point = .idle) (opened : s.bOpened = true)
    (settled : s.pending = []) (b : Byte) : Run LogStep s (s.byteTrace b) (s.logByte b) := by
  have quiet : ∀ t : Logger, t.pending = s.pending → t.touch = t :=
    fun t same => Logger.touch_eq (same.trans settled)
  have first := run_fill idle opened b
  rw [quiet { s with point := .looping (oneByte b) } rfl] at first
  have write : LogStep (s.filledByte b) (.write .written) (s.writtenByte b) := by
    refine ⟨oneByte b, rfl, ?_⟩
    rw [quiet (s.filledByte b) rfl]
    have bytes : slice (s.filledByte b).buffer 0 (oneByte b).lastWriteLen = [b] :=
      (oneByte b).slice_fill _
    simp only [Logger.writeFile, Logger.call, bytes]
    rfl
  have advance : LogStep (s.writtenByte b) .advance (s.countedByte b) := by
    refine ⟨oneByte b, rfl, ?_⟩
    rw [quiet (s.writtenByte b) rfl]
    rfl
  have back : LogStep (s.countedByte b) .return (s.logByte b) :=
    ⟨⟨[b], 1⟩, rfl, Nat.lt_irrefl 1, rfl⟩
  exact first.append (.cons write (.cons advance (.cons back (.nil _))))

end IocpTest.CLog
