import IocpTest.CLog.Append
import Mathlib.Data.List.Range

/-!
# A message is cut without loss

`tranceLog` is the body of `TranceLog` as one function, in the machine integers of the
source: `nCount` and `writenLen` are signed, the length of a chunk and `Offset` are not.
Every length that `_vscprintf` reports is below `2 ^ 31`, so the signed comparisons are
the ones on the numbers; `Offset` may wrap. So does `nCount + 1` for the greatest length:
`new` gets a negative size and throws, and nothing is written (`tranceLog_overflow`).

`Written` is the state of the loop after `k` passes: the first `k` pieces of the message
have been handed to `WriteFile`, whatever it returned. The steps of the logger in
`LogStep` do what the function does (`exists_run_tranceLog`).
-/

namespace IocpTest.CLog

open Bytes StepSystem

abbrev INT := BitVec 32

/-- A call of `WriteFile`: its arguments, the bytes in the buffer, and what it returned. -/
structure WriteIssued where
  offset : DWORD
  length : DWORD
  payload : List Byte
  ret : WriteOutcome

/-- The state of the loop of `TranceLog`. -/
structure LoopState where
  writenLen : INT
  buffer : Memory
  offset : DWORD
  writes : List WriteIssued

/-- `(nCount - writenLen) >= IOCP_BUFFER_SIZE ? IOCP_BUFFER_SIZE : (nCount - writenLen)` -/
def lastWriteLen (nCount writenLen : INT) : DWORD :=
  if (BitVec.ofNat 32 iocpBufferSize).sle (nCount - writenLen) then BitVec.ofNat 32 iocpBufferSize
  else nCount - writenLen

section

variable (pBuffer : Memory) (nCount : INT)

/-- The body of the loop. An error of `WriteFile` is only reported. -/
def LoopState.pass (ret : WriteOutcome) (s : LoopState) : LoopState :=
  let lastWriteLen := lastWriteLen nCount s.writenLen
  let buffer := memcpy (memset s.buffer 0 0 iocpBufferSize) 0
    (slice pBuffer s.writenLen.toNat lastWriteLen.toNat)
  { writenLen := s.writenLen + lastWriteLen
    buffer := buffer
    offset := s.offset + lastWriteLen
    writes := s.writes ++ [⟨s.offset, lastWriteLen, slice buffer 0 lastWriteLen.toNat, ret⟩] }

/-- The loop. The `i`-th call of `WriteFile` returns `ret i`. -/
def writeLoop (ret : Nat → WriteOutcome) : Nat → LoopState → Option LoopState
  | 0, _ => none
  | fuel + 1, s =>
      if s.writenLen.slt nCount then
        writeLoop ret fuel (s.pass pBuffer nCount (ret s.writes.length))
      else some s

end

/-- `new char[nCount + 1]`, zeroed. The size is an `int`; `new` throws if it is negative. -/
def newBuffer (heap : Memory) (nCount : INT) : Option Memory :=
  if (nCount + 1#32).slt 0#32 then none else some (memset heap 0 0 (nCount + 1#32).toNat)

/-- `pBuffer`, into which `vsprintf_s` has put the message. -/
def formatted (heap : Memory) (message : List Byte) : Option Memory :=
  (newBuffer heap (BitVec.ofNat 32 message.length)).map fun pBuffer => memcpy pBuffer 0 message

/-- `TranceLog` returns, or the exception of `new` leaves it. -/
inductive LogEnd where
  | returned (value : Bool) (s : LoopState)
  | thrown (s : LoopState)

def LogEnd.state : LogEnd → LoopState
  | .returned _ s | .thrown s => s

/-- `TranceLog` on a message of `nCount` bytes. -/
def tranceLog (m_bOpened : Bool) (heap : Memory) (message : List Byte) (ret : Nat → WriteOutcome)
    (buffer : Memory) (offset : DWORD) (fuel : Nat) : Option LogEnd :=
  let start : LoopState := ⟨0, buffer, offset, []⟩
  if m_bOpened = false then some (.returned false start)
  else
    match formatted heap message with
    | none => some (.thrown start)
    | some pBuffer =>
        (writeLoop pBuffer (BitVec.ofNat 32 message.length) ret fuel start).map (.returned true)

/-- The calls of `WriteFile` cut the message in order and without loss. -/
structure Lossless (message : List Byte) (o : DWORD) (s : LoopState) : Prop where
  count : s.writes.length = (message.length + (iocpBufferSize - 1)) / iocpBufferSize
  offset : ∀ i w, s.writes[i]? = some w → w.offset = BitVec.ofNat 32 (o.toNat + i * iocpBufferSize)
  size : ∀ w ∈ s.writes, 1 ≤ w.length.toNat ∧ w.length.toNat ≤ iocpBufferSize ∧
    w.payload.length = w.length.toNat
  full : ∀ i w, s.writes[i]? = some w → i + 1 < s.writes.length → w.length.toNat = iocpBufferSize
  payload : s.writes.flatMap WriteIssued.payload = message
  final : s.offset = BitVec.ofNat 32 (o.toNat + message.length)

/-! ## The arithmetic of one pass -/

section

variable {message : List Byte} {writenLen : INT}

theorem nCount_toNat (small : message.length < 2 ^ 31) :
    (BitVec.ofNat 32 message.length).toNat = message.length := by
  rw [BitVec.toNat_ofNat]
  exact Nat.mod_eq_of_lt (by omega)

/-- Below `2 ^ 31` the signed order is the order of the numbers. -/
theorem slt_iff_of_small {x y : INT} (hx : x.toNat < 2 ^ 31) (hy : y.toNat < 2 ^ 31) :
    x.slt y = true ↔ x.toNat < y.toNat := by
  rw [BitVec.slt_iff_toInt_lt, BitVec.toInt_eq_toNat_of_lt (by omega),
    BitVec.toInt_eq_toNat_of_lt (by omega), Int.ofNat_lt]

theorem sle_iff_of_small {x y : INT} (hx : x.toNat < 2 ^ 31) (hy : y.toNat < 2 ^ 31) :
    x.sle y = true ↔ x.toNat ≤ y.toNat := by
  rw [BitVec.sle_iff_toInt_le, BitVec.toInt_eq_toNat_of_lt (by omega),
    BitVec.toInt_eq_toNat_of_lt (by omega), Int.ofNat_le]

theorem slt_nCount_iff (small : message.length < 2 ^ 31)
    (inside : writenLen.toNat ≤ message.length) :
    writenLen.slt (BitVec.ofNat 32 message.length) = true ↔ writenLen.toNat < message.length := by
  have count := nCount_toNat small
  rw [slt_iff_of_small (by omega) (by omega), count]

/-- The length of the next chunk, in machine integers. -/
theorem lastWriteLen_toNat (small : message.length < 2 ^ 31)
    (inside : writenLen.toNat ≤ message.length) :
    (lastWriteLen (BitVec.ofNat 32 message.length) writenLen).toNat =
      (⟨message, writenLen.toNat⟩ : Progress).lastWriteLen := by
  have count := nCount_toNat small
  have left : (BitVec.ofNat 32 message.length - writenLen).toNat =
      message.length - writenLen.toNat := by
    rw [BitVec.toNat_sub, count]
    omega
  have size : (BitVec.ofNat 32 iocpBufferSize).toNat = iocpBufferSize := rfl
  have size_lt : iocpBufferSize < 2 ^ 31 := by decide
  have test : (BitVec.ofNat 32 iocpBufferSize).sle (BitVec.ofNat 32 message.length - writenLen) =
      true ↔ message.length - writenLen.toNat ≥ iocpBufferSize := by
    rw [sle_iff_of_small (by omega) (by omega), size, left]
  rw [lastWriteLen, Progress.lastWriteLen, apply_ite BitVec.toNat, size, left]
  exact if_congr test rfl rfl

theorem Progress.lastWriteLen_eq_min (c : Progress) :
    c.lastWriteLen = min iocpBufferSize (c.message.length - c.writenLen) := by
  rw [lastWriteLen]
  split <;> omega

/-- The chunk is the next `IOCP_BUFFER_SIZE` bytes, or what is left. -/
theorem Progress.chunk_eq_take (c : Progress) :
    c.chunk = (c.message.drop c.writenLen).take iocpBufferSize := by
  rw [chunk, lastWriteLen_eq_min, ← List.length_drop, ← List.take_take, List.take_length]

/-- What `memcpy_s` copies out of a buffer with the message. -/
theorem Progress.slice_eq_chunk {pBuffer : Memory} (c : Progress)
    (whole : slice pBuffer 0 c.message.length = c.message)
    (inside : c.writenLen ≤ c.message.length) :
    slice pBuffer c.writenLen c.lastWriteLen = c.chunk := by
  have le := c.lastWriteLen_le.1
  have parts : c.message = c.message.take c.writenLen ++
      (c.chunk ++ (c.message.drop c.writenLen).drop c.lastWriteLen) := by
    rw [Progress.chunk, List.take_append_drop, List.take_append_drop]
  rw [parts] at whole
  obtain ⟨_, _, rest⟩ := slice_eq_append whole
  obtain ⟨_, chunk, _⟩ := slice_eq_append rest
  rw [List.length_take, Nat.min_eq_left inside, c.length_chunk, Nat.zero_add] at chunk
  exact chunk

variable {pBuffer : Memory} {t : LoopState}

theorem LoopState.pass_eq (whole : slice pBuffer 0 message.length = message)
    (small : message.length < 2 ^ 31) (inside : t.writenLen.toNat ≤ message.length)
    (ret : WriteOutcome) :
    t.pass pBuffer (BitVec.ofNat 32 message.length) ret =
      let c : Progress := ⟨message, t.writenLen.toNat⟩
      { writenLen := t.writenLen + BitVec.ofNat 32 c.lastWriteLen
        buffer := memcpy (memset t.buffer 0 0 iocpBufferSize) 0 c.chunk
        offset := t.offset + BitVec.ofNat 32 c.lastWriteLen
        writes := t.writes ++ [⟨t.offset, BitVec.ofNat 32 c.lastWriteLen, c.chunk, ret⟩] } := by
  have length := lastWriteLen_toNat small inside
  have word : lastWriteLen (BitVec.ofNat 32 message.length) t.writenLen =
      BitVec.ofNat 32 (⟨message, t.writenLen.toNat⟩ : Progress).lastWriteLen := by
    rw [← length, BitVec.ofNat_toNat, BitVec.setWidth_eq]
  have copied := (⟨message, t.writenLen.toNat⟩ : Progress).slice_eq_chunk whole inside
  rw [← length] at copied
  have payload := (⟨message, t.writenLen.toNat⟩ : Progress).slice_fill
    (memset t.buffer 0 0 iocpBufferSize)
  rw [← length] at payload
  simp only [LoopState.pass]
  rw [copied, payload, word]

theorem Progress.lastWriteLen_ofNat (c : Progress) :
    (BitVec.ofNat 32 c.lastWriteLen).toNat = c.lastWriteLen := by
  have le := c.lastWriteLen_le.2
  have size : iocpBufferSize = 8192 := rfl
  rw [BitVec.toNat_ofNat]
  omega

/-- `writenLen` after a pass does not overflow. -/
theorem writenLen_pass (small : message.length < 2 ^ 31)
    (inside : t.writenLen.toNat ≤ message.length) :
    (t.writenLen + BitVec.ofNat 32
      (⟨message, t.writenLen.toNat⟩ : Progress).lastWriteLen).toNat =
      t.writenLen.toNat + (⟨message, t.writenLen.toNat⟩ : Progress).lastWriteLen := by
  have le : (⟨message, t.writenLen.toNat⟩ : Progress).lastWriteLen ≤
      message.length - t.writenLen.toNat := Progress.lastWriteLen_le _ |>.1
  rw [BitVec.toNat_add, Progress.lastWriteLen_ofNat]
  omega

end

/-! ## The loop -/

section

variable (message : List Byte) (o : DWORD) (ret : Nat → WriteOutcome)

def piece (i : Nat) : WriteIssued where
  offset := BitVec.ofNat 32 (o.toNat + i * iocpBufferSize)
  length := BitVec.ofNat 32 (min iocpBufferSize (message.length - i * iocpBufferSize))
  payload := (message.drop (i * iocpBufferSize)).take iocpBufferSize
  ret := ret i

structure Written (k : Nat) (s : LoopState) : Prop where
  writenLen : s.writenLen.toNat = min (k * iocpBufferSize) message.length
  offset : s.offset = BitVec.ofNat 32 (o.toNat + min (k * iocpBufferSize) message.length)
  writes : s.writes = (List.range k).map (piece message o ret)

theorem written_start (buffer : Memory) : Written message o ret 0 ⟨0, buffer, o, []⟩ where
  writenLen := by rw [Nat.zero_mul, Nat.zero_min]; rfl
  offset := by rw [Nat.zero_mul, Nat.zero_min, Nat.add_zero, BitVec.ofNat_toNat, BitVec.setWidth_eq]
  writes := rfl

variable {message o ret} {pBuffer : Memory}

theorem Written.inside {k : Nat} {s : LoopState} (h : Written message o ret k s) :
    s.writenLen.toNat ≤ message.length := by
  rw [h.writenLen]
  exact Nat.min_le_right _ _

theorem Written.pass {k : Nat} {s : LoopState} (h : Written message o ret k s)
    (whole : slice pBuffer 0 message.length = message) (small : message.length < 2 ^ 31)
    (more : k * iocpBufferSize < message.length) :
    Written message o ret (k + 1)
      (s.pass pBuffer (BitVec.ofNat 32 message.length) (ret s.writes.length)) := by
  have here : s.writenLen.toNat = k * iocpBufferSize := by
    rw [h.writenLen]
    exact Nat.min_eq_left (Nat.le_of_lt more)
  have offset : s.offset = BitVec.ofNat 32 (o.toNat + k * iocpBufferSize) := by
    rw [h.offset, Nat.min_eq_left (Nat.le_of_lt more)]
  have count : s.writes.length = k := by
    rw [h.writes, List.length_map, List.length_range]
  have chunkLen := (⟨message, s.writenLen.toNat⟩ : Progress).lastWriteLen_eq_min
  have chunk := (⟨message, s.writenLen.toNat⟩ : Progress).chunk_eq_take
  have counted := writenLen_pass small h.inside
  rw [here] at chunkLen chunk counted
  have sum : min ((k + 1) * iocpBufferSize) message.length = k * iocpBufferSize +
      min iocpBufferSize (message.length - k * iocpBufferSize) := by
    rw [Nat.succ_mul]
    omega
  rw [LoopState.pass_eq whole small h.inside, here]
  refine ⟨?_, ?_, ?_⟩
  · rw [counted, chunkLen, sum]
  · show s.offset + BitVec.ofNat 32 (⟨message, k * iocpBufferSize⟩ : Progress).lastWriteLen = _
    rw [offset, chunkLen, sum, ← Nat.add_assoc, BitVec.ofNat_add _ (min _ _)]
  · show s.writes ++ [_] = _
    rw [chunkLen, chunk, offset, count, h.writes, List.range_succ, List.map_append]
    rfl

def passCount (message : List Byte) : Nat :=
  (message.length + (iocpBufferSize - 1)) / iocpBufferSize

theorem lt_passCount_iff {k : Nat} :
    k < passCount message ↔ k * iocpBufferSize < message.length := by
  have size : iocpBufferSize = 8192 := rfl
  rw [passCount, size]
  omega

/-- With fuel for every pass and the last test the loop ends behind the last piece. -/
theorem Written.writeLoop {k fuel : Nat} {s : LoopState} (h : Written message o ret k s)
    (whole : slice pBuffer 0 message.length = message) (small : message.length < 2 ^ 31)
    (le : k ≤ passCount message) (enough : passCount message < k + fuel) :
    ∃ t, writeLoop pBuffer (BitVec.ofNat 32 message.length) ret fuel s = some t ∧
      Written message o ret (passCount message) t := by
  induction fuel generalizing k s with
  | zero => omega
  | succ fuel ih =>
      rw [CLog.writeLoop]
      by_cases more : k * iocpBufferSize < message.length
      · have test := (slt_nCount_iff small h.inside).mpr (by rw [h.writenLen]; omega)
        rw [if_pos test]
        exact ih (h.pass whole small more) (lt_passCount_iff.mpr more) (by omega)
      · have test := mt (slt_nCount_iff small h.inside).mp (by rw [h.writenLen]; omega)
        have last : k = passCount message := by
          have := mt lt_passCount_iff.mp more
          omega
        rw [if_neg test]
        exact ⟨s, rfl, last ▸ h⟩

end

/-! ## What the pieces are together -/

/-- Consecutive windows of a list, one after the other. -/
theorem flatMap_window {α : Type*} (l : List α) (n k : Nat) :
    ((List.range k).flatMap fun i => (l.drop (i * n)).take n) = l.take (k * n) := by
  induction k with
  | zero => simp
  | succ k ih => rw [List.range_succ, List.flatMap_append, ih, Nat.succ_mul, List.take_add,
      List.flatMap_singleton]

section

variable {message : List Byte} {o : DWORD} {ret : Nat → WriteOutcome}

theorem piece_length (i : Nat) : (piece message o ret i).length.toNat =
    min iocpBufferSize (message.length - i * iocpBufferSize) := by
  have size : iocpBufferSize = 8192 := rfl
  rw [piece, BitVec.toNat_ofNat]
  omega

theorem payload_length (i : Nat) : (piece message o ret i).payload.length =
    min iocpBufferSize (message.length - i * iocpBufferSize) := by
  rw [piece, List.length_take, List.length_drop]

theorem Written.lossless {s : LoopState} (h : Written message o ret (passCount message) s) :
    Lossless message o s := by
  have size : iocpBufferSize = 8192 := rfl
  have count : s.writes.length = passCount message := by
    rw [h.writes, List.length_map, List.length_range]
  have covered : message.length ≤ passCount message * iocpBufferSize :=
    Nat.le_of_not_lt (mt lt_passCount_iff.mpr (Nat.lt_irrefl _))
  have get : ∀ i w, s.writes[i]? = some w → w = piece message o ret i ∧ i < passCount message := by
    intro i w hw
    obtain ⟨lt, rfl⟩ := List.getElem?_eq_some_iff.mp hw
    rw [count] at lt
    simp only [h.writes, List.getElem_map, List.getElem_range]
    exact ⟨trivial, lt⟩
  refine ⟨count, ?_, ?_, ?_, ?_, ?_⟩
  · intro i w hw
    rw [(get i w hw).1]
    rfl
  · intro w hw
    obtain ⟨i, hi⟩ := List.mem_iff_getElem?.mp hw
    obtain ⟨rfl, lt⟩ := get i w hi
    have more := lt_passCount_iff.mp lt
    rw [piece_length, payload_length]
    omega
  · intro i w hw next
    obtain ⟨rfl, _⟩ := get i w hw
    have more := lt_passCount_iff.mp (count ▸ next)
    rw [Nat.succ_mul] at more
    rw [piece_length]
    omega
  · rw [h.writes, List.flatMap_map]
    exact (flatMap_window message iocpBufferSize (passCount message)).trans
      (List.take_of_length_le covered)
  · rw [h.offset, Nat.min_eq_right covered]

end

/-! ## The buffer for the message -/

section

variable (heap : Memory) (message : List Byte)

theorem size_toNat (reported : message.length < 2 ^ 31) :
    (BitVec.ofNat 32 message.length + 1#32).toNat = message.length + 1 := by
  have count := nCount_toNat reported
  have one : (1#32).toNat = 1 := rfl
  rw [BitVec.toNat_add, count, one]
  omega

/-- With room for one byte more, the message is in the buffer. -/
theorem exists_formatted (fits : message.length + 1 < 2 ^ 31) :
    ∃ pBuffer, formatted heap message = some pBuffer ∧
      slice pBuffer 0 message.length = message := by
  have size := size_toNat message (by omega)
  have positive : ¬(BitVec.ofNat 32 message.length + 1#32).slt 0#32 = true := by
    rw [slt_iff_of_small (by omega) (by decide)]
    exact Nat.not_lt_zero _
  have format : formatted heap message = some (memcpy (memset heap 0 0
      (BitVec.ofNat 32 message.length + 1#32).toNat) 0 message) := by
    rw [formatted, newBuffer, if_neg positive, Option.map_some]
  exact ⟨_, format, slice_memcpy _ 0 message⟩

theorem formatted_overflow (overflow : message.length + 1 = 2 ^ 31) :
    formatted heap message = none := by
  have size := size_toNat message (by omega)
  have negative : (BitVec.ofNat 32 message.length + 1#32).slt 0#32 = true := by
    have word : BitVec.ofNat 32 message.length + 1#32 = 0x80000000#32 :=
      BitVec.eq_of_toNat_eq (size.trans overflow)
    rw [word]
    decide
  rw [formatted, newBuffer, if_pos negative]
  rfl

end

/-! ## The whole call -/

section

variable (heap : Memory) (message : List Byte) (ret : Nat → WriteOutcome) (buffer : Memory)
  (o : DWORD)

theorem exists_lossless (fits : message.length + 1 < 2 ^ 31) {fuel : Nat}
    (enough : passCount message < fuel) :
    ∃ s, tranceLog true heap message ret buffer o fuel = some (.returned true s) ∧
      Lossless message o s := by
  obtain ⟨pBuffer, format, whole⟩ := exists_formatted heap message fits
  have start := written_start message o ret buffer
  obtain ⟨s, done, written⟩ := start.writeLoop whole (by omega) (Nat.zero_le _)
    (by rw [Nat.zero_add]; exact enough)
  refine ⟨s, ?_, written.lossless⟩
  rw [tranceLog, if_neg (by decide), format]
  simp only [done, Option.map_some]

/-- On the greatest length there is an exception before the first write. -/
theorem tranceLog_overflow (overflow : message.length + 1 = 2 ^ 31) (fuel : Nat) :
    tranceLog true heap message ret buffer o fuel = some (.thrown ⟨0, buffer, o, []⟩) := by
  rw [tranceLog, if_neg (by decide), formatted_overflow heap message overflow]

/-- On every message of a length that `_vscprintf` can report, from every `Offset` and whatever
`WriteFile` returns, `TranceLog` returns and has cut the message without loss if and only if
`nCount + 1` is an `int`. -/
theorem tranceLog_lossless_iff (reported : message.length < 2 ^ 31) {fuel : Nat}
    (enough : (message.length + (iocpBufferSize - 1)) / iocpBufferSize < fuel) :
    (∃ s, tranceLog true heap message ret buffer o fuel = some (.returned true s) ∧
      Lossless message o s) ↔ message.length + 1 < 2 ^ 31 := by
  constructor
  · rintro ⟨s, done, _⟩
    by_contra overflow
    rw [tranceLog_overflow heap message ret buffer o (by omega)] at done
    cases done
  · intro fits
    exact exists_lossless heap message ret buffer o fits enough

end

/-- One byte more than the buffer holds, with errors and across the wrap of `Offset`. -/
theorem tranceLog_lossless_two_chunks : ∃ s,
    tranceLog true (fun _ => 0) (List.replicate (iocpBufferSize + 1) 65) (fun _ => .failed)
      (fun _ => 0) 0xfffffff0#32 3 = some (.returned true s) ∧
    Lossless (List.replicate (iocpBufferSize + 1) 65) 0xfffffff0#32 s := by
  have length : (List.replicate (iocpBufferSize + 1) (65 : Byte)).length = iocpBufferSize + 1 :=
    List.length_replicate
  refine (tranceLog_lossless_iff _ _ _ _ _ ?_ ?_).mpr ?_
  · rw [length]
    decide
  · rw [length]
    decide
  · rw [length]
    decide

/-- Nothing is written of a message of `2 ^ 31 - 1` bytes. -/
theorem not_tranceLog_lossless : ¬∀ (heap : Memory) (message : List Byte),
    message.length < 2 ^ 31 → ∀ (ret : Nat → WriteOutcome) (buffer : Memory) (o : DWORD),
      ∃ fuel e, tranceLog true heap message ret buffer o fuel = some e ∧
        Lossless message o e.state := by
  intro all
  have length : (List.replicate (2 ^ 31 - 1) (65 : Byte)).length = 2 ^ 31 - 1 :=
    List.length_replicate
  obtain ⟨fuel, e, done, lossless⟩ := all (fun _ => 0) (List.replicate (2 ^ 31 - 1) 65)
    (by rw [length]; decide) (fun _ => .written) (fun _ => 0) 0
  rw [tranceLog_overflow _ _ _ _ _ (by rw [length]; decide)] at done
  obtain rfl := Option.some.inj done
  have count := lossless.count
  rw [length] at count
  exact absurd count (by decide)

/-! ## The steps of the logger -/

/-- The call as the logger's history keeps it. -/
def WriteIssued.call (offsetHigh : DWORD) (w : WriteIssued) : WriteCall :=
  ⟨w.offset, offsetHigh, w.length.toNat, w.payload⟩

/-- It returned TRUE, or FALSE with `ERROR_IO_PENDING`. -/
def WriteIssued.isAccepted (w : WriteIssued) : Bool := w.ret != .failed

/-- A logger that started the message in state `s₀` has issued the calls of `writes`. -/
structure HasIssued (s₀ s : Logger) (writes : List WriteIssued) : Prop where
  offsetHigh : s.offsetHigh = s₀.offsetHigh
  accepted : s.accepted =
    s₀.accepted ++ (writes.filter fun w => w.isAccepted).map (WriteIssued.call s₀.offsetHigh)
  failed : s.failed =
    s₀.failed ++ (writes.filter fun w => !w.isAccepted).map (WriteIssued.call s₀.offsetHigh)

/-- It stands before the loop test where the function has state `t`. -/
structure Follows (s₀ : Logger) (message : List Byte) (t : LoopState) (s : Logger) : Prop where
  point : s.point = .looping ⟨message, t.writenLen.toNat⟩
  buffer : s.buffer = t.buffer
  offset : s.offset = t.offset
  issued : HasIssued s₀ s t.writes

theorem HasIssued.writeFile {s₀ s : Logger} {writes : List WriteIssued}
    (h : HasIssued s₀ s writes) (w : WriteIssued) :
    HasIssued s₀ (s.writeFile (w.call s₀.offsetHigh) w.ret) (writes ++ [w]) := by
  cases hret : w.ret <;>
    exact ⟨h.offsetHigh, by simp [Logger.writeFile, WriteIssued.isAccepted, hret, h.accepted],
      by simp [Logger.writeFile, WriteIssued.isAccepted, hret, h.failed]⟩

section

variable {s₀ s : Logger} {message : List Byte} {pBuffer : Memory} {t : LoopState}

/-- Three steps of the logger are a pass of the loop. -/
theorem Follows.pass (h : Follows s₀ message t s)
    (whole : slice pBuffer 0 message.length = message) (small : message.length < 2 ^ 31)
    (more : t.writenLen.toNat < message.length) (ret : WriteOutcome) :
    ∃ trace s', Run LogStep s trace s' ∧
      Follows s₀ message (t.pass pBuffer (BitVec.ofNat 32 message.length) ret) s' := by
  rw [LoopState.pass_eq whole small (Nat.le_of_lt more)]
  obtain ⟨c, hc⟩ : ∃ c : Progress, c = ⟨message, t.writenLen.toNat⟩ := ⟨_, rfl⟩
  have counted := writenLen_pass small (Nat.le_of_lt more)
  rw [← hc] at counted ⊢
  let filled : Logger :=
    { s.touch with
      point := .filled c
      buffer := memcpy (memset s.buffer 0 0 iocpBufferSize) 0 c.chunk }
  let written : Logger :=
    { filled.touch.writeFile (filled.call c) ret with point := .issued c }
  have fill : LogStep s .fill filled := by
    refine ⟨c, h.point.trans (hc ▸ rfl), ?_, rfl⟩
    rw [hc]
    exact more
  have write : LogStep filled (.write ret) written := ⟨c, rfl, rfl⟩
  have advance : LogStep written .advance _ := ⟨c, rfl, rfl⟩
  have call : filled.call c =
      (⟨t.offset, BitVec.ofNat 32 c.lastWriteLen, c.chunk, ret⟩ : WriteIssued).call
        s₀.offsetHigh := by
    rw [WriteIssued.call, c.lastWriteLen_ofNat, ← h.offset, ← h.issued.offsetHigh]
    rfl
  have issued : HasIssued s₀ filled.touch t.writes :=
    ⟨h.issued.offsetHigh, h.issued.accepted, h.issued.failed⟩
  have issued := issued.writeFile
    ⟨t.offset, BitVec.ofNat 32 c.lastWriteLen, c.chunk, ret⟩
  rw [← call] at issued
  refine ⟨_, _, .cons fill (.cons write (.cons advance (.nil _))), ?_, ?_, ?_, ?_⟩
  · show LogPoint.looping _ = _
    rw [counted, hc]
  · rw [← h.buffer]
    cases ret <;> rfl
  · show (filled.touch.writeFile (filled.call c) ret).offset + _ = _
    rw [Logger.writeFile_offset, ← h.offset]
    rfl
  · exact ⟨issued.offsetHigh, issued.accepted, issued.failed⟩

/-- The whole loop is a run of the logger. -/
theorem Follows.run (h : Follows s₀ message t s)
    (whole : slice pBuffer 0 message.length = message) (small : message.length < 2 ^ 31)
    (inside : t.writenLen.toNat ≤ message.length) {ret : Nat → WriteOutcome} {fuel : Nat}
    {u : LoopState}
    (done : writeLoop pBuffer (BitVec.ofNat 32 message.length) ret fuel t = some u) :
    ∃ trace s', Run LogStep s trace s' ∧ Follows s₀ message u s' ∧
      ¬u.writenLen.toNat < message.length := by
  induction fuel generalizing t s with
  | zero => cases done
  | succ fuel ih =>
      rw [writeLoop] at done
      by_cases more : t.writenLen.toNat < message.length
      · rw [if_pos ((slt_nCount_iff small inside).mpr more)] at done
        obtain ⟨first, s₁, pass, next⟩ := h.pass whole small more (ret t.writes.length)
        have inside' : (t.pass pBuffer (BitVec.ofNat 32 message.length)
            (ret t.writes.length)).writenLen.toNat ≤ message.length := by
          have le : (⟨message, t.writenLen.toNat⟩ : Progress).lastWriteLen ≤
              message.length - t.writenLen.toNat := Progress.lastWriteLen_le _ |>.1
          rw [LoopState.pass_eq whole small inside]
          show (t.writenLen + _).toNat ≤ _
          rw [writenLen_pass small inside]
          omega
        obtain ⟨rest, s', run, follows, last⟩ := ih next inside' done
        exact ⟨_, s', pass.append run, follows, last⟩
      · rw [if_neg (mt (slt_nCount_iff small inside).mp more)] at done
        obtain rfl := Option.some.inj done
        exact ⟨[], s, .nil s, h, more⟩

end

/-- What `tranceLog` computes is what an idle logger does that nobody interrupts. -/
theorem exists_run_tranceLog {s : Logger} (idle : s.point = .idle) (opened : s.bOpened = true)
    {message : List Byte} (reported : message.length < 2 ^ 31) {heap : Memory}
    {ret : Nat → WriteOutcome} {fuel : Nat} {e : LogEnd}
    (done : tranceLog s.bOpened heap message ret s.buffer s.offset fuel = some e) :
    ∃ trace s', Run LogStep s trace s' ∧ s'.point = .idle ∧ s'.buffer = e.state.buffer ∧
      s'.offset = e.state.offset ∧ HasIssued s s' e.state.writes := by
  rw [tranceLog, opened, if_neg (by decide)] at done
  by_cases fits : message.length + 1 < 2 ^ 31
  · obtain ⟨pBuffer, format, whole⟩ := exists_formatted heap message fits
    rw [format] at done
    obtain ⟨u, loop, rfl⟩ := Option.map_eq_some_iff.mp done
    have called : LogStep s (.call message) { s with point := .looping ⟨message, 0⟩ } :=
      ⟨idle, opened, fits, rfl⟩
    have start : Follows s message ⟨0, s.buffer, s.offset, []⟩
        { s with point := .looping ⟨message, 0⟩ } :=
      ⟨rfl, rfl, rfl, rfl, by simp, by simp⟩
    obtain ⟨trace, s', run, follows, last⟩ := start.run whole reported (Nat.zero_le _) loop
    have back : LogStep s' .return { s' with point := .idle } := ⟨_, follows.point, last, rfl⟩
    refine ⟨_, _, .cons called (run.append (.cons back (.nil _))), rfl, follows.buffer,
      follows.offset, ?_⟩
    exact ⟨follows.issued.offsetHigh, follows.issued.accepted, follows.issued.failed⟩
  · have overflow : message.length + 1 = 2 ^ 31 := by omega
    rw [formatted_overflow heap message overflow] at done
    obtain rfl := Option.some.inj done
    have thrown : LogStep s (.overflow message) s := ⟨idle, opened, overflow, rfl⟩
    exact ⟨_, s, .cons thrown (.nil s), idle, rfl, rfl, rfl, by simp [LogEnd.state],
      by simp [LogEnd.state]⟩

end IocpTest.CLog
