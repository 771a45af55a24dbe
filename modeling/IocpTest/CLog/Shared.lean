import IocpTest.CLog.Append
import Mathlib.Data.BitVec
import Mathlib.Tactic.LinearCombination

/-!
# Many threads at one logger

`TranceLog` is called by every worker, and no lock is taken: buffer and `OVERLAPPED` are
those of all calls. A call counts its chunk only after `WriteFile`, and until then the next
call writes to the same place.

`shared_appendOnly_iff`: with any number of threads, the successful writes follow each other
exactly when each is called with as many bytes not yet counted as bytes failed, modulo
`2 ^ 32`, and below `2 ^ 32`.
-/

namespace IocpTest.CLog

open StepSystem Bytes Ranges

/-- The logger, where `point` means nothing, and where each thread stands in `TranceLog`. -/
structure SharedLogger where
  logger : Logger
  threads : List LogPoint

namespace SharedLogger

/-- `Init`, and `n` threads that have not called yet. -/
def start (size : Nat) (registered : Bool) (n : Nat) : SharedLogger where
  logger := .init size registered
  threads := List.replicate n .idle

/-- The logger as a thread at this place sees it. -/
def seenAt (s : SharedLogger) (p : LogPoint) : Logger := { s.logger with point := p }

end SharedLogger

/-- The thread with this number takes a step. For a step of the system any will do. -/
def SharedStep (s : SharedLogger) (e : Nat × LogEvent) (s' : SharedLogger) : Prop :=
  ∃ p t, s.threads[e.1]? = some p ∧ LogStep (s.seenAt p) e.2 t ∧
    s' = ⟨t, s.threads.set e.1 t.point⟩

/-! ## The place of a write -/

/-- The bytes of the chunk that has been issued and is not in `Offset`. -/
def LogPoint.uncounted : LogPoint → Nat
  | .issued c => c.lastWriteLen
  | _ => 0

def SharedLogger.uncounted (s : SharedLogger) : Nat := (s.threads.map LogPoint.uncounted).sum

/-- A `WriteFile` that succeeds is called below `2 ^ 32`, and as many bytes are not counted
as have failed. -/
def SharedInPlace (size : Nat) (s : SharedLogger) : Nat × LogEvent → Prop
  | (_, .write outcome) =>
      outcome ≠ .failed → size + s.logger.writtenBytes < 2 ^ 32 ∧
        s.logger.failedBytes % 2 ^ 32 = s.uncounted % 2 ^ 32
  | _ => True

theorem Logger.nextOffset_eq (s : Logger) :
    s.nextOffset = s.offset + BitVec.ofNat 32 s.point.uncounted := by
  cases here : s.point <;> simp [nextOffset, LogPoint.uncounted, here]

/-- Wherever `Offset` stands, it could be that of a file. -/
theorem Logger.exists_positioned {s : Logger} (high : s.offsetHigh = 0) :
    ∃ size, s.Positioned size := by
  refine ⟨(s.nextOffset - BitVec.ofNat 32 (s.writtenBytes + s.failedBytes)).toNat, high, ?_⟩
  rw [setFilePointerEnd, if_pos (BitVec.isLt _), BitVec.ofNat_toNat, BitVec.setWidth_eq,
    BitVec.sub_add_cancel]

/-- `Offset` and what is not counted are the initial end and all bytes attempted so far. -/
structure SharedLogger.Positioned (size : Nat) (s : SharedLogger) : Prop where
  high : s.logger.offsetHigh = 0
  offset : s.logger.offset + BitVec.ofNat 32 s.uncounted = setFilePointerEnd size +
    BitVec.ofNat 32 (s.logger.writtenBytes + s.logger.failedBytes)

namespace SharedLogger.Positioned

variable {size : Nat} {s s' : SharedLogger} {e : Nat × LogEvent}

theorem start (size : Nat) (registered : Bool) (n : Nat) :
    (SharedLogger.start size registered n).Positioned size where
  high := rfl
  offset := by
    have none : (SharedLogger.start size registered n).uncounted = 0 := by
      simp [SharedLogger.uncounted, SharedLogger.start, LogPoint.uncounted]
    rw [none]
    rfl

theorem step (inv : s.Positioned size) (step : SharedStep s e s') : s'.Positioned size := by
  obtain ⟨p, t, here, step, rfl⟩ := step
  obtain ⟨x, before⟩ := Logger.exists_positioned (s := s.seenAt p) inv.high
  have after := before.step step
  have offset := inv.offset
  have old : s.logger.offset + BitVec.ofNat 32 p.uncounted = setFilePointerEnd x +
      BitVec.ofNat 32 (s.logger.writtenBytes + s.logger.failedBytes) :=
    (Logger.nextOffset_eq (s.seenAt p)).symm.trans before.offset
  have new : t.offset + BitVec.ofNat 32 t.point.uncounted = setFilePointerEnd x +
      BitVec.ofNat 32 (t.writtenBytes + t.failedBytes) :=
    t.nextOffset_eq.symm.trans after.offset
  -- what the thread has not counted is replaced in the sum
  have moved := congrArg (BitVec.ofNat 32) ((moves_set here t.point).sum LogPoint.uncounted)
  rw [BitVec.ofNat_add, BitVec.ofNat_add] at moved
  refine ⟨after.high, ?_⟩
  rw [SharedLogger.uncounted] at offset ⊢
  linear_combination offset + new - old + moved

end SharedLogger.Positioned

/-- Where `Offset` is the end of the file. -/
theorem offset_eq_iff {size written failed uncounted : Nat} {offset : DWORD}
    (h : offset + BitVec.ofNat 32 uncounted =
      setFilePointerEnd size + BitVec.ofNat 32 (written + failed)) :
    offset.toNat = size + written ↔
      size + written < 2 ^ 32 ∧ failed % 2 ^ 32 = uncounted % 2 ^ 32 := by
  have small := offset.isLt
  by_cases short : size < 2 ^ 32
  · rw [setFilePointerEnd, if_pos short] at h
    have sums := congrArg BitVec.toNat h
    simp only [BitVec.toNat_add, BitVec.toNat_ofNat] at sums
    omega
  · constructor
    · intro eq
      omega
    · rintro ⟨short, _⟩
      omega

/-- One more successful write keeps the log append-only exactly when it is in place. -/
theorem SharedLogger.Positioned.contiguous_iff {size : Nat} {s : SharedLogger} (c : Progress)
    (inv : s.Positioned size) :
    Contiguous size ((s.logger.accepted ++ [s.logger.call c]).map WriteCall.range) ↔
      Contiguous size (s.logger.accepted.map WriteCall.range) ∧
        size + s.logger.writtenBytes < 2 ^ 32 ∧
          s.logger.failedBytes % 2 ^ 32 = s.uncounted % 2 ^ 32 := by
  have position : (s.logger.call c).position = s.logger.offset.toNat := by
    simp [WriteCall.position, Logger.call, inv.high]
  rw [List.map_append, List.map_singleton, contiguous_concat, ← offset_eq_iff inv.offset,
    ← position]
  rfl

/-- In a run of calls on any number of threads, with their statements in any order, the log
is append-only in every state reached if and only if every successful write is in place. -/
theorem shared_appendOnly_iff {size n : Nat} {registered : Bool}
    {trace : List (SharedLogger × Nat × LogEvent)} {s : SharedLogger}
    (run : Run SharedStep (.start size registered n) trace s) :
    Everywhere (fun s => AppendOnly size s.logger) trace s ↔
      Guarded (SharedInPlace size) trace := by
  refine run.everywhere_iff_guarded
    (fun s => s.Positioned size ∧ Contiguous size (s.logger.accepted.map WriteCall.range)) ?_ ?_
    ?_ ⟨.start size registered n, trivial⟩
  · rintro s ⟨i, e⟩ t ⟨inv, contiguous⟩ inPlace step
    refine ⟨inv.step step, ?_⟩
    obtain ⟨p, t, _, step, rfl⟩ := step
    cases accepted_step step with
    | inl same =>
        rw [same]
        exact contiguous
    | inr more =>
        obtain ⟨outcome, c, rfl, success, _, more⟩ := more
        rw [more]
        exact (inv.contiguous_iff c).mpr ⟨contiguous, inPlace success⟩
  · rintro s ⟨_, contiguous⟩
    exact .of_contiguous contiguous
  · rintro s ⟨i, e⟩ t ⟨inv, _⟩ step appendOnly
    cases e with
    | write outcome =>
        intro success
        obtain ⟨p, t, _, ⟨c, _, rfl⟩, rfl⟩ := step
        have contiguous : Contiguous size
            (((s.seenAt p).touch.writeFile ((s.seenAt p).call c) outcome).accepted.map
              WriteCall.range) := appendOnly.contiguous
        rw [Logger.writeFile_accepted _ _ success] at contiguous
        exact ((inv.contiguous_iff c).mp contiguous).2
    | call | overflow | fill | advance | «return» | take | complete => trivial

/-! ## Two threads -/

/-- One thread has called with the byte 65, the other one with 66. -/
def bothCalled : SharedLogger where
  logger := { Logger.init 0 true with point := .looping (oneByte 66) }
  threads := [.looping (oneByte 65), .looping (oneByte 66)]

/-- The byte 65 is in the file, and not counted. -/
def firstIssued : SharedLogger where
  logger := { firstFilled with
    point := .issued (oneByte 65)
    accepted := [oneByteCall 65]
    stored := [(oneByteCall 65, [65])] }
  threads := [.issued (oneByte 65), .looping (oneByte 66)]

/-- It has been counted. -/
def firstCounted : SharedLogger where
  logger := { firstIssued.logger with point := .looping ⟨[65], 1⟩, offset := 1 }
  threads := [.looping ⟨[65], 1⟩, .looping (oneByte 66)]

/-- The other thread fills the buffer. -/
def SharedLogger.secondFilled (s : SharedLogger) : SharedLogger where
  logger := { s.logger with
    point := .filled (oneByte 66)
    buffer := memcpy (memset s.logger.buffer 0 0 iocpBufferSize) 0 [66] }
  threads := s.threads.set 1 (.filled (oneByte 66))

/-- And writes. -/
def SharedLogger.secondIssued (s : SharedLogger) : SharedLogger where
  logger := { s.secondFilled.logger with
    point := .issued (oneByte 66)
    accepted := s.logger.accepted ++ [s.logger.call (oneByte 66)]
    stored := (s.logger.call (oneByte 66), [66]) :: s.logger.stored }
  threads := s.threads.set 1 (.issued (oneByte 66))

def firstTrace : List (SharedLogger × Nat × LogEvent) :=
  [(.start 0 true 2, 0, .call [65]),
    (⟨{ Logger.init 0 true with point := .looping (oneByte 65) },
      [.looping (oneByte 65), .idle]⟩, 1, .call [66]),
    (bothCalled, 0, .fill),
    (⟨firstFilled, [.filled (oneByte 65), .looping (oneByte 66)]⟩, 0, .write .written)]

theorem run_firstIssued : Run SharedStep (.start 0 true 2) firstTrace firstIssued := by
  have short : ∀ b : Byte, [b].length + 1 < 2 ^ 31 :=
    fun _ => Nat.lt_of_succ_lt (by decide : 3 < 2 ^ 31)
  exact .cons ⟨.idle, _, rfl, ⟨rfl, rfl, short 65, rfl⟩, rfl⟩
    (.cons ⟨.idle, _, rfl, ⟨rfl, rfl, short 66, rfl⟩, rfl⟩
      (.cons ⟨.looping (oneByte 65), _, rfl, ⟨_, rfl, Nat.zero_lt_one, rfl⟩, rfl⟩
        (.cons ⟨.filled (oneByte 65), _, rfl, ⟨_, rfl, rfl⟩, rfl⟩ (.nil _))))

theorem advance_firstIssued : SharedStep firstIssued (0, .advance) firstCounted :=
  ⟨.issued (oneByte 65), _, rfl, ⟨_, rfl, rfl⟩, rfl⟩

theorem run_secondIssued {s : SharedLogger} (here : s.threads[1]? = some (.looping (oneByte 66)))
    (settled : s.logger.pending = []) :
    Run SharedStep s [(s, 1, .fill), (s.secondFilled, 1, .write .written)] s.secondIssued := by
  obtain ⟨inside, _⟩ := List.getElem?_eq_some_iff.mp here
  have filled : s.secondFilled.threads[1]? = some (.filled (oneByte 66)) := by
    simp [SharedLogger.secondFilled, inside]
  have bytes : slice s.secondFilled.logger.buffer 0 (oneByte 66).lastWriteLen = [66] :=
    (oneByte 66).slice_fill _
  have fill : SharedStep s (1, .fill) s.secondFilled := by
    refine ⟨_, _, here, ⟨_, rfl, Nat.zero_lt_one, rfl⟩, ?_⟩
    simp [SharedLogger.secondFilled, SharedLogger.seenAt, Logger.touch, settled]
    rfl
  have write : SharedStep s.secondFilled (1, .write .written) s.secondIssued := by
    refine ⟨_, _, filled, ⟨_, rfl, rfl⟩, ?_⟩
    simpa [SharedLogger.secondIssued, SharedLogger.seenAt, Logger.writeFile, Logger.touch,
      settled, SharedLogger.secondFilled, Logger.call] using bytes.symm
  exact .cons fill (.cons write (.nil _))

/-- The other thread writes when the first byte has been counted. -/
theorem shared_appendOnly_two : ∃ trace, Run SharedStep (.start 0 true 2) trace
    firstCounted.secondIssued ∧ Everywhere (fun s => AppendOnly 0 s.logger) trace
      firstCounted.secondIssued := by
  have run := run_firstIssued.append (.cons advance_firstIssued
    (run_secondIssued (s := firstCounted) rfl rfl))
  refine ⟨_, run, (shared_appendOnly_iff run).mpr ?_⟩
  simp only [firstTrace, guarded_append, guarded_cons, guarded_nil]
  exact ⟨⟨trivial, trivial, trivial, fun _ => by decide, trivial⟩, trivial, trivial,
    fun _ => by decide, trivial⟩

/-- Otherwise it writes to the same place. -/
theorem not_shared_appendOnly : ∃ trace, Run SharedStep (.start 0 true 2) trace
    firstIssued.secondIssued ∧ ¬AppendOnly 0 firstIssued.secondIssued.logger := by
  refine ⟨_, run_firstIssued.append (run_secondIssued rfl rfl), fun appendOnly => ?_⟩
  have start : WriteCall.position (firstIssued.logger.call (oneByte 66)) = 1 :=
    appendOnly.contiguous.2.1
  exact absurd start (by decide)

end IocpTest.CLog
