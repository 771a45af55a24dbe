import IocpTest.CLog.TranceLog
import IocpTest.Data.Ranges

/-!
# Where the log is written

`Offset` starts at the end of the file and is advanced by every chunk, whether its
write succeeded or not; `OffsetHigh` stays zero. The position of a write is therefore
the initial end plus all bytes attempted so far, modulo `2 ^ 32` (`Positioned`).

`appendOnly_iff`: the successful writes follow each other from the end of the file
exactly when each of them is made below `2 ^ 32` and after no failed bytes, or a
multiple of `2 ^ 32` of them.
-/

namespace IocpTest.CLog

open StepSystem Bytes Ranges

def WriteCall.range (call : WriteCall) : Nat × Nat := (call.position, call.length)

namespace Logger

/-- The bytes of the successful writes. -/
def writtenBytes (s : Logger) : Nat := total (s.accepted.map WriteCall.range)

/-- The bytes of the failed writes. -/
def failedBytes (s : Logger) : Nat := total (s.failed.map WriteCall.range)

end Logger

/-- The successful writes start at the initial end of the file and follow each other,
so that they leave what was there, do not overlap and leave no hole. -/
structure AppendOnly (size : Nat) (s : Logger) : Prop where
  contiguous : Contiguous size (s.accepted.map WriteCall.range)
  kept : ∀ call ∈ s.accepted, size ≤ call.position
  apart : s.accepted.Pairwise fun first later => first.position + first.length ≤ later.position
  noHole : ∀ x, size ≤ x → x < size + s.writtenBytes →
    ∃ call ∈ s.accepted, call.position ≤ x ∧ x < call.position + call.length

/-- A `WriteFile` that succeeds is called when the file is shorter than `2 ^ 32` bytes
and the bytes of the writes that failed are a multiple of that. -/
def InPlace (size : Nat) (s : Logger) : LogEvent → Prop
  | .write outcome =>
      outcome ≠ .failed → size + s.writtenBytes < 2 ^ 32 ∧ s.failedBytes % 2 ^ 32 = 0
  | _ => True

theorem AppendOnly.of_contiguous {size : Nat} {s : Logger}
    (h : Contiguous size (s.accepted.map WriteCall.range)) : AppendOnly size s where
  contiguous := h
  kept := fun call hcall => h.start_le call.range (List.mem_map_of_mem hcall)
  apart := List.pairwise_map.mp h.pairwise
  noHole := by
    intro x above below
    obtain ⟨r, hr, hx⟩ := h.covers above below
    obtain ⟨call, hcall, rfl⟩ := List.mem_map.mp hr
    exact ⟨call, hcall, hx⟩

/-! ## The position of a write -/

/-- `Offset` as it will be when the chunk that is under way has been counted. -/
def Logger.nextOffset (s : Logger) : DWORD :=
  match s.point with
  | .issued c => s.offset + BitVec.ofNat 32 c.lastWriteLen
  | _ => s.offset

/-- `Offset` is the initial end of the file plus all bytes attempted so far. -/
structure Logger.Positioned (size : Nat) (s : Logger) : Prop where
  high : s.offsetHigh = 0
  offset : s.nextOffset =
    setFilePointerEnd size + BitVec.ofNat 32 (s.writtenBytes + s.failedBytes)

namespace Logger

@[simp] theorem touch_offset (s : Logger) : s.touch.offset = s.offset := rfl
@[simp] theorem touch_accepted (s : Logger) : s.touch.accepted = s.accepted := rfl
@[simp] theorem touch_failed (s : Logger) : s.touch.failed = s.failed := rfl

/-- Every `WriteFile` is counted, as written or as failed. -/
theorem bytes_writeFile (s : Logger) (call : WriteCall) (outcome : WriteOutcome) :
    (s.writeFile call outcome).writtenBytes + (s.writeFile call outcome).failedBytes =
      s.writtenBytes + s.failedBytes + call.length := by
  cases outcome <;>
    simp only [writeFile, writtenBytes, failedBytes, List.map_append, total_append, List.map_cons,
      List.map_nil, total_cons, total_nil, WriteCall.range] <;> omega

/-- A write that succeeds is remembered as such. -/
theorem writeFile_accepted (s : Logger) (call : WriteCall) {outcome : WriteOutcome}
    (success : outcome ≠ .failed) :
    (s.writeFile call outcome).accepted = s.accepted ++ [call] := by
  cases outcome with
  | written | pending => rfl
  | failed => exact absurd rfl success

theorem writeFile_high (s : Logger) (call : WriteCall) (outcome : WriteOutcome) :
    (s.writeFile call outcome).offsetHigh = s.offsetHigh := by
  cases outcome <;> rfl

theorem writeFile_offset (s : Logger) (call : WriteCall) (outcome : WriteOutcome) :
    (s.writeFile call outcome).offset = s.offset := by
  cases outcome <;> rfl

theorem Positioned.step {size : Nat} {s s' : Logger} {e : LogEvent} (inv : s.Positioned size)
    (step : LogStep s e s') : s'.Positioned size := by
  have offset := inv.offset
  rw [nextOffset] at offset
  cases e with
  | call message =>
      obtain ⟨hc, _, _, rfl⟩ := step
      rw [hc] at offset
      exact ⟨inv.high, offset⟩
  | overflow message =>
      obtain ⟨_, _, _, rfl⟩ := step
      exact inv
  | fill =>
      obtain ⟨c, hc, _, rfl⟩ := step
      rw [hc] at offset
      exact ⟨inv.high, offset⟩
  | write outcome =>
      obtain ⟨c, hc, rfl⟩ := step
      rw [hc] at offset
      have here : s.offset = setFilePointerEnd size +
        BitVec.ofNat 32 (s.writtenBytes + s.failedBytes) := offset
      refine ⟨(writeFile_high _ _ _).trans inv.high, ?_⟩
      have bytes := bytes_writeFile s.touch (s.call c) outcome
      have same := writeFile_offset s.touch (s.call c) outcome
      change (s.touch.writeFile (s.call c) outcome).offset + BitVec.ofNat 32 c.lastWriteLen =
        setFilePointerEnd size +
          BitVec.ofNat 32 ((s.touch.writeFile (s.call c) outcome).writtenBytes +
            (s.touch.writeFile (s.call c) outcome).failedBytes)
      rw [same, bytes, touch_offset, here, BitVec.ofNat_add _ (s.call c).length,
        ← BitVec.add_assoc]
      rfl
  | advance =>
      obtain ⟨c, hc, rfl⟩ := step
      rw [hc] at offset
      exact ⟨inv.high, offset⟩
  | «return» =>
      obtain ⟨c, hc, _, rfl⟩ := step
      rw [hc] at offset
      exact ⟨inv.high, offset⟩
  | take w =>
      obtain ⟨pending, _, _, rfl⟩ := step
      exact ⟨inv.high, inv.offset⟩
  | complete w bytes =>
      obtain ⟨before, after, _, _, rfl⟩ := step
      exact ⟨inv.high, inv.offset⟩

theorem Positioned.init (size : Nat) (registered : Bool) :
    (Logger.init size registered).Positioned size where
  high := rfl
  offset := (BitVec.add_zero _).symm

end Logger

/-- The initial end plus `written + failed` bytes, in 32 bits, is where the file ends
exactly when the file is short and the failed bytes do not count. -/
theorem setFilePointerEnd_add_eq_iff (size written failed : Nat) :
    (setFilePointerEnd size + BitVec.ofNat 32 (written + failed)).toNat = size + written ↔
      size + written < 2 ^ 32 ∧ failed % 2 ^ 32 = 0 := by
  have small := (setFilePointerEnd size + BitVec.ofNat 32 (written + failed)).isLt
  by_cases h : size < 2 ^ 32
  · rw [setFilePointerEnd, if_pos h] at small ⊢
    rw [BitVec.toNat_add, BitVec.toNat_ofNat, BitVec.toNat_ofNat] at small ⊢
    omega
  · constructor
    · intro eq
      omega
    · rintro ⟨short, _⟩
      omega

/-- A write is made at the end of the file exactly under the condition. -/
theorem Logger.Positioned.position_eq_iff {size : Nat} {s : Logger} {c : Progress}
    (inv : s.Positioned size) (hc : s.point = .filled c) :
    (s.call c).position = size + s.writtenBytes ↔
      size + s.writtenBytes < 2 ^ 32 ∧ s.failedBytes % 2 ^ 32 = 0 := by
  have offset := inv.offset
  rw [Logger.nextOffset, hc] at offset
  have position : (s.call c).position = s.offset.toNat := by
    rw [Logger.call, WriteCall.position, inv.high]
    exact Nat.zero_add _
  rw [position, ← setFilePointerEnd_add_eq_iff, ← offset]

/-! ## Runs -/

/-- A step other than a successful write adds no range. -/
theorem accepted_step {s s' : Logger} {e : LogEvent} (step : LogStep s e s') :
    s'.accepted = s.accepted ∨ ∃ outcome c, e = .write outcome ∧ outcome ≠ .failed ∧
      s.point = .filled c ∧ s'.accepted = s.accepted ++ [s.call c] := by
  cases e with
  | write outcome =>
      obtain ⟨c, hc, rfl⟩ := step
      cases outcome with
      | written => exact .inr ⟨_, c, rfl, by decide, hc, rfl⟩
      | pending => exact .inr ⟨_, c, rfl, by decide, hc, rfl⟩
      | failed => exact .inl rfl
  | call message | overflow message =>
      obtain ⟨_, _, _, rfl⟩ := step
      exact .inl rfl
  | fill =>
      obtain ⟨c, _, _, rfl⟩ := step
      exact .inl rfl
  | advance =>
      obtain ⟨c, _, rfl⟩ := step
      exact .inl rfl
  | «return» =>
      obtain ⟨c, _, _, rfl⟩ := step
      exact .inl rfl
  | take w =>
      obtain ⟨pending, _, _, rfl⟩ := step
      exact .inl rfl
  | complete w bytes =>
      obtain ⟨before, after, _, _, rfl⟩ := step
      exact .inl rfl

/-- One more successful write keeps the log append-only exactly when it is in place. -/
theorem contiguous_call_iff {size : Nat} {s : Logger} {c : Progress} (inv : s.Positioned size)
    (hc : s.point = .filled c) :
    Contiguous size ((s.accepted ++ [s.call c]).map WriteCall.range) ↔
      Contiguous size (s.accepted.map WriteCall.range) ∧
        size + s.writtenBytes < 2 ^ 32 ∧ s.failedBytes % 2 ^ 32 = 0 := by
  rw [List.map_append, List.map_singleton, contiguous_concat]
  exact and_congr_right fun _ => inv.position_eq_iff hc

/-- In a run of any number of calls on a file of any size the log is append-only in
every state reached if and only if every successful write is in place. -/
theorem appendOnly_iff {size : Nat} {registered : Bool} {trace : List (Logger × LogEvent)}
    {s : Logger} (run : Run LogStep (Logger.init size registered) trace s) :
    Everywhere (AppendOnly size) trace s ↔ Guarded (InPlace size) trace := by
  refine run.everywhere_iff_guarded
    (fun s => s.Positioned size ∧ Contiguous size (s.accepted.map WriteCall.range)) ?_ ?_ ?_
    ⟨.init size registered, trivial⟩
  · rintro s e t ⟨inv, contiguous⟩ inPlace step
    refine ⟨inv.step step, ?_⟩
    cases accepted_step step with
    | inl same =>
        rw [same]
        exact contiguous
    | inr more =>
        obtain ⟨outcome, c, rfl, success, hc, more⟩ := more
        rw [more]
        exact (contiguous_call_iff inv hc).mpr ⟨contiguous, inPlace success⟩
  · rintro s ⟨_, contiguous⟩
    exact .of_contiguous contiguous
  · rintro s e t ⟨inv, _⟩ step appendOnly
    cases e with
    | write outcome =>
        intro success
        obtain ⟨c, hc, rfl⟩ := step
        have contiguous : Contiguous size
            ((s.touch.writeFile (s.call c) outcome).accepted.map WriteCall.range) :=
          appendOnly.contiguous
        rw [Logger.writeFile_accepted _ _ success] at contiguous
        exact ((contiguous_call_iff inv hc).mp contiguous).2
    | call | overflow | fill | advance | «return» | take | complete => trivial

/-! ## Messages of one byte -/

/-- Two bytes are logged behind three others. -/
theorem appendOnly_twoBytes : ∃ trace s, Run LogStep (Logger.init 3 true) trace s ∧
    s.accepted = [⟨3, 0, 1, [65]⟩, ⟨4, 0, 1, [66]⟩] ∧ Everywhere (AppendOnly 3) trace s := by
  have first := run_logByte (s := Logger.init 3 true) rfl rfl rfl 65
  have second := run_logByte (s := (Logger.init 3 true).logByte 65) rfl rfl rfl 66
  have run := first.append second
  refine ⟨_, _, run, rfl, (appendOnly_iff run).mpr ?_⟩
  simp only [Logger.byteTrace, guarded_append, guarded_cons, guarded_nil, InPlace, true_and,
    and_true]
  exact ⟨fun _ => by decide, fun _ => by decide⟩

/-- After a failed write of one byte the next message begins at position 1. -/
theorem not_appendOnly : ¬∀ (size : Nat) (registered : Bool) (trace : List (Logger × LogEvent))
    (s : Logger), Run LogStep (Logger.init size registered) trace s →
      Everywhere (AppendOnly size) trace s := by
  intro all
  let refused : Logger :=
    { firstFilled with point := .issued (oneByte 65), failed := [oneByteCall 65] }
  let advanced : Logger := { refused with point := .looping ⟨[65], 1⟩, offset := 1 }
  let again : Logger :=
    { advanced with
      point := .filled (oneByte 66)
      buffer := memcpy (memset firstFilled.buffer 0 0 iocpBufferSize) 0 [66] }
  have write : LogStep firstFilled (.write .failed) refused := ⟨oneByte 65, rfl, rfl⟩
  have advance : LogStep refused .advance advanced := ⟨oneByte 65, rfl, rfl⟩
  have back : LogStep advanced .return { advanced with point := .idle } :=
    ⟨⟨[65], 1⟩, rfl, Nat.lt_irrefl 1, rfl⟩
  have next : Run LogStep { advanced with point := .idle } _ again := run_fill rfl rfl 66
  have second : LogStep again (.write .written)
      { again with
        point := .issued (oneByte 66)
        accepted := [⟨1, 0, 1, [66]⟩]
        stored := [(⟨1, 0, 1, [66]⟩, [66])] } := ⟨oneByte 66, rfl, rfl⟩
  have safe := all 0 true _ _ ((run_firstFilled.append (.cons write (.cons advance
    (.cons back next)))).append (.cons second (.nil _)))
  have start : WriteCall.position ⟨1, 0, 1, [66]⟩ = 0 := safe.2.contiguous.1
  exact absurd start (by decide)

end IocpTest.CLog
