import IocpTest.CLog.Append
import IocpTest.CLog.PendingWrites

/-!
# The file that the logger leaves

`Logger.file` is the content of the file: what was there, with every completed write at its
position. Whoever reads the log expects the old content and behind it all messages in the
order of their calls. `log_appends` says when that is what the logger leaves: no write
fails, `Offset` is advanced with nothing pending, and the file stays below `2 ^ 32` bytes.
-/

namespace IocpTest.CLog

open StepSystem Bytes Ranges

/-- A file after a write. A position behind the end leaves a hole of zeros. -/
def writeAt (file : List Byte) (position : Nat) (bytes : List Byte) : List Byte :=
  let padded := file ++ List.replicate (position - file.length) 0
  padded.take position ++ bytes ++ padded.drop (position + bytes.length)

theorem writeAt_end (file bytes : List Byte) : writeAt file file.length bytes = file ++ bytes := by
  simp [writeAt]

/-- The content of the file. The writes that are in it are kept with the latest first. -/
def Logger.file (s : Logger) (initial : List Byte) : List Byte :=
  s.stored.foldr (fun w file => writeAt file w.1.position w.2) initial

/-- The message of a call that gets as far as the loop. -/
def LogEvent.messages : LogEvent → List (List Byte)
  | .call message => [message]
  | _ => []

/-- The chunk for which `WriteFile` is called. -/
def Logger.handed (s : Logger) : LogEvent → List (List Byte)
  | .write _ =>
      match s.point with
      | .filled c => [c.chunk]
      | _ => []
  | _ => []

/-- The messages of the calls, in their order. -/
def logged (trace : List (Logger × LogEvent)) : List (List Byte) :=
  trace.flatMap fun taken => taken.2.messages

/-- The chunks that are handed to `WriteFile`, in their order. -/
def handedOver (trace : List (Logger × LogEvent)) : List (List Byte) :=
  trace.flatMap fun taken => taken.1.handed taken.2

/-- No write fails or goes behind `2 ^ 32`, and `Offset` waits for the write before. -/
def Orderly (size : Nat) (s : Logger) : LogEvent → Prop
  | .write outcome => outcome ≠ .failed ∧ size + s.writtenBytes < 2 ^ 32
  | .advance => s.pending = []
  | _ => True

/-- What is left of the message under way. -/
def LogPoint.remaining : LogPoint → List Byte
  | .idle => []
  | .looping c => c.message.drop c.writenLen
  | .filled c => c.message.drop c.writenLen
  | .issued c => c.message.drop (c.writenLen + c.lastWriteLen)

/-- The chunks of the writes that succeeded or are pending. -/
def Logger.chunks (s : Logger) : List (List Byte) := s.accepted.map WriteCall.chunk

theorem Progress.chunk_append (c : Progress) :
    c.chunk ++ c.message.drop (c.writenLen + c.lastWriteLen) = c.message.drop c.writenLen := by
  rw [Progress.chunk, ← List.drop_drop, List.take_append_drop]

/-- A message is handed over or left, byte for byte. -/
theorem LogStep.remaining {s s' : Logger} {e : LogEvent} (step : LogStep s e s') :
    (s.handed e).flatten ++ s'.point.remaining = s.point.remaining ++ e.messages.flatten := by
  cases e with
  | call message =>
      obtain ⟨here, _, _, rfl⟩ := step
      simp [Logger.handed, LogPoint.remaining, here, LogEvent.messages]
  | overflow message =>
      obtain ⟨_, _, _, rfl⟩ := step
      simp [Logger.handed, LogEvent.messages]
  | fill =>
      obtain ⟨c, here, _, rfl⟩ := step
      simp [Logger.handed, LogPoint.remaining, here, LogEvent.messages]
  | write outcome =>
      obtain ⟨c, here, rfl⟩ := step
      simp [Logger.handed, LogPoint.remaining, here, LogEvent.messages, c.chunk_append]
  | advance =>
      obtain ⟨c, here, rfl⟩ := step
      simp [Logger.handed, LogPoint.remaining, here, LogEvent.messages, Progress.lastWriteLen]
  | «return» =>
      obtain ⟨c, here, done, rfl⟩ := step
      simp [Logger.handed, LogPoint.remaining, here, LogEvent.messages, Nat.not_lt.mp done]
  | take w =>
      obtain ⟨pending, _, _, rfl⟩ := step
      simp [Logger.handed, LogEvent.messages]
  | complete w bytes =>
      obtain ⟨before, after, _, _, rfl⟩ := step
      simp [Logger.handed, LogEvent.messages]

/-- Without failures what is handed over is accepted. -/
theorem LogStep.chunks {size : Nat} {s s' : Logger} {e : LogEvent} (step : LogStep s e s')
    (orderly : Orderly size s e) : s'.chunks = s.chunks ++ s.handed e := by
  cases e with
  | write outcome =>
      obtain ⟨c, here, rfl⟩ := step
      have accepted := Logger.writeFile_accepted s.touch (s.call c) orderly.1
      simp only [Logger.chunks, Logger.handed, here, accepted, List.map_append]
      rfl
  | call message | overflow message =>
      obtain ⟨_, _, _, rfl⟩ := step
      simp [Logger.chunks, Logger.handed]
  | fill | advance =>
      obtain ⟨c, h⟩ := step
      simp [Logger.chunks, Logger.handed, h]
  | «return» =>
      obtain ⟨c, _, _, rfl⟩ := step
      simp [Logger.chunks, Logger.handed]
  | take w =>
      obtain ⟨pending, _, _, rfl⟩ := step
      simp [Logger.chunks, Logger.handed]
  | complete w bytes =>
      obtain ⟨before, after, _, _, rfl⟩ := step
      simp [Logger.chunks, Logger.handed]

theorem run_chunks {size : Nat} {s s' : Logger} {trace : List (Logger × LogEvent)}
    (run : Run LogStep s trace s') (orderly : Guarded (Orderly size) trace) :
    s'.chunks = s.chunks ++ handedOver trace := by
  have all := run.flatMap_balance (fun _ _ => []) Logger.handed Logger.chunks (fun _ => True)
    (fun _ _ _ _ _ _ => trivial) (fun _ _ _ _ here step => step.chunks here) trivial orderly
  have none : (trace.flatMap fun _ => ([] : List (List Byte))) = [] := by simp
  simpa only [none, List.nil_append, handedOver] using all

theorem run_bytes {s s' : Logger} {trace : List (Logger × LogEvent)}
    (run : Run LogStep s trace s') :
    (handedOver trace).flatten ++ s'.point.remaining =
      s.point.remaining ++ (logged trace).flatten :=
  run.flatten_balance Logger.handed (fun _ e => e.messages) (fun s => s.point.remaining)
    fun _ _ _ step => step.remaining

/-! ## The content -/

/-- All writes that have been accepted are in the file, but the one that is pending, and the
file ends where they end. -/
structure Logger.InFile (initial : List Byte) (s : Logger) : Prop where
  settled : s.Settled
  positioned : s.Positioned initial.length
  contiguous : Contiguous initial.length (s.accepted.map WriteCall.range)
  failed : s.failed = []
  sized : ∀ call ∈ s.accepted, call.chunk.length = call.length
  few : s.pending.length ≤ 1
  order : s.stored.reverse.map Prod.fst ++ s.pending.map PendingWrite.call = s.accepted
  content : s.file initial =
    initial ++ ((s.stored.reverse.map Prod.fst).map WriteCall.chunk).flatten

namespace Logger.InFile

variable {initial : List Byte} {s s' : Logger}

theorem length_content {calls : List WriteCall}
    (sized : ∀ call ∈ calls, call.chunk.length = call.length) :
    (calls.map WriteCall.chunk).flatten.length = total (calls.map WriteCall.range) := by
  rw [List.length_flatten, total, List.map_map, List.map_map]
  congr 1
  apply List.map_congr_left
  exact sized

/-- A write that comes into the file is the next one. -/
theorem file_append (calls : List WriteCall) {call : WriteCall}
    (contiguous : Contiguous initial.length ((calls ++ [call]).map WriteCall.range))
    (sized : ∀ call ∈ calls, call.chunk.length = call.length) :
    writeAt (initial ++ (calls.map WriteCall.chunk).flatten) call.position call.chunk =
      initial ++ ((calls ++ [call]).map WriteCall.chunk).flatten := by
  rw [List.map_append, List.map_singleton, contiguous_concat] at contiguous
  have position : call.position = (initial ++ (calls.map WriteCall.chunk).flatten).length := by
    rw [List.length_append, length_content sized]
    exact contiguous.2
  rw [position, writeAt_end]
  simp

theorem init (initial : List Byte) (registered : Bool) :
    (Logger.init initial.length registered).InFile initial where
  settled := settled_init _ _
  positioned := .init _ _
  contiguous := trivial
  failed := rfl
  sized := by simp [Logger.init]
  few := Nat.zero_le 1
  order := by simp [Logger.init]
  content := by simp [Logger.init, Logger.file]

/-- A step that neither calls `WriteFile` nor completes a write. -/
theorem quiet (inFile : s.InFile initial) (settled : s'.Settled)
    (positioned : s'.Positioned initial.length) (accepted : s'.accepted = s.accepted)
    (failed : s'.failed = s.failed) (stored : s'.stored = s.stored)
    (pending : s'.pending.map PendingWrite.call = s.pending.map PendingWrite.call) :
    s'.InFile initial := by
  have same : s'.file initial = s.file initial := by rw [Logger.file, stored, Logger.file]
  refine ⟨settled, positioned, ?_, failed.trans inFile.failed, ?_, ?_, ?_, ?_⟩
  · simpa only [accepted] using inFile.contiguous
  · simpa only [accepted] using inFile.sized
  · have length := congrArg List.length pending
    simp only [List.length_map] at length
    exact length ▸ inFile.few
  · simpa only [accepted, stored, pending] using inFile.order
  · simpa only [same, stored] using inFile.content

/-- The stored writes come first among the accepted ones. -/
theorem sized_stored (inFile : s.InFile initial) :
    ∀ call ∈ s.stored.reverse.map Prod.fst, call.chunk.length = call.length := by
  intro call member
  apply inFile.sized
  rw [← inFile.order]
  exact List.mem_append_left _ member

theorem write {outcome : WriteOutcome} (inFile : s.InFile initial)
    (orderly : Orderly initial.length s (.write outcome)) (step : LogStep s (.write outcome) s') :
    s'.InFile initial := by
  have settled := inFile.settled.write step
  have positioned := inFile.positioned.step step
  obtain ⟨c, here, rfl⟩ := step
  have none : s.pending = [] := inFile.settled.pending_eq_nil (by rw [here]; simp)
  have order : s.stored.reverse.map Prod.fst = s.accepted := by
    simpa only [none, List.map_nil, List.append_nil] using inFile.order
  have failed : s.failedBytes % 2 ^ 32 = 0 := by
    rw [Logger.failedBytes, inFile.failed]
    rfl
  have contiguous : Contiguous initial.length ((s.accepted ++ [s.call c]).map WriteCall.range) :=
    (contiguous_call_iff inFile.positioned here).mpr ⟨inFile.contiguous, orderly.2, failed⟩
  have sized : ∀ call ∈ s.accepted ++ [s.call c], call.chunk.length = call.length := by
    rw [List.forall_mem_append]
    exact ⟨inFile.sized, List.forall_mem_singleton.mpr c.length_chunk⟩
  cases outcome with
  | failed => exact absurd rfl orderly.1
  | pending =>
      refine ⟨settled, positioned, contiguous, inFile.failed, sized, ?_, ?_, inFile.content⟩
      · simp [Logger.writeFile, Logger.touch, none]
      · simp [Logger.writeFile, Logger.touch, none, order]
  | written =>
      have bytes : slice s.buffer 0 c.lastWriteLen = c.chunk :=
        inFile.settled.buffered c (.inl here)
      refine ⟨settled, positioned, contiguous, inFile.failed, sized, ?_, ?_, ?_⟩
      · simp [Logger.writeFile, Logger.touch, none]
      · simp [Logger.writeFile, Logger.touch, none, order]
      · have content := inFile.content
        rw [order] at content
        have more : writeAt (s.file initial) (s.call c).position c.chunk =
            initial ++ ((s.accepted ++ [s.call c]).map WriteCall.chunk).flatten :=
          content ▸ file_append s.accepted contiguous inFile.sized
        change writeAt (s.file initial) (s.call c).position
          (slice s.buffer 0 c.lastWriteLen) = _
        rw [bytes, more]
        simp [order, Logger.writeFile, Logger.touch]

theorem complete {w : PendingWrite} {bytes : List Byte} (inFile : s.InFile initial)
    (step : LogStep s (.complete w bytes) s') : s'.InFile initial := by
  have settled := inFile.settled.complete step
  have positioned := inFile.positioned.step step
  obtain ⟨before, after, pending, taken, rfl⟩ := step
  have few := inFile.few
  have only : before = [] ∧ after = [] := by
    rw [pending, List.length_append, List.length_cons] at few
    exact ⟨List.eq_nil_of_length_eq_zero (by omega), List.eq_nil_of_length_eq_zero (by omega)⟩
  obtain ⟨rfl, rfl⟩ := only
  have chunk : bytes = w.call.chunk :=
    inFile.settled.taken w (by rw [pending]; exact List.mem_cons_self) bytes taken
  have order : s.stored.reverse.map Prod.fst ++ [w.call] = s.accepted := by
    simpa only [pending, List.nil_append, List.map_cons, List.map_nil] using inFile.order
  have contiguous := inFile.contiguous
  rw [← order] at contiguous
  refine ⟨settled, positioned, inFile.contiguous, inFile.failed, inFile.sized, Nat.zero_le 1,
    ?_, ?_⟩
  · simpa using order
  · have more := file_append _ contiguous inFile.sized_stored
    change writeAt (s.file initial) w.call.position bytes = _
    rw [inFile.content, chunk]
    simpa using more

theorem settledAtAdvance {size : Nat} {e : LogEvent} (orderly : Orderly size s e) :
    SettledAtAdvance s e := by
  cases e with
  | advance => exact orderly
  | call | overflow | fill | write | «return» | take | complete => trivial

theorem step {e : LogEvent} (inFile : s.InFile initial) (orderly : Orderly initial.length s e)
    (step : LogStep s e s') : s'.InFile initial := by
  have settled := inFile.settled.step (settledAtAdvance orderly) step
  have positioned := inFile.positioned.step step
  cases e with
  | write outcome => exact inFile.write orderly step
  | complete w bytes => exact inFile.complete step
  | call message | overflow message =>
      obtain ⟨_, _, _, rfl⟩ := step
      exact inFile.quiet settled positioned rfl rfl rfl rfl
  | fill =>
      obtain ⟨c, _, _, rfl⟩ := step
      exact inFile.quiet settled positioned rfl rfl rfl rfl
  | advance =>
      obtain ⟨c, _, rfl⟩ := step
      exact inFile.quiet settled positioned rfl rfl rfl rfl
  | «return» =>
      obtain ⟨c, _, _, rfl⟩ := step
      exact inFile.quiet settled positioned rfl rfl rfl rfl
  | take w =>
      obtain ⟨pending, moves, _, rfl⟩ := step
      exact inFile.quiet settled positioned rfl rfl rfl (moves.map_eq rfl)

/-- The file with the write that is pending. -/
theorem file_pending (inFile : s.InFile initial) :
    s.file initial ++ (s.pending.map fun w => w.call.chunk).flatten =
      initial ++ s.chunks.flatten := by
  rw [inFile.content, Logger.chunks, ← inFile.order]
  simp [Function.comp_def]

end Logger.InFile

/-! ## The runs -/

/-- In every orderly run on a file with any content, of any messages, the file is at any time
the old content and a first part of the messages: what is missing is in the pending write
or has still to be cut off. Between two calls, the file is the old content and all
messages. -/
theorem log_appends {initial : List Byte} {registered : Bool}
    {trace : List (Logger × LogEvent)} {s : Logger}
    (run : Run LogStep (Logger.init initial.length registered) trace s)
    (orderly : Guarded (Orderly initial.length) trace) :
    s.file initial ++ (s.pending.map fun w => w.call.chunk).flatten ++ s.point.remaining =
        initial ++ (logged trace).flatten ∧
      (s.point = .idle → s.file initial = initial ++ (logged trace).flatten) := by
  have inFile := (run.everywhere_of_guarded (Logger.InFile initial)
    (fun _ _ _ inv ok step => inv.step ok step) (fun _ inv => inv) (.init _ _) orderly).2
  have chunks : s.chunks = handedOver trace := run_chunks run orderly
  have bytes : (handedOver trace).flatten ++ s.point.remaining = (logged trace).flatten :=
    run_bytes run
  have all : s.file initial ++ (s.pending.map fun w => w.call.chunk).flatten ++
      s.point.remaining = initial ++ (logged trace).flatten := by
    rw [inFile.file_pending, chunks, ← bytes, List.append_assoc]
  refine ⟨all, fun idle => ?_⟩
  have none : s.pending = [] := inFile.settled.pending_eq_nil (by rw [idle]; simp)
  simpa [none, idle, LogPoint.remaining] using all

/-- Two bytes are logged into a file of three. -/
theorem log_appends_twoBytes : ∃ trace s, Run LogStep (Logger.init 3 true) trace s ∧
    logged trace = [[65], [66]] ∧ s.point = .idle ∧ s.file [1, 2, 3] = [1, 2, 3, 65, 66] := by
  have first := run_logByte (s := Logger.init 3 true) rfl rfl rfl 65
  have second := run_logByte (s := (Logger.init 3 true).logByte 65) rfl rfl rfl 66
  have run : Run LogStep (Logger.init ([1, 2, 3] : List Byte).length true) _ _ :=
    first.append second
  refine ⟨_, _, run, rfl, rfl, (log_appends run ?_).2 rfl⟩
  simp only [Logger.byteTrace, guarded_append, guarded_cons, guarded_nil, Orderly, true_and,
    and_true]
  exact ⟨⟨⟨by decide, by decide⟩, rfl⟩, ⟨by decide, by decide⟩, rfl⟩

end IocpTest.CLog
