import IocpTest.CLog.File
import IocpTest.CLog.Shared

/-!
# The messages of all threads

If the threads take turns with whole chunks, from `memcpy` to the advance of `Offset`, what
they do to the file is what one thread would do that logs the chunks as messages
(`SharedLogger.InFile`). `log_shuffles`: the file then has every message of every thread, those
of one thread in their order, and a message of at most `IOCP_BUFFER_SIZE` bytes in one piece.
-/

namespace IocpTest.CLog

open StepSystem Bytes

/-- A chunk is in the buffer or issued, and not counted. -/
def LogPoint.inside : LogPoint → Bool
  | .filled _ | .issued _ => true
  | _ => false

namespace SharedLogger

/-- The threads with a chunk under way. -/
def inside (s : SharedLogger) : List LogPoint := s.threads.filter LogPoint.inside

/-- The logger as this thread sees it. -/
def view (s : SharedLogger) (i : Nat) : Logger := s.seenAt (s.threads[i]?.getD .idle)

theorem view_eq {s : SharedLogger} {i : Nat} {p : LogPoint} (here : s.threads[i]? = some p) :
    s.view i = s.seenAt p := by
  simp [view, here]

end SharedLogger

/-- The run is orderly, and a chunk is put into the buffer when no other is under way. -/
def InTurn (size : Nat) (s : SharedLogger) (e : Nat × LogEvent) : Prop :=
  Orderly size s.logger e.2 ∧ (e.2 = .fill → s.inside = [])

/-- The chunks handed to `WriteFile` and the threads they come from, in their order. -/
def chunks (trace : List (SharedLogger × Nat × LogEvent)) : List (Nat × List Byte) :=
  trace.flatMap fun taken =>
    ((taken.1.view taken.2.1).handed taken.2.2).map fun chunk => (taken.2.1, chunk)

def chunksOf (i : Nat) (trace : List (SharedLogger × Nat × LogEvent)) : List (List Byte) :=
  ((chunks trace).filter fun chunk => chunk.1 = i).map Prod.snd

def messagesOf (i : Nat) (trace : List (SharedLogger × Nat × LogEvent)) : List (List Byte) :=
  trace.flatMap fun taken => if taken.2.1 = i then taken.2.2.messages else []

/-! ## One thread for all -/

/-- The chunk as a message of its own. -/
def Progress.single (c : Progress) : Progress := ⟨c.chunk, 0⟩

@[simp] theorem Progress.single_lastWriteLen (c : Progress) :
    c.single.lastWriteLen = c.lastWriteLen := by
  have short := c.lastWriteLen_le.2
  simp only [lastWriteLen, single, length_chunk, Nat.sub_zero] at short ⊢
  split at short <;> split <;> omega

@[simp] theorem Progress.single_chunk (c : Progress) : c.single.chunk = c.chunk := by
  rw [chunk, single_lastWriteLen]
  exact List.take_of_length_le (Nat.le_of_eq c.length_chunk)

/-- Where the one thread stands for a thread with a chunk under way. -/
def LogPoint.single : LogPoint → LogPoint
  | .filled c => .filled c.single
  | .issued c => .issued c.single
  | _ => .idle

/-- At most one chunk is under way, and the file is as if it were a message on its own. -/
structure SharedLogger.InFile (initial : List Byte) (s : SharedLogger) : Prop where
  opened : ∀ p ∈ s.threads, p ≠ .idle → s.logger.bOpened = true
  alone : s.inside = [] ∧ (s.seenAt .idle).InFile initial ∨
    ∃ p, s.inside = [p] ∧ (s.seenAt p.single).InFile initial

/-- Nobody is under way in a logger that is not open. -/
theorem LogStep.opened {s s' : Logger} {e : LogEvent} (step : LogStep s e s')
    (opened : s.point ≠ .idle → s.bOpened = true) :
    s'.bOpened = s.bOpened ∧ (s'.point ≠ .idle → s.bOpened = true) := by
  cases e with
  | call message =>
      obtain ⟨_, here, _, rfl⟩ := step
      exact ⟨rfl, fun _ => here⟩
  | overflow message =>
      obtain ⟨_, _, _, rfl⟩ := step
      exact ⟨rfl, opened⟩
  | fill =>
      obtain ⟨c, here, _, rfl⟩ := step
      exact ⟨rfl, fun _ => opened (by simp [here])⟩
  | write outcome =>
      obtain ⟨c, here, rfl⟩ := step
      exact ⟨by cases outcome <;> rfl, fun _ => opened (by simp [here])⟩
  | advance =>
      obtain ⟨c, here, rfl⟩ := step
      exact ⟨rfl, fun _ => opened (by simp [here])⟩
  | «return» =>
      obtain ⟨c, _, _, rfl⟩ := step
      exact ⟨rfl, fun busy => absurd rfl busy⟩
  | take w =>
      obtain ⟨pending, _, _, rfl⟩ := step
      exact ⟨rfl, opened⟩
  | complete w bytes =>
      obtain ⟨before, after, _, _, rfl⟩ := step
      exact ⟨rfl, opened⟩

namespace SharedLogger.InFile

variable {initial : List Byte} {s s' : SharedLogger}

theorem start (initial : List Byte) (registered : Bool) (n : Nat) :
    (SharedLogger.start initial.length registered n).InFile initial where
  opened := by simp [SharedLogger.start]
  alone := by
    have none : (SharedLogger.start initial.length registered n).inside = [] := by
      simp [SharedLogger.start, SharedLogger.inside, LogPoint.inside]
    exact .inl ⟨none, .init initial registered⟩

/-- The chunk that is under way is this one. -/
theorem alone_of_mem (inFile : s.InFile initial) {p : LogPoint} (here : p ∈ s.threads)
    (inside : p.inside = true) : s.inside = [p] ∧ (s.seenAt p.single).InFile initial := by
  have member : p ∈ s.inside := List.mem_filter.mpr ⟨here, inside⟩
  rcases inFile.alone with ⟨none, _⟩ | ⟨q, one, alone⟩
  · simp [none] at member
  · obtain rfl : p = q := by simpa [one] using member
    exact ⟨one, alone⟩

theorem alone_of_eq (inFile : s.InFile initial) (same : s'.inside = s.inside)
    (keep : ∀ p, (s.seenAt p).InFile initial → (s'.seenAt p).InFile initial) :
    s'.inside = [] ∧ (s'.seenAt .idle).InFile initial ∨
      ∃ p, s'.inside = [p] ∧ (s'.seenAt p.single).InFile initial := by
  rw [same]
  exact inFile.alone.imp (And.imp_right (keep _)) fun ⟨p, one, alone⟩ => ⟨p, one, keep _ alone⟩

theorem fill {i : Nat} {c : Progress} (inFile : s.InFile initial) (none : s.inside = [])
    (here : s.threads[i]? = some (.looping c)) (more : c.writenLen < c.message.length) :
    (SharedLogger.seenAt
      ⟨{ (s.seenAt (.looping c)).touch with
          point := .filled c
          buffer := memcpy (memset s.logger.buffer 0 0 iocpBufferSize) 0 c.chunk },
        s.threads.set i (.filled c)⟩ (.filled c.single)).InFile initial := by
  have alone : (s.seenAt .idle).InFile initial := by
    rcases inFile.alone with ⟨_, alone⟩ | ⟨p, one, _⟩
    · exact alone
    · simp [none] at one
  have opened : s.logger.bOpened = true :=
    inFile.opened _ (List.mem_of_getElem? here) (by simp)
  have positive : 0 < c.chunk.length := by
    rw [c.length_chunk, Progress.lastWriteLen]
    have size : 0 < iocpBufferSize := by decide
    split <;> omega
  have short : c.chunk.length + 1 < 2 ^ 31 := by
    have small : iocpBufferSize + 1 < 2 ^ 31 := by decide
    have le := c.lastWriteLen_le.2
    rw [c.length_chunk]
    omega
  -- the one thread is called with the chunk
  have call : LogStep (s.seenAt .idle) (.call c.chunk) (s.seenAt (.looping c.single)) :=
    ⟨rfl, opened, short, rfl⟩
  have fill : LogStep (s.seenAt (.looping c.single)) .fill _ := ⟨c.single, rfl, positive, rfl⟩
  have after := (alone.step (e := .call c.chunk) trivial call).step (e := .fill) trivial fill
  rw [c.single_chunk] at after
  exact after

theorem step {e : Nat × LogEvent} (inFile : s.InFile initial)
    (turn : InTurn initial.length s e) (step : SharedStep s e s') : s'.InFile initial := by
  obtain ⟨i, e⟩ := e
  obtain ⟨p, t, here, step, rfl⟩ := step
  have member := List.mem_of_getElem? here
  have moves := moves_set here t.point
  obtain ⟨same, opened⟩ := step.opened (inFile.opened p member)
  refine ⟨?_, ?_⟩
  · change ∀ q ∈ s.threads.set i t.point, q ≠ .idle → t.bOpened = true
    rw [same]
    exact moves.forall_mem inFile.opened opened
  · cases e with
    | call message =>
        obtain ⟨idle, _, _, rfl⟩ := step
        obtain rfl : p = .idle := idle
        exact inFile.alone_of_eq (moves.filter_eq rfl rfl) fun _ alone => alone
    | overflow message =>
        obtain ⟨_, _, _, rfl⟩ := step
        exact inFile.alone_of_eq (congrArg (List.filter _) (set_self here)) fun _ alone => alone
    | fill =>
        obtain ⟨c, looping, more, rfl⟩ := step
        obtain rfl : p = .looping c := looping
        have none : s.inside = [] := turn.2 rfl
        exact .inr ⟨.filled c, moves.filter_singleton none, inFile.fill none here more⟩
    | write outcome =>
        obtain ⟨c, filled, rfl⟩ := step
        obtain rfl : p = .filled c := filled
        obtain ⟨one, alone⟩ := inFile.alone_of_mem member rfl
        have write : LogStep (s.seenAt (.filled c.single)) (.write outcome) _ :=
          ⟨c.single, rfl, rfl⟩
        have after := alone.step (e := .write outcome) turn.1 write
        refine .inr ⟨.issued c, moves.filter_singleton one, ?_⟩
        rw [Logger.call, c.single_lastWriteLen, c.single_chunk] at after
        cases outcome <;> exact after
    | advance =>
        obtain ⟨c, issued, rfl⟩ := step
        obtain rfl : p = .issued c := issued
        obtain ⟨one, alone⟩ := inFile.alone_of_mem member rfl
        have advance : LogStep (s.seenAt (.issued c.single)) .advance _ := ⟨c.single, rfl, rfl⟩
        have past := alone.step (e := .advance) turn.1 advance
        -- all of its message is counted, and it returns
        let counted : Progress := ⟨c.chunk, 0 + c.single.lastWriteLen⟩
        have done : ¬counted.writenLen < counted.message.length := by simp [counted]
        have after := past.step (e := .return) trivial ⟨counted, rfl, done, rfl⟩
        rw [c.single_lastWriteLen] at after
        exact .inl ⟨moves.filter_singleton one, after⟩
    | «return» =>
        obtain ⟨c, looping, _, rfl⟩ := step
        obtain rfl : p = .looping c := looping
        exact inFile.alone_of_eq (moves.filter_eq rfl rfl) fun _ alone => alone
    | take w =>
        obtain ⟨pending, taken, fresh, rfl⟩ := step
        refine inFile.alone_of_eq (congrArg (List.filter _) (set_self here)) fun q alone => ?_
        have take : LogStep (s.seenAt q) (.take w) _ := ⟨pending, taken, fresh, rfl⟩
        exact alone.step (e := .take w) trivial take
    | complete w bytes =>
        obtain ⟨before, after, pending, taken, rfl⟩ := step
        refine inFile.alone_of_eq (congrArg (List.filter _) (set_self here)) fun q alone => ?_
        have complete : LogStep (s.seenAt q) (.complete w bytes) _ :=
          ⟨before, after, pending, taken, rfl⟩
        exact alone.step (e := .complete w bytes) trivial complete

end SharedLogger.InFile

/-! ## One thread among the others -/

section

variable {s s' : SharedLogger} {e : Nat × LogEvent} (i : Nat)

/-- What the thread `i` hands over in a step. -/
def handedBy (s : SharedLogger) (e : Nat × LogEvent) : List (List Byte) :=
  if e.1 = i then (s.view i).handed e.2 else []

theorem chunksOf_eq (trace : List (SharedLogger × Nat × LogEvent)) :
    chunksOf i trace = trace.flatMap fun taken => handedBy i taken.1 taken.2 := by
  rw [chunksOf, chunks, List.filter_flatMap, List.map_flatMap]
  congr 1
  funext taken
  rw [handedBy]
  split
  · next own =>
      rw [own]
      simp [List.filter_map, Function.comp_def]
  · next other => simp [other]

/-- A step of another thread leaves this one where it is. -/
theorem SharedStep.view_cases (step : SharedStep s e s') :
    e.1 = i ∧ LogStep (s.view i) e.2 (s'.view i) ∨
      e.1 ≠ i ∧ (s'.view i).point = (s.view i).point := by
  obtain ⟨p, t, here, step, rfl⟩ := step
  by_cases own : e.1 = i
  · subst own
    obtain ⟨inside, _⟩ := List.getElem?_eq_some_iff.mp here
    have after : (s.threads.set e.1 t.point)[e.1]? = some t.point := by simp [inside]
    rw [SharedLogger.view_eq here, SharedLogger.view_eq after]
    exact .inl ⟨rfl, step⟩
  · refine .inr ⟨own, ?_⟩
    simp [SharedLogger.view, SharedLogger.seenAt, List.getElem?_set_ne own]

end

/-! ## Messages of one chunk -/

/-- The message fits into the buffer and is under way as a whole. -/
def LogPoint.Fits : LogPoint → Prop
  | .idle => True
  | .looping c => c.message.length ≤ iocpBufferSize ∧
      (c.writenLen = 0 ∨ c.writenLen = c.message.length)
  | .filled c | .issued c => c.message.length ≤ iocpBufferSize ∧ c.writenLen = 0 ∧ c.message ≠ []

/-- The message that has not been handed over. -/
def LogPoint.unsent : LogPoint → List (List Byte)
  | .looping c => if c.writenLen < c.message.length then [c.message] else []
  | .filled c => [c.message]
  | _ => []

/-- A call of `TranceLog` with a message of at most `IOCP_BUFFER_SIZE` bytes. -/
def Short (_ : SharedLogger) (e : Nat × LogEvent) : Prop :=
  ∀ message ∈ e.2.messages, message.length ≤ iocpBufferSize

theorem Progress.lastWriteLen_of_fits {c : Progress} (fits : c.message.length ≤ iocpBufferSize)
    (first : c.writenLen = 0) : c.lastWriteLen = c.message.length := by
  rw [lastWriteLen, first]
  split <;> omega

/-- A message that fits is handed over in one piece. -/
theorem LogStep.unsent {s s' : Logger} {e : LogEvent} (step : LogStep s e s')
    (fits : s.point.Fits) (short : ∀ message ∈ e.messages, message.length ≤ iocpBufferSize) :
    s'.point.Fits ∧ s.handed e ++ s'.point.unsent =
      s.point.unsent ++ e.messages.filter fun message => !message.isEmpty := by
  cases e with
  | call message =>
      obtain ⟨here, _, _, rfl⟩ := step
      refine ⟨⟨short message List.mem_cons_self, .inl rfl⟩, ?_⟩
      cases message <;> simp [Logger.handed, LogPoint.unsent, here, LogEvent.messages]
  | overflow message =>
      obtain ⟨_, _, _, rfl⟩ := step
      exact ⟨fits, by simp [Logger.handed, LogEvent.messages]⟩
  | fill =>
      obtain ⟨c, here, more, rfl⟩ := step
      rw [here] at fits ⊢
      have first : c.writenLen = 0 := fits.2.resolve_right (Nat.ne_of_lt more)
      have some : c.message ≠ [] := List.ne_nil_of_length_pos (Nat.zero_lt_of_lt more)
      refine ⟨⟨fits.1, first, some⟩, ?_⟩
      simp [Logger.handed, LogPoint.unsent, more, LogEvent.messages]
  | write outcome =>
      obtain ⟨c, here, rfl⟩ := step
      rw [here] at fits
      have whole : c.chunk = c.message := by
        rw [Progress.chunk, Progress.lastWriteLen_of_fits fits.1 fits.2.1, fits.2.1]
        simp
      refine ⟨fits, ?_⟩
      simp [Logger.handed, LogPoint.unsent, here, whole, LogEvent.messages]
  | advance =>
      obtain ⟨c, here, rfl⟩ := step
      rw [here] at fits
      have whole := Progress.lastWriteLen_of_fits fits.1 fits.2.1
      refine ⟨⟨fits.1, .inr ?_⟩, ?_⟩
      · simp [fits.2.1, whole]
      · simp [Logger.handed, LogPoint.unsent, here, fits.2.1, whole, LogEvent.messages]
  | «return» =>
      obtain ⟨c, here, done, rfl⟩ := step
      refine ⟨trivial, ?_⟩
      simp [Logger.handed, LogPoint.unsent, here, done, LogEvent.messages]
  | take w =>
      obtain ⟨pending, _, _, rfl⟩ := step
      exact ⟨fits, by simp [Logger.handed, LogEvent.messages]⟩
  | complete w bytes =>
      obtain ⟨before, after, _, _, rfl⟩ := step
      exact ⟨fits, by simp [Logger.handed, LogEvent.messages]⟩

/-! ## The runs -/

section

variable {initial : List Byte} {registered : Bool} {n : Nat}
  {trace : List (SharedLogger × Nat × LogEvent)} {s s' : SharedLogger}

theorem SharedLogger.view_of_idle (s : SharedLogger) (idle : ∀ p ∈ s.threads, p = .idle)
    (i : Nat) : (s.view i).point = .idle := by
  cases here : s.threads[i]? with
  | none => simp [SharedLogger.view, SharedLogger.seenAt, here]
  | some p =>
      obtain rfl := idle p (List.mem_of_getElem? here)
      rw [SharedLogger.view_eq here]
      rfl

@[simp] theorem SharedLogger.view_start (size i : Nat) :
    ((SharedLogger.start size registered n).view i).point = .idle :=
  SharedLogger.view_of_idle _ (fun _ member => (List.mem_replicate.mp member).2) i

/-- All chunks that are handed over are accepted, whoever they are from. -/
theorem shared_run_chunks {size : Nat} (run : Run SharedStep s trace s')
    (turn : Guarded (InTurn size) trace) :
    s'.logger.chunks = s.logger.chunks ++ (chunks trace).map Prod.snd := by
  have all := run.flatMap_balance (fun _ _ => []) (fun s e => (s.view e.1).handed e.2)
    (fun s => s.logger.chunks) (fun _ => True) (fun _ _ _ _ _ _ => trivial) ?_ trivial turn
  · have none : (trace.flatMap fun _ => ([] : List (List Byte))) = [] := by simp
    rw [chunks, List.map_flatMap]
    simpa [none, Function.comp_def] using all
  · rintro s ⟨i, e⟩ _ _ turn ⟨p, t, here, step, rfl⟩
    have orderly : Orderly size (s.seenAt p) e := by cases e <;> exact turn.1
    rw [List.nil_append, SharedLogger.view_eq here]
    exact step.chunks orderly

/-- A thread hands its messages over byte for byte. -/
theorem shared_run_bytes (run : Run SharedStep s trace s') (i : Nat) :
    (chunksOf i trace).flatten ++ (s'.view i).point.remaining =
      (s.view i).point.remaining ++ (messagesOf i trace).flatten := by
  rw [chunksOf_eq]
  refine run.flatten_balance (handedBy i) (fun _ e => if e.1 = i then e.2.messages else [])
    (fun s => (s.view i).point.remaining) fun s e s' step => ?_
  rcases step.view_cases i with ⟨own, step⟩ | ⟨other, same⟩
  · simpa only [handedBy, own, if_true] using step.remaining
  · simp [handedBy, other, same]

/-- And whole, if they fit into the buffer. -/
theorem shared_run_whole (run : Run SharedStep s trace s') (short : Guarded Short trace) (i : Nat)
    (fits : (s.view i).point.Fits) :
    chunksOf i trace ++ (s'.view i).point.unsent =
      (s.view i).point.unsent ++ (messagesOf i trace).filter fun message => !message.isEmpty := by
  rw [chunksOf_eq, messagesOf, List.filter_flatMap]
  have both : ∀ s e s', (s.view i).point.Fits → Short s e → SharedStep s e s' →
      (s'.view i).point.Fits ∧ handedBy i s e ++ (s'.view i).point.unsent =
        (s.view i).point.unsent ++
          (if e.1 = i then e.2.messages else []).filter fun message => !message.isEmpty := by
    intro s e s' fits short step
    rcases step.view_cases i with ⟨own, step⟩ | ⟨other, same⟩
    · simpa only [handedBy, own, if_true] using step.unsent fits short
    · rw [same]
      exact ⟨fits, by simp [handedBy, other]⟩
  exact run.flatMap_balance (handedBy i) _ (fun s => (s.view i).point.unsent)
    (fun s => (s.view i).point.Fits) (fun s e t inv ok step => (both s e t inv ok step).1)
    (fun s e t inv ok step => (both s e t inv ok step).2) fits short

/-- In every run of calls on any number of threads that take turns with their chunks, on a file
with any content, the file is the old content and the chunks of all threads. The chunks of a
thread are its messages, byte for byte and in order, up to where it is. When no call is under
way nothing is pending, and if all messages fit into the buffer each is one of the chunks. -/
theorem log_shuffles (run : Run SharedStep (.start initial.length registered n) trace s)
    (turn : Guarded (InTurn initial.length) trace) :
    s.logger.file initial ++ (s.logger.pending.map fun w => w.call.chunk).flatten =
        initial ++ ((chunks trace).map Prod.snd).flatten ∧
      (∀ i, (chunksOf i trace).flatten ++ (s.view i).point.remaining =
        (messagesOf i trace).flatten) ∧
      ((∀ p ∈ s.threads, p = .idle) → s.logger.pending = [] ∧
        (Guarded Short trace → ∀ i, chunksOf i trace =
          (messagesOf i trace).filter fun message => !message.isEmpty)) := by
  have inFile := (run.everywhere_of_guarded (SharedLogger.InFile initial)
    (fun _ _ _ inv ok step => inv.step ok step) (fun _ inv => inv) (.start _ _ _) turn).2
  have accepted : s.logger.chunks = (chunks trace).map Prod.snd := shared_run_chunks run turn
  refine ⟨?_, fun i => ?_, fun idle => ?_⟩
  · rw [← accepted]
    rcases inFile.alone with ⟨_, alone⟩ | ⟨p, _, alone⟩
    · exact alone.file_pending
    · exact alone.file_pending
  · simpa [LogPoint.remaining] using shared_run_bytes run i
  · have none : s.inside = [] := by
      apply List.filter_eq_nil_iff.mpr
      intro p member
      simp [idle p member, LogPoint.inside]
    refine ⟨?_, fun short i => ?_⟩
    · rcases inFile.alone with ⟨_, alone⟩ | ⟨p, one, _⟩
      · exact alone.settled.pending_eq_nil (by simp [SharedLogger.seenAt])
      · simp [none] at one
    · have back := s.view_of_idle idle i
      simpa [back, LogPoint.unsent, LogPoint.Fits] using shared_run_whole run short i

end

/-- Two threads log a byte each, in turn. -/
theorem log_shuffles_two : ∃ trace, Run SharedStep (.start 0 true 2) trace
    firstCounted.secondIssued ∧ firstCounted.secondIssued.logger.file [] = [65, 66] := by
  have run : Run SharedStep (.start ([] : List Byte).length true 2) _ firstCounted.secondIssued :=
    run_firstIssued.append (.cons advance_firstIssued (run_secondIssued rfl rfl))
  refine ⟨_, run, (log_shuffles run ?_).1⟩
  simp only [firstTrace, guarded_append, guarded_cons, guarded_nil, InTurn, reduceCtorEq,
    false_imp_iff, true_imp_iff, and_true]
  exact ⟨⟨trivial, trivial, ⟨trivial, rfl⟩, by decide, by decide⟩, rfl, ⟨trivial, rfl⟩,
    by decide, by decide⟩

/-- Otherwise the second byte replaces the first. -/
theorem not_log_shuffles : ∃ trace, Run SharedStep (.start 0 true 2) trace
    firstIssued.secondIssued ∧ firstIssued.secondIssued.logger.file [] = [66] :=
  ⟨_, run_firstIssued.append (run_secondIssued rfl rfl), rfl⟩

end IocpTest.CLog
