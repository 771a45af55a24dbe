import IocpTest.CLog.TranceLog

/-!
# What pending writes store

A write that stays pending needs the buffer until it has taken its bytes and the
`OVERLAPPED` until it has completed. The first statement after `WriteFile` already
changes the `OVERLAPPED`, and the next chunk replaces the bytes.

`bytesSurvive_iff`: the log's bytes survive in a run exactly when every write that
stays pending has completed by the time `Offset` is advanced. From then on nothing is
pending until the next `WriteFile`, so this one statement decides about all others.
-/

namespace IocpTest.CLog

open StepSystem Bytes

/-- What is in the file for each write are the bytes of its chunk, and the buffer and
the `OVERLAPPED` have not been modified or reused while a write was pending. -/
structure BytesSurvive (s : Logger) : Prop where
  stored : ∀ w ∈ s.stored, w.2 = w.1.chunk
  undisturbed : s.disturbed = false

/-- `Offset` is advanced when no write is pending. -/
def SettledAtAdvance (s : Logger) : LogEvent → Prop
  | .advance => s.pending = []
  | _ => True

/-- A write is pending only between `WriteFile` and the advance of `Offset`, and its
chunk is in the buffer all that time. -/
structure Logger.Settled (s : Logger) : Prop where
  survive : BytesSurvive s
  buffered : ∀ c, s.point = .filled c ∨ s.point = .issued c →
    slice s.buffer 0 c.lastWriteLen = c.chunk
  pending : ∀ w ∈ s.pending, ∃ c, s.point = .issued c ∧
    w.call.length = c.lastWriteLen ∧ w.call.chunk = c.chunk
  taken : ∀ w ∈ s.pending, ∀ bytes, w.taken = some bytes → bytes = w.call.chunk

namespace Logger

theorem pending_eq_nil_of_touch {s : Logger} (h : s.touch.disturbed = false) :
    s.pending = [] := by
  simp only [touch, Bool.or_eq_false_iff, Bool.not_eq_false', List.isEmpty_iff] at h
  exact h.2

namespace Settled

variable {s s' : Logger}

/-- Nowhere else is a write pending. -/
theorem pending_eq_nil (inv : s.Settled) (h : ∀ c, s.point ≠ .issued c) : s.pending = [] := by
  apply List.eq_nil_iff_forall_not_mem.mpr
  intro w hw
  obtain ⟨c, hc, _⟩ := inv.pending w hw
  exact h c hc

theorem fill (inv : s.Settled) (step : LogStep s .fill s') : s'.Settled := by
  obtain ⟨c, hc, _, rfl⟩ := step
  have none : s.pending = [] := inv.pending_eq_nil (by rw [hc]; simp)
  rw [touch_eq none]
  refine ⟨⟨inv.survive.stored, inv.survive.undisturbed⟩, ?_, by simp [none], by simp [none]⟩
  intro c' hc'
  cases hc' with
  | inl h =>
      obtain rfl := LogPoint.filled.inj h
      exact c.slice_fill _
  | inr h => cases h

theorem write {outcome : WriteOutcome} (inv : s.Settled) (step : LogStep s (.write outcome) s') :
    s'.Settled := by
  obtain ⟨c, hc, rfl⟩ := step
  have none : s.pending = [] := inv.pending_eq_nil (by rw [hc]; simp)
  have here : slice s.buffer 0 c.lastWriteLen = c.chunk := inv.buffered c (.inl hc)
  rw [touch_eq none]
  have buffered : ∀ c', LogPoint.issued c = .filled c' ∨ LogPoint.issued c = .issued c' →
      slice s.buffer 0 c'.lastWriteLen = c'.chunk := by
    intro c' hc'
    cases hc' with
    | inl h => cases h
    | inr h =>
        obtain rfl := LogPoint.issued.inj h
        exact here
  cases outcome with
  | written =>
      refine ⟨⟨?_, inv.survive.undisturbed⟩, buffered, ?_, ?_⟩
      · intro w hw
        cases List.mem_cons.mp hw with
        | inl h =>
            rw [h]
            exact here
        | inr h => exact inv.survive.stored w h
      · simp [writeFile, none]
      · simp [writeFile, none]
  | pending =>
      refine ⟨⟨inv.survive.stored, inv.survive.undisturbed⟩, buffered, ?_, ?_⟩
      · simp [writeFile, none, Logger.call]
      · simp [writeFile, none]
  | failed =>
      refine ⟨⟨inv.survive.stored, inv.survive.undisturbed⟩, buffered, ?_, ?_⟩
      · simp [writeFile, none]
      · simp [writeFile, none]

theorem take {w : PendingWrite} (inv : s.Settled) (step : LogStep s (.take w) s') :
    s'.Settled := by
  obtain ⟨pending, moves, _, rfl⟩ := step
  obtain ⟨c, hc, length, chunk⟩ := inv.pending w moves.mem
  refine ⟨⟨inv.survive.stored, inv.survive.undisturbed⟩, inv.buffered, ?_, ?_⟩
  · exact moves.forall_mem inv.pending ⟨c, hc, length, chunk⟩
  · apply moves.forall_mem inv.taken
    intro bytes hbytes
    obtain rfl := Option.some.inj hbytes
    rw [length, chunk]
    exact inv.buffered c (.inr hc)

theorem complete {w : PendingWrite} {bytes : List Byte} (inv : s.Settled)
    (step : LogStep s (.complete w bytes) s') : s'.Settled := by
  obtain ⟨before, after, hpending, htaken, rfl⟩ := step
  have kept : ∀ v ∈ before ++ after, v ∈ s.pending := by
    intro v hv
    rw [hpending]
    exact (List.Sublist.append_left (List.sublist_cons_self w after) before).subset hv
  have here : w ∈ s.pending := by
    rw [hpending]
    exact List.mem_append_right _ List.mem_cons_self
  refine ⟨⟨?_, inv.survive.undisturbed⟩, inv.buffered, fun v hv => inv.pending v (kept v hv),
    fun v hv => inv.taken v (kept v hv)⟩
  intro v hv
  cases List.mem_cons.mp hv with
  | inl h =>
      rw [h]
      exact inv.taken w here bytes htaken
  | inr h => exact inv.survive.stored v h

theorem step {e : LogEvent} (inv : s.Settled) (settled : SettledAtAdvance s e)
    (step : LogStep s e s') : s'.Settled := by
  cases e with
  | fill => exact inv.fill step
  | write outcome => exact inv.write step
  | take w => exact inv.take step
  | complete w bytes => exact inv.complete step
  | call message =>
      obtain ⟨hc, _, _, rfl⟩ := step
      have none : s.pending = [] := inv.pending_eq_nil (by rw [hc]; simp)
      exact ⟨⟨inv.survive.stored, inv.survive.undisturbed⟩, by simp, by simp [none], inv.taken⟩
  | overflow message =>
      obtain ⟨_, _, _, rfl⟩ := step
      exact inv
  | advance =>
      obtain ⟨c, hc, rfl⟩ := step
      have none : s.pending = [] := settled
      rw [touch_eq none]
      exact ⟨⟨inv.survive.stored, inv.survive.undisturbed⟩, by simp, by simp [none], inv.taken⟩
  | «return» =>
      obtain ⟨c, hc, _, rfl⟩ := step
      have none : s.pending = [] := inv.pending_eq_nil (by rw [hc]; simp)
      exact ⟨⟨inv.survive.stored, inv.survive.undisturbed⟩, by simp, by simp [none], inv.taken⟩

end Settled

end Logger

theorem settled_init (size : Nat) (registered : Bool) :
    (Logger.init size registered).Settled where
  survive := ⟨by simp [Logger.init], rfl⟩
  buffered := by simp [Logger.init]
  pending := by simp [Logger.init]
  taken := by simp [Logger.init]

/-- In a run of any number of calls the bytes survive in every state reached if and only
if `Offset` is never advanced while a write is pending. -/
theorem bytesSurvive_iff {size : Nat} {registered : Bool} {trace : List (Logger × LogEvent)}
    {s : Logger} (run : Run LogStep (Logger.init size registered) trace s) :
    Everywhere BytesSurvive trace s ↔ Guarded SettledAtAdvance trace := by
  refine run.everywhere_iff_guarded Logger.Settled (fun _ _ _ inv ok step => inv.step ok step)
    (fun _ inv => inv.survive) ?_ (settled_init size registered)
  intro s e t _ step survive
  cases e with
  | advance =>
      obtain ⟨c, _, rfl⟩ := step
      exact Logger.pending_eq_nil_of_touch survive.undisturbed
  | call | overflow | fill | write | «return» | take | complete => trivial

/-! ## Messages of one byte -/

/-- The write of the first message is pending. -/
def firstPending : Logger :=
  { firstFilled with
    point := .issued (oneByte 65)
    pending := [⟨oneByteCall 65, none⟩]
    accepted := [oneByteCall 65] }

theorem run_firstPending : ∃ trace, Run LogStep (Logger.init 0 true) trace firstPending ∧
    Guarded SettledAtAdvance trace := by
  have write : LogStep firstFilled (.write .pending) firstPending := ⟨oneByte 65, rfl, rfl⟩
  refine ⟨_, run_firstFilled.append (.cons write (.nil _)), ?_⟩
  simp only [guarded_append, guarded_cons, guarded_nil]
  exact ⟨⟨trivial, trivial, trivial⟩, trivial, trivial⟩

/-- It takes its byte and completes before `Offset` is advanced. -/
theorem bytesSurvive_oneByte : ∃ trace s, Run LogStep (Logger.init 0 true) trace s ∧
    s.stored = [(oneByteCall 65, [65])] ∧ s.offset = 1 ∧ Everywhere BytesSurvive trace s := by
  obtain ⟨trace, run, settled⟩ := run_firstPending
  let taken : Logger := { firstPending with pending := [⟨oneByteCall 65, some [65]⟩] }
  let done : Logger :=
    { firstPending with pending := [], stored := [(oneByteCall 65, [65])] }
  have take : LogStep firstPending (.take ⟨oneByteCall 65, none⟩) taken :=
    ⟨_, ⟨[], [], rfl, rfl⟩, rfl, rfl⟩
  have complete : LogStep taken (.complete ⟨oneByteCall 65, some [65]⟩ [65]) done :=
    ⟨[], [], rfl, rfl, rfl⟩
  have advance : LogStep done .advance _ := ⟨oneByte 65, rfl, rfl⟩
  have whole := run.append (.cons take (.cons complete (.cons advance (.nil _))))
  refine ⟨_, _, whole, rfl, rfl, (bytesSurvive_iff whole).mpr ?_⟩
  simp only [guarded_append, guarded_cons, guarded_nil]
  exact ⟨settled, trivial, trivial, rfl, trivial⟩

/-- The next message is in the buffer when it takes its byte. -/
theorem not_bytesSurvive : ¬∀ (size : Nat) (registered : Bool) (trace : List (Logger × LogEvent))
    (s : Logger), Run LogStep (Logger.init size registered) trace s →
      Everywhere BytesSurvive trace s := by
  intro all
  obtain ⟨trace, run, _⟩ := run_firstPending
  let advanced : Logger :=
    { firstPending with point := .looping ⟨[65], 1⟩, offset := 1, disturbed := true }
  let replaced : Logger :=
    { advanced with
      point := .filled (oneByte 66)
      buffer := memcpy (memset firstPending.buffer 0 0 iocpBufferSize) 0 [66] }
  let taken : Logger := { replaced with pending := [⟨oneByteCall 65, some [66]⟩] }
  have advance : LogStep firstPending .advance advanced := ⟨oneByte 65, rfl, rfl⟩
  have back : LogStep advanced .return { advanced with point := .idle } :=
    ⟨⟨[65], 1⟩, rfl, Nat.lt_irrefl 1, rfl⟩
  have next : Run LogStep { advanced with point := .idle } _ replaced := run_fill rfl rfl 66
  have take : LogStep replaced (.take ⟨oneByteCall 65, none⟩) taken :=
    ⟨_, ⟨[], [], rfl, rfl⟩, rfl, rfl⟩
  have complete : LogStep taken (.complete ⟨oneByteCall 65, some [66]⟩ [66]) _ :=
    ⟨[], [], rfl, rfl, rfl⟩
  have safe := all 0 true _ _ ((run.append (.cons advance (.cons back next))).append
    (.cons take (.cons complete (.nil _))))
  have stored : ([66] : List Byte) = [65] :=
    safe.2.stored (oneByteCall 65, [66]) List.mem_cons_self
  exact absurd stored (by decide)

end IocpTest.CLog
