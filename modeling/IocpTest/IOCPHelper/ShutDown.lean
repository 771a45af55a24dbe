import IocpTest.IOCPHelper.WorkThread
import IocpTest.Logic.Agents
import IocpTest.Logic.Run

/-!
# Shutting the port down

`ShutDown` clears `m_run`, waits until `m_existCount` has reached `m_threadCount` and
then closes the port. A worker counts itself out when it has left its loop, and it
looks at `m_run` only between two calls of `GetQueuedCompletionStatus`, which wait
without a time limit.

The count is exact, so the port is closed after the last worker
(`closedAfterWorkers`). For the same reason closing it wakes nobody: a worker that is
on its way into the wait, or in it, when `m_run` is cleared needs a packet to get out.
`WakesAll` is the condition that there are enough of them, and
`exists_deadlock_of_clear` shows that nothing less will do.
-/

namespace IocpTest.IOCPHelper

open StepSystem

variable {w : Nat} {port : Port w}

/-- Where a worker stands in `_WorkThread`. -/
inductive WorkerPoint where
  /-- Before the test of `m_run`. -/
  | testing
  /-- Between the test and the wait. -/
  | calling
  /-- In `GetQueuedCompletionStatus`. -/
  | blocked
  /-- Between the wait and the next test, with `Callback`. -/
  | dispatching
  /-- Out of the loop, not yet counted. -/
  | leaving
  /-- Counted out. -/
  | exited
  deriving DecidableEq, Repr

/-- Where the call of `ShutDown` stands. -/
inductive ShutDownPoint where
  | notCalled
  /-- Before the test of `m_threadCount != m_existCount`. -/
  | testing
  /-- In `Sleep`. -/
  | sleeping
  /-- Out of the loop, before `CloseHandle`. -/
  | closing
  | closed
  deriving DecidableEq, Repr

/-- The helper with its port, its threads and the call of `ShutDown`. -/
structure Helper (port : Port w) where
  run : Bool
  threadCount : DWORD
  existCount : DWORD
  queue : List (Packet port)
  workers : List WorkerPoint
  shutDown : ShutDownPoint

/-- `Init`, when it has created the port and started all threads. -/
def Helper.init (dwNumberOfProcessors : DWORD) : Helper port where
  run := true
  threadCount := dwNumberOfProcessors + 2
  existCount := 0
  queue := []
  workers := List.replicate (dwNumberOfProcessors + 2).toNat .testing
  shutDown := .notCalled

/-- The steps of a worker. -/
inductive WorkerEvent (port : Port w) where
  | test
  | call
  /-- `GetQueuedCompletionStatus` returns. -/
  | wake (o : Outcome port)
  | dispatched
  /-- `InterlockedIncrement(&m_existCount)` -/
  | count

namespace WorkerEvent

def source : WorkerEvent port → WorkerPoint
  | .test => .testing
  | .call => .calling
  | .wake _ => .blocked
  | .dispatched => .dispatching
  | .count => .leaving

/-- Where the step ends, with the value of `m_run` that the test sees. -/
def target (run : Bool) : WorkerEvent port → WorkerPoint
  | .test => if run then .calling else .leaving
  | .call => .blocked
  | .wake o => if o.breaks then .leaving else .dispatching
  | .dispatched => .testing
  | .count => .exited

/-- The packet that the step takes from the queue. -/
def takes : WorkerEvent port → Option (Packet port)
  | .wake o => o.packet
  | _ => none

def existCount (existCount : DWORD) : WorkerEvent port → DWORD
  | .count => existCount + 1
  | _ => existCount

end WorkerEvent

inductive HelperEvent (port : Port w) where
  /-- A packet is queued at the port. -/
  | post (p : Packet port)
  | worker (e : WorkerEvent port)
  /-- `m_run = false` -/
  | clear
  /-- The loop test of `ShutDown`. -/
  | test
  | sleep
  /-- `CloseHandle(m_iocp)` -/
  | close

def HelperStep (s : Helper port) : HelperEvent port → Helper port → Prop
  | .post p, s' => s' = { s with queue := s.queue ++ [p] }
  | .worker e, s' =>
      ∃ workers queue, Moves s.workers workers e.source (e.target s.run) ∧
        s.queue = e.takes.toList ++ queue ∧
        s' = { s with workers := workers, queue := queue, existCount := e.existCount s.existCount }
  | .clear, s' => s.shutDown = .notCalled ∧ s' = { s with run := false, shutDown := .testing }
  | .test, s' =>
      s.shutDown = .testing ∧
        s' = { s with shutDown := if s.threadCount ≠ s.existCount then .sleeping else .closing }
  | .sleep, s' => s.shutDown = .sleeping ∧ s' = { s with shutDown := .testing }
  | .close, s' => s.shutDown = .closing ∧ s' = { s with shutDown := .closed }

def WorkerPoint.isExited (p : WorkerPoint) : Bool := p == .exited

/-- In the wait, or past the test and on the way into it. -/
def WorkerPoint.isWaiting (p : WorkerPoint) : Bool := p == .calling || p == .blocked

/-- The number of workers that have counted themselves out. -/
def Helper.exited (s : Helper port) : Nat := s.workers.countP WorkerPoint.isExited

/-- The number of workers that have `GetQueuedCompletionStatus` before the next test. -/
def Helper.waiting (s : Helper port) : Nat := s.workers.countP WorkerPoint.isWaiting

/-- `m_existCount` is the number of workers counted out, and the port is closed only
when that is all of them, so that no worker is in the wait, or on the way into it,
on a closed port. -/
structure ClosedAfterWorkers (s : Helper port) : Prop where
  counted : s.existCount.toNat = s.exited
  bounded : s.existCount.toNat ≤ s.threadCount.toNat
  threads : s.workers.length = s.threadCount.toNat
  afterAll : s.shutDown = .closing ∨ s.shutDown = .closed → ∀ p ∈ s.workers, p = .exited
  unused : s.shutDown = .closed → ∀ p ∈ s.workers, p ≠ .calling ∧ p ≠ .blocked

/-- `ShutDown` is in its loop, workers are left, and all of these are blocked on an
empty queue. -/
structure Deadlocked (s : Helper port) : Prop where
  looping : s.shutDown = .testing ∨ s.shutDown = .sleeping
  left : ∃ p ∈ s.workers, p ≠ .exited
  blocked : ∀ p ∈ s.workers, p ≠ .exited → p = .blocked
  empty : s.queue = []

/-- When `m_run` is cleared there is a packet for each worker that has
`GetQueuedCompletionStatus` before its next test. -/
def WakesAll (s : Helper port) : HelperEvent port → Prop
  | .clear => s.waiting ≤ s.queue.length
  | _ => True

/-- Nothing is queued any more once `ShutDown` is called, and the wait ends with a
packet or when the port is closed. -/
def Blocking (s : Helper port) : HelperEvent port → Prop
  | .post _ => s.shutDown = .notCalled
  | .worker (.wake o) => o.packet.isSome = true ∨ s.shutDown = .closed
  | _ => True

/-! ## The count -/

theorem WorkerEvent.source_isExited (e : WorkerEvent port) : e.source.isExited = false := by
  cases e <;> rfl

/-- The counter goes up by the worker that the step counts out. -/
theorem WorkerEvent.toNat_existCount (e : WorkerEvent port) {existCount : DWORD} (run : Bool)
    (room : existCount.toNat + (if (e.target run).isExited then 1 else 0) < 2 ^ 32) :
    (e.existCount existCount).toNat =
      existCount.toNat + if (e.target run).isExited then 1 else 0 := by
  cases e with
  | count =>
      have one : (1 : DWORD).toNat = 1 := rfl
      rw [WorkerEvent.existCount, BitVec.toNat_add, one]
      exact Nat.mod_eq_of_lt room
  | test => cases run <;> rfl
  | wake o => cases h : o.breaks <;> simp [target, h, WorkerPoint.isExited, WorkerEvent.existCount]
  | call => rfl
  | dispatched => rfl

structure Helper.Counted (s : Helper port) : Prop where
  exact : s.existCount.toNat = s.exited
  threads : s.workers.length = s.threadCount.toNat
  complete : s.shutDown = .closing ∨ s.shutDown = .closed → s.threadCount = s.existCount

namespace Helper.Counted

variable {s s' : Helper port}

theorem init (dwNumberOfProcessors : DWORD) :
    (Helper.init dwNumberOfProcessors : Helper port).Counted where
  exact := by
    rw [Helper.init, Helper.exited, List.countP_replicate]
    rfl
  threads := by simp [Helper.init]
  complete := by simp [Helper.init]

theorem exited_le (inv : s.Counted) : s.exited ≤ s.threadCount.toNat :=
  Nat.le_trans List.countP_le_length (Nat.le_of_eq inv.threads)

/-- When the counts agree all workers have left. -/
theorem all_exited (inv : s.Counted) (complete : s.threadCount = s.existCount) :
    ∀ p ∈ s.workers, p = .exited := by
  have all : s.exited = s.workers.length := by rw [inv.threads, complete, inv.exact]
  intro p hp
  exact eq_of_beq (List.countP_eq_length.mp all p hp)

/-- A worker that moves has not been counted, so the count does not wrap. -/
theorem worker (inv : s.Counted) {e : WorkerEvent port} (step : HelperStep s (.worker e) s') :
    s'.Counted := by
  obtain ⟨workers, queue, moves, _, rfl⟩ := step
  have balance := moves.countP WorkerPoint.isExited
  rw [e.source_isExited, if_neg Bool.false_ne_true, Nat.add_zero] at balance
  have threads : workers.length = s.threadCount.toNat := moves.length_eq.trans inv.threads
  have room : workers.countP WorkerPoint.isExited ≤ workers.length := List.countP_le_length
  have small := s.threadCount.isLt
  have exact : s.existCount.toNat = s.workers.countP WorkerPoint.isExited := inv.exact
  refine ⟨?_, threads, ?_⟩
  · change (e.existCount s.existCount).toNat = workers.countP WorkerPoint.isExited
    rw [e.toNat_existCount s.run (by omega), exact, balance]
  · intro ended
    have left := inv.all_exited (inv.complete ended) _ moves.mem
    have before := e.source_isExited
    rw [left] at before
    cases before

theorem step (inv : s.Counted) {e : HelperEvent port} (step : HelperStep s e s') :
    s'.Counted := by
  cases e with
  | worker e => exact inv.worker step
  | post p =>
      obtain rfl := step
      exact ⟨inv.exact, inv.threads, inv.complete⟩
  | clear =>
      obtain ⟨_, rfl⟩ := step
      exact ⟨inv.exact, inv.threads, by simp⟩
  | test =>
      obtain ⟨_, rfl⟩ := step
      refine ⟨inv.exact, inv.threads, ?_⟩
      by_cases h : s.threadCount = s.existCount <;> simp [h]
  | sleep =>
      obtain ⟨_, rfl⟩ := step
      exact ⟨inv.exact, inv.threads, by simp⟩
  | close =>
      obtain ⟨closing, rfl⟩ := step
      exact ⟨inv.exact, inv.threads, fun _ => inv.complete (.inl closing)⟩

theorem closedLast (inv : s.Counted) : ClosedAfterWorkers s where
  counted := inv.exact
  bounded := by rw [inv.exact]; exact inv.exited_le
  threads := inv.threads
  afterAll := fun ended => inv.all_exited (inv.complete ended)
  unused := by
    intro closed p hp
    rw [inv.all_exited (inv.complete (.inr closed)) p hp]
    decide

end Helper.Counted

/-- In every run the port is closed after the last worker has left. -/
theorem closedAfterWorkers {dwNumberOfProcessors : DWORD}
    {trace : List (Helper port × HelperEvent port)} {s : Helper port}
    (run : Run HelperStep (Helper.init dwNumberOfProcessors) trace s) :
    Everywhere ClosedAfterWorkers trace s :=
  run.everywhere_of_invariant Helper.Counted (fun _ _ _ inv step => inv.step step)
    (fun _ inv => inv.closedLast) (.init _)

/-- One processor, and `m_run` is cleared. -/
def Helper.cleared (port : Port w) (workers : List WorkerPoint) (existCount : DWORD) :
    Helper port :=
  { Helper.init 1 with
    run := false, shutDown := .testing, workers := workers, existCount := existCount }

/-- With all three workers before the test they leave, and the port is closed. -/
theorem exists_run_close (port : Port w) : ∃ trace s,
    Run HelperStep (Helper.cleared port [.testing, .testing, .testing] 0) trace s ∧
      Guarded WakesAll trace ∧ s.shutDown = .closed := by
  let cleared := Helper.cleared port
  have test (before after : List WorkerPoint) (n : DWORD) :
      HelperStep (cleared (before ++ .testing :: after) n) (.worker .test)
        (cleared (before ++ .leaving :: after) n) :=
    ⟨_, [], ⟨before, after, rfl, rfl⟩, rfl, rfl⟩
  have count (before after : List WorkerPoint) (n : DWORD) :
      HelperStep (cleared (before ++ .leaving :: after) n) (.worker .count)
        (cleared (before ++ .exited :: after) (n + 1)) :=
    ⟨_, [], ⟨before, after, rfl, rfl⟩, rfl, rfl⟩
  let left := cleared [.exited, .exited, .exited] 3
  have agree : HelperStep left .test { left with shutDown := .closing } := ⟨rfl, rfl⟩
  have close : HelperStep { left with shutDown := .closing } .close
    { left with shutDown := .closed } := ⟨rfl, rfl⟩
  have run := Run.cons (test [] [.testing, .testing] 0)
    (.cons (test [.leaving] [.testing] 0) (.cons (test [.leaving, .leaving] [] 0)
      (.cons (count [] [.leaving, .leaving] 0) (.cons (count [.exited] [.leaving] 1)
        (.cons (count [.exited, .exited] [] 2) (.cons agree (.cons close (.nil _))))))))
  refine ⟨_, _, run, ?_, rfl⟩
  simp only [guarded_cons, guarded_nil, WakesAll, and_true]

theorem closedAfterWorkers_oneProcessor :
    ∃ (trace : List (Helper (Port.empty 32) × HelperEvent (Port.empty 32))) (s : Helper _),
      Run HelperStep (Helper.init 1) trace s ∧ s.shutDown = .closed ∧
        Everywhere ClosedAfterWorkers trace s := by
  have clear : HelperStep (Helper.init 1) .clear
    (Helper.cleared (Port.empty 32) [.testing, .testing, .testing] 0) := ⟨rfl, rfl⟩
  obtain ⟨_, s, rest, _, closed⟩ := exists_run_close (Port.empty 32)
  exact ⟨_, s, .cons clear rest, closed, closedAfterWorkers (.cons clear rest)⟩

/-! ## The wait -/

/-- Once `ShutDown` is called there is a packet for every worker in the wait, and no
worker goes back into it. -/
def Helper.Awake (s : Helper port) : Prop :=
  s.shutDown = .notCalled ∨ (s.run = false ∧ s.waiting ≤ s.queue.length)

/-- With `m_run` cleared a worker that leaves the wait takes at most one packet. -/
theorem WorkerEvent.isWaiting_of_cleared (e : WorkerEvent port) :
    (if (e.target false).isWaiting then 1 else 0) + e.takes.toList.length ≤
      if e.source.isWaiting then 1 else 0 := by
  cases e with
  | wake o =>
      have after : WorkerPoint.isWaiting ((WorkerEvent.wake o).target false) = false := by
        cases h : o.breaks <;> simp [target, h, WorkerPoint.isWaiting]
      rw [after]
      cases h : o.packet <;> simp [takes, h, source, WorkerPoint.isWaiting]
  | test => exact Nat.le_refl 0
  | call => exact Nat.le_refl 1
  | dispatched => exact Nat.le_refl 0
  | count => exact Nat.le_refl 0

/-- It takes exactly one when the wait ends with a packet. -/
theorem WorkerEvent.isWaiting_of_blocking {e : WorkerEvent port}
    (blocking : ∀ o, e = .wake o → o.packet.isSome = true) :
    (if (e.target false).isWaiting then 1 else 0) + e.takes.toList.length =
      if e.source.isWaiting then 1 else 0 := by
  apply Nat.le_antisymm e.isWaiting_of_cleared
  cases e with
  | wake o =>
      obtain ⟨p, hp⟩ := Option.isSome_iff_exists.mp (blocking o rfl)
      rw [takes, hp]
      exact Nat.le_add_left 1 _
  | test => exact Nat.le_refl 0
  | call => exact Nat.le_refl 1
  | dispatched => exact Nat.le_refl 0
  | count => exact Nat.le_refl 0

namespace Helper

variable {s s' : Helper port}

theorem Awake.step (inv : s.Awake) {e : HelperEvent port} (wakes : WakesAll s e)
    (step : HelperStep s e s') : s'.Awake := by
  cases e with
  | post p =>
      obtain rfl := step
      refine inv.imp_right fun ⟨cleared, enough⟩ => ⟨cleared, ?_⟩
      rw [List.length_append]
      exact Nat.le_add_right_of_le enough
  | worker e =>
      obtain ⟨workers, queue, moves, taken, rfl⟩ := step
      refine inv.imp_right fun ⟨cleared, enough⟩ => ⟨cleared, ?_⟩
      have balance := moves.countP WorkerPoint.isWaiting
      have one := e.isWaiting_of_cleared
      rw [Helper.waiting, taken, List.length_append] at enough
      rw [cleared] at balance
      change workers.countP WorkerPoint.isWaiting ≤ queue.length
      omega
  | clear =>
      obtain ⟨_, rfl⟩ := step
      exact .inr ⟨rfl, wakes⟩
  | test | sleep | close =>
      obtain ⟨here, rfl⟩ := step
      cases inv with
      | inl h => rw [here] at h; cases h
      | inr h => exact .inr h

/-- A worker that has not exited is in the wait on an empty queue, or it can move. -/
theorem Awake.not_deadlocked (inv : s.Awake) : ¬Deadlocked s := by
  intro dead
  obtain ⟨p, hp, left⟩ := dead.left
  have waits : 0 < s.waiting :=
    List.countP_pos_iff.mpr ⟨p, hp, by rw [dead.blocked p hp left]; rfl⟩
  cases inv with
  | inl h =>
      cases dead.looping with
      | inl here => rw [h] at here; cases here
      | inr here => rw [h] at here; cases here
  | inr h =>
      have enough := h.2
      rw [dead.empty, List.length_nil] at enough
      omega

end Helper

/-- In every run in which enough packets are queued when `m_run` is cleared, `ShutDown`
and the workers never wait for each other. -/
theorem not_deadlocked_of_wakesAll {dwNumberOfProcessors : DWORD}
    {trace : List (Helper port × HelperEvent port)} {s : Helper port}
    (run : Run HelperStep (Helper.init dwNumberOfProcessors) trace s)
    (wakes : Guarded WakesAll trace) : Everywhere (fun s => ¬Deadlocked s) trace s :=
  run.everywhere_of_guarded Helper.Awake (fun _ _ _ inv ok step => inv.step ok step)
    (fun _ inv => inv.not_deadlocked) (.inl rfl) wakes

/-- A worker is blocked when `m_run` is cleared, and a packet is queued: it takes the packet,
and all three leave. -/
theorem not_deadlocked_blocked : ∃ trace s, Run HelperStep (Helper.init 1) trace s ∧
    (∃ t : Helper highPort, (t, .clear) ∈ trace ∧ t.workers = [.blocked, .testing, .testing] ∧
      t.queue = [sixByteSend]) ∧
    s.shutDown = .closed ∧ Everywhere (fun s => ¬Deadlocked s) trace s := by
  let start : Helper highPort := Helper.init 1
  let tested : Helper highPort := { start with workers := [.calling, .testing, .testing] }
  let waits : Helper highPort := { start with workers := [.blocked, .testing, .testing] }
  let queued : Helper highPort := { waits with queue := [sixByteSend] }
  let cleared : Helper highPort := { queued with run := false, shutDown := .testing }
  have test : HelperStep start (.worker .test) tested :=
    ⟨_, [], ⟨[], [.testing, .testing], rfl, rfl⟩, rfl, rfl⟩
  have call : HelperStep tested (.worker .call) waits :=
    ⟨_, [], ⟨[], [.testing, .testing], rfl, rfl⟩, rfl, rfl⟩
  have post : HelperStep waits (.post sixByteSend) queued := rfl
  have clear : HelperStep queued .clear cleared := ⟨rfl, rfl⟩
  have wake : HelperStep cleared (.worker (.wake (.success sixByteSend)))
      (Helper.cleared highPort [.dispatching, .testing, .testing] 0) :=
    ⟨_, [], ⟨[], [.testing, .testing], rfl, rfl⟩, rfl, rfl⟩
  have dispatched : HelperStep (Helper.cleared highPort [.dispatching, .testing, .testing] 0)
      (.worker .dispatched) (Helper.cleared highPort [.testing, .testing, .testing] 0) :=
    ⟨_, [], ⟨[], [.testing, .testing], rfl, rfl⟩, rfl, rfl⟩
  obtain ⟨rest, s, leave, wakes, closed⟩ := exists_run_close highPort
  have run := Run.cons test (.cons call (.cons post (.cons clear (.cons wake
    (.cons dispatched leave)))))
  refine ⟨_, s, run, ⟨queued, by simp, rfl, rfl⟩, closed, not_deadlocked_of_wakesAll run ?_⟩
  simp only [guarded_cons]
  exact ⟨trivial, trivial, trivial, Nat.le_refl 1, trivial, trivial, wakes⟩

/-! ## The condition is exact -/

/-- How far a worker is from its exit when `m_run` is cleared. -/
def WorkerPoint.rank : WorkerPoint → Nat
  | .calling => 5
  | .blocked => 4
  | .dispatching => 3
  | .testing => 2
  | .leaving => 1
  | .exited => 0

/-- The step that a worker can take when `m_run` is cleared and the queue is `queue`. -/
theorem WorkerPoint.exists_event {p : WorkerPoint} {queue : List (Packet port)}
    (left : p ≠ .exited) (free : p = .blocked → queue ≠ []) :
    ∃ (e : WorkerEvent port) (rest : List (Packet port)), e.source = p ∧
      queue = e.takes.toList ++ rest ∧ (e.target false).rank < p.rank ∧
      ∀ o, e = .wake o → o.packet.isSome = true := by
  cases p with
  | testing => exact ⟨.test, queue, rfl, rfl, Nat.lt_succ_self 1, by simp⟩
  | calling => exact ⟨.call, queue, rfl, rfl, Nat.lt_succ_self 4, by simp⟩
  | blocked =>
      obtain ⟨packet, rest, rfl⟩ := List.exists_cons_of_ne_nil (free rfl)
      refine ⟨.wake (.success packet), rest, rfl, rfl, ?_, ?_⟩
      · exact Nat.lt_succ_self 3
      · intro o ho
        cases ho
        rfl
  | dispatching => exact ⟨.dispatched, queue, rfl, rfl, Nat.lt_succ_self 2, by simp⟩
  | leaving => exact ⟨.count, queue, rfl, rfl, Nat.lt_succ_self 0, by simp⟩
  | exited => exact absurd rfl left

/-- With more workers in the wait than packets, the others can leave and the rest stays
blocked while `ShutDown` waits for them. -/
theorem exists_deadlock {s : Helper port} (cleared : s.run = false)
    (looping : s.shutDown = .testing) (short : s.queue.length < s.waiting) :
    ∃ trace t, Run HelperStep s trace t ∧ Guarded Blocking trace ∧ Deadlocked t := by
  induction h : (s.workers.map WorkerPoint.rank).sum using Nat.strongRecOn
    generalizing s with
  | _ n ih =>
      by_cases moving : ∃ p ∈ s.workers, p ≠ .exited ∧ (p = .blocked → s.queue ≠ [])
      · obtain ⟨p, hp, left, free⟩ := moving
        obtain ⟨e, rest, rfl, taken, less, blocking⟩ := WorkerPoint.exists_event left free
        obtain ⟨workers, moves⟩ := exists_moves hp (e.target s.run)
        have step : HelperStep s (.worker e) _ := ⟨workers, rest, moves, taken, rfl⟩
        have balance := moves.countP WorkerPoint.isWaiting
        have ranks := moves.sum WorkerPoint.rank
        have one := WorkerEvent.isWaiting_of_blocking blocking
        have lengths := congrArg List.length taken
        rw [List.length_append] at lengths
        rw [Helper.waiting] at short
        rw [cleared] at balance ranks
        obtain ⟨trace, t, run, guard, dead⟩ := ih (workers.map WorkerPoint.rank).sum (by omega)
          (s := { s with
            workers := workers, queue := rest, existCount := e.existCount s.existCount })
          cleared looping
          (by change rest.length < workers.countP WorkerPoint.isWaiting; omega) rfl
        have here : Blocking s (.worker e) := by
          cases e with
          | wake o => exact .inl (blocking o rfl)
          | test | call | dispatched | count => trivial
        exact ⟨_, t, .cons step run, guarded_cons.mpr ⟨here, guard⟩, dead⟩
      · have stuck : ∀ p ∈ s.workers, p ≠ .exited → p = .blocked ∧ s.queue = [] := by
          intro p hp left
          by_contra h
          exact moving ⟨p, hp, left, fun hblocked hempty => h ⟨hblocked, hempty⟩⟩
        obtain ⟨p, hp, waits⟩ := List.countP_pos_iff.mp (Nat.zero_lt_of_lt short)
        have left : p ≠ .exited := by
          rintro rfl
          cases waits
        have dead : Deadlocked s :=
          ⟨.inl looping, ⟨p, hp, left⟩, fun p hp left => (stuck p hp left).1, (stuck p hp left).2⟩
        exact ⟨[], s, .nil s, guarded_nil _, dead⟩

/-- After any other clearing of `m_run` there is a schedule that ends in a deadlock. -/
theorem exists_deadlock_of_clear {s s' : Helper port} (step : HelperStep s .clear s')
    (short : ¬WakesAll s .clear) :
    ∃ trace t, Run HelperStep s' trace t ∧ Guarded Blocking trace ∧ Deadlocked t := by
  obtain ⟨_, rfl⟩ := step
  exact exists_deadlock rfl rfl (Nat.lt_of_not_le short)

/-- On a machine with one processor one worker is in the wait when `m_run` is cleared,
and nothing is queued. -/
theorem shutDown_deadlocks : ¬∀ (w : Nat) (port : Port w) (dwNumberOfProcessors : DWORD)
    (trace : List (Helper port × HelperEvent port)) (s : Helper port),
    1 ≤ (dwNumberOfProcessors + 2).toNat →
    Run HelperStep (Helper.init dwNumberOfProcessors) trace s → Guarded Blocking trace →
    Everywhere (fun s => ¬Deadlocked s) trace s := by
  intro all
  let start : Helper (Port.empty 32) := Helper.init 1
  let tested : Helper (Port.empty 32) := { start with workers := [.calling, .testing, .testing] }
  let waits : Helper (Port.empty 32) := { start with workers := [.blocked, .testing, .testing] }
  let cleared : Helper (Port.empty 32) := { waits with run := false, shutDown := .testing }
  have test : HelperStep start (.worker .test) tested :=
    ⟨_, [], ⟨[], [.testing, .testing], rfl, rfl⟩, rfl, rfl⟩
  have call : HelperStep tested (.worker .call) waits :=
    ⟨_, [], ⟨[], [.testing, .testing], rfl, rfl⟩, rfl, rfl⟩
  have clear : HelperStep waits .clear cleared := ⟨rfl, rfl⟩
  have short : ¬WakesAll waits .clear := Nat.not_succ_le_zero 0
  obtain ⟨rest, s, run, guard, dead⟩ := exists_deadlock_of_clear clear short
  have safe := all 32 (Port.empty 32) 1 _ s (by decide)
    (.cons test (.cons call (.cons clear run)))
    (by simp only [guarded_cons]; exact ⟨trivial, trivial, trivial, guard⟩)
  exact safe.2 dead

end IocpTest.IOCPHelper
