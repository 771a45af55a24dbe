import IocpTest.Logic.Agents
import IocpTest.Logic.Run

/-!
# Starting the thread pool

`Init` sets `m_bRun`, starts its threads and initialises `m_csLocker` last of all. A thread
runs from the moment it is started: it counts itself, finds `m_bRun` set and goes into
`GetElem`, whose first statement enters the critical section.

`TestsReady` is what it takes for the lock to be ready by then: no thread tests `m_bRun`
before `Init` has got to `m_csLocker.init()`. Then the lock also does what it is for
(`exclusive_of_testsReady`), which the steps of the pool and its workers take for granted.
Nothing in the code provides for it: with any thread at all there is a schedule in which
the lock is entered first (`entersReady_always_iff`).
-/

namespace IocpTest.ThreadPool

open StepSystem

/-- The `CRITICAL_SECTION` of a `CS_LockGuide`. -/
inductive LockState where
  /-- Before `InitializeCriticalSection`. -/
  | raw
  | free
  | held
  deriving DecidableEq, Repr

/-- Where `Init` stands. -/
inductive InitPoint where
  | called
  /-- Before the test of `i < threadNum`. -/
  | starting (i : BitVec 32)
  /-- Before `timeBeginPeriod(1)`. -/
  | timing
  /-- Before `m_csLocker.init()`. -/
  | locking
  | returned
  deriving DecidableEq, Repr

/-- Where a thread stands in `ThreadFunc`. -/
inductive ThreadPoint where
  /-- Before `InterlockedIncrement(&m_threadNum)`. -/
  | started
  /-- Before the test of `m_bRun`. -/
  | testing
  /-- In `GetElem`, before `EnterCriticalSection`. -/
  | entering
  /-- In `GetElem`, with the lock. -/
  | inside
  /-- Between `GetElem` and the next test, with the callback and `Sleep`. -/
  | outside
  | ended
  deriving DecidableEq, Repr

/-- The pool while it is being started. -/
structure Startup where
  threadNum : BitVec 32
  m_bRun : Bool
  m_threadNum : BitVec 32
  init : InitPoint
  lock : LockState
  threads : List ThreadPoint

/-- `Init(threadNum)` is called on a new pool. -/
def Startup.call (threadNum : BitVec 32) : Startup :=
  ⟨threadNum, false, 0, .called, .raw, []⟩

inductive ThreadEvent where
  | count
  | test
  /-- `EnterCriticalSection(&m_cs)` -/
  | enter
  /-- `LeaveCriticalSection(&m_cs)` -/
  | leave
  | goOn
  deriving DecidableEq, Repr

namespace ThreadEvent

def source : ThreadEvent → ThreadPoint
  | .count => .started
  | .test => .testing
  | .enter => .entering
  | .leave => .inside
  | .goOn => .outside

/-- Where the step ends, with the value of `m_bRun` that the test sees. -/
def target (m_bRun : Bool) : ThreadEvent → ThreadPoint
  | .count => .testing
  | .test => if m_bRun then .entering else .ended
  | .enter => .inside
  | .leave => .outside
  | .goOn => .testing

/-- The lock after the step; `none` when the step has to wait. What a critical section does
before it is initialised is undefined: here it keeps nobody out. -/
def lock (state : LockState) : ThreadEvent → Option LockState
  | .enter =>
      match state with
      | .raw => some .raw
      | .free => some .held
      | .held => none
  | .leave => some (if state = .held then .free else state)
  | _ => some state

def m_threadNum (n : BitVec 32) : ThreadEvent → BitVec 32
  | .count => n + 1
  | _ => n

end ThreadEvent

inductive StartupEvent where
  /-- `m_bRun = true` -/
  | run
  /-- A pass through the loop, with whether `_beginthreadex` has made a thread. -/
  | start (created : Bool)
  /-- The loop test fails. -/
  | exit
  | timeBeginPeriod
  /-- `m_csLocker.init()` -/
  | initLock
  | thread (e : ThreadEvent)
  deriving DecidableEq, Repr

def StartupStep (s : Startup) : StartupEvent → Startup → Prop
  | .run, s' => s.init = .called ∧ s' = { s with m_bRun := true, init := .starting 0 }
  | .start created, s' =>
      ∃ i, s.init = .starting i ∧ i < s.threadNum ∧
        s' = { s with
          threads := s.threads ++ if created then [.started] else []
          init := .starting (i + 1) }
  | .exit, s' => ∃ i, s.init = .starting i ∧ ¬i < s.threadNum ∧ s' = { s with init := .timing }
  | .timeBeginPeriod, s' => s.init = .timing ∧ s' = { s with init := .locking }
  | .initLock, s' => s.init = .locking ∧ s' = { s with lock := .free, init := .returned }
  | .thread e, s' =>
      ∃ threads lock, Moves s.threads threads e.source (e.target s.m_bRun) ∧
        e.lock s.lock = some lock ∧
        s' = { s with
          threads := threads
          lock := lock
          m_threadNum := e.m_threadNum s.m_threadNum }

/-- No thread enters a critical section that is not initialised. -/
def EntersReady (s : Startup) : StartupEvent → Prop
  | .thread .enter => s.lock ≠ .raw
  | _ => True

/-- `m_bRun` is tested after `Init` has initialised the lock. -/
def TestsReady (s : Startup) : StartupEvent → Prop
  | .thread .test => s.lock ≠ .raw
  | _ => True

def ThreadPoint.isInside (p : ThreadPoint) : Bool := p == .inside

/-- At most one thread is in the critical section. -/
def Startup.Exclusive (s : Startup) : Prop := s.threads.countP ThreadPoint.isInside ≤ 1

/-! ## The invariant -/

/-- Until `Init` has initialised the lock no thread has got past its first test, and the
lock is held by the thread that is inside. -/
structure Startup.Ready (s : Startup) : Prop where
  last : s.init ≠ .returned → s.lock = .raw
  early : s.lock = .raw → ∀ p ∈ s.threads, p = .started ∨ p = .testing
  inside : s.threads.countP ThreadPoint.isInside = if s.lock = .held then 1 else 0

/-- Only `Init` initialises the lock. -/
theorem ThreadEvent.lock_eq_raw {e : ThreadEvent} {state state' : LockState}
    (h : e.lock state = some state') : state' = .raw ↔ state = .raw := by
  cases e <;> cases state <;> cases h <;> decide

/-- A thread that is let in takes the lock, one that leaves gives it back. -/
theorem ThreadEvent.lock_balance {e : ThreadEvent} {state state' : LockState} (m_bRun : Bool)
    (ready : state ≠ .raw) (h : e.lock state = some state')
    (own : e.source = .inside → state = .held) :
    (if state' = .held then 1 else 0) + (if e.source.isInside then 1 else 0) =
      (if state = .held then 1 else 0) + if (e.target m_bRun).isInside then 1 else 0 := by
  cases e with
  | enter =>
      cases state with
      | raw => exact absurd rfl ready
      | free => cases h; rfl
      | held => cases h
  | leave =>
      obtain rfl := own rfl
      cases h
      rfl
  | count => cases h; rfl
  | test => cases h; cases m_bRun <;> rfl
  | goOn => cases h; rfl

namespace Startup.Ready

variable {s s' : Startup}

theorem call (threadNum : BitVec 32) : (Startup.call threadNum).Ready where
  last := fun _ => rfl
  early := fun _ _ hp => absurd hp List.not_mem_nil
  inside := rfl

/-- Before the lock is initialised a thread can only count itself, if the tests wait. -/
theorem count_of_raw (inv : s.Ready) {e : ThreadEvent} (ok : TestsReady s (.thread e))
    (raw : s.lock = .raw) (member : e.source ∈ s.threads) : e = .count := by
  cases e with
  | count => rfl
  | test => exact absurd raw ok
  | enter | leave | goOn =>
      cases inv.early raw _ member with
      | inl h => cases h
      | inr h => cases h

theorem held_of_inside (inv : s.Ready) (member : .inside ∈ s.threads) : s.lock = .held := by
  have some : 0 < s.threads.countP ThreadPoint.isInside :=
    List.countP_pos_iff.mpr ⟨_, member, rfl⟩
  rw [inv.inside] at some
  by_contra free
  rw [if_neg free] at some
  exact Nat.lt_irrefl 0 some

theorem thread (inv : s.Ready) {e : ThreadEvent} (ok : TestsReady s (.thread e))
    (step : StartupStep s (.thread e) s') : s'.Ready := by
  obtain ⟨threads, lock, moves, locked, rfl⟩ := step
  have balance := moves.countP ThreadPoint.isInside
  have same := ThreadEvent.lock_eq_raw locked
  by_cases raw : s.lock = .raw
  · obtain rfl := inv.count_of_raw ok raw moves.mem
    obtain rfl := Option.some.inj locked
    refine ⟨inv.last, fun _ => moves.forall_mem (inv.early raw) (.inr rfl), ?_⟩
    rw [← inv.inside]
    exact balance
  · have taken := ThreadEvent.lock_balance s.m_bRun raw locked
      fun h => inv.held_of_inside (h ▸ moves.mem)
    refine ⟨fun h => same.mpr (inv.last h), fun h => absurd (same.mp h) raw, ?_⟩
    rw [inv.inside] at balance
    change threads.countP ThreadPoint.isInside = if lock = .held then 1 else 0
    omega

theorem start (inv : s.Ready) {created : Bool} (step : StartupStep s (.start created) s') :
    s'.Ready := by
  obtain ⟨i, here, _, rfl⟩ := step
  have raw : s.lock = .raw := inv.last (by rw [here]; simp)
  refine ⟨fun _ => raw, ?_, ?_⟩
  · intro _ p hp
    cases List.mem_append.mp hp with
    | inl h => exact inv.early raw p h
    | inr h =>
        cases created with
        | true => exact .inl (List.mem_singleton.mp h)
        | false => exact absurd h List.not_mem_nil
  · change (s.threads ++ _).countP _ = _
    rw [List.countP_append, inv.inside]
    cases created <;> rfl

theorem step (inv : s.Ready) {e : StartupEvent} (ok : TestsReady s e)
    (step : StartupStep s e s') : s'.Ready := by
  cases e with
  | run | timeBeginPeriod =>
      obtain ⟨here, rfl⟩ := step
      exact ⟨fun _ => inv.last (by rw [here]; simp), inv.early, inv.inside⟩
  | exit =>
      obtain ⟨i, here, _, rfl⟩ := step
      exact ⟨fun _ => inv.last (by rw [here]; simp), inv.early, inv.inside⟩
  | start created => exact inv.start step
  | initLock =>
      obtain ⟨here, rfl⟩ := step
      have raw : s.lock = .raw := inv.last (by rw [here]; simp)
      have nobody := inv.inside
      rw [raw] at nobody
      exact ⟨fun h => absurd rfl h, fun h => (by cases h), nobody⟩
  | thread e => exact inv.thread ok step

theorem entersReady (inv : s.Ready) {e : StartupEvent} (step : StartupStep s e s') :
    EntersReady s e := by
  cases e with
  | thread e =>
      cases e with
      | enter =>
          obtain ⟨_, _, moves, _⟩ := step
          intro raw
          cases inv.early raw _ moves.mem with
          | inl h => cases h
          | inr h => cases h
      | count | test | leave | goOn => trivial
  | run | start | exit | timeBeginPeriod | initLock => trivial

theorem exclusive (inv : s.Ready) : s.Exclusive := by
  rw [Startup.Exclusive, inv.inside]
  split
  · exact Nat.le_refl 1
  · exact Nat.zero_le 1

end Startup.Ready

/-- In every run in which no thread tests `m_bRun` before the lock is initialised, no
thread enters the lock before that, for any number of threads. -/
theorem entersReady_of_testsReady {threadNum : BitVec 32}
    {trace : List (Startup × StartupEvent)} {s : Startup}
    (run : Run StartupStep (Startup.call threadNum) trace s) (ready : Guarded TestsReady trace) :
    Guarded EntersReady trace :=
  run.guarded_of_guarded Startup.Ready (fun _ _ _ inv ok step => inv.step ok step)
    (fun _ _ _ inv _ step => inv.entersReady step) (.call threadNum) ready

/-- In such a run the lock keeps all threads but one out. -/
theorem exclusive_of_testsReady {threadNum : BitVec 32} {trace : List (Startup × StartupEvent)}
    {s : Startup} (run : Run StartupStep (Startup.call threadNum) trace s)
    (ready : Guarded TestsReady trace) : Everywhere Startup.Exclusive trace s :=
  run.everywhere_of_guarded Startup.Ready (fun _ _ _ inv ok step => inv.step ok step)
    (fun _ inv => inv.exclusive) (.call threadNum) ready

/-! ## The condition is exact -/

/-- A thread that finds `m_bRun` set too early can enter at once. -/
theorem exists_early_enter {s s' : Startup} (step : StartupStep s (.thread .test) s')
    (running : s.m_bRun = true) (early : ¬TestsReady s (.thread .test)) :
    ∃ t, StartupStep s' (.thread .enter) t ∧ ¬EntersReady s' (.thread .enter) := by
  obtain ⟨threads, lock, moves, locked, rfl⟩ := step
  obtain rfl := Option.some.inj locked
  have raw : s.lock = .raw := not_not.mp early
  have entering : ThreadPoint.entering ∈ threads := by
    have there := moves.mem_after
    rwa [running] at there
  obtain ⟨threads', moves'⟩ := exists_moves entering ThreadPoint.inside
  have taken : ThreadEvent.enter.lock s.lock = some .raw := by
    rw [raw]
    rfl
  exact ⟨_, ⟨threads', _, moves', taken, rfl⟩, fun h => h raw⟩

section

variable (threadNum : BitVec 32)

/-- `m_bRun` is set and the only thread so far stands at a point. -/
def Startup.first (p : ThreadPoint) (m_threadNum : BitVec 32) : Startup :=
  ⟨threadNum, true, m_threadNum, .starting 1, .raw, [p]⟩

/-- The first thread is started, counts itself and finds `m_bRun` set while `Init` is
still in its loop. -/
theorem exists_run_entering (some : 0 < threadNum) :
    ∃ trace, Run StartupStep (Startup.call threadNum) trace
      (Startup.first threadNum .entering 1) := by
  let looping : Startup := ⟨threadNum, true, 0, .starting 0, .raw, []⟩
  have set : StartupStep (Startup.call threadNum) .run looping := ⟨rfl, rfl⟩
  have start : StartupStep looping (.start true) (Startup.first threadNum .started 0) :=
    ⟨0, rfl, some, rfl⟩
  have count : StartupStep (Startup.first threadNum .started 0) (.thread .count)
      (Startup.first threadNum .testing 1) := ⟨_, _, ⟨[], [], rfl, rfl⟩, rfl, rfl⟩
  have test : StartupStep (Startup.first threadNum .testing 1) (.thread .test)
      (Startup.first threadNum .entering 1) := ⟨_, _, ⟨[], [], rfl, rfl⟩, rfl, rfl⟩
  exact ⟨_, .cons set (.cons start (.cons count (.cons test (.nil _))))⟩

/-- The order is right in every schedule if and only if no thread is asked for. -/
theorem entersReady_always_iff :
    (∀ (trace : List (Startup × StartupEvent)) (s : Startup),
      Run StartupStep (Startup.call threadNum) trace s → Guarded EntersReady trace) ↔
        threadNum = 0 := by
  constructor
  · intro all
    by_contra some
    have more : 0 < threadNum := (BitVec.pos_iff_ne_zero threadNum).mpr some
    obtain ⟨trace, run⟩ := exists_run_entering threadNum more
    have enter : StartupStep (Startup.first threadNum .entering 1) (.thread .enter)
        (Startup.first threadNum .inside 1) := ⟨_, _, ⟨[], [], rfl, rfl⟩, rfl, rfl⟩
    have safe := all _ _ (run.append (.cons enter (.nil _)))
    exact (guarded_append.mp safe).2 _ List.mem_cons_self rfl
  · rintro rfl trace s run
    have alone : ∀ s e t, s.threadNum = 0 ∧ s.threads = [] → StartupStep s e t →
        (t.threadNum = 0 ∧ t.threads = []) ∧ EntersReady s e := by
      rintro s e t ⟨none, nobody⟩ step
      cases e with
      | run | timeBeginPeriod | initLock =>
          obtain ⟨_, rfl⟩ := step
          exact ⟨⟨none, nobody⟩, trivial⟩
      | exit =>
          obtain ⟨_, _, _, rfl⟩ := step
          exact ⟨⟨none, nobody⟩, trivial⟩
      | start created =>
          obtain ⟨i, _, more, _⟩ := step
          rw [none] at more
          exact absurd more BitVec.not_lt_zero
      | thread e =>
          obtain ⟨_, _, moves, _⟩ := step
          have member := moves.mem
          rw [nobody] at member
          exact absurd member List.not_mem_nil
    have guard : Guarded (fun _ _ => True) trace := fun _ _ => trivial
    exact run.guarded_of_guarded (fun s => s.threadNum = 0 ∧ s.threads = [])
      (fun s e t inv _ step => (alone s e t inv step).1)
      (fun s e t inv _ step => (alone s e t inv step).2) ⟨rfl, rfl⟩ guard

end

/-- The pool with one thread when `Init` has returned. -/
def oneThread (p : ThreadPoint) (m_threadNum : BitVec 32) (lock : LockState) : Startup :=
  ⟨1, true, m_threadNum, .returned, lock, [p]⟩

/-- A thread that starts to run when `Init` has returned enters an initialised lock. -/
theorem entersReady_oneThread : ∃ trace s, Run StartupStep (Startup.call 1) trace s ∧
    trace.map Prod.snd = [.run, .start true, .exit, .timeBeginPeriod, .initLock,
      .thread .count, .thread .test, .thread .enter] ∧ Guarded EntersReady trace := by
  let looping : Startup := ⟨1, true, 0, .starting 0, .raw, []⟩
  let timing : Startup := { Startup.first 1 .started 0 with init := .timing }
  let locking : Startup := { timing with init := .locking }
  have set : StartupStep (Startup.call 1) .run looping := ⟨rfl, rfl⟩
  have start : StartupStep looping (.start true) (Startup.first 1 .started 0) :=
    ⟨0, rfl, by decide, rfl⟩
  have exit : StartupStep (Startup.first 1 .started 0) .exit timing := ⟨1, rfl, by decide, rfl⟩
  have time : StartupStep timing .timeBeginPeriod locking := ⟨rfl, rfl⟩
  have init : StartupStep locking .initLock (oneThread .started 0 .free) := ⟨rfl, rfl⟩
  have count : StartupStep (oneThread .started 0 .free) (.thread .count)
      (oneThread .testing 1 .free) := ⟨_, _, ⟨[], [], rfl, rfl⟩, rfl, rfl⟩
  have test : StartupStep (oneThread .testing 1 .free) (.thread .test)
      (oneThread .entering 1 .free) := ⟨_, _, ⟨[], [], rfl, rfl⟩, rfl, rfl⟩
  have enter : StartupStep (oneThread .entering 1 .free) (.thread .enter)
      (oneThread .inside 1 .held) := ⟨_, _, ⟨[], [], rfl, rfl⟩, rfl, rfl⟩
  have run := Run.cons set (.cons start (.cons exit (.cons time (.cons init
    (.cons count (.cons test (.cons enter (.nil _))))))))
  refine ⟨_, _, run, rfl, entersReady_of_testsReady run ?_⟩
  simp [TestsReady, oneThread]

/-- The only thread is in `GetElem` before `Init` has left its loop. -/
theorem not_entersReady : ¬∀ (threadNum : BitVec 32) (trace : List (Startup × StartupEvent))
    (s : Startup), Run StartupStep (Startup.call threadNum) trace s →
      Guarded EntersReady trace := by
  intro all
  have none : (1 : BitVec 32) = 0 := (entersReady_always_iff 1).mp (all 1)
  exact absurd none (by decide)

end IocpTest.ThreadPool
