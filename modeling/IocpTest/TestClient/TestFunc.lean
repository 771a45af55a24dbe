import IocpTest.Logic.Agents
import IocpTest.Logic.Run
import IocpTest.ThreadPool.Pool

/-!
# The tasks of a test client

A `TestClient` runs its operations as elements of the thread pool, each of them once.
`TestFunc` is their callback: the worker that has obtained an element makes the calls
which its `switch` comes to, and since no case ends in a `break` a check goes on into
the receive.

Calls of `CheckUid` and `CheckUidRst` are atomic and interleave in any order, over any
number of workers. The pool holds elements of others as well, and whether `AddElem`
accepts an element is left open. A worker knows the kind of its task from the moment it
obtains the element; that the element can be deleted before its callback looks at it is
another matter (`ThreadPool.Workers`). `Balanced` accounts for every accepted task: its
calls are still to be made, with a worker, or made.
-/

namespace IocpTest.TestClient

open StepSystem Function ThreadPool

/-- `ClientOPT`, the kinds of tasks. -/
inductive ClientOPT where
  | reqCheckUid
  | reqRecvChekcUid
  deriving DecidableEq, Repr

inductive ClientCall where
  | checkUid
  | checkUidRst
  deriving DecidableEq, Repr

/-- The calls of `TestFunc`. The case of a check falls through. -/
def testFunc (opt : ClientOPT) : List ClientCall :=
  let recvChekcUid := [.checkUidRst]
  match opt with
  | .reqCheckUid => .checkUid :: recvChekcUid
  | .reqRecvChekcUid => recvChekcUid

/-- The element of a task: `_ThreadElem(TestClient::TestFunc, new TestParam(..), 1, 0, 0)`. -/
def testElem (id : Nat) : ThreadElem := ⟨id, some 0, some id, 1#32, 0#32, 0#32⟩

/-- A message that waits in `m_optRecord`. As history, whether an answer has been
received since it was stored. -/
structure Record where
  confirmed : Bool

/-- The calls that a worker still has to make, each with the kind of its task. -/
abbrev PoolWorker := List (ClientOPT × ClientCall)

/-- `oneElem->callback(oneElem->pParam)` on an element of this kind. -/
def callsOf : Option ClientOPT → PoolWorker
  | none => []
  | some opt => (testFunc opt).map fun call => (opt, call)

/-- A client, the pool and its workers. -/
structure Client where
  pool : Pool
  /-- The `opt` in the `TestParam` of the element with this identity, for the elements
  of the client. -/
  params : Nat → Option ClientOPT
  workers : List PoolWorker
  /-- `m_optRecord[0]`; no other key is used. -/
  optRecord : Option Record
  /-- As history, the messages that were deleted or replaced. -/
  dropped : List Record
  /-- As history, how many calls have been made by tasks of each kind. -/
  ran : ClientOPT → ClientCall → Nat

def Client.init (threadNum : Nat) : Client where
  pool := Pool.empty
  params := fun _ => none
  workers := List.replicate threadNum []
  optRecord := none
  dropped := []
  ran := fun _ _ => 0

inductive ClientEvent where
  /-- `ReqOpt_CheckUid` -/
  | reqOptCheckUid (id : Nat) (accepted : Bool)
  /-- `AddElem` on an element of somebody else. -/
  | other (param : ThreadElem) (accepted : Bool)
  /-- `GetElem` of a worker that has nothing to do. -/
  | get (time : Nat)
  /-- `CheckUid`, with the result of `send` and the element of its follow-up. -/
  | checkUid (opt : ClientOPT) (sent : Bool) (id : Nat) (accepted : Bool)
  /-- `CheckUidRst`; `received` says that `recv` returned a datagram. -/
  | checkUidRst (opt : ClientOPT) (received : Bool)

namespace Client

/-- The object is a new one. -/
def Fresh (s : Client) (id : Nat) : Prop := ∀ a ∈ s.pool.accepted, a.id ≠ id

/-- `AddElem` on a new element for a task of the client, or of somebody else. -/
def addElem (s : Client) (param : ThreadElem) (kind : Option ClientOPT)
    (accepted : Bool) : Client :=
  if accepted then { s with pool := s.pool.push param, params := update s.params param.id kind }
  else s

/-- The kind of the task that `GetElem` has returned, if it is one of the client. -/
def taskOf (s : Client) (returned : Option ThreadElem) : Option ClientOPT :=
  returned.bind fun e => s.params e.id

/-- The state after `GetElem`. -/
def get (s : Client) (time : Nat) (workers : List PoolWorker) : Client :=
  { s with pool := s.pool.get time, workers := workers }

/-- The history after one more call. -/
def count (s : Client) (opt : ClientOPT) (call : ClientCall) : ClientOPT → ClientCall → Nat :=
  update s.ran opt (update (s.ran opt) call (s.ran opt call + 1))

/-- `CheckUid` up to `ReqOpt_RecvCheckUid`. A failed `send` is only logged. -/
def checkUid (s : Client) (opt : ClientOPT) (workers : List PoolWorker) : Client :=
  { s with
    workers := workers
    optRecord := some ⟨false⟩
    dropped := s.optRecord.toList ++ s.dropped
    ran := s.count opt .checkUid }

/-- `CheckUidRst`. A failed `recv` is logged, and the record goes all the same. -/
def checkUidRst (s : Client) (opt : ClientOPT) (received : Bool)
    (workers : List PoolWorker) : Client :=
  { s with
    workers := workers
    optRecord := none
    dropped := (s.optRecord.map fun r => ⟨r.confirmed || received⟩).toList ++ s.dropped
    ran := s.count opt .checkUidRst }

end Client

def ClientStep (s : Client) : ClientEvent → Client → Prop
  | .reqOptCheckUid id accepted, s' =>
      s.Fresh id ∧ s' = s.addElem (testElem id) (some .reqCheckUid) accepted
  | .other param accepted, s' =>
      s.Fresh param.id ∧ param.runCount ≠ 0#32 ∧ s' = s.addElem param none accepted
  | .get time, s' =>
      ∃ workers, s.pool.now ≤ time ∧
        Moves s.workers workers []
          (callsOf (s.taskOf (getElem (BitVec.ofNat 32 time) s.pool.elems).returned)) ∧
        s' = s.get time workers
  | .checkUid opt _ id accepted, s' =>
      ∃ rest workers, Moves s.workers workers ((opt, .checkUid) :: rest) rest ∧ s.Fresh id ∧
        s' = (s.checkUid opt workers).addElem (testElem id) (some .reqRecvChekcUid) accepted
  | .checkUidRst opt received, s' =>
      ∃ rest workers, Moves s.workers workers ((opt, .checkUidRst) :: rest) rest ∧
        s' = s.checkUidRst opt received workers

/-! ## The tasks in the pool -/

namespace Client

/-- The number of elements of a kind that the pool has accepted. -/
def accepted (s : Client) (opt : ClientOPT) : Nat :=
  s.pool.accepted.countP fun a => s.params a.id == some opt

/-- The number of those that have not been handed out. -/
def queued (s : Client) (opt : ClientOPT) : Nat :=
  s.pool.accepted.countP fun a => s.params a.id == some opt && (s.pool.returns a.id).isEmpty

/-- The number of calls that workers still have to make. -/
def pending (s : Client) (opt : ClientOPT) (call : ClientCall) : Nat :=
  (s.workers.map fun w => w.count (opt, call)).sum

/-- The objects in the pool are different, and those of the client run once. -/
structure Tasks (s : Client) : Prop where
  pool : s.pool.Inv
  ids : (s.pool.accepted.map ThreadElem.id).Nodup
  once : ∀ a ∈ s.pool.accepted, ∀ opt, s.params a.id = some opt → a.runCount = 1#32

/-- Every accepted task makes its calls once: they are still to come, with a worker, or
made. -/
def Balanced (s : Client) : Prop :=
  ∀ opt call, s.accepted opt * (testFunc opt).count call =
    s.queued opt * (testFunc opt).count call + s.pending opt call + s.ran opt call

variable {s : Client} {param : ThreadElem} {kind : Option ClientOPT}

/-- `AddElem` on an element that is accepted. -/
def push (s : Client) (param : ThreadElem) (kind : Option ClientOPT) : Client :=
  { s with pool := s.pool.push param, params := update s.params param.id kind }

theorem addElem_cases (s : Client) (param : ThreadElem) (kind : Option ClientOPT)
    (accepted : Bool) :
    s.addElem param kind accepted = s ∨ s.addElem param kind accepted = s.push param kind := by
  cases accepted with
  | false => exact .inl rfl
  | true => exact .inr rfl

@[simp] theorem checkUid_dropped (s : Client) (opt : ClientOPT) (workers : List PoolWorker) :
    (s.checkUid opt workers).dropped = s.optRecord.toList ++ s.dropped := rfl

@[simp] theorem checkUidRst_dropped (s : Client) (opt : ClientOPT) (received : Bool)
    (workers : List PoolWorker) : (s.checkUidRst opt received workers).dropped =
      (s.optRecord.map fun r => ⟨r.confirmed || received⟩).toList ++ s.dropped := rfl

@[simp] theorem addElem_optRecord (s : Client) (param : ThreadElem) (kind : Option ClientOPT)
    (accepted : Bool) : (s.addElem param kind accepted).optRecord = s.optRecord := by
  cases accepted <;> rfl

@[simp] theorem addElem_dropped (s : Client) (param : ThreadElem) (kind : Option ClientOPT)
    (accepted : Bool) : (s.addElem param kind accepted).dropped = s.dropped := by
  cases accepted <;> rfl

@[simp] theorem addElem_ran (s : Client) (param : ThreadElem) (kind : Option ClientOPT)
    (accepted : Bool) : (s.addElem param kind accepted).ran = s.ran := by
  cases accepted <;> rfl

/-- The new element leaves the kinds of the others alone. -/
theorem params_push_of_mem (fresh : s.Fresh param.id) {a : ThreadElem} (ha : a ∈ s.pool.accepted) :
    (s.push param kind).params a.id = s.params a.id :=
  update_of_ne (fresh a ha) _ _

theorem params_push_self : (s.push param kind).params param.id = kind :=
  update_self _ _ _

theorem accepted_push (fresh : s.Fresh param.id) (opt : ClientOPT) :
    (s.push param kind).accepted opt = s.accepted opt + if kind = some opt then 1 else 0 := by
  have others : s.pool.accepted.countP (fun a => (s.push param kind).params a.id == some opt) =
      s.accepted opt := by
    apply List.countP_congr
    intro a ha
    rw [params_push_of_mem fresh ha]
  change (s.pool.accepted ++ [param]).countP _ = _
  rw [List.countP_append, others, List.countP_singleton, params_push_self]
  simp only [beq_iff_eq]

theorem queued_push (tasks : s.Tasks) (fresh : s.Fresh param.id) (opt : ClientOPT) :
    (s.push param kind).queued opt = s.queued opt + if kind = some opt then 1 else 0 := by
  have others : s.pool.accepted.countP (fun a => (s.push param kind).params a.id == some opt &&
      (s.pool.returns a.id).isEmpty) = s.queued opt := by
    apply List.countP_congr
    intro a ha
    rw [params_push_of_mem fresh ha]
  change (s.pool.accepted ++ [param]).countP (fun a => _ && (s.pool.returns a.id).isEmpty) = _
  rw [List.countP_append, others, List.countP_singleton, params_push_self,
    tasks.pool.unseen param.id fresh]
  simp only [List.isEmpty_nil, Bool.and_true, beq_iff_eq]

theorem Tasks.push (tasks : s.Tasks) (fresh : s.Fresh param.id)
    (once : ∀ opt, kind = some opt → param.runCount = 1#32) : (s.push param kind).Tasks where
  pool := tasks.pool.push fresh
  ids := nodup_ids_concat tasks.ids fresh
  once := by
    intro a ha opt hopt
    cases Pool.mem_accepted_push.mp ha with
    | inl ha =>
        rw [params_push_of_mem fresh ha] at hopt
        exact tasks.once a ha opt hopt
    | inr ha =>
        subst ha
        rw [params_push_self] at hopt
        exact once opt hopt

/-- A task that is accepted is queued. -/
theorem Balanced.push (balanced : s.Balanced) (tasks : s.Tasks) (fresh : s.Fresh param.id) :
    (s.push param kind).Balanced := by
  intro opt call
  rw [accepted_push fresh, queued_push tasks fresh, Nat.add_mul, Nat.add_mul, balanced opt call]
  change _ = _ + s.pending opt call + s.ran opt call
  omega

/-- An element that is handed out has been accepted, and one of the client for the
first time. -/
theorem Tasks.handedOut (tasks : s.Tasks) {time : Nat} {y : ThreadElem}
    (returned : (getElem (BitVec.ofNat 32 time) s.pool.elems).returned = some y) :
    ∃ e ∈ s.pool.accepted, e.id = y.id ∧
      ∀ opt, s.params e.id = some opt → s.pool.returns e.id = [] := by
  obtain ⟨e, he, hid, left⟩ := tasks.pool.handedOut returned
  refine ⟨e, he, hid, fun opt task => ?_⟩
  have once := tasks.once e he opt task
  have few := left (by rw [once]; decide)
  rw [once] at few
  exact List.eq_nil_of_length_eq_zero (Nat.lt_one_iff.mp few)

/-- One task that `GetElem` returns is no longer queued. -/
theorem queued_get (tasks : s.Tasks) (time : Nat) (workers : List PoolWorker) (opt : ClientOPT) :
    (s.get time workers).queued opt +
        (if s.taskOf (getElem (BitVec.ofNat 32 time) s.pool.elems).returned = some opt
          then 1 else 0) =
      s.queued opt := by
  cases hret : (getElem (BitVec.ofNat 32 time) s.pool.elems).returned with
  | none =>
      have same : (s.pool.get time).returns = s.pool.returns := by
        rw [Pool.get, hret]
        rfl
      change s.pool.accepted.countP (fun a => _ && ((s.pool.get time).returns a.id).isEmpty) + _ = _
      rw [same]
      rfl
  | some y =>
      obtain ⟨e, he, hid, first⟩ := tasks.handedOut hret
      have others : ∀ a ∈ s.pool.accepted, a.id ≠ e.id →
          (s.params a.id == some opt && ((s.pool.get time).returns a.id).isEmpty) =
            (s.params a.id == some opt && (s.pool.returns a.id).isEmpty) := by
        intro a _ other
        rw [Pool.returns_get_of_returned hret (hid ▸ other)]
      have more : (s.pool.get time).returns e.id = time :: s.pool.returns e.id := by
        rw [hid]
        exact Pool.returns_get_of_eq hret
      have flip : (s.get time workers).queued opt +
            (if s.params e.id == some opt && (s.pool.returns e.id).isEmpty then 1 else 0) =
          s.queued opt +
            (if s.params e.id == some opt && ((s.pool.get time).returns e.id).isEmpty
              then 1 else 0) := countP_flip tasks.ids he others
      change _ + (if s.params y.id = some opt then 1 else 0) = _
      rw [more, List.isEmpty_cons, Bool.and_false] at flip
      rw [← hid]
      by_cases task : s.params e.id = some opt
      · rw [task, first opt task, beq_self_eq_true, List.isEmpty_nil, Bool.and_self] at flip
        rw [if_pos task]
        exact flip
      · rw [beq_false_of_ne task, Bool.false_and] at flip
        rw [if_neg task]
        exact flip

theorem Tasks.get (tasks : s.Tasks) (time : Nat) (workers : List PoolWorker) :
    (s.get time workers).Tasks :=
  ⟨tasks.pool.get time, tasks.ids, tasks.once⟩

theorem count_callsOf (task : Option ClientOPT) (opt : ClientOPT) (call : ClientCall) :
    (callsOf task).count (opt, call) =
      (if task = some opt then 1 else 0) * (testFunc opt).count call := by
  cases task with
  | none => simp [callsOf]
  | some kind => cases kind <;> cases opt <;> cases call <;> rfl

/-- A task that `GetElem` returns is with its worker. -/
theorem Balanced.get (balanced : s.Balanced) (tasks : s.Tasks) {time : Nat}
    {workers : List PoolWorker} (moves : Moves s.workers workers []
      (callsOf (s.taskOf (getElem (BitVec.ofNat 32 time) s.pool.elems).returned))) :
    (s.get time workers).Balanced := by
  intro opt call
  have queued := queued_get tasks time workers opt
  have pending := moves.sum fun w => w.count (opt, call)
  rw [count_callsOf, List.count_nil, Nat.add_zero] at pending
  change s.accepted opt * _ = _ + (workers.map fun w => w.count (opt, call)).sum + s.ran opt call
  rw [pending, balanced opt call, ← queued, Nat.add_mul]
  change _ + _ + s.pending opt call + _ = _ + (s.pending opt call + _) + _
  omega

/-- A call that a worker makes is no longer to come. -/
theorem Balanced.call {s' : Client} (balanced : s.Balanced) {opt : ClientOPT} {call : ClientCall}
    {rest : PoolWorker} (moves : Moves s.workers s'.workers ((opt, call) :: rest) rest)
    (pool : s'.pool = s.pool) (params : s'.params = s.params) (ran : s'.ran = s.count opt call) :
    s'.Balanced := by
  intro o c
  have pending := moves.sum fun w => w.count (o, c)
  rw [List.count_cons] at pending
  have made : s'.ran o c = s.ran o c + if (opt, call) == (o, c) then 1 else 0 := by
    rw [ran]
    cases opt <;> cases call <;> cases o <;> cases c <;> rfl
  have before := balanced o c
  rw [Client.accepted, Client.queued, Client.pending] at before ⊢
  rw [pool, params, made]
  omega

theorem Tasks.init (threadNum : Nat) : (Client.init threadNum).Tasks :=
  ⟨Pool.Inv.empty, List.nodup_nil, fun _ ha => absurd ha List.not_mem_nil⟩

theorem Balanced.init (threadNum : Nat) : (Client.init threadNum).Balanced := by
  intro opt call
  simp [Client.init, Client.accepted, Client.queued, Client.pending, Pool.empty]

/-- The invariant of all runs. -/
structure Inv (s : Client) : Prop where
  tasks : s.Tasks
  balanced : s.Balanced

theorem Inv.addElem (inv : s.Inv) (fresh : s.Fresh param.id)
    (once : ∀ opt, kind = some opt → param.runCount = 1#32) (accepted : Bool) :
    (s.addElem param kind accepted).Inv := by
  cases s.addElem_cases param kind accepted with
  | inl same =>
      rw [same]
      exact inv
  | inr added =>
      rw [added]
      exact ⟨inv.tasks.push fresh once, inv.balanced.push inv.tasks fresh⟩

/-- A call changes the records of the client as it likes. -/
theorem Inv.call {s' : Client} (inv : s.Inv) {opt : ClientOPT} {call : ClientCall}
    {rest : PoolWorker} (moves : Moves s.workers s'.workers ((opt, call) :: rest) rest)
    (pool : s'.pool = s.pool) (params : s'.params = s.params) (ran : s'.ran = s.count opt call) :
    s'.Inv := by
  refine ⟨?_, inv.balanced.call moves pool params ran⟩
  obtain ⟨poolInv, ids, once⟩ := inv.tasks
  constructor
  · rw [pool]
    exact poolInv
  · rw [pool]
    exact ids
  · rw [pool, params]
    exact once

theorem Inv.step {s' : Client} {e : ClientEvent} (inv : s.Inv) (step : ClientStep s e s') :
    s'.Inv := by
  cases e with
  | reqOptCheckUid id accepted =>
      obtain ⟨fresh, rfl⟩ := step
      exact inv.addElem fresh (fun _ _ => rfl) accepted
  | other param accepted =>
      obtain ⟨fresh, _, rfl⟩ := step
      exact inv.addElem fresh (fun _ h => by cases h) accepted
  | get time =>
      obtain ⟨workers, _, moves, rfl⟩ := step
      exact ⟨inv.tasks.get time workers, inv.balanced.get inv.tasks moves⟩
  | checkUid opt sent id accepted =>
      obtain ⟨rest, workers, moves, fresh, rfl⟩ := step
      have sent : (s.checkUid opt workers).Inv := inv.call moves rfl rfl rfl
      have new : (s.checkUid opt workers).Fresh (testElem id).id := fresh
      exact sent.addElem new (fun _ _ => rfl) accepted
  | checkUidRst opt received =>
      obtain ⟨rest, workers, moves, rfl⟩ := step
      exact inv.call moves rfl rfl rfl

theorem Inv.init (threadNum : Nat) : (Client.init threadNum).Inv :=
  ⟨Tasks.init threadNum, Balanced.init threadNum⟩

end Client

/-! ## One check -/

/-- The element of a check is in the list. -/
def requested : Client := (Client.init 1).push (testElem 0) (some .reqCheckUid)

/-- A worker has obtained it. -/
def checking : Client :=
  requested.get 1 [[(.reqCheckUid, .checkUid), (.reqCheckUid, .checkUidRst)]]

/-- It has sent the message, and the follow-up is in the list. -/
def awaiting : Client :=
  (checking.checkUid .reqCheckUid [[(.reqCheckUid, .checkUidRst)]]).push (testElem 1)
    (some .reqRecvChekcUid)

/-- It goes on into the receive. -/
def fallenThrough (received : Bool) : Client :=
  awaiting.checkUidRst .reqCheckUid received [[]]

/-- Before the follow-up has run the check has already received. -/
theorem run_fallenThrough (received : Bool) : Run ClientStep (Client.init 1)
    [(Client.init 1, .reqOptCheckUid 0 true),
      (requested, .get 1),
      (checking, .checkUid .reqCheckUid true 1 true),
      (awaiting, .checkUidRst .reqCheckUid received)] (fallenThrough received) := by
  have request : ClientStep (Client.init 1) (.reqOptCheckUid 0 true) requested :=
    ⟨fun _ ha => absurd ha List.not_mem_nil, rfl⟩
  have get : ClientStep requested (.get 1) checking :=
    ⟨_, Nat.zero_le 1, ⟨[], [], rfl, rfl⟩, rfl⟩
  have fresh : checking.Fresh 1 := by
    intro a ha
    obtain rfl := List.mem_singleton.mp ha
    decide
  have check : ClientStep checking (.checkUid .reqCheckUid true 1 true) awaiting :=
    ⟨_, _, ⟨[], [], rfl, rfl⟩, fresh, rfl⟩
  have receive : ClientStep awaiting (.checkUidRst .reqCheckUid received)
      (fallenThrough received) := ⟨_, _, ⟨[], [], rfl, rfl⟩, rfl⟩
  exact .cons request (.cons get (.cons check (.cons receive (.nil _))))

end IocpTest.TestClient
