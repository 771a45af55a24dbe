import IocpTest.Logic.EventGate
import IocpTest.NetService.Session

/-!
# The operations of one session on many threads

The statement lists of `Operations` run statement by statement, interleaved at
will. A caller's thread runs `CheckUid` or a request. A worker dequeues a packet
and reads `OPT`, takes the branch in a later step and then runs its statements.

`System.gate` forgets everything but the event, the operations in flight and
where each thread stands; every step of the system is then a move of the gate
(`SystemStep.gate`). In the other direction a text that runs in one go is a run of
its statements (`exists_run_of_runStmts`).
-/

namespace IocpTest.NetService

open Bytes StepSystem EventGate Function

/-- A worker that has read `OPT` and not yet taken the branch, or a thread with the
statements it has left. -/
inductive Thread where
  | entered (b : Branch)
  | running (rest : List Stmt)

def Thread.idle : Thread := .running []

structure System where
  chan : Channel
  threads : Nat → Thread

inductive Action where
  | checkUid (i : Nat) (msg : Message)
  | call (i : Nat) (r : Request)
  | dequeue (i : Nat) (p : Post)
  | branch (i : Nat)
  | exec (i : Nat) (accepted : Bool)
  | complete (p : Post) (mem : Memory)

def System.set (s : System) (i : Nat) (t : Thread) : System :=
  { s with threads := update s.threads i t }

def SystemStep (s : System) : Action → System → Prop
  | .checkUid i msg, s' => s.threads i = .idle ∧ s' = s.set i (.running (checkUid msg))
  | .call i r, s' => s.threads i = .idle ∧ s' = s.set i (.running r.program)
  | .dequeue i p, s' =>
      s.threads i = .idle ∧ p ∈ s.chan.packets ∧
        s' = System.set { s with chan := s.chan.dequeue p } i
          (.entered (branchOf s.chan.data.opt))
  | .branch i, s' =>
      ∃ b, s.threads i = .entered b ∧
        s' = s.set i (.running (b.body s.chan.data iocpBufferSize ++ [.ret true]))
  | .exec i accepted, s' =>
      ∃ stmt rest fuel c, s.threads i = .running (stmt :: rest) ∧
        stmt.exec fuel accepted s.chan = some c ∧
        s' = System.set { s with chan := c } i (.running rest)
  | .complete p mem, s' => p ∈ s.chan.inflight ∧ s' = { s with chan := s.chan.complete p mem }

@[simp] theorem System.set_threads_self (s : System) (i : Nat) (t : Thread) :
    (s.set i t).threads i = t := by
  simp only [System.set, update_self]

theorem System.set_threads_of_ne (s : System) {i j : Nat} (t : Thread) (h : j ≠ i) :
    (s.set i t).threads j = s.threads j := by
  simp only [System.set, update_of_ne h]

theorem System.set_set (s : System) (i : Nat) (t t' : Thread) :
    (s.set i t).set i t' = s.set i t' := by
  simp only [System.set, update_idem]

/-- All threads idle. -/
def Channel.alone (c : Channel) : System := ⟨c, fun _ => .idle⟩

theorem Channel.alone_set_idle (c : Channel) (i : Nat) : c.alone.set i .idle = c.alone :=
  congrArg (System.mk c) (update_eq_self i fun _ => Thread.idle)

/-! ## Where a thread stands -/

/-- What a statement says about the thread in front of it: a wait is outside, a
reset comes after the wait and a post after the reset. -/
def Stmt.before : Stmt → Option Stage
  | .wait => some .outside
  | .resetEvent => some .admitted
  | .post _ => some .owner
  | _ => none

/-- What a statement demands of the text behind it. -/
def Stmt.after : Stmt → Option Stage
  | .wait => some .admitted
  | .resetEvent => some .owner
  | .post _ => some .outside
  | .setBuffer _ => some .owner
  | .setOpt _ => some .owner
  | .setLen _ => some .owner
  | _ => none

/-- The stage of a thread, read off the next wait, reset or post it will run. -/
def stageOf : List Stmt → Stage
  | [] => .outside
  | stmt :: rest => stmt.before.getD (stageOf rest)

/-- Waits, resets and posts come in this order, and `OPT`, `wsabuf` and `buffer`
are written between a reset and its post only. -/
def disciplined : List Stmt → Bool
  | [] => true
  | stmt :: rest => decide (stmt.after.getD (stageOf rest) = stageOf rest) && disciplined rest

def Thread.stage : Thread → Stage
  | .entered _ => .outside
  | .running rest => stageOf rest

def Thread.Disciplined : Thread → Prop
  | .entered _ => True
  | .running rest => disciplined rest = true

/-- Between a wait that succeeded, or the entry of `CheckUid`, and the post. -/
def Thread.InSection (t : Thread) : Prop := t.stage ≠ .outside

theorem stageOf_append_ret (l : List Stmt) (value : Bool) :
    stageOf (l ++ [.ret value]) = stageOf l := by
  induction l with
  | nil => rfl
  | cons stmt l ih => rw [List.cons_append, stageOf, stageOf, ih]

theorem disciplined_append_ret (l : List Stmt) (value : Bool) :
    disciplined (l ++ [.ret value]) = disciplined l := by
  induction l with
  | nil => rfl
  | cons stmt l ih => rw [List.cons_append, disciplined, disciplined, stageOf_append_ret, ih]

theorem checkUid_disciplined (msg : Message) :
    stageOf (checkUid msg) = .owner ∧ disciplined (checkUid msg) = true :=
  ⟨rfl, rfl⟩

theorem Request.program_disciplined (r : Request) :
    stageOf r.program = .outside ∧ disciplined r.program = true := by
  cases r <;> exact ⟨rfl, rfl⟩

theorem Branch.body_disciplined (b : Branch) (d : NetIoData) (size : Nat) :
    stageOf (b.body d size) = .outside ∧ disciplined (b.body d size) = true := by
  cases b with
  | checkUidReceived =>
      rw [Branch.body]
      split <;> exact ⟨rfl, rfl⟩
  | _ => exact ⟨rfl, rfl⟩

/-! ## The gate behind the system -/

def System.gate (s : System) : Gate where
  event := s.chan.event
  pending := s.chan.inflight.length
  dirty := s.chan.raced
  stage := Thread.stage ∘ s.threads

def Stmt.move (i : Nat) (accepted : Bool) : Stmt → Move
  | .wait => .pass i
  | .resetEvent => .lower i
  | .post _ => .post i accepted
  | .setBuffer _ => .write i
  | .setOpt _ => .write i
  | .setLen _ => .write i
  | _ => .idle

/-- The move of the gate that an action is. -/
def System.move (s : System) : Action → Move
  | .checkUid i _ => .enter i
  | .exec i accepted =>
      match s.threads i with
      | .running (stmt :: _) => stmt.move i accepted
      | _ => .idle
  | .complete _ _ => .complete
  | _ => .idle

def System.Disciplined (s : System) : Prop := ∀ i, (s.threads i).Disciplined

theorem System.gate_set (s : System) (i : Nat) (t : Thread) :
    (s.set i t).gate = { s.gate with stage := update s.gate.stage i t.stage } := by
  rw [System.gate, System.set, comp_update]
  rfl

theorem System.Disciplined.set {s : System} {i : Nat} {t : Thread} (h : s.Disciplined)
    (ht : t.Disciplined) : (s.set i t).Disciplined := by
  intro j
  by_cases hj : j = i
  · subst hj
    simpa [System.set] using ht
  · simpa [System.set, hj] using h j

/-- A thread that stays outside does not move the gate. -/
theorem System.gate_set_of_eq {s : System} {i : Nat} {t : Thread}
    (h : t.stage = (s.threads i).stage) : (s.set i t).gate = s.gate := by
  rw [System.gate_set, h]
  exact congrArg (Gate.mk _ _ _) (update_eq_self i s.gate.stage)

/-- A statement with no effect on the kernel objects does not move the gate. -/
theorem System.gate_quiet {s : System} {i : Nat} {c : Channel} {stmt : Stmt} {rest : List Stmt}
    (here : s.threads i = .running (stmt :: rest)) (stays : stageOf (stmt :: rest) = stageOf rest)
    (event : c.event = s.chan.event) (inflight : c.inflight = s.chan.inflight)
    (raced : c.raced = s.chan.raced) :
    (System.set { s with chan := c } i (.running rest)).gate = s.gate := by
  have stage : (Thread.running rest).stage = (s.threads i).stage := by
    rw [here]
    exact stays.symm
  rw [System.gate_set_of_eq (s := { s with chan := c }) stage, System.gate, event, inflight, raced]
  rfl

/-- A write to an owned field leaves its mark while an operation is in flight. -/
theorem System.gate_write {s : System} {i : Nat} {c : Channel} {stmt : Stmt} {rest : List Stmt}
    (here : s.threads i = .running (stmt :: rest)) (free : stmt.before = none)
    (owner : stageOf rest = .owner) (event : c.event = s.chan.event)
    (inflight : c.inflight = s.chan.inflight) (raced : c.raced = s.chan.touch.raced) :
    Step s.gate (.write i) (System.set { s with chan := c } i (.running rest)).gate := by
  have stage : stageOf (stmt :: rest) = .owner := by rw [stageOf, free]; exact owner
  have stays : (Thread.running rest).stage = (s.threads i).stage := by
    rw [here]
    exact owner.trans stage.symm
  refine ⟨(congrArg Thread.stage here).trans stage, ?_⟩
  rw [System.gate_set_of_eq (s := { s with chan := c }) stays, System.gate, event, inflight, raced]
  cases hinflight : s.chan.inflight <;> simp [System.gate, Channel.touch, hinflight]

/-- One statement of a disciplined thread is its move of the gate. -/
theorem Stmt.gate_exec {s : System} {i fuel : Nat} {accepted : Bool} {stmt : Stmt}
    {rest : List Stmt} {c : Channel} (here : s.threads i = .running (stmt :: rest))
    (ok : stmt.after.getD (stageOf rest) = stageOf rest)
    (step : stmt.exec fuel accepted s.chan = some c) :
    Step s.gate (stmt.move i accepted)
      (System.set { s with chan := c } i (.running rest)).gate := by
  have stage : s.gate.stage i = stageOf (stmt :: rest) := congrArg Thread.stage here
  cases stmt with
  | wait =>
      obtain ⟨raised, same⟩ := Option.ite_none_right_eq_some.mp step
      obtain rfl := Option.some.inj same
      refine ⟨stage, raised, ?_⟩
      rw [System.gate_set, Thread.stage, ← ok]
      rfl
  | resetEvent =>
      obtain rfl := Option.some.inj step
      refine ⟨stage, ?_⟩
      rw [System.gate_set, Thread.stage, ← ok]
      rfl
  | post call =>
      refine ⟨stage, ?_⟩
      rw [System.gate_set, Thread.stage, ← ok]
      cases call <;> cases accepted <;> obtain rfl := Option.some.inj step <;> rfl
  | setBuffer f =>
      obtain rfl := Option.some.inj step
      exact System.gate_write here rfl ok.symm rfl rfl rfl
  | setOpt value =>
      obtain rfl := Option.some.inj step
      exact System.gate_write here rfl ok.symm rfl rfl rfl
  | setLen value =>
      obtain rfl := Option.some.inj step
      exact System.gate_write here rfl ok.symm rfl rfl rfl
  | recvRecords length =>
      obtain ⟨t, _, rfl⟩ := Option.map_eq_some_iff.mp step
      exact System.gate_quiet here rfl rfl rfl rfl
  | readBuffer | setSendID f | setRecvID value | ret value =>
      obtain rfl := Option.some.inj step
      exact System.gate_quiet here rfl rfl rfl rfl

/-- A completion is the one move that raises the event. -/
theorem System.gate_complete {s : System} {p : Post} {mem : Memory}
    (busy : p ∈ s.chan.inflight) :
    Step s.gate .complete (System.gate { s with chan := s.chan.complete p mem }) := by
  have fewer : (s.chan.inflight.erase p).length = s.chan.inflight.length - 1 :=
    List.length_erase_of_mem busy
  refine ⟨List.length_pos_of_mem busy, ?_⟩
  cases hdir : p.dir <;>
    simp only [System.gate, Channel.complete, Channel.overwrite, hdir, fewer]

/-- The system of disciplined threads refines the gate. -/
theorem SystemStep.gate {s s' : System} {a : Action} (ok : s.Disciplined)
    (step : SystemStep s a s') : s'.Disciplined ∧ Step s.gate (s.move a) s'.gate := by
  cases a with
  | checkUid i msg =>
      obtain ⟨idle, rfl⟩ := step
      refine ⟨ok.set (checkUid_disciplined msg).2, congrArg Thread.stage idle, ?_⟩
      exact System.gate_set s i _
  | call i r =>
      obtain ⟨idle, rfl⟩ := step
      refine ⟨ok.set r.program_disciplined.2, System.gate_set_of_eq ?_⟩
      rw [idle]
      exact r.program_disciplined.1
  | dequeue i p =>
      obtain ⟨idle, _, rfl⟩ := step
      refine ⟨System.Disciplined.set (s := { s with chan := s.chan.dequeue p }) ok trivial, ?_⟩
      exact System.gate_set_of_eq (s := { s with chan := s.chan.dequeue p })
        (congrArg Thread.stage idle).symm
  | branch i =>
      obtain ⟨b, entered, rfl⟩ := step
      have body := b.body_disciplined s.chan.data iocpBufferSize
      refine ⟨ok.set ((disciplined_append_ret _ _).trans body.2), System.gate_set_of_eq ?_⟩
      rw [entered]
      exact (stageOf_append_ret _ _).trans body.1
  | exec i accepted =>
      obtain ⟨stmt, rest, fuel, c, here, exec, rfl⟩ := step
      have text : disciplined (stmt :: rest) = true := by
        have own := ok i
        rw [here] at own
        exact own
      obtain ⟨first, tail⟩ := Bool.and_eq_true_iff.mp text
      refine ⟨System.Disciplined.set (s := { s with chan := c }) ok tail, ?_⟩
      rw [System.move, here]
      exact Stmt.gate_exec here (of_decide_eq_true first) exec
  | complete p mem =>
      obtain ⟨busy, rfl⟩ := step
      exact ⟨ok, System.gate_complete busy⟩

/-- A run of the system is a run of the gate. -/
theorem gate_run {s s' : System} {trace : List (System × Action)} (ok : s.Disciplined)
    (run : Run SystemStep s trace s') :
    Run Step s.gate (mapTrace System.gate System.move trace) s'.gate :=
  run.simulate System.gate System.move System.Disciplined
    (fun _ _ _ ok step => step.gate ok) ok

theorem Channel.alone_disciplined (c : Channel) : c.alone.Disciplined := fun _ => rfl

/-! ## Atomic operations as runs -/

/-- A step that runs a statement of `text` on thread `i`. -/
def Executes (i : Nat) (accepted : Bool) (text : List Stmt) (s : System) (a : Action) : Prop :=
  a = .exec i accepted ∧ ∃ stmt ∈ text, ∃ tail, s.threads i = .running (stmt :: tail)

/-- A thread that is never interrupted runs its text in one go. -/
theorem exists_run_of_runStmts {fuel : Nat} {accepted : Bool} {i : Nat} {rest : List Stmt}
    {s : System} {c : Channel} (here : s.threads i = .running rest)
    (text : runStmts fuel accepted rest s.chan = some c) :
    ∃ trace, Run SystemStep s trace (System.set { s with chan := c } i .idle) ∧
      Guarded (Executes i accepted rest) trace := by
  induction rest generalizing s with
  | nil =>
      obtain rfl := Option.some.inj text
      have same : s.set i .idle = s :=
        congrArg (System.mk _) (update_eq_self_iff.mpr here.symm)
      exact ⟨[], by rw [same]; exact .nil s, guarded_nil _⟩
  | cons stmt rest ih =>
      obtain ⟨c₁, exec, text⟩ := Option.bind_eq_some_iff.mp text
      let s₁ := System.set { s with chan := c₁ } i (.running rest)
      have first : SystemStep s (.exec i accepted) s₁ :=
        ⟨stmt, rest, fuel, c₁, here, exec, rfl⟩
      have next : s₁.threads i = .running rest := System.set_threads_self _ _ _
      obtain ⟨trace, run, steps⟩ := ih next text
      have last : System.set { s₁ with chan := c } i .idle =
          System.set { s with chan := c } i .idle :=
        System.set_set { s with chan := c } i _ _
      rw [last] at run
      have now : Executes i accepted (stmt :: rest) s (.exec i accepted) :=
        ⟨rfl, stmt, List.mem_cons_self, rest, here⟩
      refine ⟨_, .cons first run, guarded_cons.mpr ⟨now, ?_⟩⟩
      intro taken htaken
      obtain ⟨exec, stmt, hstmt, tail⟩ := steps taken htaken
      exact ⟨exec, stmt, List.mem_cons_of_mem _ hstmt, tail⟩

/-- Thread 0 alone starts a text, runs it and is idle again. -/
theorem exists_run_alone {fuel : Nat} {accepted : Bool} {text : List Stmt} {c c' : Channel}
    {a : Action} (start : SystemStep c.alone a (c.alone.set 0 (.running text)))
    (result : runStmts fuel accepted text c = some c') :
    ∃ trace, Run SystemStep c.alone ((c.alone, a) :: trace) c'.alone ∧
      Guarded (Executes 0 accepted text) trace := by
  let s₁ := c.alone.set 0 (.running text)
  have here : s₁.threads 0 = .running text := System.set_threads_self _ _ _
  obtain ⟨trace, run, steps⟩ := exists_run_of_runStmts here result
  have last : System.set { s₁ with chan := c' } 0 .idle = c'.alone :=
    (c'.alone.set_set 0 _ _).trans (c'.alone_set_idle 0)
  rw [last] at run
  exact ⟨trace, .cons start run, steps⟩

end IocpTest.NetService
