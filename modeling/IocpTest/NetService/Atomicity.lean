import IocpTest.NetService.Exclusion

/-!
# Operations as atomic steps

The operations of a session run statement by statement on many threads. Where every wait is
passed alone, such a run does to the session what the operations do when they are carried
out one after the other, each at once (`operations_atomic`). `Operation` is the text between
a wait and its call, `OperationStep` the system in which it is one step.

What a thread does outside touches the queue and the marks of an unread datagram only;
`Channel.owned` leaves these out.
-/

namespace IocpTest.NetService

open StepSystem EventGate Bytes

/-- What is run between a wait and its call. `CheckUid` has no wait. -/
inductive Operation where
  | checkUid (msg : Message)
  | request (r : Request)
  | rearm (opt : UINT)
  | answer (length : Nat)

/-- Neither a wait nor a call. -/
def Stmt.inner : Stmt → Bool
  | .wait => false
  | .post _ => false
  | _ => true

/-- The statements that only leave the operation. -/
def Returns (rest : List Stmt) : Prop := ∀ stmt ∈ rest, ∃ value, stmt = .ret value

namespace Operation

def text : Operation → List Stmt
  | .checkUid msg => NetService.checkUid msg
  | .request r => r.program
  | .rearm opt => NetService.rearm opt
  | .answer length => recvCmdData length

def waits : Operation → Bool
  | .checkUid _ => false
  | _ => true

def entry (op : Operation) : List Stmt := if op.waits then [.wait] else []

/-- The call at the end. -/
def call : Operation → Call
  | .checkUid _ => .checkUid
  | .request r => r.call
  | .rearm _ => .receive
  | .answer _ => .answer

/-- Behind the wait and before the call. -/
def inner (op : Operation) : List Stmt := (op.text.drop op.entry.length).takeWhile Stmt.inner

/-- Behind the call. -/
def leave : Operation → List Stmt
  | .rearm _ => []
  | _ => [.ret true]

theorem text_eq (op : Operation) :
    op.text = op.entry ++ (op.inner ++ .post op.call :: op.leave) := by
  cases op with
  | request r => cases r <;> rfl
  | _ => rfl

theorem leave_returns (op : Operation) : Returns op.leave := by
  cases op <;> simp [Returns, leave]

theorem inner_of_mem {op : Operation} {stmt : Stmt} (member : stmt ∈ op.inner) :
    stmt.inner = true :=
  List.all_eq_true.mp List.all_takeWhile stmt member

end Operation

/-! ## One statement -/

/-- The session without its queue and the marks of an unread datagram. -/
def Channel.owned (c : Channel) : Channel :=
  { c with packets := [], unread := false, lost := false }

section

variable {fuel : Nat} {accepted : Bool} {c c' : Channel} {stmt : Stmt}

/-- No statement depends on what is left out. -/
theorem Stmt.exec_owned (exec : stmt.exec fuel accepted c = some c') :
    stmt.exec fuel accepted c.owned = some c'.owned := by
  cases stmt with
  | wait =>
      obtain ⟨event, same⟩ := Option.ite_none_right_eq_some.mp exec
      obtain rfl := Option.some.inj same
      exact if_pos event
  | recvRecords length =>
      obtain ⟨t, scan, rfl⟩ := Option.map_eq_some_iff.mp exec
      exact Option.map_eq_some_iff.mpr ⟨t, scan, rfl⟩
  | post call => cases call <;> obtain rfl := Option.some.inj exec <;> rfl
  | _ =>
      obtain rfl := Option.some.inj exec
      rfl

/-- Only a call asks whether it is accepted. -/
theorem Stmt.exec_accepted (inner : stmt.inner = true) (other : Bool)
    (exec : stmt.exec fuel accepted c = some c') : stmt.exec fuel other c = some c' := by
  cases stmt with
  | post call => cases inner
  | _ => exact exec

theorem Stmt.exec_mono (more : Nat) (exec : stmt.exec fuel accepted c = some c') :
    stmt.exec (fuel + more) accepted c = some c' := by
  cases stmt with
  | recvRecords length =>
      obtain ⟨t, scan, rfl⟩ := Option.map_eq_some_iff.mp exec
      exact Option.map_eq_some_iff.mpr ⟨t, recvRecords_mono more scan, rfl⟩
  | post call => cases call <;> exact exec
  | _ => exact exec

theorem runStmts_mono {text : List Stmt} (more : Nat)
    (run : runStmts fuel accepted text c = some c') :
    runStmts (fuel + more) accepted text c = some c' := by
  induction text generalizing c with
  | nil => exact run
  | cons stmt text ih =>
      obtain ⟨c₁, exec, rest⟩ := Option.bind_eq_some_iff.mp run
      exact Option.bind_eq_some_iff.mpr ⟨c₁, Stmt.exec_mono more exec, ih rest⟩

end

/-! ## Where the threads stand -/

/-- What a thread outside has in front of it. `P` says which operations there are. -/
inductive Ahead (P : Operation → Prop) : List Stmt → Prop
  | returns {rest : List Stmt} : Returns rest → Ahead P rest
  | look {rest : List Stmt} : Ahead P rest → Ahead P (.readBuffer :: rest)
  | operation {op : Operation} {rest : List Stmt} : P op → op.waits = true → Returns rest →
      Ahead P (op.text ++ rest)

def Thread.Outside (P : Operation → Prop) : Thread → Prop
  | .entered _ => True
  | .running rest => Ahead P rest

/-- A thread has run a part of an operation that began in `a`, and the session is now `c`. -/
structure Inside (t : Thread) (op : Operation) (a c : Channel) (done todo rest : List Stmt) :
    Prop where
  thread : t = .running (todo ++ .post op.call :: rest)
  inner : op.inner = done ++ todo
  returns : Returns rest
  admitted : a.event = op.waits
  ran : ∃ fuel, ∀ accepted, runStmts fuel accepted done a = some c

/-- The session is as the operations so far have left it, or one thread is on its way from
there. -/
inductive Serial (P : Operation → Prop) (s : System) (a : Channel) : Prop
  | still (outside : ∀ i, (s.threads i).Outside P) (same : s.chan.owned = a)
  | busy (i : Nat) (op : Operation) (done todo rest : List Stmt) (known : P op)
      (inside : Inside (s.threads i) op a s.chan.owned done todo rest)
      (others : ∀ j, j ≠ i → (s.threads j).Outside P)

inductive OperationEvent where
  | complete (p : Post) (mem : Memory)
  | run (op : Operation) (accepted : Bool)

def OperationEvent.Allowed (P : Operation → Prop) : OperationEvent → Prop
  | .run op _ => P op
  | .complete _ _ => True

/-- An operation begins with nothing in flight; one that waits finds the event up, and
`CheckUid` finds it down. -/
def OperationEvent.Begun (P : Operation → Prop) (a : Channel) : OperationEvent → Prop
  | .run op _ => P op ∧ a.event = op.waits ∧ a.inflight = []
  | .complete _ _ => True

theorem OperationEvent.Begun.allowed {P : Operation → Prop} {a : Channel} {e : OperationEvent}
    (begun : e.Begun P a) : e.Allowed P := by
  cases e with
  | run => exact begun.1
  | complete => trivial

/-- What lies in the buffer after a completion. -/
def OperationEvent.arrival (a : Channel) : OperationEvent → Option Memory
  | .complete p mem => some (a.complete p mem).data.buffer
  | .run _ _ => none

def Action.arrival (s : System) : Action → Option Memory
  | .complete p mem => some (s.chan.complete p mem).data.buffer
  | _ => none

/-- The operation that a caller asks for. -/
def Action.operation : Action → Option Operation
  | .checkUid _ msg => some (.checkUid msg)
  | .call _ r => some (.request r)
  | _ => none

/-- A call completes, or an operation is carried out in one go. -/
def OperationStep (c : Channel) : OperationEvent → Channel → Prop
  | .complete p mem, c' => p ∈ c.inflight ∧ c' = (c.complete p mem).owned
  | .run op accepted, c' => ∃ fuel, runStmts fuel accepted op.text c = some c'

/-- The session that an operation leaves. -/
def Operation.Leaves (d d' : NetIoData) : Operation → Prop
  | .checkUid msg => d' = checkUidData msg d
  | .request r => d' = r.result d
  | .rearm opt => d' = rearmData opt d
  | .answer _ => ∃ recvID, d' = answerData recvID d

/-- The records that an operation goes through. -/
def Operation.Visits (d : NetIoData) (visited : List CmdHeader) : Operation → Prop
  | .answer length => ∃ t, Scans d.buffer d.recvID length t ∧ visited = t.visited
  | _ => visited = []

/-- An operation has been carried out: it makes one call for the session that it leaves. -/
structure Operation.Done (op : Operation) (accepted : Bool) (c c' : Channel) : Prop where
  data : op.Leaves c.data c'.data
  posts : c'.posts = c.posts ++ [(postOf c'.data op.call, accepted)]
  inflight : c'.inflight =
    if accepted then postOf c'.data op.call :: c.inflight else c.inflight
  event : c'.event = (!op.waits && c.event)
  received : ∃ visited, op.Visits c.data visited ∧ c'.received = c.received ++ visited

theorem OperationStep.done {c c' : Channel} {op : Operation} {accepted : Bool}
    (step : OperationStep c (.run op accepted) c') : op.Done accepted c c' := by
  obtain ⟨fuel, run⟩ := step
  cases op with
  | checkUid msg =>
      simp only [Operation.text, checkUid, runStmts, Stmt.exec, Option.bind_some] at run
      obtain rfl := Option.some.inj run
      exact ⟨rfl, rfl, rfl, rfl, [], rfl, (List.append_nil _).symm⟩
  | request r =>
      rw [Operation.text, r.program_eq, runStmts_request_iff r.call_dir] at run
      obtain ⟨_, rfl⟩ := run
      exact ⟨rfl, rfl, rfl, rfl, [], rfl, (List.append_nil _).symm⟩
  | rearm opt =>
      obtain ⟨_, rfl⟩ := (runStmts_rearm_iff opt).mp run
      exact ⟨rfl, rfl, rfl, rfl, [], rfl, (List.append_nil _).symm⟩
  | answer length =>
      obtain ⟨_, t, scan, rfl⟩ := (runStmts_recvCmdData_iff length).mp run
      exact ⟨⟨_, rfl⟩, rfl, rfl, rfl, t.visited, ⟨t, ⟨fuel, scan⟩, rfl⟩, rfl⟩

/-- The operations of the callbacks. -/
structure Callbacks (P : Operation → Prop) : Prop where
  rearm : ∀ opt, opt = 0x10001#32 ∨ opt = 0xf0000#32 → P (.rearm opt)
  answer : P (.answer iocpBufferSize)

theorem Branch.body_ahead {P : Operation → Prop} (known : Callbacks P) (b : Branch)
    (d : NetIoData) : Ahead P (b.body d iocpBufferSize ++ [.ret true]) := by
  have one : Returns [.ret true] := by simp [Returns]
  have reply := known.rearm _ (.inl rfl)
  have data := known.rearm _ (.inr rfl)
  cases b with
  | checkUidSent => exact .operation reply rfl one
  | checkUidReceived =>
      rw [Branch.body]
      split
      · exact .look (.operation data rfl one)
      · exact .look (.returns one)
  | joinTableSent => exact .operation data rfl one
  | startSyncFishSent => exact .operation data rfl one
  | bulletSent => exact .operation data rfl one
  | answerSent => exact .operation data rfl one
  | cmdDataReceived => exact .operation known.answer rfl one
  | other => exact .operation known.answer rfl one

/-- In front of its call a thread is inside. -/
theorem stageOf_inner {todo rest : List Stmt} {call : Call}
    (inner : ∀ stmt ∈ todo, stmt.inner = true) :
    stageOf (todo ++ .post call :: rest) ≠ .outside := by
  induction todo with
  | nil => exact Stage.noConfusion
  | cons stmt todo ih =>
      rw [List.forall_mem_cons] at inner
      have behind := ih inner.2
      cases stmt with
      | wait => cases inner.1
      | post call => cases inner.1
      | resetEvent => exact Stage.noConfusion
      | _ => exact behind

theorem Inside.inSection {t : Thread} {op : Operation} {a c : Channel}
    {done todo rest : List Stmt} (inside : Inside t op a c done todo rest) : t.InSection := by
  have inner : ∀ stmt ∈ todo, stmt.inner = true := fun stmt member =>
    Operation.inner_of_mem (inside.inner ▸ List.mem_append_right done member)
  rw [Thread.InSection, inside.thread, Thread.stage]
  exact stageOf_inner inner

theorem Ahead.stage {P : Operation → Prop} {rest : List Stmt} (ahead : Ahead P rest) :
    stageOf rest = .outside := by
  induction ahead with
  | @returns rest returns =>
      induction rest with
      | nil => rfl
      | cons stmt rest ih =>
          rw [Returns, List.forall_mem_cons] at returns
          obtain ⟨⟨value, rfl⟩, later⟩ := returns
          exact ih later
  | look _ ih => exact ih
  | @operation op rest _ waits _ =>
      rw [op.text_eq, Operation.entry, if_pos waits]
      rfl

theorem Thread.Outside.not_inSection {P : Operation → Prop} {t : Thread}
    (outside : t.Outside P) : ¬t.InSection := by
  cases t with
  | entered b => exact fun inside => inside rfl
  | running rest => exact fun inside => inside (Ahead.stage outside)

theorem runStmts_returns {fuel : Nat} {accepted : Bool} {rest : List Stmt}
    (returns : Returns rest) (c : Channel) : runStmts fuel accepted rest c = some c := by
  induction rest with
  | nil => rfl
  | cons stmt rest ih =>
      rw [Returns, List.forall_mem_cons] at returns
      obtain ⟨⟨value, rfl⟩, later⟩ := returns
      exact ih later

/-! ## The steps -/

section

variable {P : Operation → Prop} {s s' : System} {a c c' : Channel} {i : Nat}

/-- A thread that is outside does something else. -/
theorem Serial.set_outside (serial : Serial P s a) {t : Thread} (free : ¬(s.threads i).InSection)
    (outside : t.Outside P) (same : c.owned = s.chan.owned) :
    Serial P (System.set { s with chan := c } i t) a := by
  have kept : ∀ j, (s.threads j).Outside P →
      ((System.set { s with chan := c } i t).threads j).Outside P := by
    intro j before
    by_cases here : j = i
    · subst here
      rwa [System.set_threads_self]
    · rwa [System.set_threads_of_ne _ _ here]
  cases serial with
  | still all same' => exact .still (fun j => kept j (all j)) (same.trans same')
  | busy k op done todo rest known inside others =>
      have other : k ≠ i := by
        rintro rfl
        exact free inside.inSection
      have ran := inside.ran
      rw [← same] at ran
      refine .busy k op done todo rest known ?_ fun j away => kept j (others j away)
      rw [System.set_threads_of_ne _ _ other]
      exact { inside with ran := ran }

/-- A wait that is passed alone. -/
theorem Serial.enter {op : Operation} {rest : List Stmt} (known : P op)
    (outside : ∀ j, (s.threads j).Outside P)
    (admitted : s.chan.event = op.waits) (returns : Returns rest) :
    Serial P (s.set i (.running (op.inner ++ .post op.call :: rest))) s.chan.owned := by
  refine .busy i op [] op.inner rest known ?_ fun j away => ?_
  · exact ⟨System.set_threads_self _ _ _, rfl, returns, admitted, 0, fun _ => rfl⟩
  · rw [System.set_threads_of_ne _ _ away]
    exact outside j

/-- The next statement of the operation under way. -/
theorem Inside.exec {op : Operation} {done todo rest later : List Stmt} {stmt : Stmt}
    {fuel : Nat} {accepted : Bool}
    (inside : Inside (s.threads i) op a s.chan.owned done todo rest)
    (here : s.threads i = .running (stmt :: later))
    (exec : stmt.exec fuel accepted s.chan = some c) :
    (∃ todo', Inside (.running later) op a c.owned (done ++ [stmt]) todo' rest) ∨
      (Returns later ∧ OperationStep a (.run op accepted) c.owned) := by
  obtain ⟨fuel', ran⟩ := inside.ran
  have same : stmt :: later = todo ++ .post op.call :: rest :=
    Thread.running.inj (here.symm.trans inside.thread)
  have owned := Stmt.exec_owned exec
  have more : ∀ accepted, runStmts (fuel' + fuel) accepted done a = some s.chan.owned :=
    fun accepted => runStmts_mono fuel (ran accepted)
  have longer := Stmt.exec_mono fuel' owned
  rw [Nat.add_comm] at longer
  cases todo with
  | nil =>
      obtain ⟨rfl, rfl⟩ := List.cons.inj same
      refine .inr ⟨inside.returns, fuel' + fuel, ?_⟩
      have entered : runStmts (fuel' + fuel) accepted op.entry a = some a := by
        rw [Operation.entry]
        split
        · next waits => simp [runStmts, Stmt.exec, inside.admitted, waits]
        · rfl
      have all : op.inner = done := by simpa using inside.inner
      rw [op.text_eq, runStmts_append, entered, Option.bind_some, runStmts_append, all,
        more accepted, Option.bind_some, runStmts, longer, Option.bind_some]
      exact runStmts_returns op.leave_returns _
  | cons stmt' todo =>
      obtain ⟨rfl, rfl⟩ := List.cons.inj same
      have member : stmt ∈ op.inner := by simp [inside.inner]
      have inner := Operation.inner_of_mem member
      refine .inl ⟨todo, rfl, by simp [inside.inner], inside.returns, inside.admitted,
        fuel' + fuel, fun other => ?_⟩
      rw [runStmts_append, more other, Option.bind_some, runStmts,
        Stmt.exec_accepted inner other longer]
      rfl

/-- A statement of a thread outside: it waits, looks at the buffer or returns. -/
theorem Ahead.exec_cases {rest : List Stmt} {stmt : Stmt} {fuel : Nat} {accepted : Bool}
    (ahead : Ahead P (stmt :: rest)) (exec : stmt.exec fuel accepted c = some c') :
    (Ahead P rest ∧ c'.owned = c.owned) ∨
      (stmt = .wait ∧ c.event = true ∧ c' = c ∧ ∃ (op : Operation) (later : List Stmt),
        P op ∧ op.waits = true ∧ Returns later ∧
          rest = op.inner ++ .post op.call :: later) := by
  generalize text : stmt :: rest = all at ahead
  cases ahead with
  | returns returns =>
      subst text
      rw [Returns, List.forall_mem_cons] at returns
      obtain ⟨⟨value, rfl⟩, later⟩ := returns
      obtain rfl := Option.some.inj exec
      exact .inl ⟨.returns later, rfl⟩
  | look ahead =>
      obtain ⟨rfl, rfl⟩ := List.cons.inj text
      obtain rfl := Option.some.inj exec
      exact .inl ⟨ahead, rfl⟩
  | @operation op later known waits returns =>
      rw [op.text_eq, Operation.entry, if_pos waits] at text
      obtain ⟨rfl, rfl⟩ := List.cons.inj text
      obtain ⟨event, same⟩ := Option.ite_none_right_eq_some.mp exec
      obtain rfl := Option.some.inj same
      refine .inr ⟨rfl, event, rfl, op, op.leave ++ later, known, waits, ?_, by simp⟩
      simpa [Returns, or_imp, forall_and] using And.intro op.leave_returns returns

theorem Serial.exec {stmt : Stmt} {later : List Stmt} {fuel : Nat} {accepted : Bool}
    (serial : Serial P s a) (here : s.threads i = .running (stmt :: later))
    (alone : stmt = .wait → ¬s.Occupied) (exec : stmt.exec fuel accepted s.chan = some c) :
    Serial P (System.set { s with chan := c } i (.running later)) a ∨
      ∃ op a', P op ∧ a.event = op.waits ∧ (s.threads i).InSection ∧
        OperationStep a (.run op accepted) a' ∧
        Serial P (System.set { s with chan := c } i (.running later)) a' := by
  have outside : (s.threads i).Outside P →
      Serial P (System.set { s with chan := c } i (.running later)) a := by
    intro before
    have free := before.not_inSection
    rw [here] at before
    rcases Ahead.exec_cases before exec with ⟨ahead, same⟩ | ⟨rfl, event, rfl, op, last, ends⟩
    · exact serial.set_outside free ahead same
    · cases serial with
      | still all same =>
          obtain ⟨known, waits, returns, rfl⟩ := ends
          rw [← same]
          exact .enter known all (event.trans waits.symm) returns
      | busy k op done todo rest known inside others =>
          exact absurd ⟨k, inside.inSection⟩ (alone rfl)
  cases serial with
  | still all same => exact .inl (outside (all i))
  | busy k op done todo rest known inside others =>
      by_cases me : k = i
      · subst me
        rcases inside.exec here exec with ⟨todo', more⟩ | ⟨returns, step⟩
        · refine .inl (.busy k op (done ++ [stmt]) todo' rest known ?_ fun j away => ?_)
          · rwa [System.set_threads_self]
          · rw [System.set_threads_of_ne _ _ away]
            exact others j away
        · refine .inr ⟨op, c.owned, known, inside.admitted, inside.inSection, step,
            .still (fun j => ?_) rfl⟩
          by_cases same : j = k
          · subst same
            rw [System.set_threads_self]
            exact Ahead.returns returns
          · rw [System.set_threads_of_ne _ _ same]
            exact others j same
      · exact .inl (outside (others i (Ne.symm me)))

/-- An operation makes its call at its end. -/
theorem Stmt.exec_posts {fuel : Nat} {accepted : Bool} {c c' : Channel} {stmt : Stmt}
    (inner : stmt.inner = true) (exec : stmt.exec fuel accepted c = some c') :
    c'.posts = c.posts ∧ c'.inflight = c.inflight := by
  cases stmt with
  | wait | post call => cases inner
  | recvRecords length =>
      obtain ⟨t, _, rfl⟩ := Option.map_eq_some_iff.mp exec
      exact ⟨rfl, rfl⟩
  | _ =>
      obtain rfl := Option.some.inj exec
      exact ⟨rfl, rfl⟩

theorem runStmts_posts {fuel : Nat} {accepted : Bool} {c c' : Channel} {text : List Stmt}
    (inner : ∀ stmt ∈ text, stmt.inner = true) (run : runStmts fuel accepted text c = some c') :
    c'.posts = c.posts ∧ c'.inflight = c.inflight := by
  induction text generalizing c with
  | nil =>
      obtain rfl := Option.some.inj run
      exact ⟨rfl, rfl⟩
  | cons stmt text ih =>
      rw [List.forall_mem_cons] at inner
      obtain ⟨c₁, exec, rest⟩ := Option.bind_eq_some_iff.mp run
      have first := Stmt.exec_posts inner.1 exec
      have later := ih inner.2 rest
      exact ⟨later.1.trans first.1, later.2.trans first.2⟩

/-- The calls are those of the abstract system at any time. -/
theorem Serial.posts (serial : Serial P s a) :
    s.chan.posts = a.posts ∧ s.chan.inflight = a.inflight := by
  cases serial with
  | still _ same =>
      obtain rfl := same
      exact ⟨rfl, rfl⟩
  | busy i op done todo rest _ inside _ =>
      obtain ⟨fuel, ran⟩ := inside.ran
      have inner : ∀ stmt ∈ done, stmt.inner = true := fun stmt member =>
        Operation.inner_of_mem (inside.inner ▸ List.mem_append_left todo member)
      have same := runStmts_posts inner (ran true)
      exact same

/-- One step of the system is none of the abstract one, or one. -/
theorem Serial.step {act : Action} (serial : Serial P s a) (callbacks : Callbacks P)
    (called : ∀ op ∈ act.operation, P op) (held : s.gate.Held) (alone : EntersAlone s act)
    (step : SystemStep s act s') :
    (act.arrival s = none ∧ Serial P s' a) ∨ ∃ e a', e.Begun P a ∧
      e.arrival a = act.arrival s ∧ OperationStep a e a' ∧ Serial P s' a' := by
  have idle : ∀ i, s.threads i = .idle → ¬(s.threads i).InSection := fun i idle inside =>
    inside (congrArg Thread.stage idle)
  cases act with
  | checkUid i msg =>
      obtain ⟨_, rfl⟩ := step
      cases serial with
      | still all same =>
          rw [← same]
          exact .inl ⟨rfl, .enter (called _ rfl) all alone.1
            (Operation.leave_returns (.checkUid msg))⟩
      | busy k op done todo rest known inside others => exact absurd ⟨k, inside.inSection⟩ alone.2.2
  | call i r =>
      obtain ⟨free, rfl⟩ := step
      have ahead : Ahead P (r.program ++ []) := .operation (called _ rfl) rfl (by simp [Returns])
      rw [List.append_nil] at ahead
      exact .inl ⟨rfl, serial.set_outside (idle i free) ahead rfl⟩
  | dequeue i p =>
      obtain ⟨free, _, rfl⟩ := step
      exact .inl ⟨rfl, serial.set_outside (t := .entered _) (idle i free) trivial rfl⟩
  | branch i =>
      obtain ⟨b, entered, rfl⟩ := step
      have free : ¬(s.threads i).InSection := by
        rw [entered]
        exact fun inside => inside rfl
      exact .inl ⟨rfl, serial.set_outside free (b.body_ahead callbacks _) rfl⟩
  | exec i accepted =>
      obtain ⟨stmt, rest, fuel, c, here, exec, rfl⟩ := step
      rcases serial.exec here (fun wait => alone rest (wait ▸ here)) exec with
        same | ⟨op, a', known, event, inside, more⟩
      · exact .inl ⟨rfl, same⟩
      · have none : s.chan.inflight.length = 0 := held.settled ⟨i, inside⟩
        have quiet : a.inflight = [] := serial.posts.2 ▸ List.length_eq_zero_iff.mp none
        exact .inr ⟨.run op accepted, a', ⟨known, event, quiet⟩, rfl, more⟩
  | complete p mem =>
      obtain ⟨busy, rfl⟩ := step
      cases serial with
      | still all same =>
          refine .inr ⟨.complete p mem, _, trivial, ?_, ⟨?_, rfl⟩, .still all ?_⟩
          · rw [← same, OperationEvent.arrival, Action.arrival]
            cases hdir : p.dir <;> simp only [Channel.complete, Channel.owned, hdir]
          · exact same ▸ busy
          · rw [← same]
            cases hdir : p.dir <;> simp only [Channel.complete, hdir] <;> rfl
      | busy k op done todo rest known inside others =>
          have none : s.chan.inflight.length = 0 := held.settled ⟨k, inside.inSection⟩
          exact absurd none (Nat.ne_of_gt (List.length_pos_of_mem busy))

end

/-! ## The runs -/

variable {P : Operation → Prop} {s s' : System} {a : Channel} {trace : List (System × Action)}

theorem Serial.run (run : Run SystemStep s trace s') (ok : s.Disciplined) (held : s.gate.Held)
    (serial : Serial P s a) (callbacks : Callbacks P)
    (called : ∀ taken ∈ trace, ∀ op ∈ taken.2.operation, P op)
    (guard : Guarded EntersAlone trace) :
    ∃ events a', Run OperationStep a events a' ∧ Guarded (fun a e => e.Begun P a) events ∧
      outputs OperationEvent.arrival events = outputs Action.arrival trace ∧ s'.gate.Held ∧
      Serial P s' a' := by
  induction run generalizing a with
  | nil => exact ⟨[], a, .nil a, guarded_nil _, rfl, held, serial⟩
  | cons first _ ih =>
      obtain ⟨alone, guard⟩ := guarded_cons.mp guard
      rw [List.forall_mem_cons] at called
      obtain ⟨ok', move⟩ := first.gate ok
      have held' := held.step alone.gate move
      rcases serial.step callbacks called.1 held alone first with
        ⟨none, same⟩ | ⟨e, a₁, begun, here, step, serial⟩
      · obtain ⟨events, a', more, all, arrived, last⟩ := ih ok' held' same called.2 guard
        refine ⟨events, a', more, all, ?_, last⟩
        rw [arrived, outputs_cons, none]
        rfl
      · obtain ⟨events, a', more, all, arrived, last⟩ := ih ok' held' serial called.2 guard
        refine ⟨_, a', .cons step more, guarded_cons.mpr ⟨begun, all⟩, ?_, last⟩
        rw [outputs_cons, outputs_cons, here, arrived]

/-- What is carried out along a run: the operations of the callbacks, and what callers have
asked for. -/
def Asked (trace : List (System × Action)) : Operation → Prop
  | .rearm _ => True
  | .answer _ => True
  | op => ∃ taken ∈ trace, taken.2.operation = some op

theorem asked_callbacks (trace : List (System × Action)) : Callbacks (Asked trace) :=
  ⟨fun _ _ => trivial, trivial⟩

theorem asked_of_mem {taken : System × Action} {op : Operation} (member : taken ∈ trace)
    (same : op ∈ taken.2.operation) : Asked trace op := by
  cases op with
  | rearm | answer => trivial
  | checkUid | request => exact ⟨taken, member, same⟩

theorem registered_held (d : NetIoData) : (registered d).alone.gate.Held where
  alone _ _ inside := absurd rfl inside
  settled _ := rfl
  lowered _ _ := rfl
  raised _ := rfl
  few := Nat.zero_le 1
  clean := rfl

/-- A run of the threads of a registered session, together with a run of its operations. -/
theorem exists_serial (d : NetIoData) (run : Run SystemStep (registered d).alone trace s)
    (guard : Guarded EntersAlone trace) :
    ∃ events c, Run OperationStep (registered d) events c ∧
      Guarded (fun _ e => e.Allowed (Asked trace)) events ∧ Serial (Asked trace) s c := by
  have start : Serial (Asked trace) (registered d).alone (registered d) :=
    .still (fun _ => .returns (by simp [Returns])) rfl
  obtain ⟨events, c, serialRun, begun, _, _, serial⟩ := start.run run (Channel.alone_disciplined _)
    (registered_held d) (asked_callbacks trace)
    (fun taken member op same => asked_of_mem member same) guard
  exact ⟨events, c, serialRun, fun taken member => (begun taken member).allowed, serial⟩

/-- Over every run of a registered session, of any number of threads in any order, whose
waits are all passed alone, the calls are at any time those of a run in which the operations
are carried out one after the other. While no thread is between its wait and its call the
session is as that run has left it. -/
theorem operations_atomic (d : NetIoData) (run : Run SystemStep (registered d).alone trace s)
    (guard : Guarded EntersAlone trace) :
    ∃ events c, Run OperationStep (registered d) events c ∧
      Guarded (fun _ e => e.Allowed (Asked trace)) events ∧
      s.chan.posts = c.posts ∧ s.chan.inflight = c.inflight ∧
      (¬s.Occupied → s.chan.owned = c) := by
  obtain ⟨events, c, serialRun, allowed, serial⟩ := exists_serial d run guard
  refine ⟨events, c, serialRun, allowed, serial.posts.1, serial.posts.2, fun empty => ?_⟩
  cases serial with
  | still _ same => exact same
  | busy i op done todo rest _ inside _ => exact absurd ⟨i, inside.inSection⟩ empty

/-- A join and a bullet of which one begins while the other is between its wait and its post:
it gets past its own wait when the other has completed. -/
theorem exists_run_interleaved : ∃ trace s,
    Run SystemStep (registered (freshIoData 1#64)).alone trace s ∧ Guarded EntersAlone trace ∧
      (∃ t, (t, .call 1 (.bullet bulletMessage)) ∈ trace ∧ (t.threads 0).InSection) ∧
      ¬s.Occupied ∧ s.chan.places = [.checkUid, .joinTable, .bullet] := by
  let join : Request := .joinTable joinRoomMessage
  let bullet : Request := .bullet bulletMessage
  let c := started (freshIoData 1#64) enterFishServerMessage
  let c₁ := c.complete (postOf c.data .checkUid) fun _ => 0#8
  let c₂ := c₁.finish (join.result c₁.data) join.call true
  let c₃ := c₂.complete (postOf (join.result c₁.data) join.call) fun _ => 0#8
  obtain ⟨login, logged, alone⟩ :=
    checkUid_system_run (freshIoData 1#64) enterFishServerMessage
  have complete : SystemStep c.alone (.complete (postOf c.data .checkUid) fun _ => 0#8) c₁.alone :=
    ⟨List.mem_cons_self, rfl⟩
  obtain ⟨rest, text, inside⟩ := join.run_admitted true c₁
  have behind : stageOf rest = .admitted := by
    obtain rfl : _ = rest := (List.cons.inj text).2
    rfl
  -- the join passes its wait, and the bullet is called
  let s₁ := c₁.alone.set 0 (.running join.program)
  let s₂ := s₁.set 0 (.running rest)
  let s₃ := s₂.set 1 (.running bullet.program)
  have begins : SystemStep c₁.alone (.call 0 join) s₁ := ⟨rfl, rfl⟩
  have here : s₁.threads 0 = .running (.wait :: rest) :=
    text ▸ System.set_threads_self _ _ _
  have raised : Stmt.exec 0 true .wait c₁ = some c₁ := rfl
  have passes : SystemStep s₁ (.exec 0 true) s₂ := ⟨_, _, 0, _, here, raised, rfl⟩
  have others : ∀ j, j ≠ 0 → s₂.threads j = .idle := fun j other =>
    (System.set_threads_of_ne _ _ other).trans (System.set_threads_of_ne _ _ other)
  have quiet : ¬s₁.Occupied := by
    rintro ⟨j, section'⟩
    by_cases same : j = 0
    · rw [same, Thread.InSection, here] at section'
      exact section' rfl
    · rw [System.set_threads_of_ne _ _ same] at section'
      exact section' rfl
  have called : SystemStep s₂ (.call 1 bullet) s₃ := ⟨others 1 (by decide), rfl⟩
  have entered : (s₂.threads 0).InSection := by
    rw [System.set_threads_self, Thread.InSection, Thread.stage, behind]
    decide
  -- the join runs on to its end
  have here₃ : s₃.threads 0 = .running rest :=
    (System.set_threads_of_ne _ _ (by decide)).trans (System.set_threads_self _ _ _)
  have waits : ¬(s₃.threads 1).InSection := by
    rw [System.set_threads_self, Thread.InSection, not_not]
    exact bullet.program_disciplined.1
  have outside₃ : ∀ j, j ≠ 0 → ¬(s₃.threads j).InSection := by
    intro j other
    by_cases same : j = 1
    · exact same ▸ waits
    · rw [System.set_threads_of_ne _ _ same, others j other]
      exact Thread.idle_outside
  obtain ⟨trace, ran, alone₃, _⟩ := exists_run_undisturbed here₃ outside₃ inside
  -- its completion lets the bullet pass
  let s₃' : System := { s₃ with chan := c₂ }
  let s₄ := s₃'.set 0 .idle
  let s₅ : System := { s₄ with chan := c₃ }
  have sent : SystemStep s₄ (.complete (postOf (join.result c₁.data) join.call) fun _ => 0#8) s₅ :=
    ⟨List.mem_cons_self, rfl⟩
  have here₅ : s₅.threads 1 = .running bullet.program :=
    (s₃'.set_threads_of_ne .idle Nat.one_ne_zero).trans
      (s₂.set_threads_self 1 (.running bullet.program))
  have idle₅ : ∀ j, j ≠ 1 → s₅.threads j = .idle := by
    intro j other
    by_cases same : j = 0
    · rw [same]
      exact s₃'.set_threads_self 0 .idle
    · exact (s₃'.set_threads_of_ne .idle same).trans
        ((s₂.set_threads_of_ne (.running bullet.program) other).trans (others j same))
  have whole : runStmts 0 true bullet.program c₃ =
      some (c₃.finish (bullet.result c₃.data) bullet.call true) := by
    rw [bullet.program_eq]
    exact (runStmts_request_iff bullet.call_dir _ _ _ _).mpr ⟨rfl, rfl⟩
  have outside₅ : ∀ j, j ≠ 1 → ¬(s₅.threads j).InSection := by
    intro j other
    rw [idle₅ j other]
    exact Thread.idle_outside
  obtain ⟨trace', ran', alone₅, _⟩ := exists_run_undisturbed here₅ outside₅ whole
  refine ⟨_, _, logged.append (.cons complete (.cons begins (.cons passes (.cons called
    (ran.append (.cons sent ran')))))), ?_, ⟨s₂, by simp [bullet], entered⟩, ?_, rfl⟩
  · simp only [guarded_append, guarded_cons]
    exact ⟨alone, trivial, trivial, fun _ _ => quiet, trivial, alone₃, trivial, alone₅⟩
  · rintro ⟨j, section'⟩
    by_cases same : j = 1
    · rw [same, System.set_threads_self] at section'
      exact section' rfl
    · rw [System.set_threads_of_ne _ _ same] at section'
      exact section' (congrArg Thread.stage (idle₅ j same))

/-- In the one after the other the join comes first, then the bullet. -/
theorem operations_atomic_interleaved : ∃ trace s,
    Run SystemStep (registered (freshIoData 1#64)).alone trace s ∧
      (∃ t, (t, .call 1 (.bullet bulletMessage)) ∈ trace ∧ (t.threads 0).InSection) ∧
      ∃ events c, Run OperationStep (registered (freshIoData 1#64)) events c ∧
        Guarded (fun _ e => e.Allowed (Asked trace)) events ∧
        c.places = [.checkUid, .joinTable, .bullet] ∧ s.chan.owned = c := by
  obtain ⟨trace, s, run, guard, overlap, empty, places⟩ := exists_run_interleaved
  obtain ⟨events, c, serial, allowed, posts, _, same⟩ := operations_atomic _ run guard
  refine ⟨trace, s, run, overlap, events, c, serial, allowed, ?_, same empty⟩
  rw [Channel.places, ← posts]
  exact places

end IocpTest.NetService
