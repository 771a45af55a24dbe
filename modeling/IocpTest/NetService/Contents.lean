import IocpTest.NetService.Atomicity
import IocpTest.NetService.Cumulative
import IocpTest.NetService.Padding

/-!
# What lies in the buffer

A session has one buffer. Requests and answers are built in it, `WSASend` takes its bytes out
of it for as long as the call is in flight, `WSARecv` puts a datagram into it, and
`RecvCmdData` goes through all of it, whatever the size of the datagram.

Where every wait is passed alone nobody comes in between: a call in flight finds in the
session what it was made for (`handedOver_everywhere`), and `RecvCmdData` goes through whole
datagrams with zeros behind them, through each at most once and in the order of the
completions (`received_inTurn`). Not all of these have been received. Behind a request that
has overtaken a callback lies the packet of that request.
-/

namespace IocpTest.NetService

open StepSystem Bytes

/-- The operations with the codes and the size that the callbacks have for them. -/
def Operation.InProgram : Operation → Prop
  | .rearm opt => opt = 0x10001#32 ∨ opt = 0xf0000#32
  | .answer length => length = iocpBufferSize
  | _ => True

theorem inProgram_callbacks : Callbacks Operation.InProgram := ⟨fun _ known => known, rfl⟩

theorem inProgram_of_called {act : Action} {op : Operation} (called : op ∈ act.operation) :
    op.InProgram := by
  cases act with
  | checkUid | call =>
      obtain rfl := Option.some.inj called
      trivial
  | _ => cases called

/-! ## The call in flight -/

/-- What a call in flight finds in its session: `OPT`, the length and the bytes are those it
was made with, and the rest of the buffer is zero. `CheckUid` does not clear the buffer. -/
structure HandedOver (c : Channel) (p : Post) : Prop where
  made : (p, true) ∈ c.posts
  posted : WellPosted p
  same : p = postOf c.data p.call
  padded : p.call ≠ .checkUid → ∃ behind, c.data.buffer = received behind iocpBufferSize p.payload
  whole : p.dir = .recv → c.data.wsabufLen.toNat = iocpBufferSize

section

variable (d : NetIoData)

theorem requestData_buffer {call : Call} (send : call.dir = .send) (opt : UINT)
    (recvID : Option UINT) (msgID : Protos) (msg : Message) :
    (requestData opt recvID msgID msg d).buffer = received d.buffer iocpBufferSize
      (postOf (requestData opt recvID msgID msg d) call).payload := by
  rw [requestData_payload send]
  refine (memcpy_slice fun i outside => ?_).symm
  have behind : msg.bytes.length + 12 ≤ i := by simpa [Message.byteSize] using outside
  show requestBuffer d.buffer _ _ _ _ i = _
  rw [requestBuffer, memcpy_of_le _ _ (by omega), writeUSHORT,
    memcpy_of_le _ _ (by rw [ushortBytes_length]; omega), writeUSHORT,
    memcpy_of_le _ _ (by rw [ushortBytes_length]; omega), writeUINT,
    memcpy_of_le _ _ (by rw [uintBytes_length]; omega), writeUINT,
    memcpy_of_le _ _ (by rw [uintBytes_length]; omega)]

theorem answerData_buffer (recvID : UINT) : (answerData recvID d).buffer =
    received d.buffer iocpBufferSize (postOf (answerData recvID d) .answer).payload := by
  rw [payload_answer]
  rfl

theorem received_nil (behind : Memory) (capacity : Nat) :
    received behind capacity [] = memset behind 0 0#8 capacity :=
  memcpy_slice (p := 0) (n := 0) fun _ _ => rfl

end

section

variable {c c' : Channel} {e : OperationEvent}

theorem Operation.Done.handedOver {op : Operation} (done : op.Done true c c')
    (known : op.InProgram) : HandedOver c' (postOf c'.data op.call) := by
  have made : (postOf c'.data op.call, true) ∈ c'.posts := by simp [done.posts]
  cases op with
  | checkUid msg =>
      have data : c'.data = checkUidData msg c.data := done.data
      refine ⟨made, ?_, rfl, fun other => absurd rfl other, Direction.noConfusion⟩
      rw [data]
      rfl
  | request r =>
      have data : c'.data = r.result c.data := done.data
      refine ⟨made, ?_, rfl, fun _ => ⟨c.data.buffer, ?_⟩, fun recv => ?_⟩
      · rw [data]
        exact r.wellPosted c.data
      · rw [data]
        exact requestData_buffer _ r.call_dir _ _ _ _
      · cases r.call_dir.symm.trans recv
  | rearm opt =>
      have data : c'.data = rearmData opt c.data := done.data
      refine ⟨made, ?_, rfl, fun _ => ⟨c.data.buffer, ?_⟩, fun _ => ?_⟩
      · rw [data]
        exact wellPosted_rearm known c.data
      · rw [data]
        exact (received_nil c.data.buffer iocpBufferSize).symm
      · rw [data]
        rfl
  | answer length =>
      obtain ⟨recvID, data⟩ : ∃ recvID, c'.data = answerData recvID c.data := done.data
      refine ⟨made, ?_, rfl, fun _ => ⟨c.data.buffer, ?_⟩, Direction.noConfusion⟩
      · rw [data]
        exact wellPosted_answer recvID c.data
      · rw [data]
        exact answerData_buffer _ _

/-- One call in flight at most, and it finds what it was made for. -/
structure Buffered (c : Channel) : Prop where
  few : c.inflight.length ≤ 1
  handedOver : ∀ p ∈ c.inflight, HandedOver c p

theorem Buffered.step (buffered : Buffered c) (begun : e.Begun Operation.InProgram c)
    (step : OperationStep c e c') : Buffered c' := by
  cases e with
  | complete p mem =>
      obtain ⟨busy, rfl⟩ := step
      have few := buffered.few
      have fewer : (c.inflight.erase p).length = c.inflight.length - 1 :=
        List.length_erase_of_mem busy
      have none : (c.complete p mem).owned.inflight = [] := by
        apply List.length_eq_zero_iff.mp
        cases hdir : p.dir <;> simp only [Channel.complete, Channel.owned, hdir] <;> omega
      exact ⟨by simp [none], by simp [none]⟩
  | run op accepted =>
      obtain ⟨known, _, quiet⟩ := begun
      have done := step.done
      have inflight := done.inflight
      rw [quiet] at inflight
      cases accepted with
      | false =>
          have none : c'.inflight = [] := inflight
          exact ⟨by simp [none], by simp [none]⟩
      | true =>
          have one : c'.inflight = [postOf c'.data op.call] := inflight
          refine ⟨by simp [one], ?_⟩
          rw [one, List.forall_mem_singleton]
          exact done.handedOver known

end

/-! ## The runs -/

section

variable {trace : List (System × Action)} {s : System}

theorem exists_serial_inProgram (d : NetIoData)
    (run : Run SystemStep (registered d).alone trace s) (guard : Guarded EntersAlone trace) :
    ∃ events c, Run OperationStep (registered d) events c ∧
      Guarded (fun c e => e.Begun Operation.InProgram c) events ∧
      outputs OperationEvent.arrival events = outputs Action.arrival trace ∧ s.gate.Held ∧
      Serial Operation.InProgram s c := by
  have start : Serial Operation.InProgram (registered d).alone (registered d) :=
    .still (fun _ => .returns (by simp [Returns])) rfl
  exact start.run run (Channel.alone_disciplined _) (registered_held d) inProgram_callbacks
    (fun _ _ _ called => inProgram_of_called called) guard

theorem handedOver_last (d : NetIoData) (run : Run SystemStep (registered d).alone trace s)
    (guard : Guarded EntersAlone trace) : ∀ p ∈ s.chan.inflight, HandedOver s.chan p := by
  intro p busy
  obtain ⟨events, c, serialRun, begun, _, held, serial⟩ := exists_serial_inProgram d run guard
  have start : Buffered (registered d) := ⟨Nat.zero_le 1, by simp [registered]⟩
  have buffered : Buffered c := (serialRun.everywhere_of_guarded Buffered
    (fun _ _ _ buffered begun step => buffered.step begun step) (fun _ h => h) start begun).2
  cases serial with
  | still _ same =>
      obtain rfl := same
      have there := buffered.handedOver p busy
      exact ⟨there.made, there.posted, there.same, there.padded, there.whole⟩
  | busy i op done todo rest _ inside _ =>
      -- While a thread is inside nothing is in flight.
      have none : s.chan.inflight.length = 0 := held.settled ⟨i, inside.inSection⟩
      exact absurd none (Nat.ne_of_gt (List.length_pos_of_mem busy))

/-- Over every run of a registered session, of any number of threads in any order, whose
waits are all passed alone, every call in flight finds what it was made for. -/
theorem handedOver_everywhere (d : NetIoData)
    (run : Run SystemStep (registered d).alone trace s) (guard : Guarded EntersAlone trace) :
    Everywhere (fun s => ∀ p ∈ s.chan.inflight, HandedOver s.chan p) trace s :=
  Run.everywhere_of_ends (fun run guard => handedOver_last d run guard) run guard

end

/-! ## What is gone through -/

/-- The records that `RecvCmdData` goes through in these buffers, one after the other. -/
inductive GoesThrough : List Memory → List CmdHeader → Prop
  | nil : GoesThrough [] []
  | cons {mem : Memory} {recvID : UINT} {t : Cursor} {rest : List Memory}
      {records : List CmdHeader} : Scans mem recvID iocpBufferSize t → GoesThrough rest records →
      GoesThrough (mem :: rest) (t.visited ++ records)

theorem GoesThrough.one {mem : Memory} {recvID : UINT} {t : Cursor}
    (scans : Scans mem recvID iocpBufferSize t) : GoesThrough [mem] t.visited := by
  have one := GoesThrough.cons scans .nil
  rwa [List.append_nil] at one

theorem GoesThrough.append {first rest : List Memory} {before after : List CmdHeader}
    (begins : GoesThrough first before) (ends : GoesThrough rest after) :
    GoesThrough (first ++ rest) (before ++ after) := by
  induction begins with
  | nil => exact ends
  | cons scans _ ih =>
      rw [List.cons_append, List.append_assoc]
      exact .cons scans ih

/-- The buffer, if a completion has left something in it since the last operation began. -/
def Channel.waiting (c : Channel) : List Memory := if c.event then [c.data.buffer] else []

section

variable {c c' : Channel} {e : OperationEvent}

theorem OperationStep.goesThrough (begun : e.Begun Operation.InProgram c)
    (step : OperationStep c e c') : ∃ used records, GoesThrough used records ∧
      (used ++ c'.waiting).Sublist (c.waiting ++ (e.arrival c).toList) ∧
      c'.received = c.received ++ records := by
  cases e with
  | complete p mem =>
      obtain ⟨_, rfl⟩ := step
      have left : (c.complete p mem).owned.waiting = [(c.complete p mem).data.buffer] := by
        cases hdir : p.dir <;> simp [Channel.complete, Channel.owned, Channel.waiting, hdir]
      have same : (c.complete p mem).owned.received = c.received := by
        cases hdir : p.dir <;> simp [Channel.complete, Channel.owned, Channel.overwrite, hdir]
      refine ⟨[], [], .nil, ?_, by rw [same, List.append_nil]⟩
      rw [left]
      exact List.sublist_append_right _ _
  | run op accepted =>
      obtain ⟨known, event, _⟩ := begun
      have done := step.done
      have left : c'.waiting = [] := by
        rw [Channel.waiting, done.event, event, Bool.not_and_self]
        rfl
      obtain ⟨visited, visits, received⟩ := done.received
      cases op with
      | answer length =>
          obtain rfl : length = iocpBufferSize := known
          obtain ⟨t, scans, rfl⟩ := visits
          refine ⟨_, _, .one scans, ?_, received⟩
          rw [left, Channel.waiting, event]
          exact List.sublist_append_left _ _
      | checkUid | request | rearm =>
          obtain rfl : visited = [] := visits
          exact ⟨[], [], .nil, by rw [left]; exact List.nil_sublist _, received⟩

theorem goesThrough_run {events : List (Channel × OperationEvent)}
    (run : Run OperationStep c events c')
    (begun : Guarded (fun c e => e.Begun Operation.InProgram c) events) :
    ∃ used records, GoesThrough used records ∧
      (used ++ c'.waiting).Sublist (c.waiting ++ outputs OperationEvent.arrival events) ∧
      c'.received = c.received ++ records := by
  induction run with
  | nil c => exact ⟨[], [], .nil, List.sublist_append_left _ _, (List.append_nil _).symm⟩
  | @cons c c₁ c' e events first _ ih =>
      obtain ⟨now, begun⟩ := guarded_cons.mp begun
      obtain ⟨used, records, through, part, received⟩ := first.goesThrough now
      obtain ⟨later, rest, through', part', received'⟩ := ih begun
      refine ⟨_, _, through.append through', ?_, by rw [received', received, List.append_assoc]⟩
      have behind := part'.append_left used
      have before := part.append_right (outputs OperationEvent.arrival events)
      rw [← List.append_assoc, ← List.append_assoc] at behind
      rw [List.append_assoc c.waiting, ← outputs_cons] at before
      exact behind.trans before

end

/-! ## In the middle of an operation -/

def Stmt.scans : Stmt → Bool
  | .recvRecords _ => true
  | _ => false

section

variable {fuel : Nat} {accepted : Bool} {a c c' : Channel}

theorem runStmts_received {text : List Stmt} (none : text.any Stmt.scans = false)
    (run : runStmts fuel accepted text c = some c') : c'.received = c.received := by
  induction text generalizing c with
  | nil =>
      obtain rfl := Option.some.inj run
      rfl
  | cons stmt text ih =>
      obtain ⟨here, later⟩ := Bool.or_eq_false_iff.mp none
      obtain ⟨c₁, exec, rest⟩ := Option.bind_eq_some_iff.mp run
      rw [ih later rest]
      cases stmt with
      | recvRecords length => cases here
      | wait =>
          obtain ⟨_, same⟩ := Option.ite_none_right_eq_some.mp exec
          obtain rfl := Option.some.inj same
          rfl
      | post call => cases call <;> obtain rfl := Option.some.inj exec <;> rfl
      | _ =>
          obtain rfl := Option.some.inj exec
          rfl

/-- `RecvCmdData` goes through the buffer that it has found, once. -/
theorem runStmts_answer {length : Nat} {done todo : List Stmt}
    (inner : (Operation.answer length).inner = done ++ todo)
    (run : runStmts fuel accepted done a = some c) : c.received = a.received ∨
      ∃ t, Scans a.data.buffer a.data.recvID length t ∧ c.received = a.received ++ t.visited := by
  obtain ⟨later, text, none⟩ : ∃ later : List Stmt,
      .resetEvent :: .recvRecords length :: later = done ++ todo ∧
        later.any Stmt.scans = false := ⟨_, inner, rfl⟩
  rcases done with _ | ⟨first, _ | ⟨second, done⟩⟩
  · obtain rfl := Option.some.inj run
    exact .inl rfl
  · obtain ⟨rfl, _⟩ := List.cons.inj text
    obtain rfl := Option.some.inj run
    exact .inl rfl
  · obtain ⟨rfl, behind⟩ := List.cons.inj text
    obtain ⟨rfl, rfl⟩ := List.cons.inj behind
    obtain ⟨_, reset, run⟩ := Option.bind_eq_some_iff.mp run
    obtain rfl := Option.some.inj reset
    obtain ⟨_, exec, rest⟩ := Option.bind_eq_some_iff.mp run
    obtain ⟨t, scan, rfl⟩ := Option.map_eq_some_iff.mp exec
    have both : (done ++ todo).any Stmt.scans = false := none
    rw [List.any_append, Bool.or_eq_false_iff] at both
    exact .inr ⟨t, ⟨fuel, scan⟩, runStmts_received both.1 rest⟩

theorem Inside.goesThrough {t : Thread} {op : Operation} {done todo rest : List Stmt}
    (inside : Inside t op a c done todo rest) (known : op.InProgram) :
    ∃ used records, GoesThrough used records ∧ used.Sublist a.waiting ∧
      c.received = a.received ++ records := by
  obtain ⟨fuel, ran⟩ := inside.ran
  have nothing (none : op.inner.any Stmt.scans = false) :
      ∃ used records, GoesThrough used records ∧ used.Sublist a.waiting ∧
        c.received = a.received ++ records := by
    rw [inside.inner, List.any_append, Bool.or_eq_false_iff] at none
    refine ⟨[], [], .nil, List.nil_sublist _, ?_⟩
    rw [runStmts_received none.1 (ran true), List.append_nil]
  cases op with
  | checkUid msg | rearm opt => exact nothing rfl
  | request r => cases r <;> exact nothing rfl
  | answer length =>
      obtain rfl : length = iocpBufferSize := known
      rcases runStmts_answer inside.inner (ran true) with same | ⟨t, scans, received⟩
      · exact ⟨[], [], .nil, List.nil_sublist _, by rw [same, List.append_nil]⟩
      · refine ⟨_, _, .one scans, ?_, received⟩
        rw [Channel.waiting, inside.admitted]
        exact List.Sublist.refl _

end

/-! ## Where the datagrams come from -/

/-- What a receive puts into the buffer is a datagram of `D`, of the length it has asked for
at most. -/
def Delivers (D : List Byte → Prop) (s : System) : Action → Prop
  | .complete p mem => p.dir = .recv →
      ∃ d, D d ∧ d.length ≤ s.chan.data.wsabufLen.toNat ∧ mem = memcpy s.chan.data.buffer 0 d
  | _ => True

/-- A buffer with one whole datagram: a received one with zeros behind it, or one that an
accepted send has carried, with zeros behind it if it is not the login. -/
def Whole (D : List Byte → Prop) (posts : List (Post × Bool)) (mem : Memory) : Prop :=
  (∃ d behind, D d ∧ d.length ≤ iocpBufferSize ∧ mem = received behind iocpBufferSize d) ∨
    ∃ p, (p, true) ∈ posts ∧ p.dir = .send ∧ slice mem 0 p.payload.length = p.payload ∧
      (p.call ≠ .checkUid → ∃ behind, mem = received behind iocpBufferSize p.payload)

section

variable {D : List Byte → Prop} {s s' : System} {trace : List (System × Action)}

theorem HandedOver.whole_complete {p : Post} {mem : Memory} (there : HandedOver s.chan p)
    (delivers : Delivers D s (.complete p mem)) :
    Whole D s.chan.posts (s.chan.complete p mem).data.buffer := by
  cases hdir : p.dir with
  | send =>
      have payload : p.payload = slice s.chan.data.buffer 0 s.chan.data.wsabufLen.toNat :=
        (congrArg Post.payload there.same).trans (postOf_payload_send _ hdir)
      have same : (s.chan.complete p mem).data.buffer = s.chan.data.buffer := by
        simp only [Channel.complete, hdir]
      rw [same]
      refine .inr ⟨p, there.made, hdir, ?_, there.padded⟩
      rw [payload, slice_length]
  | recv =>
      have other : p.call ≠ .checkUid := by
        intro login
        rw [Post.dir, login] at hdir
        cases hdir
      have payload : p.payload = [] :=
        (congrArg Post.payload there.same).trans (postOf_payload_recv _ hdir)
      obtain ⟨behind, cleared⟩ := there.padded other
      obtain ⟨d, known, fits, rfl⟩ := delivers hdir
      have same : (s.chan.complete p (memcpy s.chan.data.buffer 0 d)).data.buffer =
          memcpy s.chan.data.buffer 0 d := by
        simp only [Channel.complete, hdir]
      refine .inl ⟨d, behind, known, there.whole hdir ▸ fits, ?_⟩
      rw [same, cleared, payload, received_nil]
      rfl

/-- The calls made stay on record. -/
theorem SystemStep.posts_kept {act : Action} {x : Post × Bool} (step : SystemStep s act s')
    (made : x ∈ s.chan.posts) : x ∈ s'.chan.posts := by
  cases act with
  | checkUid | call =>
      obtain ⟨_, rfl⟩ := step
      exact made
  | dequeue =>
      obtain ⟨_, _, rfl⟩ := step
      exact made
  | branch =>
      obtain ⟨_, _, rfl⟩ := step
      exact made
  | exec i accepted =>
      obtain ⟨stmt, rest, fuel, c, _, exec, rfl⟩ := step
      show x ∈ c.posts
      cases stmt with
      | wait =>
          obtain ⟨_, same⟩ := Option.ite_none_right_eq_some.mp exec
          obtain rfl := Option.some.inj same
          exact made
      | post call =>
          cases call <;> obtain rfl := Option.some.inj exec <;>
            exact List.mem_append_left _ made
      | _ =>
          rw [(Stmt.exec_posts rfl exec).1]
          exact made
  | complete p mem =>
      obtain ⟨_, rfl⟩ := step
      cases hdir : p.dir <;> simpa only [Channel.complete, Channel.overwrite, hdir] using made

theorem Whole.mono {posts posts' : List (Post × Bool)} {mem : Memory} (whole : Whole D posts mem)
    (more : ∀ x ∈ posts, x ∈ posts') : Whole D posts' mem := by
  rcases whole with datagram | ⟨p, made, sent⟩
  · exact .inl datagram
  · exact .inr ⟨p, more _ made, sent⟩

theorem whole_of_mem_outputs (run : Run SystemStep s trace s')
    (all : Everywhere (fun s => ∀ p ∈ s.chan.inflight, HandedOver s.chan p) trace s')
    (delivers : Guarded (Delivers D) trace) :
    ∀ mem ∈ outputs Action.arrival trace, Whole D s'.chan.posts mem := by
  intro mem member
  obtain ⟨⟨u, act⟩, taken, arrival⟩ := List.mem_filterMap.mp member
  have kept : ∀ x ∈ u.chan.posts, x ∈ s'.chan.posts := by
    intro x made
    by_contra missing
    have never := run.everywhere_of_last (P := fun s => x ∉ s.chan.posts)
      (fun _ _ _ step missing made => missing (step.posts_kept made)) missing
    exact never.1 _ taken made
  cases act with
  | complete p mem' =>
      obtain rfl := Option.some.inj arrival
      obtain ⟨_, busy, _⟩ := run.steps _ taken
      exact ((all.1 _ taken p busy).whole_complete (delivers _ taken)).mono kept
  | _ => cases arrival

/-- Over every run of a registered session, of any number of threads in any order, whose
waits are all passed alone and whose receives put datagrams of `D` into the buffer, each
completion leaves one whole datagram in it, and `RecvCmdData` has gone through the buffers of
some of the completions, through each once and in their order. -/
theorem received_inTurn (d : NetIoData) (run : Run SystemStep (registered d).alone trace s)
    (guard : Guarded EntersAlone trace) (delivers : Guarded (Delivers D) trace) :
    (∀ mem ∈ outputs Action.arrival trace, Whole D s.chan.posts mem) ∧
      ∃ used, used.Sublist (outputs Action.arrival trace) ∧ GoesThrough used s.chan.received := by
  have all : Everywhere (fun s => ∀ p ∈ s.chan.inflight, HandedOver s.chan p) trace s :=
    Run.everywhere_of_ends (fun run guard => handedOver_last d run guard) run guard
  refine ⟨whole_of_mem_outputs run all delivers, ?_⟩
  obtain ⟨events, c, serialRun, begun, arrived, _, serial⟩ := exists_serial_inProgram d run guard
  obtain ⟨used, records, through, part, received⟩ := goesThrough_run serialRun begun
  rw [arrived] at part
  have whole : (used ++ c.waiting).Sublist (outputs Action.arrival trace) := part
  have before : c.received = records := received
  cases serial with
  | still _ same =>
      obtain rfl := same
      exact ⟨used, (List.sublist_append_left _ _).trans whole, before ▸ through⟩
  | busy i op done todo rest known inside _ =>
      obtain ⟨last, more, through', part', received'⟩ := inside.goesThrough known
      refine ⟨used ++ last, (part'.append_left used).trans whole, ?_⟩
      have now : s.chan.received = records ++ more := before ▸ received'
      exact now ▸ through.append through'

end

/-! ## A conversation -/

/-- The callback of a receive that posts the acknowledgement. -/
theorem SessionStep.answered {s : Session} {p : Post} {t : Cursor} (accepted : Bool)
    (queued : p ∈ s.chan.packets) (event : s.chan.event = true)
    (opt : s.chan.data.opt = 0xf0000#32)
    (scan : Scans s.chan.data.buffer s.chan.data.recvID iocpBufferSize t) :
    SessionStep s (.callback p accepted)
      ⟨Channel.finish
          { s.chan.dequeue p with received := s.chan.received ++ t.visited, unread := false }
          (answerData t.recvID s.chan.data) .answer accepted,
        s.handled ++ [(p, .cmdDataReceived)]⟩ := by
  have hbranch : branchOf s.chan.data.opt = .cmdDataReceived := by rw [opt]; rfl
  obtain ⟨fuel, scan⟩ := scan
  refine ⟨queued, fuel, _, ?_, by rw [hbranch]⟩
  rw [runStmts_callback, hbranch, Branch.body]
  exact (runStmts_recvCmdData_iff _).mpr ⟨event, t, scan, rfl⟩

/-- A datagram with one record arrives and is answered. -/
theorem exists_answered {s : Session} {ds : List (List Byte)} (listening : Listening 0xf0000#32 s)
    (known : joinablePacket ∈ ds) :
    ∃ trace s', Run SessionStep s trace s' ∧ Orderly ds trace ∧
      outputs (fun _ e => e.request) trace = [] ∧
      s'.chan.places = s.chan.places ++ [.answer] ∧
      s'.chan.received = s.chan.received ++ [joinableRecord.header] := by
  obtain ⟨p, recv, inflight⟩ := listening.inflight
  obtain ⟨behind, cleared⟩ := listening.cleared
  let mem := memcpy s.chan.data.buffer 0 joinablePacket
  let arrived : Session := { s with chan := s.chan.complete p mem }
  have complete : SessionStep s (.complete p mem) arrived :=
    ⟨by rw [inflight]; exact List.mem_cons_self, rfl⟩
  have buffer : arrived.chan.data.buffer = received behind iocpBufferSize joinablePacket := by
    simp [arrived, mem, Channel.complete, recv, received, cleared]
  obtain ⟨t, scan, visited⟩ := exists_scans_joinable behind arrived.chan.data.recvID
  rw [← buffer] at scan
  have answered := SessionStep.answered (s := arrived) (p := p) true (by simp [arrived])
    Channel.complete_event (by simpa [arrived] using listening.opt) scan
  refine ⟨_, _, .cons complete (.cons answered (.nil _)), ⟨?_, ?_, ?_⟩, rfl, ?_, ?_⟩
  · simp [CallsOnEmptyQueue]
  · simp only [guarded_cons, guarded_nil, Brings, and_true]
    exact fun _ => ⟨joinablePacket, known, by rw [listening.length]; decide, rfl⟩
  · simp [CallAccepted]
  · simp [arrived, Channel.places, Channel.finish, Channel.dequeue, Channel.complete,
      Channel.overwrite, recv, postOf]
  · simp [arrived, Channel.finish, Channel.dequeue, Channel.complete, Channel.overwrite, recv,
      visited]

/-- The login and its refusal, a join, and a datagram with its acknowledgement, on threads that
enter alone. -/
theorem exists_run_conversation (msg : Message) : ∃ trace c,
    Run SystemStep (registered (freshIoData 1#64)).alone trace (Channel.alone c) ∧
      Guarded EntersAlone trace ∧ Guarded (Delivers (· ∈ [refusal, joinablePacket])) trace ∧
      (∀ taken ∈ trace, ∀ op ∈ taken.2.operation,
        op = .checkUid msg ∨ op = .request (.joinTable joinRoomMessage)) ∧
      c.places = [.checkUid, .receive, .joinTable, .receive, .answer] ∧
      c.received = [joinableRecord.header] := by
  obtain ⟨login, logged, alone, only⟩ := checkUid_only_run (freshIoData 1#64) msg
  obtain ⟨first, s, run, orderly, join, listening, _, places, received⟩ :=
    exists_run_join msg (show refusal ∈ [refusal, joinablePacket] from List.mem_cons_self)
  obtain ⟨rest, s', run', orderly', none, places', received'⟩ :=
    exists_answered listening (List.mem_cons_of_mem _ List.mem_cons_self)
  obtain ⟨trace, system, alone', _, inner⟩ := exists_run_of_session (run.append run')
  have brings := (orderly.append orderly').brings
  have requests : outputs (fun _ e => e.request) (first ++ rest) =
      [.joinTable joinRoomMessage] := by
    rw [outputs_append, join, none]
    rfl
  refine ⟨_, s'.chan, logged.append system, guarded_append.mpr ⟨alone, alone'⟩,
    guarded_append.mpr ⟨?_, ?_⟩, List.forall_mem_append.mpr ⟨?_, ?_⟩, ?_, ?_⟩
  · intro taken member
    rcases only taken member with here | here <;> rw [here] <;> trivial
  · intro taken member
    rcases inner taken member with ⟨⟨t, e⟩, old, rfl⟩ | here | ⟨_, here, _⟩
    · cases e with
      | complete p mem => exact brings _ old
      | call | callback => trivial
    · rw [here]
      trivial
    · rw [here]
      trivial
  · intro taken member op called
    rcases only taken member with here | here <;> rw [here] at called
    · exact .inl (Option.some.inj called).symm
    · cases called
  · intro taken member op called
    rcases inner taken member with ⟨⟨t, e⟩, old, rfl⟩ | here | ⟨_, here, _⟩
    · cases e with
      | call r accepted =>
          have made : r ∈ outputs (fun _ e => e.request) (first ++ rest) :=
            List.mem_filterMap.mpr ⟨_, old, rfl⟩
          rw [requests, List.mem_singleton] at made
          obtain rfl := made
          exact .inr (Option.some.inj called).symm
      | complete | callback => cases called
    · rw [here] at called
      cases called
    · rw [here] at called
      cases called
  · rw [places', places]
    rfl
  · rw [received', received]
    rfl

/-- The login, the join and the acknowledgement. -/
theorem handedOver_conversation : ∃ trace c,
    Run SystemStep (registered (freshIoData 1#64)).alone trace (Channel.alone c) ∧
      c.places = [.checkUid, .receive, .joinTable, .receive, .answer] ∧
      Everywhere (fun s => ∀ p ∈ s.chan.inflight, HandedOver s.chan p) trace c.alone := by
  obtain ⟨trace, c, run, guard, _, _, places, _⟩ := exists_run_conversation enterFishServerMessage
  exact ⟨trace, c, run, places, handedOver_everywhere _ run guard⟩

/-- `RecvCmdData` has gone through the one datagram behind the login. -/
theorem received_inTurn_conversation : ∃ trace c,
    Run SystemStep (registered (freshIoData 1#64)).alone trace (Channel.alone c) ∧
      c.received = [joinableRecord.header] ∧
      (∀ mem ∈ outputs Action.arrival trace, Whole (· ∈ [refusal, joinablePacket]) c.posts mem) ∧
      ∃ used, used.Sublist (outputs Action.arrival trace) ∧ GoesThrough used c.received := by
  obtain ⟨trace, c, run, guard, delivers, _, _, received⟩ :=
    exists_run_conversation enterFishServerMessage
  exact ⟨trace, c, run, received, received_inTurn _ run guard delivers⟩

end IocpTest.NetService
