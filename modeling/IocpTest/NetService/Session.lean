import IocpTest.Logic.Run
import IocpTest.NetService.Traffic

/-!
# Which branch handles which completion

One session with requests and callbacks as atomic steps. `Callback` does not know
which call a packet belongs to: it takes the branch that `OPT` names when it runs.
`Handles` says from the place of a call which branch is written for it, whatever its
`OPT`.

A request that runs between a completion and its callback replaces `OPT` and the
buffer, so the packet goes to a branch written for another call or a datagram in
the buffer is gone. `CallsOnEmptyQueue` rules exactly those requests out: behind one
that is accepted the session can always go wrong (`exists_not_dispatched`).
-/

namespace IocpTest.NetService

open Bytes StepSystem

/-- A session and, as history, the packets that callbacks have handled so far. -/
structure Session where
  chan : Channel
  handled : List (Post × Branch)

inductive SessionEvent where
  /-- A call completes. A completed receive leaves `mem` in the buffer. -/
  | complete (p : Post) (mem : Memory)
  | call (r : Request) (accepted : Bool)
  | callback (p : Post) (accepted : Bool)

/-- The system signals the event and queues the completion packet. -/
def Channel.complete (c : Channel) (p : Post) (mem : Memory) : Channel :=
  match p.dir with
  | .send =>
      { c with event := true, inflight := c.inflight.erase p, packets := c.packets ++ [p] }
  | .recv =>
      { c.overwrite with
        data := { c.data with buffer := mem }
        event := true
        inflight := c.inflight.erase p
        packets := c.packets ++ [p]
        unread := true }

/-- A worker takes a packet off the queue. -/
def Channel.dequeue (c : Channel) (p : Post) : Channel :=
  { c with packets := c.packets.erase p }

def SessionStep (s : Session) : SessionEvent → Session → Prop
  | .complete p mem, s' => p ∈ s.chan.inflight ∧ s' = { s with chan := s.chan.complete p mem }
  | .call r accepted, s' =>
      ∃ c, runStmts 0 accepted r.program s.chan = some c ∧ s' = { s with chan := c }
  | .callback p accepted, s' =>
      p ∈ s.chan.packets ∧ ∃ fuel c,
        runStmts fuel accepted (callback s.chan.data iocpBufferSize) (s.chan.dequeue p) = some c ∧
        s' = ⟨c, s.handled ++ [(p, branchOf s.chan.data.opt)]⟩

/-- The branches that look at the bytes of a receive. -/
def Branch.receives : Branch → Bool
  | .checkUidReceived => true
  | .cmdDataReceived => true
  | .other => true
  | _ => false

/-- The branches written for a call, by the place that made it: a send has its own, a
receive goes to one that looks at the bytes. -/
def Handles (b : Branch) (p : Post) : Prop :=
  match p.call with
  | .checkUid => b = .checkUidSent
  | .joinTable => b = .joinTableSent
  | .startSyncFish => b = .startSyncFishSent
  | .bullet => b = .bulletSent
  | .answer => b = .answerSent
  | .receive => b.receives = true

/-- Every packet went to its own branch and no datagram was overwritten unread. -/
structure Dispatched (s : Session) : Prop where
  handled : ∀ x ∈ s.handled, Handles x.2 x.1
  kept : s.chan.lost = false

/-- Requests are only made while no completion packet of the session is queued. -/
def CallsOnEmptyQueue (s : Session) : SessionEvent → Prop
  | .call _ _ => s.chan.packets = []
  | _ => True

/-! ## The calls of the operations -/

/-- The codes under which the operations make their calls. -/
def WellPosted (p : Post) : Prop :=
  match p.call with
  | .checkUid => p.opt = 1#32
  | .joinTable => p.opt = 2#32
  | .startSyncFish => p.opt = 3#32
  | .bullet => p.opt = 4#32
  | .answer => p.opt = 0x20000#32
  | .receive => p.opt = 0x10001#32 ∨ p.opt = 0xf0000#32

/-- The code of a call leads `Callback` to the branch written for it. -/
theorem WellPosted.handles {p : Post} (h : WellPosted p) : Handles (branchOf p.opt) p := by
  cases hcall : p.call with
  | checkUid | joinTable | startSyncFish | bullet | answer =>
      simp only [WellPosted, hcall] at h
      simp only [Handles, hcall, h]
      rfl
  | receive =>
      simp only [WellPosted, hcall] at h
      rcases h with h | h <;> simp only [Handles, hcall, h] <;> rfl

/-- A send does not go to a branch that looks at received bytes, a receive does. -/
theorem WellPosted.receives_iff {p : Post} (h : WellPosted p) :
    (branchOf p.opt).receives = decide (p.dir = .recv) := by
  cases hcall : p.call with
  | checkUid | joinTable | startSyncFish | bullet | answer =>
      simp only [WellPosted, hcall] at h
      rw [h, Post.dir, hcall]
      rfl
  | receive =>
      simp only [WellPosted, hcall] at h
      rcases h with h | h <;> rw [h, Post.dir, hcall] <;> rfl

theorem Request.wellPosted (r : Request) (d : NetIoData) :
    WellPosted (postOf (r.result d) r.call) := by
  cases r <;> rfl

theorem wellPosted_rearm {opt : UINT} (h : opt = 0x10001#32 ∨ opt = 0xf0000#32)
    (d : NetIoData) : WellPosted (postOf (rearmData opt d) .receive) := h

theorem wellPosted_answer (recvID : UINT) (d : NetIoData) :
    WellPosted (postOf (answerData recvID d) .answer) := rfl

/-- What a callback leaves behind: a receiving branch first marks the buffer as
read, and then the callback ends or makes one call. -/
theorem callback_effect {fuel size : Nat} {accepted : Bool} {c c' : Channel}
    (h : runStmts fuel accepted (callback c.data size) c = some c') :
    ∃ received, ∃ c₁ : Channel, c₁ = { c with
        received := received
        unread := c.unread && !(branchOf c.data.opt).receives } ∧
      ((c' = c₁ ∧ (branchOf c.data.opt).receives = true) ∨
        (c.event = true ∧
          ∃ d call, WellPosted (postOf d call) ∧ c' = c₁.finish d call accepted)) := by
  rw [runStmts_callback] at h
  cases hbranch : branchOf c.data.opt with
  | checkUidReceived =>
      rw [hbranch, Branch.body, runStmts, Stmt.exec, Option.bind_some] at h
      refine ⟨c.received, _, rfl, ?_⟩
      split at h
      · obtain ⟨hevent, rfl⟩ := (runStmts_rearm_iff _).mp h
        exact .inr ⟨hevent, _, _, wellPosted_rearm (.inr rfl) c.data, by simp [Branch.receives]⟩
      · obtain rfl := Option.some.inj h
        exact .inl ⟨by simp [Branch.receives], rfl⟩
  | checkUidSent =>
      rw [hbranch] at h
      obtain ⟨hevent, rfl⟩ := (runStmts_rearm_iff _).mp h
      exact ⟨c.received, _, rfl, .inr ⟨hevent, _, _, wellPosted_rearm (.inl rfl) c.data,
        by simp [Branch.receives]⟩⟩
  | joinTableSent | startSyncFishSent | bulletSent | answerSent =>
      rw [hbranch] at h
      obtain ⟨hevent, rfl⟩ := (runStmts_rearm_iff _).mp h
      exact ⟨c.received, _, rfl, .inr ⟨hevent, _, _, wellPosted_rearm (.inr rfl) c.data,
        by simp [Branch.receives]⟩⟩
  | cmdDataReceived | other =>
      rw [hbranch] at h
      obtain ⟨hevent, t, _, rfl⟩ := (runStmts_recvCmdData_iff _).mp h
      exact ⟨c.received ++ t.visited, _, rfl, .inr ⟨hevent, _, _, wellPosted_answer t.recvID c.data,
        by simp [Branch.receives]⟩⟩

/-! ## The invariant -/

/-- Where the one call of a session stands. -/
inductive Phase (c : Channel) : Prop where
  /-- Nothing is in flight and nothing is queued. -/
  | idle (inflight : c.inflight = []) (packets : c.packets = []) (unread : c.unread = false)
  /-- The call is in flight. -/
  | busy (p : Post) (wellPosted : WellPosted p) (opt : c.data.opt = p.opt)
      (inflight : c.inflight = [p]) (packets : c.packets = []) (unread : c.unread = false)
      (event : c.event = false)
  /-- The call has completed and its packet is queued. -/
  | completed (p : Post) (wellPosted : WellPosted p) (opt : c.data.opt = p.opt)
      (inflight : c.inflight = []) (packets : c.packets = [p])
      (unread : c.unread = decide (p.dir = .recv))

structure SessionInv (s : Session) : Prop where
  dispatched : Dispatched s
  phase : Phase s.chan

/-- One call made with nothing in flight or queued. -/
theorem Phase.finish {c : Channel} {d : NetIoData} {call : Call} {accepted : Bool}
    (wellPosted : WellPosted (postOf d call)) (inflight : c.inflight = [])
    (packets : c.packets = []) : Phase (c.finish d call accepted) := by
  cases accepted with
  | false => exact .idle inflight packets rfl
  | true =>
      refine .busy (postOf d call) wellPosted rfl ?_ packets rfl rfl
      simp [Channel.finish, inflight]

theorem SessionInv.complete {s s' : Session} {p : Post} {mem : Memory} (inv : SessionInv s)
    (step : SessionStep s (.complete p mem) s') : SessionInv s' := by
  obtain ⟨hmem, rfl⟩ := step
  cases inv.phase with
  | idle inflight => rw [inflight] at hmem; cases hmem
  | completed q _ _ inflight => rw [inflight] at hmem; cases hmem
  | busy q wellPosted opt inflight packets unread event =>
      obtain rfl : p = q := by simpa [inflight] using hmem
      cases hdir : p.dir with
      | send =>
          refine ⟨⟨inv.dispatched.handled, ?_⟩, .completed p wellPosted ?_ ?_ ?_ ?_⟩ <;>
            simp [Channel.complete, hdir, inv.dispatched.kept, opt, inflight, packets, unread]
      | recv =>
          refine ⟨⟨inv.dispatched.handled, ?_⟩, .completed p wellPosted ?_ ?_ ?_ ?_⟩ <;>
            simp [Channel.complete, Channel.overwrite, hdir, inv.dispatched.kept, opt, inflight,
              packets, unread]

/-- A request on an empty queue finds nothing in flight either: its wait needs the
event, and the event is down while a call is in flight. -/
theorem SessionInv.call {s s' : Session} {r : Request} {accepted : Bool} (inv : SessionInv s)
    (empty : s.chan.packets = []) (step : SessionStep s (.call r accepted) s') :
    SessionInv s' := by
  obtain ⟨c, hrun, rfl⟩ := step
  rw [r.program_eq, runStmts_request_iff r.call_dir] at hrun
  obtain ⟨hevent, rfl⟩ := hrun
  cases inv.phase with
  | busy _ _ _ _ _ _ event => rw [hevent] at event; cases event
  | completed _ _ _ _ packets => rw [empty] at packets; cases packets
  | idle inflight packets unread =>
      refine ⟨⟨inv.dispatched.handled, ?_⟩, Phase.finish (r.wellPosted _) inflight packets⟩
      simp [Channel.finish, inv.dispatched.kept, unread]

theorem SessionInv.callback {s s' : Session} {p : Post} {accepted : Bool} (inv : SessionInv s)
    (step : SessionStep s (.callback p accepted) s') : SessionInv s' := by
  obtain ⟨hmem, fuel, c, hrun, rfl⟩ := step
  cases inv.phase with
  | idle _ packets => rw [packets] at hmem; cases hmem
  | busy _ _ _ _ packets => rw [packets] at hmem; cases hmem
  | completed q wellPosted opt inflight packets unread =>
      obtain rfl : p = q := by simpa [packets] using hmem
      have handled : ∀ x ∈ s.handled ++ [(p, branchOf s.chan.data.opt)], Handles x.2 x.1 := by
        intro x hx
        rcases List.mem_append.mp hx with hx | hx
        · exact inv.dispatched.handled x hx
        · obtain rfl := List.mem_singleton.mp hx
          rw [opt]
          exact wellPosted.handles
      have noPackets : (s.chan.dequeue p).packets = [] := by simp [Channel.dequeue, packets]
      -- A receiving branch reads the datagram, any other finds none.
      have read : (s.chan.unread && !(branchOf s.chan.data.opt).receives) = false := by
        rw [unread, opt, wellPosted.receives_iff]
        exact Bool.and_not_self _
      obtain ⟨received, c₁, rfl, ⟨rfl, _⟩ | ⟨_, d, call, posted, rfl⟩⟩ :=
        callback_effect (c := s.chan.dequeue p) hrun
      · exact ⟨⟨handled, inv.dispatched.kept⟩, .idle inflight noPackets read⟩
      · refine ⟨⟨handled, ?_⟩, Phase.finish posted inflight noPackets⟩
        simpa [Channel.finish, inv.dispatched.kept, Channel.dequeue] using read

theorem SessionInv.started (d : NetIoData) (msg : Message) :
    SessionInv ⟨NetService.started d msg, []⟩ where
  dispatched := ⟨by simp, rfl⟩
  phase := .busy (postOf (checkUidData msg d) .checkUid) rfl rfl rfl rfl rfl rfl

/-- Over every run from a started session whose requests are made on an empty
queue, every packet is handled by its own branch and every datagram is read. -/
theorem dispatched_of_callsOnEmptyQueue (d : NetIoData) (msg : Message)
    {trace : List (Session × SessionEvent)} {s : Session}
    (run : Run SessionStep ⟨started d msg, []⟩ trace s)
    (guard : Guarded CallsOnEmptyQueue trace) : Everywhere Dispatched trace s := by
  apply run.everywhere_of_guarded SessionInv ?_ (fun s inv => inv.dispatched)
    (SessionInv.started d msg) guard
  intro s e t inv empty step
  cases e with
  | complete p mem => exact inv.complete step
  | call r accepted => exact inv.call empty step
  | callback p accepted => exact inv.callback step

/-! ## Single steps -/

theorem SessionStep.call_iff {s s' : Session} {r : Request} {accepted : Bool} :
    SessionStep s (.call r accepted) s' ↔ s.chan.event = true ∧
      s' = { s with chan := s.chan.finish (r.result s.chan.data) r.call accepted } := by
  simp only [SessionStep, r.program_eq, runStmts_request_iff r.call_dir]
  constructor
  · rintro ⟨_, ⟨event, rfl⟩, rfl⟩
    exact ⟨event, rfl⟩
  · rintro ⟨event, rfl⟩
    exact ⟨_, ⟨event, rfl⟩, rfl⟩

/-- A callback whose branch posts the next receive, taken while its wait can succeed. -/
theorem SessionStep.rearmed {s : Session} {p : Post} (opt : UINT) (accepted : Bool)
    (queued : p ∈ s.chan.packets) (event : s.chan.event = true)
    (body : (branchOf s.chan.data.opt).body s.chan.data iocpBufferSize = rearm opt) :
    SessionStep s (.callback p accepted)
      ⟨(s.chan.dequeue p).finish (rearmData opt s.chan.data) .receive accepted,
        s.handled ++ [(p, branchOf s.chan.data.opt)]⟩ := by
  refine ⟨queued, 0, _, ?_, rfl⟩
  rw [runStmts_callback, body]
  exact (runStmts_rearm_iff _).mpr ⟨event, rfl⟩

/-- A request over a received datagram that no callback has seen loses it. -/
theorem SessionStep.lost_of_unread {s s' : Session} {r : Request} {accepted : Bool}
    (unread : s.chan.unread = true) (step : SessionStep s (.call r accepted) s') :
    s'.chan.lost = true := by
  obtain ⟨_, rfl⟩ := call_iff.mp step
  simp [Channel.finish, unread]

section

variable {c : Channel} {p : Post} {mem : Memory}

@[simp] theorem Channel.complete_event : (c.complete p mem).event = true := by
  cases hdir : p.dir <;> simp [Channel.complete, hdir]

@[simp] theorem Channel.complete_inflight :
    (c.complete p mem).inflight = c.inflight.erase p := by
  cases hdir : p.dir <;> simp [Channel.complete, Channel.overwrite, hdir]

@[simp] theorem Channel.complete_packets : (c.complete p mem).packets = c.packets ++ [p] := by
  cases hdir : p.dir <;> simp [Channel.complete, Channel.overwrite, hdir]

@[simp] theorem Channel.complete_opt : (c.complete p mem).data.opt = c.data.opt := by
  cases hdir : p.dir <;> simp [Channel.complete, Channel.overwrite, hdir]

end

/-! ## A request over a queued packet -/

/-- The branch written for the completion of a request. -/
def Request.sent : Request → Branch
  | .joinTable _ => .joinTableSent
  | .startSyncFish _ => .startSyncFishSent
  | .bullet _ => .bulletSent

theorem Request.branchOf_opt (r : Request) : branchOf r.opt = r.sent := by
  cases r <;> rw [Request.opt] <;> rfl

theorem Request.sent_body (r : Request) (d : NetIoData) (size : Nat) :
    r.sent.body d size = rearm (0xf0000#32 ||| 0#32) := by
  cases r <;> rfl

/-- No other send goes to the branch of a request. -/
theorem Request.call_of_handles {r : Request} {p : Post} (send : p.dir = .send)
    (handles : Handles r.sent p) : p.call = r.call := by
  cases r <;> cases hcall : p.call <;> simp only [Handles, hcall, Request.sent, reduceCtorEq]
    at handles <;> first | rfl | (rw [Post.dir, hcall] at send; cases send)

/-- With a receive in flight: a datagram arrives, and a request overwrites it. -/
theorem exists_lost {s : Session} {p : Post} (r : Request) (inflight : p ∈ s.chan.inflight)
    (recv : p.dir = .recv) : ∃ trace t, Run SessionStep s trace t ∧ ¬Dispatched t := by
  let arrived : Session := { s with chan := s.chan.complete p fun _ => 0#8 }
  have complete : SessionStep s (.complete p fun _ => 0#8) arrived := ⟨inflight, rfl⟩
  have request : SessionStep arrived (.call r true) _ :=
    SessionStep.call_iff.mpr ⟨Channel.complete_event, rfl⟩
  have unread : arrived.chan.unread = true := by simp [arrived, Channel.complete, recv]
  refine ⟨_, _, .cons complete (.cons request (.nil _)), fun dispatched => ?_⟩
  have lost := request.lost_of_unread unread
  rw [dispatched.kept] at lost
  cases lost

/-- The send of a request completes over a queued packet, and the branch of the request takes
the packet: it is the wrong one, or the next receive can be overwritten. -/
theorem exists_not_dispatched_sent {s : Session} {r : Request} {p q : Post}
    (opt : s.chan.data.opt = r.opt) (inflight : q ∈ s.chan.inflight)
    (queued : p ∈ s.chan.packets) (send : p.dir = .send) :
    ∃ trace t, Run SessionStep s trace t ∧ ¬Dispatched t := by
  let sent : Session := { s with chan := s.chan.complete q fun _ => 0#8 }
  have complete : SessionStep s (.complete q fun _ => 0#8) sent := ⟨inflight, rfl⟩
  have branch : branchOf sent.chan.data.opt = r.sent := by
    rw [Channel.complete_opt, opt, r.branchOf_opt]
  have handled := SessionStep.rearmed (s := sent) (p := p) (0xf0000#32 ||| 0#32) true
    (by rw [Channel.complete_packets]; exact List.mem_append_left _ queued)
    Channel.complete_event (by rw [branch, r.sent_body])
  have first := Run.cons complete (.cons handled (.nil _))
  by_cases same : p.call = r.call
  · have posted : postOf (rearmData (0xf0000#32 ||| 0#32) sent.chan.data) .receive ∈
        ((sent.chan.dequeue p).finish (rearmData (0xf0000#32 ||| 0#32) sent.chan.data) .receive
          true).inflight := List.mem_cons_self
    obtain ⟨trace, t, rest, wrong⟩ := exists_lost (s := ⟨_, _⟩) r posted rfl
    exact ⟨_, t, first.append rest, wrong⟩
  · refine ⟨_, _, first, fun dispatched => ?_⟩
    have right := dispatched.handled _ (List.mem_append_right _ List.mem_cons_self)
    rw [branch] at right
    exact same (r.call_of_handles send right)

/-- An accepted request over a queued packet, be it of a send or of a receive: the session
can go on to a state in which a packet went to another branch or a datagram is lost. -/
theorem exists_not_dispatched {s s' : Session} {r : Request} (inv : SessionInv s)
    (queued : s.chan.packets ≠ []) (step : SessionStep s (.call r true) s') :
    ∃ trace t, Run SessionStep s' trace t ∧ ¬Dispatched t := by
  cases inv.phase with
  | idle _ packets => exact absurd packets queued
  | busy _ _ _ _ packets => exact absurd packets queued
  | completed p _ _ _ packets unread =>
      cases hdir : p.dir with
      | recv =>
          refine ⟨[], s', .nil s', fun dispatched => ?_⟩
          have lost := step.lost_of_unread (unread.trans (decide_eq_true hdir))
          rw [dispatched.kept] at lost
          cases lost
      | send =>
          obtain ⟨_, rfl⟩ := SessionStep.call_iff.mp step
          exact exists_not_dispatched_sent (r := r)
            (q := postOf (r.result s.chan.data) r.call) rfl List.mem_cons_self
            (by rw [Channel.finish, packets]; exact List.mem_cons_self) hdir

/-! ## A session up to its first request -/

/-- A receive is in flight under this `OPT`, into the cleared buffer, and no packet waits. -/
structure Listening (opt : UINT) (s : Session) : Prop where
  opt : s.chan.data.opt = opt
  inflight : ∃ p, p.dir = .recv ∧ s.chan.inflight = [p]
  packets : s.chan.packets = []
  cleared : ∃ behind, s.chan.data.buffer = memset behind 0 0#8 iocpBufferSize
  length : s.chan.data.wsabufLen = BitVec.ofNat 32 iocpBufferSize

/-- What a completed receive leaves in the buffer: one of these datagrams over what was
there, of the length it has asked for at most. -/
def Brings (ds : List (List Byte)) (s : Session) : SessionEvent → Prop
  | .complete p mem => p.dir = .recv → ∃ d ∈ ds, d.length ≤ s.chan.data.wsabufLen.toNat ∧
      mem = memcpy s.chan.data.buffer 0 d
  | _ => True

/-- The call that a request or a callback makes is not refused. -/
def CallAccepted (_ : Session) : SessionEvent → Prop
  | .complete _ _ => True
  | .call _ accepted => accepted = true
  | .callback _ accepted => accepted = true

def SessionEvent.request : SessionEvent → Option Request
  | .call r _ => some r
  | _ => none

/-- Requests are made on an empty queue, the receives bring these datagrams, and no call is
refused. -/
structure Orderly (ds : List (List Byte)) (trace : List (Session × SessionEvent)) : Prop where
  queue : Guarded CallsOnEmptyQueue trace
  brings : Guarded (Brings ds) trace
  accepted : Guarded CallAccepted trace

theorem Orderly.append {ds : List (List Byte)} {first rest : List (Session × SessionEvent)}
    (h : Orderly ds first) (h' : Orderly ds rest) : Orderly ds (first ++ rest) :=
  ⟨guarded_append.mpr ⟨h.queue, h'.queue⟩, guarded_append.mpr ⟨h.brings, h'.brings⟩,
    guarded_append.mpr ⟨h.accepted, h'.accepted⟩⟩

/-- The places of the calls made so far. -/
def Channel.places (c : Channel) : List Call := c.posts.map fun post => post.1.call

def Session.branches (s : Session) : List Branch := s.handled.map Prod.snd

/-- A send completes and its callback posts the next receive. -/
theorem exists_listening {s : Session} {p : Post} {b : Branch} {opt : UINT}
    (ds : List (List Byte)) (branch : branchOf s.chan.data.opt = b)
    (body : ∀ d, b.body d iocpBufferSize = rearm opt) (send : p.dir = .send)
    (inflight : s.chan.inflight = [p]) (packets : s.chan.packets = []) :
    ∃ trace s', Run SessionStep s trace s' ∧ Orderly ds trace ∧
      outputs (fun _ e => e.request) trace = [] ∧ Listening opt s' ∧
      s'.branches = s.branches ++ [b] ∧ s'.chan.received = s.chan.received ∧
      s'.chan.places = s.chan.places ++ [.receive] := by
  let sent : Session := { s with chan := s.chan.complete p fun _ => 0#8 }
  have complete : SessionStep s (.complete p fun _ => 0#8) sent :=
    ⟨by rw [inflight]; exact List.mem_cons_self, rfl⟩
  have same : sent.chan.data = s.chan.data := by simp only [sent, Channel.complete, send]
  have callback := SessionStep.rearmed (s := sent) (p := p) opt true (by simp [sent])
    Channel.complete_event (by rw [same, branch]; exact body _)
  rw [same, branch] at callback
  refine ⟨_, _, .cons complete (.cons callback (.nil _)), ⟨?_, ?_, ?_⟩, rfl,
    ⟨rfl, ?_, ?_, ⟨_, rfl⟩, rfl⟩, ?_, ?_, ?_⟩
  · simp [CallsOnEmptyQueue]
  · simp [Brings, send]
  · simp [CallAccepted]
  · exact ⟨postOf (rearmData opt s.chan.data) .receive, rfl,
      by simp [sent, Channel.finish, Channel.dequeue, inflight]⟩
  · simp [sent, Channel.finish, Channel.dequeue, packets]
  · simp [sent, Session.branches]
  · simp [sent, Channel.finish, Channel.dequeue, Channel.complete, send]
  · simp [sent, Channel.places, Channel.finish, Channel.dequeue, Channel.complete, send, postOf]

/-- The callback of a check-uid reply that does not let the player in. -/
theorem SessionStep.loginRefused {s : Session} {p : Post} (accepted : Bool)
    (queued : p ∈ s.chan.packets) (opt : s.chan.data.opt = 0x10001#32)
    (other : Protos.resEnterFishServer.number ≠ readUSHORT s.chan.data.buffer 0) :
    SessionStep s (.callback p accepted)
      ⟨{ s.chan.dequeue p with unread := false }, s.handled ++ [(p, .checkUidReceived)]⟩ := by
  have hbranch : branchOf s.chan.data.opt = .checkUidReceived := by rw [opt]; rfl
  refine ⟨queued, 0, _, ?_, by rw [hbranch]⟩
  rw [runStmts_callback, hbranch, Branch.body, if_neg other]
  rfl

/-- A reply to the check-uid with the message number 0. -/
def refusal : List Byte := [0#8, 0#8, 0#8, 0#8]

/-- The reply has another number than the login, so its callback posts nothing. -/
theorem exists_refused {s : Session} {ds : List (List Byte)} (listening : Listening 0x10001#32 s)
    (known : refusal ∈ ds) :
    ∃ trace s', Run SessionStep s trace s' ∧ Orderly ds trace ∧
      outputs (fun _ e => e.request) trace = [] ∧
      s'.chan.event = true ∧ s'.chan.inflight = [] ∧ s'.chan.packets = [] ∧
      s'.branches = s.branches ++ [.checkUidReceived] ∧ s'.chan.received = s.chan.received ∧
      s'.chan.places = s.chan.places := by
  obtain ⟨p, recv, inflight⟩ := listening.inflight
  let mem := memcpy s.chan.data.buffer 0 refusal
  let arrived : Session := { s with chan := s.chan.complete p mem }
  have complete : SessionStep s (.complete p mem) arrived :=
    ⟨by rw [inflight]; exact List.mem_cons_self, rfl⟩
  have buffer : arrived.chan.data.buffer = mem := by simp [arrived, Channel.complete, recv]
  have refused := SessionStep.loginRefused (s := arrived) (p := p) true (by simp [arrived])
    (by simpa [arrived] using listening.opt) (by
      have zero : readUSHORT mem 0 = 0#16 := rfl
      rw [buffer, zero]
      decide)
  refine ⟨_, _, .cons complete (.cons refused (.nil _)), ⟨?_, ?_, ?_⟩, rfl, ?_⟩
  · simp [CallsOnEmptyQueue]
  · simp only [guarded_cons, guarded_nil, Brings, and_true]
    exact fun _ => ⟨refusal, known, by rw [listening.length]; decide, rfl⟩
  · simp [CallAccepted]
  · simp [arrived, Channel.dequeue, listening.packets, inflight, Session.branches,
      Channel.places, Channel.complete, Channel.overwrite, recv]

/-- A join with nothing in flight and an empty queue, and its callback. -/
theorem exists_joined {s : Session} (ds : List (List Byte)) (event : s.chan.event = true)
    (inflight : s.chan.inflight = []) (packets : s.chan.packets = []) :
    ∃ trace s', Run SessionStep s trace s' ∧ Orderly ds trace ∧
      outputs (fun _ e => e.request) trace = [.joinTable joinRoomMessage] ∧
      Listening 0xf0000#32 s' ∧ s'.branches = s.branches ++ [.joinTableSent] ∧
      s'.chan.received = s.chan.received ∧
      s'.chan.places = s.chan.places ++ [.joinTable, .receive] := by
  let r : Request := .joinTable joinRoomMessage
  let posted : Session := { s with chan := s.chan.finish (r.result s.chan.data) r.call true }
  have call : SessionStep s (.call r true) posted := SessionStep.call_iff.mpr ⟨event, rfl⟩
  obtain ⟨trace, s', run, orderly, none, listening, branches, received, places⟩ :=
    exists_listening (s := posted) (p := postOf (r.result s.chan.data) r.call) ds r.branchOf_opt
      (fun d => r.sent_body d _) rfl (by simp [posted, Channel.finish, inflight]) packets
  refine ⟨_, s', .cons call run, ⟨guarded_cons.mpr ⟨packets, orderly.queue⟩,
    guarded_cons.mpr ⟨trivial, orderly.brings⟩, guarded_cons.mpr ⟨rfl, orderly.accepted⟩⟩, ?_,
    listening, branches, received, ?_⟩
  · rw [outputs_cons, none]
    rfl
  · rw [places]
    simp [posted, Channel.places, Channel.finish, postOf, r, Request.call]

/-- From the login on: it is refused, and a join is sent behind it. -/
theorem exists_run_join (msg : Message) {ds : List (List Byte)} (known : refusal ∈ ds) :
    ∃ trace s, Run SessionStep ⟨started (freshIoData 1#64) msg, []⟩ trace s ∧ Orderly ds trace ∧
      outputs (fun _ e => e.request) trace = [.joinTable joinRoomMessage] ∧
      Listening 0xf0000#32 s ∧ s.branches = [.checkUidSent, .checkUidReceived, .joinTableSent] ∧
      s.chan.places = [.checkUid, .receive, .joinTable, .receive] ∧ s.chan.received = [] := by
  obtain ⟨trace, s, run, orderly, none, listening, branches, received, places⟩ :=
    exists_listening (s := ⟨started (freshIoData 1#64) msg, []⟩)
      (p := postOf (checkUidData msg (freshIoData 1#64)) .checkUid) ds
      (show branchOf 1#32 = .checkUidSent from rfl) (fun _ => rfl) rfl rfl rfl
  obtain ⟨trace', s', run', orderly', none', event, inflight, packets, branches', received',
    places'⟩ := exists_refused listening known
  obtain ⟨trace'', s'', run'', orderly'', join, listening', branches'', received'', places''⟩ :=
    exists_joined ds event inflight packets
  refine ⟨_, s'', run.append (run'.append run''), orderly.append (orderly'.append orderly''),
    ?_, listening', ?_, ?_, ?_⟩
  · rw [outputs_append, outputs_append, none, none', join]
    rfl
  · rw [branches'', branches', branches]
    rfl
  · rw [places'', places', places]
    rfl
  · rw [received'', received', received]
    rfl

/-- Behind a refused login the queue is empty and the event up: a join is sent, completes and
is handled as one. -/
theorem dispatched_join : ∃ trace s,
    Run SessionStep ⟨started (freshIoData 1#64) enterFishServerMessage, []⟩ trace s ∧
      outputs (fun _ e => e.request) trace = [.joinTable joinRoomMessage] ∧
      s.branches = [.checkUidSent, .checkUidReceived, .joinTableSent] ∧
      Everywhere Dispatched trace s := by
  obtain ⟨trace, s, run, orderly, join, _, branches, _⟩ :=
    exists_run_join enterFishServerMessage (List.mem_singleton.mpr rfl)
  exact ⟨trace, s, run, join, branches, dispatched_of_callsOnEmptyQueue _ _ run orderly.queue⟩

/-- `ReqJoinTable` between the first datagram and its callback overwrites it. -/
theorem early_request_not_dispatched : ¬∀ (d : NetIoData) (msg : Message)
    (trace : List (Session × SessionEvent)) (s : Session),
    Run SessionStep ⟨started d msg, []⟩ trace s → Everywhere Dispatched trace s := by
  intro all
  obtain ⟨trace, s, run, _, _, listening, _⟩ :=
    exists_listening (s := ⟨started (freshIoData 1#64) enterFishServerMessage, []⟩)
      (p := postOf (checkUidData enterFishServerMessage (freshIoData 1#64)) .checkUid) []
      (show branchOf 1#32 = .checkUidSent from rfl) (fun _ => rfl) rfl rfl rfl
  obtain ⟨p, recv, inflight⟩ := listening.inflight
  obtain ⟨rest, t, more, wrong⟩ := exists_lost (.joinTable joinRoomMessage)
    (by rw [inflight]; exact List.mem_cons_self) recv
  exact wrong (all _ _ _ _ (run.append more)).2

end IocpTest.NetService
