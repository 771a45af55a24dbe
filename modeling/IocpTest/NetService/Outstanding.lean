import IocpTest.NetService.Session

/-!
# How many calls of a session are outstanding

A call is outstanding from the `WSASend` or `WSARecv` that was accepted to the callback that
takes its packet. A session starts with one, and the callbacks are written for one: each
takes a packet and makes the next call.

With the operations as atomic steps, the event keeps two calls from being in flight at once
in every run (`oneCall_everywhere`). It does not keep one from being outstanding: the event
is up from a completion on, so a request gets through only while the packets of all
outstanding calls wait for their callbacks (`request_overtakes`), and, as long as no call is
refused, always then (`request_passes_iff`). Each accepted request adds a call that is
outstanding ever after, and only a callback that posts nothing ends one
(`outstanding_balance`).
-/

namespace IocpTest.NetService

open Bytes StepSystem

/-- The calls in flight and the completion packets that wait. -/
def Channel.outstanding (c : Channel) : Nat := c.inflight.length + c.packets.length

/-- A request whose send is accepted. -/
def startsCall : SessionEvent → Bool
  | .call _ accepted => accepted
  | _ => false

/-- The check-uid reply does not carry `ResEnterFishServer`: it is only logged. -/
def refusedLogin (d : NetIoData) : Bool :=
  branchOf d.opt == .checkUidReceived &&
    Protos.resEnterFishServer.number != readUSHORT d.buffer 0

/-- A callback that makes no call, or one that fails at once. -/
def endsCall (s : Session) : SessionEvent → Bool
  | .callback _ accepted => refusedLogin s.chan.data || !accepted
  | _ => false

/-- At most one call is in flight, none is when the event is up, and nothing that a call in
flight needs has been written. -/
structure OneCall (s : Session) : Prop where
  few : s.chan.inflight.length ≤ 1
  settled : s.chan.event = true → s.chan.inflight = []
  clean : s.chan.raced = false

/-! ## The steps -/

/-- The same calls in flight and in the queue. -/
structure SameCalls (c c₁ : Channel) : Prop where
  inflight : c₁.inflight = c.inflight
  packets : c₁.packets = c.packets
  raced : c₁.raced = c.raced

/-- A refused login ends the callback; any other branch makes one call. -/
theorem callback_outcome {fuel size : Nat} {accepted : Bool} {c c' : Channel}
    (h : runStmts fuel accepted (callback c.data size) c = some c') :
    (refusedLogin c.data = true ∧ c' = { c with unread := false }) ∨
      (refusedLogin c.data = false ∧ c.event = true ∧
        ∃ c₁ d call, SameCalls c c₁ ∧ c' = c₁.finish d call accepted) := by
  rw [runStmts_callback] at h
  cases hbranch : branchOf c.data.opt with
  | checkUidReceived =>
      simp only [hbranch, Branch.body, runStmts, Stmt.exec, Option.bind_some] at h
      split at h
      · next reply =>
          obtain ⟨event, rfl⟩ := (runStmts_rearm_iff _).mp h
          exact .inr ⟨by simp [refusedLogin, reply], event, { c with unread := false }, _, _,
            ⟨rfl, rfl, rfl⟩, rfl⟩
      · next other =>
          obtain rfl := Option.some.inj h
          exact .inl ⟨by simp [refusedLogin, hbranch, other], rfl⟩
  | checkUidSent | joinTableSent | startSyncFishSent | bulletSent | answerSent =>
      rw [hbranch] at h
      obtain ⟨event, rfl⟩ := (runStmts_rearm_iff _).mp h
      exact .inr ⟨by simp [refusedLogin, hbranch], event, _, _, _, ⟨rfl, rfl, rfl⟩, rfl⟩
  | cmdDataReceived | other =>
      rw [hbranch] at h
      obtain ⟨event, t, _, rfl⟩ := (runStmts_recvCmdData_iff _).mp h
      exact .inr ⟨by simp [refusedLogin, hbranch], event,
        { c with received := c.received ++ t.visited, unread := false }, _, _,
        ⟨rfl, rfl, rfl⟩, rfl⟩

theorem SessionStep.callback_cases {s s' : Session} {p : Post} {accepted : Bool}
    (step : SessionStep s (.callback p accepted) s') :
    p ∈ s.chan.packets ∧
      ((refusedLogin s.chan.data = true ∧
          s'.chan = { s.chan.dequeue p with unread := false }) ∨
        (refusedLogin s.chan.data = false ∧ s.chan.event = true ∧
          ∃ c₁ d call, SameCalls (s.chan.dequeue p) c₁ ∧
            s'.chan = c₁.finish d call accepted)) := by
  obtain ⟨queued, fuel, c, text, rfl⟩ := step
  exact ⟨queued, callback_outcome (c := s.chan.dequeue p) text⟩

@[simp] theorem Channel.outstanding_finish (c : Channel) (d : NetIoData) (call : Call)
    (accepted : Bool) :
    (c.finish d call accepted).outstanding = c.outstanding + accepted.toNat := by
  cases accepted <;> simp [Channel.finish, Channel.outstanding, Nat.add_right_comm]

theorem Channel.outstanding_complete {c : Channel} {p : Post} (mem : Memory)
    (busy : p ∈ c.inflight) : (c.complete p mem).outstanding = c.outstanding := by
  have fewer := List.length_erase_of_mem busy
  have some := List.length_pos_of_mem busy
  cases hdir : p.dir <;>
    simp only [Channel.complete, Channel.overwrite, Channel.outstanding, hdir, fewer,
      List.length_append, List.length_singleton] <;> omega

theorem Channel.outstanding_dequeue {c : Channel} {p : Post} (queued : p ∈ c.packets) :
    (c.dequeue p).outstanding + 1 = c.outstanding := by
  have fewer := List.length_erase_of_mem queued
  have some := List.length_pos_of_mem queued
  simp only [Channel.dequeue, Channel.outstanding, fewer]
  omega

/-- Each step adds the call that it starts and takes away the one that it ends. -/
theorem SessionStep.balance {s s' : Session} {e : SessionEvent} (step : SessionStep s e s') :
    s'.chan.outstanding + (endsCall s e).toNat =
      s.chan.outstanding + (startsCall e).toNat := by
  cases e with
  | complete p mem =>
      obtain ⟨busy, rfl⟩ := step
      simp [endsCall, startsCall, Channel.outstanding_complete mem busy]
  | call r accepted =>
      obtain ⟨_, rfl⟩ := SessionStep.call_iff.mp step
      simp [endsCall, startsCall]
  | callback p accepted =>
      obtain ⟨queued, ⟨refused, same⟩ | ⟨passed, _, c₁, d, call, calls, same⟩⟩ :=
        step.callback_cases
      · have taken := Channel.outstanding_dequeue queued
        simpa [endsCall, startsCall, refused, same, Channel.outstanding] using taken
      · have taken := Channel.outstanding_dequeue queued
        have still : c₁.outstanding = (s.chan.dequeue p).outstanding := by
          simp only [Channel.outstanding, calls.inflight, calls.packets]
        rw [same, Channel.outstanding_finish, still, ← taken]
        cases accepted <;> simp [endsCall, startsCall, passed]

theorem OneCall.step {s s' : Session} {e : SessionEvent} (one : OneCall s)
    (step : SessionStep s e s') : OneCall s' := by
  cases e with
  | complete p mem =>
      obtain ⟨busy, rfl⟩ := step
      have fewer := List.length_erase_of_mem busy
      have none : s.chan.inflight.erase p = [] := by
        have few := one.few
        exact List.eq_nil_of_length_eq_zero (by omega)
      cases hdir : p.dir with
      | send =>
          exact ⟨by simp [Channel.complete, hdir, none], by simp [Channel.complete, hdir, none],
            by simpa [Channel.complete, hdir] using one.clean⟩
      | recv =>
          exact ⟨by simp [Channel.complete, hdir, none], by simp [Channel.complete, hdir, none],
            by simpa [Channel.complete, Channel.overwrite, hdir] using one.clean⟩
  | call r accepted =>
      obtain ⟨event, rfl⟩ := SessionStep.call_iff.mp step
      have none := one.settled event
      cases accepted <;>
        exact ⟨by simp [Channel.finish, none], by simp [Channel.finish],
          by simp [Channel.finish, none, one.clean]⟩
  | callback p accepted =>
      obtain ⟨_, ⟨_, same⟩ | ⟨_, event, c₁, d, call, calls, same⟩⟩ := step.callback_cases
      · refine ⟨?_, ?_, ?_⟩ <;> rw [same]
        · exact one.few
        · exact one.settled
        · exact one.clean
      · have none := one.settled event
        refine ⟨?_, ?_, ?_⟩ <;> rw [same]
        · cases accepted <;> simp [Channel.finish, calls.inflight, Channel.dequeue, none]
        · simp [Channel.finish]
        · simp [Channel.finish, calls.inflight, calls.raced, Channel.dequeue, none, one.clean]

theorem OneCall.started (d : NetIoData) (msg : Message) :
    OneCall ⟨NetService.started d msg, []⟩ where
  few := Nat.le_refl 1
  settled := fun raised => absurd raised Bool.false_ne_true
  clean := rfl

/-! ## The runs -/

/-- Over every run of a started session, whatever is called and whatever fails, no two calls
are in flight at once and nothing is written under a call in flight. -/
theorem oneCall_everywhere (d : NetIoData) (msg : Message)
    {trace : List (Session × SessionEvent)} {s : Session}
    (run : Run SessionStep ⟨started d msg, []⟩ trace s) : Everywhere OneCall trace s :=
  run.everywhere_of_invariant OneCall (fun _ _ _ one step => one.step step) (fun _ one => one)
    (OneCall.started d msg)

/-- As long as no call is refused, the event is up or a call in flight will raise it. -/
theorem raised_or_busy (d : NetIoData) (msg : Message) {trace : List (Session × SessionEvent)}
    {s : Session} (run : Run SessionStep ⟨started d msg, []⟩ trace s)
    (accepted : Guarded CallAccepted trace) : s.chan.event = true ∨ s.chan.inflight ≠ [] := by
  refine (run.everywhere_of_guarded (fun s => s.chan.event = true ∨ s.chan.inflight ≠ []) ?_
    (fun _ inv => inv) (.inr (List.cons_ne_nil _ _)) accepted).2
  intro s e s' inv ok step
  cases e with
  | complete p mem =>
      obtain ⟨_, rfl⟩ := step
      exact .inl Channel.complete_event
  | call r accepted =>
      obtain rfl : accepted = true := ok
      obtain ⟨_, rfl⟩ := SessionStep.call_iff.mp step
      exact .inr (List.cons_ne_nil _ _)
  | callback p accepted =>
      obtain rfl : accepted = true := ok
      obtain ⟨_, ⟨_, same⟩ | ⟨_, _, c₁, d, call, _, same⟩⟩ := step.callback_cases
      · rw [same]
        exact inv
      · rw [same]
        exact .inr (List.cons_ne_nil _ _)

/-- As long as no call is refused, a request gets past its wait exactly while none is in
flight. -/
theorem request_passes_iff (d : NetIoData) (msg : Message)
    {trace : List (Session × SessionEvent)} {s : Session}
    (run : Run SessionStep ⟨started d msg, []⟩ trace s) (accepted : Guarded CallAccepted trace)
    (r : Request) (outcome : Bool) :
    (∃ s', SessionStep s (.call r outcome) s') ↔ s.chan.inflight = [] := by
  constructor
  · rintro ⟨s', step⟩
    exact (oneCall_everywhere d msg run).2.settled (SessionStep.call_iff.mp step).1
  · intro none
    have raised := (raised_or_busy d msg run accepted).resolve_right fun busy => busy none
    exact ⟨_, SessionStep.call_iff.mpr ⟨raised, rfl⟩⟩

/-- The check-uid send has completed, and a join sends over its packet. -/
theorem exists_run_overtaking : ∃ trace s s',
    Run SessionStep ⟨started (freshIoData 1#64) enterFishServerMessage, []⟩ trace s ∧
      SessionStep s (.call (.joinTable joinRoomMessage) true) s' ∧
      s.chan.packets.length = 1 ∧ s'.chan.outstanding = 2 := by
  let start := started (freshIoData 1#64) enterFishServerMessage
  let p := postOf start.data .checkUid
  let sent : Session := ⟨start.complete p fun _ => 0#8, []⟩
  have complete : SessionStep ⟨start, []⟩ (.complete p fun _ => 0#8) sent :=
    ⟨List.mem_cons_self, rfl⟩
  have join : SessionStep sent (.call (.joinTable joinRoomMessage) true) _ :=
    SessionStep.call_iff.mpr ⟨rfl, rfl⟩
  refine ⟨_, _, _, .cons complete (.nil _), join, rfl, ?_⟩
  have before : sent.chan.outstanding = 1 := Channel.outstanding_complete _ List.mem_cons_self
  have balance := join.balance
  simp only [endsCall, startsCall, before] at balance
  exact balance

/-- The requests that were accepted add to the outstanding calls, the callbacks without a
new call take away. -/
theorem outstanding_balance {s s' : Session} {trace : List (Session × SessionEvent)}
    (run : Run SessionStep s trace s') :
    s'.chan.outstanding + (trace.countP fun taken => endsCall taken.1 taken.2) =
      s.chan.outstanding + trace.countP fun taken => startsCall taken.2 := by
  induction run with
  | nil => rfl
  | @cons s u s' e trace first _ ih =>
      have here := first.balance
      simp only [List.countP_cons]
      cases hends : endsCall s e <;> cases hstarts : startsCall e <;>
        simp only [hends, hstarts, Bool.toNat_true, Bool.toNat_false, if_true, if_false,
          Bool.false_eq_true] at here ⊢ <;> omega

/-- A request gets through only when every outstanding call has completed and its packet
waits: those of the first call and of the requests before, less the ones that have ended. -/
theorem request_overtakes (d : NetIoData) (msg : Message)
    {trace : List (Session × SessionEvent)} {s s' : Session} {r : Request} {accepted : Bool}
    (run : Run SessionStep ⟨started d msg, []⟩ trace s)
    (step : SessionStep s (.call r accepted) s') :
    s.chan.inflight = [] ∧
      s.chan.packets.length + (trace.countP fun taken => endsCall taken.1 taken.2) =
        1 + trace.countP fun taken => startsCall taken.2 := by
  have none := (oneCall_everywhere d msg run).2.settled (SessionStep.call_iff.mp step).1
  have balance := outstanding_balance run
  simp only [Channel.outstanding, none, List.length_nil, Nat.zero_add] at balance
  exact ⟨none, balance⟩

/-- With no call ended, the packet of the check-uid send is in the queue. -/
theorem request_overtakes_join : ∃ trace s s',
    Run SessionStep ⟨started (freshIoData 1#64) enterFishServerMessage, []⟩ trace s ∧
      SessionStep s (.call (.joinTable joinRoomMessage) true) s' ∧ s.chan.inflight = [] ∧
      s.chan.packets.length + (trace.countP fun taken => endsCall taken.1 taken.2) =
        1 + trace.countP fun taken => startsCall taken.2 := by
  obtain ⟨trace, s, s', run, join, _⟩ := exists_run_overtaking
  exact ⟨trace, s, s', run, join, request_overtakes _ _ run join⟩

end IocpTest.NetService
