import IocpTest.NetService.Exclusion

/-!
# A session that can still be woken

Every wait is `INFINITE`. Somebody has to raise the event again: a completion can,
and a thread between its wait and its post still may start one. A `WSASend` or
`WSARecv` that fails at once starts nothing, and no branch raises the event by
hand, so the failing call of the only thread inside leaves the session stuck. Without
such a failure no session gets stuck (`wakeable_of_postAccepted`).
-/

namespace IocpTest.NetService

open StepSystem EventGate Bytes

/-- The event is up, or an operation in flight or a thread inside will raise it. -/
def Wakeable (s : System) : Prop :=
  s.chan.event = true ∨ s.chan.inflight ≠ [] ∨ s.Occupied

/-- A `WSASend` or `WSARecv` that fails at once leaves another way to raise the event. -/
def FailureCovered (s : System) : Action → Prop
  | .exec i accepted =>
      ∀ call rest, s.threads i = .running (.post call :: rest) → accepted = false →
        s.chan.event = true ∨ s.chan.inflight ≠ [] ∨ ∃ j, j ≠ i ∧ (s.threads j).InSection
  | _ => True

/-- A `WSASend` or `WSARecv` does not fail at once. -/
def PostAccepted (s : System) : Action → Prop
  | .exec i accepted => ∀ call rest, s.threads i = .running (.post call :: rest) → accepted = true
  | _ => True

/-- No further `CheckUid`: callbacks, requests and completions only. -/
def NoCheckUid (_ : System) : Action → Prop
  | .checkUid _ _ => False
  | _ => True

/-! ## What the gate makes of it -/

theorem wakeable_iff_gate (s : System) : Wakeable s ↔ s.gate.Open := by
  rw [Wakeable, Gate.Open, ← List.length_pos_iff]
  rfl

theorem wakeable_eq_gate : Wakeable = fun s => s.gate.Open :=
  funext fun s => propext (wakeable_iff_gate s)

/-- A thread is at a post, which is one of the gate, or its statement is none. -/
theorem System.move_exec (s : System) (i : Nat) (accepted : Bool) :
    (∃ call rest, s.threads i = .running (.post call :: rest) ∧
        s.move (.exec i accepted) = .post i accepted) ∨
      (∀ call rest, s.threads i ≠ .running (.post call :: rest)) ∧
        ∀ j outcome, s.move (.exec i accepted) ≠ .post j outcome := by
  rw [System.move]
  split
  · next stmt rest here =>
      cases stmt with
      | post call => exact .inl ⟨call, rest, here, rfl⟩
      | _ => exact .inr ⟨by simp [here], by simp [Stmt.move]⟩
  · next other => exact .inr ⟨fun call rest => other _ _, by simp⟩

theorem failureCovered_iff_gate (s : System) (a : Action) :
    FailureCovered s a ↔ Covered s.gate (s.move a) := by
  cases a with
  | exec i accepted =>
      rcases s.move_exec i accepted with ⟨call, rest, here, post⟩ | ⟨no, other⟩
      · rw [post, FailureCovered]
        simp only [← List.length_pos_iff]
        exact ⟨fun covered => covered call rest here, fun covered _ _ _ => covered⟩
      · exact iff_of_true (fun call rest here => absurd here (no call rest)) (.of_other other)
  | _ => exact Iff.rfl

theorem postAccepted_iff_gate (s : System) (a : Action) :
    PostAccepted s a ↔ Accepted (s.move a) := by
  cases a with
  | exec i accepted =>
      rcases s.move_exec i accepted with ⟨call, rest, here, post⟩ | ⟨no, other⟩
      · rw [post, PostAccepted]
        exact ⟨fun ok => ok call rest here, fun ok _ _ _ => ok⟩
      · exact iff_of_true (fun call rest here => absurd here (no call rest)) (.of_other other)
  | _ => exact Iff.rfl

/-! ## The runs -/

section

variable (d : NetIoData) (msg : Message) {trace : List (System × Action)} {s : System}

/-- Over every run after an accepted `CheckUid`, of any number of threads in any
order and with any failures, the session stays wakeable if and only if every
failing post leaves another way to raise the event. The run may contain more calls
of `CheckUid`. -/
theorem wakeable_iff_failureCovered (run : Run SystemStep (started d msg).alone trace s) :
    Everywhere Wakeable trace s ↔ Guarded FailureCovered trace := by
  have start : (started d msg).alone.gate.Open := .inr (.inl Nat.one_pos)
  have image := open_iff_covered (gate_run (Channel.alone_disciplined _) run) start
  rw [everywhere_mapTrace, guarded_mapTrace] at image
  have covered : FailureCovered = fun s a => Covered s.gate (s.move a) :=
    funext fun s => funext fun a => propext (failureCovered_iff_gate s a)
  rw [wakeable_eq_gate, covered]
  exact image

/-- Over every run after an accepted `CheckUid` in which no `WSASend` and no `WSARecv` fails
at once, of any number of threads in any order, the session stays wakeable. -/
theorem wakeable_of_postAccepted (run : Run SystemStep (started d msg).alone trace s)
    (accepted : Guarded PostAccepted trace) : Everywhere Wakeable trace s := by
  apply (wakeable_iff_failureCovered d msg run).mpr
  intro taken member
  rw [failureCovered_iff_gate]
  exact ((postAccepted_iff_gate _ _).mp (accepted taken member)).covered

/-- When the operations do not overlap there is no other way: the first call that fails at
once leaves the session stuck. -/
theorem wakeable_iff_postAccepted (run : Run SystemStep (started d msg).alone trace s)
    (alone : Guarded EntersAlone trace) :
    Everywhere Wakeable trace s ↔ Guarded PostAccepted trace := by
  have start : (started d msg).alone.gate.Open := .inr (.inl Nat.one_pos)
  have held : (started d msg).alone.gate.Held :=
    { alone := fun i _ hi => absurd rfl hi
      settled := fun ⟨_, hi⟩ => absurd rfl hi
      lowered := fun _ _ => rfl
      raised := fun raised => absurd raised Bool.false_ne_true
      few := Nat.le_refl 1
      clean := rfl }
  have image := open_iff_accepted (gate_run (Channel.alone_disciplined _) run) start held
    ((guarded_mapTrace _ _).mpr fun taken member => (alone taken member).gate)
  rw [everywhere_mapTrace, guarded_mapTrace] at image
  have accepted : PostAccepted = fun s a => Accepted (s.move a) :=
    funext fun s => funext fun a => propext (postAccepted_iff_gate s a)
  rw [wakeable_eq_gate, accepted]
  exact image

end

/-- The refusal of a login and a join behind it, with every call accepted, keep the session
wakeable throughout. -/
theorem wakeable_accepted_request : ∃ trace c,
    Run SystemStep (started (freshIoData 1#64) enterFishServerMessage).alone trace
        (Channel.alone c) ∧
      (∃ t, (t, .call 0 (.joinTable joinRoomMessage)) ∈ trace) ∧
      c.places = [.checkUid, .receive, .joinTable, .receive] ∧
      Everywhere Wakeable trace c.alone := by
  obtain ⟨trace, c, run, _, call, places, all⟩ := exists_system_run_join enterFishServerMessage
  refine ⟨trace, c, run, call, places, wakeable_of_postAccepted _ _ run ?_⟩
  rintro ⟨s, a⟩ member
  cases a with
  | exec i accepted => exact fun _ _ _ => all _ member i accepted rfl
  | _ => trivial

/-- After the check-uid send has completed, a request runs alone and its send fails at once. -/
theorem exists_run_refused (r : Request) (d : NetIoData) (msg : Message) :
    ∃ trace, ∃ c : Channel, Run SystemStep (started d msg).alone trace c.alone ∧
      Guarded NoCheckUid trace ∧ c.event = false ∧ c.inflight = [] := by
  let sent := (started d msg).complete (postOf (checkUidData msg d) .checkUid) fun _ => 0#8
  let c := sent.finish (r.result sent.data) r.call false
  have complete : SystemStep (started d msg).alone
      (.complete (postOf (checkUidData msg d) .checkUid) fun _ => 0#8) sent.alone :=
    ⟨List.mem_cons_self, rfl⟩
  have text : runStmts 0 false r.program sent = some c := by
    rw [r.program_eq]
    exact (runStmts_request_iff (Request.call_dir _) _ _ _ _).mpr ⟨rfl, rfl⟩
  obtain ⟨trace, run, _, steps⟩ := exists_run_entersAlone (a := .call 0 r) ⟨rfl, rfl⟩ text
  have settled : sent.inflight = [] := List.erase_cons_head _ []
  refine ⟨_, c, .cons complete run, ?_, rfl, settled⟩
  refine guarded_cons.mpr ⟨trivial, guarded_cons.mpr ⟨trivial, ?_⟩⟩
  intro taken member
  rw [steps taken member]
  trivial

/-- A request whose send fails at once leaves the event down for good. -/
theorem failed_request_not_wakeable : ¬∀ (d : NetIoData) (msg : Message)
    (trace : List (System × Action)) (s : System),
    Run SystemStep (started d msg).alone trace s → Guarded NoCheckUid trace →
      Everywhere Wakeable trace s := by
  intro all
  obtain ⟨trace, c, run, later, event, inflight⟩ := exists_run_refused
    (.joinTable joinRoomMessage) (freshIoData 1#64) enterFishServerMessage
  rcases (all _ _ _ _ run later).2 with raised | busy | ⟨i, inside⟩
  · have : c.event = true := raised
    rw [event] at this
    cases this
  · exact busy inflight
  · exact inside rfl

end IocpTest.NetService
