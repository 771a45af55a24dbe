import IocpTest.NetService.Threads

/-!
# One operation at a time on a session

Any number of callers and workers share the `OVERLAPPED`, the buffer and `OPT` of
a session. The manual-reset event lets every waiter through until somebody resets
it, so the wait alone does not exclude. What it needs is `EntersAlone`: a
wait returns only while no other thread stands between its own wait and its post,
and `CheckUid`, which does not wait, is called on a quiet session.
-/

namespace IocpTest.NetService

open StepSystem EventGate Bytes

/-- At most one operation is in flight, and `OPT`, `wsabuf` and `buffer` were left
alone while one was. -/
structure Exclusive (s : System) : Prop where
  inflight : s.chan.inflight.length ≤ 1
  clean : s.chan.raced = false

def System.Occupied (s : System) : Prop := ∃ i, (s.threads i).InSection

/-- A wait returns, and `CheckUid` begins, with no thread between wait and post;
`CheckUid` also finds the event down and nothing in flight. -/
def EntersAlone (s : System) : Action → Prop
  | .checkUid _ _ => s.chan.event = false ∧ s.chan.inflight = [] ∧ ¬s.Occupied
  | .exec i _ => ∀ rest, s.threads i = .running (.wait :: rest) → ¬s.Occupied
  | _ => True

theorem EntersAlone.gate {s : System} {a : Action} (h : EntersAlone s a) :
    Alone s.gate (s.move a) := by
  cases a with
  | checkUid i msg =>
      obtain ⟨event, inflight, empty⟩ := h
      exact ⟨event, congrArg List.length inflight, empty⟩
  | exec i accepted =>
      rw [System.move]
      split
      · next stmt rest here =>
          cases stmt with
          | wait => exact h rest here
          | _ => trivial
      · trivial
  | _ => trivial

/-- Over every run of a registered session, of any number of threads in any order,
whose waits are all passed alone, operations never overlap. -/
theorem exclusive_of_entersAlone (d : NetIoData) {trace : List (System × Action)} {s : System}
    (run : Run SystemStep (registered d).alone trace s) (guard : Guarded EntersAlone trace) :
    Everywhere Exclusive trace s := by
  have start : (registered d).alone.gate.Held :=
    { alone := fun i _ hi => absurd rfl hi
      settled := fun _ => rfl
      lowered := fun _ _ => rfl
      raised := fun _ => rfl
      few := Nat.zero_le 1
      clean := rfl }
  have alone : Guarded Alone (mapTrace System.gate System.move trace) :=
    (guarded_mapTrace _ _).mpr fun taken htaken => (guard taken htaken).gate
  have exclusive : Everywhere (fun s => s.gate.Exclusive) trace s :=
    (everywhere_mapTrace _ _).mp
      (exclusive_of_alone (gate_run (Channel.alone_disciplined _) run) start alone)
  exact ⟨fun taken htaken => ⟨(exclusive.1 taken htaken).pending, (exclusive.1 taken htaken).clean⟩,
    exclusive.2.pending, exclusive.2.clean⟩

/-! ## Atomic operations as runs -/

theorem Thread.idle_outside : ¬Thread.idle.InSection := fun inside => inside rfl

/-- A thread that runs its text while all others are outside enters alone. -/
theorem entersAlone_of_executes {i : Nat} {accepted : Bool} {text : List Stmt} {s s' : System}
    {trace : List (System × Action)} (run : Run SystemStep s trace s')
    (steps : Guarded (Executes i accepted text) trace)
    (outside : ∀ j, j ≠ i → ¬(s.threads j).InSection) : Guarded EntersAlone trace := by
  induction run with
  | nil => exact guarded_nil _
  | @cons s _ _ e _ first _ ih =>
      obtain ⟨⟨rfl, _⟩, later⟩ := guarded_cons.mp steps
      refine guarded_cons.mpr ⟨?_, ih later ?_⟩
      · rintro rest here ⟨j, inside⟩
        by_cases same : j = i
        · rw [same, Thread.InSection, here] at inside
          exact inside rfl
        · exact outside j same inside
      · obtain ⟨_, _, _, _, _, _, rfl⟩ := first
        intro j other
        rw [System.set_threads_of_ne _ _ other]
        exact outside j other

/-- The rest of a text, run to its end while all other threads are outside. -/
theorem exists_run_undisturbed {fuel : Nat} {accepted : Bool} {i : Nat} {rest : List Stmt}
    {s : System} {c : Channel} (here : s.threads i = .running rest)
    (outside : ∀ j, j ≠ i → ¬(s.threads j).InSection)
    (text : runStmts fuel accepted rest s.chan = some c) :
    ∃ trace, Run SystemStep s trace (System.set { s with chan := c } i .idle) ∧
      Guarded EntersAlone trace ∧ ∀ taken ∈ trace, taken.2 = .exec i accepted := by
  obtain ⟨trace, run, steps⟩ := exists_run_of_runStmts here text
  exact ⟨trace, run, entersAlone_of_executes run steps outside,
    fun taken member => (steps taken member).1⟩

/-- Thread 0 alone starts a text and runs it to its end. -/
theorem exists_run_entersAlone {fuel : Nat} {accepted : Bool} {text : List Stmt} {c c' : Channel}
    {a : Action} (start : SystemStep c.alone a (c.alone.set 0 (.running text)))
    (result : runStmts fuel accepted text c = some c') :
    ∃ trace, Run SystemStep c.alone ((c.alone, a) :: trace) c'.alone ∧
      Guarded EntersAlone trace ∧ ∀ taken ∈ trace, taken.2 = .exec 0 accepted := by
  let s₁ := c.alone.set 0 (.running text)
  have here : s₁.threads 0 = .running text := System.set_threads_self _ _ _
  have outside : ∀ j, j ≠ 0 → ¬(s₁.threads j).InSection := by
    intro j other
    rw [System.set_threads_of_ne _ _ other]
    exact Thread.idle_outside
  obtain ⟨trace, run, alone, steps⟩ := exists_run_undisturbed here outside result
  have last : System.set { s₁ with chan := c' } 0 .idle = c'.alone :=
    (c'.alone.set_set 0 _ _).trans (c'.alone_set_idle 0)
  rw [last] at run
  exact ⟨trace, .cons start run, alone, steps⟩

theorem Channel.alone_quiet (c : Channel) : ¬c.alone.Occupied := fun ⟨_, inside⟩ => inside rfl

/-- The step of thread 0 with which an atomic step begins. -/
def SessionEvent.action : SessionEvent → Action
  | .complete p mem => .complete p mem
  | .call r _ => .call 0 r
  | .callback p _ => .dequeue 0 p

/-- Every atomic step of a session is a run of the system that nobody disturbs. -/
theorem SessionStep.exists_run {s s' : Session} {e : SessionEvent} (step : SessionStep s e s') :
    ∃ trace, Run SystemStep s.chan.alone ((s.chan.alone, e.action) :: trace) s'.chan.alone ∧
      Guarded EntersAlone ((s.chan.alone, e.action) :: trace) ∧
      ∀ taken ∈ trace, taken.2 = .branch 0 ∨
        ∃ accepted, taken.2 = .exec 0 accepted ∧ (CallAccepted s e → accepted = true) := by
  cases e with
  | complete p mem =>
      obtain ⟨busy, rfl⟩ := step
      have only : SystemStep s.chan.alone (.complete p mem) (s.chan.complete p mem).alone :=
        ⟨busy, rfl⟩
      exact ⟨[], .cons only (.nil _), guarded_cons.mpr ⟨trivial, guarded_nil _⟩, by simp⟩
  | call r accepted =>
      obtain ⟨c, text, rfl⟩ := step
      obtain ⟨trace, run, alone, steps⟩ :=
        exists_run_entersAlone (a := .call 0 r) ⟨rfl, rfl⟩ text
      exact ⟨_, run, guarded_cons.mpr ⟨trivial, alone⟩, fun taken member =>
        .inr ⟨accepted, steps taken member, id⟩⟩
  | callback p accepted =>
      obtain ⟨queued, fuel, c, text, rfl⟩ := step
      let c₁ := s.chan.dequeue p
      let s₁ := c₁.alone.set 0 (.entered (branchOf s.chan.data.opt))
      let s₂ := s₁.set 0 (.running (callback s.chan.data iocpBufferSize))
      have first : SystemStep s.chan.alone (.dequeue 0 p) s₁ := ⟨rfl, queued, rfl⟩
      have entered : s₁.threads 0 = .entered (branchOf s.chan.data.opt) :=
        System.set_threads_self _ _ _
      have second : SystemStep s₁ (.branch 0) s₂ := ⟨_, entered, rfl⟩
      have here : s₂.threads 0 = .running (callback s.chan.data iocpBufferSize) :=
        System.set_threads_self _ _ _
      have outside : ∀ j, j ≠ 0 → ¬(s₂.threads j).InSection := by
        intro j other
        rw [System.set_threads_of_ne _ _ other, System.set_threads_of_ne _ _ other]
        exact Thread.idle_outside
      obtain ⟨trace, run, alone, steps⟩ := exists_run_undisturbed here outside text
      let entering : Thread := .entered (branchOf s.chan.data.opt)
      have last : System.set { s₂ with chan := c } 0 .idle = c.alone :=
        calc System.set { s₂ with chan := c } 0 .idle
            = (c.alone.set 0 entering).set 0 .idle := (c.alone.set 0 entering).set_set 0 _ _
          _ = c.alone.set 0 .idle := c.alone.set_set 0 _ _
          _ = c.alone := c.alone_set_idle 0
      rw [last] at run
      exact ⟨_, .cons first (.cons second run),
        guarded_cons.mpr ⟨trivial, guarded_cons.mpr ⟨trivial, alone⟩⟩,
        List.forall_mem_cons.mpr ⟨.inl rfl, fun taken member =>
          .inr ⟨accepted, steps taken member, id⟩⟩⟩

/-- A run of atomic steps as a run of threads: what each begins with is in it, in order, and
otherwise there are only branches and statements. -/
theorem exists_run_of_session {s s' : Session} {trace : List (Session × SessionEvent)}
    (run : Run SessionStep s trace s') :
    ∃ trace', Run SystemStep s.chan.alone trace' s'.chan.alone ∧ Guarded EntersAlone trace' ∧
      (trace.map fun taken => (taken.1.chan.alone, taken.2.action)).Sublist trace' ∧
      ∀ taken ∈ trace', (∃ old ∈ trace, taken = (old.1.chan.alone, old.2.action)) ∨
        taken.2 = .branch 0 ∨
          ∃ accepted, taken.2 = .exec 0 accepted ∧
            (Guarded CallAccepted trace → accepted = true) := by
  induction run with
  | nil s => exact ⟨[], .nil _, guarded_nil _, List.Sublist.refl _, by simp⟩
  | @cons s t s' e trace first _ ih =>
      obtain ⟨rest, run, alone, sublist, only⟩ := ih
      obtain ⟨own, ran, alone', inner⟩ := first.exists_run
      refine ⟨_, ran.append run, guarded_append.mpr ⟨alone', alone⟩, ?_, ?_⟩
      · exact (sublist.trans (List.sublist_append_right _ _)).cons_cons _
      · rw [List.forall_mem_append, List.forall_mem_cons]
        refine ⟨⟨.inl ⟨(s, e), List.mem_cons_self, rfl⟩, fun taken member => .inr ?_⟩,
          fun taken member => ?_⟩
        · exact (inner taken member).imp_right fun ⟨accepted, here, same⟩ =>
            ⟨accepted, here, fun all => same (guarded_cons.mp all).1⟩
        · refine (only taken member).imp ?_ (Or.imp_right ?_)
          · exact fun ⟨old, here, same⟩ => ⟨old, List.mem_cons_of_mem _ here, same⟩
          · exact fun ⟨accepted, here, same⟩ =>
              ⟨accepted, here, fun all => same (guarded_cons.mp all).2⟩

/-- `CheckUid` alone on a registered session, up to its return. -/
theorem checkUid_only_run (d : NetIoData) (msg : Message) :
    ∃ trace, Run SystemStep (registered d).alone trace (started d msg).alone ∧
      Guarded EntersAlone trace ∧
      ∀ taken ∈ trace, taken.2 = .checkUid 0 msg ∨ taken.2 = .exec 0 true := by
  obtain ⟨trace, run, alone, steps⟩ :=
    exists_run_entersAlone (a := .checkUid 0 msg) ⟨rfl, rfl⟩ (runStmts_checkUid 0 d msg)
  exact ⟨_, run, guarded_cons.mpr ⟨⟨rfl, rfl, Channel.alone_quiet _⟩, alone⟩,
    List.forall_mem_cons.mpr ⟨.inl rfl, fun taken member => .inr (steps taken member)⟩⟩

theorem checkUid_system_run (d : NetIoData) (msg : Message) :
    ∃ trace, Run SystemStep (registered d).alone trace (started d msg).alone ∧
      Guarded EntersAlone trace := by
  obtain ⟨trace, run, guard, _⟩ := checkUid_only_run d msg
  exact ⟨trace, run, guard⟩

/-- Behind a login that is refused, a join on a thread that enters alone, with every call
accepted: the join waits, sends, completes and is called back. -/
theorem exists_system_run_join (msg : Message) :
    ∃ trace c, Run SystemStep (started (freshIoData 1#64) msg).alone trace (Channel.alone c) ∧
      Guarded EntersAlone trace ∧ (∃ t, (t, .call 0 (.joinTable joinRoomMessage)) ∈ trace) ∧
      c.places = [.checkUid, .receive, .joinTable, .receive] ∧
      ∀ taken ∈ trace, ∀ i accepted, taken.2 = .exec i accepted → accepted = true := by
  obtain ⟨trace, s, run, orderly, join, _, _, places, _⟩ :=
    exists_run_join msg (List.mem_singleton.mpr rfl)
  obtain ⟨rest, system, alone, sublist, only⟩ := exists_run_of_session run
  refine ⟨rest, s.chan, system, alone, ?_, places, ?_⟩
  · have member : Request.joinTable joinRoomMessage ∈ outputs (fun _ e => e.request) trace :=
      join ▸ List.mem_cons_self
    obtain ⟨⟨t, e⟩, here, same⟩ := List.mem_filterMap.mp member
    refine ⟨t.chan.alone, sublist.subset ?_⟩
    cases e with
    | call r accepted =>
        obtain rfl := Option.some.inj same
        exact List.mem_map_of_mem here
    | complete | callback => cases same
  · intro taken member i accepted exec
    rcases only taken member with ⟨⟨_, e⟩, _, rfl⟩ | here | ⟨_, here, all⟩
    · cases e <;> cases exec
    · cases here.symm.trans exec
    · cases here.symm.trans exec
      exact all orderly.accepted

/-- The login, its refusal and the join. -/
theorem exclusive_join : ∃ trace c,
    Run SystemStep (registered (freshIoData 1#64)).alone trace (Channel.alone c) ∧
      (∃ t, (t, .call 0 (.joinTable joinRoomMessage)) ∈ trace) ∧
      c.places = [.checkUid, .receive, .joinTable, .receive] ∧
      Everywhere Exclusive trace c.alone := by
  obtain ⟨first, login, alone⟩ :=
    checkUid_system_run (freshIoData 1#64) enterFishServerMessage
  obtain ⟨rest, c, system, alone', ⟨t, call⟩, places, _⟩ :=
    exists_system_run_join enterFishServerMessage
  have whole := login.append system
  exact ⟨_, c, whole, ⟨t, List.mem_append_right _ call⟩, places,
    exclusive_of_entersAlone _ whole (guarded_append.mpr ⟨alone, alone'⟩)⟩

/-- Behind its wait a request runs to its end whatever the event says. -/
theorem Request.run_admitted (r : Request) (accepted : Bool) (c : Channel) :
    ∃ rest, r.program = .wait :: rest ∧
      runStmts 0 accepted rest c = some (c.finish (r.result c.data) r.call accepted) := by
  refine ⟨_, r.program_eq, ?_⟩
  exact (runStmts_request_iff (c := { c with event := true }) r.call_dir r.opt r.assigned r.msgID
    r.message).mpr ⟨rfl, rfl⟩

/-- Two requests at their waits while the event is up: both can pass, and then two
operations are in flight at once. -/
theorem overlap_of_two_waiters {s : System} {i j : Nat} (hij : i ≠ j) {q r : Request}
    (hi : s.threads i = .running q.program) (hj : s.threads j = .running r.program)
    (event : s.chan.event = true) :
    ∃ trace s', Run SystemStep s trace s' ∧ ¬Exclusive s' := by
  let c₁ := s.chan.finish (q.result s.chan.data) q.call true
  let c₂ := c₁.finish (r.result c₁.data) r.call true
  obtain ⟨restI, textI, runI⟩ := q.run_admitted true s.chan
  obtain ⟨restJ, textJ, runJ⟩ := r.run_admitted true c₁
  rw [textI] at hi
  rw [textJ] at hj
  have passes : Stmt.exec 0 true .wait s.chan = some s.chan := if_pos event
  let s₁ := s.set i (.running restI)
  let s₂ := s₁.set j (.running restJ)
  have waitI : SystemStep s (.exec i true) s₁ := ⟨_, _, 0, _, hi, passes, rfl⟩
  have hj₁ : s₁.threads j = .running (.wait :: restJ) :=
    (System.set_threads_of_ne _ _ hij.symm).trans hj
  have waitJ : SystemStep s₁ (.exec j true) s₂ := ⟨_, _, 0, _, hj₁, passes, rfl⟩
  have hi₂ : s₂.threads i = .running restI :=
    (System.set_threads_of_ne _ _ hij).trans (System.set_threads_self _ _ _)
  obtain ⟨traceI, ranI, _⟩ := exists_run_of_runStmts hi₂ runI
  let s₃ := System.set { s₂ with chan := c₁ } i .idle
  have hj₃ : s₃.threads j = .running restJ :=
    (System.set_threads_of_ne _ _ hij.symm).trans (System.set_threads_self _ _ _)
  obtain ⟨traceJ, ranJ, _⟩ := exists_run_of_runStmts hj₃ runJ
  refine ⟨_, _, .cons waitI (.cons waitJ (ranI.append ranJ)), ?_⟩
  rintro ⟨inflight, _⟩
  have two : 2 ≤ c₂.inflight.length := Nat.le_add_left 2 s.chan.inflight.length
  exact absurd (Nat.le_trans two inflight) (by decide)

/-- A join and a bullet wait for the same completion and both send. -/
theorem two_requests_not_exclusive : ¬∀ (d : NetIoData) (trace : List (System × Action))
    (s : System), Run SystemStep (registered d).alone trace s → Everywhere Exclusive trace s := by
  intro all
  let c := started (freshIoData 1#64) enterFishServerMessage
  let c₁ := c.complete (postOf c.data .checkUid) fun _ => 0#8
  let s₁ := c₁.alone.set 0 (.running (Request.joinTable joinRoomMessage).program)
  let s₂ := s₁.set 1 (.running (Request.bullet bulletMessage).program)
  obtain ⟨trace, run, _⟩ := checkUid_system_run (freshIoData 1#64) enterFishServerMessage
  have complete : SystemStep c.alone (.complete (postOf c.data .checkUid) fun _ => 0#8) c₁.alone :=
    ⟨List.mem_cons_self, rfl⟩
  have join : SystemStep c₁.alone (.call 0 (.joinTable joinRoomMessage)) s₁ := ⟨rfl, rfl⟩
  have idle : s₁.threads 1 = .idle := System.set_threads_of_ne _ _ (by decide)
  have bullet : SystemStep s₁ (.call 1 (.bullet bulletMessage)) s₂ := ⟨idle, rfl⟩
  have here : s₂.threads 0 = .running (Request.joinTable joinRoomMessage).program :=
    (System.set_threads_of_ne _ _ (by decide)).trans (System.set_threads_self _ _ _)
  have there : s₂.threads 1 = .running (Request.bullet bulletMessage).program :=
    System.set_threads_self _ _ _
  obtain ⟨rest, s, overlap, broken⟩ :=
    overlap_of_two_waiters (by decide) here there (rfl : s₂.chan.event = true)
  exact broken (all _ _ _ (run.append
    (.cons complete (.cons join (.cons bullet overlap))))).2

end IocpTest.NetService
