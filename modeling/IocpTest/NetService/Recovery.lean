import IocpTest.NetService.Process

/-!
# Waits that come to an end

A worker that waits is not lost while its session can be woken: the event is up, or a call in
flight or a thread inside will raise it. A thread can leave its wait exactly then
(`leaves_wait_iff`), by steps of its own session that start nothing. So no wait is in vain in
a process in which every refused call leaves such a way (`wait_can_end`).

A thread inside comes to its call if the record loop ends on what is in the buffer.
-/

namespace IocpTest.NetService

open StepSystem EventGate Bytes Function

/-- A step in which nothing new is started and no call refused. -/
def Action.Continues : Action → Prop
  | .exec _ accepted => accepted = true
  | .complete _ _ => True
  | _ => False

theorem Action.Continues.starts {a : Action} (continues : a.Continues) : a.starts = none := by
  cases a with
  | checkUid | call | dequeue => exact continues.elim
  | branch | exec | complete => rfl

theorem Action.Continues.noCheckUid {a : Action} (continues : a.Continues) (s : System) :
    NoCheckUid s a := by
  cases a with
  | checkUid => exact continues.elim
  | call | dequeue | branch | exec | complete => trivial

/-- The record loop comes to an end on the buffer as it is. -/
def LoopEnds (c : Channel) : Prop := ∃ t, Scans c.data.buffer c.data.recvID iocpBufferSize t

/-! ## Where a thread can get stuck -/

/-- Neither a wait nor the record loop. -/
def Stmt.Total : Stmt → Prop
  | .wait => False
  | .recvRecords _ => False
  | _ => True

/-- The statements that a thread has left. The record loop is over before anything is written
to the buffer. -/
inductive Text : List Stmt → Prop
  | total {rest : List Stmt} (all : ∀ stmt ∈ rest, stmt.Total) : Text rest
  | records {rest : List Stmt} (all : ∀ stmt ∈ rest, stmt.Total) :
      Text (.recvRecords iocpBufferSize :: rest)
  | reset {rest : List Stmt} (all : ∀ stmt ∈ rest, stmt.Total) :
      Text (.resetEvent :: .recvRecords iocpBufferSize :: rest)
  | wait {rest : List Stmt} (all : ∀ stmt ∈ rest, stmt.Total) : Text (.wait :: rest)
  | waitReset {rest : List Stmt} (all : ∀ stmt ∈ rest, stmt.Total) :
      Text (.wait :: .resetEvent :: .recvRecords iocpBufferSize :: rest)
  | read {rest : List Stmt} (all : ∀ stmt ∈ rest, stmt.Total) :
      Text (.readBuffer :: .wait :: rest)

theorem Text.tail {stmt : Stmt} {rest : List Stmt} (text : Text (stmt :: rest)) : Text rest := by
  cases text with
  | total all => exact .total (List.forall_mem_cons.mp all).2
  | records all => exact .total all
  | reset all => exact .records all
  | wait all => exact .total all
  | waitReset all => exact .reset all
  | read all => exact .wait all

/-- An operation waits once. -/
theorem Text.behind_wait {rest rest' : List Stmt} (text : Text (.wait :: rest)) :
    rest ≠ .wait :: rest' := by
  rintro rfl
  cases text with
  | total all => exact all .wait List.mem_cons_self
  | wait all => exact all .wait List.mem_cons_self

theorem checkUid_text (msg : Message) : Text (checkUid msg) :=
  .total (by simp [checkUid, Stmt.Total])

theorem Request.program_text (r : Request) : Text r.program := by
  cases r <;> exact .wait (by simp [Stmt.Total, clearBuffer])

theorem rearm_total (opt : UINT) : ∀ stmt ∈ (rearm opt).tail ++ [.ret true], stmt.Total := by
  simp [rearm, Stmt.Total, clearBuffer]

theorem Branch.body_text (b : Branch) (d : NetIoData) :
    Text (b.body d iocpBufferSize ++ [.ret true]) := by
  have records : Text (recvCmdData iocpBufferSize ++ [.ret true]) :=
    .waitReset (by simp [Stmt.Total, clearBuffer])
  cases b with
  | checkUidReceived =>
      rw [Branch.body]
      split
      · exact .read (rearm_total _)
      · exact .total (by simp [Stmt.Total])
  | cmdDataReceived | other => exact records
  | checkUidSent | joinTableSent | startSyncFishSent | bulletSent | answerSent =>
      exact .wait (rearm_total _)

/-- Every thread has the rest of one of the operations in front of it. -/
def System.Texts (s : System) : Prop := ∀ i rest, s.threads i = .running rest → Text rest

theorem System.Texts.set {s : System} {c : Channel} {i : Nat} {t : Thread} (texts : s.Texts)
    (own : ∀ rest, t = .running rest → Text rest) :
    (System.set { s with chan := c } i t).Texts := by
  intro j rest here
  by_cases same : j = i
  · exact own rest (by simpa [same] using here)
  · exact texts j rest (by simpa only [System.set_threads_of_ne _ _ same] using here)

theorem System.Texts.step {s s' : System} {a : Action} (texts : s.Texts)
    (step : SystemStep s a s') : s'.Texts := by
  cases a with
  | checkUid i msg =>
      obtain ⟨_, rfl⟩ := step
      exact texts.set fun rest same => Thread.running.inj same ▸ checkUid_text msg
  | call i r =>
      obtain ⟨_, rfl⟩ := step
      exact texts.set fun rest same => Thread.running.inj same ▸ r.program_text
  | dequeue i p =>
      obtain ⟨_, _, rfl⟩ := step
      exact texts.set fun rest same => by cases same
  | branch i =>
      obtain ⟨b, _, rfl⟩ := step
      exact texts.set fun rest same => Thread.running.inj same ▸ b.body_text _
  | exec i accepted =>
      obtain ⟨stmt, rest, fuel, c, here, _, rfl⟩ := step
      exact texts.set fun rest same => Thread.running.inj same ▸ (texts i _ here).tail
  | complete p mem =>
      obtain ⟨_, rfl⟩ := step
      exact texts

/-! ## A thread inside comes to its call -/

theorem Stmt.exec_total {stmt : Stmt} (total : stmt.Total) (fuel : Nat) (accepted : Bool)
    (c : Channel) : ∃ c', stmt.exec fuel accepted c = some c' := by
  cases stmt with
  | wait | recvRecords length => exact total.elim
  | post call => cases call <;> exact ⟨_, rfl⟩
  | _ => exact ⟨_, rfl⟩

theorem runStmts_total {text : List Stmt} (total : ∀ stmt ∈ text, stmt.Total) (fuel : Nat)
    (accepted : Bool) (c : Channel) : ∃ c', runStmts fuel accepted text c = some c' := by
  induction text generalizing c with
  | nil => exact ⟨c, rfl⟩
  | cons stmt rest ih =>
      obtain ⟨first, others⟩ := List.forall_mem_cons.mp total
      obtain ⟨c₁, exec⟩ := Stmt.exec_total first fuel accepted c
      obtain ⟨c', run⟩ := ih others c₁
      exact ⟨c', by rw [runStmts, exec, Option.bind_some, run]⟩

/-- Left alone, a thread inside ends its operation. -/
theorem Text.runs {text : List Stmt} {c : Channel} (known : Text text)
    (inside : stageOf text ≠ .outside) (ends : LoopEnds c) :
    ∃ fuel c', runStmts fuel true text c = some c' := by
  obtain ⟨t, fuel, scan⟩ := ends
  cases known with
  | total all =>
      obtain ⟨c', run⟩ := runStmts_total all fuel true c
      exact ⟨fuel, c', run⟩
  | records all =>
      obtain ⟨c', run⟩ := runStmts_total all fuel true _
      refine ⟨fuel, c', ?_⟩
      rw [runStmts, Stmt.exec, scan]
      exact run
  | reset all =>
      obtain ⟨c', run⟩ := runStmts_total all fuel true _
      refine ⟨fuel, c', ?_⟩
      rw [runStmts, Stmt.exec, Option.bind_some, runStmts, Stmt.exec, scan]
      exact run
  | wait | waitReset | read => exact absurd rfl inside

/-- Nothing but a completion ends a call. -/
theorem Stmt.exec_inflight {stmt : Stmt} {fuel : Nat} {accepted : Bool} {c c' : Channel}
    (exec : stmt.exec fuel accepted c = some c') (busy : c.inflight ≠ []) : c'.inflight ≠ [] := by
  cases stmt with
  | wait =>
      obtain ⟨_, same⟩ := Option.ite_none_right_eq_some.mp exec
      exact Option.some.inj same ▸ busy
  | recvRecords length =>
      obtain ⟨t, _, rfl⟩ := Option.map_eq_some_iff.mp exec
      exact busy
  | post call =>
      obtain rfl := Option.some.inj exec
      cases accepted <;> simp [Channel.makePost, busy]
  | _ =>
      obtain rfl := Option.some.inj exec
      exact busy

theorem runStmts_inflight {text : List Stmt} {fuel : Nat} {accepted : Bool} {c c' : Channel}
    (run : runStmts fuel accepted text c = some c') (busy : c.inflight ≠ []) :
    c'.inflight ≠ [] := by
  induction text generalizing c with
  | nil => exact Option.some.inj run ▸ busy
  | cons stmt rest ih =>
      obtain ⟨c₁, exec, run⟩ := Option.bind_eq_some_iff.mp run
      exact ih run (Stmt.exec_inflight exec busy)

/-- The operation of a thread inside makes its call. -/
theorem inflight_of_runStmts {text : List Stmt} {fuel : Nat} {c c' : Channel}
    (inside : stageOf text ≠ .outside) (ok : disciplined text = true)
    (run : runStmts fuel true text c = some c') : c'.inflight ≠ [] := by
  induction text generalizing c with
  | nil => exact absurd rfl inside
  | cons stmt rest ih =>
      obtain ⟨c₁, exec, later⟩ := Option.bind_eq_some_iff.mp run
      obtain ⟨first, tail⟩ := Bool.and_eq_true_iff.mp ok
      have after : stmt.after.getD (stageOf rest) = stageOf rest := of_decide_eq_true first
      cases stmt with
      | wait => exact absurd rfl inside
      | post call =>
          refine runStmts_inflight later ?_
          cases call <;> obtain rfl := Option.some.inj exec <;> simp [Channel.makePost]
      | resetEvent =>
          have owner : stageOf rest = .owner := after.symm
          exact ih (by simp [owner]) tail later
      | _ => exact ih inside tail later

/-! ## The wait comes to an end -/

section

variable {s : System} {i : Nat} {rest : List Stmt}

/-- With the event up the thread goes on. -/
theorem exists_run_of_event (here : s.threads i = .running (.wait :: rest))
    (event : s.chan.event = true) :
    ∃ trace s', Run SystemStep s trace s' ∧ (∀ taken ∈ trace, taken.2.Continues) ∧
      s'.threads i = .running rest := by
  have passes : Stmt.exec 0 true .wait s.chan = some s.chan := if_pos event
  have step : SystemStep s (.exec i true) (s.set i (.running rest)) :=
    ⟨_, _, 0, _, here, passes, rfl⟩
  refine ⟨_, _, .cons step (.nil _), ?_, System.set_threads_self _ _ _⟩
  simp [Action.Continues]

/-- A call in flight completes and raises the event. -/
theorem exists_run_of_inflight (here : s.threads i = .running (.wait :: rest))
    (busy : s.chan.inflight ≠ []) :
    ∃ trace s', Run SystemStep s trace s' ∧ (∀ taken ∈ trace, taken.2.Continues) ∧
      s'.threads i = .running rest := by
  obtain ⟨p, member⟩ := List.exists_mem_of_ne_nil _ busy
  let s₁ : System := { s with chan := s.chan.complete p fun _ => 0#8 }
  have complete : SystemStep s (.complete p fun _ => 0#8) s₁ := ⟨member, rfl⟩
  have event : s₁.chan.event = true := by
    cases hdir : p.dir <;> simp [s₁, Channel.complete, hdir]
  obtain ⟨trace, s', run, continues, past⟩ := exists_run_of_event (s := s₁) here event
  exact ⟨_, s', .cons complete run, List.forall_mem_cons.mpr ⟨trivial, continues⟩, past⟩

/-- While the session can be woken, a thread at a wait can get past it. -/
theorem exists_run_of_wakeable (here : s.threads i = .running (.wait :: rest))
    (wakeable : Wakeable s) (ok : s.Disciplined) (texts : s.Texts) (ends : LoopEnds s.chan) :
    ∃ trace s', Run SystemStep s trace s' ∧ (∀ taken ∈ trace, taken.2.Continues) ∧
      s'.threads i = .running rest := by
  rcases wakeable with event | busy | ⟨j, inside⟩
  · exact exists_run_of_event here event
  · exact exists_run_of_inflight here busy
  · cases thread : s.threads j with
    | entered b =>
        rw [Thread.InSection, thread] at inside
        exact absurd rfl inside
    | running text =>
        have own := ok j
        rw [Thread.InSection, thread] at inside
        rw [thread] at own
        have other : i ≠ j := by
          rintro rfl
          obtain rfl := Thread.running.inj (here.symm.trans thread)
          exact inside rfl
        obtain ⟨fuel, c, ran⟩ := (texts j text thread).runs inside ends
        obtain ⟨trace, run, executes⟩ := exists_run_of_runStmts thread ran
        let s₁ := System.set { s with chan := c } j .idle
        have waits : s₁.threads i = .running (.wait :: rest) :=
          (System.set_threads_of_ne _ _ other).trans here
        obtain ⟨trace', s', more, continues, past⟩ :=
          exists_run_of_inflight (s := s₁) waits (inflight_of_runStmts inside own ran)
        refine ⟨trace ++ trace', s', run.append more, ?_, past⟩
        rw [List.forall_mem_append]
        refine ⟨fun taken member => ?_, continues⟩
        rw [(executes taken member).1]
        rfl

end

/-! ## The process -/

variable {ι : Type*}

/-- A call that is refused leaves another way to raise the event of its session. -/
def FailuresCovered (s : Process ι) (e : ι × Action) : Prop := FailureCovered (s.session e.1) e.2

section

variable [DecidableEq ι] {d : ι → NetIoData} {msg : ι → Message}
  {trace : List (Process ι × ι × Action)} {s : Process ι} {k : ι} {i : Nat} {rest : List Stmt}

/-- The threads of every session have known texts in front of them. -/
theorem Process.sound_of_run (run : Run ProcessStep (Process.started d msg) trace s) (k : ι) :
    (s.session k).Disciplined ∧ (s.session k).Texts := by
  have texts : (NetService.started (d k) (msg k)).alone.Texts := fun _ _ same =>
    Thread.running.inj same ▸ .total (by simp)
  exact ((Process.run_session run k).everywhere_of_invariant (fun s => s.Disciplined ∧ s.Texts)
    (fun _ _ _ inv step => ⟨(step.gate inv.1).1, inv.2.step step⟩) (fun _ inv => inv)
    ⟨Channel.alone_disciplined _, texts⟩).2

theorem Process.wakeable_of_run (run : Run ProcessStep (Process.started d msg) trace s)
    (covered : Guarded FailuresCovered trace) (k : ι) : Wakeable (s.session k) := by
  have failures : Guarded FailureCovered
      (component k (mapTrace Process.session (fun _ e => e) trace)) := by
    apply guarded_component
    rw [guarded_mapTrace]
    intro taken member here
    exact here ▸ covered taken member
  exact ((wakeable_iff_failureCovered _ _ (Process.run_session run k)).mpr failures).2

/-- The thread gets past its wait while all other sessions stay as they are. -/
theorem Process.exists_run_of_wakeable
    (sound : (s.session k).Disciplined ∧ (s.session k).Texts)
    (here : (s.session k).threads i = .running (.wait :: rest))
    (wakeable : Wakeable (s.session k)) (ends : LoopEnds (s.session k).chan) :
    ∃ later s', Run ProcessStep s later s' ∧
      (∀ taken ∈ later, taken.2.1 = k ∧ taken.2.2.Continues) ∧
      (s'.session k).threads i = .running rest := by
  obtain ⟨own, t, ran, continues, past⟩ :=
    NetService.exists_run_of_wakeable here wakeable sound.1 sound.2 ends
  have free : ∀ taken ∈ own, ∀ i ∈ taken.2.starts, ∀ j, j ≠ k →
      (s.session j).threads i = .idle := by
    intro taken member i starts
    rw [(continues taken member).starts] at starts
    cases starts
  obtain ⟨later, s', more, session, labels⟩ := Process.exists_run ran s rfl free
  refine ⟨later, s', more, ?_, by rw [session, update_self, past]⟩
  intro taken member
  obtain ⟨mine, inside, same⟩ := List.mem_map.mp (labels ▸ List.mem_map_of_mem member)
  rw [← same]
  exact ⟨rfl, continues mine inside⟩

/-- At a wait of a session that nothing can wake a thread stays. -/
theorem Process.waits_forever {s' : Process ι} {later : List (Process ι × ι × Action)}
    (run : Run ProcessStep s later s') (no : Guarded (NoCheckUidOn k) later)
    (closed : ¬Wakeable (s.session k)) (waits : (s.session k).Waits i) :
    (s'.session k).Waits i := by
  have keep : ∀ s e s', ¬Wakeable (s.session k) ∧ (s.session k).Waits i → NoCheckUidOn k s e →
      ProcessStep s e s' → ¬Wakeable (s'.session k) ∧ (s'.session k).Waits i := by
    rintro s e s' ⟨closed, waits⟩ no ⟨_, step, others⟩
    by_cases here : e.1 = k
    · subst here
      exact ⟨step.not_wakeable closed (no rfl), waits.step (not_wakeable_iff.mp closed).1 step⟩
    · rw [others k (Ne.symm here)]
      exact ⟨closed, waits⟩
  exact (run.everywhere_of_guarded _ keep (fun _ inv => inv) ⟨closed, waits⟩ no).2.2

/-- In every run of all started sessions on any threads in which each refused call leaves a way
to raise the event, every thread at a wait can get past it, if the record loop ends on what
is in the buffer of its session. It takes steps of that session only, and none that starts
anything. -/
theorem wait_can_end (run : Run ProcessStep (Process.started d msg) trace s)
    (covered : Guarded FailuresCovered trace)
    (here : (s.session k).threads i = .running (.wait :: rest))
    (ends : LoopEnds (s.session k).chan) :
    ∃ later s', Run ProcessStep s later s' ∧
      (∀ taken ∈ later, taken.2.1 = k ∧ taken.2.2.Continues) ∧
      (s'.session k).threads i = .running rest :=
  Process.exists_run_of_wakeable (Process.sound_of_run run k) here
    (Process.wakeable_of_run run covered k) ends

/-- A request waits for the completion of the check-uid send. -/
theorem exists_joinTable_waiting : ∃ trace s, Run ProcessStep
    (.started (fun _ : Unit => freshIoData 1#64) fun _ => enterFishServerMessage) trace s ∧
      Guarded FailuresCovered trace ∧ (s.session ()).Waits 0 ∧ LoopEnds (s.session ()).chan := by
  let r : Request := .joinTable joinRoomMessage
  let start : Process Unit := .started (fun _ => freshIoData 1#64) fun _ => enterFishServerMessage
  let called := (start.session ()).set 0 (.running r.program)
  have call : SystemStep (start.session ()) (.call 0 r) called := ⟨rfl, rfl⟩
  obtain ⟨s, step, session⟩ := start.exists_step call fun _ _ _ => rfl
  have here : s.session () = called := by rw [session, update_self]
  refine ⟨_, s, .cons step (.nil s), ?_, ?_, ?_⟩
  · simp [FailuresCovered, FailureCovered]
  · rw [here]
    exact ⟨_, System.set_threads_self _ _ _⟩
  · rw [here]
    exact ⟨_, 1, rfl⟩

/-- It can get past. -/
theorem wait_can_end_joinTable : ∃ (s s' : Process Unit) (rest : List Stmt),
    (s.session ()).threads 0 = .running (.wait :: rest) ∧
      ∃ later, Run ProcessStep s later s' ∧
        (∀ taken ∈ later, taken.2.1 = () ∧ taken.2.2.Continues) ∧
        (s'.session ()).threads 0 = .running rest := by
  obtain ⟨_, s, run, covered, ⟨rest, here⟩, ends⟩ := exists_joinTable_waiting
  obtain ⟨later, s', more, continues, past⟩ := wait_can_end run covered here ends
  exact ⟨s, s', rest, here, later, more, continues, past⟩

/-- In every state that a run of the service reaches, a thread at a wait can still leave it,
whatever is started, refused or completed on any session, without a further `CheckUid` on its
own, if and only if the event is up, a call in flight or a thread inside. -/
theorem leaves_wait_iff (run : Run ProcessStep (Process.started d msg) trace s)
    (waits : (s.session k).Waits i) (ends : LoopEnds (s.session k).chan) :
    (∃ later s', Run ProcessStep s later s' ∧ Guarded (NoCheckUidOn k) later ∧
      ¬(s'.session k).Waits i) ↔ Wakeable (s.session k) := by
  constructor
  · rintro ⟨later, s', more, no, left⟩
    by_contra closed
    exact left (Process.waits_forever more no closed waits)
  · intro wakeable
    obtain ⟨rest, here⟩ := waits
    have sound := Process.sound_of_run run k
    obtain ⟨later, s', more, continues, past⟩ :=
      Process.exists_run_of_wakeable sound here wakeable ends
    refine ⟨later, s', more, ?_, ?_⟩
    · intro taken member own
      exact (continues taken member).2.noCheckUid _
    · rintro ⟨rest', again⟩
      exact (sound.2 i _ here).behind_wait (Thread.running.inj (past.symm.trans again))

/-- The same request. -/
theorem leaves_wait_joinTable : ∃ s : Process Unit, (s.session ()).Waits 0 ∧
    ((∃ later s', Run ProcessStep s later s' ∧ Guarded (NoCheckUidOn ()) later ∧
      ¬(s'.session ()).Waits 0) ↔ Wakeable (s.session ())) := by
  obtain ⟨_, s, run, _, waits, ends⟩ := exists_joinTable_waiting
  exact ⟨s, waits, leaves_wait_iff run waits ends⟩

end

end IocpTest.NetService
