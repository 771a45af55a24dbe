import IocpTest.Logic.Interleaving
import IocpTest.NetService.Wedge

/-!
# All sessions on one set of workers

The workers serve the packets of every session, and a callback waits with `INFINITE` for the
event of its own. A worker that waits for a session that nothing can wake is lost to all of
them, and a session can hold as many workers as packets of it are queued. One refused send
after enough requests takes every worker away (`refused_send_stops_workers`).
-/

namespace IocpTest.NetService

open StepSystem Bytes Function

variable {ι : Type*}

/-- The thread on which an action starts an operation. -/
def Action.starts : Action → Option Nat
  | .checkUid i _ => some i
  | .call i _ => some i
  | .dequeue i _ => some i
  | _ => none

/-- The sessions with the threads at work in each. A thread works in one session at a time. -/
structure Process (ι : Type*) where
  session : ι → System
  apart : ∀ i j k, (session j).threads i ≠ .idle → (session k).threads i ≠ .idle → j = k

/-- An action on one session. Only a thread that is idle in all sessions starts an operation. -/
def ProcessStep (s : Process ι) (e : ι × Action) (s' : Process ι) : Prop :=
  (∀ i ∈ e.2.starts, ∀ k, (s.session k).threads i = .idle) ∧
    Interleaved SystemStep s.session e s'.session

/-- Every session has been started, and all threads are idle. -/
def Process.started (d : ι → NetIoData) (msg : ι → Message) : Process ι where
  session k := (NetService.started (d k) (msg k)).alone
  apart _ _ _ busy _ := absurd rfl busy

/-! ## A run of one session inside the process -/

theorem SystemStep.idle_of_starts {s s' : System} {a : Action} {i : Nat}
    (step : SystemStep s a s') (starts : i ∈ a.starts) : s.threads i = .idle := by
  cases a with
  | checkUid j msg =>
      obtain rfl := Option.some.inj starts
      exact step.1
  | call j r =>
      obtain rfl := Option.some.inj starts
      exact step.1
  | dequeue j p =>
      obtain rfl := Option.some.inj starts
      exact step.1
  | branch j | exec j accepted | complete p mem => cases starts

/-- A thread at work was at work before, or has been started. -/
theorem SystemStep.busy_cases {s s' : System} {a : Action} {i : Nat} (step : SystemStep s a s')
    (busy : s'.threads i ≠ .idle) : s.threads i ≠ .idle ∨ i ∈ a.starts := by
  cases a with
  | complete p mem =>
      obtain ⟨_, rfl⟩ := step
      exact .inl busy
  | checkUid j msg =>
      obtain ⟨_, rfl⟩ := step
      by_cases same : i = j
      · exact .inr (congrArg some same.symm)
      · exact .inl (by simpa only [System.set_threads_of_ne _ _ same] using busy)
  | call j r =>
      obtain ⟨_, rfl⟩ := step
      by_cases same : i = j
      · exact .inr (congrArg some same.symm)
      · exact .inl (by simpa only [System.set_threads_of_ne _ _ same] using busy)
  | dequeue j p =>
      obtain ⟨_, _, rfl⟩ := step
      by_cases same : i = j
      · exact .inr (congrArg some same.symm)
      · exact .inl (by simpa only [System.set_threads_of_ne _ _ same] using busy)
  | branch j =>
      obtain ⟨b, here, rfl⟩ := step
      by_cases same : i = j
      · exact .inl (by simp [same, here, Thread.idle])
      · exact .inl (by simpa only [System.set_threads_of_ne _ _ same] using busy)
  | exec j accepted =>
      obtain ⟨stmt, rest, fuel, c, here, _, rfl⟩ := step
      by_cases same : i = j
      · exact .inl (by simp [same, here, Thread.idle])
      · exact .inl (by simpa only [System.set_threads_of_ne _ _ same] using busy)

section

variable [DecidableEq ι] {k : ι}

theorem Process.exists_step (s : Process ι) {a : Action} {t : System}
    (step : SystemStep (s.session k) a t)
    (free : ∀ i ∈ a.starts, ∀ j, (s.session j).threads i = .idle) :
    ∃ s' : Process ι, ProcessStep s (k, a) s' ∧ s'.session = update s.session k t := by
  have before : ∀ i j, (update s.session k t j).threads i ≠ .idle →
      (s.session j).threads i ≠ .idle ∨ j = k ∧ i ∈ a.starts := by
    intro i j busy
    by_cases here : j = k
    · subst here
      rw [update_self] at busy
      exact (step.busy_cases busy).imp_right fun starts => ⟨rfl, starts⟩
    · exact .inl (by simpa only [update_of_ne here] using busy)
  refine ⟨⟨update s.session k t, ?_⟩, ⟨free, ?_, ?_⟩, rfl⟩
  · intro i j j' busy busy'
    rcases before i j busy with old | ⟨rfl, starts⟩ <;>
      rcases before i j' busy' with old' | ⟨rfl, starts'⟩
    · exact s.apart i j j' old old'
    · exact absurd (free i starts' j) old
    · exact absurd (free i starts j') old'
    · rfl
  · simpa using step
  · intro j other
    simp [update_of_ne other]

/-- A run of one session is a run of the process, if no other session has the threads that it
starts. -/
theorem Process.exists_run {t u : System} {trace : List (System × Action)}
    (run : Run SystemStep t trace u) (s : Process ι) (here : s.session k = t)
    (free : ∀ taken ∈ trace, ∀ i ∈ taken.2.starts, ∀ j, j ≠ k → (s.session j).threads i = .idle) :
    ∃ trace' s', Run ProcessStep s trace' s' ∧ s'.session = update s.session k u ∧
      trace'.map Prod.snd = trace.map fun taken => (k, taken.2) := by
  induction run generalizing s with
  | nil t => exact ⟨[], s, .nil s, by rw [← here, update_eq_self], rfl⟩
  | @cons t t' u a trace first _ ih =>
      subst here
      obtain ⟨now, later⟩ := List.forall_mem_cons.mp free
      have all : ∀ i ∈ a.starts, ∀ j, (s.session j).threads i = .idle := by
        intro i starts j
        by_cases same : j = k
        · exact same ▸ first.idle_of_starts starts
        · exact now i starts j same
      obtain ⟨s₁, step, session⟩ := s.exists_step first all
      have still : ∀ taken ∈ trace, ∀ i ∈ taken.2.starts, ∀ j, j ≠ k →
          (s₁.session j).threads i = .idle := by
        intro taken member i starts j other
        simpa only [session, update_of_ne other] using later taken member i starts j other
      obtain ⟨trace', s', run, last, labels⟩ := ih s₁ (by rw [session, update_self]) still
      refine ⟨(s, k, a) :: trace', s', .cons step run, by rw [last, session, update_idem], ?_⟩
      rw [List.map_cons, List.map_cons, labels]

end

/-- A run of the process is a run of each of its sessions. -/
theorem Process.run_session [DecidableEq ι] {s s' : Process ι}
    {trace : List (Process ι × ι × Action)} (run : Run ProcessStep s trace s') (k : ι) :
    Run SystemStep (s.session k) (component k (mapTrace Process.session (fun _ e => e) trace))
      (s'.session k) :=
  (run.simulate Process.session (fun _ e => e) (fun _ => True)
    (fun _ _ _ _ step => ⟨trivial, step.2⟩) trivial).component k

/-! ## Sessions that nothing can wake -/

theorem not_wakeable_iff {s : System} : ¬Wakeable s ↔
    s.chan.event = false ∧ s.chan.inflight = [] ∧ ∀ i, (s.threads i).stage = .outside := by
  simp [Wakeable, System.Occupied, Thread.InSection]

/-- A statement that is not a wait leaves an event that is down and an empty flight alone when
no reset and no post stands before the next wait. -/
theorem Stmt.exec_outside {stmt : Stmt} {rest : List Stmt} {fuel : Nat} {accepted : Bool}
    {c c' : Channel} (outside : stageOf (stmt :: rest) = .outside) (event : c.event = false)
    (inflight : c.inflight = []) (exec : stmt.exec fuel accepted c = some c') :
    c'.event = false ∧ c'.inflight = [] ∧ stageOf rest = .outside := by
  cases stmt with
  | wait => simp [Stmt.exec, event] at exec
  | resetEvent => simp [stageOf, Stmt.before] at outside
  | post call => simp [stageOf, Stmt.before] at outside
  | recvRecords length =>
      obtain ⟨t, _, rfl⟩ := Option.map_eq_some_iff.mp exec
      exact ⟨event, inflight, outside⟩
  | _ =>
      obtain rfl := Option.some.inj exec
      exact ⟨event, inflight, outside⟩

/-- Nothing but `CheckUid` wakes such a session. -/
theorem SystemStep.not_wakeable {s s' : System} {a : Action} (closed : ¬Wakeable s)
    (no : NoCheckUid s a) (step : SystemStep s a s') : ¬Wakeable s' := by
  obtain ⟨event, inflight, outside⟩ := not_wakeable_iff.mp closed
  have set : ∀ (c : Channel) (i : Nat) (t : Thread), c.event = false → c.inflight = [] →
      t.stage = .outside → ¬Wakeable (System.set { s with chan := c } i t) := by
    intro c i t event inflight here
    refine not_wakeable_iff.mpr ⟨event, inflight, fun j => ?_⟩
    by_cases same : j = i
    · simpa [same] using here
    · simpa only [System.set_threads_of_ne _ _ same] using outside j
  cases a with
  | checkUid i msg => exact no.elim
  | complete p mem => simp [SystemStep, inflight] at step
  | call i r =>
      obtain ⟨_, rfl⟩ := step
      exact set s.chan i _ event inflight r.program_disciplined.1
  | dequeue i p =>
      obtain ⟨_, _, rfl⟩ := step
      exact set (s.chan.dequeue p) i _ event inflight rfl
  | branch i =>
      obtain ⟨b, _, rfl⟩ := step
      have body := b.body_disciplined s.chan.data iocpBufferSize
      exact set s.chan i _ event inflight ((stageOf_append_ret _ _).trans body.1)
  | exec i accepted =>
      obtain ⟨stmt, rest, fuel, c, here, exec, rfl⟩ := step
      have before : stageOf (stmt :: rest) = .outside := by
        simpa only [here, Thread.stage] using outside i
      obtain ⟨event', inflight', after⟩ := Stmt.exec_outside before event inflight exec
      exact set c i _ event' inflight' after

/-- The thread stands at a wait. -/
def System.Waits (s : System) (i : Nat) : Prop := ∃ rest, s.threads i = .running (.wait :: rest)

theorem System.Waits.busy {s : System} {i : Nat} (waits : s.Waits i) : s.threads i ≠ .idle := by
  obtain ⟨rest, here⟩ := waits
  simp [here, Thread.idle]

/-- While the event is down a thread stays at its wait. -/
theorem System.Waits.step {s s' : System} {a : Action} {i : Nat} (waits : s.Waits i)
    (event : s.chan.event = false) (step : SystemStep s a s') : s'.Waits i := by
  have other : ∀ (c : Channel) (j : Nat) (t : Thread), i ≠ j →
      (System.set { s with chan := c } j t).Waits i := by
    intro c j t ne
    obtain ⟨rest, here⟩ := waits
    exact ⟨rest, by simpa only [System.set_threads_of_ne _ _ ne] using here⟩
  have busy := waits.busy
  cases a with
  | complete p mem =>
      obtain ⟨_, rfl⟩ := step
      exact waits
  | checkUid j msg =>
      obtain ⟨idle, rfl⟩ := step
      exact other s.chan j _ fun same => busy (same ▸ idle)
  | call j r =>
      obtain ⟨idle, rfl⟩ := step
      exact other s.chan j _ fun same => busy (same ▸ idle)
  | dequeue j p =>
      obtain ⟨idle, _, rfl⟩ := step
      exact other _ j _ fun same => busy (same ▸ idle)
  | branch j =>
      obtain ⟨b, entered, rfl⟩ := step
      refine other s.chan j _ fun same => ?_
      obtain ⟨rest, here⟩ := waits
      subst same
      simp [entered] at here
  | exec j accepted =>
      obtain ⟨stmt, rest, fuel, c, running, exec, rfl⟩ := step
      refine other c j _ fun same => ?_
      obtain ⟨rest', here⟩ := waits
      subst same
      obtain ⟨rfl, _⟩ : stmt = .wait ∧ rest = rest' := by simpa [running] using here
      simp [Stmt.exec, event] at exec

/-- Without a dequeue the packets of a session only pile up. -/
theorem SystemStep.packets_kept {s s' : System} {a : Action} (step : SystemStep s a s')
    (no : ∀ i p, a ≠ .dequeue i p) : s.chan.packets <+: s'.chan.packets := by
  cases a with
  | dequeue i p => exact absurd rfl (no i p)
  | complete p mem =>
      obtain ⟨_, rfl⟩ := step
      cases hdir : p.dir <;> simp [Channel.complete, Channel.overwrite, hdir]
  | checkUid i msg | call i r =>
      obtain ⟨_, rfl⟩ := step
      exact List.prefix_rfl
  | branch i =>
      obtain ⟨_, _, rfl⟩ := step
      exact List.prefix_rfl
  | exec i accepted =>
      obtain ⟨stmt, rest, fuel, c, _, exec, rfl⟩ := step
      suffices c.packets = s.chan.packets from this ▸ List.prefix_rfl
      cases stmt with
      | wait =>
          obtain ⟨_, same⟩ := Option.ite_none_right_eq_some.mp exec
          rw [← Option.some.inj same]
      | recvRecords length =>
          obtain ⟨t, _, rfl⟩ := Option.map_eq_some_iff.mp exec
          rfl
      | post call => cases call <;> obtain rfl := Option.some.inj exec <;> rfl
      | _ =>
          obtain rfl := Option.some.inj exec
          rfl

/-! ## No worker left -/

/-- No further `CheckUid` on this session. -/
def NoCheckUidOn (k : ι) (s : Process ι) (e : ι × Action) : Prop :=
  e.1 = k → NoCheckUid (s.session k) e.2

/-- Every worker stands at a wait of this session, which nothing can wake. -/
structure Exhausted (worker : Nat → Prop) (k : ι) (s : Process ι) : Prop where
  closed : ¬Wakeable (s.session k)
  waits : ∀ i, worker i → (s.session k).Waits i

/-- Only the workers take packets, and `CheckUid` is not called again for this session. -/
structure Unattended (worker : Nat → Prop) (k : ι) (s : Process ι) (e : ι × Action) : Prop where
  workers : ∀ i p, e.2 = .dequeue i p → worker i
  left : NoCheckUidOn k s e

def TakesNoPacket (_ : Process ι) (e : ι × Action) : Prop := ∀ i p, e.2 ≠ .dequeue i p

section

variable {worker : Nat → Prop} {k : ι} {s s' : Process ι} {e : ι × Action}

theorem Exhausted.takesNoPacket (none : Exhausted worker k s) (ok : Unattended worker k s e)
    (step : ProcessStep s e s') : TakesNoPacket s e := by
  intro i p takes
  have waits := none.waits i (ok.workers i p takes)
  have starts : i ∈ e.2.starts := by simp [takes, Action.starts]
  exact waits.busy (step.1 i starts k)

theorem Exhausted.step (none : Exhausted worker k s) (ok : Unattended worker k s e)
    (step : ProcessStep s e s') : Exhausted worker k s' := by
  obtain ⟨_, taken, others⟩ := step
  by_cases here : k = e.1
  · subst here
    have event := (not_wakeable_iff.mp none.closed).1
    exact ⟨taken.not_wakeable none.closed (ok.left rfl),
      fun i works => (none.waits i works).step event taken⟩
  · have same := others k here
    exact ⟨same ▸ none.closed, same ▸ none.waits⟩

/-- From then on no packet of any session is taken. -/
theorem Exhausted.forever {trace : List (Process ι × ι × Action)}
    (none : Exhausted worker k s) (run : Run ProcessStep s trace s')
    (guard : Guarded (Unattended worker k) trace) : Guarded TakesNoPacket trace :=
  run.guarded_of_guarded (Exhausted worker k) (fun _ _ _ none ok step => none.step ok step)
    (fun _ _ _ none ok step => none.takesNoPacket ok step) none guard

theorem packets_kept_of_takesNoPacket {trace : List (Process ι × ι × Action)}
    (run : Run ProcessStep s trace s') (guard : Guarded TakesNoPacket trace) (k : ι) :
    (s.session k).chan.packets <+: (s'.session k).chan.packets := by
  induction run with
  | nil => exact List.prefix_rfl
  | @cons s t s' e trace first _ ih =>
      obtain ⟨no, later⟩ := guarded_cons.mp guard
      refine List.IsPrefix.trans ?_ (ih later)
      by_cases here : k = e.1
      · subst here
        exact first.2.1.packets_kept no
      · simp only [first.2.2 k here, List.prefix_rfl]

end

/-! ## How the workers are lost -/

/-- The event is up, nothing is in flight, and `n` packets wait. -/
structure Queued (n : Nat) (c : Channel) : Prop where
  raised : c.event = true
  quiet : c.inflight = []
  packets : c.packets.length = n

theorem Queued.complete {n : Nat} {c : Channel} {p : Post} (mem : Memory)
    (busy : c.inflight = [p]) (packets : c.packets.length = n) :
    Queued (n + 1) (c.complete p mem) := by
  cases hdir : p.dir <;>
    exact ⟨by simp [Channel.complete, hdir], by simp [Channel.complete, hdir, busy],
      by simp [Channel.complete, Channel.overwrite, hdir, packets]⟩

/-- The calls made so far, by their places, with whether they were accepted. -/
def Channel.calls (c : Channel) : List (Call × Bool) := c.posts.map fun post => (post.1.call, post.2)

@[simp] theorem Channel.posts_complete (c : Channel) (p : Post) (mem : Memory) :
    (c.complete p mem).posts = c.posts := by
  cases hdir : p.dir <;> simp [Channel.complete, Channel.overwrite, hdir]

/-- After `n` accepted requests, each made on the event of the call before, the packets of
all calls wait. -/
theorem exists_run_queued (d : NetIoData) (msg : Message) (r : Request) (n : Nat) :
    ∃ trace c, Run SystemStep (started d msg).alone trace (Channel.alone c) ∧
      Queued (n + 1) c ∧ c.calls = (.checkUid, true) :: List.replicate n (r.call, true) := by
  induction n with
  | zero =>
      let p := postOf (checkUidData msg d) .checkUid
      have step : SystemStep (started d msg).alone (.complete p fun _ => 0#8)
          ((started d msg).complete p fun _ => 0#8).alone := ⟨List.mem_cons_self, rfl⟩
      exact ⟨_, _, .cons step (.nil _), Queued.complete _ rfl rfl, rfl⟩
  | succ n ih =>
      obtain ⟨trace, c, run, queued, calls⟩ := ih
      let sent := c.finish (r.result c.data) r.call true
      let p := postOf (r.result c.data) r.call
      have text : runStmts 0 true r.program c = some sent := by
        rw [r.program_eq]
        exact (runStmts_request_iff (Request.call_dir _) _ _ _ _).mpr ⟨queued.raised, rfl⟩
      obtain ⟨_, call, _⟩ := exists_run_alone (a := .call 0 r) ⟨rfl, rfl⟩ text
      have busy : sent.inflight = [p] := by simp [sent, p, Channel.finish, queued.quiet]
      have step : SystemStep sent.alone (.complete p fun _ => 0#8)
          (sent.complete p fun _ => 0#8).alone := ⟨by simp [Channel.alone, busy], rfl⟩
      refine ⟨_, _, run.append (call.append (.cons step (.nil _))),
        Queued.complete _ busy queued.packets, ?_⟩
      rw [Channel.calls, Channel.posts_complete, List.replicate_succ', ← List.cons_append, ← calls]
      simp [sent, Channel.calls, Channel.finish, postOf]

/-- The first `n` workers wait in a session that nothing can wake, the other threads are
idle. -/
structure Held (n : Nat) (s : System) : Prop where
  closed : ¬Wakeable s
  waits : ∀ i, 1 ≤ i → i ≤ n → s.Waits i
  idle : ∀ i, n < i → s.threads i = .idle

/-- The next worker takes a packet and comes to the wait of its branch. -/
theorem Held.exists_run {n : Nat} {s : System} {r : Request} (held : Held n s)
    (opt : s.chan.data.opt = r.opt) (queued : s.chan.packets ≠ []) :
    ∃ trace s', Run SystemStep s trace s' ∧ Held (n + 1) s' ∧
      s'.chan.data.opt = r.opt ∧ s'.chan.posts = s.chan.posts ∧
      s'.chan.packets.length + 1 = s.chan.packets.length := by
  obtain ⟨p, hp⟩ := List.exists_mem_of_ne_nil _ queued
  let b := branchOf s.chan.data.opt
  let text := b.body s.chan.data iocpBufferSize ++ [.ret true]
  let s₁ := System.set { s with chan := s.chan.dequeue p } (n + 1) (.entered b)
  let s₂ := s₁.set (n + 1) (.running text)
  have take : SystemStep s (.dequeue (n + 1) p) s₁ := ⟨held.idle _ (Nat.lt_succ_self n), hp, rfl⟩
  have enter : SystemStep s₁ (.branch (n + 1)) s₂ := ⟨b, System.set_threads_self _ _ _, rfl⟩
  have first : ∃ rest, text = .wait :: rest := by
    cases r <;> simp [text, b, opt, Request.opt, branchOf, Branch.body, rearm]
  have closed₁ := SystemStep.not_wakeable (a := .dequeue (n + 1) p) held.closed trivial take
  have fewer := List.length_erase_of_mem hp
  have some := List.length_pos_of_mem hp
  refine ⟨_, s₂, .cons take (.cons enter (.nil _)),
    ⟨SystemStep.not_wakeable (a := .branch (n + 1)) closed₁ trivial enter, ?_, ?_⟩, opt, rfl, ?_⟩
  · intro i low high
    by_cases last : i = n + 1
    · obtain ⟨rest, text⟩ := first
      exact ⟨rest, by simp [s₂, last, text]⟩
    · have event := (not_wakeable_iff.mp held.closed).1
      have waits := (held.waits i low (by omega)).step event take
      exact waits.step (not_wakeable_iff.mp closed₁).1 enter
  · intro i above
    have ne : i ≠ n + 1 := by omega
    simpa only [s₂, s₁, System.set_threads_of_ne _ _ ne] using held.idle i (by omega)
  · simp only [s₂, s₁, System.set, Channel.dequeue, fewer]
    omega

/-- As many workers are held as there are packets. -/
theorem Held.exists_run_all {m n : Nat} {s : System} {r : Request} (held : Held m s)
    (opt : s.chan.data.opt = r.opt) (packets : s.chan.packets.length = n) :
    ∃ trace s', Run SystemStep s trace s' ∧ Held (m + n) s' ∧
      s'.chan.posts = s.chan.posts := by
  induction n generalizing m s with
  | zero => exact ⟨[], s, .nil s, held, rfl⟩
  | succ n ih =>
      have queued : s.chan.packets ≠ [] := List.ne_nil_of_length_eq_add_one packets
      obtain ⟨_, s₁, run, held₁, opt₁, posts₁, fewer⟩ := held.exists_run opt queued
      obtain ⟨_, s', more, held', posts⟩ := ih held₁ opt₁ (by omega)
      have count : m + 1 + n = m + (n + 1) := by omega
      exact ⟨_, s', run.append more, count ▸ held', posts.trans posts₁⟩

/-- What a session has called when `n` requests were accepted and then one was refused. -/
def callsOf (r : Request) (n : Nat) : List (Call × Bool) :=
  (.checkUid, true) :: List.replicate n (r.call, true) ++ [(r.call, false)]

/-- The last of `n + 1` requests is refused, and `n + 1` workers are held. -/
theorem exists_run_held (d : NetIoData) (msg : Message) (r : Request) (n : Nat) :
    ∃ trace s, Run SystemStep (started d msg).alone trace s ∧ Held (n + 1) s ∧
      s.chan.calls = callsOf r n := by
  obtain ⟨_, c, run, queued, calls⟩ := exists_run_queued d msg r n
  let failed := c.finish (r.result c.data) r.call false
  have text : runStmts 0 false r.program c = some failed := by
    rw [r.program_eq]
    exact (runStmts_request_iff r.call_dir _ _ _ _).mpr ⟨queued.raised, rfl⟩
  obtain ⟨_, call, _⟩ := exists_run_alone (a := .call 0 r) ⟨rfl, rfl⟩ text
  have held : Held 0 failed.alone := by
    refine ⟨not_wakeable_iff.mpr ⟨rfl, queued.quiet, fun _ => rfl⟩, ?_, fun _ _ => rfl⟩
    intro i low high
    omega
  have opt : failed.data.opt = r.opt := rfl
  obtain ⟨_, s, more, held, same⟩ := held.exists_run_all opt queued.packets
  refine ⟨_, s, run.append (call.append more), Nat.zero_add (n + 1) ▸ held, ?_⟩
  rw [Channel.calls, same, callsOf, ← calls]
  simp [failed, Channel.calls, Channel.alone, Channel.finish, postOf]

/-- However many workers there are, and whatever other sessions there are: as many requests on
one session, all accepted but the last, can bring the process to a point from which no worker
takes a packet of any session again, unless `CheckUid` is called once more for that session. -/
theorem refused_send_stops_workers [DecidableEq ι] (d : ι → NetIoData) (msg : ι → Message)
    (k : ι) (r : Request) (n : Nat) :
    ∃ trace s, Run ProcessStep (Process.started d msg) trace s ∧
      (s.session k).chan.calls = callsOf r n ∧
      (∀ j, j ≠ k → s.session j = (Process.started d msg).session j) ∧
      ∀ later s', Run ProcessStep s later s' →
        Guarded (Unattended (fun i => 1 ≤ i ∧ i ≤ n + 1) k) later →
          Guarded TakesNoPacket later ∧
            ∀ j, (s.session j).chan.packets <+: (s'.session j).chan.packets := by
  obtain ⟨_, t, run, held, calls⟩ := exists_run_held (d k) (msg k) r n
  obtain ⟨trace, s, run, session, _⟩ :=
    Process.exists_run run (Process.started d msg) rfl fun _ _ _ _ _ _ => rfl
  have here : s.session k = t := by rw [session, update_self]
  refine ⟨trace, s, run, here ▸ calls, ?_, ?_⟩
  · intro j other
    rw [session, update_of_ne other]
  · intro later s' more guard
    have none : Exhausted (fun i => 1 ≤ i ∧ i ≤ n + 1) k s :=
      ⟨here ▸ held.closed, fun i ⟨low, high⟩ => here ▸ held.waits i low high⟩
    have stops := none.forever more guard
    exact ⟨stops, packets_kept_of_takesNoPacket more stops⟩

end IocpTest.NetService
