import IocpTest.TestClient.TestFunc

/-!
# Records that wait for their answer

`CheckUid` keeps its message in `m_optRecord` until an answer confirms it. The socket
does not block, and `CheckUidRst` deletes the record whether or not its `recv` has
returned a datagram; `CheckUid` assigns over a record that is still there.

`recordsConfirmed_iff`: only confirmed records are dropped exactly when no `CheckUid`
finds a record and no `CheckUidRst` finds one without receiving a datagram.

`records_attended`: no message is kept for ever. A record waits only while the worker of a
check has its receive still to come, and when the workers are idle each check has stored
one message and lost it again.
-/

namespace IocpTest.TestClient

open StepSystem

/-- A record has been deleted or replaced only after its answer. -/
def RecordsConfirmed (s : Client) : Prop := ∀ r ∈ s.dropped, r.confirmed = true

/-- A check starts when no record waits, and a receive that finds a record gets a
datagram. -/
def AwaitsAnswer (s : Client) : ClientEvent → Prop
  | .checkUid _ _ _ _ => s.optRecord = none
  | .checkUidRst _ received => s.optRecord.isSome = true → received = true
  | _ => True

/-- The record that waits has not been answered, since an answer deletes it. -/
structure Client.Waiting (s : Client) : Prop where
  unanswered : ∀ r, s.optRecord = some r → r.confirmed = false
  confirmed : RecordsConfirmed s

namespace Client.Waiting

variable {s : Client}

theorem addElem (waiting : s.Waiting) (param : ThreadPool.ThreadElem) (kind : Option ClientOPT)
    (accepted : Bool) : (s.addElem param kind accepted).Waiting := by
  constructor
  · rw [addElem_optRecord]
    exact waiting.unanswered
  · rw [RecordsConfirmed, addElem_dropped]
    exact waiting.confirmed

theorem step {s' : Client} {e : ClientEvent} (waiting : s.Waiting) (awaits : AwaitsAnswer s e)
    (step : ClientStep s e s') : s'.Waiting := by
  cases e with
  | reqOptCheckUid id accepted =>
      obtain ⟨_, rfl⟩ := step
      exact waiting.addElem _ _ accepted
  | other param accepted =>
      obtain ⟨_, _, rfl⟩ := step
      exact waiting.addElem _ _ accepted
  | get time =>
      obtain ⟨workers, _, _, rfl⟩ := step
      exact ⟨waiting.unanswered, waiting.confirmed⟩
  | checkUid opt sent id accepted =>
      obtain ⟨rest, workers, _, _, rfl⟩ := step
      have none : s.optRecord = none := awaits
      apply Waiting.addElem
      constructor
      · intro r hr
        obtain rfl := Option.some.inj hr
        rfl
      · change ∀ r ∈ s.optRecord.toList ++ s.dropped, r.confirmed = true
        rw [none]
        exact waiting.confirmed
  | checkUidRst opt received =>
      obtain ⟨rest, workers, _, rfl⟩ := step
      refine ⟨by simp [Client.checkUidRst], fun r hr => ?_⟩
      rw [checkUidRst_dropped] at hr
      cases hrec : s.optRecord with
      | none =>
          rw [hrec] at hr
          exact waiting.confirmed r hr
      | some old =>
          have answer : received = true := awaits (by rw [hrec]; rfl)
          rw [hrec, answer] at hr
          cases List.mem_cons.mp hr with
          | inl h =>
              rw [h]
              exact Bool.or_true old.confirmed
          | inr h => exact waiting.confirmed r h

/-- What is dropped without an answer is not confirmed. -/
theorem awaitsAnswer {s' : Client} {e : ClientEvent} (waiting : s.Waiting)
    (step : ClientStep s e s') (confirmed : RecordsConfirmed s') : AwaitsAnswer s e := by
  cases e with
  | reqOptCheckUid | other | get => trivial
  | checkUid opt sent id accepted =>
      obtain ⟨rest, workers, _, _, rfl⟩ := step
      rw [RecordsConfirmed, addElem_dropped, checkUid_dropped] at confirmed
      apply Option.eq_none_iff_forall_ne_some.mpr
      intro old hrec
      have answer := confirmed old (by rw [hrec]; exact List.mem_cons_self)
      rw [waiting.unanswered old hrec] at answer
      cases answer
  | checkUidRst opt received =>
      obtain ⟨rest, workers, _, rfl⟩ := step
      intro here
      obtain ⟨old, hrec⟩ := Option.isSome_iff_exists.mp here
      rw [RecordsConfirmed, checkUidRst_dropped, hrec] at confirmed
      have answer := confirmed ⟨old.confirmed || received⟩ List.mem_cons_self
      rw [waiting.unanswered old hrec] at answer
      exact answer

end Client.Waiting

/-- In every run of a client's tasks only confirmed records are dropped in any state
reached if and only if every `CheckUid` is called while no record waits and every
`CheckUidRst` that finds a record receives a datagram. -/
theorem recordsConfirmed_iff {threadNum : Nat} {trace : List (Client × ClientEvent)} {s : Client}
    (run : Run ClientStep (Client.init threadNum) trace s) :
    Everywhere RecordsConfirmed trace s ↔ Guarded AwaitsAnswer trace :=
  run.everywhere_iff_guarded Client.Waiting (fun _ _ _ inv ok step => inv.step ok step)
    (fun _ inv => inv.confirmed) (fun _ _ _ inv step h => inv.awaitsAnswer step h)
    ⟨by simp [Client.init], fun _ hr => absurd hr List.not_mem_nil⟩

/-- The answer is there when the check goes on into the receive. -/
theorem recordsConfirmed_answered : ∃ trace s, Run ClientStep (Client.init 1) trace s ∧
    s.dropped = [⟨true⟩] ∧ Everywhere RecordsConfirmed trace s := by
  have run := run_fallenThrough true
  refine ⟨_, _, run, rfl, (recordsConfirmed_iff run).mpr ?_⟩
  simp only [guarded_cons, guarded_nil]
  exact ⟨trivial, trivial, rfl, fun _ => rfl, trivial⟩

/-- It is not there yet: `recv` fails, and the record is deleted. -/
theorem not_recordsConfirmed : ¬∀ (threadNum : Nat) (trace : List (Client × ClientEvent))
    (s : Client), Run ClientStep (Client.init threadNum) trace s →
      Everywhere RecordsConfirmed trace s := by
  intro all
  have safe := (all 1 _ _ (run_fallenThrough false)).2
  have answer : false = true := safe ⟨false⟩ List.mem_cons_self
  cases answer

/-! ## How long a record waits -/

/-- What a worker can have left of a task. -/
inductive Unfinished : PoolWorker → Prop
  | idle : Unfinished []
  | check : Unfinished [(.reqCheckUid, .checkUid), (.reqCheckUid, .checkUidRst)]
  | receive (opt : ClientOPT) : Unfinished [(opt, .checkUidRst)]

/-- Every message that has been stored waits or has been dropped, and while one waits a
worker is between the two calls of a check. -/
structure Client.Attended (s : Client) : Prop where
  workers : ∀ w ∈ s.workers, Unfinished w
  stored : s.ran .reqCheckUid .checkUid = s.dropped.length + s.optRecord.toList.length
  waiting : s.optRecord.isSome = true → [(.reqCheckUid, .checkUidRst)] ∈ s.workers

theorem unfinished_callsOf (task : Option ClientOPT) : Unfinished (callsOf task) := by
  cases task with
  | none => exact .idle
  | some opt =>
      cases opt with
      | reqCheckUid => exact .check
      | reqRecvChekcUid => exact .receive _

/-- Only the task of a check calls `CheckUid`, and its receive is next. -/
theorem Unfinished.checkUid_cases {opt : ClientOPT} {rest : PoolWorker}
    (unfinished : Unfinished ((opt, .checkUid) :: rest)) :
    opt = .reqCheckUid ∧ rest = [(.reqCheckUid, .checkUidRst)] := by
  cases unfinished
  exact ⟨rfl, rfl⟩

theorem Unfinished.checkUidRst_cases {opt : ClientOPT} {rest : PoolWorker}
    (unfinished : Unfinished ((opt, .checkUidRst) :: rest)) : rest = [] := by
  cases unfinished
  rfl

namespace Client

theorem addElem_workers (s : Client) (param : ThreadPool.ThreadElem) (kind : Option ClientOPT)
    (accepted : Bool) : (s.addElem param kind accepted).workers = s.workers := by
  cases accepted <;> rfl

namespace Attended

variable {s s' : Client}

theorem addElem (attended : s.Attended) (param : ThreadPool.ThreadElem)
    (kind : Option ClientOPT) (accepted : Bool) : (s.addElem param kind accepted).Attended := by
  constructor
  · simpa only [addElem_workers] using attended.workers
  · simpa only [addElem_ran, addElem_dropped, addElem_optRecord] using attended.stored
  · simpa only [addElem_workers, addElem_optRecord] using attended.waiting

theorem step {e : ClientEvent} (attended : s.Attended) (step : ClientStep s e s') :
    s'.Attended := by
  cases e with
  | reqOptCheckUid id accepted =>
      obtain ⟨_, rfl⟩ := step
      exact attended.addElem _ _ accepted
  | other param accepted =>
      obtain ⟨_, _, rfl⟩ := step
      exact attended.addElem _ _ accepted
  | get time =>
      obtain ⟨workers, _, moves, rfl⟩ := step
      refine ⟨moves.forall_mem attended.workers (unfinished_callsOf _), attended.stored, ?_⟩
      intro some
      exact moves.mem_of_ne (attended.waiting some) (List.cons_ne_nil _ _)
  | checkUid opt sent id accepted =>
      obtain ⟨rest, workers, moves, _, rfl⟩ := step
      obtain ⟨rfl, rfl⟩ := (attended.workers _ moves.mem).checkUid_cases
      apply Attended.addElem
      refine ⟨moves.forall_mem attended.workers (.receive _), ?_, fun _ => moves.mem_after⟩
      have stored := attended.stored
      have more : (s.checkUid .reqCheckUid workers).ran .reqCheckUid .checkUid =
          s.ran .reqCheckUid .checkUid + 1 := by
        simp [Client.checkUid, count]
      rw [more, checkUid_dropped, List.length_append, stored]
      simp only [Client.checkUid, Option.toList_some, List.length_singleton]
      omega
  | checkUidRst opt received =>
      obtain ⟨rest, workers, moves, rfl⟩ := step
      obtain rfl := (attended.workers _ moves.mem).checkUidRst_cases
      refine ⟨moves.forall_mem attended.workers .idle, ?_, by simp [Client.checkUidRst]⟩
      have same : (s.checkUidRst opt received workers).ran .reqCheckUid .checkUid =
          s.ran .reqCheckUid .checkUid := by
        cases opt <;> simp [Client.checkUidRst, count]
      rw [same, attended.stored, checkUidRst_dropped]
      cases s.optRecord <;> simp [Client.checkUidRst]

theorem init (threadNum : Nat) : (Client.init threadNum).Attended where
  workers := by
    intro w member
    obtain ⟨_, rfl⟩ := List.mem_replicate.mp member
    exact .idle
  stored := rfl
  waiting some := absurd some Bool.false_ne_true

end Attended

end Client

/-- In every run of a client's tasks, on any number of workers, a record waits only while a
worker has the receive of a check still to come, and every message that was stored waits or
has been dropped. When all workers are idle none waits, and there has been one for every
check that was handed out. -/
theorem records_attended {threadNum : Nat} {trace : List (Client × ClientEvent)} {s : Client}
    (run : Run ClientStep (Client.init threadNum) trace s) :
    (s.optRecord.isSome = true → 0 < s.pending .reqCheckUid .checkUidRst) ∧
      s.ran .reqCheckUid .checkUid = s.dropped.length + s.optRecord.toList.length ∧
      ((∀ w ∈ s.workers, w = []) → s.optRecord = none ∧
        s.dropped.length + s.queued .reqCheckUid = s.accepted .reqCheckUid) := by
  have attended := (run.everywhere_of_invariant Client.Attended (fun _ _ _ inv step => inv.step step)
    (fun _ inv => inv) (.init threadNum)).2
  have balanced := (run.everywhere_of_invariant Client.Inv (fun _ _ _ inv step => inv.step step)
    (fun _ inv => inv) (.init threadNum)).2.balanced .reqCheckUid .checkUid
  refine ⟨fun some => ?_, attended.stored, fun idle => ?_⟩
  · have here := attended.waiting some
    have one : (1 : Nat) ∈ s.workers.map fun w => w.count (.reqCheckUid, .checkUidRst) :=
      List.mem_map.mpr ⟨_, here, rfl⟩
    exact List.sum_pos_iff_exists_pos_nat.mpr ⟨1, one, Nat.zero_lt_one⟩
  · have none : s.optRecord = none := by
      cases record : s.optRecord with
      | none => rfl
      | some r =>
          have here := idle _ (attended.waiting (by rw [record]; rfl))
          exact absurd here (List.cons_ne_nil _ _)
    have still : s.pending .reqCheckUid .checkUid = 0 := by
      apply List.sum_eq_zero
      simp only [List.forall_mem_map]
      intro w member
      rw [idle w member, List.count_nil]
    have once : (testFunc .reqCheckUid).count .checkUid = 1 := rfl
    rw [once, still, attended.stored, none] at balanced
    simp only [Option.toList_none, List.length_nil] at balanced
    exact ⟨none, by omega⟩

/-- The check has received, and its follow-up is in the list. -/
theorem records_attended_fallenThrough : ∃ trace s, Run ClientStep (Client.init 1) trace s ∧
    (s.optRecord.isSome = true → 0 < s.pending .reqCheckUid .checkUidRst) ∧
      s.ran .reqCheckUid .checkUid = s.dropped.length + s.optRecord.toList.length ∧
      ((∀ w ∈ s.workers, w = []) → s.optRecord = none ∧
        s.dropped.length + s.queued .reqCheckUid = s.accepted .reqCheckUid) :=
  ⟨_, _, run_fallenThrough false, records_attended (run_fallenThrough false)⟩

end IocpTest.TestClient
