import IocpTest.TestClient.TestFunc

/-!
# One receive for each check

A check adds its receive to the pool as a task of its own. The case of a check in
`TestFunc` has no `break`, so the worker that has sent the message receives as well,
and the answer that the follow-up waits for may be gone when it runs.

When all tasks have run there is one receive for each of them, checks included
(`receives_of_finished`), and each check has one follow-up at most. So the receives
match the follow-ups only in a run without checks: `oneReceive_iff`, for any schedule
of the pool and whichever follow-ups it accepts.
-/

namespace IocpTest.TestClient

open StepSystem

namespace Client

def made (s : Client) (call : ClientCall) : Nat :=
  s.ran .reqCheckUid call + s.ran .reqRecvChekcUid call

/-- Every accepted task has been handed out, and its worker has made all its calls. -/
structure Finished (s : Client) : Prop where
  handedOut : ∀ opt, s.queued opt = 0
  idle : ∀ w ∈ s.workers, w = []

end Client

/-- `CheckUidRst` never runs more often than follow-ups were accepted; in the end
`CheckUid` has run once for each check and `CheckUidRst` once for each follow-up. -/
structure OneReceive (s : Client) : Prop where
  atMost : s.made .checkUidRst ≤ s.accepted .reqRecvChekcUid
  checks : s.Finished → s.made .checkUid = s.accepted .reqCheckUid
  receives : s.Finished → s.made .checkUidRst = s.accepted .reqRecvChekcUid

/-- A check that the pool accepts. -/
def ClientEvent.isCheck : ClientEvent → Bool
  | .reqOptCheckUid _ accepted => accepted
  | _ => false

/-- The number of checks accepted in a run. -/
def checks (trace : List (Client × ClientEvent)) : Nat :=
  trace.countP fun taken => taken.2.isCheck

namespace Client

variable {s : Client}

/-- The receives and the tasks that are to make them. -/
theorem Inv.made_add (inv : s.Inv) :
    s.accepted .reqRecvChekcUid + s.ran .reqCheckUid .checkUidRst =
      s.queued .reqRecvChekcUid + s.pending .reqRecvChekcUid .checkUidRst +
        s.made .checkUidRst := by
  have balance := inv.balanced .reqRecvChekcUid .checkUidRst
  have one : (testFunc .reqRecvChekcUid).count .checkUidRst = 1 := rfl
  rw [one] at balance
  rw [made]
  omega

/-- When all have run, every task has made each of its calls. -/
theorem Inv.ran_eq (inv : s.Inv) (finished : s.Finished) (opt : ClientOPT) (call : ClientCall) :
    s.ran opt call = s.accepted opt * (testFunc opt).count call := by
  have none : s.pending opt call = 0 := by
    apply List.sum_eq_zero
    intro n hn
    obtain ⟨w, hw, rfl⟩ := List.mem_map.mp hn
    rw [finished.idle w hw]
    rfl
  have balance := inv.balanced opt call
  rw [finished.handedOut opt, none] at balance
  omega

theorem Inv.checks_of_finished (inv : s.Inv) (finished : s.Finished) :
    s.made .checkUid = s.accepted .reqCheckUid := by
  rw [made, inv.ran_eq finished, inv.ran_eq finished]
  exact Nat.mul_one _

theorem Inv.receives_of_finished (inv : s.Inv) (finished : s.Finished) :
    s.made .checkUidRst = s.accepted .reqCheckUid + s.accepted .reqRecvChekcUid := by
  rw [made, inv.ran_eq finished, inv.ran_eq finished]
  exact congrArg₂ _ (Nat.mul_one _) (Nat.mul_one _)

theorem accepted_addElem {param : ThreadPool.ThreadElem} (fresh : s.Fresh param.id)
    (kind : Option ClientOPT) (accepted : Bool) (opt : ClientOPT) :
    (s.addElem param kind accepted).accepted opt =
      s.accepted opt + if accepted = true ∧ kind = some opt then 1 else 0 := by
  cases accepted with
  | false => simp [addElem]
  | true =>
      have pushed : s.addElem param kind true = s.push param kind := rfl
      rw [pushed, accepted_push fresh]
      simp only [true_and]

/-- Only a call of `ReqOpt_CheckUid` adds a check. -/
theorem accepted_step {s' : Client} {e : ClientEvent} (step : ClientStep s e s') :
    s'.accepted .reqCheckUid = s.accepted .reqCheckUid + e.isCheck.toNat := by
  cases e with
  | reqOptCheckUid id accepted =>
      obtain ⟨fresh, rfl⟩ := step
      rw [accepted_addElem fresh]
      cases accepted <;> rfl
  | other param accepted =>
      obtain ⟨fresh, _, rfl⟩ := step
      rw [accepted_addElem fresh]
      simp [ClientEvent.isCheck]
  | get time =>
      obtain ⟨workers, _, _, rfl⟩ := step
      rfl
  | checkUid opt sent id accepted =>
      obtain ⟨rest, workers, _, fresh, rfl⟩ := step
      have new : (s.checkUid opt workers).Fresh (testElem id).id := fresh
      rw [accepted_addElem new]
      simp only [Option.some.injEq, reduceCtorEq, and_false, if_false]
      rfl
  | checkUidRst opt received =>
      obtain ⟨rest, workers, _, rfl⟩ := step
      rfl

/-- Without a check nothing has been received but by follow-ups. -/
theorem Inv.oneReceive (inv : s.Inv) (none : s.accepted .reqCheckUid = 0) : OneReceive s where
  atMost := by
    have balance := inv.balanced .reqCheckUid .checkUidRst
    have receives := inv.made_add
    rw [none] at balance
    omega
  checks := inv.checks_of_finished
  receives := by
    intro finished
    rw [inv.receives_of_finished finished, none, Nat.zero_add]

end Client

/-- The checks of a run are those that the pool has accepted in the end. -/
theorem accepted_of_run {s s' : Client} {trace : List (Client × ClientEvent)}
    (run : Run ClientStep s trace s') :
    s'.accepted .reqCheckUid = s.accepted .reqCheckUid + checks trace := by
  induction run with
  | nil => rfl
  | cons first _ ih =>
      rw [ih, Client.accepted_step first, checks, checks, List.countP_cons]
      cases ClientEvent.isCheck _ <;> simp only [Bool.toNat_true, Bool.toNat_false, if_true,
        if_false, Bool.false_eq_true] <;> omega

theorem Client.Inv.of_run {threadNum : Nat} {trace : List (Client × ClientEvent)} {s : Client}
    (run : Run ClientStep (Client.init threadNum) trace s) : s.Inv :=
  (run.everywhere_of_invariant Client.Inv (fun _ _ _ inv step => inv.step step)
    (fun _ inv => inv) (Client.Inv.init threadNum)).2

/-- When all tasks have run, each of them has received. -/
theorem receives_of_finished {threadNum : Nat} {trace : List (Client × ClientEvent)} {s : Client}
    (run : Run ClientStep (Client.init threadNum) trace s) (finished : s.Finished) :
    s.made .checkUid = checks trace ∧
      s.made .checkUidRst = checks trace + s.accepted .reqRecvChekcUid := by
  have inv := Client.Inv.of_run run
  have all : s.accepted .reqCheckUid = checks trace :=
    (accepted_of_run run).trans (Nat.zero_add _)
  rw [← all]
  exact ⟨inv.checks_of_finished finished, inv.receives_of_finished finished⟩

/-- In every run of a client's tasks without a check the receives match the follow-ups in
every state reached, and in a run that has run all its tasks they do so only then. -/
theorem oneReceive_iff {threadNum : Nat} {trace : List (Client × ClientEvent)} {s : Client}
    (run : Run ClientStep (Client.init threadNum) trace s) :
    (checks trace = 0 → Everywhere OneReceive trace s) ∧
      (s.Finished → (Everywhere OneReceive trace s ↔ checks trace = 0)) := by
  have right : checks trace = 0 → Everywhere OneReceive trace s := by
    intro none
    have guard : Guarded (fun _ e => e.isCheck = false) trace := by
      intro taken member
      exact Bool.eq_false_iff.mpr (List.countP_eq_zero.mp none taken member)
    refine run.everywhere_of_guarded
      (fun s => s.Inv ∧ s.accepted .reqCheckUid = 0) ?_ (fun _ inv => inv.1.oneReceive inv.2)
      ⟨.init threadNum, rfl⟩ guard
    rintro s e t ⟨inv, none⟩ other step
    refine ⟨inv.step step, ?_⟩
    rw [Client.accepted_step step, none, other]
    rfl
  refine ⟨right, fun finished => ⟨fun all => ?_, right⟩⟩
  have made := (receives_of_finished run finished).2
  have atMost := all.2.atMost
  omega

/-! ## A check, and none -/

/-- The follow-up has received too. -/
def receivedTwice : Client :=
  ((fallenThrough true).get 2 [[(.reqRecvChekcUid, .checkUidRst)]]).checkUidRst .reqRecvChekcUid
    false [[]]

theorem run_receivedTwice : ∃ trace, Run ClientStep (Client.init 1) trace receivedTwice ∧
    checks trace = 1 ∧ receivedTwice.Finished := by
  have get : ClientStep (fallenThrough true) (.get 2)
      ((fallenThrough true).get 2 [[(.reqRecvChekcUid, .checkUidRst)]]) :=
    ⟨_, Nat.le_succ 1, ⟨[], [], rfl, rfl⟩, rfl⟩
  have receive : ClientStep ((fallenThrough true).get 2 [[(.reqRecvChekcUid, .checkUidRst)]])
      (.checkUidRst .reqRecvChekcUid false) receivedTwice := ⟨_, _, ⟨[], [], rfl, rfl⟩, rfl⟩
  refine ⟨_, (run_fallenThrough true).append (.cons get (.cons receive (.nil _))), rfl, ?_, ?_⟩
  · intro opt
    cases opt <;> rfl
  · exact List.forall_mem_singleton.mpr rfl

/-- The pool refuses a check and runs the task of somebody else: all is right. With one check
it is not. -/
theorem oneReceive_refusedCheck :
    (∃ trace s, Run ClientStep (Client.init 1) trace s ∧ s.Finished ∧ checks trace = 0 ∧
      trace.length = 3 ∧ Everywhere OneReceive trace s) ∧
    ∃ trace, Run ClientStep (Client.init 1) trace receivedTwice ∧ receivedTwice.Finished ∧
      checks trace = 1 ∧ ¬Everywhere OneReceive trace receivedTwice := by
  constructor
  · let added : Client := (Client.init 1).push (testElem 1) none
    have refuse : ClientStep (Client.init 1) (.reqOptCheckUid 0 false) (Client.init 1) :=
      ⟨fun _ ha => absurd ha List.not_mem_nil, rfl⟩
    have add : ClientStep (Client.init 1) (.other (testElem 1) true) added :=
      ⟨fun _ ha => absurd ha List.not_mem_nil, by decide, rfl⟩
    have get : ClientStep added (.get 1) (added.get 1 [[]]) :=
      ⟨_, Nat.zero_le 1, ⟨[], [], rfl, rfl⟩, rfl⟩
    have run := Run.cons refuse (.cons add (.cons get (.nil _)))
    have finished : (added.get 1 [[]]).Finished :=
      ⟨fun opt => by cases opt <;> rfl, List.forall_mem_singleton.mpr rfl⟩
    exact ⟨_, _, run, finished, rfl, rfl, ((oneReceive_iff run).2 finished).mpr rfl⟩
  · obtain ⟨trace, run, one, finished⟩ := run_receivedTwice
    refine ⟨trace, run, finished, one, fun all => ?_⟩
    have none := ((oneReceive_iff run).2 finished).mp all
    rw [one] at none
    cases none

/-- Two receives for one check and its follow-up. -/
theorem not_oneReceive : ¬∀ (threadNum : Nat) (trace : List (Client × ClientEvent)) (s : Client),
    Run ClientStep (Client.init threadNum) trace s → Everywhere OneReceive trace s := by
  intro all
  obtain ⟨trace, run, _⟩ := run_receivedTwice
  have atMost : 2 ≤ 1 := (all 1 _ _ run).2.atMost
  exact absurd atMost (by decide)

end IocpTest.TestClient
