import IocpTest.NetService.Registration

/-!
# Sessions that the map has lost

Calls of `RegesterNewSocket` and `RemoveSocket` one after the other, with any uids and
any failures. A second registration of a uid assigns over the first: the old session
keeps its open socket and its receive chain, but nothing leads to it any more, and
`RemoveSocket` closes nothing.

`noOrphans_iff`: no session is lost in a run exactly when no call that comes to its
insertion is for a uid that is in the map. `exists_run_regesterNewSocket` ties the call
as one step to its steps among other calls.
-/

namespace IocpTest.NetService

open StepSystem Bytes

/-- What the system answers to a call of `RegesterNewSocket`. -/
structure RegisterOutcome where
  createSocket : CreateOutcome
  converted : Bool
  connected : Bool
  associated : Bool

/-- The system gives out no socket that is open. -/
def CreateOutcome.Fresh (openSockets : List SOCKET) : CreateOutcome → Prop
  | .noSocket => True
  | .bindFailed sock => sock ∉ openSockets
  | .created sock => sock ∉ openSockets

/-- `RegesterNewSocket` from its call to its return: its result, the map and the open
sockets. Whether the association succeeds makes no difference to them. -/
def regesterNewSocket (uid : INT64) (port : USHORT) (mem : Memory) (o : RegisterOutcome)
    (m_IoDataMap : IoDataMap) (openSockets : List SOCKET) :
    Option SOCKET × IoDataMap × List SOCKET :=
  match o.createSocket with
  | .noSocket => (none, m_IoDataMap, openSockets)
  | .bindFailed sock => (none, m_IoDataMap, (sock :: openSockets).erase sock)
  | .created sock =>
      if !o.converted then (none, m_IoDataMap, (sock :: openSockets).erase sock)
      else if !o.connected then (none, m_IoDataMap, (sock :: openSockets).erase sock)
      else
        let inserted :=
          m_IoDataMap.assign uid.toInt (newSession mem ⟨uid, port, .called⟩ sock)
        (some sock, (getHanle inserted).2, sock :: openSockets)

/-- `RemoveSocket`: its body is commented out. -/
def removeSocket (_sock : SOCKET) (m_IoDataMap : IoDataMap) (openSockets : List SOCKET) :
    Bool × IoDataMap × List SOCKET :=
  (false, m_IoDataMap, openSockets)

/-- The sessions and the sockets. `chains` are the sessions on which `CheckUid` has
started the chain of receives, each by its own uid and its own socket. -/
structure Sessions where
  m_IoDataMap : IoDataMap
  openSockets : List SOCKET
  chains : List (INT64 × SOCKET)

def Sessions.empty : Sessions := ⟨.empty, [], []⟩

inductive SessionsEvent where
  | register (uid : INT64) (port : USHORT) (mem : Memory) (o : RegisterOutcome)
  | remove (sock : SOCKET)
  /-- `CheckUid` posts on the session that it finds under a uid. -/
  | checkUid (uid : INT64)

def SessionsStep (s : Sessions) : SessionsEvent → Sessions → Prop
  | .register uid port mem o, s' =>
      o.createSocket.Fresh s.openSockets ∧
        s' = { s with
          m_IoDataMap := (regesterNewSocket uid port mem o s.m_IoDataMap s.openSockets).2.1
          openSockets := (regesterNewSocket uid port mem o s.m_IoDataMap s.openSockets).2.2 }
  | .remove sock, s' =>
      s' = { s with
        m_IoDataMap := (removeSocket sock s.m_IoDataMap s.openSockets).2.1
        openSockets := (removeSocket sock s.m_IoDataMap s.openSockets).2.2 }
  | .checkUid uid, s' =>
      match s.m_IoDataMap.lookup uid.toInt with
      | none => s' = s
      | some d => s' = { s with chains := (d.uid, d.pSocketData.socket) :: s.chains }

/-- Every open socket is the socket of exactly one entry of the map, and every session
with a receive chain is found in the map under its own uid. -/
structure NoOrphans (s : Sessions) : Prop where
  sockets : ∀ sock ∈ s.openSockets,
    s.m_IoDataMap.entries.countP (fun e => e.2.pSocketData.socket == sock) = 1
  chains : ∀ chain ∈ s.chains, socketAt s.m_IoDataMap chain.1.toInt = some chain.2

/-- The socket of a call that comes to its insertion. -/
def RegisterOutcome.inserts (o : RegisterOutcome) : Option SOCKET :=
  match o.createSocket with
  | .created sock => if o.converted && o.connected then some sock else none
  | _ => none

/-- A call that comes to its insertion is for a uid that is not in the map. -/
def NewUid (s : Sessions) : SessionsEvent → Prop
  | .register uid _ _ o => o.inserts.isSome = true → s.m_IoDataMap.lookup uid.toInt = none
  | _ => True

/-! ## One call -/

/-- A call that does not come to its insertion leaves everything as it was. -/
theorem regesterNewSocket_cases (uid : INT64) (port : USHORT) (mem : Memory) {o : RegisterOutcome}
    (m : IoDataMap) {openSockets : List SOCKET} (fresh : o.createSocket.Fresh openSockets) :
    (o.inserts = none ∧ regesterNewSocket uid port mem o m openSockets = (none, m, openSockets)) ∨
      ∃ sock, o.inserts = some sock ∧ sock ∉ openSockets ∧
        regesterNewSocket uid port mem o m openSockets =
          (some sock,
            (getHanle (m.assign uid.toInt (newSession mem ⟨uid, port, .called⟩ sock))).2,
            sock :: openSockets) := by
  have closed : ∀ sock, (none, m, (sock :: openSockets).erase sock) =
      ((none, m, openSockets) : Option SOCKET × IoDataMap × List SOCKET) := fun sock => by
    rw [List.erase_cons_head]
  rw [RegisterOutcome.inserts, regesterNewSocket]
  cases h : o.createSocket with
  | noSocket => exact .inl ⟨rfl, rfl⟩
  | bindFailed sock => exact .inl ⟨rfl, closed sock⟩
  | created sock =>
      rw [h] at fresh
      cases o.converted with
      | false => exact .inl ⟨rfl, closed sock⟩
      | true =>
          cases o.connected with
          | false => exact .inl ⟨rfl, closed sock⟩
          | true => exact .inr ⟨sock, rfl, fresh, rfl⟩

/-- The sockets of the entries are the open ones. -/
structure Sessions.Matched (s : Sessions) : Prop where
  nodup : s.openSockets.Nodup
  sockets : ∀ sock, s.m_IoDataMap.entries.countP (fun e => e.2.pSocketData.socket == sock) =
    s.openSockets.count sock
  uids : ∀ e ∈ s.m_IoDataMap.entries, e.2.uid.toInt = e.1
  chains : ∀ chain ∈ s.chains, socketAt s.m_IoDataMap chain.1.toInt = some chain.2

theorem Sessions.Matched.noOrphans {s : Sessions} (inv : s.Matched) : NoOrphans s where
  sockets := by
    intro sock hsock
    rw [inv.sockets sock]
    exact List.count_eq_one_of_mem inv.nodup hsock
  chains := inv.chains

theorem Sessions.Matched.isOpen {s : Sessions} (inv : s.Matched) {e : Int × NetIoData}
    (he : e ∈ s.m_IoDataMap.entries) : e.2.pSocketData.socket ∈ s.openSockets := by
  rw [← List.count_pos_iff, ← inv.sockets]
  exact List.countP_pos_iff.mpr ⟨e, he, beq_self_eq_true _⟩

theorem countP_socket_getHanle (m : IoDataMap) (sock : SOCKET) :
    (getHanle m).2.entries.countP (fun e => e.2.pSocketData.socket == sock) =
      m.entries.countP fun e => e.2.pSocketData.socket == sock := by
  cases getHanle_cases m with
  | inl h => rw [h.2]
  | inr h =>
      obtain ⟨e, _, _, _, marks⟩ := h
      have balance := marks.countP fun e => e.2.pSocketData.socket == sock
      exact Nat.add_right_cancel balance

theorem uids_getHanle {m : IoDataMap} (uids : ∀ e ∈ m.entries, e.2.uid.toInt = e.1) :
    ∀ e ∈ (getHanle m).2.entries, e.2.uid.toInt = e.1 := by
  cases getHanle_cases m with
  | inl h =>
      rw [h.2]
      exact uids
  | inr h =>
      obtain ⟨e, _, _, _, marks⟩ := h
      exact marks.forall_mem uids (uids e marks.mem)

theorem Sessions.Matched.insert {s : Sessions} (inv : s.Matched) {uid : INT64} {sock : SOCKET}
    {d : NetIoData} (absent : s.m_IoDataMap.lookup uid.toInt = none)
    (closed : sock ∉ s.openSockets) (session : d.uid = uid)
    (socket : d.pSocketData.socket = sock) :
    Sessions.Matched
      { s with
        m_IoDataMap := (getHanle (s.m_IoDataMap.assign uid.toInt d)).2
        openSockets := sock :: s.openSockets } where
  nodup := List.nodup_cons.mpr ⟨closed, inv.nodup⟩
  sockets := by
    intro x
    rw [countP_socket_getHanle, (OrderedMap.assign_of_absent d absent).countP_eq,
      List.countP_cons, inv.sockets x, List.count_cons, socket]
  uids := by
    apply uids_getHanle
    intro e he
    cases List.mem_cons.mp ((OrderedMap.assign_of_absent d absent).mem_iff.mp he) with
    | inl h => rw [h, session]
    | inr h => exact inv.uids e h
  chains := by
    intro chain hchain
    have before := inv.chains chain hchain
    have other : chain.1.toInt ≠ uid.toInt := by
      intro hkey
      rw [socketAt, hkey, absent] at before
      cases before
    rw [socketAt_getHanle, socketAt, OrderedMap.lookup_assign_of_ne _ _ other]
    exact before

theorem Sessions.Matched.start {s : Sessions} (inv : s.Matched) {k : Int} {d : NetIoData}
    (found : s.m_IoDataMap.lookup k = some d) :
    Sessions.Matched { s with chains := (d.uid, d.pSocketData.socket) :: s.chains } := by
  refine ⟨inv.nodup, inv.sockets, inv.uids, ?_⟩
  rw [List.forall_mem_cons]
  refine ⟨?_, inv.chains⟩
  have uid := inv.uids _ (OrderedMap.mem_of_lookup found)
  rw [socketAt, uid, found]
  rfl

theorem Sessions.Matched.step {s s' : Sessions} {e : SessionsEvent} (inv : s.Matched)
    (new : NewUid s e) (step : SessionsStep s e s') : s'.Matched := by
  cases e with
  | remove sock =>
      obtain rfl := step
      exact inv
  | checkUid uid =>
      rw [SessionsStep] at step
      cases found : s.m_IoDataMap.lookup uid.toInt with
      | none =>
          rw [found] at step
          obtain rfl := step
          exact inv
      | some d =>
          rw [found] at step
          obtain rfl := step
          exact inv.start found
  | register uid port mem o =>
      obtain ⟨fresh, rfl⟩ := step
      cases regesterNewSocket_cases uid port mem s.m_IoDataMap fresh with
      | inl h =>
          rw [h.2]
          exact inv
      | inr h =>
          obtain ⟨sock, inserts, closed, same⟩ := h
          rw [same]
          exact inv.insert (new (by rw [inserts]; rfl)) closed rfl rfl

/-- A second registration of a uid orphans the socket of the first. -/
theorem newUid_of_noOrphans {s s' : Sessions} {e : SessionsEvent} (inv : s.Matched)
    (step : SessionsStep s e s') (noOrphans : NoOrphans s') : NewUid s e := by
  cases e with
  | remove | checkUid => trivial
  | register uid port mem o =>
      intro inserts
      obtain ⟨fresh, rfl⟩ := step
      cases regesterNewSocket_cases uid port mem s.m_IoDataMap fresh with
      | inl h =>
          rw [h.1] at inserts
          cases inserts
      | inr h =>
          obtain ⟨sock, _, closed, same⟩ := h
          cases s.m_IoDataMap.assign_cases uid.toInt
              (newSession mem ⟨uid, port, .called⟩ sock) with
          | inl h => exact h.1
          | inr h =>
              obtain ⟨old, _, moves⟩ := h
              let lost := old.pSocketData.socket
              have before := inv.sockets lost
              have isOpen : lost ∈ s.openSockets := inv.isOpen moves.mem
              have one : s.openSockets.count lost = 1 := List.count_eq_one_of_mem inv.nodup isOpen
              have ne : (sock == lost) = false := by
                apply beq_false_of_ne
                rintro rfl
                exact closed isOpen
              have balance := moves.countP fun e => e.2.pSocketData.socket == lost
              rw [same] at noOrphans
              have after := noOrphans.sockets lost (List.mem_cons_of_mem _ isOpen)
              change (getHanle _).2.entries.countP _ = 1 at after
              rw [countP_socket_getHanle] at after
              have old' : (old.pSocketData.socket == lost) = true := beq_self_eq_true lost
              have new' : ((newSession mem ⟨uid, port, .called⟩ sock).pSocketData.socket == lost) =
                false := ne
              simp only [old', new', if_true, Bool.false_eq_true, if_false] at balance
              omega

/-- In every run of registrations, removals and started receive chains no session is
lost in any state reached if and only if every call that comes to its insertion is for
a uid that is not in the map. -/
theorem noOrphans_iff {trace : List (Sessions × SessionsEvent)} {s : Sessions}
    (run : Run SessionsStep Sessions.empty trace s) :
    Everywhere NoOrphans trace s ↔ Guarded NewUid trace :=
  run.everywhere_iff_guarded Sessions.Matched (fun _ _ _ inv new step => inv.step new step)
    (fun _ inv => inv.noOrphans) (fun _ _ _ inv step h => newUid_of_noOrphans inv step h)
    ⟨List.nodup_nil, fun _ => rfl, by simp [Sessions.empty, OrderedMap.empty],
      by simp [Sessions.empty]⟩

/-- A call that gets everything it asks for. -/
def succeeding (sock : SOCKET) : RegisterOutcome := ⟨.created sock, true, true, true⟩

/-- After a registration of uid 1 with socket 7. -/
def oneSession : Sessions where
  m_IoDataMap :=
    (regesterNewSocket 1#64 0#16 (fun _ => 0#8) (succeeding 7) .empty []).2.1
  openSockets := [7]
  chains := []

theorem step_oneSession : SessionsStep Sessions.empty
    (.register 1#64 0#16 (fun _ => 0#8) (succeeding 7)) oneSession :=
  ⟨List.not_mem_nil, rfl⟩

/-- A session is registered, receives, and is not removed. -/
theorem noOrphans_oneSession : ∃ trace s, Run SessionsStep Sessions.empty trace s ∧
    s.openSockets = [7] ∧ s.chains = [(1#64, 7)] ∧ Everywhere NoOrphans trace s := by
  let started : Sessions := { oneSession with chains := [(1#64, 7)] }
  have start : SessionsStep oneSession (.checkUid 1#64) started := rfl
  have remove : SessionsStep started (.remove 7) started := rfl
  have run := Run.cons step_oneSession (.cons start (.cons remove (.nil _)))
  refine ⟨_, _, run, rfl, rfl, (noOrphans_iff run).mpr ?_⟩
  simp only [guarded_cons, guarded_nil]
  exact ⟨fun _ => rfl, trivial, trivial, trivial⟩

/-- Uid 1 is registered again with socket 8: socket 7 stays open and is in no entry. -/
theorem not_noOrphans : ¬∀ (trace : List (Sessions × SessionsEvent)) (s : Sessions),
    Run SessionsStep Sessions.empty trace s → Everywhere NoOrphans trace s := by
  intro all
  have fresh : (8 : SOCKET) ∉ oneSession.openSockets := by decide
  have again : SessionsStep oneSession
      (.register 1#64 0#16 (fun _ => 0#8) (succeeding 8)) _ := ⟨fresh, rfl⟩
  have safe := (all _ _ (.cons step_oneSession (.cons again (.nil _)))).2
  have lost := safe.sockets 7 (List.mem_cons_of_mem _ List.mem_cons_self)
  exact absurd lost (by decide)

/-! ## One call among others -/

section

variable {s : Service} {before after : List RegisterCall} {c : RegisterCall}

/-- `regesterNewSocket` is what a call does whose steps nobody interrupts. -/
theorem exists_run_regesterNewSocket (mem : Memory) {o : RegisterOutcome}
    (fresh : o.createSocket.Fresh s.openSockets) :
    ∃ trace t, Run RegisterStep (s.withCall before after c .called) trace t ∧
      t.calls = before ++ c.goTo (.returned
        (regesterNewSocket c.uid c.port mem o s.m_IoDataMap s.openSockets).1) :: after ∧
      t.m_IoDataMap = (regesterNewSocket c.uid c.port mem o s.m_IoDataMap s.openSockets).2.1 ∧
      t.openSockets = (regesterNewSocket c.uid c.port mem o s.m_IoDataMap s.openSockets).2.2 := by
  cases hcreate : o.createSocket with
  | noSocket =>
      have refuse : RegisterStep (s.withCall before after c .called)
          (.socket (c.goTo .called) (.createSocket .noSocket)) _ := step_socket rfl
      rw [regesterNewSocket, hcreate]
      exact ⟨_, _, .cons refuse (.nil _), rfl, rfl, rfl⟩
  | bindFailed sock =>
      rw [hcreate] at fresh
      have refuse : RegisterStep (s.withCall before after c .called)
          (.socket (c.goTo .called) (.createSocket (.bindFailed sock)))
          ({ s with openSockets := (sock :: s.openSockets).erase sock }.withCall before after c
            (.returned none)) := by
        refine step_socket ?_
        rw [openSocket, if_neg fresh]
      rw [regesterNewSocket, hcreate]
      exact ⟨_, _, .cons refuse (.nil _), rfl, rfl, rfl⟩
  | created sock =>
      rw [hcreate] at fresh
      let opened : Service := { s with openSockets := sock :: s.openSockets }
      let closed : Service := { s with openSockets := (sock :: s.openSockets).erase sock }
      rw [regesterNewSocket, hcreate]
      cases o.converted with
      | false =>
          have create : RegisterStep (s.withCall before after c .called)
              (.socket (c.goTo .called) (.createSocket (.created sock)))
              (opened.withCall before after c (.created sock)) := by
            refine step_socket ?_
            rw [openSocket, if_neg fresh]
          have refuse : RegisterStep (opened.withCall before after c (.created sock))
              (.socket (c.goTo (.created sock)) (.inetPton false))
              (closed.withCall before after c (.returned none)) := step_socket rfl
          exact ⟨_, _, .cons create (.cons refuse (.nil _)), rfl, rfl, rfl⟩
      | true =>
          cases o.connected with
          | false =>
              have refuse : RegisterStep (opened.withCall before after c (.converted sock))
                  (.socket (c.goTo (.converted sock)) (.connect false))
                  (closed.withCall before after c (.returned none)) := step_socket rfl
              exact ⟨_, _, (run_converted fresh).append (.cons refuse (.nil _)), rfl, rfl, rfl⟩
          | true =>
              obtain ⟨trace, connect, _⟩ : ∃ trace, Run RegisterStep _ trace
                (opened.withCall before after c (.connected sock)) ∧ _ := run_connected fresh
              exact ⟨_, _, connect.append (run_registered mem o.associated), rfl, rfl, rfl⟩

end

end IocpTest.NetService
