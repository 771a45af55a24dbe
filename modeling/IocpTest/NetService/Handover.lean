import IocpTest.NetService.Registration

/-!
# Each session is handed to the port once

A call may register the session of another call, but there are always as many
unregistered sessions in the map as calls between their insertion and their scan
(`Counted.balance`). So every scan finds one, and when all calls have returned none is
left. What the scans have returned are the sockets of the registered sessions.
-/

namespace IocpTest.NetService

open StepSystem Bytes

/-- `GetHanle` has never returned `INVALID_HANDLE_VALUE` nor a socket twice; when all
calls have returned every session is registered and was passed to
`CreateIoCompletionPort` once. -/
structure HandedOverOnce (s : Service) : Prop where
  valid : none ∉ s.handles
  once : s.handles.Nodup
  complete : (∀ c ∈ s.calls, ∃ result, c.point = .returned result) →
    ∀ e ∈ s.m_IoDataMap.entries, e.2.pSocketData.regState = true ∧
      s.passed.count (some e.2.pSocketData.socket) = 1

namespace RegisterPoint

/-- Between the insertion and the scan. -/
def isUnscanned : RegisterPoint → Bool
  | .inserted _ => true
  | _ => false

/-- Between the scan, which returned `handle`, and `CreateIoCompletionPort`. -/
def awaits (handle : Option SOCKET) : RegisterPoint → Bool
  | .scanned _ found => found == handle
  | _ => false

theorem holds_of_session {p : RegisterPoint} {sock : SOCKET} (h : p.session = some sock) :
    p.holds = some sock := by
  cases p with
  | inserted | scanned | registered | returned => exact h
  | called | created | converted | connected => cases h

/-- Before its insertion a call is at neither of these points. -/
theorem not_scanning_of_session {p : RegisterPoint} (h : p.session = none) :
    p.isUnscanned = false ∧ ∀ handle, p.awaits handle = false := by
  cases p with
  | inserted | scanned | registered => cases h
  | called | created | converted | connected | returned => exact ⟨rfl, fun _ => rfl⟩

end RegisterPoint

/-- Two entries of the map have two sockets. -/
theorem Service.Inv.entry_eq {s : Service} (inv : s.Inv) {e e' : Int × NetIoData}
    (he : e ∈ s.m_IoDataMap.entries) (he' : e' ∈ s.m_IoDataMap.entries)
    (same : e.2.pSocketData.socket = e'.2.pSocketData.socket) : e = e' := by
  have holder : ∀ x ∈ s.m_IoDataMap.entries, ∃ c ∈ s.calls, c.key = x.1 ∧
      c.holding x.2.pSocketData.socket = true := by
    intro x hx
    obtain ⟨c, hc, key⟩ := inv.map.keys x hx
    have session := inv.map.session c hc
    rw [socketAt, key, OrderedMap.lookup_eq_some_iff.mpr hx] at session
    exact ⟨c, hc, key, beq_iff_eq.mpr (RegisterPoint.holds_of_session session.symm)⟩
  obtain ⟨c, hc, key, holds⟩ := holder e he
  obtain ⟨c', hc', key', holds'⟩ := holder e' he'
  by_cases hkey : e'.1 = e.1
  · have value : e.2 = e'.2 := OrderedMap.eq_of_mem (k := e.1) he (by rw [← hkey]; exact he')
    exact Prod.ext hkey.symm value
  · -- Two calls would hold one open socket.
    have ne : c' ≠ c := by
      rintro rfl
      exact hkey (key'.symm.trans key)
    rw [← same] at holds'
    have two := two_le_countP hc hc' ne holds holds'
    have one := List.nodup_iff_count_le_one.mp inv.sockets.nodup e.2.pSocketData.socket
    rw [inv.sockets.owned] at one
    omega

/-- The registered sessions after the scan are those before it and the one it found. -/
theorem exists_registered_iff {entries entries' : List (Int × NetIoData)} {e : Int × NetIoData}
    (fresh : unregistered e.2 = true) (marks : Moves entries entries' e (e.1, markRegistered e.2))
    (sock : SOCKET) :
    (∃ x ∈ entries', x.2.pSocketData.socket = sock ∧ unregistered x.2 = false) ↔
      e.2.pSocketData.socket = sock ∨
        ∃ x ∈ entries, x.2.pSocketData.socket = sock ∧ unregistered x.2 = false := by
  constructor
  · rintro ⟨x, hx, same, registered⟩
    cases marks.mem_cases hx with
    | inl h =>
        rw [h] at same
        exact .inl same
    | inr h => exact .inr ⟨x, h, same, registered⟩
  · intro h
    cases h with
    | inl same => exact ⟨_, marks.mem_after, same, rfl⟩
    | inr h =>
        obtain ⟨x, hx, same, registered⟩ := h
        have ne : x ≠ e := by
          rintro rfl
          rw [fresh] at registered
          cases registered
        exact ⟨x, marks.mem_of_ne hx ne, same, registered⟩

/-- The scans so far, the sessions and the calls balance. -/
structure Service.Counted (s : Service) : Prop where
  balance : s.m_IoDataMap.entries.countP (fun e => unregistered e.2) =
    s.calls.countP fun c => c.point.isUnscanned
  valid : none ∉ s.handles
  once : s.handles.Nodup
  registered : ∀ sock, some sock ∈ s.handles ↔
    ∃ e ∈ s.m_IoDataMap.entries, e.2.pSocketData.socket = sock ∧ unregistered e.2 = false
  passed : ∀ handle, s.handles.count handle =
    s.passed.count handle + s.calls.countP fun c => c.point.awaits handle

namespace Service.Counted

variable {s s' : Service} {c : RegisterCall} {p : RegisterPoint}

theorem init (requests : List (INT64 × USHORT)) : (Service.init requests).Counted where
  balance := by
    refine (List.countP_eq_zero.mpr ?_).symm
    intro c hc
    obtain ⟨r, _, rfl⟩ := List.mem_map.mp hc
    exact Bool.false_ne_true
  valid := List.not_mem_nil
  once := List.nodup_nil
  registered := by simp [Service.init, OrderedMap.empty]
  passed := by
    intro handle
    refine (List.countP_eq_zero.mpr ?_).symm.trans (Nat.zero_add _).symm
    intro c hc
    obtain ⟨r, _, rfl⟩ := List.mem_map.mp hc
    exact Bool.false_ne_true

/-- A call that moves where nothing is scanned or awaited. -/
theorem move (inv : s.Counted) (moves : Moves s.calls s'.calls c (c.goTo p))
    (map : s'.m_IoDataMap = s.m_IoDataMap) (handles : s'.handles = s.handles)
    (passed : s'.passed = s.passed) (scan : p.isUnscanned = c.point.isUnscanned)
    (wait : ∀ handle, p.awaits handle = c.point.awaits handle) : s'.Counted := by
  refine ⟨?_, by rw [handles]; exact inv.valid, by rw [handles]; exact inv.once,
    by rw [handles, map]; exact inv.registered, ?_⟩
  · have balance := moves.countP fun c => c.point.isUnscanned
    rw [RegisterCall.goTo_point, scan] at balance
    rw [map, inv.balance]
    omega
  · intro handle
    have balance := moves.countP fun c => c.point.awaits handle
    rw [RegisterCall.goTo_point, wait handle] at balance
    rw [handles, passed, inv.passed handle]
    omega

theorem insert {mem : Memory} (inv : s.Counted) (all : s.Inv)
    (step : RegisterStep s (.insert c mem) s') : s'.Counted := by
  obtain ⟨sock, calls, hc, moves, rfl⟩ := step
  have absent : s.m_IoDataMap.lookup c.key = none := by
    have session := all.map.session c moves.mem
    rw [hc] at session
    exact Option.map_eq_none_iff.mp session
  have entries := OrderedMap.assign_of_absent (newSession mem c sock) absent
  refine ⟨?_, inv.valid, inv.once, ?_, ?_⟩
  · have balance := moves.countP fun c => c.point.isUnscanned
    have before := inv.balance
    have new : unregistered (newSession mem c sock) = true := rfl
    rw [hc, RegisterCall.goTo_point] at balance
    change (s.m_IoDataMap.assign c.key (newSession mem c sock)).entries.countP _ =
      calls.countP _
    rw [entries.countP_eq, List.countP_cons, if_pos new, before]
    exact balance.symm
  · intro x
    rw [inv.registered x]
    change _ ↔ ∃ e ∈ (s.m_IoDataMap.assign c.key (newSession mem c sock)).entries, _
    constructor
    · rintro ⟨e, he, hx⟩
      exact ⟨e, entries.mem_iff.mpr (List.mem_cons_of_mem _ he), hx⟩
    · rintro ⟨e, he, hx⟩
      cases List.mem_cons.mp (entries.mem_iff.mp he) with
      | inl h =>
          rw [h] at hx
          cases hx.2
      | inr h => exact ⟨e, h, hx⟩
  · intro handle
    have balance := moves.countP fun c => c.point.awaits handle
    rw [hc, RegisterCall.goTo_point] at balance
    change s.handles.count handle = s.passed.count handle + calls.countP _
    rw [inv.passed handle]
    exact congrArg _ balance.symm

theorem getHanle (inv : s.Counted) (all : s.Inv) (step : RegisterStep s (.getHanle c) s') :
    s'.Counted := by
  obtain ⟨sock, calls, hc, moves, rfl⟩ := step
  have scans := moves.countP fun c => c.point.isUnscanned
  rw [hc, RegisterCall.goTo_point] at scans
  have pos : 0 < s.m_IoDataMap.entries.countP fun e => unregistered e.2 := by
    rw [inv.balance]
    exact List.countP_pos_iff.mpr ⟨c, moves.mem, by rw [hc]; rfl⟩
  cases getHanle_cases s.m_IoDataMap with
  | inl h =>
      rw [List.countP_eq_zero.mpr fun e he => by rw [h.1 e he]; exact Bool.false_ne_true] at pos
      exact absurd pos (Nat.lt_irrefl 0)
  | inr h =>
      obtain ⟨e, fresh, _, found, marks⟩ := h
      -- A socket that was returned before belongs to a registered session.
      have new : some e.2.pSocketData.socket ∉ s.handles := by
        intro again
        obtain ⟨e', he', same, old⟩ := (inv.registered _).mp again
        rw [all.entry_eq he' marks.mem same, fresh] at old
        cases old
      have handles : (NetService.getHanle s.m_IoDataMap).1 :: s.handles =
        some e.2.pSocketData.socket :: s.handles := by rw [found]
      refine ⟨?_, ?_, ?_, ?_, ?_⟩
      · have entries := marks.countP fun e => unregistered e.2
        rw [if_pos fresh, unregistered_markRegistered, if_neg Bool.false_ne_true] at entries
        have before := inv.balance
        have one : (if (RegisterPoint.inserted sock).isUnscanned then 1 else 0) = 1 := rfl
        let handle := (NetService.getHanle s.m_IoDataMap).1
        have zero : (if (RegisterPoint.scanned sock handle).isUnscanned then 1 else 0) = 0 := rfl
        rw [one, zero] at scans
        change (NetService.getHanle s.m_IoDataMap).2.entries.countP _ = calls.countP _
        omega
      · rw [handles]
        simpa using inv.valid
      · rw [handles]
        exact List.nodup_cons.mpr ⟨new, inv.once⟩
      · intro x
        rw [handles, List.mem_cons, inv.registered x, exists_registered_iff fresh marks x,
          Option.some_inj, eq_comm]
      · intro handle
        have balance := moves.countP fun c => c.point.awaits handle
        rw [hc, RegisterCall.goTo_point] at balance
        have zero : (if (RegisterPoint.inserted sock).awaits handle then 1 else 0) = 0 := rfl
        rw [zero, Nat.add_zero] at balance
        change ((NetService.getHanle s.m_IoDataMap).1 :: s.handles).count handle =
          s.passed.count handle + calls.countP _
        rw [List.count_cons, inv.passed handle, balance, Nat.add_assoc]
        rfl

theorem associate {success : Bool} (inv : s.Counted)
    (step : RegisterStep s (.associate c success) s') : s'.Counted := by
  obtain ⟨sock, handle, calls, hc, moves, rfl⟩ := step
  refine ⟨?_, inv.valid, inv.once, inv.registered, ?_⟩
  · have balance := moves.countP fun c => c.point.isUnscanned
    rw [hc, RegisterCall.goTo_point] at balance
    exact inv.balance.trans balance.symm
  · intro x
    have balance := moves.countP fun c => c.point.awaits x
    rw [hc, RegisterCall.goTo_point] at balance
    change s.handles.count x = (handle :: s.passed).count x + calls.countP _
    rw [List.count_cons, inv.passed x]
    have zero : (if (RegisterPoint.registered sock).awaits x then 1 else 0) = 0 := rfl
    have awaits : (RegisterPoint.scanned sock handle).awaits x = (handle == x) := rfl
    rw [zero, awaits] at balance
    omega

theorem step {e : RegisterEvent} (inv : s.Counted) (all : s.Inv) (step : RegisterStep s e s') :
    s'.Counted := by
  cases e with
  | insert c mem => exact inv.insert all step
  | getHanle c => exact inv.getHanle all step
  | associate c success => exact inv.associate step
  | socket c e =>
      obtain ⟨p, openSockets, calls, opened, moves, rfl⟩ := step
      have own : ∀ sock, c.point.holds = some sock → sock ∈ s.openSockets := fun sock h =>
        all.sockets.mem_of_holds moves.mem h
      obtain ⟨before, after, _⟩ := openSocket_spec opened own all.sockets.nodup
      obtain ⟨scan, wait⟩ := RegisterPoint.not_scanning_of_session before
      obtain ⟨scan', wait'⟩ := RegisterPoint.not_scanning_of_session after
      exact inv.move moves rfl rfl rfl (scan'.trans scan.symm)
        fun handle => (wait' handle).trans (wait handle).symm
  | «return» c =>
      obtain ⟨sock, calls, hc, moves, rfl⟩ := step
      exact inv.move moves rfl rfl rfl (by rw [hc]; rfl) fun handle => by rw [hc]; rfl

/-- When all calls have returned none is at a point before that. -/
theorem countP_returned (returned : ∀ c ∈ s.calls, ∃ result, c.point = .returned result)
    {p : RegisterPoint → Bool} (past : ∀ result, p (.returned result) = false) :
    s.calls.countP (fun c => p c.point) = 0 := by
  apply List.countP_eq_zero.mpr
  intro c hc
  obtain ⟨result, h⟩ := returned c hc
  rw [h, past result]
  exact Bool.false_ne_true

theorem handedOver (inv : s.Counted) : HandedOverOnce s where
  valid := inv.valid
  once := inv.once
  complete := by
    intro returned e he
    have unscanned := countP_returned returned (p := RegisterPoint.isUnscanned) fun _ => rfl
    rw [← inv.balance] at unscanned
    have registered : unregistered e.2 = false :=
      Bool.eq_false_of_not_eq_true (List.countP_eq_zero.mp unscanned e he)
    have handed : some e.2.pSocketData.socket ∈ s.handles :=
      (inv.registered _).mpr ⟨e, he, rfl, registered⟩
    have passed := inv.passed (some e.2.pSocketData.socket)
    rw [List.count_eq_one_of_mem inv.once handed] at passed
    have waiting := countP_returned returned
      (p := RegisterPoint.awaits (some e.2.pSocketData.socket)) fun _ => rfl
    rw [waiting, Nat.add_zero] at passed
    refine ⟨?_, passed.symm⟩
    simpa [unregistered] using registered

end Service.Counted

/-- In every run of any number of calls with different uids each session is handed to
the completion port exactly once. -/
theorem handedOverOnce {requests : List (INT64 × USHORT)}
    (distinct : (requests.map Prod.fst).Nodup) {trace : List (Service × RegisterEvent)}
    {s : Service} (run : Run RegisterStep (Service.init requests) trace s) :
    Everywhere HandedOverOnce trace s :=
  run.everywhere_of_invariant (fun s => s.Inv ∧ s.Counted)
    (fun _ _ _ inv step => ⟨inv.1.step step, inv.2.step inv.1 step⟩)
    (fun _ inv => inv.2.handedOver) ⟨.init distinct, .init requests⟩

/-- Calls for the uids 1 and 2 that insert their sessions before either scans: each
registers the session of the other. -/
theorem handedOverOnce_twoCalls : ∃ trace s,
    Run RegisterStep (Service.init [(1#64, 0#16), (2#64, 0#16)]) trace s ∧
      s.handles = [some 7, some 8] ∧
      s.calls.map RegisterCall.point = [.returned (some 7), .returned (some 8)] ∧
      Everywhere HandedOverOnce trace s := by
  let scanned : Service := bothInserted.scanning [] [secondCall.goTo (.inserted 8)] firstCall 7
  let scanned' : Service :=
    scanned.scanning [firstCall.goTo (.scanned 7 (some 8))] [] secondCall 8
  let done : Service :=
    scanned'.associating [] [secondCall.goTo (.scanned 8 (some 7))] firstCall 7 (some 8) true
  let done' : Service :=
    done.associating [firstCall.goTo (.registered 7)] [] secondCall 8 (some 7) true
  have scan : RegisterStep
      (bothInserted.withCall [] [secondCall.goTo (.inserted 8)] firstCall (.inserted 7))
      (.getHanle (firstCall.goTo (.inserted 7))) scanned := step_getHanle
  have scan' : RegisterStep
      (scanned.withCall [firstCall.goTo (.scanned 7 (some 8))] [] secondCall (.inserted 8))
      (.getHanle (secondCall.goTo (.inserted 8))) scanned' := step_getHanle
  have associate : RegisterStep
      (scanned'.withCall [] [secondCall.goTo (.scanned 8 (some 7))] firstCall
        (.scanned 7 (some 8)))
      (.associate (firstCall.goTo (.scanned 7 (some 8))) true) done := step_associate true
  have associate' : RegisterStep
      (done.withCall [firstCall.goTo (.registered 7)] [] secondCall (.scanned 8 (some 7)))
      (.associate (secondCall.goTo (.scanned 8 (some 7))) true) done' := step_associate true
  have finish : RegisterStep
      (done'.withCall [] [secondCall.goTo (.registered 8)] firstCall (.registered 7))
      (.return (firstCall.goTo (.registered 7)))
      (done'.withCall [] [secondCall.goTo (.registered 8)] firstCall (.returned (some 7))) :=
    step_return
  have finish' : RegisterStep
      (done'.withCall [firstCall.goTo (.returned (some 7))] [] secondCall (.registered 8))
      (.return (secondCall.goTo (.registered 8)))
      (done'.withCall [firstCall.goTo (.returned (some 7))] [] secondCall
        (.returned (some 8))) := step_return
  obtain ⟨_, inserted, _⟩ := run_bothInserted
  have run := inserted.append (.cons scan (.cons scan' (.cons associate
    (.cons associate' (.cons finish (.cons finish' (.nil _)))))))
  exact ⟨_, _, run, rfl, rfl, handedOverOnce (by decide) run⟩

end IocpTest.NetService
