import IocpTest.Data.OrderedMap
import IocpTest.Logic.Run
import IocpTest.NetService.Operations

/-!
# Registering sessions

Any number of calls of `RegesterNewSocket` run at once. The insertion into
`m_IoDataMap`, the scan of `GetHanle` and `CreateIoCompletionPort` are steps of their
own, because the lock is held for the insertion only. The scan does not know which
session it is called for: it takes the unregistered one with the greatest uid.

`Service.Inv` ties the map and the open sockets to the calls: every entry was inserted
by one call and has the socket which that call opened, every open socket belongs to
one call that has not returned `INVALID_SOCKET`, and only calls with a session have
changed the map.
-/

namespace IocpTest.NetService

open StepSystem Bytes

/-- `RegState == false` -/
def unregistered (d : NetIoData) : Bool := d.pSocketData.regState == false

/-- `RegState = true` -/
def markRegistered (d : NetIoData) : NetIoData :=
  { d with pSocketData := { d.pSocketData with regState := true } }

@[simp] theorem markRegistered_socket (d : NetIoData) :
    (markRegistered d).pSocketData.socket = d.pSocketData.socket := rfl

@[simp] theorem unregistered_markRegistered (d : NetIoData) :
    unregistered (markRegistered d) = false := rfl

/-- `m_IoDataMap`, in the order of the signed keys. -/
abbrev IoDataMap := OrderedMap Int NetIoData

/-- `GetHanle`: the socket and the map after it. `none` is `INVALID_HANDLE_VALUE`. -/
def getHanle (m_IoDataMap : IoDataMap) : Option SOCKET × IoDataMap :=
  let found := m_IoDataMap.updateLast unregistered markRegistered
  (found.1.map fun d => d.pSocketData.socket, found.2)

/-- `GetHanle` takes the unregistered session with the greatest key, if there is one. -/
theorem getHanle_cases (m : IoDataMap) :
    ((∀ e ∈ m.entries, unregistered e.2 = false) ∧ getHanle m = (none, m)) ∨
      ∃ e, unregistered e.2 = true ∧ (∀ x ∈ m.entries, unregistered x.2 = true → x.1 ≤ e.1) ∧
        (getHanle m).1 = some e.2.pSocketData.socket ∧
        Moves m.entries (getHanle m).2.entries e (e.1, markRegistered e.2) := by
  cases m.updateLast_cases unregistered markRegistered with
  | inl h =>
      refine .inl ⟨h.1, ?_⟩
      rw [getHanle, h.2]
      rfl
  | inr h =>
      obtain ⟨e, hit, last, found, moves⟩ := h
      refine .inr ⟨e, hit, last, ?_, moves⟩
      rw [getHanle, found]
      rfl

/-- The socket of the session under a key. -/
def socketAt (m : IoDataMap) (k : Int) : Option SOCKET :=
  (m.lookup k).map fun d => d.pSocketData.socket

/-- `GetHanle` changes no key and no socket. -/
theorem socketAt_getHanle (m : IoDataMap) : socketAt (getHanle m).2 = socketAt m := by
  funext k
  cases getHanle_cases m with
  | inl h => rw [h.2]
  | inr h =>
      obtain ⟨e, _, _, _, moves⟩ := h
      by_cases hk : k = e.1
      · subst hk
        rw [socketAt, socketAt, OrderedMap.lookup_eq_some_iff.mpr moves.mem,
          OrderedMap.lookup_eq_some_iff.mpr moves.mem_after]
        rfl
      · rw [socketAt, socketAt, OrderedMap.lookup_of_moves moves hk]

/-- The system's part in `CreateSocket`: no socket, a socket that `bind` refuses, or one
that is bound. -/
inductive CreateOutcome where
  | noSocket
  | bindFailed (sock : SOCKET)
  | created (sock : SOCKET)

/-- Where a call of `RegesterNewSocket` stands. `none` is `INVALID_SOCKET`. -/
inductive RegisterPoint where
  | called
  /-- After `CreateSocket`. -/
  | created (sock : SOCKET)
  /-- After `InetPton`. -/
  | converted (sock : SOCKET)
  /-- After `connect`. -/
  | connected (sock : SOCKET)
  /-- After the insertion into the map. -/
  | inserted (sock : SOCKET)
  /-- After `GetHanle`, which has returned `handle`. -/
  | scanned (sock : SOCKET) (handle : Option SOCKET)
  /-- After `CreateIoCompletionPort`. -/
  | registered (sock : SOCKET)
  | returned (result : Option SOCKET)

/-- The statements of `RegesterNewSocket` before the insertion, with their outcomes. -/
inductive SocketEvent where
  | createSocket (outcome : CreateOutcome)
  | inetPton (converted : Bool)
  | connect (connected : Bool)

/-- What such a statement does to the call and to the open sockets. A new socket is not
one of those that are open; a failure closes the call's own. -/
def openSocket (openSockets : List SOCKET) :
    RegisterPoint → SocketEvent → Option (RegisterPoint × List SOCKET)
  | .called, .createSocket .noSocket => some (.returned none, openSockets)
  | .called, .createSocket (.bindFailed sock) =>
      if sock ∈ openSockets then none
      else some (.returned none, (sock :: openSockets).erase sock)
  | .called, .createSocket (.created sock) =>
      if sock ∈ openSockets then none else some (.created sock, sock :: openSockets)
  | .created sock, .inetPton true => some (.converted sock, openSockets)
  | .created sock, .inetPton false => some (.returned none, openSockets.erase sock)
  | .converted sock, .connect true => some (.connected sock, openSockets)
  | .converted sock, .connect false => some (.returned none, openSockets.erase sock)
  | _, _ => none

structure RegisterCall where
  uid : INT64
  port : USHORT
  point : RegisterPoint

namespace RegisterCall

def goTo (c : RegisterCall) (p : RegisterPoint) : RegisterCall := { c with point := p }

@[simp] theorem goTo_uid (c : RegisterCall) (p : RegisterPoint) : (c.goTo p).uid = c.uid := rfl
@[simp] theorem goTo_point (c : RegisterCall) (p : RegisterPoint) : (c.goTo p).point = p := rfl

/-- The key in the map. -/
def key (c : RegisterCall) : Int := c.uid.toInt

@[simp] theorem goTo_key (c : RegisterCall) (p : RegisterPoint) : (c.goTo p).key = c.key := rfl

end RegisterCall

/-- The session that a call inserts. -/
def newSession (mem : Memory) (c : RegisterCall) (sock : SOCKET) : NetIoData :=
  newIoData mem ⟨sock, c.port, false⟩ c.uid

/-- The service with the calls of `RegesterNewSocket` and its completion port. -/
structure Service where
  m_IoDataMap : IoDataMap
  openSockets : List SOCKET
  calls : List RegisterCall
  /-- The sockets whose `CreateIoCompletionPort` succeeded. -/
  associated : List SOCKET
  /-- As history, what `GetHanle` has returned. -/
  handles : List (Option SOCKET)
  /-- As history, what `CreateIoCompletionPort` was called with. -/
  passed : List (Option SOCKET)
  /-- As history, the uids of the calls that have changed the map. -/
  writers : List INT64

/-- No session yet, and a call for each request. -/
def Service.init (requests : List (INT64 × USHORT)) : Service where
  m_IoDataMap := .empty
  openSockets := []
  calls := requests.map fun r => ⟨r.1, r.2, .called⟩
  associated := []
  handles := []
  passed := []
  writers := []

inductive RegisterEvent where
  | socket (c : RegisterCall) (e : SocketEvent)
  /-- `m_IoDataMap[uid] = pIodata`; `mem` is what lies behind the new object. -/
  | insert (c : RegisterCall) (mem : Memory)
  | getHanle (c : RegisterCall)
  /-- `CreateIoCompletionPort`, with its success. -/
  | associate (c : RegisterCall) (success : Bool)
  | return (c : RegisterCall)

def RegisterStep (s : Service) : RegisterEvent → Service → Prop
  | .socket c e, s' =>
      ∃ p openSockets calls, openSocket s.openSockets c.point e = some (p, openSockets) ∧
        Moves s.calls calls c (c.goTo p) ∧
        s' = { s with calls := calls, openSockets := openSockets }
  | .insert c mem, s' =>
      ∃ sock calls, c.point = .connected sock ∧ Moves s.calls calls c (c.goTo (.inserted sock)) ∧
        s' = { s with
          calls := calls
          m_IoDataMap := s.m_IoDataMap.assign c.key (newSession mem c sock)
          writers := c.uid :: s.writers }
  | .getHanle c, s' =>
      ∃ sock calls, c.point = .inserted sock ∧
        Moves s.calls calls c (c.goTo (.scanned sock (getHanle s.m_IoDataMap).1)) ∧
        s' = { s with
          calls := calls
          m_IoDataMap := (getHanle s.m_IoDataMap).2
          handles := (getHanle s.m_IoDataMap).1 :: s.handles
          writers := c.uid :: s.writers }
  | .associate c success, s' =>
      ∃ sock handle calls, c.point = .scanned sock handle ∧
        Moves s.calls calls c (c.goTo (.registered sock)) ∧
        s' = { s with
          calls := calls
          passed := handle :: s.passed
          associated := if success then handle.toList ++ s.associated else s.associated }
  | .return c, s' =>
      ∃ sock calls, c.point = .registered sock ∧
        Moves s.calls calls c (c.goTo (.returned (some sock))) ∧ s' = { s with calls := calls }

/-! ## What a call has done -/

namespace RegisterPoint

/-- The socket that the call has opened and not closed. -/
def holds : RegisterPoint → Option SOCKET
  | .called => none
  | .created sock => some sock
  | .converted sock => some sock
  | .connected sock => some sock
  | .inserted sock => some sock
  | .scanned sock _ => some sock
  | .registered sock => some sock
  | .returned result => result

/-- The socket of the session that the call has inserted into the map. -/
def session : RegisterPoint → Option SOCKET
  | .inserted sock => some sock
  | .scanned sock _ => some sock
  | .registered sock => some sock
  | .returned result => result
  | _ => none

end RegisterPoint

def RegisterCall.holding (sock : SOCKET) (c : RegisterCall) : Bool := c.point.holds == some sock

@[simp] theorem RegisterCall.holding_goTo (sock : SOCKET) (c : RegisterCall) (p : RegisterPoint) :
    (c.goTo p).holding sock = (p.holds == some sock) := rfl

theorem count_open {openSockets : List SOCKET} (sock x : SOCKET) :
    (sock :: openSockets).count x =
      openSockets.count x + (if some sock == some x then 1 else 0) := by
  rw [List.count_cons, Option.some_beq_some]

theorem count_close {openSockets : List SOCKET} {sock : SOCKET} (own : sock ∈ openSockets)
    (x : SOCKET) :
    (openSockets.erase sock).count x + (if some sock == some x then 1 else 0) =
      openSockets.count x := by
  rw [List.count_erase, Option.some_beq_some]
  by_cases h : sock = x
  · subst h
    have pos := List.count_pos_iff.mpr own
    rw [beq_self_eq_true, if_pos rfl]
    omega
  · rw [beq_false_of_ne h, if_neg Bool.false_ne_true]
    omega

/-- The effect of a statement before the insertion: the call's own socket is opened,
kept or closed, and no other. -/
theorem openSocket_spec {openSockets open' : List SOCKET} {p p' : RegisterPoint}
    {e : SocketEvent} (h : openSocket openSockets p e = some (p', open'))
    (own : ∀ sock, p.holds = some sock → sock ∈ openSockets) (nodup : openSockets.Nodup) :
    p.session = none ∧ p'.session = none ∧ open'.Nodup ∧
      ∀ x, open'.count x + (if p.holds == some x then 1 else 0) =
        openSockets.count x + (if p'.holds == some x then 1 else 0) := by
  unfold openSocket at h
  split at h
  · obtain ⟨rfl, rfl⟩ := Prod.mk.inj (Option.some.inj h)
    exact ⟨rfl, rfl, nodup, fun _ => rfl⟩
  · rw [Option.ite_none_left_eq_some] at h
    obtain ⟨rfl, rfl⟩ := Prod.mk.inj (Option.some.inj h.2)
    rw [List.erase_cons_head]
    exact ⟨rfl, rfl, nodup, fun _ => rfl⟩
  · next sock =>
      rw [Option.ite_none_left_eq_some] at h
      obtain ⟨rfl, rfl⟩ := Prod.mk.inj (Option.some.inj h.2)
      exact ⟨rfl, rfl, List.nodup_cons.mpr ⟨h.1, nodup⟩, fun x => count_open sock x⟩
  · obtain ⟨rfl, rfl⟩ := Prod.mk.inj (Option.some.inj h)
    exact ⟨rfl, rfl, nodup, fun _ => rfl⟩
  · next sock =>
      obtain ⟨rfl, rfl⟩ := Prod.mk.inj (Option.some.inj h)
      exact ⟨rfl, rfl, nodup.erase sock, fun x => count_close (own sock rfl) x⟩
  · obtain ⟨rfl, rfl⟩ := Prod.mk.inj (Option.some.inj h)
    exact ⟨rfl, rfl, nodup, fun _ => rfl⟩
  · next sock =>
      obtain ⟨rfl, rfl⟩ := Prod.mk.inj (Option.some.inj h)
      exact ⟨rfl, rfl, nodup.erase sock, fun x => count_close (own sock rfl) x⟩
  · cases h

/-! ## The sockets, the map and the calls -/

/-- The calls are told apart by their keys, and every open socket belongs to one call. -/
structure Service.Owned (s : Service) : Prop where
  distinct : (s.calls.map RegisterCall.key).Nodup
  nodup : s.openSockets.Nodup
  owned : ∀ sock, s.openSockets.count sock = s.calls.countP (RegisterCall.holding sock)

/-- The map holds the session of every call that has inserted one, and no other. -/
structure Service.Placed (s : Service) : Prop where
  session : ∀ c ∈ s.calls, socketAt s.m_IoDataMap c.key = c.point.session
  keys : ∀ e ∈ s.m_IoDataMap.entries, ∃ c ∈ s.calls, c.key = e.1

/-- The map was changed by calls that have a session in it. -/
def Service.Written (s : Service) : Prop :=
  ∀ uid ∈ s.writers, ∃ c ∈ s.calls, c.uid = uid ∧ c.point.session ≠ none

structure Service.Inv (s : Service) : Prop where
  sockets : s.Owned
  map : s.Placed
  writers : s.Written

namespace Service

theorem Inv.init {requests : List (INT64 × USHORT)} (distinct : (requests.map Prod.fst).Nodup) :
    (Service.init requests).Inv := by
  have called : ∀ c ∈ (Service.init requests).calls, c.point = .called := by
    intro c hc
    obtain ⟨r, _, rfl⟩ := List.mem_map.mp hc
    rfl
  have keys : (Service.init requests).calls.map RegisterCall.key =
      (requests.map Prod.fst).map BitVec.toInt := by
    simp [Service.init, RegisterCall.key, Function.comp_def]
  refine ⟨⟨?_, List.nodup_nil, ?_⟩, ⟨?_, by simp [Service.init, OrderedMap.empty]⟩,
    fun _ h => absurd h List.not_mem_nil⟩
  · rw [keys]
    exact distinct.map fun _ _ h => BitVec.eq_of_toInt_eq h
  · intro sock
    refine (List.countP_eq_zero.mpr ?_).symm
    intro c hc
    rw [RegisterCall.holding, called c hc]
    exact Bool.false_ne_true
  · intro c hc
    rw [called c hc]
    rfl

section

variable {s s' : Service} {c : RegisterCall} {p : RegisterPoint}

/-- A call's socket is open. -/
theorem Owned.mem_of_holds (inv : s.Owned) (hc : c ∈ s.calls) {sock : SOCKET}
    (h : c.point.holds = some sock) : sock ∈ s.openSockets := by
  rw [← List.count_pos_iff, inv.owned sock]
  exact List.countP_pos_iff.mpr ⟨c, hc, beq_iff_eq.mpr h⟩

theorem Owned.move (inv : s.Owned) (moves : Moves s.calls s'.calls c (c.goTo p))
    (nodup : s'.openSockets.Nodup)
    (count : ∀ x, s'.openSockets.count x + (if c.point.holds == some x then 1 else 0) =
      s.openSockets.count x + (if p.holds == some x then 1 else 0)) : s'.Owned where
  distinct := by
    rw [moves.map_eq (c.goTo_key p)]
    exact inv.distinct
  nodup := nodup
  owned := by
    intro x
    have balance := moves.countP (RegisterCall.holding x)
    have change := count x
    have before := inv.owned x
    rw [RegisterCall.holding_goTo, RegisterCall.holding] at balance
    omega

/-- A step that neither opens nor closes a socket. -/
theorem Owned.stay (inv : s.Owned) (moves : Moves s.calls s'.calls c (c.goTo p))
    (same : s'.openSockets = s.openSockets) (held : p.holds = c.point.holds) : s'.Owned := by
  refine inv.move moves ?_ ?_
  · rw [same]
    exact inv.nodup
  · intro x
    rw [same, held]

/-- After the step every call has a key that it had before. -/
theorem keys_of_moves (moves : Moves s.calls s'.calls c (c.goTo p)) {k : Int}
    (h : ∃ x ∈ s.calls, x.key = k) : ∃ x ∈ s'.calls, x.key = k := by
  obtain ⟨x, hx, rfl⟩ := h
  have names : x.key ∈ s.calls.map RegisterCall.key := List.mem_map_of_mem hx
  rw [← moves.map_eq (c.goTo_key p)] at names
  exact List.mem_map.mp names

/-- A step that changes no session of the map. -/
theorem Placed.move (inv : s.Placed) (moves : Moves s.calls s'.calls c (c.goTo p))
    (same : socketAt s'.m_IoDataMap = socketAt s.m_IoDataMap)
    (keys : ∀ e ∈ s'.m_IoDataMap.entries, ∃ c ∈ s.calls, c.key = e.1)
    (side : p.session = c.point.session) : s'.Placed := by
  refine ⟨?_, fun e he => keys_of_moves moves (keys e he)⟩
  rw [same]
  refine moves.forall_mem inv.session ?_
  rw [RegisterCall.goTo_key, RegisterCall.goTo_point, side]
  exact inv.session c moves.mem

theorem Placed.insert (inv : s.Placed) (distinct : (s.calls.map RegisterCall.key).Nodup)
    (moves : Moves s.calls s'.calls c (c.goTo p)) {d : NetIoData}
    (assign : s'.m_IoDataMap = s.m_IoDataMap.assign c.key d)
    (session : p.session = some d.pSocketData.socket) : s'.Placed := by
  refine ⟨?_, ?_⟩ <;> rw [assign]
  · intro x hx
    cases moves.mem_cases_of_nodup distinct hx with
    | inl h =>
        rw [h, socketAt, RegisterCall.goTo_key, OrderedMap.lookup_assign_self]
        exact session.symm
    | inr h =>
        rw [socketAt, OrderedMap.lookup_assign_of_ne _ _ h.2]
        exact inv.session x h.1
  · intro e he
    cases OrderedMap.mem_assignEntry he with
    | inl h => exact ⟨_, moves.mem_after, by rw [h]; rfl⟩
    | inr h => exact keys_of_moves moves (inv.keys e h)

/-- A key that is in the map after the scan was there before. -/
theorem Placed.keys_getHanle (inv : s.Placed) :
    ∀ e ∈ (getHanle s.m_IoDataMap).2.entries, ∃ c ∈ s.calls, c.key = e.1 := by
  intro e he
  cases getHanle_cases s.m_IoDataMap with
  | inl h =>
      rw [h.2] at he
      exact inv.keys e he
  | inr h =>
      obtain ⟨x, _, _, _, moves⟩ := h
      cases moves.mem_cases he with
      | inl h =>
          rw [h]
          exact inv.keys x moves.mem
      | inr h => exact inv.keys e h

/-- A call that has a session keeps one, and only such a call changes the map. -/
theorem Written.move (inv : s.Written) (moves : Moves s.calls s'.calls c (c.goTo p))
    (keep : c.point.session ≠ none → p.session ≠ none)
    (new : ∀ uid ∈ s'.writers, uid ∈ s.writers ∨ uid = c.uid ∧ p.session ≠ none) :
    s'.Written := by
  intro uid huid
  cases new uid huid with
  | inr h => exact ⟨_, moves.mem_after, h.1.symm, h.2⟩
  | inl h =>
      obtain ⟨x, hx, rfl, session⟩ := inv uid h
      by_cases same : x = c
      · subst same
        exact ⟨_, moves.mem_after, rfl, keep session⟩
      · exact ⟨x, moves.mem_of_ne hx same, rfl, session⟩

end

/-- A call that has returned `INVALID_SOCKET` has not changed the map. -/
theorem Inv.not_mem_writers {s : Service} (inv : s.Inv) {c : RegisterCall} (hc : c ∈ s.calls)
    (none : c.point.session = none) : c.uid ∉ s.writers := by
  intro h
  obtain ⟨x, hx, same, session⟩ := inv.writers c.uid h
  have key : x.key = c.key := congrArg BitVec.toInt same
  obtain rfl := List.inj_on_of_nodup_map inv.sockets.distinct hx hc key
  exact session none

theorem Inv.step {s s' : Service} {e : RegisterEvent} (inv : s.Inv) (step : RegisterStep s e s') :
    s'.Inv := by
  cases e with
  | socket c e =>
      obtain ⟨p, openSockets, calls, opened, moves, rfl⟩ := step
      have own : ∀ sock, c.point.holds = some sock → sock ∈ s.openSockets := fun sock h =>
        inv.sockets.mem_of_holds moves.mem h
      obtain ⟨before, after, nodup, count⟩ := openSocket_spec opened own inv.sockets.nodup
      exact ⟨inv.sockets.move moves nodup count,
        inv.map.move moves rfl inv.map.keys (after.trans before.symm),
        inv.writers.move moves (fun h => absurd before h) fun _ => .inl⟩
  | insert c mem =>
      obtain ⟨sock, calls, hc, moves, rfl⟩ := step
      have session : (RegisterPoint.inserted sock).session ≠ none := Option.some_ne_none sock
      exact ⟨inv.sockets.stay moves rfl (by rw [hc]; rfl),
        inv.map.insert inv.sockets.distinct moves rfl rfl,
        inv.writers.move moves (fun _ => session) fun _ h =>
          (List.mem_cons.mp h).symm.imp_right fun own => ⟨own, session⟩⟩
  | getHanle c =>
      obtain ⟨sock, calls, hc, moves, rfl⟩ := step
      have session : (RegisterPoint.scanned sock (getHanle s.m_IoDataMap).1).session ≠ none :=
        Option.some_ne_none sock
      exact ⟨inv.sockets.stay moves rfl (by rw [hc]; rfl),
        inv.map.move moves (socketAt_getHanle _) inv.map.keys_getHanle (by rw [hc]; rfl),
        inv.writers.move moves (fun _ => session) fun _ h =>
          (List.mem_cons.mp h).symm.imp_right fun own => ⟨own, session⟩⟩
  | associate c success =>
      obtain ⟨sock, handle, calls, hc, moves, rfl⟩ := step
      exact ⟨inv.sockets.stay moves rfl (by rw [hc]; rfl),
        inv.map.move moves rfl inv.map.keys (by rw [hc]; rfl),
        inv.writers.move moves (fun _ => Option.some_ne_none sock) fun _ => .inl⟩
  | «return» c =>
      obtain ⟨sock, calls, hc, moves, rfl⟩ := step
      exact ⟨inv.sockets.stay moves rfl (by rw [hc]; rfl),
        inv.map.move moves rfl inv.map.keys (by rw [hc]; rfl),
        inv.writers.move moves (fun _ => Option.some_ne_none sock) fun _ => .inl⟩

end Service

/-! ## A call among others -/

section

variable (before after : List RegisterCall) (c : RegisterCall)

/-- The service with the call `c` at a point, between the others. -/
def Service.withCall (s : Service) (p : RegisterPoint) : Service :=
  { s with calls := before ++ c.goTo p :: after }

/-- The service after the insertion of the call's session. -/
def Service.inserting (s : Service) (mem : Memory) (sock : SOCKET) : Service :=
  { s.withCall before after c (.inserted sock) with
    m_IoDataMap := s.m_IoDataMap.assign c.key (newSession mem c sock)
    writers := c.uid :: s.writers }

/-- The service after the scan of a call that has inserted its session. -/
def Service.scanning (s : Service) (sock : SOCKET) : Service :=
  { s.withCall before after c (.scanned sock (getHanle s.m_IoDataMap).1) with
    m_IoDataMap := (getHanle s.m_IoDataMap).2
    handles := (getHanle s.m_IoDataMap).1 :: s.handles
    writers := c.uid :: s.writers }

/-- The service after `CreateIoCompletionPort` on the handle that the scan returned. -/
def Service.associating (s : Service) (sock : SOCKET) (handle : Option SOCKET)
    (success : Bool) : Service :=
  { s.withCall before after c (.registered sock) with
    passed := handle :: s.passed
    associated := if success then handle.toList ++ s.associated else s.associated }

variable {before after c} {s : Service} {sock : SOCKET}

theorem step_socket {p p' : RegisterPoint} {e : SocketEvent} {openSockets : List SOCKET}
    (opened : openSocket s.openSockets p e = some (p', openSockets)) :
    RegisterStep (s.withCall before after c p) (.socket (c.goTo p) e)
      { s.withCall before after c p' with openSockets := openSockets } :=
  ⟨p', openSockets, _, opened, ⟨before, after, rfl, rfl⟩, rfl⟩

theorem step_insert (mem : Memory) :
    RegisterStep (s.withCall before after c (.connected sock))
      (.insert (c.goTo (.connected sock)) mem) (s.inserting before after c mem sock) :=
  ⟨sock, _, rfl, ⟨before, after, rfl, rfl⟩, rfl⟩

theorem step_getHanle :
    RegisterStep (s.withCall before after c (.inserted sock)) (.getHanle (c.goTo (.inserted sock)))
      (s.scanning before after c sock) :=
  ⟨sock, _, rfl, ⟨before, after, rfl, rfl⟩, rfl⟩

theorem step_associate {handle : Option SOCKET} (success : Bool) :
    RegisterStep (s.withCall before after c (.scanned sock handle))
      (.associate (c.goTo (.scanned sock handle)) success)
      (s.associating before after c sock handle success) :=
  ⟨sock, handle, _, rfl, ⟨before, after, rfl, rfl⟩, rfl⟩

theorem step_return :
    RegisterStep (s.withCall before after c (.registered sock))
      (.return (c.goTo (.registered sock)))
      (s.withCall before after c (.returned (some sock))) :=
  ⟨sock, _, rfl, ⟨before, after, rfl, rfl⟩, rfl⟩

/-- `CreateSocket` and `InetPton` succeed. -/
theorem run_converted (fresh : sock ∉ s.openSockets) :
    Run RegisterStep (s.withCall before after c .called)
      [(s.withCall before after c .called,
          .socket (c.goTo .called) (.createSocket (.created sock))),
        ({ s with openSockets := sock :: s.openSockets }.withCall before after c (.created sock),
          .socket (c.goTo (.created sock)) (.inetPton true))]
      ({ s with openSockets := sock :: s.openSockets }.withCall before after c
        (.converted sock)) := by
  have create : RegisterStep (s.withCall before after c .called)
      (.socket (c.goTo .called) (.createSocket (.created sock)))
      ({ s with openSockets := sock :: s.openSockets }.withCall before after c
        (.created sock)) := by
    refine step_socket ?_
    rw [openSocket, if_neg fresh]
  have convert : RegisterStep
      ({ s with openSockets := sock :: s.openSockets }.withCall before after c (.created sock))
      (.socket (c.goTo (.created sock)) (.inetPton true)) _ := step_socket rfl
  exact .cons create (.cons convert (.nil _))

/-- A call that gets everything it asks for comes to its insertion. -/
theorem run_connected (fresh : sock ∉ s.openSockets) :
    ∃ trace, Run RegisterStep (s.withCall before after c .called) trace
        ({ s with openSockets := sock :: s.openSockets }.withCall before after c
          (.connected sock)) ∧
      ∀ taken ∈ trace, ∃ c e, taken.2 = .socket c e := by
  have connect : RegisterStep
      ({ s with openSockets := sock :: s.openSockets }.withCall before after c (.converted sock))
      (.socket (c.goTo (.converted sock)) (.connect true))
      ({ s with openSockets := sock :: s.openSockets }.withCall before after c
        (.connected sock)) := step_socket rfl
  refine ⟨_, (run_converted fresh).append (.cons connect (.nil _)), ?_⟩
  simp

/-- From there it goes on to its return when no other call moves. -/
theorem run_registered (mem : Memory) (success : Bool) :
    let inserted := s.inserting before after c mem sock
    let scanned := inserted.scanning before after c sock
    let handle := (getHanle inserted.m_IoDataMap).1
    let associated := scanned.associating before after c sock handle success
    Run RegisterStep (s.withCall before after c (.connected sock))
      [(s.withCall before after c (.connected sock), .insert (c.goTo (.connected sock)) mem),
        (inserted, .getHanle (c.goTo (.inserted sock))),
        (scanned, .associate (c.goTo (.scanned sock handle)) success),
        (associated, .return (c.goTo (.registered sock)))]
      (associated.withCall before after c (.returned (some sock))) := by
  intro inserted scanned handle associated
  have insert : RegisterStep (s.withCall before after c (.connected sock))
      (.insert (c.goTo (.connected sock)) mem) inserted := step_insert mem
  have scan : RegisterStep (inserted.withCall before after c (.inserted sock))
      (.getHanle (c.goTo (.inserted sock))) scanned := step_getHanle
  have associate : RegisterStep (scanned.withCall before after c (.scanned sock handle))
      (.associate (c.goTo (.scanned sock handle)) success) associated := step_associate success
  have finish : RegisterStep (associated.withCall before after c (.registered sock))
      (.return (c.goTo (.registered sock)))
      (associated.withCall before after c (.returned (some sock))) := step_return
  exact .cons insert (.cons scan (.cons associate (.cons finish (.nil _))))

end

/-! ## Two calls -/

def firstCall : RegisterCall := ⟨1#64, 0#16, .called⟩
def secondCall : RegisterCall := ⟨2#64, 0#16, .called⟩

/-- Both have inserted their sessions, and neither has scanned. -/
def bothInserted : Service :=
  let both : Service := { Service.init [(1#64, 0#16), (2#64, 0#16)] with openSockets := [8, 7] }
  let placed := both.inserting [] [secondCall.goTo (.connected 8)] firstCall (fun _ => 0#8) 7
  placed.inserting [firstCall.goTo (.inserted 7)] [] secondCall (fun _ => 0#8) 8

theorem run_bothInserted : ∃ trace,
    Run RegisterStep (Service.init [(1#64, 0#16), (2#64, 0#16)]) trace bothInserted ∧
      ∀ taken ∈ trace, (∃ c e, taken.2 = .socket c e) ∨ ∃ c mem, taken.2 = .insert c mem := by
  let start : Service := Service.init [(1#64, 0#16), (2#64, 0#16)]
  let opened : Service := { start with openSockets := [7] }
  let both : Service := { start with openSockets := [8, 7] }
  obtain ⟨trace, connect, sockets⟩ : ∃ trace,
      Run RegisterStep (start.withCall [] [secondCall] firstCall .called) trace
        (opened.withCall [] [secondCall] firstCall (.connected 7)) ∧ _ :=
    run_connected List.not_mem_nil
  obtain ⟨trace', connect', sockets'⟩ : ∃ trace,
      Run RegisterStep (opened.withCall [firstCall.goTo (.connected 7)] [] secondCall .called) trace
        (both.withCall [firstCall.goTo (.connected 7)] [] secondCall (.connected 8)) ∧ _ :=
    run_connected (by decide)
  let placed : Service :=
    both.inserting [] [secondCall.goTo (.connected 8)] firstCall (fun _ => 0#8) 7
  have insert : RegisterStep
      (both.withCall [] [secondCall.goTo (.connected 8)] firstCall (.connected 7))
      (.insert (firstCall.goTo (.connected 7)) fun _ => 0#8) placed := step_insert _
  have insert' : RegisterStep
      (placed.withCall [firstCall.goTo (.inserted 7)] [] secondCall (.connected 8))
      (.insert (secondCall.goTo (.connected 8)) fun _ => 0#8) bothInserted := step_insert _
  refine ⟨_, (connect.append connect').append (.cons insert (.cons insert' (.nil _))), ?_⟩
  intro taken member
  rcases List.mem_append.mp member with member | member
  · exact .inl ((List.mem_append.mp member).elim (sockets taken) (sockets' taken))
  · right
    rcases List.mem_pair.mp member with rfl | rfl
    · exact ⟨_, _, rfl⟩
    · exact ⟨_, _, rfl⟩

end IocpTest.NetService
