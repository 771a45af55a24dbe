import IocpTest.NetService.Registration

/-!
# When a valid socket is a working one

`RegesterNewSocket` returns its own socket, but registers whichever unregistered
session has the greatest uid, and nobody looks at the result of
`CreateIoCompletionPort`. `OwnHandle` is the condition under which its own socket is
the one that is associated: no unregistered session with a greater uid is in the map
when it scans, and the association succeeds. Calls that run one after the other meet
the first half.
-/

namespace IocpTest.NetService

open StepSystem Bytes

/-- A call that has returned a socket finds its session in the map with that socket,
registered, and the socket is associated with the port. A call that has returned
`INVALID_SOCKET` has not changed the map, left no session in it, and no socket open:
every open socket belongs to one call that has not. -/
structure ValidSocketWorks (s : Service) : Prop where
  works : ∀ c ∈ s.calls, ∀ sock, c.point = .returned (some sock) →
    ∃ d, s.m_IoDataMap.lookup c.key = some d ∧ d.pSocketData.socket = sock ∧
      d.pSocketData.regState = true ∧ sock ∈ s.associated
  refused : ∀ c ∈ s.calls, c.point = .returned none →
    c.uid ∉ s.writers ∧ s.m_IoDataMap.lookup c.key = none
  closed : ∀ sock, s.openSockets.count sock = s.calls.countP (RegisterCall.holding sock)

/-- A call scans when no unregistered session has a greater key than its own, and its
`CreateIoCompletionPort` succeeds. -/
def OwnHandle (s : Service) : RegisterEvent → Prop
  | .getHanle c => ∀ e ∈ s.m_IoDataMap.entries, unregistered e.2 = true → e.1 ≤ c.key
  | .associate _ success => success = true
  | _ => True

def Works (s : Service) (c : RegisterCall) : Prop :=
  match c.point with
  | .inserted _ => ∃ d, s.m_IoDataMap.lookup c.key = some d ∧ unregistered d = true
  | .scanned sock handle =>
      handle = some sock ∧ ∃ d, s.m_IoDataMap.lookup c.key = some d ∧ unregistered d = false
  | .registered sock =>
      sock ∈ s.associated ∧ ∃ d, s.m_IoDataMap.lookup c.key = some d ∧ unregistered d = false
  | .returned (some sock) =>
      sock ∈ s.associated ∧ ∃ d, s.m_IoDataMap.lookup c.key = some d ∧ unregistered d = false
  | _ => True

section

variable {s s' : Service} {c : RegisterCall}

theorem works_of_session {c : RegisterCall} (h : c.point.session = none) : Works s c := by
  rw [Works]
  cases hp : c.point with
  | called | created | converted | connected => trivial
  | inserted | scanned | registered =>
      rw [hp] at h
      cases h
  | returned result =>
      rw [hp] at h
      obtain rfl : result = none := h
      trivial

theorem Works.stay (h : Works s c) (same : s'.m_IoDataMap.lookup c.key = s.m_IoDataMap.lookup c.key)
    (more : ∀ x ∈ s.associated, x ∈ s'.associated) : Works s' c := by
  rw [Works] at h ⊢
  cases hp : c.point with
  | called | created | converted | connected => trivial
  | inserted =>
      rw [hp] at h
      simpa only [same] using h
  | scanned =>
      rw [hp] at h
      simpa only [same] using h
  | registered sock =>
      rw [hp] at h
      exact ⟨more sock h.1, by simpa only [same] using h.2⟩
  | returned result =>
      rw [hp] at h
      cases result with
      | none => trivial
      | some sock => exact ⟨more sock h.1, by simpa only [same] using h.2⟩

/-- Under the condition the scan of a call finds the session that the call inserted. -/
theorem getHanle_own {sock : SOCKET} {d : NetIoData} (all : s.Inv) (hc : c ∈ s.calls)
    (point : c.point = .inserted sock) (own : OwnHandle s (.getHanle c))
    (mine : s.m_IoDataMap.lookup c.key = some d) (fresh : unregistered d = true) :
    (getHanle s.m_IoDataMap).1 = some sock ∧
      Moves s.m_IoDataMap.entries (getHanle s.m_IoDataMap).2.entries (c.key, d)
        (c.key, markRegistered d) := by
  have here : (c.key, d) ∈ s.m_IoDataMap.entries := OrderedMap.mem_of_lookup mine
  have socket : some d.pSocketData.socket = some sock := by
    have session := all.map.session c hc
    rwa [socketAt, mine, point] at session
  cases getHanle_cases s.m_IoDataMap with
  | inl h =>
      have none := h.1 _ here
      rw [fresh] at none
      cases none
  | inr h =>
      obtain ⟨⟨k, d'⟩, hit, last, found, marks⟩ := h
      obtain rfl : k = c.key := le_antisymm (own _ marks.mem hit) (last _ here fresh)
      obtain rfl := OrderedMap.eq_of_mem here marks.mem
      exact ⟨found.trans socket, marks⟩

theorem works_of_moves {p : RegisterPoint} (distinct : (s.calls.map RegisterCall.key).Nodup)
    (moves : Moves s.calls s'.calls c (c.goTo p)) (works : ∀ c ∈ s.calls, Works s c)
    (mine : Works s' (c.goTo p))
    (others : ∀ k, k ≠ c.key → s'.m_IoDataMap.lookup k = s.m_IoDataMap.lookup k)
    (more : ∀ x ∈ s.associated, x ∈ s'.associated) : ∀ c ∈ s'.calls, Works s' c := by
  intro x hx
  cases moves.mem_cases_of_nodup distinct hx with
  | inl h =>
      rw [h]
      exact mine
  | inr h => exact (works x h.1).stay (others x.key h.2) more

theorem works_step {e : RegisterEvent} (all : s.Inv) (works : ∀ c ∈ s.calls, Works s c)
    (own : OwnHandle s e) (step : RegisterStep s e s') : ∀ c ∈ s'.calls, Works s' c := by
  have distinct := all.sockets.distinct
  cases e with
  | socket c e =>
      obtain ⟨p, openSockets, calls, opened, moves, rfl⟩ := step
      have held : ∀ sock, c.point.holds = some sock → sock ∈ s.openSockets := fun sock h =>
        all.sockets.mem_of_holds moves.mem h
      obtain ⟨_, none, _⟩ := openSocket_spec opened held all.sockets.nodup
      exact works_of_moves distinct moves works (works_of_session none) (fun _ _ => rfl)
        fun _ => id
  | insert c mem =>
      obtain ⟨sock, calls, hc, moves, rfl⟩ := step
      apply works_of_moves distinct moves works
      · exact ⟨_, OrderedMap.lookup_assign_self _ _ _, rfl⟩
      · exact fun _ h => OrderedMap.lookup_assign_of_ne _ _ h
      · exact fun _ => id
  | getHanle c =>
      obtain ⟨sock, calls, hc, moves, rfl⟩ := step
      have mine := works c moves.mem
      rw [Works, hc] at mine
      obtain ⟨d, hd, fresh⟩ := mine
      obtain ⟨found, marks⟩ := getHanle_own all moves.mem hc own hd fresh
      apply works_of_moves distinct moves works
      · exact ⟨found, _, OrderedMap.lookup_eq_some_iff.mpr marks.mem_after, rfl⟩
      · exact fun _ h => OrderedMap.lookup_of_moves marks h
      · exact fun _ => id
  | associate c success =>
      obtain ⟨sock, handle, calls, hc, moves, rfl⟩ := step
      have mine := works c moves.mem
      rw [Works, hc] at mine
      obtain ⟨rfl, d, hd, marked⟩ := mine
      obtain rfl : success = true := own
      apply works_of_moves distinct moves works
      · exact ⟨List.mem_cons_self, d, hd, marked⟩
      · exact fun _ _ => rfl
      · exact fun _ => List.mem_cons_of_mem _
  | «return» c =>
      obtain ⟨sock, calls, hc, moves, rfl⟩ := step
      have mine := works c moves.mem
      rw [Works, hc] at mine
      exact works_of_moves distinct moves works mine (fun _ _ => rfl) fun _ => id

theorem validSocketWorks_of_works (all : s.Inv) (works : ∀ c ∈ s.calls, Works s c) :
    ValidSocketWorks s where
  works := by
    intro c hc sock point
    have session := all.map.session c hc
    have mine := works c hc
    rw [Works, point] at mine
    obtain ⟨associated, d, hd, marked⟩ := mine
    rw [socketAt, hd, point] at session
    refine ⟨d, hd, Option.some.inj session, ?_, associated⟩
    simpa [unregistered] using marked
  refused := by
    intro c hc point
    have none : c.point.session = none := by rw [point]; rfl
    have session := (all.map.session c hc).trans none
    exact ⟨all.not_mem_writers hc none, Option.map_eq_none_iff.mp session⟩
  closed := all.sockets.owned

end

/-- In every run of any number of calls with different uids in which every scan meets
its own session and every association succeeds, a valid socket is a working one. -/
theorem validSocketWorks_of_ownHandle {requests : List (INT64 × USHORT)}
    (distinct : (requests.map Prod.fst).Nodup) {trace : List (Service × RegisterEvent)}
    {s : Service} (run : Run RegisterStep (Service.init requests) trace s)
    (own : Guarded OwnHandle trace) : Everywhere ValidSocketWorks trace s := by
  have called : ∀ c ∈ (Service.init requests).calls, Works (Service.init requests) c := by
    intro c hc
    obtain ⟨r, _, rfl⟩ := List.mem_map.mp hc
    trivial
  have keep : ∀ s e t, (s.Inv ∧ ∀ c ∈ s.calls, Works s c) → OwnHandle s e →
      RegisterStep s e t → t.Inv ∧ ∀ c ∈ t.calls, Works t c := fun _ _ _ inv ok step =>
    ⟨inv.1.step step, works_step inv.1 inv.2 ok step⟩
  exact run.everywhere_of_guarded _ keep (fun _ inv => validSocketWorks_of_works inv.1 inv.2)
    ⟨.init distinct, called⟩ own

/-- After a scan that meets another session the call can go on to return its socket
while its own session is unregistered. -/
theorem exists_broken_of_getHanle {s s' : Service} {c : RegisterCall}
    (works : ∀ c ∈ s.calls, Works s c) (step : RegisterStep s (.getHanle c) s')
    (other : ¬OwnHandle s (.getHanle c)) :
    ∃ trace t, Run RegisterStep s' trace t ∧ ¬ValidSocketWorks t := by
  obtain ⟨sock, calls, hc, moves, rfl⟩ := step
  have mine := works c moves.mem
  rw [Works, hc] at mine
  obtain ⟨d, hd, fresh⟩ := mine
  have left : (getHanle s.m_IoDataMap).2.lookup c.key = some d := by
    cases getHanle_cases s.m_IoDataMap with
    | inl h => rw [h.2, hd]
    | inr h =>
        obtain ⟨e, _, last, _, marks⟩ := h
        have ne : c.key ≠ e.1 := by
          intro same
          apply other
          intro x hx hit
          rw [same]
          exact last x hx hit
        rw [OrderedMap.lookup_of_moves marks ne, hd]
  let handle := (getHanle s.m_IoDataMap).1
  let scanned : Service :=
    { s with
      calls := calls
      m_IoDataMap := (getHanle s.m_IoDataMap).2
      handles := handle :: s.handles
      writers := c.uid :: s.writers }
  obtain ⟨calls₁, moves₁⟩ := exists_moves moves.mem_after (c.goTo (.registered sock))
  obtain ⟨calls₂, moves₂⟩ := exists_moves moves₁.mem_after (c.goTo (.returned (some sock)))
  let associated : Service :=
    { scanned with
      calls := calls₁
      passed := handle :: s.passed
      associated := handle.toList ++ s.associated }
  have associate : RegisterStep scanned (.associate (c.goTo (.scanned sock handle)) true)
      associated := ⟨sock, handle, calls₁, rfl, moves₁, rfl⟩
  have finish : RegisterStep associated (.return (c.goTo (.registered sock)))
      { associated with calls := calls₂ } := ⟨sock, calls₂, rfl, moves₂, rfl⟩
  refine ⟨_, _, .cons associate (.cons finish (.nil _)), fun valid => ?_⟩
  obtain ⟨d', hd', _, marked, _⟩ := valid.works _ moves₂.mem_after sock rfl
  obtain rfl : d = d' := Option.some.inj (left.symm.trans hd')
  rw [unregistered, marked] at fresh
  cases fresh

/-! ## Two calls, and one -/

/-- Calls for the uids 1 and 2 insert their sessions before either scans. The one for uid 2
scans first, and finds its own; then so does the other. -/
theorem validSocketWorks_twoCalls : ∃ trace s,
    Run RegisterStep (Service.init [(1#64, 0#16), (2#64, 0#16)]) trace s ∧
      s.handles = [some 7, some 8] ∧
      s.calls.map RegisterCall.point = [.returned (some 7), .returned (some 8)] ∧
      Everywhere ValidSocketWorks trace s := by
  let scanned' : Service := bothInserted.scanning [firstCall.goTo (.inserted 7)] [] secondCall 8
  let scanned : Service :=
    scanned'.scanning [] [secondCall.goTo (.scanned 8 (some 8))] firstCall 7
  let done : Service :=
    scanned.associating [] [secondCall.goTo (.scanned 8 (some 8))] firstCall 7 (some 7) true
  let done' : Service :=
    done.associating [firstCall.goTo (.registered 7)] [] secondCall 8 (some 8) true
  have scan' : RegisterStep
      (bothInserted.withCall [firstCall.goTo (.inserted 7)] [] secondCall (.inserted 8))
      (.getHanle (secondCall.goTo (.inserted 8))) scanned' := step_getHanle
  have scan : RegisterStep
      (scanned'.withCall [] [secondCall.goTo (.scanned 8 (some 8))] firstCall (.inserted 7))
      (.getHanle (firstCall.goTo (.inserted 7))) scanned := step_getHanle
  have associate : RegisterStep
      (scanned.withCall [] [secondCall.goTo (.scanned 8 (some 8))] firstCall
        (.scanned 7 (some 7)))
      (.associate (firstCall.goTo (.scanned 7 (some 7))) true) done := step_associate true
  have associate' : RegisterStep
      (done.withCall [firstCall.goTo (.registered 7)] [] secondCall (.scanned 8 (some 8)))
      (.associate (secondCall.goTo (.scanned 8 (some 8))) true) done' := step_associate true
  have finish : RegisterStep
      (done'.withCall [] [secondCall.goTo (.registered 8)] firstCall (.registered 7))
      (.return (firstCall.goTo (.registered 7)))
      (done'.withCall [] [secondCall.goTo (.registered 8)] firstCall (.returned (some 7))) :=
    step_return
  have finish' : RegisterStep
      (done'.withCall [firstCall.goTo (.returned (some 7))] [] secondCall (.registered 8))
      (.return (secondCall.goTo (.registered 8)))
      (done'.withCall [firstCall.goTo (.returned (some 7))] [] secondCall
        (.returned (some 8))) := step_return
  obtain ⟨trace, inserted, before⟩ := run_bothInserted
  have run := inserted.append (.cons scan' (.cons scan (.cons associate
    (.cons associate' (.cons finish (.cons finish' (.nil _)))))))
  refine ⟨_, _, run, rfl, rfl, validSocketWorks_of_ownHandle (by decide) run ?_⟩
  have first : Guarded OwnHandle trace := by
    intro taken member
    rcases before taken member with ⟨c, e, same⟩ | ⟨c, mem, same⟩ <;> rw [same] <;> trivial
  have own' : OwnHandle bothInserted (.getHanle (secondCall.goTo (.inserted 8))) :=
    List.forall_mem_cons.mpr ⟨fun _ => by decide,
      List.forall_mem_singleton.mpr fun _ => Int.le_refl _⟩
  have own : OwnHandle scanned' (.getHanle (firstCall.goTo (.inserted 7))) :=
    List.forall_mem_cons.mpr ⟨fun _ => Int.le_refl _,
      List.forall_mem_singleton.mpr fun hit => by cases hit⟩
  simp only [guarded_append, guarded_cons, guarded_nil]
  exact ⟨first, own', own, rfl, rfl, trivial, trivial, trivial⟩

/-- A call for uid 1 opens socket 7 and returns it, though the association fails. -/
theorem run_oneCall : ∃ trace s, Run RegisterStep (Service.init [(1#64, 0#16)]) trace s ∧
    s.calls = [⟨1#64, 0#16, .returned (some 7)⟩] ∧ s.associated = [] := by
  let start : Service := Service.init [(1#64, 0#16)]
  let opened : Service := { start with openSockets := [7] }
  let call : RegisterCall := ⟨1#64, 0#16, .called⟩
  obtain ⟨_, connect, _⟩ : ∃ trace,
      Run RegisterStep (start.withCall [] [] call .called) trace
        (opened.withCall [] [] call (.connected 7)) ∧ _ := run_connected List.not_mem_nil
  exact ⟨_, _, connect.append (run_registered (fun _ => 0#8) false), rfl, rfl⟩

/-- The call returns its socket all the same. -/
theorem not_validSocketWorks : ¬∀ (requests : List (INT64 × USHORT))
    (trace : List (Service × RegisterEvent)) (s : Service), (requests.map Prod.fst).Nodup →
      Run RegisterStep (Service.init requests) trace s → Everywhere ValidSocketWorks trace s := by
  intro all
  obtain ⟨trace, s, run, calls, associated⟩ := run_oneCall
  have safe := (all _ trace s (by decide) run).2
  have here : ⟨1#64, 0#16, .returned (some 7)⟩ ∈ s.calls := by
    rw [calls]
    exact List.mem_singleton_self _
  obtain ⟨_, _, _, _, h⟩ := safe.works _ here 7 rfl
  rw [associated] at h
  cases h

end IocpTest.NetService
