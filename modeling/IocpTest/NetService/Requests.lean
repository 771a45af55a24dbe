import IocpTest.Data.OrderedMap
import IocpTest.NetService.Effects

/-!
# The requests and the map of sessions

`CheckUid`, `ReqJoinTable`, `ReqStartSyncFish` and `ReqBullet` start alike: they look up the
session of a uid. `GetIoDataPointByUid` answers a null pointer for a uid without one. The
first two test for it; the other two go straight on to `pdata->overlapped.hEvent`.

With a session all four do the same: either the event of the session is not signalled and
the request waits, with nothing done, or the request runs on this session and makes one
`WSASend` for it.
-/

namespace IocpTest.NetService

/-- `m_IoDataMap`, with the kernel objects and the calls of each session. -/
abbrev SessionMap := OrderedMap Int Channel

/-- `GetIoDataPointByUid`. -/
def getIoDataPointByUid (m_IoDataMap : SessionMap) (uid : INT64) : Option Channel :=
  m_IoDataMap.lookup uid.toInt

/-- How a request ends: with its result and the sessions after it, in its wait, or with an
access through the null pointer. -/
inductive Outcome where
  | returned (value : Bool) (m_IoDataMap : SessionMap)
  | blocked
  | nullAccess

section

variable (program : List Stmt) (uid : INT64) (accepted : Bool) (m_IoDataMap : SessionMap)

/-- The statements behind the lookup, on the session that `pdata` points to. -/
def onSession (pdata : Channel) : Outcome :=
  match runStmts 0 accepted program pdata with
  | none => .blocked
  | some pdata => .returned ((returns program).getD false) (m_IoDataMap.assign uid.toInt pdata)

/-- `if (pdata == NULL) return false;` and the rest. -/
def withNullTest : Outcome :=
  match getIoDataPointByUid m_IoDataMap uid with
  | none => .returned false m_IoDataMap
  | some pdata => onSession program uid accepted m_IoDataMap pdata

/-- The rest at once. Its first statement reads `pdata->overlapped.hEvent`. -/
def withoutNullTest : Outcome :=
  match getIoDataPointByUid m_IoDataMap uid with
  | none => .nullAccess
  | some pdata => onSession program uid accepted m_IoDataMap pdata

end

/-- The four entry points, each with the message it serializes. -/
inductive EntryPoint where
  | checkUid (msg : Message)
  | reqJoinTable (msg : Message)
  | reqStartSyncFish (msg : Message)
  | reqBullet (msg : Message)

namespace EntryPoint

/-- What the entry point does for a uid, if `WSASend` is accepted or not. -/
def call : EntryPoint → INT64 → Bool → SessionMap → Outcome
  | .checkUid msg => withNullTest (NetService.checkUid msg)
  | .reqJoinTable msg => withNullTest (NetService.reqJoinTable msg)
  | .reqStartSyncFish msg => withoutNullTest (NetService.reqStartSyncFish msg)
  | .reqBullet msg => withoutNullTest (NetService.reqBullet msg)

def program : EntryPoint → List Stmt
  | .checkUid msg => NetService.checkUid msg
  | .reqJoinTable msg => NetService.reqJoinTable msg
  | .reqStartSyncFish msg => NetService.reqStartSyncFish msg
  | .reqBullet msg => NetService.reqBullet msg

/-- `pdata == NULL` is tested. -/
def testsNull : EntryPoint → Bool
  | .checkUid _ => true
  | .reqJoinTable _ => true
  | .reqStartSyncFish _ => false
  | .reqBullet _ => false

def sends : EntryPoint → Call
  | .checkUid _ => .checkUid
  | .reqJoinTable _ => .joinTable
  | .reqStartSyncFish _ => .startSyncFish
  | .reqBullet _ => .bullet

def waits : EntryPoint → Bool
  | .checkUid _ => false
  | _ => true

end EntryPoint

/-- A request is total and touches its own session only. -/
structure Confined (e : EntryPoint) (uid : INT64) (accepted : Bool) (m : SessionMap) : Prop where
  /-- No session is used that is not there. -/
  total : e.call uid accepted m ≠ .nullAccess
  /-- Without a session nothing happens, and `false` is returned. -/
  missing : getIoDataPointByUid m uid = none → e.call uid accepted m = .returned false m
  /-- With one the request waits for its event, or makes one call of `WSASend` for it. -/
  found : ∀ pdata, getIoDataPointByUid m uid = some pdata →
    (e.waits = true ∧ pdata.event = false ∧ e.call uid accepted m = .blocked) ∨
    ∃ m' pdata', e.call uid accepted m = .returned true m' ∧
      getIoDataPointByUid m' uid = some pdata' ∧
      pdata'.posts = pdata.posts ++ [(postOf pdata'.data e.sends, accepted)]
  /-- Every other session stays as it is, and none is added. -/
  others : ∀ value m', e.call uid accepted m = .returned value m' →
    ∀ k, k ≠ uid.toInt → m'.lookup k = m.lookup k

/-! ## On a session -/

section

variable {accepted : Bool} {c : Channel}

/-- `CheckUid` does not wait. -/
theorem runStmts_checkUid_posts (msg : Message) :
    ∃ c', runStmts 0 accepted (checkUid msg) c = some c' ∧
      c'.posts = c.posts ++ [(postOf c'.data .checkUid, accepted)] :=
  ⟨_, rfl, rfl⟩

theorem runStmts_request_posts {call : Call} (send : call.dir = .send) (opt : UINT)
    (recvID : Option UINT) (msgID : Protos) (msg : Message) (signalled : c.event = true) :
    ∃ c', runStmts 0 accepted (request call opt recvID msgID msg) c = some c' ∧
      c'.posts = c.posts ++ [(postOf c'.data call, accepted)] :=
  ⟨_, (runStmts_request_iff send opt recvID msgID msg).mpr ⟨signalled, rfl⟩, rfl⟩

theorem runStmts_request_blocked {call : Call} (send : call.dir = .send) (opt : UINT)
    (recvID : Option UINT) (msgID : Protos) (msg : Message) (lowered : c.event = false) :
    runStmts 0 accepted (request call opt recvID msgID msg) c = none := by
  rw [Option.eq_none_iff_forall_ne_some]
  intro c' h
  obtain ⟨signalled, _⟩ := (runStmts_request_iff send opt recvID msgID msg).mp h
  rw [lowered] at signalled
  cases signalled

end

namespace EntryPoint

variable (e : EntryPoint)

theorem returns_program : returns e.program = some true := by
  cases e <;> rfl

/-- On a session an entry point waits, or makes its call and returns. -/
theorem runStmts_cases (accepted : Bool) (pdata : Channel) :
    (e.waits = true ∧ pdata.event = false ∧ runStmts 0 accepted e.program pdata = none) ∨
      ∃ pdata', runStmts 0 accepted e.program pdata = some pdata' ∧
        pdata'.posts = pdata.posts ++ [(postOf pdata'.data e.sends, accepted)] := by
  cases e with
  | checkUid msg => exact .inr (runStmts_checkUid_posts msg)
  | reqJoinTable msg | reqStartSyncFish msg | reqBullet msg =>
      cases event : pdata.event with
      | false => exact .inl ⟨rfl, rfl, runStmts_request_blocked rfl _ _ _ msg event⟩
      | true => exact .inr (runStmts_request_posts rfl _ _ _ msg event)

section

variable {uid : INT64} {m : SessionMap} (accepted : Bool)

theorem call_found {pdata : Channel} (h : getIoDataPointByUid m uid = some pdata) :
    e.call uid accepted m = onSession e.program uid accepted m pdata := by
  cases e with
  | checkUid msg | reqJoinTable msg => simp only [call, program, withNullTest, h]
  | reqStartSyncFish msg | reqBullet msg => simp only [call, program, withoutNullTest, h]

theorem call_missing (h : getIoDataPointByUid m uid = none) :
    e.call uid accepted m = if e.testsNull then .returned false m else .nullAccess := by
  cases e with
  | checkUid msg | reqJoinTable msg => simp only [call, testsNull, withNullTest, h, if_true]
  | reqStartSyncFish msg | reqBullet msg =>
      simp only [call, testsNull, withoutNullTest, h, Bool.false_eq_true, if_false]

/-- With a session a request is confined to it. -/
theorem confined_of_found {pdata : Channel} (h : getIoDataPointByUid m uid = some pdata) :
    Confined e uid accepted m := by
  have call := e.call_found accepted h
  rw [onSession] at call
  rcases e.runStmts_cases accepted pdata with ⟨waits, event, run⟩ | ⟨pdata', run, posts⟩
  · rw [run] at call
    refine ⟨by rw [call]; simp, fun none => absurd (none.symm.trans h) (by simp), ?_, ?_⟩
    · intro x hx
      obtain rfl := Option.some.inj (h.symm.trans hx)
      exact .inl ⟨waits, event, call⟩
    · intro value m' returned
      rw [call] at returned
      cases returned
  · rw [run, e.returns_program] at call
    refine ⟨by rw [call]; simp, fun none => absurd (none.symm.trans h) (by simp), ?_, ?_⟩
    · intro x hx
      obtain rfl := Option.some.inj (h.symm.trans hx)
      exact .inr ⟨_, pdata', call, OrderedMap.lookup_assign_self m _ pdata', posts⟩
    · intro value m' returned k other
      rw [call] at returned
      cases returned
      exact OrderedMap.lookup_assign_of_ne m pdata' other

/-- Without one it is if the null pointer is tested for. -/
theorem confined_of_missing (h : getIoDataPointByUid m uid = none) (tests : e.testsNull = true) :
    Confined e uid accepted m := by
  have call := e.call_missing accepted h
  rw [tests, if_pos rfl] at call
  refine ⟨by rw [call]; simp, fun _ => call, ?_, ?_⟩
  · intro pdata found
    exact absurd (h.symm.trans found) (by simp)
  · intro value m' returned k _
    rw [call] at returned
    cases returned
    rfl

end

end EntryPoint

/-- Over all maps, uids and entry points: a request is total and touches its own session only
exactly if it tests for the null pointer or the uid has a session. -/
theorem confined_iff (e : EntryPoint) (uid : INT64) (accepted : Bool) (m : SessionMap) :
    Confined e uid accepted m ↔ e.testsNull = true ∨ getIoDataPointByUid m uid ≠ none := by
  cases h : getIoDataPointByUid m uid with
  | some pdata => exact iff_of_true (e.confined_of_found accepted h) (.inr (by simp))
  | none =>
      constructor
      · intro confined
        cases tests : e.testsNull with
        | true => exact .inl rfl
        | false =>
            have call := e.call_missing accepted h
            rw [tests, if_neg Bool.false_ne_true] at call
            exact absurd call confined.total
      · rintro (tests | found)
        · exact e.confined_of_missing accepted h tests
        · exact absurd rfl found

/-- `ReqBullet` before any session is registered. -/
theorem reqBullet_not_confined : ¬∀ (e : EntryPoint) (uid : INT64) (accepted : Bool)
    (m : SessionMap), Confined e uid accepted m := by
  intro all
  exact (all (.reqBullet bulletMessage) 1#64 true .empty).total rfl

end IocpTest.NetService
