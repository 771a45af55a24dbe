import IocpTest.NetService.Traffic

/-!
# Numbers of outgoing requests

A request takes the next number before it sends and returns `true` whatever the
send said. While every `WSASend` is accepted the numbers on the wire are
`2, 3, 4, …`; one that fails at once has already used its number and is not
reported to the caller.
-/

namespace IocpTest.NetService

open StepSystem

/-- A call made under one of the three request codes. -/
def Post.isRequest (p : Post) : Bool := p.opt == 2#32 || p.opt == 3#32 || p.opt == 4#32

/-- The sequence numbers of the requests that `WSASend` accepted, in order. -/
def acceptedNumbers (c : Channel) : List Nat :=
  (c.posts.filter fun p => p.2 && p.1.isRequest).map fun p => (numberOf p.1).toNat

/-- A request whose `WSASend` failed changes no counter and reports failure. -/
def FailureRollsBack (c : Channel) : Traffic → Prop
  | .datagram _ _ _ => True
  | .call r accepted => accepted = false → ∀ c', TrafficStep c (.call r accepted) c' →
      c'.data.sendID = c.data.sendID ∧ c'.data.recvID = c.data.recvID ∧
        returns r.program = some false

/-- The numbers on the wire are gap-free from 2 and failures leave no trace. -/
def GapFree (trace : List (Channel × Traffic)) (c : Channel) : Prop :=
  acceptedNumbers c = List.range' 2 (acceptedNumbers c).length ∧ Guarded FailureRollsBack trace

/-- `WSASend` accepts the packet of a request. -/
def SendAccepted (_ : Channel) : Traffic → Prop
  | .datagram _ _ _ => True
  | .call _ accepted => accepted = true

def Traffic.isCall : Traffic → Bool
  | .datagram _ _ _ => false
  | .call _ _ => true

def callCount (trace : List (Channel × Traffic)) : Nat := trace.countP fun taken => taken.2.isCall

theorem Request.returns_program (r : Request) : returns r.program = some true := by
  cases r <;> rfl

/-- A failed request cannot roll back: it reports success. -/
theorem sendAccepted_of_failureRollsBack {c : Channel} {e : Traffic}
    (h : FailureRollsBack c e) : SendAccepted c e := by
  cases e with
  | datagram mem length accepted => trivial
  | call r accepted =>
      cases accepted with
      | true => rfl
      | false =>
          obtain ⟨_, _, hreturns⟩ := h rfl _ (TrafficStep.call_iff.mpr rfl)
          rw [r.returns_program] at hreturns
          cases hreturns

theorem failureRollsBack_of_sendAccepted {c : Channel} {e : Traffic}
    (h : SendAccepted c e) : FailureRollsBack c e := by
  cases e with
  | datagram mem length accepted => trivial
  | call r accepted =>
      intro hfailed
      obtain rfl : accepted = true := h
      cases hfailed

/-- The numbers `2, …, k + 1` are on the wire and `sendID` is the last of them. -/
structure NumberedUpTo (c : Channel) (k : Nat) : Prop where
  numbers : acceptedNumbers c = List.range' 2 k
  sendID : c.data.sendID.toNat = k + 1

theorem NumberedUpTo.datagram {c c' : Channel} {k : Nat} {mem : Bytes.Memory} {length : Nat}
    {accepted : Bool} (h : NumberedUpTo c k)
    (step : TrafficStep c (.datagram mem length accepted) c') : NumberedUpTo c' k := by
  obtain ⟨t, _, rfl⟩ := TrafficStep.datagram_iff.mp step
  refine ⟨?_, h.sendID⟩
  have hanswer : Post.isRequest (postOf (answerData t.recvID { c.data with buffer := mem }) .answer)
      = false := rfl
  rw [← h.numbers, acceptedNumbers, acceptedNumbers, Channel.finish, List.filter_append,
    List.filter_singleton, hanswer, Bool.and_false]
  exact congrArg _ (List.append_nil _)

theorem NumberedUpTo.call {c c' : Channel} {k : Nat} {r : Request} (h : NumberedUpTo c k)
    (few : k + 2 < 2 ^ 32) (step : TrafficStep c (.call r true) c') :
    NumberedUpTo c' (k + 1) := by
  obtain rfl := TrafficStep.call_iff.mp step
  have hnext : (c.data.sendID + 1).toNat = k + 2 := by
    rw [toNat_add_one (by rw [h.sendID]; exact few), h.sendID]
  have hrequest : (postOf (r.result c.data) r.call).isRequest = true := by
    cases r <;> rfl
  have hnumber : numberOf (postOf (r.result c.data) r.call) = c.data.sendID + 1 :=
    numberOf_request r.call_dir _ _ _ _ _
  refine ⟨?_, hnext⟩
  rw [acceptedNumbers, Channel.finish, List.filter_append, List.filter_singleton, hrequest,
    Bool.and_true, cond_true, List.map_append, List.map_singleton, hnumber, hnext,
    List.range'_concat, ← h.numbers, Nat.one_mul, Nat.add_comm k 2]
  rfl

/-- Accepted sends keep the numbering, as long as `sendID` does not wrap. -/
theorem NumberedUpTo.run {s c : Channel} {trace : List (Channel × Traffic)}
    (run : Run TrafficStep s trace c) {k : Nat} (h : NumberedUpTo s k)
    (guard : Guarded SendAccepted trace) (few : k + callCount trace + 1 < 2 ^ 32) :
    ∃ n, NumberedUpTo c n := by
  induction run generalizing k with
  | nil => exact ⟨k, h⟩
  | @cons s t c e trace first _ ih =>
      obtain ⟨hok, hrest⟩ := guarded_cons.mp guard
      cases e with
      | datagram mem length accepted =>
          have hcount : callCount ((s, .datagram mem length accepted) :: trace) =
              callCount trace := by simp [callCount, Traffic.isCall]
          rw [hcount] at few
          exact ih (h.datagram first) hrest few
      | call r accepted =>
          obtain rfl : accepted = true := hok
          have hcount : callCount ((s, .call r true) :: trace) = callCount trace + 1 := by
            simp [callCount, Traffic.isCall]
          rw [hcount] at few
          exact ih (h.call (by omega) first) hrest (by omega)

/-- Over every run from `sendID = 1` with fewer than `2 ^ 32 - 2` requests, the
outgoing numbers are gap-free and failures are rolled back and reported if and
only if no `WSASend` of a request fails at once. -/
theorem gapFree_iff_sendAccepted (d : NetIoData) {trace : List (Channel × Traffic)}
    {c : Channel} (run : Run TrafficStep (registered { d with sendID := 1#32 }) trace c)
    (few : callCount trace < 2 ^ 32 - 2) :
    GapFree trace c ↔ Guarded SendAccepted trace := by
  constructor
  · rintro ⟨_, rollsBack⟩ taken htaken
    exact sendAccepted_of_failureRollsBack (rollsBack taken htaken)
  · intro guard
    have start : NumberedUpTo (registered { d with sendID := 1#32 }) 0 := ⟨rfl, rfl⟩
    obtain ⟨n, hn⟩ := NumberedUpTo.run run start guard (by omega)
    refine ⟨?_, fun taken htaken => failureRollsBack_of_sendAccepted (guard taken htaken)⟩
    rw [hn.numbers, List.length_range']

/-- Two accepted requests carry the numbers 2 and 3. -/
theorem gapFree_two_requests : ∃ trace c,
    Run TrafficStep (registered { freshIoData 1#64 with sendID := 1#32 }) trace c ∧
      trace.map Prod.snd = [.call (.joinTable joinRoomMessage) true,
        .call (.startSyncFish startSyncFishMessage) true] ∧ GapFree trace c := by
  have run := Run.cons (e := Traffic.call (.joinTable joinRoomMessage) true)
    (s := registered { freshIoData 1#64 with sendID := 1#32 }) (TrafficStep.call_iff.mpr rfl)
    (.cons (e := Traffic.call (.startSyncFish startSyncFishMessage) true)
      (TrafficStep.call_iff.mpr rfl) (.nil _))
  refine ⟨_, _, run, rfl, (gapFree_iff_sendAccepted _ run (by decide)).mpr ?_⟩
  simp [SendAccepted]

/-- A request whose send fails at once has used its number and returns `true`. -/
theorem failed_request_not_gapFree : ¬∀ (d : NetIoData) (trace : List (Channel × Traffic))
    (c : Channel), Run TrafficStep (registered { d with sendID := 1#32 }) trace c →
      callCount trace < 2 ^ 32 - 2 → GapFree trace c := by
  intro all
  have run := Run.cons (e := Traffic.call (.joinTable joinRoomMessage) false)
    (s := registered { freshIoData 1#64 with sendID := 1#32 })
    (TrafficStep.call_iff.mpr rfl) (.nil _)
  have gapFree := all (freshIoData 1#64) _ _ run (by decide)
  obtain ⟨hsendID, _, _⟩ :=
    gapFree.2 _ List.mem_cons_self rfl _ (TrafficStep.call_iff.mpr rfl)
  exact absurd hsendID (by decide)

end IocpTest.NetService
