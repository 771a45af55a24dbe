import IocpTest.NetService.Traffic
import IocpTest.NetService.Truncation

/-!
# Cumulative acknowledgement

`recvID` is the receiver of a cumulative acknowledgement: it may name only what
arrived in order, and it may never go back. What arrived is read off the datagrams
themselves: `Exchange` keeps the complete records that their bytes lay out, whether
or not `RecvCmdData` goes through them.

`ReqBullet` publishes `recvID` and leaves it alone, and `RecvCmdData` moves it over
complete records only when the datagram settles. `ReqJoinTable` and `ReqStartSyncFish`
assign it outright: among runs of settled datagrams the law holds exactly when what
they assign has arrived and is not behind (`ackSafe_iff_assignsArrived`).
-/

namespace IocpTest.NetService

open Bytes StepSystem Consecutive

/-- A session and, as history, the complete records of the datagrams that arrived. -/
structure Exchange where
  chan : Channel
  arrived : List CmdRecord

inductive ExchangeEvent where
  /-- A datagram in the cleared buffer, handled by `RecvCmdData` with any length. -/
  | datagram (d : List Byte) (behind : Memory) (length : Nat) (accepted : Bool)
  | call (r : Request) (accepted : Bool)

def ExchangeStep (s : Exchange) : ExchangeEvent → Exchange → Prop
  | .datagram d behind length accepted, s' =>
      d.length ≤ iocpBufferSize ∧
        TrafficStep s.chan (.datagram (received behind iocpBufferSize d) length accepted) s'.chan ∧
        ∃ records, LaidOut (d.drop 4) records ∧ s'.arrived = s.arrived ++ records
  | .call r accepted, s' =>
      TrafficStep s.chan (.call r accepted) s'.chan ∧ s'.arrived = s.arrived

/-- The sequence numbers of the records that arrived so far, in order. -/
def Exchange.numbers (s : Exchange) : List Nat := s.arrived.map fun r => r.serSendID.toNat

/-- The acknowledgements placed in outgoing packets so far, in order. -/
def acks (c : Channel) : List Nat := c.posts.map fun p => (ackOf p.1).toNat

/-- No acknowledgement exceeds the greatest `n` such that the records `2, …, n`
have arrived in order, and acknowledgements never decrease. -/
structure AckSafe (s : Exchange) : Prop where
  inOrder : ∀ a ∈ acks s.chan, ∀ n, IsGreatest {n | InOrder 1 s.numbers n} n → a ≤ n
  monotone : (acks s.chan).Pairwise (· ≤ ·)

/-- A datagram has nothing but complete records to acknowledge. -/
def SettledDatagram (s : Exchange) : ExchangeEvent → Prop
  | .datagram d _ length _ => length ≤ 4 ∨ Settles d length 4 s.chan.data.recvID
  | .call _ _ => True

/-- An assignment to `recvID` assigns a number that has arrived in order and does not lie
behind. -/
def AssignsArrived (s : Exchange) : ExchangeEvent → Prop
  | .datagram _ _ _ _ => True
  | .call r _ => ∀ value, r.assigned = some value →
      s.chan.data.recvID.toNat ≤ value.toNat ∧ InOrder 1 s.numbers value.toNat

/-! ## The fold over small numbers -/

theorem acknowledge_toNat {r x : UINT} (h : r.toNat + 1 < 2 ^ 32) :
    (acknowledge r x).toNat = observe r.toNat x.toNat := by
  have hnext := toNat_add_one h
  by_cases hx : x = r + 1
  · rw [acknowledge, if_pos hx, hx, hnext, observe_next]
  · have hne : x.toNat ≠ r.toNat + 1 := by
      rw [← hnext]
      exact mt BitVec.eq_of_toNat_eq hx
    rw [acknowledge, if_neg hx, observe_of_ne hne]

/-- On sequence numbers below `2 ^ 31` the code's fold does not wrap. -/
theorem foldl_acknowledge_toNat {r : UINT} {xs : List UINT} (hr : r.toNat < 2 ^ 31)
    (hxs : ∀ x ∈ xs, x.toNat < 2 ^ 31) :
    (xs.foldl acknowledge r).toNat = lastInOrder r.toNat (xs.map BitVec.toNat) ∧
      (xs.foldl acknowledge r).toNat < 2 ^ 31 := by
  induction xs generalizing r with
  | nil => exact ⟨rfl, hr⟩
  | cons x xs ih =>
      have hstep := acknowledge_toNat (x := x) (show r.toNat + 1 < 2 ^ 32 by omega)
      have hx : x.toNat < 2 ^ 31 := hxs x List.mem_cons_self
      have hr' : (acknowledge r x).toNat < 2 ^ 31 := by
        rw [acknowledge]
        split
        · exact hx
        · exact hr
      rw [List.foldl_cons, List.map_cons, lastInOrder_cons, ← hstep]
      exact ih hr' fun y hy => hxs y (List.mem_cons_of_mem x hy)

/-! ## One datagram -/

/-- The bytes of a datagram behind an offset, as they lie in the buffer. -/
theorem slice_received (behind : Memory) (capacity : Nat) (d : List Byte) (p : Nat) :
    slice (received behind capacity d) p (d.length - p) = d.drop p := by
  by_cases inside : p ≤ d.length
  · have whole : slice (received behind capacity d) 0 (p + (d.length - p)) = d := by
      rw [Nat.add_sub_cancel' inside]
      exact slice_memcpy _ 0 d
    rw [slice_add, Nat.zero_add] at whole
    have front := congrArg (List.drop p) whole
    rwa [List.drop_left' (slice_length _ _ _)] at front
  · rw [List.drop_eq_nil_of_le (by omega), Nat.sub_eq_zero_of_le (by omega)]
    rfl

section

variable {d : List Byte} {behind : Memory} {capacity : Nat} {records : List CmdRecord}

/-- A complete record at an offset is the first one laid out there. -/
theorem LaidOut.recordAt {p : Nat} (laid : LaidOut (d.drop p) records)
    (hid : readUINT (received behind capacity d) p ≠ 0#32)
    (hmsg : readUSHORT (received behind capacity d) (p + 4) ≠ 0#16)
    (complete : p + 8 + (readUSHORT (received behind capacity d) (p + 6)).toNat ≤ d.length) :
    ∃ r tail, r.serSendID = readUINT (received behind capacity d) p ∧ records = r :: tail ∧
      LaidOut (d.drop (p + 8 + (readUSHORT (received behind capacity d) (p + 6)).toNat))
        tail := by
  let size := (readUSHORT (received behind capacity d) (p + 6)).toNat
  have window := slice_recordAt hid hmsg (d.length - (p + 8 + size))
  rw [slice_received, show 8 + size + (d.length - (p + 8 + size)) = d.length - p by omega,
    slice_received] at window
  rw [window] at laid
  obtain ⟨tail, first, rest⟩ := laid.behind
  exact ⟨_, tail, rfl, first, rest⟩

/-- A loop that acknowledges complete records only acknowledges the first few of those laid
out. -/
theorem fold_of_guarded {length : Nat} {s t : Cursor} {trace : List (Cursor × CmdHeader)}
    (run : Run (PassStep (received behind capacity d) length) s trace t)
    (guard : Guarded (AcknowledgedInside d.length) trace)
    (laid : LaidOut (d.drop s.pBuff) records) :
    ∃ k, t.recvID = ((records.take k).map CmdRecord.serSendID).foldl acknowledge s.recvID := by
  induction run generalizing records with
  | nil => exact ⟨0, rfl⟩
  | @cons s _ _ _ _ first _ ih =>
      obtain ⟨_, ⟨hid, hmsg, _⟩, rfl, rfl⟩ := passStep_iff.mp first
      obtain ⟨inside, guard⟩ := guarded_cons.mp guard
      rw [Cursor.next_recvID] at ih
      by_cases complete :
          s.pBuff + 8 + (readUSHORT (received behind capacity d) (s.pBuff + 6)).toNat ≤ d.length
      · obtain ⟨r, tail, number, rfl, rest⟩ := laid.recordAt hid hmsg complete
        rw [← Cursor.next_pBuff] at rest
        obtain ⟨k, fold⟩ := ih guard rest
        refine ⟨k + 1, ?_⟩
        rw [fold, List.take_succ_cons, List.map_cons, List.foldl_cons, number]
        rfl
      · -- Behind a record that is cut off there is nothing more to acknowledge.
        have skipped : acknowledge s.recvID (s.header (received behind capacity d)).serSendID =
            s.recvID := by
          by_contra moved
          exact complete (inside moved)
        have nothing : LaidOut (d.drop (s.next (received behind capacity d)).pBuff) [] := by
          apply laidOut_of_short
          rw [Cursor.next_pBuff, List.length_drop]
          omega
        obtain ⟨k, fold⟩ := ih guard nothing
        rw [skipped, List.take_nil] at fold
        exact ⟨0, fold⟩

end

/-! ## The invariant -/

/-- All sequence numbers received are below `2 ^ 31`. -/
def SmallNumbers (s : Exchange) : Prop := ∀ x ∈ s.numbers, x < 2 ^ 31

structure AckInv (s : Exchange) : Prop where
  recvID_le : s.chan.data.recvID.toNat ≤ lastInOrder 1 s.numbers
  recvID_lt : s.chan.data.recvID.toNat < 2 ^ 31
  published : s.chan.data.recvID.toNat = 1 ∨ s.chan.data.recvID.toNat ∈ acks s.chan
  acks_le : ∀ a ∈ acks s.chan, a ≤ s.chan.data.recvID.toNat
  monotone : (acks s.chan).Pairwise (· ≤ ·)

theorem AckInv.safe {s : Exchange} (inv : AckInv s) : AckSafe s where
  inOrder := by
    intro a ha n hn
    rw [hn.unique (lastInOrder_isGreatest 1 s.numbers)]
    exact Nat.le_trans (inv.acks_le a ha) inv.recvID_le
  monotone := inv.monotone

/-- Publishing a `recvID` that has arrived in order and does not lie behind keeps the
invariant. -/
theorem AckInv.publish {s s' : Exchange} (inv : AckInv s)
    (ahead : s.chan.data.recvID.toNat ≤ s'.chan.data.recvID.toNat)
    (arrived : s'.chan.data.recvID.toNat ≤ lastInOrder 1 s'.numbers)
    (small : s'.chan.data.recvID.toNat < 2 ^ 31)
    (hacks : acks s'.chan = acks s.chan ++ [s'.chan.data.recvID.toNat]) : AckInv s' := by
  have old : ∀ a ∈ acks s.chan, a ≤ s'.chan.data.recvID.toNat :=
    fun a ha => Nat.le_trans (inv.acks_le a ha) ahead
  refine ⟨arrived, small, .inr ?_, ?_, ?_⟩
  · rw [hacks]
    exact List.mem_append_right _ List.mem_cons_self
  · intro a ha
    rw [hacks, List.mem_append, List.mem_singleton] at ha
    rcases ha with ha | rfl
    · exact old a ha
    · exact Nat.le_refl _
  · rw [hacks, List.pairwise_append]
    refine ⟨inv.monotone, List.pairwise_singleton _ _, ?_⟩
    intro a ha b hb
    rw [List.mem_singleton.mp hb]
    exact old a ha

theorem acks_finish {c : Channel} {d : NetIoData} {call : Call} {accepted : Bool} :
    acks (c.finish d call accepted) = acks c ++ [(ackOf (postOf d call)).toNat] := by
  simp [acks, Channel.finish]

theorem ExchangeStep.small_back {s s' : Exchange} {e : ExchangeEvent} (step : ExchangeStep s e s')
    (small : SmallNumbers s') : SmallNumbers s := by
  cases e with
  | datagram d behind length accepted =>
      obtain ⟨_, _, records, _, arrived⟩ := step
      intro x hx
      apply small
      rw [Exchange.numbers, arrived, List.map_append]
      exact List.mem_append_left _ hx
  | call r accepted =>
      intro x hx
      apply small
      rw [Exchange.numbers, step.2]
      exact hx

/-- The scan of a settled datagram acknowledges the first few of the records laid out. -/
theorem fold_of_settled {d : List Byte} {behind : Memory} {length : Nat} {recvID : UINT}
    {t : Cursor} {records : List CmdRecord} (fits : d.length ≤ iocpBufferSize)
    (settled : length ≤ 4 ∨ Settles d length 4 recvID)
    (scan : Scans (received behind iocpBufferSize d) recvID length t)
    (laid : LaidOut (d.drop 4) records) :
    ∃ k, t.recvID = ((records.take k).map CmdRecord.serSendID).foldl acknowledge recvID := by
  by_cases long : 4 < length
  · have settles := settled.resolve_left (by omega)
    obtain ⟨trace, u, passes, _, same⟩ := scan.passes long
    obtain ⟨k, fold⟩ :=
      fold_of_guarded passes.2 (guarded_of_settles settles fits passes.2 rfl rfl) laid
    exact ⟨k, same.trans fold⟩
  · have short : length ≤ 4 := Nat.not_lt.mp long
    obtain ⟨u, scan', _, same⟩ : ∃ u,
        Scans (received behind iocpBufferSize d) recvID length u ∧ u.visited = [] ∧
          u.recvID = recvID := exists_scans_of_le short
    rw [scan.unique scan']
    exact ⟨0, same⟩

/-- A settled datagram keeps the invariant. -/
theorem AckInv.datagram {s s' : Exchange} {d : List Byte} {behind : Memory} {length : Nat}
    {accepted : Bool} (inv : AckInv s)
    (settled : SettledDatagram s (.datagram d behind length accepted))
    (step : ExchangeStep s (.datagram d behind length accepted) s') (small : SmallNumbers s') :
    AckInv s' := by
  obtain ⟨fits, handled, records, laid, arrived⟩ := step
  obtain ⟨t, scan, chan⟩ := TrafficStep.datagram_iff.mp handled
  obtain ⟨k, fold⟩ := fold_of_settled fits settled scan laid
  have here : s'.chan.data.recvID = t.recvID := by rw [chan]; rfl
  have numbers : s'.numbers = s.numbers ++ records.map fun r => r.serSendID.toNat := by
    rw [Exchange.numbers, arrived, List.map_append]
    rfl
  have few : ∀ x ∈ (records.take k).map CmdRecord.serSendID, x.toNat < 2 ^ 31 := by
    intro x hx
    obtain ⟨r, hr, rfl⟩ := List.mem_map.mp hx
    apply small
    rw [numbers]
    exact List.mem_append_right _ (List.mem_map.mpr ⟨r, List.mem_of_mem_take hr, rfl⟩)
  obtain ⟨value, lt⟩ := foldl_acknowledge_toNat inv.recvID_lt few
  have front : ((records.take k).map CmdRecord.serSendID).map BitVec.toNat =
      (records.map fun r => r.serSendID.toNat).take k := by
    rw [List.map_map, ← List.map_take]
    rfl
  rw [← fold] at value lt
  rw [front] at value
  refine inv.publish ?_ ?_ ?_ ?_
  · rw [here, value]
    exact le_lastInOrder _ _
  · calc s'.chan.data.recvID.toNat
        = lastInOrder s.chan.data.recvID.toNat
            ((records.map fun r => r.serSendID.toNat).take k) := by rw [here, value]
      _ ≤ lastInOrder s.chan.data.recvID.toNat (records.map fun r => r.serSendID.toNat) :=
          lastInOrder_take_le _ _ _
      _ ≤ lastInOrder (lastInOrder 1 s.numbers) (records.map fun r => r.serSendID.toNat) :=
          lastInOrder_mono inv.recvID_le _
      _ = lastInOrder 1 s'.numbers := by rw [numbers, lastInOrder_append]
  · rw [here]
    exact lt
  · rw [here, chan, acks_finish, ackOf_answer, resetAnswer_setAnswer lt]
    rfl

/-- The acknowledgement of a request, for numbers that leave the flag alone. -/
theorem acks_request {c : Channel} {r : Request} {accepted : Bool}
    (small : (r.assigned.getD c.data.recvID).toNat < 2 ^ 31) :
    acks (c.ready.finish (r.result c.data) r.call accepted) =
      acks c ++ [(r.assigned.getD c.data.recvID).toNat] := by
  rw [acks_finish, Request.result, ackOf_request r.call_dir, resetAnswer_setAnswer small]
  rfl

theorem Request.assigned_small {r : Request} {value : UINT} (assigned : r.assigned = some value) :
    1 < value.toNat ∧ value.toNat < 2 ^ 31 := by
  cases r <;> cases assigned <;> decide

/-- A request keeps the invariant when it assigns what has arrived. -/
theorem AckInv.call {s s' : Exchange} {r : Request} {accepted : Bool} (inv : AckInv s)
    (turn : AssignsArrived s (.call r accepted)) (step : ExchangeStep s (.call r accepted) s') :
    AckInv s' := by
  obtain ⟨handled, arrived⟩ := step
  have chan := TrafficStep.call_iff.mp handled
  have numbers : s'.numbers = s.numbers := by rw [Exchange.numbers, arrived]; rfl
  have here : s'.chan.data.recvID = r.assigned.getD s.chan.data.recvID := by rw [chan]; rfl
  have value : s.chan.data.recvID.toNat ≤ s'.chan.data.recvID.toNat ∧
      s'.chan.data.recvID.toNat ≤ lastInOrder 1 s.numbers ∧
      s'.chan.data.recvID.toNat < 2 ^ 31 := by
    rw [here]
    cases hassigned : r.assigned with
    | none => exact ⟨Nat.le_refl _, inv.recvID_le, inv.recvID_lt⟩
    | some value =>
        obtain ⟨ahead, inOrder⟩ := turn value hassigned
        exact ⟨ahead, le_lastInOrder_of_inOrder inOrder, (Request.assigned_small hassigned).2⟩
  obtain ⟨ahead, le, small⟩ := value
  refine inv.publish ahead (numbers ▸ le) small ?_
  rw [here] at small
  rw [here, chan, acks_request small]

/-- A request after which the law still holds did assign what has arrived. -/
theorem AckInv.turn_of_safe {s s' : Exchange} {e : ExchangeEvent} (inv : AckInv s)
    (step : ExchangeStep s e s') (safe : AckSafe s') : AssignsArrived s e := by
  cases e with
  | datagram d behind length accepted => trivial
  | call r accepted =>
      intro value hassigned
      obtain ⟨handled, arrived⟩ := step
      have chan := TrafficStep.call_iff.mp handled
      have numbers : s'.numbers = s.numbers := by rw [Exchange.numbers, arrived]; rfl
      obtain ⟨positive, small⟩ := Request.assigned_small hassigned
      have hacks : acks s'.chan = acks s.chan ++ [value.toNat] := by
        have value_eq : r.assigned.getD s.chan.data.recvID = value := by
          rw [hassigned, Option.getD_some]
        rw [chan, acks_request (by rw [value_eq]; exact small), value_eq]
      constructor
      · cases inv.published with
        | inl first => omega
        | inr member =>
            have monotone := safe.monotone
            rw [hacks, List.pairwise_append] at monotone
            exact monotone.2.2 _ member _ List.mem_cons_self
      · have le : value.toNat ≤ lastInOrder 1 s.numbers := by
          apply safe.inOrder value.toNat
          · rw [hacks]
            exact List.mem_append_right _ List.mem_cons_self
          · rw [numbers]
            exact lastInOrder_isGreatest 1 s.numbers
        exact (lastInOrder_inOrder 1 s.numbers).anti (Nat.le_of_lt positive) le

/-- A session with nothing received or sent. -/
def Exchange.start (d : NetIoData) : Exchange := ⟨registered { d with recvID := 1#32 }, []⟩

theorem AckInv.start (d : NetIoData) : AckInv (.start d) where
  recvID_le := Nat.le_refl 1
  recvID_lt := show (1#32 : UINT).toNat < 2 ^ 31 by decide
  published := .inl rfl
  acks_le := by simp [acks, Exchange.start, registered]
  monotone := by simp [acks, Exchange.start, registered]

/-- Over every run of settled datagrams from `recvID = 1`, the acknowledgements are safe in
every state reached if and only if `ReqJoinTable` is only called when message 2, and
`ReqStartSyncFish` when messages 2 and 3, have arrived in order and `recvID` is not yet
beyond. -/
theorem ackSafe_iff_assignsArrived (d : NetIoData) {trace : List (Exchange × ExchangeEvent)}
    {s : Exchange} (run : Run ExchangeStep (.start d) trace s) (small : SmallNumbers s)
    (settled : Guarded SettledDatagram trace) :
    Everywhere AckSafe trace s ↔ Guarded AssignsArrived trace := by
  have restricted := (run.strengthen settled).restrict SmallNumbers
    (fun _ _ _ step => step.1.small_back) small
  apply restricted.everywhere_iff_guarded AckInv ?_ ?_ ?_ (AckInv.start d)
  · rintro s e t inv turn ⟨⟨step, hsettled⟩, hsmall⟩
    cases e with
    | datagram d behind length accepted => exact inv.datagram hsettled step hsmall
    | call r accepted => exact inv.call turn step
  · exact fun s inv => inv.safe
  · rintro s e t inv ⟨⟨step, _⟩, _⟩ safe
    exact inv.turn_of_safe step safe

/-- Message 3 of the server, without a body. `RecvCmdData` takes it for the end of the
packet. -/
def emptyRecord : CmdRecord := { connectFinish with serSendID := 3#32, serSendID_ne := by decide }

/-- A datagram with message 3 alone. -/
def emptyPacket : List Byte := packetBytes 0x80000001#32 [emptyRecord]

/-- The history stands in nobody's way: whatever bytes arrive, they lay out some records. -/
theorem exists_exchangeStep {s : Exchange} {c : Channel} {d : List Byte} {behind : Memory}
    {length : Nat} {accepted : Bool} (fits : d.length ≤ iocpBufferSize)
    (handled : TrafficStep s.chan (.datagram (received behind iocpBufferSize d) length accepted)
      c) :
    ∃ s', ExchangeStep s (.datagram d behind length accepted) s' ∧ s'.chan = c := by
  obtain ⟨records, laid⟩ := exists_laidOut (d.drop 4)
  exact ⟨⟨c, s.arrived ++ records⟩, ⟨fits, handled, records, laid, rfl⟩, rfl⟩

/-- Any datagram whose scan ends can be handled. -/
theorem exists_datagram {s : Exchange} {d : List Byte} {behind : Memory} {length : Nat}
    {t : Cursor} {records : List CmdRecord} (accepted : Bool) (fits : d.length ≤ iocpBufferSize)
    (scan : Scans (received behind iocpBufferSize d) s.chan.data.recvID length t)
    (laid : LaidOut (d.drop 4) records) :
    ∃ s', ExchangeStep s (.datagram d behind length accepted) s' ∧
      s'.chan.data.recvID = t.recvID ∧ s'.arrived = s.arrived ++ records ∧
      acks s'.chan = acks s.chan ++ [(resetAnswer (setAnswer t.recvID)).toNat] := by
  obtain ⟨c, handled, number, sent⟩ : ∃ c, TrafficStep s.chan
      (.datagram (received behind iocpBufferSize d) length accepted) c ∧
        c.data.recvID = t.recvID ∧
        acks c = acks s.chan ++ [(resetAnswer (setAnswer t.recvID)).toNat] := by
    refine ⟨_, TrafficStep.datagram_iff.mpr ⟨t, scan, rfl⟩, rfl, ?_⟩
    rw [acks_finish, ackOf_answer]
    rfl
  exact ⟨⟨c, s.arrived ++ records⟩, ⟨fits, handled, records, laid, rfl⟩, number, rfl, sent⟩

theorem exists_request (s : Exchange) (r : Request) (accepted : Bool) :
    ∃ s', ExchangeStep s (.call r accepted) s' ∧
      s'.chan.data.recvID = r.assigned.getD s.chan.data.recvID ∧ s'.arrived = s.arrived ∧
      acks s'.chan = acks s.chan ++
        [(resetAnswer (setAnswer (r.assigned.getD s.chan.data.recvID))).toNat] := by
  obtain ⟨c, handled, number, sent⟩ : ∃ c, TrafficStep s.chan (.call r accepted) c ∧
      c.data.recvID = r.assigned.getD s.chan.data.recvID ∧
      acks c = acks s.chan ++
        [(resetAnswer (setAnswer (r.assigned.getD s.chan.data.recvID))).toNat] := by
    refine ⟨_, TrafficStep.call_iff.mpr rfl, rfl, ?_⟩
    rw [acks_finish, Request.result, ackOf_request r.call_dir]
    rfl
  exact ⟨⟨c, s.arrived⟩, ⟨handled, rfl⟩, number, rfl, sent⟩

/-- The intended order keeps the law: joining behind message 2, and starting the sync behind
message 3, which has arrived although `RecvCmdData` did not count it. -/
theorem ackSafe_join_and_sync : ∃ trace s, Run ExchangeStep (.start (freshIoData 1#64)) trace s ∧
    trace.map Prod.snd =
      [.datagram joinablePacket (fun _ => 0#8) iocpBufferSize true,
        .call (.joinTable joinRoomMessage) true,
        .datagram emptyPacket (fun _ => 0#8) iocpBufferSize true,
        .call (.startSyncFish startSyncFishMessage) true] ∧
      acks s.chan = [2, 2, 2, 3] ∧ Everywhere AckSafe trace s := by
  have first : ∃ t, Scans (received (fun _ => 0#8) iocpBufferSize joinablePacket) 1#32
      iocpBufferSize t ∧ t.recvID = 2#32 := ⟨_, ⟨2, rfl⟩, rfl⟩
  have second : ∃ t, Scans (received (fun _ => 0#8) iocpBufferSize emptyPacket) 2#32
      iocpBufferSize t ∧ t.recvID = 2#32 := ⟨_, ⟨1, rfl⟩, rfl⟩
  obtain ⟨t, scan, number⟩ := first
  obtain ⟨u, scan', number'⟩ := second
  obtain ⟨s₁, handled, recvID, arrived, sent⟩ := exists_datagram (s := .start (freshIoData 1#64))
    true (by decide) scan (laidOut_packet _ [joinableRecord])
  rw [number] at recvID sent
  obtain ⟨s₂, join, recvID₂, arrived₂, sent₂⟩ :=
    exists_request s₁ (.joinTable joinRoomMessage) true
  rw [arrived] at arrived₂
  rw [sent, recvID] at sent₂
  have two : s₂.chan.data.recvID = 2#32 := recvID₂
  obtain ⟨s₃, handled', recvID₃, arrived₃, sent₃⟩ := exists_datagram (s := s₂)
    (d := emptyPacket) true (by decide) (two ▸ scan') (laidOut_packet _ [emptyRecord])
  rw [arrived₂] at arrived₃
  rw [sent₂, number'] at sent₃
  rw [number'] at recvID₃
  obtain ⟨s₄, sync, recvID₄, arrived₄, sent₄⟩ :=
    exists_request s₃ (.startSyncFish startSyncFishMessage) true
  rw [arrived₃] at arrived₄
  rw [sent₃, recvID₃] at sent₄
  have run := Run.cons handled (.cons join (.cons handled' (.cons sync (.nil s₄))))
  refine ⟨_, _, run, rfl, sent₄, (ackSafe_iff_assignsArrived _ run ?_ ?_).mpr ?_⟩
  · rw [SmallNumbers, Exchange.numbers, arrived₄]
    decide
  · have whole : Settles joinablePacket iocpBufferSize 4 1#32 :=
      .record (by decide) (.noSendID (by decide) (by decide))
    have empty : Settles emptyPacket iocpBufferSize 4 2#32 := .noLength (by decide) (by decide)
    simp only [guarded_cons, guarded_nil, SettledDatagram, two, and_true, true_and]
    exact ⟨.inr whole, .inr empty⟩
  · simp only [guarded_cons, guarded_nil, AssignsArrived, Exchange.numbers, arrived, arrived₃,
      recvID, recvID₃, and_true, true_and]
    constructor
    · rintro value ⟨⟩
      exact ⟨by decide, by decide, by decide⟩
    · rintro value ⟨⟩
      exact ⟨by decide, by decide, by decide⟩

/-- Joining before message 2 acknowledges it unseen. -/
theorem join_first_not_ackSafe : ¬∀ (d : NetIoData) (trace : List (Exchange × ExchangeEvent))
    (s : Exchange), Run ExchangeStep (.start d) trace s → SmallNumbers s →
      Everywhere AckSafe trace s := by
  intro all
  obtain ⟨s, join, _, arrived, sent⟩ :=
    exists_request (.start (freshIoData 1#64)) (.joinTable joinRoomMessage) true
  have none : s.numbers = [] := by rw [Exchange.numbers, arrived]; rfl
  have safe := (all _ _ _ (.cons join (.nil s)) (by simp [SmallNumbers, none])).2
  have greatest := lastInOrder_isGreatest 1 s.numbers
  rw [none] at greatest
  have acked : 2 ∈ acks s.chan := by
    rw [sent]
    exact List.mem_append_right _ (by decide)
  have le : 2 ≤ 1 := safe.inOrder 2 acked 1 (by rw [none]; exact greatest)
  exact absurd le (by decide)

end IocpTest.NetService
