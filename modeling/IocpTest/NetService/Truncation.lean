import IocpTest.NetService.Packets
import IocpTest.NetService.Passes

/-!
# Records that the datagram cuts off

The loop moves the cursor behind a record by the length that the record gives for itself
and only then looks whether its number is the next one. Nothing compares that length with
what has been received, so a record whose body is not there is acknowledged like any other.

`Settles` is what the bytes of a datagram must be for that not to happen: complete records
one after another, and behind them an end, a terminator inside the buffer, or a record that
is cut off, is not the next one and leads to an end or a terminator. If they are not, either
the record that is cut off is acknowledged or the loop runs out of the buffer, where it
takes what lies there for records (`exists_behind`).
-/

namespace IocpTest.NetService

open Bytes StepSystem

/-- A record that moves `recvID` has its header and its body in the first `n` bytes. -/
def AcknowledgedInside (n : Nat) (s : Cursor) (header : CmdHeader) : Prop :=
  acknowledge s.recvID header.serSendID ≠ s.recvID → s.pBuff + 8 + header.msgLength.toNat ≤ n

/-- `RecvCmdData`, called with `length` for a datagram, acknowledges complete records only,
whatever lies behind the buffer and whether or not its loop ends. -/
def AcknowledgesComplete (d : List Byte) (recvID : UINT) (length : Nat) : Prop :=
  ∀ behind trace t, Passes (received behind iocpBufferSize d) recvID length trace t →
    Guarded (AcknowledgedInside d.length) trace

def bufferOf (d : List Byte) : Memory := received (fun _ => 0#8) iocpBufferSize d

/-- What lies at an offset of the buffer when the numbers up to `recvID` have been received:
complete records, and then something that ends the loop without acknowledging anything. -/
inductive Settles (d : List Byte) (length : Nat) : Nat → UINT → Prop
  | atEnd (recvID : UINT) : Settles d length length recvID
  | noSendID {p : Nat} {recvID : UINT} (inside : p + 4 ≤ iocpBufferSize)
      (zero : readUINT (bufferOf d) p = 0#32) : Settles d length p recvID
  | noMsgID {p : Nat} {recvID : UINT} (inside : p + 6 ≤ iocpBufferSize)
      (zero : readUSHORT (bufferOf d) (p + 4) = 0#16) : Settles d length p recvID
  | noLength {p : Nat} {recvID : UINT} (inside : p + 8 ≤ iocpBufferSize)
      (zero : readUSHORT (bufferOf d) (p + 6) = 0#16) : Settles d length p recvID
  | record {p : Nat} {recvID : UINT}
      (complete : p + 8 + (readUSHORT (bufferOf d) (p + 6)).toNat ≤ d.length)
      (rest : Settles d length (p + 8 + (readUSHORT (bufferOf d) (p + 6)).toNat)
        (acknowledge recvID (readUINT (bufferOf d) p))) : Settles d length p recvID
  | cutOff {p : Nat} {recvID : UINT} (header : p + 8 ≤ iocpBufferSize)
      (cut : d.length < p + 8 + (readUSHORT (bufferOf d) (p + 6)).toNat)
      (other : readUINT (bufferOf d) p ≠ recvID + 1)
      (stops : p + 8 + (readUSHORT (bufferOf d) (p + 6)).toNat = length ∨
        p + 8 + (readUSHORT (bufferOf d) (p + 6)).toNat + 4 ≤ iocpBufferSize) :
      Settles d length p recvID
  /-- All numbers are used up. -/
  | used {p : Nat} {recvID : UINT} (last : recvID + 1 = 0#32) : Settles d length p recvID

/-! ## A settled datagram -/

theorem acknowledge_of_ne {recvID x : UINT} (h : x ≠ recvID + 1) : acknowledge recvID x = recvID :=
  if_neg h

section

variable {d : List Byte} {length : Nat} {behind : Memory} {s t : Cursor} {header : CmdHeader}
  {trace : List (Cursor × CmdHeader)}

theorem header_received (inside : s.pBuff + 8 ≤ iocpBufferSize) :
    s.header (received behind iocpBufferSize d) = s.header (bufferOf d) := by
  let nothing : Memory := fun _ => 0#8
  simp only [Cursor.header, bufferOf]
  rw [readUINT_received behind nothing (by omega), readUSHORT_received behind nothing (by omega),
    readUSHORT_received behind nothing (by omega)]

theorem guarded_of_used {mem : Memory} {n pend : Nat} (run : Run (PassStep mem pend) s trace t)
    (last : s.recvID + 1 = 0#32) : Guarded (AcknowledgedInside n) trace := by
  induction run with
  | nil => exact guarded_nil _
  | @cons s _ _ _ _ first _ ih =>
      obtain ⟨_, ⟨hid, _⟩, rfl, rfl⟩ := passStep_iff.mp first
      have skipped : acknowledge s.recvID (s.header mem).serSendID = s.recvID := by
        apply acknowledge_of_ne
        rw [last]
        exact hid
      refine guarded_cons.mpr ⟨fun moved => absurd skipped moved, ih ?_⟩
      rw [Cursor.next_recvID, skipped]
      exact last

theorem nil_of_stop {mem : Memory} {pend : Nat} (run : Run (PassStep mem pend) s trace t)
    (stop : s.pBuff = pend ∨ ¬HeaderAt mem s.pBuff) : trace = [] := by
  cases run with
  | nil => rfl
  | cons first _ =>
      obtain ⟨hend, fields, _⟩ := passStep_iff.mp first
      exact absurd fields (stop.resolve_left hend)

theorem passStep_received (first : PassStep (received behind iocpBufferSize d) length s header t)
    (inside : s.pBuff + 8 ≤ iocpBufferSize) :
    header = s.header (bufferOf d) ∧
      t.pBuff = s.pBuff + 8 + (readUSHORT (bufferOf d) (s.pBuff + 6)).toNat ∧
      t.recvID = acknowledge s.recvID (readUINT (bufferOf d) s.pBuff) := by
  obtain ⟨_, _, rfl, rfl⟩ := passStep_iff.mp first
  have same : s.header (received behind iocpBufferSize d) = s.header (bufferOf d) :=
    header_received inside
  have length_eq := congrArg CmdHeader.msgLength same
  refine ⟨same, ?_, ?_⟩
  · rw [Cursor.next_pBuff]
    exact congrArg (s.pBuff + 8 + ·) (congrArg BitVec.toNat length_eq)
  · rw [Cursor.next_recvID, same]
    rfl

theorem guarded_of_settles {p : Nat} {recvID : UINT} (settles : Settles d length p recvID)
    (fits : d.length ≤ iocpBufferSize)
    (run : Run (PassStep (received behind iocpBufferSize d) length) s trace t)
    (hp : s.pBuff = p) (hr : s.recvID = recvID) :
    Guarded (AcknowledgedInside d.length) trace := by
  induction settles generalizing s trace with
  | atEnd recvID =>
      rw [nil_of_stop run (.inl hp)]
      exact guarded_nil _
  | used last => exact guarded_of_used run (hr ▸ last)
  | noSendID inside zero =>
      subst hp
      rw [nil_of_stop run (.inr fun fields =>
        fields.1 ((readUINT_received behind _ inside).trans zero))]
      exact guarded_nil _
  | noMsgID inside zero =>
      subst hp
      rw [nil_of_stop run (.inr fun fields =>
        fields.2.1 ((readUSHORT_received behind _ (by omega)).trans zero))]
      exact guarded_nil _
  | noLength inside zero =>
      subst hp
      rw [nil_of_stop run (.inr fun fields =>
        fields.2.2 ((readUSHORT_received behind _ (by omega)).trans zero))]
      exact guarded_nil _
  | record complete _ ih =>
      subst hp hr
      cases run with
      | nil => exact guarded_nil _
      | cons first rest =>
          obtain ⟨rfl, pBuff, recvID⟩ := passStep_received first (by omega)
          exact guarded_cons.mpr ⟨fun _ => complete, ih rest pBuff recvID⟩
  | cutOff inside cut other stops =>
      subst hp hr
      cases run with
      | nil => exact guarded_nil _
      | cons first rest =>
          obtain ⟨rfl, pBuff, _⟩ := passStep_received first inside
          have none := nil_of_stop rest (by
            rw [pBuff]
            exact stops.imp_right fun h fields =>
              fields.1 (readUINT_padding behind (by omega) h))
          subst none
          exact guarded_cons.mpr
            ⟨fun moved => absurd (acknowledge_of_ne other) moved, guarded_nil _⟩

end

/-! ## A datagram that does not settle -/

/-- `RecvCmdData` gets to an offset with the numbers up to `last` received, whatever lies
behind the buffer. -/
def Reaches (d : List Byte) (recvID : UINT) (length p : Nat) (last : UINT) : Prop :=
  ∀ behind, ∃ trace s, Passes (received behind iocpBufferSize d) recvID length trace s ∧
    s.pBuff = p ∧ s.recvID = last

theorem Passes.concat {mem : Memory} {recvID : UINT} {length : Nat} {s : Cursor}
    {trace : List (Cursor × CmdHeader)} (passes : Passes mem recvID length trace s)
    (hend : s.pBuff ≠ length) (fields : HeaderAt mem s.pBuff) :
    Passes mem recvID length (trace ++ [(s, s.header mem)]) (s.next mem) :=
  ⟨passes.1, passes.2.append (.cons (passStep_iff.mpr ⟨hend, fields, rfl, rfl⟩) (.nil _))⟩

theorem acknowledge_next_ne (recvID : UINT) : acknowledge recvID (recvID + 1) ≠ recvID := by
  intro h
  rw [acknowledge, if_pos rfl] at h
  have same := congrArg BitVec.toNat h
  have one : (1 : UINT).toNat = 1 := rfl
  rw [BitVec.toNat_add, one] at same
  omega

section

variable {d : List Byte} {recvID last : UINT} {length p : Nat} {behind : Memory} {s : Cursor}
  {trace : List (Cursor × CmdHeader)}

/-- A pass over a record that carries the next number and is not all there. -/
theorem not_acknowledgesComplete
    (passes : Passes (received behind iocpBufferSize d) recvID length trace s)
    (hend : s.pBuff ≠ length) (fields : HeaderAt (received behind iocpBufferSize d) s.pBuff)
    (next : readUINT (received behind iocpBufferSize d) s.pBuff = s.recvID + 1)
    (cut : d.length < s.pBuff + 8 +
      (readUSHORT (received behind iocpBufferSize d) (s.pBuff + 6)).toNat) :
    ¬AcknowledgesComplete d recvID length := by
  intro complete
  have safe := complete _ _ _ (passes.concat hend fields)
  have inside := (guarded_cons.mp (guarded_append.mp safe).2).1 (by
    rw [Cursor.header, next]
    exact acknowledge_next_ne s.recvID)
  exact absurd inside (Nat.not_le.mpr cut)

theorem Reaches.next (reaches : Reaches d recvID length p last) (hend : p ≠ length)
    (inside : p + 8 ≤ iocpBufferSize) (fields : HeaderAt (bufferOf d) p) :
    Reaches d recvID length (p + 8 + (readUSHORT (bufferOf d) (p + 6)).toNat)
      (acknowledge last (readUINT (bufferOf d) p)) := by
  intro behind
  obtain ⟨trace, s, passes, rfl, rfl⟩ := reaches behind
  have same : s.header (received behind iocpBufferSize d) = s.header (bufferOf d) :=
    header_received inside
  have hid := congrArg CmdHeader.serSendID same
  have hmsg := congrArg CmdHeader.msgID same
  have hlen := congrArg CmdHeader.msgLength same
  simp only [Cursor.header] at hid hmsg hlen
  have fields' : HeaderAt (received behind iocpBufferSize d) s.pBuff := by
    rw [HeaderAt, hid, hmsg, hlen]
    exact fields
  refine ⟨_, _, passes.concat hend fields', ?_, ?_⟩
  · rw [Cursor.next_pBuff, hlen]
  · rw [Cursor.next_recvID, Cursor.header, hid]

/-- The record with a number, as it may lie behind the buffer. -/
def nextRecord (number : UINT) (h : number ≠ 0#32) : CmdRecord where
  serSendID := number
  msgID := 1#16
  body := [1#8]
  serSendID_ne := h
  msgID_ne := by decide
  body_lt := by decide

/-- With ones behind the buffer a header that the buffer does not hold has no zero field,
unless one lies in the buffer. -/
theorem headerAt_ones (fits : d.length ≤ iocpBufferSize) (out : iocpBufferSize < p + 8)
    (hid : p + 4 ≤ iocpBufferSize → readUINT (bufferOf d) p ≠ 0#32)
    (hmsg : p + 6 ≤ iocpBufferSize → readUSHORT (bufferOf d) (p + 4) ≠ 0#16) :
    HeaderAt (received (fun _ => 1#8) iocpBufferSize d) p := by
  have one : ∀ i, iocpBufferSize ≤ i → received (fun _ => 1#8) iocpBufferSize d i ≠ 0#8 := by
    intro i hi
    rw [received_behind _ fits hi]
    decide
  refine ⟨?_, ?_, ?_⟩
  · by_cases inside : p + 4 ≤ iocpBufferSize
    · rw [readUINT_received _ (fun _ => 0#8) inside]
      exact hid inside
    · intro zero
      exact one (p + 3) (by omega) (readUINT_eq_zero.mp zero (p + 3) (by omega) (by omega))
  · by_cases inside : p + 6 ≤ iocpBufferSize
    · rw [readUSHORT_received _ (fun _ => 0#8) inside]
      exact hmsg inside
    · intro zero
      exact one (p + 5) (by omega) (readUSHORT_eq_zero.mp zero (p + 5) (by omega) (by omega))
  · intro zero
    exact one (p + 7) (by omega) (readUSHORT_eq_zero.mp zero (p + 7) (by omega) (by omega))

theorem pass_behind (fits : d.length ≤ iocpBufferSize) (mem : Memory) {q : Nat}
    (r : CmdRecord) (hbody : r.body ≠ []) (outside : iocpBufferSize ≤ q) (here : s.pBuff = q) :
    HeaderAt (received (memcpy mem q r.bytes) iocpBufferSize d) s.pBuff ∧
      s.header (received (memcpy mem q r.bytes) iocpBufferSize d) = r.header := by
  have window : slice (received (memcpy mem q r.bytes) iocpBufferSize d) s.pBuff
      r.bytes.length = r.bytes ++ [] := by
    rw [List.append_nil, here, slice_congr fun i hi _ =>
      received_behind (memcpy mem q r.bytes) fits (Nat.le_trans outside hi)]
    exact slice_memcpy mem q r.bytes
  obtain ⟨pass, _, header, _⟩ := recvPass_of_record _ hbody window
  exact ⟨(recvPass_eq_again pass).1, header⟩

/-- A loop that comes to a header which the buffer does not hold takes what lies behind the
buffer for a record, and for the next one. -/
theorem exists_behind (reaches : Reaches d recvID length p last)
    (fits : d.length ≤ iocpBufferSize) (bounded : length ≤ iocpBufferSize)
    (out : iocpBufferSize < p + 8) (hend : p ≠ length) (unused : last + 1 ≠ 0#32)
    (hid : p + 4 ≤ iocpBufferSize → readUINT (bufferOf d) p ≠ 0#32)
    (hmsg : p + 6 ≤ iocpBufferSize → readUSHORT (bufferOf d) (p + 4) ≠ 0#16) :
    ¬AcknowledgesComplete d recvID length := by
  -- Ones behind the buffer complete the header; behind its body stands the next record.
  let filled := received (fun _ => 1#8) iocpBufferSize d
  let q := p + 8 + (readUSHORT filled (p + 6)).toNat
  let r := nextRecord (last + 1) unused
  let behind := memcpy (fun _ => 1#8) q r.bytes
  let mem := received behind iocpBufferSize d
  have ones : HeaderAt filled p := headerAt_ones fits out hid hmsg
  have same : ∀ i, i < p + 8 → mem i = filled i := by
    intro i hi
    by_cases inside : i < iocpBufferSize
    · exact received_inside _ _ inside
    · rw [show mem i = behind i from received_behind _ fits (by omega),
        show filled i = 1#8 from received_behind _ fits (by omega)]
      exact memcpy_of_lt _ _ (by omega)
  have fields : HeaderAt mem p := by
    rw [HeaderAt, readUINT_congr fun i _ _ => same i (by omega),
      readUSHORT_congr fun i _ _ => same i (by omega),
      readUSHORT_congr fun i _ _ => same i (by omega)]
    exact ones
  obtain ⟨trace, s, passes, rfl, rfl⟩ := reaches behind
  by_cases next : readUINT mem s.pBuff = s.recvID + 1
  · exact not_acknowledgesComplete passes hend fields next (by omega)
  · have length_eq : readUSHORT mem (s.pBuff + 6) = readUSHORT filled (s.pBuff + 6) :=
      readUSHORT_congr fun i _ _ => same i (by omega)
    have there : (s.next mem).pBuff = q := by
      rw [Cursor.next_pBuff, length_eq]
    have kept : (s.next mem).recvID = s.recvID := acknowledge_of_ne next
    obtain ⟨fields', header⟩ := pass_behind fits (fun _ => 1#8) r (List.cons_ne_nil _ _)
      (show iocpBufferSize ≤ q by omega) there
    have far : iocpBufferSize < (s.next mem).pBuff := by
      rw [there]
      omega
    refine not_acknowledgesComplete (passes.concat hend fields) ?_ fields' ?_ ?_
    · exact Nat.ne_of_gt (Nat.lt_of_le_of_lt bounded far)
    · rw [kept]
      exact congrArg CmdHeader.serSendID header
    · have inside : (s.next mem).pBuff ≤ (s.next mem).pBuff + 8 +
          (readUSHORT mem ((s.next mem).pBuff + 6)).toNat := by omega
      exact Nat.lt_of_le_of_lt fits (Nat.lt_of_lt_of_le far inside)

/-- What a loop gets to that acknowledges complete records only has settled there, if it
settles wherever it gets to later. -/
theorem settles_of_later (complete : AcknowledgesComplete d recvID length)
    (fits : d.length ≤ iocpBufferSize) (bounded : length ≤ iocpBufferSize)
    (later : ∀ p' last', p < p' → p' ≤ iocpBufferSize → Reaches d recvID length p' last' →
      Settles d length p' last')
    (reaches : Reaches d recvID length p last) : Settles d length p last := by
  by_cases hend : p = length
  · rw [hend]
    exact .atEnd last
  by_cases unused : last + 1 = 0#32
  · exact .used unused
  by_cases hid : p + 4 ≤ iocpBufferSize ∧ readUINT (bufferOf d) p = 0#32
  · exact .noSendID hid.1 hid.2
  by_cases hmsg : p + 6 ≤ iocpBufferSize ∧ readUSHORT (bufferOf d) (p + 4) = 0#16
  · exact .noMsgID hmsg.1 hmsg.2
  by_cases hlen : p + 8 ≤ iocpBufferSize ∧ readUSHORT (bufferOf d) (p + 6) = 0#16
  · exact .noLength hlen.1 hlen.2
  rw [not_and] at hid hmsg hlen
  by_cases inside : p + 8 ≤ iocpBufferSize
  · have fields : HeaderAt (bufferOf d) p := ⟨hid (by omega), hmsg (by omega), hlen inside⟩
    have next := reaches.next hend inside fields
    by_cases whole : p + 8 + (readUSHORT (bufferOf d) (p + 6)).toNat ≤ d.length
    · exact .record whole (later _ _ (by omega) (by omega) next)
    · have other : readUINT (bufferOf d) p ≠ last + 1 := by
        intro number
        obtain ⟨trace, s, passes, rfl, rfl⟩ := reaches fun _ => 0#8
        exact not_acknowledgesComplete passes hend fields number
          (by rw [← bufferOf]; omega) complete
      refine .cutOff inside (by omega) other ?_
      by_contra goesOn
      rw [not_or] at goesOn
      rw [acknowledge_of_ne other] at next
      exact exists_behind next fits bounded (by omega) goesOn.1 unused (fun h => by omega)
        (fun h => by omega) complete
  · exact absurd complete
      (exists_behind reaches fits bounded (by omega) hend unused hid hmsg)

theorem settles_of_reaches (complete : AcknowledgesComplete d recvID length)
    (fits : d.length ≤ iocpBufferSize) (bounded : length ≤ iocpBufferSize)
    (reaches : Reaches d recvID length p last) : Settles d length p last := by
  induction h : iocpBufferSize - p using Nat.strong_induction_on generalizing p last with
  | _ room ih =>
      apply settles_of_later complete fits bounded ?_ reaches
      intro p' last' further inside reaches'
      exact ih (iocpBufferSize - p') (by omega) reaches' rfl

end

/-- `RecvCmdData`, called with any length up to the size of its buffer, acknowledges
complete records only if and only if the datagram settles behind its answer word. -/
theorem acknowledgesComplete_iff {d : List Byte} {length : Nat} (recvID : UINT)
    (fits : d.length ≤ iocpBufferSize) (bounded : length ≤ iocpBufferSize) :
    AcknowledgesComplete d recvID length ↔ length ≤ 4 ∨ Settles d length 4 recvID := by
  constructor
  · intro complete
    by_cases short : length ≤ 4
    · exact .inl short
    · have start : Reaches d recvID length 4 recvID := fun behind =>
        ⟨[], _, ⟨by omega, .nil _⟩, rfl, rfl⟩
      exact .inr (settles_of_reaches complete fits bounded start)
  · intro h behind trace t passes
    cases h with
    | inl short => exact absurd passes.1 (Nat.not_lt.mpr short)
    | inr settles => exact guarded_of_settles settles fits passes.2 rfl rfl

/-- Message 2 of the server, with a one-byte body. -/
def wholePacket : List Byte :=
  packetBytes 0x80000001#32 [nextRecord 2#32 connectFinish.serSendID_ne]

/-- A packet that is all there, at the size the worker passes. -/
theorem acknowledgesComplete_wholePacket :
    AcknowledgesComplete wholePacket 1#32 iocpBufferSize := by
  refine (acknowledgesComplete_iff 1#32 (by decide) (Nat.le_refl _)).mpr (.inr ?_)
  refine .record (by decide) (.noSendID (by decide) (by decide))

/-- The same packet without its last byte is acknowledged as if it were all there. -/
theorem cutPacket_not_acknowledgesComplete : ¬∀ (d : List Byte) (recvID : UINT) (length : Nat),
    d.length ≤ iocpBufferSize → length = d.length ∨ length = iocpBufferSize →
      AcknowledgesComplete d recvID length := by
  intro all
  let d := wholePacket.take 12
  have start : Passes (bufferOf d) 1#32 iocpBufferSize [] (.afterAnswer 1#32) :=
    ⟨by decide, .nil _⟩
  have fields : HeaderAt (bufferOf d) 4 := ⟨by decide, by decide, by decide⟩
  exact not_acknowledgesComplete start (by decide) fields (by decide) (by decide)
    (all d 1#32 iocpBufferSize (by decide) (.inr rfl))

end IocpTest.NetService
