import IocpTest.NetService.RecvLoop

/-!
# The record format and what the loop accepts

`Framed window headers unread` is the grammar of the bytes after the answer word,
stated on a byte string and without a cursor: complete records one after another,
then either nothing or a terminator, a zero field whose header lies inside the
window up to that field. `headers` are the records in front of the terminator and
`unread` counts the bytes that the last position leaves.

The loop and the grammar agree in both directions. `recvLoop_of_framed` runs the
loop over a framed window; `framedIfInBounds_of_recvLoop` recovers the grammar from
a run that stayed in bounds. Together they give the exact condition under which the
receive branch terminates and reads only what it was given.
-/

namespace IocpTest.NetService

open Bytes

/-- A record a sender may put on the wire. -/
structure CmdRecord where
  serSendID : UINT
  msgID : USHORT
  body : List Byte
  serSendID_ne : serSendID ≠ 0#32
  msgID_ne : msgID ≠ 0#16
  body_lt : body.length < 2 ^ 16

namespace CmdRecord

def msgLength (r : CmdRecord) : USHORT := BitVec.ofNat 16 r.body.length

def header (r : CmdRecord) : CmdHeader := ⟨r.serSendID, r.msgID, r.msgLength⟩

/-- The layout `RecvCmdData` reads: header fields in host order, then the body. -/
def bytes (r : CmdRecord) : List Byte :=
  uintBytes r.serSendID ++ (ushortBytes r.msgID ++ (ushortBytes r.msgLength ++ r.body))

theorem msgLength_toNat (r : CmdRecord) : r.msgLength.toNat = r.body.length := by
  rw [msgLength, BitVec.toNat_ofNat]
  exact Nat.mod_eq_of_lt r.body_lt

theorem msgLength_eq_zero (r : CmdRecord) : r.msgLength = 0#16 ↔ r.body = [] := by
  rw [← BitVec.toNat_inj, msgLength_toNat]
  simp

@[simp] theorem bytes_length (r : CmdRecord) : r.bytes.length = 8 + r.body.length := by
  simp only [bytes, List.length_append, uintBytes_length, ushortBytes_length]
  omega

theorem bytes_append (r : CmdRecord) (rest : List Byte) :
    r.bytes ++ rest = uintBytes r.serSendID ++
      (ushortBytes r.msgID ++ (ushortBytes r.msgLength ++ (r.body ++ rest))) := by
  simp only [bytes, List.append_assoc]

end CmdRecord

inductive Framed : List Byte → List CmdHeader → Nat → Prop
  | done : Framed [] [] 0
  | noSendID (rest : List Byte) : Framed (uintBytes 0#32 ++ rest) [] (4 + rest.length)
  | noMsgID {serSendID : UINT} (hid : serSendID ≠ 0#32) (rest : List Byte) :
      Framed (uintBytes serSendID ++ (ushortBytes 0#16 ++ rest)) [] (2 + rest.length)
  | noLength {serSendID : UINT} {msgID : USHORT} (hid : serSendID ≠ 0#32)
      (hmsg : msgID ≠ 0#16) (rest : List Byte) :
      Framed (uintBytes serSendID ++ (ushortBytes msgID ++ (ushortBytes 0#16 ++ rest))) []
        (2 + rest.length)
  | record (r : CmdRecord) (hbody : r.body ≠ []) {rest : List Byte}
      {headers : List CmdHeader} {unread : Nat} (tail : Framed rest headers unread) :
      Framed (r.bytes ++ rest) (r.header :: headers) unread

/-- An access stays inside the first `length` bytes of the buffer. -/
def InBounds (length : Nat) : Access → Prop
  | .read offset width => offset + width ≤ length
  | .move offset => offset ≤ length

/-! ## Windows that start with a field -/

section

variable {mem : Memory} {p n : Nat} {rest : List Byte}

theorem slice_uint {x : UINT} (h : slice mem p n = uintBytes x ++ rest) :
    n = 4 + rest.length ∧ readUINT mem p = x ∧ slice mem (p + 4) rest.length = rest := by
  obtain ⟨hn, hfirst, hrest⟩ := slice_eq_append h
  rw [uintBytes_length] at hn hfirst hrest
  exact ⟨hn, slice_eq_uintBytes.mp hfirst, hrest⟩

theorem slice_ushort {x : USHORT} (h : slice mem p n = ushortBytes x ++ rest) :
    n = 2 + rest.length ∧ readUSHORT mem p = x ∧ slice mem (p + 2) rest.length = rest := by
  obtain ⟨hn, hfirst, hrest⟩ := slice_eq_append h
  rw [ushortBytes_length] at hn hfirst hrest
  exact ⟨hn, slice_eq_ushortBytes.mp hfirst, hrest⟩

/-- The window of a header and what follows it, cut at the fields. -/
theorem slice_header (mem : Memory) (p n : Nat) :
    slice mem p (8 + n) = uintBytes (readUINT mem p) ++
      (ushortBytes (readUSHORT mem (p + 4)) ++
        (ushortBytes (readUSHORT mem (p + 6)) ++ slice mem (p + 8) n)) := by
  rw [show 8 + n = 4 + (2 + (2 + n)) by omega, slice_add, slice_add, slice_add,
    slice_eq_uintBytes.mpr rfl, slice_eq_ushortBytes.mpr rfl, slice_eq_ushortBytes.mpr rfl]

/-- The record whose header and body lie at `p`. -/
def recordAt (mem : Memory) (p : Nat) (hid : readUINT mem p ≠ 0#32)
    (hmsg : readUSHORT mem (p + 4) ≠ 0#16) : CmdRecord where
  serSendID := readUINT mem p
  msgID := readUSHORT mem (p + 4)
  body := slice mem (p + 8) (readUSHORT mem (p + 6)).toNat
  serSendID_ne := hid
  msgID_ne := hmsg
  body_lt := by
    rw [slice_length]
    exact (readUSHORT mem (p + 6)).isLt

theorem recordAt_msgLength {hid : readUINT mem p ≠ 0#32}
    {hmsg : readUSHORT mem (p + 4) ≠ 0#16} :
    (recordAt mem p hid hmsg).msgLength = readUSHORT mem (p + 6) := by
  simp [CmdRecord.msgLength, recordAt]

/-- A window with a complete record in front is that record and the rest. -/
theorem slice_recordAt (hid : readUINT mem p ≠ 0#32)
    (hmsg : readUSHORT mem (p + 4) ≠ 0#16) (n : Nat) :
    slice mem p (8 + (readUSHORT mem (p + 6)).toNat + n) =
      (recordAt mem p hid hmsg).bytes ++
        slice mem (p + 8 + (readUSHORT mem (p + 6)).toNat) n := by
  rw [Nat.add_assoc, slice_header, slice_add, CmdRecord.bytes_append, recordAt_msgLength]
  rfl

end

/-! ## Accesses in bounds -/

/-- Everything done since `s` stayed inside the first `pend` bytes. -/
def Cursor.Within (pend : Nat) (s t : Cursor) : Prop :=
  ∀ a ∈ t.accesses, a ∈ s.accesses ∨ InBounds pend a

namespace Cursor.Within

variable {pend width n : Nat} {s t u : Cursor}

theorem refl (s : Cursor) : Within pend s s := fun _ ha => .inl ha

/-- One more access, inside. -/
theorem access (h : Within pend s t) {a : Access} (inside : InBounds pend a)
    (more : u.accesses = t.accesses ++ [a]) : Within pend s u := by
  intro b hb
  rw [more] at hb
  cases List.mem_append.mp hb with
  | inl hb => exact h b hb
  | inr hb =>
      rw [List.mem_singleton.mp hb]
      exact .inr inside

theorem read (h : Within pend s t) (hle : t.pBuff + width ≤ pend) :
    Within pend s (t.read width) := by
  have inside : InBounds pend (.read t.pBuff width) := hle
  exact h.access inside rfl

theorem move (h : Within pend s t) (hle : t.pBuff + n ≤ pend) : Within pend s (t.move n) := by
  have inside : InBounds pend (.move (t.pBuff + n)) := hle
  exact h.access inside rfl

/-- A field is read and stepped over. -/
theorem field (h : Within pend s t) (hle : t.pBuff + n ≤ pend) :
    Within pend s ((t.read n).move n) :=
  (h.read hle).move hle

theorem trans (first : Within pend s t) (second : Within pend t u) : Within pend s u :=
  fun a ha => (second a ha).elim (first a) .inr

/-- A whole pass stays inside when the record does. -/
theorem next {mem : Memory}
    (hle : s.pBuff + 8 + (readUSHORT mem (s.pBuff + 6)).toNat ≤ pend) :
    Within pend s (s.next mem) := by
  have header : Within pend s (((((s.read 4).move 4).read 2).move 2).read 2) := by
    refine (((refl s).field ?_).field ?_).read ?_
    · omega
    all_goals
      simp only [Cursor.read, Cursor.move]
      omega
  apply header.move
  simp only [Cursor.read, Cursor.move, Cursor.header]
  omega

end Cursor.Within

/-! ## The loop over a framed window -/

section

variable (mem : Memory) (pend : Nat)

/-- A pass over a record in front of the window goes on behind it. -/
theorem recvPass_of_record {s : Cursor} {r : CmdRecord} (hbody : r.body ≠ []) {rest : List Byte}
    {n : Nat} (hwindow : slice mem s.pBuff n = r.bytes ++ rest) :
    recvPass mem s = .again (s.next mem) ∧ (s.next mem).pBuff = s.pBuff + 8 + r.body.length ∧
      s.header mem = r.header ∧ slice mem (s.next mem).pBuff rest.length = rest := by
  rw [CmdRecord.bytes_append] at hwindow
  obtain ⟨_, hid, hrest⟩ := slice_uint hwindow
  obtain ⟨_, hmsg, hrest'⟩ := slice_ushort hrest
  obtain ⟨_, hlen, hrest''⟩ := slice_ushort hrest'
  obtain ⟨_, _, htail⟩ := slice_eq_append hrest''
  have hnext : (s.next mem).pBuff = s.pBuff + 8 + r.body.length := by
    rw [Cursor.next_pBuff, hlen, r.msgLength_toNat]
  refine ⟨?_, hnext, ?_, ?_⟩
  · apply recvPass_again
    · rw [hid]
      exact r.serSendID_ne
    · rw [hmsg]
      exact r.msgID_ne
    · rw [hlen]
      exact mt r.msgLength_eq_zero.mp hbody
  · simp only [Cursor.header, CmdRecord.header, hid, hmsg, hlen]
  · rw [hnext]
    exact htail

/-- A framed window is read to its end or its terminator, inside its bounds. -/
theorem recvLoop_of_framed {window : List Byte} {headers : List CmdHeader} {unread : Nat}
    (framed : Framed window headers unread) (s : Cursor)
    (hwindow : slice mem s.pBuff window.length = window)
    (hpend : s.pBuff + window.length = pend) :
    ∃ fuel t, recvLoop mem pend fuel s = some t ∧ t.visited = s.visited ++ headers ∧
      t.pBuff + unread = pend ∧ s.Within pend t := by
  induction framed generalizing s with
  | done =>
      have hend : s.pBuff = pend := by simpa using hpend
      exact ⟨1, s, recvLoop_done hend, by simp, by simpa using hend, .refl s⟩
  | noSendID rest =>
      obtain ⟨hn, hid, _⟩ := slice_uint hwindow
      have hlt : s.pBuff + (4 + rest.length) = pend := by rw [← hpend, hn]
      refine ⟨1, s.read 4, recvLoop_stop (by omega) (recvPass_noSendID hid), ?_, ?_, ?_⟩
      · simp [Cursor.read]
      · simpa [Cursor.read] using hlt
      · exact (Cursor.Within.refl s).read (by omega)
  | @noMsgID serSendID hid rest =>
      obtain ⟨hn, hread, hrest⟩ := slice_uint hwindow
      obtain ⟨hn', hmsg, _⟩ := slice_ushort hrest
      have hlt : s.pBuff + (4 + (2 + rest.length)) = pend := by rw [← hpend, hn, hn']
      have hne : readUINT mem s.pBuff ≠ 0#32 := by rw [hread]; exact hid
      refine ⟨1, _, recvLoop_stop (by omega) (recvPass_noMsgID hne hmsg), ?_, ?_, ?_⟩
      · simp [Cursor.read, Cursor.move]
      · simp only [Cursor.read, Cursor.move]
        omega
      · refine ((Cursor.Within.refl s).field ?_).read ?_
        · omega
        · simp only [Cursor.read, Cursor.move]
          omega
  | @noLength serSendID msgID hid hmsg rest =>
      obtain ⟨hn, hread, hrest⟩ := slice_uint hwindow
      obtain ⟨hn', hread', hrest'⟩ := slice_ushort hrest
      obtain ⟨hn'', hlen, _⟩ := slice_ushort hrest'
      have hlt : s.pBuff + (4 + (2 + (2 + rest.length))) = pend := by
        rw [← hpend, hn, hn', hn'']
      have hne : readUINT mem s.pBuff ≠ 0#32 := by rw [hread]; exact hid
      have hne' : readUSHORT mem (s.pBuff + 4) ≠ 0#16 := by rw [hread']; exact hmsg
      refine ⟨1, _, recvLoop_stop (by omega) (recvPass_noLength hne hne' hlen), ?_, ?_, ?_⟩
      · simp [Cursor.read, Cursor.move]
      · simp only [Cursor.read, Cursor.move]
        omega
      · refine (((Cursor.Within.refl s).field ?_).field ?_).read ?_
        · omega
        all_goals
          simp only [Cursor.read, Cursor.move]
          omega
  | @record r hbody rest headers unread _ ih =>
      obtain ⟨pass, hnext, hheader, htail⟩ := recvPass_of_record mem hbody hwindow
      have hsize : s.pBuff + (8 + r.body.length + rest.length) = pend := by
        rw [← hpend, List.length_append, CmdRecord.bytes_length]
      obtain ⟨fuel, t, hloop, hvisited, hunread, within⟩ := ih (s.next mem) htail (by omega)
      refine ⟨fuel + 1, t, ?_, ?_, hunread, ?_⟩
      · rw [recvLoop_again (by omega) pass]
        exact hloop
      · rw [hvisited, Cursor.next_visited, hheader, List.append_assoc, List.singleton_append]
      · apply Cursor.Within.trans (Cursor.Within.next ?_) within
        rw [← Cursor.next_pBuff, hnext]
        omega

/-- What a run from `s` to `t` says about the window: if its accesses are in bounds,
the window is framed. -/
structure FramedIfInBounds (s t : Cursor) : Prop where
  kept : s.accesses ⊆ t.accesses
  framed : s.pBuff ≤ pend → (∀ a ∈ t.accesses, InBounds pend a) →
    ∃ headers unread, Framed (slice mem s.pBuff (pend - s.pBuff)) headers unread

variable {mem pend} in
/-- A run that stays in bounds went over a framed window. -/
theorem framedIfInBounds_of_recvLoop {fuel : Nat} {s t : Cursor}
    (h : recvLoop mem pend fuel s = some t) : FramedIfInBounds mem pend s t := by
  apply recvLoop_induction (FramedIfInBounds mem pend) ?_ ?_ ?_ h
  · intro s hend
    refine ⟨List.Subset.refl _, fun _ _ => ⟨[], 0, ?_⟩⟩
    rw [hend, Nat.sub_self]
    exact .done
  · intro s t _ pass
    refine ⟨(recvPass_stop_fields pass).2.2, fun _ bounds => ?_⟩
    rcases recvPass_cases mem s with
      ⟨hid, hp⟩ | ⟨hid, hmsg, hp⟩ | ⟨hid, hmsg, hlen, hp⟩ | ⟨_, _, _, hp⟩ <;>
      rw [hp] at pass <;> cases pass
    · have hread : s.pBuff + 4 ≤ pend := bounds (.read s.pBuff 4) (by simp [Cursor.read])
      rw [show pend - s.pBuff = 4 + (pend - (s.pBuff + 4)) by omega, slice_add,
        slice_eq_uintBytes.mpr hid]
      exact ⟨_, _, .noSendID _⟩
    · have hread : s.pBuff + 4 + 2 ≤ pend :=
        bounds (.read (s.pBuff + 4) 2) (by simp [Cursor.read, Cursor.move])
      rw [show pend - s.pBuff = 4 + (2 + (pend - (s.pBuff + 4 + 2))) by omega, slice_add,
        slice_add, slice_eq_uintBytes.mpr rfl, slice_eq_ushortBytes.mpr hmsg]
      exact ⟨_, _, .noMsgID hid _⟩
    · have hread : s.pBuff + 4 + 2 + 2 ≤ pend :=
        bounds (.read (s.pBuff + 4 + 2) 2) (by simp [Cursor.read, Cursor.move])
      rw [show pend - s.pBuff = 8 + (pend - (s.pBuff + 8)) by omega, slice_header, hlen]
      exact ⟨_, _, .noLength hid hmsg _⟩
  · rintro s t _ pass ⟨hsub, rest⟩
    refine ⟨List.Subset.trans (s.accesses_subset_next mem) hsub, fun _ bounds => ?_⟩
    obtain ⟨⟨hid, hmsg, hlen⟩, _⟩ := recvPass_eq_again pass
    have hmove : (s.next mem).pBuff ≤ pend := by
      apply bounds (.move (s.next mem).pBuff)
      apply hsub
      simp [Cursor.next, Cursor.visit, Cursor.move, Cursor.read]
    obtain ⟨headers, unread, tail⟩ := rest hmove bounds
    rw [Cursor.next_pBuff] at hmove tail
    have hbody : (recordAt mem s.pBuff hid hmsg).body ≠ [] := by
      rw [Ne, ← CmdRecord.msgLength_eq_zero, recordAt_msgLength]
      exact hlen
    rw [show pend - s.pBuff = 8 + (readUSHORT mem (s.pBuff + 6)).toNat +
      (pend - (s.pBuff + 8 + (readUSHORT mem (s.pBuff + 6)).toNat)) by omega,
      slice_recordAt hid hmsg]
    exact ⟨_, _, .record _ hbody tail⟩

end

end IocpTest.NetService
