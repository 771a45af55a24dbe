import Mathlib.Algebra.Group.Nat.Defs
import Mathlib.Logic.Function.Basic

/-!
# The worker loop of the completion port

`RegHandle` gives the port the handler's address as completion key, cast through
`DWORD`; `_WorkThread` casts the key back and calls `Callback` on it. Addresses are
`w` bits wide, so one text covers the Win32 build and the x64 build.

The loop keeps `pHandle` from one iteration to the next and falls through to the
dispatch after every failure but one, and the size it passes is a constant.
`Dispatchable` says for which outcomes of `GetQueuedCompletionStatus` each packet is
nevertheless dispatched as it came.
-/

namespace IocpTest.IOCPHelper

open Function

abbrev DWORD := BitVec 32
abbrev HANDLE := Nat

def iocpBufferSize : DWORD := 8192#32

def errorInvalidHandle : DWORD := 6#32

/-- The address of an object. -/
structure Object (w : Nat) where
  addr : BitVec w
  notNull : addr ≠ 0#w

variable {w : Nat}

/-- `(DWORD)handle`, widened to the `ULONG_PTR` parameter. -/
def completionKey (handler : BitVec w) : BitVec w := (handler.setWidth 32).setWidth w

/-- A completion port: the key of each associated file or socket handle and, as
history, the handler that `RegHandle` was called on. -/
structure Port (w : Nat) where
  keys : HANDLE → Option (BitVec w)
  handlers : HANDLE → Option (Object w)
  keyed : ∀ h, keys h = (handlers h).map fun handler => completionKey handler.addr

def Port.empty (w : Nat) : Port w := ⟨fun _ => none, fun _ => none, fun _ => rfl⟩

/-- `RegHandle` on a handler whose `GetHanle` returned `h`. A handle that is already
associated is refused. -/
def regHandle (port : Port w) (h : HANDLE) (handler : Object w) : Bool × Port w :=
  if (port.keys h).isSome then (false, port)
  else
    (true,
      { keys := update port.keys h (some (completionKey handler.addr))
        handlers := update port.handlers h (some handler)
        keyed := by
          intro h'
          by_cases hh : h' = h
          · subst hh
            simp
          · simp [hh, port.keyed h'] })

/-- A completion packet of a registered handle. -/
structure Packet (port : Port w) where
  source : HANDLE
  handler : Object w
  registered : port.handlers source = some handler
  overlapped : Object w
  bytesTransferred : DWORD

variable {port : Port w}

/-- The key that the port delivers with a packet. -/
def Packet.key (p : Packet port) : BitVec w := (port.keys p.source).getD 0#w

/-- What `GetQueuedCompletionStatus` can do. A failure without a packet sets
`lpOverlapped` to NULL and leaves the key unwritten. -/
inductive Outcome (port : Port w) where
  | success (p : Packet port)
  | failure (p : Packet port) (errorCode : DWORD)
  | empty (errorCode : DWORD)

namespace Outcome

def packet : Outcome port → Option (Packet port)
  | .success p => some p
  | .failure p _ => some p
  | .empty _ => none

/-- The error code that ends the loop. Any other, `WAIT_TIMEOUT` included, goes on
to the dispatch. -/
def breaks : Outcome port → Bool
  | .success _ => false
  | .failure _ errorCode => errorCode == errorInvalidHandle
  | .empty errorCode => errorCode == errorInvalidHandle

end Outcome

/-- The local variables of `_WorkThread` that outlive an iteration. -/
structure Worker (w : Nat) where
  pHandle : BitVec w
  pOverlapped : BitVec w

/-- What `GetQueuedCompletionStatus` writes into the locals. -/
def Worker.getQueued (s : Worker w) : Outcome port → Worker w
  | .success p => ⟨p.key, p.overlapped.addr⟩
  | .failure p _ => ⟨p.key, p.overlapped.addr⟩
  | .empty _ => { s with pOverlapped := 0#w }

structure Call (w : Nat) where
  handler : BitVec w
  pIocpData : BitVec w
  size : DWORD

/-- `offsetof(PerIocpData, overlapped)`: it is the first member. -/
def overlappedOffset : Nat := 0

/-- `CONTAINING_RECORD(pOverlapped, PerIocpData, overlapped)` -/
def containingRecord (pOverlapped : BitVec w) : BitVec w :=
  pOverlapped - BitVec.ofNat w overlappedOffset

def Worker.dispatch (s : Worker w) : Option (Call w) :=
  let pIocpData := containingRecord s.pOverlapped
  if s.pHandle ≠ 0#w then some ⟨s.pHandle, pIocpData, iocpBufferSize⟩ else none

/-- `_WorkThread` over the outcomes it sees while `m_run` is set: what each iteration
saw and whether it called `Callback`. -/
def workThread (s : Worker w) : List (Outcome port) → List (Outcome port × Option (Call w))
  | [] => []
  | o :: rest =>
      let s := s.getQueued o
      if o.breaks then [(o, none)] else (o, s.dispatch) :: workThread s rest

def Worker.initial (w : Nat) : Worker w := ⟨0#w, 0#w⟩

/-- The call that a packet asks for: its own handler, the `PerIocpData` around its
`OVERLAPPED` and its own size. -/
structure Answers (p : Packet port) (c : Call w) : Prop where
  handler : c.handler = p.handler.addr
  pIocpData : c.pIocpData + BitVec.ofNat w overlappedOffset = p.overlapped.addr
  size : c.size = p.bytesTransferred

/-- An iteration calls `Callback` as the packet asks, and not without a packet. -/
def FaithfulTo (o : Outcome port) (call : Option (Call w)) : Prop :=
  match o.packet with
  | none => call = none
  | some p => ∃ c, call = some c ∧ Answers p c

def Faithful (outcomes : List (Outcome port)) : Prop :=
  ∀ taken ∈ workThread (Worker.initial w) outcomes, FaithfulTo taken.1 taken.2

/-- A packet of a full buffer for a handler in the lowest 4 GiB. -/
def Packet.Plain (p : Packet port) : Prop :=
  p.handler.addr.toNat < 2 ^ 32 ∧ p.bytesTransferred = iocpBufferSize

/-- All packets are plain and fail, if at all, with other codes than the one that
ends the loop; without a packet only that code, or nothing dequeued before. -/
def Dispatchable (dequeued : Bool) : List (Outcome port) → Prop
  | [] => True
  | .success p :: rest => p.Plain ∧ Dispatchable true rest
  | .failure p errorCode :: rest =>
      p.Plain ∧ errorCode ≠ errorInvalidHandle ∧ Dispatchable true rest
  | .empty errorCode :: rest =>
      errorCode = errorInvalidHandle ∨ (dequeued = false ∧ Dispatchable dequeued rest)

/-! ## The key -/

theorem completionKey_eq_iff (handler : BitVec w) :
    completionKey handler = handler ↔ handler.toNat < 2 ^ 32 := by
  have small := handler.isLt
  have fits : handler.toNat % 2 ^ 32 < 2 ^ w := Nat.lt_of_le_of_lt (Nat.mod_le _ _) small
  rw [← BitVec.toNat_inj, completionKey, BitVec.toNat_setWidth, BitVec.toNat_setWidth,
    Nat.mod_eq_of_lt fits]
  exact Nat.mod_eq_iff_lt (by decide)

theorem Packet.key_eq (p : Packet port) : p.key = completionKey p.handler.addr := by
  rw [Packet.key, port.keyed, p.registered]
  rfl

/-- The key of a handler in the lowest 4 GiB is its address. -/
theorem Packet.key_of_low {p : Packet port} (low : p.handler.addr.toNat < 2 ^ 32) :
    p.key = p.handler.addr := by
  rw [p.key_eq]
  exact (completionKey_eq_iff _).mpr low

theorem Packet.key_ne_zero_of_low {p : Packet port} (low : p.handler.addr.toNat < 2 ^ 32) :
    p.key ≠ 0#w := by
  rw [Packet.key_of_low low]
  exact p.handler.notNull

theorem containingRecord_add (pOverlapped : BitVec w) :
    containingRecord pOverlapped + BitVec.ofNat w overlappedOffset = pOverlapped :=
  BitVec.sub_add_cancel _ _

/-! ## One iteration -/

/-- The dispatch after a packet is the one it asks for exactly when it is plain. -/
theorem answers_dispatch_iff (p : Packet port) :
    (∃ c, (Worker.mk p.key p.overlapped.addr).dispatch = some c ∧ Answers p c) ↔ p.Plain := by
  constructor
  · rintro ⟨c, hc, answers⟩
    rw [Worker.dispatch, Option.ite_none_right_eq_some] at hc
    obtain ⟨_, hc⟩ := hc
    obtain rfl := Option.some.inj hc
    refine ⟨?_, answers.size.symm⟩
    rw [← completionKey_eq_iff, ← p.key_eq]
    exact answers.handler
  · rintro ⟨low, full⟩
    exact ⟨_, if_pos (Packet.key_ne_zero_of_low low), Packet.key_of_low low,
      containingRecord_add _, full.symm⟩

/-- Without a packet the worker keeps quiet exactly when it has no handler yet. -/
theorem dispatch_eq_none_iff (s : Worker w) : s.dispatch = none ↔ s.pHandle = 0#w := by
  by_cases h : s.pHandle = 0#w <;> simp [Worker.dispatch, h]

/-! ## The loop -/

/-- `pHandle` is NULL as long as nothing has been dequeued. -/
theorem faithful_iff_of_pHandle (outcomes : List (Outcome port)) {s : Worker w} {dequeued : Bool}
    (fresh : s.pHandle = 0#w ↔ dequeued = false) :
    (∀ taken ∈ workThread s outcomes, FaithfulTo taken.1 taken.2) ↔
      Dispatchable dequeued outcomes := by
  induction outcomes generalizing s dequeued with
  | nil => simp [workThread, Dispatchable]
  | cons o rest ih =>
      -- A plain packet leaves a handler behind for the iterations to come.
      have onwards : ∀ p : Packet port, p.Plain →
          ((∀ taken ∈ workThread ⟨p.key, p.overlapped.addr⟩ rest, FaithfulTo taken.1 taken.2) ↔
            Dispatchable true rest) := fun p plain =>
        ih (iff_of_false (Packet.key_ne_zero_of_low plain.1) (by decide))
      cases o with
      | success p =>
          rw [workThread, Outcome.breaks, if_neg Bool.false_ne_true, List.forall_mem_cons,
            Dispatchable]
          exact (and_congr_left' (answers_dispatch_iff p)).trans (and_congr_right (onwards p))
      | failure p errorCode =>
          rw [workThread, Outcome.breaks, Dispatchable]
          by_cases hcode : errorCode = errorInvalidHandle
          · rw [if_pos (beq_iff_eq.mpr hcode)]
            apply iff_of_false _ fun h => h.2.1 hcode
            intro all
            obtain ⟨c, hc, _⟩ := all _ List.mem_cons_self
            cases hc
          · rw [if_neg (mt beq_iff_eq.mp hcode), List.forall_mem_cons, and_iff_right hcode]
            exact (and_congr_left' (answers_dispatch_iff p)).trans (and_congr_right (onwards p))
      | empty errorCode =>
          rw [workThread, Outcome.breaks, Dispatchable]
          by_cases hcode : errorCode = errorInvalidHandle
          · rw [if_pos (beq_iff_eq.mpr hcode)]
            apply iff_of_true _ (.inl hcode)
            intro taken htaken
            rw [List.mem_singleton.mp htaken]
            rfl
          · rw [if_neg (mt beq_iff_eq.mp hcode), List.forall_mem_cons, or_iff_right hcode]
            refine and_congr ?_ (ih fresh)
            exact (dispatch_eq_none_iff _).trans fresh

/-- The worker calls `Callback` once for each packet it dequeues, as the packet asks,
and never without one, if and only if the outcomes it sees are dispatchable. -/
theorem faithful_iff_dispatchable (outcomes : List (Outcome port)) :
    Faithful outcomes ↔ Dispatchable false outcomes :=
  faithful_iff_of_pHandle outcomes (iff_of_true rfl rfl)

/-- A port of the x64 build with one handler, which lies above 4 GiB. -/
def highPort : Port 64 := (regHandle (Port.empty 64) 5 ⟨0x100001000#64, by decide⟩).2

/-- The completion of a send of six bytes. -/
def sixByteSend : Packet highPort where
  source := 5
  handler := ⟨0x100001000#64, by decide⟩
  registered := rfl
  overlapped := ⟨0x20000#64, by decide⟩
  bytesTransferred := 6#32

/-- That packet is dispatched with another handler and another size. -/
theorem sixByteSend_not_faithful :
    ¬∀ (w : Nat) (port : Port w) (outcomes : List (Outcome port)), Faithful outcomes := by
  intro all
  have faithful := all 64 highPort [.success sixByteSend]
  have plain := ((faithful_iff_of_pHandle _ (iff_of_true rfl rfl)).mp faithful).1
  exact absurd plain.2 (by decide)

end IocpTest.IOCPHelper
