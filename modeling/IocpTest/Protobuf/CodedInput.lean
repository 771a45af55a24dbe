import IocpTest.Protobuf.CodedOutput
import Mathlib.Tactic.IntervalCases
import Mathlib.Tactic.Ring

/-!
# Reading from a flat array

The unrolled readers of the protobuf runtime do not look where the buffer ends. They are only
entered when ten bytes are left or the last byte of the buffer ends a number; otherwise a
loop checks every byte. `overrun` is a read behind the end of the buffer.

`readVarint64_eq` and `readVarint32_eq` say that the readers find what `Varint.next` finds,
so they never read behind the end.
-/

namespace IocpTest.Protobuf

open Bytes Varint

/-- A read from an array: it went behind the end of the buffer, the bytes are no number, or
there is a value and what follows it. -/
inductive ArrayRead (α : Type) where
  | overrun
  | malformed
  | done (value : α) (rest : List Byte)

namespace ArrayRead

variable {α β : Type}

def ofOption : Option (α × List Byte) → ArrayRead α
  | none => .malformed
  | some r => .done r.1 r.2

def map (f : α → β) : ArrayRead α → ArrayRead β
  | overrun => .overrun
  | malformed => .malformed
  | done value rest => .done (f value) rest

def toOption : ArrayRead α → Option (α × List Byte)
  | done value rest => some (value, rest)
  | _ => none

@[simp] theorem toOption_ofOption (r : Option (α × List Byte)) : (ofOption r).toOption = r := by
  cases r <;> rfl

theorem map_ofOption (f : α → β) (r : Option (α × List Byte)) :
    (ofOption r).map f = ofOption (r.map fun x => (f x.1, x.2)) := by
  cases r <;> rfl

end ArrayRead

/-- `b & 0x80`: another byte follows. -/
def continues (b : Byte) : Bool := b &&& 0x80#8 != 0#8

/-- The three words that `ReadVarint64Fallback` collects the digits in. -/
structure Parts where
  part0 : Uint32
  part1 : Uint32
  part2 : Uint32

/-- The `i`-th unrolled line. -/
def Parts.read (parts : Parts) (i : Nat) (b : Byte) : Parts :=
  let digit : Uint32 := (b &&& 0x7F#8).setWidth 32
  if i < 4 then { parts with part0 := parts.part0 ||| digit <<< (7 * i) }
  else if i < 8 then { parts with part1 := parts.part1 ||| digit <<< (7 * (i - 4)) }
  else { parts with part2 := parts.part2 ||| digit <<< (7 * (i - 8)) }

def Parts.value (parts : Parts) : Uint64 :=
  parts.part0.setWidth 64 ||| parts.part1.setWidth 64 <<< 28 ||| parts.part2.setWidth 64 <<< 56

/-- The unchecked part of `ReadVarint64Fallback`, from its `i`-th line on. -/
def readVarint64FromArray (parts : Parts) (i : Nat) : Nat → List Byte → ArrayRead Uint64
  | 0, _ => .malformed
  | _ + 1, [] => .overrun
  | left + 1, b :: bs =>
      if continues b then readVarint64FromArray (parts.read i b) (i + 1) left bs
      else .done (parts.read i b).value bs

/-- `ReadVarint64Slow` -/
def readVarint64Slow (result : Uint64) (count : Nat) : List Byte → Option (Uint64 × List Byte)
  | [] => none
  | b :: bs =>
      if count = kMaxVarintBytes then none
      else
        let result := result ||| (b &&& 0x7F#8).setWidth 64 <<< (7 * count)
        if continues b then readVarint64Slow result (count + 1) bs else some (result, bs)

/-- The `i`-th unrolled line of `ReadVarint32FromArray`. -/
def readLine32 (result : Uint32) (i : Nat) (b : Byte) : Uint32 :=
  if i < 4 then result ||| (b &&& 0x7F#8).setWidth 32 <<< (7 * i)
  else if i = 4 then result ||| b.setWidth 32 <<< 28
  else result

/-- `ReadVarint32FromArray`: digits above the 32nd bit are read and dropped. -/
def readVarint32FromArray (result : Uint32) (i : Nat) : Nat → List Byte → ArrayRead Uint32
  | 0, _ => .malformed
  | _ + 1, [] => .overrun
  | left + 1, b :: bs =>
      if continues b then readVarint32FromArray (readLine32 result i b) (i + 1) left bs
      else .done (readLine32 result i b) bs

/-- When the unchecked readers are entered. -/
def endsInside (bs : List Byte) : Bool :=
  kMaxVarintBytes ≤ bs.length || bs.getLast?.any fun b => !continues b

/-- `ReadVarint64Fallback` -/
def readVarint64Fallback (bs : List Byte) : ArrayRead Uint64 :=
  if endsInside bs then readVarint64FromArray ⟨0#32, 0#32, 0#32⟩ 0 kMaxVarintBytes bs
  else .ofOption (readVarint64Slow 0#64 0 bs)

/-- `ReadVarint32Fallback`, `ReadVarint32Slow` -/
def readVarint32Fallback (bs : List Byte) : ArrayRead Uint32 :=
  if endsInside bs then readVarint32FromArray 0#32 0 kMaxVarintBytes bs
  else (readVarint64Fallback bs).map (BitVec.setWidth 32)

/-- `ReadVarint64` -/
def readVarint64 : List Byte → ArrayRead Uint64
  | [] => readVarint64Fallback []
  | b :: bs => if continues b then readVarint64Fallback (b :: bs) else .done (b.setWidth 64) bs

/-- `ReadVarint32` -/
def readVarint32 : List Byte → ArrayRead Uint32
  | [] => readVarint32Fallback []
  | b :: bs => if continues b then readVarint32Fallback (b :: bs) else .done (b.setWidth 32) bs

theorem continues_eq (b : Byte) : continues b = decide (128 ≤ b.toNat) := by
  revert b
  decide

theorem digit_toNat (b : Byte) : (b &&& 0x7F#8).toNat = b.toNat % 128 :=
  Nat.and_two_pow_sub_one_eq_mod b.toNat 7

/-- Digits that do not overlap add up. -/
theorem toNat_or_shiftLeft {w k : Nat} {low high : BitVec w} (room : k ≤ w)
    (small : low.toNat < 2 ^ k) :
    (low ||| high <<< k).toNat = (low.toNat + 2 ^ k * high.toNat) % 2 ^ w := by
  have width : 2 ^ w = 2 ^ k * 2 ^ (w - k) := by rw [← pow_add, Nat.add_sub_cancel' room]
  have above : (low.toNat + 2 ^ k * high.toNat) / 2 ^ k = high.toNat := by
    rw [Nat.add_mul_div_left _ _ (Nat.two_pow_pos k), Nat.div_eq_of_lt small, Nat.zero_add]
  calc (low ||| high <<< k).toNat
      = 2 ^ k * (high.toNat % 2 ^ (w - k)) ||| low.toNat := by
        rw [BitVec.toNat_or, BitVec.toNat_shiftLeft, Nat.shiftLeft_eq, Nat.mul_comm, width,
          Nat.mul_mod_mul_left, Nat.or_comm]
    _ = 2 ^ k * (high.toNat % 2 ^ (w - k)) + low.toNat :=
        (Nat.two_pow_add_eq_or_of_lt small _).symm
    _ = (low.toNat + 2 ^ k * high.toNat) % 2 ^ w := by
        rw [width, Nat.mod_mul, above, Nat.add_mul_mod_self_left, Nat.mod_eq_of_lt small,
          Nat.add_comm]

/-- The words hold `m`, 28 bits each. -/
structure Parts.Holds (parts : Parts) (m : Nat) : Prop where
  part0 : parts.part0.toNat = m % 2 ^ 28
  part1 : parts.part1.toNat = m / 2 ^ 28 % 2 ^ 28
  part2 : parts.part2.toNat = m / 2 ^ 56

theorem Parts.Holds.value {parts : Parts} {m : Nat} (holds : parts.Holds m) :
    parts.value = BitVec.ofNat 64 m := by
  have low := holds.part0
  have middle := holds.part1
  have high := holds.part2
  have first : (parts.part0.setWidth 64 ||| parts.part1.setWidth 64 <<< 28).toNat =
      m % 2 ^ 56 := by
    rw [toNat_or_shiftLeft (by omega) (by rw [BitVec.toNat_setWidth]; omega)]
    simp only [BitVec.toNat_setWidth]
    omega
  apply BitVec.eq_of_toNat_eq
  rw [Parts.value, toNat_or_shiftLeft (by omega) (by omega), first]
  simp only [BitVec.toNat_setWidth, BitVec.toNat_ofNat]
  omega

/-- The next digit goes to its place. -/
theorem Parts.Holds.read {parts : Parts} {m i : Nat} (holds : parts.Holds m)
    (small : m < 128 ^ i) (line : i < 10) (b : Byte) :
    (parts.read i b).Holds (m + 128 ^ i * (b.toNat % 128)) := by
  have low := holds.part0
  have middle := holds.part1
  have high := holds.part2
  have digit : ((b &&& 0x7F#8).setWidth 32).toNat = b.toNat % 128 := by
    rw [BitVec.toNat_setWidth, digit_toNat]
    omega
  have byte : b.toNat % 128 < 128 := Nat.mod_lt _ (by decide)
  have placed : ∀ (part : Uint32) (k : Nat), k ≤ 21 → part.toNat < 2 ^ k →
      (part ||| (b &&& 0x7F#8).setWidth 32 <<< k).toNat =
        part.toNat + 2 ^ k * (b.toNat % 128) := by
    intro part k room below
    have power : 2 ^ k ≤ 2 ^ 21 := Nat.pow_le_pow_right (by decide) room
    have product : 2 ^ k * (b.toNat % 128) ≤ 2 ^ 21 * 127 :=
      Nat.mul_le_mul power (Nat.le_of_lt_succ byte)
    rw [toNat_or_shiftLeft (by omega) below, digit, Nat.mod_eq_of_lt (by omega)]
  interval_cases i <;>
    simp only [Parts.read, Nat.reduceLT, if_true, if_false, Nat.reduceSub, Nat.reduceMul] <;>
    constructor <;> simp only [low, middle, high] <;>
    first
    | omega
    | rw [placed _ _ (by omega) (by omega)]; omega

section

variable {m i left : Nat} {bs : List Byte}

theorem next_cons_of_lt {b : Byte} (ends : b.toNat < 128) (k : Nat) :
    next (k + 1) (b :: bs) = some (b.toNat, bs) := if_pos ends

theorem next_cons_of_ge {b : Byte} (more : ¬b.toNat < 128) (k : Nat) :
    next (k + 1) (b :: bs) = (next k bs).map fun r => (b.toNat % 128 + 128 * r.1, r.2) :=
  if_neg more

/-- The digits read so far and those to come. -/
def shifted (m i : Nat) (w : Nat) (r : Nat × List Byte) : BitVec w × List Byte :=
  (BitVec.ofNat w (m + 128 ^ i * r.1), r.2)

theorem shifted_cons (m i w d : Nat) :
    shifted (m + 128 ^ i * d) (i + 1) w = fun r => shifted m i w (d + 128 * r.1, r.2) := by
  funext r
  have sum : m + 128 ^ i * d + 128 ^ (i + 1) * r.1 = m + 128 ^ i * (d + 128 * r.1) := by ring
  simp only [shifted, sum]

theorem digit_small (small : m < 128 ^ i) (b : Byte) :
    m + 128 ^ i * (b.toNat % 128) < 128 ^ (i + 1) := by
  have digit : b.toNat % 128 ≤ 127 := Nat.le_of_lt_succ (Nat.mod_lt _ (by decide))
  calc m + 128 ^ i * (b.toNat % 128)
      < 128 ^ i + 128 ^ i * 127 := Nat.add_lt_add_of_lt_of_le small (Nat.mul_le_mul_left _ digit)
    _ = 128 ^ (i + 1) := by ring

/-- With enough bytes left, or a number that ends among them, the unchecked lines read the
number and nothing behind the end. -/
theorem readVarint64FromArray_eq {parts : Parts} (holds : parts.Holds m) (small : m < 128 ^ i)
    (lines : i + left = 10) (safe : left ≤ bs.length ∨ (next left bs).isSome) :
    readVarint64FromArray parts i left bs = .ofOption ((next left bs).map (shifted m i 64)) := by
  induction left generalizing parts m i bs with
  | zero => simp [readVarint64FromArray, next, ArrayRead.ofOption]
  | succ left ih =>
      cases bs with
      | nil => simp [next] at safe
      | cons b bs =>
          have read := holds.read small (by omega) b
          rw [readVarint64FromArray, continues_eq]
          by_cases ends : b.toNat < 128
          · have value := read.value
            rw [Nat.mod_eq_of_lt ends] at value
            simp [next_cons_of_lt ends, Nat.not_le.mpr ends, value, shifted, ArrayRead.ofOption]
          · rw [next_cons_of_ge ends] at safe ⊢
            have rest := ih read (digit_small small b) (by omega)
              (by simpa [Option.isSome_map] using safe)
            simp only [Nat.not_lt.mp ends, decide_true, if_true, rest, shifted_cons,
              Option.map_map, Function.comp_def]

/-- The next digit is added, and what does not fit into the word falls out. -/
theorem toNat_or_digit {w : Nat} {result : BitVec w} (holds : result.toNat = m % 2 ^ w)
    (small : m < 128 ^ i) (wide : 8 ≤ w) (room : 7 * i ≤ w) (b : Byte) :
    (result ||| (b &&& 0x7F#8).setWidth w <<< (7 * i)).toNat =
      (m + 128 ^ i * (b.toNat % 128)) % 2 ^ w := by
  have power : 128 ^ i = 2 ^ (7 * i) := (pow_mul 2 7 i).symm
  have whole : m % 2 ^ w = m := by
    apply Nat.mod_eq_of_lt
    exact Nat.lt_of_lt_of_le (power ▸ small) (Nat.pow_le_pow_right (by decide) room)
  have digit : ((b &&& 0x7F#8).setWidth w).toNat = b.toNat % 128 := by
    have eight : 2 ^ 8 ≤ 2 ^ w := Nat.pow_le_pow_right (by decide) wide
    rw [BitVec.toNat_setWidth, digit_toNat, Nat.mod_eq_of_lt (by omega)]
  rw [toNat_or_shiftLeft room (by rw [holds, whole, ← power]; exact small), holds, whole, digit,
    power]

theorem readVarint64Slow_eq {result : Uint64} (holds : result.toNat = m % 2 ^ 64)
    (small : m < 128 ^ i) (lines : i + left = 10) :
    readVarint64Slow result i bs = (next left bs).map (shifted m i 64) := by
  induction bs generalizing result m i left with
  | nil => cases left <;> simp [readVarint64Slow, next]
  | cons b bs ih =>
      cases left with
      | zero => simp [readVarint64Slow, next, kMaxVarintBytes, show i = 10 by omega]
      | succ left =>
          have early : i ≠ kMaxVarintBytes := fun last => by
            rw [kMaxVarintBytes] at last
            omega
          have sum := toNat_or_digit holds small (by omega) (by omega) b
          rw [readVarint64Slow, if_neg early, continues_eq]
          by_cases ends : b.toNat < 128
          · rw [Nat.mod_eq_of_lt ends, ← BitVec.toNat_ofNat] at sum
            simp only [next_cons_of_lt ends, Nat.not_le.mpr ends, BitVec.eq_of_toNat_eq sum,
              decide_false, Bool.false_eq_true, if_false, shifted, Option.map_some]
          · have rest := @ih _ _ left _ sum (digit_small small b) (by omega)
            simp only [next_cons_of_ge ends, Nat.not_lt.mp ends, decide_true, if_true, rest,
              shifted_cons, Option.map_map, Function.comp_def]

theorem toNat_readLine32 {result : Uint32} (holds : result.toNat = m % 2 ^ 32)
    (small : m < 128 ^ i) (b : Byte) :
    (readLine32 result i b).toNat = (m + 128 ^ i * (b.toNat % 128)) % 2 ^ 32 := by
  rw [readLine32]
  split_ifs with first fifth
  · exact toNat_or_digit holds small (by omega) (by omega) b
  · subst fifth
    have bound := b.isLt
    have low : result.toNat < 2 ^ 28 := by omega
    rw [toNat_or_shiftLeft (by omega) low, BitVec.toNat_setWidth]
    omega
  · obtain ⟨j, rfl⟩ : ∃ j, i = j + 5 := ⟨i - 5, by omega⟩
    have high : 128 ^ (j + 5) * (b.toNat % 128) = 2 ^ 32 * (8 * 128 ^ j * (b.toNat % 128)) := by
      ring
    rw [high, Nat.add_mul_mod_self_left, holds]

theorem readVarint32FromArray_eq {result : Uint32} (holds : result.toNat = m % 2 ^ 32)
    (small : m < 128 ^ i) (safe : left ≤ bs.length ∨ (next left bs).isSome) :
    readVarint32FromArray result i left bs = .ofOption ((next left bs).map (shifted m i 32)) := by
  induction left generalizing result m i bs with
  | zero => simp [readVarint32FromArray, next, ArrayRead.ofOption]
  | succ left ih =>
      cases bs with
      | nil => simp [next] at safe
      | cons b bs =>
          have sum := toNat_readLine32 holds small b
          rw [readVarint32FromArray, continues_eq]
          by_cases ends : b.toNat < 128
          · rw [Nat.mod_eq_of_lt ends, ← BitVec.toNat_ofNat] at sum
            simp [next_cons_of_lt ends, Nat.not_le.mpr ends, BitVec.eq_of_toNat_eq sum, shifted,
              ArrayRead.ofOption]
          · rw [next_cons_of_ge ends] at safe ⊢
            have rest := ih sum (digit_small small b) (by simpa [Option.isSome_map] using safe)
            simp only [Nat.not_lt.mp ends, decide_true, if_true, rest, shifted_cons,
              Option.map_map, Function.comp_def]

theorem safe_of_endsInside (ends : endsInside bs = true) :
    kMaxVarintBytes ≤ bs.length ∨ (next kMaxVarintBytes bs).isSome := by
  rcases Nat.lt_or_ge bs.length kMaxVarintBytes with short | long
  · cases found : bs.getLast? with
    | none => simp [endsInside, Nat.not_le.mpr short, found] at ends
    | some b =>
        have stop : b.toNat < 128 := by
          simpa [endsInside, Nat.not_le.mpr short, found, continues_eq] using ends
        exact .inr (next_isSome_of_last short.le found stop)
  · exact .inl long

end

theorem shifted_zero (w : Nat) :
    shifted 0 0 w = fun r => (BitVec.ofNat w r.1, r.2) := by
  funext r
  simp [shifted]

theorem readVarint64Slow_next (bs : List Byte) :
    readVarint64Slow 0#64 0 bs =
      (next kMaxVarintBytes bs).map fun r => (BitVec.ofNat 64 r.1, r.2) := by
  rw [← shifted_zero]
  exact readVarint64Slow_eq (by simp) (by simp) (by simp [kMaxVarintBytes])

theorem readVarint64FromArray_next {bs : List Byte} (inside : endsInside bs = true) :
    readVarint64FromArray ⟨0#32, 0#32, 0#32⟩ 0 kMaxVarintBytes bs =
      .ofOption ((next kMaxVarintBytes bs).map fun r => (BitVec.ofNat 64 r.1, r.2)) := by
  have empty : Parts.Holds ⟨0#32, 0#32, 0#32⟩ 0 := ⟨by simp, by simp, by simp⟩
  rw [← shifted_zero]
  exact readVarint64FromArray_eq empty (by simp) (by simp [kMaxVarintBytes])
    (safe_of_endsInside inside)

theorem readVarint32FromArray_next {bs : List Byte} (inside : endsInside bs = true) :
    readVarint32FromArray 0#32 0 kMaxVarintBytes bs =
      .ofOption ((next kMaxVarintBytes bs).map fun r => (BitVec.ofNat 32 r.1, r.2)) := by
  rw [← shifted_zero]
  exact readVarint32FromArray_eq (by simp) (by simp) (safe_of_endsInside inside)

theorem map_setWidth_ofOption (r : Option (Nat × List Byte)) :
    (ArrayRead.ofOption (r.map fun r => (BitVec.ofNat 64 r.1, r.2))).map (BitVec.setWidth 32) =
      .ofOption (r.map fun r => (BitVec.ofNat 32 r.1, r.2)) := by
  rw [ArrayRead.map_ofOption, Option.map_map]
  congr 2
  funext r
  simp [BitVec.setWidth_ofNat_of_le]

/-- Wherever the unrolled readers are entered they stay inside the buffer and read what the
loop with its checks reads, or its lower half. -/
theorem readFromArray_eq_slow {bs : List Byte} (inside : endsInside bs = true) :
    readVarint64FromArray ⟨0#32, 0#32, 0#32⟩ 0 kMaxVarintBytes bs =
        .ofOption (readVarint64Slow 0#64 0 bs) ∧
      readVarint32FromArray 0#32 0 kMaxVarintBytes bs =
        (ArrayRead.ofOption (readVarint64Slow 0#64 0 bs)).map (BitVec.setWidth 32) := by
  rw [readVarint64Slow_next, map_setWidth_ofOption]
  exact ⟨readVarint64FromArray_next inside, readVarint32FromArray_next inside⟩

/-- The number 150, and a byte that is not read. -/
theorem readFromArray_eq_slow_two :
    readVarint64FromArray ⟨0#32, 0#32, 0#32⟩ 0 kMaxVarintBytes [0x96#8, 0x01#8, 0x05#8] =
        .ofOption (readVarint64Slow 0#64 0 [0x96#8, 0x01#8, 0x05#8]) ∧
      readVarint32FromArray 0#32 0 kMaxVarintBytes [0x96#8, 0x01#8, 0x05#8] =
        (ArrayRead.ofOption (readVarint64Slow 0#64 0 [0x96#8, 0x01#8, 0x05#8])).map
          (BitVec.setWidth 32) :=
  readFromArray_eq_slow (by decide)

/-- The reader of 64-bit numbers: whichever way it takes, it stays inside the buffer and finds
the number at its start. -/
theorem readVarint64Fallback_eq (bs : List Byte) :
    readVarint64Fallback bs =
      .ofOption ((next kMaxVarintBytes bs).map fun r => (BitVec.ofNat 64 r.1, r.2)) := by
  rw [readVarint64Fallback]
  split
  · next inside => exact readVarint64FromArray_next inside
  · exact congrArg ArrayRead.ofOption (readVarint64Slow_next bs)

theorem readVarint32Fallback_eq (bs : List Byte) :
    readVarint32Fallback bs =
      .ofOption ((next kMaxVarintBytes bs).map fun r => (BitVec.ofNat 32 r.1, r.2)) := by
  rw [readVarint32Fallback]
  split
  · next inside => exact readVarint32FromArray_next inside
  · rw [readVarint64Fallback_eq, map_setWidth_ofOption]

theorem readVarint64_eq (bs : List Byte) :
    readVarint64 bs =
      .ofOption ((next kMaxVarintBytes bs).map fun r => (BitVec.ofNat 64 r.1, r.2)) := by
  cases bs with
  | nil => exact readVarint64Fallback_eq []
  | cons b bs =>
      rw [readVarint64, continues_eq]
      by_cases ends : b.toNat < 128
      · simp [next_cons_of_lt ends, Nat.not_le.mpr ends, kMaxVarintBytes, ArrayRead.ofOption]
      · simp only [Nat.not_lt.mp ends, decide_true, if_true, readVarint64Fallback_eq]

theorem readVarint32_eq (bs : List Byte) :
    readVarint32 bs =
      .ofOption ((next kMaxVarintBytes bs).map fun r => (BitVec.ofNat 32 r.1, r.2)) := by
  cases bs with
  | nil => exact readVarint32Fallback_eq []
  | cons b bs =>
      rw [readVarint32, continues_eq]
      by_cases ends : b.toNat < 128
      · simp [next_cons_of_lt ends, Nat.not_le.mpr ends, kMaxVarintBytes, ArrayRead.ofOption]
      · simp only [Nat.not_lt.mp ends, decide_true, if_true, readVarint32Fallback_eq]

/-! ## Tags and raw bytes -/

/-- `ReadTagFallback` with `ReadTagSlow`, while bytes are left. -/
def readTagFallback (bs : List Byte) : ArrayRead Uint32 :=
  if endsInside bs then readVarint32FromArray 0#32 0 kMaxVarintBytes bs
  else (readVarint64 bs).map (BitVec.setWidth 32)

/-- `ReadTag`. At the end of the bytes, and where there is no number, the tag is 0. -/
def readTag : List Byte → Uint32 × List Byte
  | [] => (0#32, [])
  | b :: bs =>
      if continues b then (readTagFallback (b :: bs)).toOption.getD (0#32, b :: bs)
      else (b.setWidth 32, bs)

/-- `ExpectTag` -/
def expectTag (expected : Uint32) (bs : List Byte) : Option (List Byte) :=
  if expected < 1#32 <<< 7 then
    match bs with
    | b :: rest => if b.setWidth 32 = expected then some rest else none
    | [] => none
  else if expected < 1#32 <<< 14 then
    match bs with
    | b :: b' :: rest =>
        if b = continued expected ∧ b' = (expected >>> 7).setWidth 8 then some rest else none
    | _ => none
  else none

/-- `ReadLittleEndian32` -/
def readLittleEndian32 (bs : List Byte) : Option (Uint32 × List Byte) :=
  if 4 ≤ bs.length then some (BitVec.ofNat 32 (leNat (bs.take 4)), bs.drop 4) else none

/-- `ReadLittleEndian64` -/
def readLittleEndian64 (bs : List Byte) : Option (Uint64 × List Byte) :=
  if 8 ≤ bs.length then some (BitVec.ofNat 64 (leNat (bs.take 8)), bs.drop 8) else none

/-- `ReadString`. The length is an `int`. -/
def readString (size : Uint32) (bs : List Byte) : Option (List Byte × List Byte) :=
  if size.msb then none
  else if size.toNat ≤ bs.length then some (bs.take size.toNat, bs.drop size.toNat)
  else none

theorem readTag_eq (bs : List Byte) :
    readTag bs = ((next kMaxVarintBytes bs).map fun r => (BitVec.ofNat 32 r.1, r.2)).getD
      (0#32, bs) := by
  cases bs with
  | nil => simp [readTag, next, kMaxVarintBytes]
  | cons b bs =>
      have fallback : readTagFallback (b :: bs) =
          .ofOption ((next kMaxVarintBytes (b :: bs)).map fun r => (BitVec.ofNat 32 r.1, r.2)) := by
        rw [← readVarint32Fallback_eq, readTagFallback, readVarint32Fallback, readVarint64_eq,
          readVarint64Fallback_eq]
      rw [readTag, continues_eq, fallback, ArrayRead.toOption_ofOption]
      by_cases ends : b.toNat < 128
      · simp [next_cons_of_lt ends, Nat.not_le.mpr ends, kMaxVarintBytes]
      · simp only [Nat.not_lt.mp ends, decide_true, if_true]

/-- A reader that stays within the bytes it was given: more bytes behind them change nothing. -/
structure Forward {α : Type} (read : List Byte → Option (α × List Byte)) : Prop where
  append : ∀ {bs v rest}, read bs = some (v, rest) → ∀ more,
    read (bs ++ more) = some (v, rest ++ more)
  shorter : ∀ {bs v rest}, read bs = some (v, rest) → rest.length ≤ bs.length

theorem forward_next : Forward (next kMaxVarintBytes) :=
  ⟨fun h more => next_append h more, fun h => (next_length h).le⟩

theorem Forward.map {α β : Type} {read : List Byte → Option (α × List Byte)}
    (forward : Forward read) (f : α → β) :
    Forward fun bs => (read bs).map fun r => (f r.1, r.2) := by
  constructor
  · intro bs v rest h more
    obtain ⟨⟨u, rest'⟩, found, eq⟩ := Option.map_eq_some_iff.mp h
    obtain ⟨rfl, rfl⟩ := Prod.mk.inj eq
    simp [forward.append found more]
  · intro bs v rest h
    obtain ⟨⟨u, rest'⟩, found, eq⟩ := Option.map_eq_some_iff.mp h
    obtain ⟨rfl, rfl⟩ := Prod.mk.inj eq
    exact forward.shorter found

theorem Forward.bind {α β : Type} {read : List Byte → Option (α × List Byte)}
    {then_ : α → List Byte → Option (β × List Byte)} (first : Forward read)
    (second : ∀ a, Forward (then_ a)) :
    Forward fun bs => (read bs).bind fun r => then_ r.1 r.2 := by
  constructor
  · intro bs v rest h more
    obtain ⟨⟨u, middle⟩, found, next⟩ := Option.bind_eq_some_iff.mp h
    simp [first.append found more, (second u).append next more]
  · intro bs v rest h
    obtain ⟨⟨u, middle⟩, found, next⟩ := Option.bind_eq_some_iff.mp h
    exact ((second u).shorter next).trans (first.shorter found)

theorem forward_readVarint64 : Forward fun bs => (readVarint64 bs).toOption := by
  simpa only [readVarint64_eq, ArrayRead.toOption_ofOption] using
    forward_next.map (BitVec.ofNat 64)

theorem forward_readVarint32 : Forward fun bs => (readVarint32 bs).toOption := by
  simpa only [readVarint32_eq, ArrayRead.toOption_ofOption] using
    forward_next.map (BitVec.ofNat 32)

theorem readVarint64_shorter {bs rest : List Byte} {value : Uint64}
    (found : (readVarint64 bs).toOption = some (value, rest)) : rest.length < bs.length := by
  rw [readVarint64_eq, ArrayRead.toOption_ofOption] at found
  obtain ⟨r, varint, eq⟩ := Option.map_eq_some_iff.mp found
  obtain ⟨_, rfl⟩ := Prod.mk.inj eq
  exact next_length varint

theorem readVarint32_shorter {bs rest : List Byte} {value : Uint32}
    (found : (readVarint32 bs).toOption = some (value, rest)) : rest.length < bs.length := by
  rw [readVarint32_eq, ArrayRead.toOption_ofOption] at found
  obtain ⟨r, varint, eq⟩ := Option.map_eq_some_iff.mp found
  obtain ⟨_, rfl⟩ := Prod.mk.inj eq
  exact next_length varint

theorem forward_take {α : Type} (n : Nat) (f : List Byte → α) :
    Forward fun bs => if n ≤ bs.length then some (f (bs.take n), bs.drop n) else none := by
  constructor
  · intro bs v rest h more
    obtain ⟨room, eq⟩ := Option.ite_none_right_eq_some.mp h
    obtain ⟨rfl, rfl⟩ := Prod.mk.inj (Option.some.inj eq)
    have longer : n ≤ (bs ++ more).length := by
      simp only [List.length_append]
      omega
    rw [if_pos longer, List.take_append_of_le_length room, List.drop_append_of_le_length room]
  · intro bs v rest h
    obtain ⟨_, eq⟩ := Option.ite_none_right_eq_some.mp h
    obtain ⟨rfl, rfl⟩ := Prod.mk.inj (Option.some.inj eq)
    simp

theorem forward_readString (size : Uint32) : Forward (readString size) := by
  cases negative : size.msb with
  | true =>
      have none : readString size = fun _ => none := funext fun bs => by
        simp [readString, negative]
      rw [none]
      exact ⟨fun h => by simp at h, fun h => by simp at h⟩
  | false =>
      have take : readString size = fun bs =>
          if size.toNat ≤ bs.length then some (id (bs.take size.toNat), bs.drop size.toNat)
          else Option.none := funext fun bs => by simp [readString, negative]
      rw [take]
      exact forward_take size.toNat id

theorem setWidth_signExtend (value : Uint32) : (value.signExtend 64).setWidth 32 = value := by
  ext i hi
  simp [BitVec.getElem_signExtend, hi, show i < 64 by omega]

section

variable (rest : List Byte)

/-- What the writers write is read back. -/
theorem readVarint64_write (value : Uint64) :
    (readVarint64 (writeVarint64ToArray value ++ rest)).toOption = some (value, rest) := by
  have small : value.toNat < 128 ^ 10 := Nat.lt_trans value.isLt (by decide)
  rw [writeVarint64ToArray_eq, readVarint64_eq, ArrayRead.toOption_ofOption, kMaxVarintBytes,
    next_encode small]
  simp

/-- The reader of 32-bit numbers drops the upper half. -/
theorem readVarint32_encode (value : Uint64) :
    (readVarint32 (encode kMaxVarintBytes value.toNat ++ rest)).toOption =
      some (value.setWidth 32, rest) := by
  have small : value.toNat < 128 ^ 10 := Nat.lt_trans value.isLt (by decide)
  rw [readVarint32_eq, ArrayRead.toOption_ofOption, kMaxVarintBytes, next_encode small]
  simp

theorem readVarint32_write (value : Uint32) :
    (readVarint32 (writeVarint32ToArray value ++ rest)).toOption = some (value, rest) := by
  have wide := readVarint32_encode rest (value.setWidth 64)
  rw [BitVec.toNat_setWidth_of_le (by omega), BitVec.setWidth_setWidth_of_le _ (by omega),
    BitVec.setWidth_eq] at wide
  rw [writeVarint32ToArray_eq, wide]

theorem readVarint32_writeSignExtended (value : Uint32) :
    (readVarint32 (writeVarint32SignExtendedToArray value ++ rest)).toOption =
      some (value, rest) := by
  rw [writeVarint32SignExtendedToArray_eq, readVarint32_encode, setWidth_signExtend]

theorem readTag_write (tag : Uint32) : readTag (writeTagToArray tag ++ rest) = (tag, rest) := by
  have small : tag.toNat < 128 ^ 10 := Nat.lt_trans tag.isLt (by decide)
  rw [writeTagToArray_eq, readTag_eq, kMaxVarintBytes, next_encode small]
  simp

end

theorem readTag_append {tag : Uint32} {bs rest : List Byte} (read : readTag bs = (tag, rest))
    (valid : tag ≠ 0#32) (more : List Byte) : readTag (bs ++ more) = (tag, rest ++ more) := by
  rw [readTag_eq] at read ⊢
  cases found : next kMaxVarintBytes bs with
  | none =>
      rw [found] at read
      exact absurd (Prod.mk.inj read).1.symm valid
  | some r =>
      rw [found] at read
      obtain ⟨rfl, rfl⟩ := Prod.mk.inj read
      simp [next_append found more]

theorem readTag_shorter {tag : Uint32} {bs rest : List Byte} (read : readTag bs = (tag, rest))
    (valid : tag ≠ 0#32) : rest.length < bs.length := by
  rw [readTag_eq] at read
  cases found : next kMaxVarintBytes bs with
  | none =>
      rw [found] at read
      exact absurd (Prod.mk.inj read).1.symm valid
  | some r =>
      rw [found] at read
      obtain ⟨rfl, rfl⟩ := Prod.mk.inj read
      exact next_length found

theorem readTag_length_le (bs : List Byte) : (readTag bs).2.length ≤ bs.length := by
  rw [readTag_eq]
  cases found : next kMaxVarintBytes bs with
  | none => simp
  | some r => simpa using (next_length found).le

/-- A tag that was expected is the one that `ReadTag` reads. -/
theorem readTag_of_expectTag {expected : Uint32} {bs rest : List Byte}
    (found : expectTag expected bs = some rest) : readTag bs = (expected, rest) := by
  have wide : 8 ≤ 32 := by omega
  simp only [expectTag.eq_def] at found
  split_ifs at found with one two
  · split at found
    · next b rest' =>
        obtain ⟨rfl, same⟩ := Option.ite_none_right_eq_some.mp found
        obtain rfl := Option.some.inj same
        have ends : b.toNat < 128 := by
          simp only [BitVec.lt_def, BitVec.toNat_setWidth, BitVec.toNat_shiftLeft,
            BitVec.toNat_ofNat, Nat.shiftLeft_eq] at one
          omega
        simp [readTag, continues_eq, Nat.not_le.mpr ends]
    · cases found
  · split at found
    · next b b' rest' =>
        obtain ⟨⟨rfl, rfl⟩, same⟩ := Option.ite_none_right_eq_some.mp found
        obtain rfl := Option.some.inj same
        have read := readTag_write rest' expected
        rw [writeTagToArray, if_neg one, if_pos two] at read
        simpa only [List.cons_append, List.nil_append] using read
    · cases found

end IocpTest.Protobuf
