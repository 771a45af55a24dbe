import IocpTest.Data.Varint

/-!
# Writing to a flat array

The protobuf runtime writes a varint with unrolled code that splits a 64-bit value into
three words and looks up the number of bytes in a search tree. Each writer is compared with
`Varint.encode`, and each size function with the length of what is written.
-/

namespace IocpTest.Protobuf

open Bytes Varint

abbrev Uint32 := BitVec 32
abbrev Uint64 := BitVec 64

/-- `kMaxVarintBytes` -/
def kMaxVarintBytes : Nat := 10

/-- `static_cast<uint8>(x | 0x80)` -/
def continued {w : Nat} (x : BitVec w) : Byte := (x ||| BitVec.ofNat w 0x80).setWidth 8

/-- `WriteVarint32FallbackToArray` -/
def writeVarint32FallbackToArray (value : Uint32) : List Byte :=
  if value ≥ 1#32 <<< 7 then
    if value ≥ 1#32 <<< 14 then
      if value ≥ 1#32 <<< 21 then
        if value ≥ 1#32 <<< 28 then
          [continued value, continued (value >>> 7), continued (value >>> 14),
            continued (value >>> 21), (value >>> 28).setWidth 8]
        else
          [continued value, continued (value >>> 7), continued (value >>> 14),
            continued (value >>> 21) &&& 0x7F#8]
      else [continued value, continued (value >>> 7), continued (value >>> 14) &&& 0x7F#8]
    else [continued value, continued (value >>> 7) &&& 0x7F#8]
  else [continued value &&& 0x7F#8]

/-- `WriteVarint32ToArray` -/
def writeVarint32ToArray (value : Uint32) : List Byte :=
  if value < 0x80#32 then [value.setWidth 8] else writeVarint32FallbackToArray value

/-- `WriteTagToArray` -/
def writeTagToArray (value : Uint32) : List Byte :=
  if value < 1#32 <<< 7 then [value.setWidth 8]
  else if value < 1#32 <<< 14 then [continued value, (value >>> 7).setWidth 8]
  else writeVarint32FallbackToArray value

/-- The words from which `WriteVarint64ToArray` takes its bytes, in order. -/
def varintParts (value : Uint64) : List Uint32 :=
  let part0 : Uint32 := value.setWidth 32
  let part1 : Uint32 := (value >>> 28).setWidth 32
  let part2 : Uint32 := (value >>> 56).setWidth 32
  [part0, part0 >>> 7, part0 >>> 14, part0 >>> 21, part1, part1 >>> 7, part1 >>> 14,
    part1 >>> 21, part2, part2 >>> 7]

/-- The search tree of `WriteVarint64ToArray` for the number of bytes. -/
def varintArraySize (value : Uint64) : Nat :=
  let part0 : Uint32 := value.setWidth 32
  let part1 : Uint32 := (value >>> 28).setWidth 32
  let part2 : Uint32 := (value >>> 56).setWidth 32
  if part2 = 0#32 then
    if part1 = 0#32 then
      if part0 < 1#32 <<< 14 then
        if part0 < 1#32 <<< 7 then 1 else 2
      else
        if part0 < 1#32 <<< 21 then 3 else 4
    else
      if part1 < 1#32 <<< 14 then
        if part1 < 1#32 <<< 7 then 5 else 6
      else
        if part1 < 1#32 <<< 21 then 7 else 8
  else
    if part2 < 1#32 <<< 7 then 9 else 10

/-- `WriteVarint64ToArray`: every byte is written with its high bit, and the last one
loses it again. -/
def writeVarint64ToArray (value : Uint64) : List Byte :=
  let size := varintArraySize value
  (((varintParts value).take size).map continued).modify (size - 1) (· &&& 0x7F#8)

/-- `VarintSize32` with its fallback. -/
def varintSize32 (value : Uint32) : Nat :=
  if value < 1#32 <<< 7 then 1
  else if value < 1#32 <<< 14 then 2
  else if value < 1#32 <<< 21 then 3
  else if value < 1#32 <<< 28 then 4
  else 5

/-- `VarintSize64` -/
def varintSize64 (value : Uint64) : Nat :=
  if value < 1#64 <<< 35 then
    if value < 1#64 <<< 7 then 1
    else if value < 1#64 <<< 14 then 2
    else if value < 1#64 <<< 21 then 3
    else if value < 1#64 <<< 28 then 4
    else 5
  else
    if value < 1#64 <<< 42 then 6
    else if value < 1#64 <<< 49 then 7
    else if value < 1#64 <<< 56 then 8
    else if value < 1#64 <<< 63 then 9
    else 10

theorem continued_eq {w : Nat} (wide : 8 ≤ w) (x : BitVec w) :
    continued x = BitVec.ofNat 8 (x.toNat % 128 + 128) := by
  have bytes : ∀ b : Byte, b ||| 0x80#8 = BitVec.ofNat 8 (b.toNat % 128 + 128) := by decide
  have high : (BitVec.ofNat w 0x80).setWidth 8 = 0x80#8 := by
    apply BitVec.eq_of_toNat_eq
    have : 2 ^ 8 ≤ 2 ^ w := Nat.pow_le_pow_right (by decide) wide
    simp [Nat.mod_eq_of_lt (show 128 < 2 ^ w by omega)]
  rw [continued, BitVec.setWidth_or, high, bytes, BitVec.toNat_setWidth]
  congr 2
  omega

/-- Without its high bit a byte is the digit alone. -/
theorem ended_digit {d : Nat} (small : d < 128) :
    BitVec.ofNat 8 (d + 128) &&& 0x7F#8 = BitVec.ofNat 8 d := by
  have mask : (d + 128) &&& 127 = (d + 128) % 2 ^ 7 := Nat.and_two_pow_sub_one_eq_mod _ 7
  apply BitVec.eq_of_toNat_eq
  rw [BitVec.toNat_and, BitVec.toNat_ofNat, Nat.mod_eq_of_lt (by omega)]
  refine mask.trans ?_
  simp only [BitVec.toNat_ofNat]
  omega

theorem ended_eq {w : Nat} (wide : 8 ≤ w) (x : BitVec w) :
    continued x &&& 0x7F#8 = BitVec.ofNat 8 (x.toNat % 128) := by
  rw [continued_eq wide, ended_digit (Nat.mod_lt _ (by decide))]

/-- `n` has `j + 1` digits in base 128. -/
structure Digits (j n : Nat) : Prop where
  low : j = 0 ∨ 128 ^ j ≤ n
  high : n < 128 ^ (j + 1)

theorem Digits.length {j k n : Nat} (digits : Digits j n) (room : j < k) :
    (encode k n).length = j + 1 :=
  encode_length room digits.low digits.high

theorem Digits.encode_eq {j k n : Nat} (digits : Digits j n) (room : j < k) :
    encode k n =
      (List.range j).map (fun i => BitVec.ofNat 8 (n / 128 ^ i % 128 + 128)) ++
        [BitVec.ofNat 8 (n / 128 ^ j % 128)] := by
  have small : n / 128 ^ j < 128 :=
    Nat.div_lt_of_lt_mul (by simpa [pow_succ] using digits.high)
  rw [Nat.mod_eq_of_lt small]
  exact encode_eq_digits room digits.low digits.high

/-- The words hold the digits of the value, each in its low seven bits. -/
theorem map_continued_varintParts (value : Uint64) :
    (varintParts value).map continued =
      (List.range 10).map fun i => BitVec.ofNat 8 (value.toNat / 128 ^ i % 128 + 128) := by
  have wide : 8 ≤ 32 := by omega
  have bound := value.isLt
  simp only [varintParts, List.map_cons, List.map_nil, continued_eq wide, List.range,
    List.range.loop, BitVec.toNat_ushiftRight, BitVec.toNat_setWidth, Nat.shiftRight_eq_div_pow]
  simp only [List.cons.injEq, and_true]
  refine ⟨?_, ?_, ?_, ?_, ?_, ?_, ?_, ?_, ?_, ?_⟩ <;>
    apply congrArg (fun digit => BitVec.ofNat 8 (digit + 128)) <;> omega

/-- The search tree finds the number of digits. -/
theorem digits_varintArraySize (value : Uint64) :
    ∃ j < 10, varintArraySize value = j + 1 ∧ Digits j value.toNat := by
  have bound := value.isLt
  simp only [varintArraySize]
  split_ifs with h₁ h₂ h₃ h₄ h₅ h₆ h₇ h₈ h₉ <;>
    simp only [← BitVec.toNat_inj, BitVec.lt_def, BitVec.toNat_setWidth, BitVec.toNat_ushiftRight,
      BitVec.toNat_shiftLeft, BitVec.toNat_ofNat, Nat.shiftRight_eq_div_pow,
      Nat.shiftLeft_eq] at *
  · exact ⟨0, by omega, rfl, .inl rfl, by omega⟩
  · exact ⟨1, by omega, rfl, .inr (by omega), by omega⟩
  · exact ⟨2, by omega, rfl, .inr (by omega), by omega⟩
  · exact ⟨3, by omega, rfl, .inr (by omega), by omega⟩
  · exact ⟨4, by omega, rfl, .inr (by omega), by omega⟩
  · exact ⟨5, by omega, rfl, .inr (by omega), by omega⟩
  · exact ⟨6, by omega, rfl, .inr (by omega), by omega⟩
  · exact ⟨7, by omega, rfl, .inr (by omega), by omega⟩
  · exact ⟨8, by omega, rfl, .inr (by omega), by omega⟩
  · exact ⟨9, by omega, rfl, .inr (by omega), by omega⟩

/-- Only the byte at the end of a list is changed. -/
theorem modify_concat {α : Type*} (f : α → α) (l : List α) (a : α) :
    (l ++ [a]).modify l.length f = l ++ [f a] := by
  induction l with
  | nil => simp
  | cons b l ih => simpa using ih

theorem writeVarint64ToArray_eq (value : Uint64) :
    writeVarint64ToArray value = encode kMaxVarintBytes value.toNat := by
  obtain ⟨j, room, size, digits⟩ := digits_varintArraySize value
  have last : value.toNat / 128 ^ j % 128 < 128 := Nat.mod_lt _ (by decide)
  have bytes := modify_concat (· &&& 0x7F#8)
    ((List.range j).map fun i => BitVec.ofNat 8 (value.toNat / 128 ^ i % 128 + 128))
    (BitVec.ofNat 8 (value.toNat / 128 ^ j % 128 + 128))
  rw [List.length_map, List.length_range, ended_digit last] at bytes
  have taken : ((varintParts value).take (j + 1)).map continued =
      (List.range j).map (fun i => BitVec.ofNat 8 (value.toNat / 128 ^ i % 128 + 128)) ++
        [BitVec.ofNat 8 (value.toNat / 128 ^ j % 128 + 128)] := by
    rw [List.map_take, map_continued_varintParts, ← List.map_take, List.take_range,
      Nat.min_eq_left room, List.range_succ, List.map_append, List.map_singleton]
  simp only [writeVarint64ToArray, size, Nat.add_sub_cancel, taken, bytes]
  exact (digits.encode_eq room).symm

theorem writeVarint32FallbackToArray_eq (value : Uint32) :
    writeVarint32FallbackToArray value = encode kMaxVarintBytes value.toNat := by
  have bound := value.isLt
  have wide : 8 ≤ 32 := by omega
  have last : (value >>> 28).setWidth 8 = BitVec.ofNat 8 (value.toNat / 2 ^ 28 % 128) := by
    apply BitVec.eq_of_toNat_eq
    simp only [BitVec.toNat_setWidth, BitVec.toNat_ushiftRight, BitVec.toNat_ofNat,
      Nat.shiftRight_eq_div_pow]
    omega
  simp only [writeVarint32FallbackToArray, ended_eq wide, last]
  split_ifs with h₁ h₂ h₃ h₄ <;>
    simp only [ge_iff_le, BitVec.le_def, BitVec.toNat_shiftLeft, BitVec.toNat_ofNat,
      Nat.shiftLeft_eq] at *
  · have digits : Digits 4 value.toNat := ⟨.inr (by omega), by omega⟩
    simp [digits.encode_eq, kMaxVarintBytes, List.range_succ, continued_eq wide,
      Nat.shiftRight_eq_div_pow]
  · have digits : Digits 3 value.toNat := ⟨.inr (by omega), by omega⟩
    simp [digits.encode_eq, kMaxVarintBytes, List.range_succ, continued_eq wide,
      Nat.shiftRight_eq_div_pow]
  · have digits : Digits 2 value.toNat := ⟨.inr (by omega), by omega⟩
    simp [digits.encode_eq, kMaxVarintBytes, List.range_succ, continued_eq wide,
      Nat.shiftRight_eq_div_pow]
  · have digits : Digits 1 value.toNat := ⟨.inr (by omega), by omega⟩
    simp [digits.encode_eq, kMaxVarintBytes, List.range_succ, continued_eq wide,
      Nat.shiftRight_eq_div_pow]
  · have digits : Digits 0 value.toNat := ⟨.inl rfl, by omega⟩
    simp [digits.encode_eq, kMaxVarintBytes]

theorem writeVarint32ToArray_eq (value : Uint32) :
    writeVarint32ToArray value = encode kMaxVarintBytes value.toNat := by
  rw [writeVarint32ToArray]
  split
  · next small =>
      have one : value.toNat < 128 := by simpa [BitVec.lt_def] using small
      simp [encode_of_lt one, kMaxVarintBytes]
  · exact writeVarint32FallbackToArray_eq value

theorem writeTagToArray_eq (value : Uint32) :
    writeTagToArray value = encode kMaxVarintBytes value.toNat := by
  have wide : 8 ≤ 32 := by omega
  simp only [writeTagToArray]
  split_ifs with one two <;>
    simp only [BitVec.lt_def, BitVec.toNat_shiftLeft, BitVec.toNat_ofNat, Nat.shiftLeft_eq] at *
  · simp [encode_of_lt (show value.toNat < 128 by omega), kMaxVarintBytes]
  · have digits : Digits 1 value.toNat := ⟨.inr (by omega), by omega⟩
    have last : (value >>> 7).setWidth 8 = BitVec.ofNat 8 (value.toNat / 128 % 128) := by
      apply BitVec.eq_of_toNat_eq
      simp only [BitVec.toNat_setWidth, BitVec.toNat_ushiftRight, BitVec.toNat_ofNat,
        Nat.shiftRight_eq_div_pow]
      omega
    simp [digits.encode_eq, kMaxVarintBytes, continued_eq wide, last]
  · exact writeVarint32FallbackToArray_eq value

/-- `WriteVarint32SignExtendedToArray`: a negative number takes ten bytes. -/
def writeVarint32SignExtendedToArray (value : Uint32) : List Byte :=
  if value.slt 0#32 then writeVarint64ToArray (value.signExtend 64) else writeVarint32ToArray value

theorem writeVarint32SignExtendedToArray_eq (value : Uint32) :
    writeVarint32SignExtendedToArray value =
      encode kMaxVarintBytes (value.signExtend 64).toNat := by
  rw [writeVarint32SignExtendedToArray]
  split
  · exact writeVarint64ToArray_eq _
  · next positive =>
      have same : value.signExtend 64 = value.setWidth 64 := by
        apply BitVec.signExtend_eq_setWidth_of_msb_false
        simpa [BitVec.slt_zero_eq_msb] using positive
      rw [writeVarint32ToArray_eq, same, BitVec.toNat_setWidth_of_le (by omega)]

theorem varintSize32_eq (value : Uint32) :
    varintSize32 value = (encode kMaxVarintBytes value.toNat).length := by
  have bound := value.isLt
  have size : ∀ j, j < 5 → Digits j value.toNat →
      j + 1 = (encode kMaxVarintBytes value.toNat).length :=
    fun j room digits => (digits.length (Nat.lt_of_lt_of_le room (by decide))).symm
  simp only [varintSize32]
  split_ifs with h₁ h₂ h₃ h₄ <;>
    simp only [BitVec.lt_def, BitVec.toNat_shiftLeft, BitVec.toNat_ofNat, Nat.shiftLeft_eq] at *
  · exact size 0 (by omega) ⟨.inl rfl, by omega⟩
  · exact size 1 (by omega) ⟨.inr (by omega), by omega⟩
  · exact size 2 (by omega) ⟨.inr (by omega), by omega⟩
  · exact size 3 (by omega) ⟨.inr (by omega), by omega⟩
  · exact size 4 (by omega) ⟨.inr (by omega), by omega⟩

theorem varintSize64_eq (value : Uint64) :
    varintSize64 value = (encode kMaxVarintBytes value.toNat).length := by
  have bound := value.isLt
  have size : ∀ j, j < 10 → Digits j value.toNat →
      j + 1 = (encode kMaxVarintBytes value.toNat).length :=
    fun j room digits => (digits.length room).symm
  simp only [varintSize64]
  split_ifs <;>
    simp only [BitVec.lt_def, BitVec.toNat_shiftLeft, BitVec.toNat_ofNat, Nat.shiftLeft_eq] at *
  · exact size 0 (by omega) ⟨.inl rfl, by omega⟩
  · exact size 1 (by omega) ⟨.inr (by omega), by omega⟩
  · exact size 2 (by omega) ⟨.inr (by omega), by omega⟩
  · exact size 3 (by omega) ⟨.inr (by omega), by omega⟩
  · exact size 4 (by omega) ⟨.inr (by omega), by omega⟩
  · exact size 5 (by omega) ⟨.inr (by omega), by omega⟩
  · exact size 6 (by omega) ⟨.inr (by omega), by omega⟩
  · exact size 7 (by omega) ⟨.inr (by omega), by omega⟩
  · exact size 8 (by omega) ⟨.inr (by omega), by omega⟩
  · exact size 9 (by omega) ⟨.inr (by omega), by omega⟩

/-- `VarintSize32SignExtended` -/
def varintSize32SignExtended (value : Uint32) : Nat :=
  if value.slt 0#32 then 10 else varintSize32 value

theorem varintSize32SignExtended_eq (value : Uint32) :
    varintSize32SignExtended value =
      (encode kMaxVarintBytes (value.signExtend 64).toNat).length := by
  rw [varintSize32SignExtended]
  split
  · next negative =>
      have high : 2 ^ 63 ≤ (value.signExtend 64).toNat := by
        have msb : (value.signExtend 64).msb = true := by
          simpa [BitVec.msb_signExtend, BitVec.slt_zero_eq_msb] using negative
        simpa using BitVec.le_toNat_of_msb_true msb
      have bound := (value.signExtend 64).isLt
      have digits : Digits 9 (value.signExtend 64).toNat := ⟨.inr (by omega), by omega⟩
      exact (digits.length (by decide)).symm
  · next positive =>
      have same : value.signExtend 64 = value.setWidth 64 := by
        apply BitVec.signExtend_eq_setWidth_of_msb_false
        simpa [BitVec.slt_zero_eq_msb] using positive
      rw [varintSize32_eq, same, BitVec.toNat_setWidth_of_le (by omega)]

end IocpTest.Protobuf
