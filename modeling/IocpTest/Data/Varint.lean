import IocpTest.Data.Bytes

/-!
# Numbers in base 128

A number is written as its digits in base 128, the least significant first, one digit a
byte. The high bit of a byte says that another one follows, so a reader needs no length.
`encode` writes the shortest form; `next` accepts every form of at most `k` bytes and
returns what lies behind it.

`encode_eq_digits` gives the bytes of a number by its size, which is how an unrolled
writer computes them.
-/

namespace Varint

open Bytes

/-- The digits of `n` with their continuation bits, in at most `k` bytes. -/
def encode : Nat → Nat → List Byte
  | 0, _ => []
  | k + 1, n =>
      if n < 128 then [BitVec.ofNat 8 n]
      else BitVec.ofNat 8 (n % 128 + 128) :: encode k (n / 128)

/-- The number of at most `k` bytes at the start of a byte string, and what follows it. -/
def next : Nat → List Byte → Option (Nat × List Byte)
  | 0, _ => none
  | _ + 1, [] => none
  | k + 1, b :: bs =>
      if b.toNat < 128 then some (b.toNat, bs)
      else (next k bs).map fun r => (b.toNat % 128 + 128 * r.1, r.2)

section

variable {k n : Nat}

theorem encode_of_lt (h : n < 128) : encode (k + 1) n = [BitVec.ofNat 8 n] := if_pos h

theorem encode_of_ge (h : 128 ≤ n) :
    encode (k + 1) n = BitVec.ofNat 8 (n % 128 + 128) :: encode k (n / 128) :=
  if_neg (Nat.not_lt.mpr h)

theorem div_lt_pow (h : n < 128 ^ (k + 1)) : n / 128 < 128 ^ k :=
  Nat.div_lt_of_lt_mul (by simpa [pow_succ, Nat.mul_comm] using h)

theorem encode_length_le (k n : Nat) : (encode k n).length ≤ k := by
  induction k generalizing n with
  | zero => simp [encode]
  | succ k ih =>
      rw [encode]
      split
      · simp
      · simpa using ih (n / 128)

theorem encode_ne_nil (k n : Nat) : encode (k + 1) n ≠ [] := by
  rw [encode]
  split <;> exact List.cons_ne_nil _ _

/-- The bytes of a number of `j + 1` digits. -/
theorem encode_eq_digits {j : Nat} (room : j < k) (low : j = 0 ∨ 128 ^ j ≤ n)
    (high : n < 128 ^ (j + 1)) :
    encode k n =
      (List.range j).map (fun i => BitVec.ofNat 8 (n / 128 ^ i % 128 + 128)) ++
        [BitVec.ofNat 8 (n / 128 ^ j)] := by
  induction j generalizing k n with
  | zero =>
      obtain ⟨k, rfl⟩ : ∃ m, k = m + 1 := ⟨k - 1, by omega⟩
      simp [encode_of_lt (k := k) (show n < 128 by simpa using high)]
  | succ j ih =>
      obtain ⟨k, rfl⟩ : ∃ m, k = m + 1 := ⟨k - 1, by omega⟩
      have big : 128 ^ (j + 1) ≤ n := low.resolve_left (Nat.succ_ne_zero j)
      have one : 1 ≤ 128 ^ j := Nat.one_le_pow _ _ (by decide)
      have ge : 128 * 128 ^ j ≤ n := by simpa [pow_succ, Nat.mul_comm] using big
      have rest := ih (k := k) (n := n / 128) (by omega)
        (.inr ((Nat.le_div_iff_mul_le (by decide)).mpr (by omega))) (div_lt_pow high)
      have shift : ∀ i, n / 128 / 128 ^ i = n / 128 ^ (i + 1) := fun i => by
        rw [Nat.div_div_eq_div_mul, pow_succ, Nat.mul_comm]
      rw [encode_of_ge (by omega), rest, List.range_succ_eq_map]
      simp [shift, Function.comp_def]

/-- The size of a number of `j + 1` digits. -/
theorem encode_length {j : Nat} (room : j < k) (low : j = 0 ∨ 128 ^ j ≤ n)
    (high : n < 128 ^ (j + 1)) : (encode k n).length = j + 1 := by
  simp [encode_eq_digits room low high]

end

/-! ## Reading -/

section

variable {k n : Nat} {bs rest : List Byte}

/-- What was written is read back, whatever follows it. -/
theorem next_encode (h : n < 128 ^ (k + 1)) (rest : List Byte) :
    next (k + 1) (encode (k + 1) n ++ rest) = some (n, rest) := by
  induction k generalizing n with
  | zero =>
      have small : n < 128 := by simpa using h
      simp [encode_of_lt small, next, Nat.mod_eq_of_lt (show n < 256 by omega), small]
  | succ k ih =>
      by_cases small : n < 128
      · simp [encode_of_lt small, next, Nat.mod_eq_of_lt (show n < 256 by omega), small]
      · have byte : (BitVec.ofNat 8 (n % 128 + 128)).toNat = n % 128 + 128 := by
          simp only [BitVec.toNat_ofNat]
          omega
        rw [encode_of_ge (by omega), List.cons_append, next, byte, if_neg (by omega),
          ih (div_lt_pow h)]
        simp only [Option.map_some, Option.some.injEq, Prod.mk.injEq, and_true]
        omega

/-- A number is found at the same place in a longer string. -/
theorem next_append (h : next k bs = some (n, rest)) (more : List Byte) :
    next k (bs ++ more) = some (n, rest ++ more) := by
  induction k generalizing bs n with
  | zero => simp [next] at h
  | succ k ih =>
      cases bs with
      | nil => simp [next] at h
      | cons b bs =>
          rw [next] at h
          rw [List.cons_append, next]
          split at h
          · next small =>
              obtain ⟨rfl, rfl⟩ := Prod.mk.inj (Option.some.inj h)
              rw [if_pos small]
          · next big =>
              obtain ⟨⟨m, r⟩, found, eq⟩ := Option.map_eq_some_iff.mp h
              obtain ⟨rfl, rfl⟩ := Prod.mk.inj eq
              rw [if_neg big, ih found]
              rfl

/-- Reading takes at least one byte. -/
theorem next_length (h : next k bs = some (n, rest)) : rest.length < bs.length := by
  induction k generalizing bs n with
  | zero => simp [next] at h
  | succ k ih =>
      cases bs with
      | nil => simp [next] at h
      | cons b bs =>
          rw [next] at h
          split at h
          · obtain ⟨rfl, rfl⟩ := Prod.mk.inj (Option.some.inj h)
            exact Nat.lt_succ_self _
          · obtain ⟨⟨m, r⟩, found, eq⟩ := Option.map_eq_some_iff.mp h
            obtain ⟨rfl, rfl⟩ := Prod.mk.inj eq
            exact Nat.lt_succ_of_lt (ih found)

/-- A short string whose last byte ends a number starts with a number. -/
theorem next_isSome_of_last (short : bs.length ≤ k) {last : Byte}
    (ends : bs.getLast? = some last) (stop : last.toNat < 128) : (next k bs).isSome := by
  induction k generalizing bs with
  | zero =>
      obtain rfl : bs = [] := List.eq_nil_of_length_eq_zero (Nat.le_zero.mp short)
      simp at ends
  | succ k ih =>
      cases bs with
      | nil => simp at ends
      | cons b bs =>
          rw [next]
          split
          · rfl
          · next big =>
              cases bs with
              | nil =>
                  obtain rfl : b = last := by simpa using ends
                  exact absurd stop big
              | cons c bs =>
                  rw [Option.isSome_map]
                  apply ih (Nat.le_of_succ_le_succ short)
                  simpa using ends

end

end Varint
