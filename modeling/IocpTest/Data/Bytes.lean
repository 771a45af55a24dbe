import Mathlib.Algebra.Order.Group.Nat

/-!
# Bytes, fixed-width integers and byte memory

A fixed-width integer is its list of bytes, least significant first, read and
written through `leNat` and `leBytes`. Reversing the list is the byte swap that
separates the two byte orders, so no order is built into the layout itself.

`Memory` gives the byte at each offset from a base address. Nothing bounds the
offsets: a program that reads past an object gets the byte that lies there.
`slice` is the window of a memory that a datagram, a field or a body occupies;
`slice_add` cuts a window in two, which is how a cursor moves through it.
-/

namespace Bytes

abbrev Byte := BitVec 8

/-- The number whose little-endian bytes are given. -/
def leNat : List Byte → Nat
  | [] => 0
  | b :: bs => b.toNat + 256 * leNat bs

/-- The `k` little-endian bytes of a number; higher bits are dropped. -/
def leBytes : Nat → Nat → List Byte
  | 0, _ => []
  | k + 1, n => BitVec.ofNat 8 n :: leBytes k (n / 256)

@[simp] theorem leBytes_length (k n : Nat) : (leBytes k n).length = k := by
  induction k generalizing n with
  | zero => rfl
  | succ k ih => simp [leBytes, ih]

theorem leNat_lt (bs : List Byte) : leNat bs < 256 ^ bs.length := by
  induction bs with
  | nil => simp [leNat]
  | cons b bs ih =>
      have hb : b.toNat < 256 := b.isLt
      rw [leNat, List.length_cons, pow_succ]
      omega

theorem leNat_leBytes {k n : Nat} (h : n < 256 ^ k) : leNat (leBytes k n) = n := by
  induction k generalizing n with
  | zero =>
      rw [pow_zero] at h
      have : n = 0 := by omega
      simp [leBytes, leNat, this]
  | succ k ih =>
      have hdiv : n / 256 < 256 ^ k := by
        rw [pow_succ] at h
        exact Nat.div_lt_of_lt_mul (by rwa [Nat.mul_comm])
      rw [leBytes, leNat, ih hdiv, BitVec.toNat_ofNat]
      omega

theorem leBytes_leNat (bs : List Byte) : leBytes bs.length (leNat bs) = bs := by
  induction bs with
  | nil => rfl
  | cons b bs ih =>
      have hb : b.toNat < 256 := b.isLt
      have hlow : BitVec.ofNat 8 (b.toNat + 256 * leNat bs) = b := by
        apply BitVec.eq_of_toNat_eq
        rw [BitVec.toNat_ofNat]
        omega
      have hhigh : (b.toNat + 256 * leNat bs) / 256 = leNat bs := by omega
      rw [List.length_cons, leNat, leBytes, hlow, hhigh, ih]

/-- Reverse the order of the `k` bytes of a number. -/
def byteSwap (k n : Nat) : Nat := leNat (leBytes k n).reverse

theorem byteSwap_lt (k n : Nat) : byteSwap k n < 256 ^ k := by
  simpa [byteSwap] using leNat_lt (leBytes k n).reverse

theorem leBytes_byteSwap (k n : Nat) : leBytes k (byteSwap k n) = (leBytes k n).reverse := by
  have h := leBytes_leNat (leBytes k n).reverse
  rwa [List.length_reverse, leBytes_length] at h

theorem byteSwap_byteSwap {k n : Nat} (h : n < 256 ^ k) : byteSwap k (byteSwap k n) = n := by
  rw [byteSwap, leBytes_byteSwap, List.reverse_reverse, leNat_leBytes h]

/-- The byte at each offset from a base address. -/
abbrev Memory := Nat → Byte

/-- The `n` bytes at offset `p`. -/
def slice (mem : Memory) : Nat → Nat → List Byte
  | _, 0 => []
  | p, n + 1 => mem p :: slice mem (p + 1) n

@[simp] theorem slice_length (mem : Memory) (p n : Nat) : (slice mem p n).length = n := by
  induction n generalizing p with
  | zero => rfl
  | succ n ih => simp [slice, ih]

theorem slice_add (mem : Memory) (p m n : Nat) :
    slice mem p (m + n) = slice mem p m ++ slice mem (p + m) n := by
  induction m generalizing p with
  | zero => simp [slice]
  | succ m ih =>
      rw [Nat.succ_add, slice, ih, slice, List.cons_append, Nat.add_assoc, Nat.add_comm 1 m]

/-- A window that is a concatenation is cut where its first part ends. -/
theorem slice_eq_append {mem : Memory} {p n : Nat} {first rest : List Byte}
    (h : slice mem p n = first ++ rest) :
    n = first.length + rest.length ∧ slice mem p first.length = first ∧
      slice mem (p + first.length) rest.length = rest := by
  have hn : n = first.length + rest.length := by
    simpa using congrArg List.length h
  rw [hn, slice_add] at h
  obtain ⟨hfirst, hrest⟩ := List.append_inj h (by simp)
  exact ⟨hn, hfirst, hrest⟩

theorem slice_congr {mem mem' : Memory} {p n : Nat}
    (h : ∀ i, p ≤ i → i < p + n → mem i = mem' i) : slice mem p n = slice mem' p n := by
  induction n generalizing p with
  | zero => rfl
  | succ n ih =>
      rw [slice, slice, h p (by omega) (by omega),
        ih (fun i hp hn => h i (by omega) (by omega))]

/-- A window of one byte repeated. -/
theorem slice_eq_replicate {mem : Memory} {p n : Nat} {b : Byte} :
    slice mem p n = List.replicate n b ↔ ∀ i, p ≤ i → i < p + n → mem i = b := by
  induction n generalizing p with
  | zero => simpa [slice] using fun i hp hn => absurd hn (by omega)
  | succ n ih =>
      rw [slice, List.replicate_succ, List.cons.injEq, ih]
      constructor
      · rintro ⟨first, rest⟩ i hp hn
        by_cases here : i = p
        · rw [here]
          exact first
        · exact rest i (by omega) (by omega)
      · intro all
        exact ⟨all p (by omega) (by omega), fun i hp hn => all i (by omega) (by omega)⟩

/-- Fill `n` bytes from offset `p` with one value. -/
def memset (mem : Memory) (p : Nat) (value : Byte) (n : Nat) : Memory :=
  fun i => if p ≤ i ∧ i < p + n then value else mem i

/-- Copy a byte string to offset `p`. -/
def memcpy (mem : Memory) (p : Nat) (bs : List Byte) : Memory :=
  fun i => if p ≤ i ∧ i < p + bs.length then bs.getD (i - p) 0 else mem i

theorem memcpy_of_lt (mem : Memory) {p i : Nat} (bs : List Byte) (h : i < p) :
    memcpy mem p bs i = mem i :=
  if_neg fun inside => Nat.not_le.mpr h inside.1

theorem memcpy_of_le (mem : Memory) {p i : Nat} (bs : List Byte) (h : p + bs.length ≤ i) :
    memcpy mem p bs i = mem i :=
  if_neg fun inside => Nat.not_le.mpr inside.2 h

theorem slice_getD (mem : Memory) {p n i : Nat} (h : i < n) (default : Byte) :
    (slice mem p n).getD i default = mem (p + i) := by
  induction n generalizing p i with
  | zero => exact absurd h (Nat.not_lt_zero i)
  | succ n ih =>
      cases i with
      | zero => rfl
      | succ i =>
          rw [slice, List.getD_cons_succ, ih (Nat.lt_of_succ_lt_succ h)]
          congr 1
          omega

/-- A memory that differs in one window is a copy of that window. -/
theorem memcpy_slice {mem mem' : Memory} {p n : Nat}
    (same : ∀ i, i < p ∨ p + n ≤ i → mem' i = mem i) : memcpy mem p (slice mem' p n) = mem' := by
  funext i
  rw [memcpy, slice_length]
  split
  · next inside =>
      rw [slice_getD mem' (by omega)]
      congr 1
      omega
  · next outside => exact (same i (by omega)).symm

theorem slice_memcpy (mem : Memory) (p : Nat) (bs : List Byte) :
    slice (memcpy mem p bs) p bs.length = bs := by
  have shifted : ∀ (n k : Nat), k + n = bs.length →
      slice (memcpy mem p bs) (p + k) n = bs.drop k := by
    intro n
    induction n with
    | zero =>
        intro k hk
        simp [slice, ← hk]
    | succ n ih =>
        intro k hk
        have hlt : k < bs.length := by omega
        have hbyte : memcpy mem p bs (p + k) = bs[k] := by
          simp [memcpy, hlt]
        rw [slice, hbyte, Nat.add_assoc, ih (k + 1) (by omega), List.drop_eq_getElem_cons hlt]
  simpa using shifted bs.length 0 (by omega)

/-- A copy leaves every window outside its range as it was. -/
theorem slice_memcpy_of_disjoint (mem : Memory) {p q n : Nat} {bs : List Byte}
    (h : q + n ≤ p ∨ p + bs.length ≤ q) : slice (memcpy mem p bs) q n = slice mem q n := by
  apply slice_congr
  intro i hi hn
  have outside : ¬(p ≤ i ∧ i < p + bs.length) := by omega
  simp [memcpy, outside]

/-- The `k`-byte little-endian number at offset `p`. -/
def readNat (mem : Memory) (p k : Nat) : Nat := leNat (slice mem p k)

theorem readNat_lt (mem : Memory) (p k : Nat) : readNat mem p k < 256 ^ k := by
  simpa [readNat] using leNat_lt (slice mem p k)

/-- A window of `k` bytes is the encoding of the number read there. -/
theorem slice_eq_leBytes (mem : Memory) (p k : Nat) :
    slice mem p k = leBytes k (readNat mem p k) := by
  have h := leBytes_leNat (slice mem p k)
  rw [slice_length] at h
  exact h.symm

theorem readNat_of_slice {mem : Memory} {p k n : Nat} (hn : n < 256 ^ k)
    (h : slice mem p k = leBytes k n) : readNat mem p k = n := by
  rw [readNat, h, leNat_leBytes hn]

end Bytes
