import Mathlib.Data.Nat.Bitwise
import Mathlib.Data.UInt
import UC.Lib.Memory
import UC.Lib.Ring

/- The lock-free byte ring UnlockQueue of example_unlockqueue.cpp. The counters are
   free running 32-bit words, masked with size - 1 when they address the buffer. -/
namespace UC
open UC.Memory

structure UnlockQueue where
  pBuffer : Mem UInt8
  nSize : UInt32
  nIn : UInt32
  nOut : UInt32

namespace UnlockQueue

/-- The constructor and Initialize, on the buffer as the allocator returns it. -/
def initialized (fresh : Mem UInt8) (nSize : UInt32) : UnlockQueue :=
  ⟨fresh, nSize, 0, 0⟩

def clean (q : UnlockQueue) : UnlockQueue := { q with nIn := 0, nOut := 0 }

def getDataLen (q : UnlockQueue) : UInt32 := q.nIn - q.nOut

/-- Number of bytes Put copies: the first line of the function. -/
def putLen (q : UnlockQueue) (len : UInt32) : UInt32 :=
  min len (q.nSize - q.nIn + q.nOut)

def getLen (q : UnlockQueue) (len : UInt32) : UInt32 :=
  min len (q.nIn - q.nOut)

/-- Buffer offset of a free running counter. -/
def offset (q : UnlockQueue) (counter : UInt32) : UInt32 :=
  counter &&& (q.nSize - 1)

/-- Bytes that fit between the counter's offset and the buffer end. -/
def firstPart (q : UnlockQueue) (counter len : UInt32) : UInt32 :=
  min len (q.nSize - q.offset counter)

def put (q : UnlockQueue) (buffer : Mem UInt8) (len : UInt32) : UnlockQueue × UInt32 :=
  let len := q.putLen len
  let l := q.firstPart q.nIn len
  let b := memcpy q.pBuffer (q.offset q.nIn).toNat buffer 0 l.toNat
  let b := memcpy b 0 buffer l.toNat (len - l).toNat
  ({ q with pBuffer := b, nIn := q.nIn + len }, len)

def get (q : UnlockQueue) (buffer : Mem UInt8) (len : UInt32) :
    UnlockQueue × Mem UInt8 × UInt32 :=
  let len := q.getLen len
  let l := q.firstPart q.nOut len
  let b := memcpy buffer 0 q.pBuffer (q.offset q.nOut).toNat l.toNat
  let b := memcpy b l.toNat q.pBuffer 0 (len - l).toNat
  ({ q with nOut := q.nOut + len }, b, len)

/-- Sizes the constructor leaves behind: powers of two that fit the 32-bit field. -/
def PowerOfTwo (nSize : UInt32) : Prop := ∃ k, k ≤ 31 ∧ nSize.toNat = 2 ^ k

theorem power_positive {n : UInt32} (pow : PowerOfTwo n) : 0 < n.toNat := by
  obtain ⟨k, _, eq⟩ := pow
  rw [eq]
  exact Nat.two_pow_pos k

theorem power_le {n : UInt32} (pow : PowerOfTwo n) : n.toNat ≤ 2 ^ 31 := by
  obtain ⟨k, bound, eq⟩ := pow
  rw [eq]
  exact Nat.pow_le_pow_right (by omega) bound

theorem power_dvd {n : UInt32} (pow : PowerOfTwo n) : n.toNat ∣ 2 ^ 32 := by
  obtain ⟨k, bound, eq⟩ := pow
  rw [eq]
  exact Nat.pow_dvd_pow 2 (by omega)

theorem mask_mod {size : UInt32} (pow : PowerOfTwo size) (counter : UInt32) :
    counter &&& (size - 1) = counter % size := by
  obtain ⟨k, _, eq⟩ := pow
  have one : (size - 1).toNat = 2 ^ k - 1 := by
    rw [UInt32.toNat_sub_of_le _ _ (by
      rw [UInt32.le_iff_toNat_le, eq]
      exact Nat.two_pow_pos k), eq]
    rfl
  rw [← UInt32.toNat_inj, UInt32.toNat_and, one, Nat.and_two_pow_sub_one_eq_mod,
    UInt32.toNat_mod, eq]

/-- A counter that has run to stream number p addresses the cell of p, also after
    it has wrapped: the size divides the range of the counter. -/
theorem offset_cell {q : UnlockQueue} {counter : UInt32} {p : Nat}
    (pow : PowerOfTwo q.nSize) (at_p : counter.toNat = p % 2 ^ 32) :
    (q.offset counter).toNat = p % q.nSize.toNat := by
  rw [offset, mask_mod pow, UInt32.toNat_mod, at_p, Nat.mod_mod_of_dvd p (power_dvd pow)]

theorem toNat_min (a b : UInt32) : (min a b).toNat = min a.toNat b.toNat := by
  change (if a ≤ b then a else b).toNat = _
  simp only [UInt32.le_iff_toNat_le, Nat.min_def]
  split <;> rfl

/-- Counters at stream numbers o ≤ i, at most one buffer apart. -/
structure Positions (q : UnlockQueue) (i o : Nat) : Prop where
  pow : PowerOfTwo q.nSize
  in_at : q.nIn.toNat = i % 2 ^ 32
  out_at : q.nOut.toNat = o % 2 ^ 32
  ordered : o ≤ i
  bounded : i - o ≤ q.nSize.toNat

variable {q : UnlockQueue} {i o : Nat}

theorem data_len_stored (at_io : Positions q i o) : q.getDataLen.toNat = i - o := by
  have h1 := at_io.in_at; have h2 := at_io.out_at
  have h3 := at_io.ordered; have h4 := at_io.bounded
  have small := power_le at_io.pow
  rw [getDataLen, UInt32.toNat_sub, h1, h2]
  omega

theorem put_len_room (at_io : Positions q i o) (len : UInt32) :
    (q.putLen len).toNat = min len.toNat (q.nSize.toNat - (i - o)) := by
  have h1 := at_io.in_at; have h2 := at_io.out_at
  have h3 := at_io.ordered; have h4 := at_io.bounded
  have small := power_le at_io.pow
  have room : (q.nSize - q.nIn + q.nOut).toNat = q.nSize.toNat - (i - o) := by
    rw [UInt32.toNat_add, UInt32.toNat_sub, h1, h2]
    omega
  rw [putLen, toNat_min, room]

theorem get_len_stored (at_io : Positions q i o) (len : UInt32) :
    (q.getLen len).toNat = min len.toNat (i - o) := by
  rw [getLen, toNat_min, ← getDataLen, data_len_stored at_io]

/-- The first memcpy of a copy that starts at stream number p stops at the buffer end. -/
theorem first_part_cell {counter len : UInt32} {p : Nat} (pow : PowerOfTwo q.nSize)
    (at_p : counter.toNat = p % 2 ^ 32) :
    (q.firstPart counter len).toNat =
      min len.toNat (q.nSize.toNat - p % q.nSize.toNat) := by
  have cell := offset_cell pow at_p
  have inside := Nat.mod_lt p (power_positive pow)
  have le : q.offset counter ≤ q.nSize := by
    rw [UInt32.le_iff_toNat_le, cell]
    omega
  rw [firstPart, toNat_min, UInt32.toNat_sub_of_le _ _ le, cell]

theorem rest_part {a b : UInt32} (h : a.toNat ≤ b.toNat) : (b - a).toNat = b.toNat - a.toNat :=
  UInt32.toNat_sub_of_le _ _ (UInt32.le_iff_toNat_le.mpr h)

theorem counter_advance {counter len : UInt32} {p : Nat} (at_p : counter.toNat = p % 2 ^ 32) :
    (counter + len).toNat = (p + len.toNat) % 2 ^ 32 := by
  rw [UInt32.toNat_add, at_p]
  omega

end UnlockQueue

end UC
