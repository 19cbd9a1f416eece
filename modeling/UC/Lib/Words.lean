import Mathlib.Data.UInt
import UC.Lib.Memory

/- Words of four and eight bytes in a byte memory, least significant byte first. -/
namespace UC.Words
open UC.Memory

def load32 (m : Mem UInt8) (a : Nat) : Nat :=
  (m a).toNat + 2 ^ 8 * (m (a + 1)).toNat + 2 ^ 16 * (m (a + 2)).toNat +
    2 ^ 24 * (m (a + 3)).toNat

def store32 (m : Mem UInt8) (a v : Nat) : Mem UInt8 :=
  store (store (store (store m a (UInt8.ofNat v)) (a + 1) (UInt8.ofNat (v / 2 ^ 8)))
    (a + 2) (UInt8.ofNat (v / 2 ^ 16))) (a + 3) (UInt8.ofNat (v / 2 ^ 24))

theorem store32_outside (m : Mem UInt8) {a x : Nat} (v : Nat) (h : x < a ∨ a + 4 ≤ x) :
    store32 m a v x = m x := by
  unfold store32
  rw [store_other _ _ (by omega), store_other _ _ (by omega), store_other _ _ (by omega),
    store_other _ _ (by omega)]

theorem load32_congr {m m' : Mem UInt8} {a : Nat} (same : ∀ i < 4, m (a + i) = m' (a + i)) :
    load32 m a = load32 m' a := by
  have first := same 0 (by omega)
  rw [Nat.add_zero] at first
  simp only [load32, first, same 1 (by omega), same 2 (by omega), same 3 (by omega)]

theorem load32_store32 (m : Mem UInt8) (a v : Nat) :
    load32 (store32 m a v) a = v % 2 ^ 32 := by
  simp [load32, store32, store]
  omega

theorem load32_store32_outside (m : Mem UInt8) {a b : Nat} (v : Nat)
    (h : b + 4 ≤ a ∨ a + 4 ≤ b) : load32 (store32 m a v) b = load32 m b := by
  apply load32_congr
  intro i hi
  exact store32_outside m v (by omega)

def load64 (m : Mem UInt8) (a : Nat) : Nat := load32 m a + 2 ^ 32 * load32 m (a + 4)

def store64 (m : Mem UInt8) (a v : Nat) : Mem UInt8 :=
  store32 (store32 m a v) (a + 4) (v / 2 ^ 32)

theorem load64_congr {m m' : Mem UInt8} {a : Nat} (same : ∀ i < 8, m (a + i) = m' (a + i)) :
    load64 m a = load64 m' a := by
  have low : load32 m a = load32 m' a := load32_congr fun i hi => same i (by omega)
  have high : load32 m (a + 4) = load32 m' (a + 4) := by
    apply load32_congr
    intro i hi
    rw [Nat.add_assoc]
    exact same (4 + i) (by omega)
  rw [load64, low, high, load64]

theorem load64_store64 (m : Mem UInt8) (a v : Nat) :
    load64 (store64 m a v) a = v % 2 ^ 64 := by
  have low : load32 (store64 m a v) a = v % 2 ^ 32 := by
    rw [store64, load32_store32_outside _ _ (by omega), load32_store32]
  have high : load32 (store64 m a v) (a + 4) = v / 2 ^ 32 % 2 ^ 32 := load32_store32 _ _ _
  rw [load64, low, high]
  omega

end UC.Words
