import UC.UnlockQueue.Model

/- The size that the constructor leaves behind. The int is converted to an unsigned long of 64
   bits, and the rounded value is cut to the 32 bits of m_nSize. -/
namespace UC.UnlockQueue
open UC.Memory

def is_power_of_2 (n : UInt64) : Bool := n ≠ 0 ∧ n &&& (n - 1) = 0

/-- while((andv & val) == 0) andv = andv>>1; none when the rounds run out. -/
def shiftLoop (val : UInt64) : Nat → UInt64 → Option UInt64
  | 0, _ => none
  | rounds + 1, andv =>
    if andv &&& val = 0 then shiftLoop val rounds (andv >>> 1) else some andv

def roundup_power_of_two (rounds : Nat) (val : UInt64) : Option UInt64 :=
  if val &&& (val - 1) = 0 then some val
  else
    let maxulong : UInt64 := ~~~0
    let andv := ~~~(maxulong &&& (maxulong >>> 1))
    (shiftLoop val rounds andv).map fun andv : UInt64 => andv <<< 1

/-- m_nSize behind the constructor. -/
def roundedSize (rounds : Nat) (nSize : Int32) : Option UInt32 :=
  if is_power_of_2 nSize.toInt64.toUInt64 then some nSize.toUInt32
  else (roundup_power_of_two rounds nSize.toInt64.toUInt64).map UInt64.toUInt32

/-- The queue of a size, behind the constructor and Initialize. -/
def constructed (fresh : Mem UInt8) (rounds : Nat) (nSize : Int32) : Option UnlockQueue :=
  (roundedSize rounds nSize).map (initialized fresh)

/-- The number of an unsigned word between its highest bit and twice that. -/
def HighestBit (val : UInt64) (k : Nat) : Prop := 2 ^ k ≤ val.toNat ∧ val.toNat < 2 ^ (k + 1)

theorem and_pred_zero_iff {val : UInt64} (positive : 0 < val.toNat) :
    val &&& (val - 1) = 0 ↔ ∃ k, val.toNat = 2 ^ k := by
  have one : (val - 1).toNat = val.toNat - 1 :=
    UInt64.toNat_sub_of_le _ _ (UInt64.le_iff_toNat_le.mpr positive)
  rw [← UInt64.toNat_inj, UInt64.toNat_and, one]
  exact Nat.and_sub_one_eq_zero_iff_isPowerOfTwo (Nat.ne_of_gt positive)

theorem bit_misses_iff {val andv : UInt64} {k : Nat} (bit : andv.toNat = 2 ^ k)
    (below : val.toNat < 2 ^ (k + 1)) : andv &&& val = 0 ↔ val.toNat < 2 ^ k := by
  rw [← UInt64.toNat_inj, UInt64.toNat_and, bit, Nat.two_pow_and]
  constructor
  · intro missed
    by_contra high
    rw [Nat.testBit_of_two_pow_le_and_two_pow_add_one_gt (Nat.not_lt.mp high) below] at missed
    have positive := Nat.two_pow_pos k
    simp at missed
  · intro low
    rw [Nat.testBit_lt_two_pow low]
    rfl

/-- The bit is shifted down to the highest one of val. -/
theorem shift_loop_ends {val : UInt64} (positive : 0 < val.toNat) (k : Nat) {andv : UInt64}
    (bit : andv.toNat = 2 ^ k) (below : val.toNat < 2 ^ (k + 1)) :
    ∃ found j, shiftLoop val (k + 1) andv = some found ∧ found.toNat = 2 ^ j ∧
      HighestBit val j := by
  induction k generalizing andv with
  | zero =>
    have high : ¬ andv &&& val = 0 := by
      rw [bit_misses_iff bit below]
      omega
    refine ⟨andv, 0, ?_, bit, positive, below⟩
    rw [shiftLoop, if_neg high]
  | succ k ih =>
    by_cases low : val.toNat < 2 ^ (k + 1)
    · have half : (andv >>> 1).toNat = 2 ^ k := by
        rw [UInt64.toNat_shiftRight, bit]
        change 2 ^ (k + 1) >>> 1 = 2 ^ k
        rw [Nat.shiftRight_one, Nat.pow_succ, Nat.mul_div_cancel _ (by decide)]
      obtain ⟨found, j, run, is_bit, highest⟩ := ih half low
      refine ⟨found, j, ?_, is_bit, highest⟩
      rw [shiftLoop, if_pos ((bit_misses_iff bit below).mpr low)]
      exact run
    · refine ⟨andv, k + 1, ?_, bit, Nat.not_lt.mp low, below⟩
      rw [shiftLoop, if_neg (fun missed => low ((bit_misses_iff bit below).mp missed))]

theorem roundup_power {val : UInt64} (positive : 0 < val.toNat)
    (ragged : ¬ ∃ k, val.toNat = 2 ^ k) :
    ∃ rounded k, roundup_power_of_two 64 val = some rounded ∧ HighestBit val k ∧
      rounded.toNat = 2 ^ (k + 1) % 2 ^ 64 := by
  obtain ⟨found, k, run, is_bit, highest⟩ := @shift_loop_ends val positive 63
    (~~~(~~~(0 : UInt64) &&& (~~~(0 : UInt64) >>> 1))) rfl val.toNat_lt
  refine ⟨found <<< 1, k, ?_, highest, ?_⟩
  · rw [roundup_power_of_two, if_neg (fun single => ragged ((and_pred_zero_iff positive).mp single))]
    dsimp only
    rw [run, Option.map_some]
  · rw [UInt64.toNat_shiftLeft, is_bit]
    change 2 ^ k <<< 1 % 2 ^ 64 = _
    rw [Nat.shiftLeft_eq, Nat.pow_one, ← Nat.pow_succ]

/-- A positive int keeps its value as an unsigned long and as an unsigned int. -/
theorem positive_converted {nSize : Int32} (positive : 1 ≤ nSize) :
    0 < nSize.toInt.toNat ∧ nSize.toInt.toNat < 2 ^ 31 ∧
      nSize.toInt64.toUInt64.toNat = nSize.toInt.toNat ∧
      nSize.toUInt32.toNat = nSize.toInt.toNat := by
  have above : 1 ≤ nSize.toInt := Int32.le_iff_toInt_le.mp positive
  have high := nSize.toInt_lt
  have low : 0 ≤ nSize := Int32.le_iff_toInt_le.mpr (by
    change 0 ≤ nSize.toInt
    omega)
  have wide : 0 ≤ nSize.toInt64 := by
    rw [Int64.le_iff_toInt_le, Int32.toInt_toInt64]
    change 0 ≤ nSize.toInt
    omega
  refine ⟨by omega, by omega, ?_, Int32.toNat_toUInt32_of_le low⟩
  rw [Int64.toNat_toUInt64_of_le wide]
  exact congrArg Int.toNat nSize.toInt_toInt64

/-- The least power of two that is not smaller than an int. -/
structure RoundedUp (nSize : Int32) (size : UInt32) : Prop where
  pow : PowerOfTwo size
  enough : nSize.toInt.toNat ≤ size.toNat
  least : ∀ j, nSize.toInt.toNat ≤ 2 ^ j → size.toNat ≤ 2 ^ j

theorem rounded_size {nSize : Int32} (positive : 1 ≤ nSize) :
    ∃ size, roundedSize 64 nSize = some size ∧ RoundedUp nSize size := by
  obtain ⟨above, small, long, unsigned⟩ := positive_converted positive
  rw [← long] at above
  by_cases single : ∃ k, nSize.toInt64.toUInt64.toNat = 2 ^ k
  · have test : is_power_of_2 nSize.toInt64.toUInt64 = true := by
      rw [is_power_of_2, decide_eq_true_eq]
      constructor
      · intro zero
        rw [zero] at above
        exact absurd above (by decide)
      · exact (and_pred_zero_iff above).mpr single
    obtain ⟨k, eq⟩ := single
    rw [long] at eq
    refine ⟨nSize.toUInt32, ?_, ⟨k, ?_, by rw [unsigned, eq]⟩, by rw [unsigned], ?_⟩
    · rw [roundedSize, if_pos test]
    · have less : k < 31 := (Nat.pow_lt_pow_iff_right (by decide : 1 < 2)).mp (by omega)
      omega
    · intro j enough
      rw [unsigned]
      exact enough
  · have test : ¬ is_power_of_2 nSize.toInt64.toUInt64 = true := by
      rw [is_power_of_2, decide_eq_true_eq]
      rintro ⟨_, masked⟩
      exact single ((and_pred_zero_iff above).mp masked)
    obtain ⟨rounded, k, run, ⟨low, high⟩, value⟩ := roundup_power above single
    rw [long] at low high single
    have bits : k < 31 := (Nat.pow_lt_pow_iff_right (by decide : 1 < 2)).mp (by omega)
    have fits : 2 ^ (k + 1) ≤ 2 ^ 31 := Nat.pow_le_pow_right (by decide) (by omega)
    have size : rounded.toUInt32.toNat = 2 ^ (k + 1) := by
      rw [UInt64.toNat_toUInt32, value]
      omega
    refine ⟨rounded.toUInt32, ?_, ⟨k + 1, by omega, size⟩, by rw [size]; omega, ?_⟩
    · rw [roundedSize, if_neg test, run, Option.map_some]
    · intro j enough
      rw [size]
      have more : 2 ^ k < 2 ^ j := by
        have other : nSize.toInt.toNat ≠ 2 ^ k := fun eq => single ⟨k, eq⟩
        omega
      have later : k < j := (Nat.pow_lt_pow_iff_right (by decide : 1 < 2)).mp more
      exact Nat.pow_le_pow_right (by decide) later

/-- The constructor ends with the least power of two that is not smaller than nSize, and a mask
    of its size is the remainder. -/
theorem size_rounded_up (fresh : Mem UInt8) {nSize : Int32} (positive : 1 ≤ nSize) :
    ∃ rounds q, constructed fresh rounds nSize = some q ∧ RoundedUp nSize q.nSize ∧
      q.nSize.toNat ∣ 2 ^ 32 ∧ ∀ counter, q.offset counter = counter % q.nSize := by
  obtain ⟨size, run, up⟩ := rounded_size positive
  refine ⟨64, initialized fresh size, ?_, up, power_dvd up.pow, mask_mod up.pow⟩
  rw [constructed, run, Option.map_some]

theorem seven_rounded_up :
    ∃ rounds q, constructed (fun _ => 0) rounds 7 = some q ∧ RoundedUp 7 q.nSize ∧
      q.nSize.toNat ∣ 2 ^ 32 ∧ ∀ counter, q.offset counter = counter % q.nSize :=
  size_rounded_up (fun _ => 0) (by decide)

end UC.UnlockQueue
