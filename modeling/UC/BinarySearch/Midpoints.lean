import Mathlib.Data.Nat.Find
import UC.BinarySearch.Model
import UC.Lib.Ints
import UC.Lib.Runs

/- The sums l + r of binarySearch as 32-bit ints. The first sum that does not fit is at the first
   probe from 2^30 on, and until then the search has only gone to the right. -/
namespace UC.BinarySearch
open UC.Cells UC.Ints UC.Runs

/-- An iteration behind which the loop goes on, with the bounds it goes on with. -/
inductive Goes (array : Option (Arr Int)) (key : Int) : Int × Int → Int × Int → Prop where
  | right {l r sum value : Int} (nonempty : l ≤ r) (fits : int (l + r) = some sum)
      (probed : read array (sum.tdiv 2) = some value) (more : key > value) :
      Goes array key (l, r) (sum.tdiv 2 + 1, r)
  | left {l r sum value : Int} (nonempty : l ≤ r) (fits : int (l + r) = some sum)
      (probed : read array (sum.tdiv 2) = some value) (less : key < value) :
      Goes array key (l, r) (l, sum.tdiv 2 - 1)

/-- At each iteration the sum of the bounds is an int, and mid stands between them. -/
def MidpointsSafe (array : Option (Arr Int)) (size key : Int) : Prop :=
  ∀ l r, Reachable (Goes array key) (0, size - 1) (l, r) → l ≤ r →
    int (l + r) = some (l + r) ∧ l ≤ midpoint l r ∧ midpoint l r ≤ r

/-- The probe of a search that has gone to the right i times. -/
def probe (size : Int) (i : Nat) : Int := size - 1 - (size.toNat / 2 ^ (i + 1) : Nat)

/-- The array is not too large, or the search turns left, or ends, at a probe below 2^30. -/
def StaysLow (cell : Int → Int) (size key : Int) : Prop :=
  size ≤ 1073741824 ∨ ∃ i, probe size i < 1073741824 ∧ key ≤ cell (probe size i)

section
variable {array : Option (Arr Int)} {cell : Int → Int} {size key : Int}

theorem sum_is {l r sum : Int} (fits : int (l + r) = some sum) : sum = l + r := by
  unfold int at fits
  split at fits
  · exact (Option.some.inj fits).symm
  · cases fits

theorem goes_search {l r l' r' : Int} (goes : Goes array key (l, r) (l', r')) :
    searchLoop array key l r = searchLoop array key l' r' := by
  cases goes with
  | right nonempty fits probed more =>
    rw [sum_is fits] at probed ⊢
    rw [searchLoop, dif_pos nonempty, midpoint, probed, Option.bind_some, if_neg (by omega),
      if_pos more]
  | left nonempty fits probed less =>
    rw [sum_is fits] at probed ⊢
    rw [searchLoop, dif_pos nonempty, midpoint, probed, Option.bind_some, if_neg (by omega),
      if_neg (by omega)]

/-- How many cells a search has left behind i turns to the right. -/
def remaining (size : Int) (i : Nat) : Nat := size.toNat / 2 ^ i

theorem remaining_succ (size : Int) (i : Nat) : remaining size (i + 1) = remaining size i / 2 := by
  rw [remaining, remaining, Nat.pow_succ, Nat.div_div_eq_div_mul]

theorem probe_eq (size : Int) (i : Nat) : probe size i = size - 1 - (remaining size i / 2 : Nat) := by
  rw [← remaining_succ]
  rfl

theorem remaining_le (size : Int) (i : Nat) : remaining size i ≤ size.toNat := Nat.div_le_self _ _

theorem probe_mono {i j : Nat} (le : i ≤ j) : probe size i ≤ probe size j := by
  have fewer : size.toNat / 2 ^ (j + 1) ≤ size.toNat / 2 ^ (i + 1) :=
    Nat.div_le_div_left (Nat.pow_le_pow_right (by decide) (by omega)) (Nat.two_pow_pos _)
  unfold probe
  omega

theorem right_sum (positive : 0 < size) (i : Nat) :
    (size - remaining size i + (size - 1)).tdiv 2 = probe size i := by
  have le := remaining_le size i
  rw [Int.tdiv_eq_ediv_of_nonneg (by omega), probe_eq]
  omega

theorem read_probe (holds : Holds array cell size) (positive : 0 < size) (i : Nat) :
    read array (probe size i) = some (cell (probe size i)) := by
  have le := remaining_le size i
  have at_i := probe_eq size i
  exact holds _ (by omega) (by omega)

/-- Bounds below 2^30, or those behind at most i turns to the right. -/
def LowBounds (size : Int) (i : Nat) (s : Int × Int) : Prop :=
  (0 ≤ s.1 ∧ s.2 < 1073741824) ∨
    ∃ j ≤ i, s = (size - remaining size j, size - 1)

theorem goes_narrows {s t : Int × Int} (goes : Goes array key s t) : s.1 ≤ t.1 ∧ t.2 ≤ s.2 := by
  cases goes with
  | right nonempty fits probed more =>
    have between := midpoint_between nonempty
    rw [midpoint, ← sum_is fits] at between
    dsimp only
    omega
  | left nonempty fits probed less =>
    have between := midpoint_between nonempty
    rw [midpoint, ← sum_is fits] at between
    dsimp only
    omega

theorem goes_inside {l r : Int} (reached : Reachable (Goes array key) (0, size - 1) (l, r)) :
    0 ≤ l ∧ r ≤ size - 1 := by
  refine @invariant_reachable _ _ (fun s => 0 ≤ s.1 ∧ s.2 ≤ size - 1) _ _ ⟨?_, ?_⟩ ?_ reached
  · exact le_refl 0
  · exact le_refl _
  · intro s t inside goes
    have narrows := goes_narrows goes
    omega

theorem goes_right {i : Nat} (holds : Holds array cell size) (positive : 0 < size)
    {t : Int × Int} (goes : Goes array key (size - remaining size i, size - 1) t) :
    (key > cell (probe size i) ∧ t = (size - remaining size (i + 1), size - 1)) ∨
      t.2 < probe size i := by
  have here := right_sum positive i
  have at_i := read_probe holds positive i
  cases goes with
  | right nonempty fits probed more =>
    rw [sum_is fits, here] at probed ⊢
    rw [at_i, Option.some.injEq] at probed
    refine Or.inl ⟨by omega, ?_⟩
    rw [probe_eq, remaining_succ]
    congr 1
    omega
  | left nonempty fits probed less =>
    rw [sum_is fits, here]
    exact Or.inr (Int.sub_one_lt_of_le (le_refl _))

theorem low_bounds_goes {i : Nat} (holds : Holds array cell size) (positive : 0 < size)
    (low : probe size i < 1073741824) (stops : key ≤ cell (probe size i)) (s t : Int × Int)
    (bounds : LowBounds size i s) (goes : Goes array key s t) : LowBounds size i t := by
  have narrows := goes_narrows goes
  rcases bounds with ⟨first, last⟩ | ⟨j, le, same⟩
  · exact Or.inl ⟨by omega, by omega⟩
  · have few := remaining_le size j
    have below := @probe_mono size _ _ le
    rw [same] at goes narrows
    rcases goes_right holds positive goes with ⟨more, turned⟩ | turned
    · have other : j ≠ i := by
        rintro rfl
        omega
      exact Or.inr ⟨j + 1, by omega, turned⟩
    · exact Or.inl ⟨by omega, by omega⟩

theorem low_sum {l r : Int} (first : 0 ≤ l) (last : r < 1073741824) (nonempty : l ≤ r) :
    int (l + r) = some (l + r) := by
  apply int_index (by omega)
  unfold INT_MAX
  omega

theorem low_bounds_sum {i : Nat} (positive : 0 < size) (low : probe size i < 1073741824)
    {l r : Int} (bounds : LowBounds size i (l, r)) (nonempty : l ≤ r) :
    int (l + r) = some (l + r) := by
  rcases bounds with ⟨first, last⟩ | ⟨j, le, same⟩
  · exact low_sum first last nonempty
  · have below := @probe_mono size _ _ le
    have few := remaining_le size j
    have at_j := probe_eq size j
    rw [Prod.mk.injEq] at same
    apply int_index (by omega)
    unfold INT_MAX
    omega

theorem stays_low_safe (holds : Holds array cell size) (positive : 0 < size)
    (low : StaysLow cell size key) : MidpointsSafe array size key := by
  intro l r reached nonempty
  refine ⟨?_, midpoint_between nonempty⟩
  rcases low with small | ⟨i, low, stops⟩
  · have bounds := goes_inside reached
    exact low_sum bounds.1 (by omega) nonempty
  · have start : LowBounds size i (0, size - 1) := by
      refine Or.inr ⟨0, Nat.zero_le i, ?_⟩
      rw [remaining, Nat.pow_zero, Nat.div_one, Int.toNat_of_nonneg (by omega), Int.sub_self]
    have bounds := invariant_reachable start (low_bounds_goes holds positive low stops) reached
    exact low_bounds_sum positive low bounds nonempty

/-- Before a probe that is reached by turns to the right there are cells left. -/
theorem remaining_some {i : Nat} (large : 1073741824 < size)
    (before : ∀ j < i, probe size j < 1073741824) : 0 < remaining size i := by
  cases i with
  | zero =>
    rw [remaining, Nat.pow_zero, Nat.div_one]
    omega
  | succ i =>
    have low := before i (Nat.lt_succ_self i)
    rw [probe_eq, ← remaining_succ] at low
    omega

/-- A key above all the probes below 2^30 leads the search to the right. -/
theorem right_reached (holds : Holds array cell size) (large : 1073741824 < size) {i : Nat}
    (before : ∀ j < i, probe size j < 1073741824 ∧ key > cell (probe size j)) :
    Reachable (Goes array key) (0, size - 1) (size - remaining size i, size - 1) := by
  induction i with
  | zero =>
    have start : size - (remaining size 0 : Int) = 0 := by
      rw [remaining, Nat.pow_zero, Nat.div_one]
      omega
    rw [start]
    exact reachable_start _
  | succ i ih =>
    obtain ⟨low, more⟩ := before i (Nat.lt_succ_self i)
    have so_far := ih fun j less => before j (by omega)
    have some_left := @remaining_some size i large fun j less => (before j (by omega)).1
    have few := remaining_le size i
    have at_i := probe_eq size i
    have fits : int (size - remaining size i + (size - 1)) =
        some (size - remaining size i + (size - 1)) := by
      apply int_index (by omega)
      unfold INT_MAX
      omega
    have sum := @right_sum size (by omega) i
    have nonempty : size - (remaining size i : Int) ≤ size - 1 := by omega
    have positive : 0 < size := by omega
    have probed := read_probe holds positive i
    have turn := Goes.right nonempty fits (by rw [sum]; exact probed) more
    have next : (size - remaining size i + (size - 1)).tdiv 2 + 1 =
        size - remaining size (i + 1) := by
      rw [sum, probe_eq, remaining_succ]
      omega
    rw [next] at turn
    exact reachable_step so_far turn

theorem safe_stays_low (holds : Holds array cell size) (safe : MidpointsSafe array size key) :
    StaysLow cell size key := by
  by_contra high
  simp only [StaysLow, not_or, not_exists, not_and, not_le] at high
  obtain ⟨large, above⟩ := high
  have some_high : ∃ i, ¬ probe size i < 1073741824 := by
    refine ⟨size.toNat, ?_⟩
    have none_left : size.toNat / 2 ^ (size.toNat + 1) = 0 := by
      apply Nat.div_eq_of_lt
      exact Nat.lt_trans Nat.lt_two_pow_self (Nat.pow_lt_pow_right (by decide) (by omega))
    rw [probe, none_left]
    omega
  have first := Nat.find_spec some_high
  have before : ∀ j < Nat.find some_high, probe size j < 1073741824 := fun j less =>
    Decidable.not_not.mp (Nat.find_min some_high less)
  generalize Nat.find some_high = i at first before
  have reached := @right_reached array cell size key holds large i fun j less =>
    ⟨before j less, above j (before j less)⟩
  have some_left := remaining_some large before
  have few := remaining_le size i
  have at_i := probe_eq size i
  have fits := (safe _ _ reached (by omega)).1
  rw [int_too_large (by unfold INT_MAX; omega)] at fits
  cases fits

/-- No sum of the bounds overflows exactly when the search turns left, or ends, before it gets to
    a probe from 2^30 on. -/
theorem midpoints_safe_iff (holds : Holds array cell size) (key : Int) :
    MidpointsSafe array size key ↔ StaysLow cell size key := by
  constructor
  · exact safe_stays_low holds
  · intro low
    by_cases positive : 0 < size
    · exact stays_low_safe holds positive low
    · intro l r reached nonempty
      have bounds := goes_inside reached
      omega

end

/-- The array of main. -/
theorem main_midpoints_safe :
    MidpointsSafe (some ⟨0, 10, id⟩) 10 6 ↔ StaysLow id 10 6 :=
  @midpoints_safe_iff (some ⟨0, 10, id⟩) id 10 (fun _ low high => load_inside low high) 6

/-- An array of zeros overflows the second sum, when it is as large as can be. -/
theorem zeros_midpoints_unsafe :
    ¬ ∀ (array : Option (Arr Int)) (cell : Int → Int) (size key : Int), 0 ≤ size → size ≤ INT_MAX →
      Holds array cell size → Sorted cell size → MidpointsSafe array size key := by
  intro claim
  have holds : Holds (some ⟨0, 2147483647, fun _ => 0⟩) (fun _ => 0) 2147483647 :=
    fun _ low high => load_inside low high
  have safe := claim _ _ 2147483647 1 (by decide) (by decide) holds fun _ _ _ _ _ => le_refl 0
  rcases safe_stays_low holds safe with small | ⟨i, _, stops⟩
  · exact absurd small (by decide)
  · exact absurd stops (show ¬ (1 : Int) ≤ 0 by decide)

end UC.BinarySearch
