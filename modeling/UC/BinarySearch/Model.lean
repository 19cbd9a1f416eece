import UC.Lib.Cells

/- binarySearch and BinarySearchRecursive of example_binarysearch.cpp, with indices that do not
   overflow. A pointer is NULL or has an array behind it; none is an access outside of that. -/
namespace UC.BinarySearch
open UC.Cells

def read (array : Option (Arr Int)) (i : Int) : Option Int := array.bind fun a => load a i

/-- (l+r)/2. -/
def midpoint (l r : Int) : Int := (l + r).tdiv 2

theorem midpoint_between {l r : Int} (nonempty : l ≤ r) : l ≤ midpoint l r ∧ midpoint l r ≤ r := by
  unfold midpoint
  by_cases sign : 0 ≤ l + r
  · rw [Int.tdiv_eq_ediv_of_nonneg sign]
    omega
  · have other : (l + r).tdiv 2 = -((-(l + r)) / 2) := by
      rw [← Int.tdiv_eq_ediv_of_nonneg (by omega), Int.neg_tdiv, Int.neg_neg]
    rw [other]
    omega

def searchLoop (array : Option (Arr Int)) (key l r : Int) : Option Int :=
  if nonempty : l ≤ r then
    (read array (midpoint l r)).bind fun value =>
      if value = key then some (midpoint l r)
      else if key > value then searchLoop array key (midpoint l r + 1) r
      else searchLoop array key l (midpoint l r - 1)
  else some (-1)
termination_by (r + 1 - l).toNat
decreasing_by
  · have between := midpoint_between nonempty
    omega
  · have between := midpoint_between nonempty
    omega

def binarySearch (array : Option (Arr Int)) (size key : Int) : Option Int :=
  if array.isNone ∧ size = 0 then some (-1) else searchLoop array key 0 (size - 1)

def BinarySearchRecursive (array : Option (Arr Int)) (low high key : Int) : Option Int :=
  if empty : low > high then some (-1)
  else
    (read array (midpoint low high)).bind fun value =>
      if value = key then some (midpoint low high)
      else if value < key then BinarySearchRecursive array (midpoint low high + 1) high key
      else BinarySearchRecursive array low (midpoint low high - 1) key
termination_by (high + 1 - low).toNat
decreasing_by
  · have between := midpoint_between (Int.not_lt.mp empty)
    omega
  · have between := midpoint_between (Int.not_lt.mp empty)
    omega

def Holds (array : Option (Arr Int)) (cell : Int → Int) (size : Int) : Prop :=
  ∀ i, 0 ≤ i → i < size → read array i = some (cell i)

def Sorted (cell : Int → Int) (size : Int) : Prop :=
  ∀ i j, 0 ≤ i → i ≤ j → j < size → cell i ≤ cell j

section
variable {array : Option (Arr Int)} {cell : Int → Int} {size : Int}

theorem read_midpoint (holds : Holds array cell size) {l r : Int} (low : 0 ≤ l) (high : r < size)
    (nonempty : l ≤ r) : read array (midpoint l r) = some (cell (midpoint l r)) := by
  have between := midpoint_between nonempty
  exact holds _ (by omega) (by omega)

/-- The loop and the recursion are at the same interval all the time. -/
theorem recursive_eq_loop (array : Option (Arr Int)) (key l r : Int) :
    BinarySearchRecursive array l r key = searchLoop array key l r := by
  fun_induction searchLoop array key l r with
  | case1 l r nonempty right left =>
    rw [BinarySearchRecursive, dif_neg (Int.not_lt.mpr nonempty)]
    congr 1
    funext value
    rw [right, left]
  | case2 l r empty => rw [BinarySearchRecursive, dif_pos (Int.not_le.mp empty)]

/-- What a result says of the interval that was searched. -/
structure Answers (cell : Int → Int) (size key l r result : Int) : Prop where
  hit : result ≠ -1 → l ≤ result ∧ result ≤ r ∧ cell result = key
  miss : Sorted cell size → result = -1 → ∀ i, l ≤ i → i ≤ r → cell i ≠ key

theorem answers_right {l r mid key result : Int} (low : 0 ≤ l) (inside : l ≤ mid)
    (high : mid < size) (more : key > cell mid) (later : Answers cell size key (mid + 1) r result) :
    Answers cell size key l r result := by
  constructor
  · intro found
    have place := later.hit found
    exact ⟨by omega, place.2⟩
  · intro sorted missed i first last
    by_cases behind : mid + 1 ≤ i
    · exact later.miss sorted missed i behind last
    · have less := sorted i mid (by omega) (by omega) high
      omega

theorem answers_left {l r mid key result : Int} (low : 0 ≤ mid) (inside : mid ≤ r)
    (high : r < size) (less : key < cell mid) (later : Answers cell size key l (mid - 1) result) :
    Answers cell size key l r result := by
  constructor
  · intro found
    have place := later.hit found
    exact ⟨place.1, by omega, place.2.2⟩
  · intro sorted missed i first last
    by_cases before : i ≤ mid - 1
    · exact later.miss sorted missed i first before
    · have more := sorted mid i low (by omega) (by omega)
      omega

theorem search_loop_answers (holds : Holds array cell size) {key l r : Int} (low : 0 ≤ l)
    (high : r < size) :
    ∃ result, searchLoop array key l r = some result ∧ Answers cell size key l r result := by
  fun_induction searchLoop array key l r with
  | case1 l r nonempty right left =>
    have between := midpoint_between nonempty
    rw [read_midpoint holds low high nonempty, Option.bind_some]
    by_cases here : cell (midpoint l r) = key
    · refine ⟨midpoint l r, if_pos here, fun _ => ⟨between.1, between.2, here⟩, ?_⟩
      intro _ missed
      omega
    · rw [if_neg here]
      by_cases more : key > cell (midpoint l r)
      · obtain ⟨result, run, later⟩ := right (by omega) high
        rw [if_pos more]
        exact ⟨result, run, answers_right low between.1 (by omega) more later⟩
      · obtain ⟨result, run, later⟩ := left low (by omega)
        rw [if_neg more]
        exact ⟨result, run, answers_left (by omega) between.2 high (by omega) later⟩
  | case2 l r empty =>
    refine ⟨-1, rfl, fun other => absurd rfl other, ?_⟩
    intro _ _ i first last
    omega

/-- Both searches end with one result; in an array in order it is a place of the key, or -1 where
    there is none. -/
theorem searches_agree (holds : Holds array cell size) (key : Int) :
    ∃ result, binarySearch array size key = some result ∧
      BinarySearchRecursive array 0 (size - 1) key = some result ∧
      (Sorted cell size →
        ((∃ i, 0 ≤ i ∧ i < size ∧ cell i = key) →
          0 ≤ result ∧ result < size ∧ cell result = key) ∧
        ((∀ i, 0 ≤ i → i < size → cell i ≠ key) → result = -1)) := by
  obtain ⟨result, run, answers⟩ :=
    @search_loop_answers _ _ _ holds key 0 (size - 1) (le_refl 0) (by omega)
  refine ⟨result, ?_, ?_, ?_⟩
  · rw [binarySearch]
    split
    · rename_i nothing
      rw [nothing.2, searchLoop, dif_neg (by decide)] at run
      exact run
    · exact run
  · rw [recursive_eq_loop]
    exact run
  · intro sorted
    constructor
    · rintro ⟨i, first, last, here⟩
      have found : result ≠ -1 := fun missed =>
        answers.miss sorted missed i first (by omega) here
      have place := answers.hit found
      exact ⟨place.1, by omega, place.2.2⟩
    · intro nowhere
      by_contra found
      have place := answers.hit found
      exact nowhere result place.1 (by omega) place.2.2

end

/-- The array of main, and a key that is in it. -/
theorem main_search_agrees :
    ∃ result, binarySearch (some ⟨0, 10, id⟩) 10 6 = some result ∧
      BinarySearchRecursive (some ⟨0, 10, id⟩) 0 (10 - 1) 6 = some result ∧
      (Sorted id 10 →
        ((∃ i : Int, 0 ≤ i ∧ i < 10 ∧ id i = 6) → 0 ≤ result ∧ result < 10 ∧ id result = 6) ∧
        ((∀ i : Int, 0 ≤ i → i < 10 → id i ≠ 6) → result = -1)) :=
  @searches_agree (some ⟨0, 10, id⟩) id 10 (fun _ low high => load_inside low high) 6

end UC.BinarySearch
