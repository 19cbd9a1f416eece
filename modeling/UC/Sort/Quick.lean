import UC.Lib.Ints
import UC.Lib.Sorting

/- The quicksort of example_quicksort.cpp: a hole moves through the range while its element
   is held in key. An index outside the array and an int that overflows are none. -/
namespace UC.Quicksort
open UC.Cells UC.Ints UC.Sorting

/-- while (i<j && arr[j]>=key) j--. -/
def scanDown (arr : Arr Int) (key i j : Int) : Option Int :=
  if _less : i < j then do
    let value ← load arr j
    if value ≥ key then do
      let _ ← int (j - 1)
      scanDown arr key i (j - 1)
    else some j
  else some j
termination_by (j - i).toNat

/-- while (i<j && arr[i]<=key) i++. -/
def scanUp (arr : Arr Int) (key i j : Int) : Option Int :=
  if _less : i < j then do
    let value ← load arr i
    if value ≤ key then do
      let _ ← int (i + 1)
      scanUp arr key (i + 1) j
    else some i
  else some i
termination_by (j - i).toNat

/-- The outer while loop: the array and i behind it. The fuel bounds its rounds. -/
def partition (key : Int) : Nat → Arr Int → Int → Int → Option (Arr Int × Int)
  | 0, _, _, _ => none
  | fuel + 1, arr, i, j =>
    if i < j then do
      let j ← scanDown arr key i j
      let moved ← load arr j
      let arr ← save arr i moved
      let i ← scanUp arr key i j
      let moved ← load arr i
      let arr ← save arr j moved
      partition key fuel arr i j
    else some (arr, i)

/-- The fuel bounds the depth of the recursion and the rounds of each loop. -/
def quicksort : Nat → Arr Int → Int → Int → Option (Arr Int)
  | 0, _, _, _ => none
  | fuel + 1, arr, left, right =>
    if left ≥ right then some arr
    else do
      let key ← load arr left
      let (arr, i) ← partition key (fuel + 1) arr left right
      let arr ← save arr i key
      let above ← int (i + 1)
      let arr ← quicksort fuel arr above right
      let below ← int (i - 1)
      quicksort fuel arr left below

/-- An array of ints; how many they are is an int. -/
structure IntArray where
  size : Int
  cell : Int → Int
  size_fits : size ≤ INT_MAX

section
variable {cell : Int → Int} {key i j : Int}

theorem scan_down_stops (positive : 0 ≤ i) (fits : j ≤ INT_MAX) (le : i ≤ j) :
    ∃ stop, (∀ lo hi, lo ≤ i → j < hi → scanDown ⟨lo, hi, cell⟩ key i j = some stop) ∧
      (i ≤ stop ∧ stop ≤ j) ∧ (∀ x, stop < x → x ≤ j → key ≤ cell x) ∧
      (i < stop → cell stop < key) := by
  induction distance : (j - i).toNat generalizing j with
  | zero =>
    refine ⟨j, ?_, by omega, by omega, by omega⟩
    intro lo hi _ _
    rw [scanDown, dif_neg (by omega)]
  | succ d ih =>
    have less : i < j := by omega
    have step : ∀ lo hi, lo ≤ i → j < hi → scanDown ⟨lo, hi, cell⟩ key i j =
        if cell j ≥ key then scanDown ⟨lo, hi, cell⟩ key i (j - 1) else some j := by
      intro lo hi low high
      rw [scanDown, dif_pos less, load_inside (by dsimp only; omega) high, Option.bind_eq_bind,
        Option.bind_some, int_index (by omega) (by omega), Option.bind_some]
    by_cases large : cell j ≥ key
    · obtain ⟨stop, run, inside, behind, found⟩ :=
        @ih (j - 1) (by omega) (by omega) (by omega)
      refine ⟨stop, ?_, by omega, ?_, found⟩
      · intro lo hi low high
        rw [step lo hi low high, if_pos large]
        exact run lo hi low (by omega)
      · intro x above le'
        by_cases last : x = j
        · rw [last]
          exact large
        · exact behind x above (by omega)
    · refine ⟨j, ?_, by omega, by omega, fun _ => not_le.mp large⟩
      intro lo hi low high
      rw [step lo hi low high, if_neg large]

theorem scan_up_stops (positive : 0 ≤ i) (fits : j ≤ INT_MAX) (le : i ≤ j) :
    ∃ stop, (∀ lo hi, lo ≤ i → j < hi → scanUp ⟨lo, hi, cell⟩ key i j = some stop) ∧
      (i ≤ stop ∧ stop ≤ j) ∧ (∀ x, i ≤ x → x < stop → cell x ≤ key) ∧
      (i < j → cell i ≤ key → i < stop) := by
  induction distance : (j - i).toNat generalizing i with
  | zero =>
    refine ⟨i, ?_, by omega, by omega, by omega⟩
    intro lo hi _ _
    rw [scanUp, dif_neg (by omega)]
  | succ d ih =>
    have less : i < j := by omega
    have step : ∀ lo hi, lo ≤ i → j < hi → scanUp ⟨lo, hi, cell⟩ key i j =
        if cell i ≤ key then scanUp ⟨lo, hi, cell⟩ key (i + 1) j else some i := by
      intro lo hi low high
      rw [scanUp, dif_pos less, load_inside low (by dsimp only; omega), Option.bind_eq_bind,
        Option.bind_some, int_index (by omega) (by omega), Option.bind_some]
    by_cases small : cell i ≤ key
    · obtain ⟨stop, run, inside, before, _⟩ :=
        @ih (i + 1) (by omega) (by omega) (by omega)
      refine ⟨stop, ?_, by omega, ?_, fun _ _ => by omega⟩
      · intro lo hi low high
        rw [step lo hi low high, if_pos small]
        exact run lo hi (by omega) high
      · intro x above below
        by_cases first : x = i
        · rw [first]
          exact small
        · exact before x (by omega) below
    · refine ⟨i, ?_, by omega, by omega, fun _ le => absurd le small⟩
      intro lo hi low high
      rw [step lo hi low high, if_neg small]

end

/-- The state at the head of the outer loop. The hole is at i: with key in it, the range holds
    what it held at the beginning. -/
structure Partitioning (cell : Int → Int) (left right key : Int) (now : Int → Int) (i j : Int) :
    Prop where
  window : left ≤ i ∧ i ≤ j ∧ j ≤ right
  small : ∀ x, left ≤ x → x < i → now x ≤ key
  large : ∀ x, j < x → x ≤ right → key ≤ now x
  kept : bag (set now i key) (indices left right) = bag cell (indices left right)
  outside : ∀ x, x < left ∨ right < x → now x = cell x

theorem hole_moves_twice {cell now : Int → Int} {left right key i j i' j' : Int}
    (state : Partitioning cell left right key now i j) (down : i ≤ j' ∧ j' ≤ j)
    (up : i ≤ i' ∧ i' ≤ j') (behind : ∀ x, j' < x → x ≤ j → key ≤ now x)
    (before : ∀ x, i ≤ x → x < i' → set now i (now j') x ≤ key) :
    Partitioning cell left right key (set (set now i (now j')) j' (set now i (now j') i'))
      i' j' := by
  obtain ⟨start, _, last⟩ := state.window
  constructor
  · omega
  · intro x above below
    rw [set_other _ _ (by omega)]
    by_cases old : x < i
    · rw [set_other _ _ (by omega)]
      exact state.small x above old
    · exact before x (by omega) below
  · intro x above below
    rw [set_other _ _ (by omega), set_other _ _ (by omega)]
    by_cases old : j < x
    · exact state.large x old below
    · exact behind x above (by omega)
  · have atI : i ∈ indices left right := mem_indices.mpr (by omega)
    have atI' : i' ∈ indices left right := mem_indices.mpr (by omega)
    have atJ' : j' ∈ indices left right := mem_indices.mpr (by omega)
    rw [bag_move _ atJ' atI', bag_move now atI atJ', state.kept]
  · intro x apart
    rw [set_other _ _ (by omega), set_other _ _ (by omega)]
    exact state.outside x apart

theorem partition_step {now : Int → Int} {key i j i' j' lo hi : Int} (less : i < j)
    (low : lo ≤ i) (high : j < hi) (inside : i ≤ i' ∧ i' ≤ j' ∧ j' ≤ j)
    (down : scanDown ⟨lo, hi, now⟩ key i j = some j')
    (up : scanUp ⟨lo, hi, set now i (now j')⟩ key i j' = some i') (fuel : Nat) :
    partition key (fuel + 1) ⟨lo, hi, now⟩ i j =
      partition key fuel ⟨lo, hi, set (set now i (now j')) j' (set now i (now j') i')⟩ i' j' := by
  have read := @load_inside _ ⟨lo, hi, now⟩ j' (by dsimp only; omega) (by dsimp only; omega)
  have write := @save_inside _ ⟨lo, hi, now⟩ i low (by dsimp only; omega) (now j')
  have read' := @load_inside _ ⟨lo, hi, set now i (now j')⟩ i' (by dsimp only; omega)
    (by dsimp only; omega)
  have write' := @save_inside _ ⟨lo, hi, set now i (now j')⟩ j' (by dsimp only; omega)
    (by dsimp only; omega) (set now i (now j') i')
  rw [partition, if_pos less, down, Option.bind_eq_bind, Option.bind_some, read,
    Option.bind_some, write]
  change (scanUp ⟨lo, hi, set now i (now j')⟩ key i j').bind _ = _
  rw [up, Option.bind_some]
  change (load ⟨lo, hi, set now i (now j')⟩ i').bind _ = _
  rw [read', Option.bind_some]
  change (save ⟨lo, hi, set now i (now j')⟩ j' (set now i (now j') i')).bind _ = _
  rw [write']
  rfl

theorem partition_round {cell now : Int → Int} {left right key i j : Int}
    (state : Partitioning cell left right key now i j) (positive : 0 ≤ left)
    (fits : right ≤ INT_MAX) (less : i < j) :
    ∃ now' i' j', Partitioning cell left right key now' i' j' ∧ j' - i' < j - i ∧
      ∀ fuel lo hi, lo ≤ left → right < hi → partition key (fuel + 1) ⟨lo, hi, now⟩ i j =
        partition key fuel ⟨lo, hi, now'⟩ i' j' := by
  obtain ⟨start, _, last⟩ := state.window
  obtain ⟨j', down, inside, behind, found⟩ :=
    @scan_down_stops now key i j (by omega) (by omega) (by omega)
  obtain ⟨i', up, inside', before, moves⟩ :=
    @scan_up_stops (set now i (now j')) key i j' (by omega) (by omega) inside.1
  refine ⟨set (set now i (now j')) j' (set now i (now j') i'), i', j',
    hole_moves_twice state inside inside' behind before, ?_, ?_⟩
  · by_cases still : j' = j
    · have smaller := found (by omega)
      have moved := moves (by omega) (by rw [set_same]; exact le_of_lt smaller)
      omega
    · omega
  · intro fuel lo hi low high
    exact partition_step less (by omega) (by omega) (by omega)
      (down lo hi (by omega) (by omega)) (up lo hi (by omega) (by omega)) fuel

theorem partition_ends {cell now : Int → Int} {left right key i j : Int}
    (state : Partitioning cell left right key now i j) (positive : 0 ≤ left)
    (fits : right ≤ INT_MAX) :
    ∃ parted p, (∀ fuel lo hi, fuel > (j - i).toNat → lo ≤ left → right < hi →
        partition key fuel ⟨lo, hi, now⟩ i j = some (⟨lo, hi, parted⟩, p)) ∧
      Partitioning cell left right key parted p p := by
  induction distance : (j - i).toNat using Nat.strongRecOn generalizing now i j with
  | ind d ih =>
    have window := state.window
    by_cases less : i < j
    · obtain ⟨now', i', j', state', smaller, round⟩ := partition_round state positive fits less
      obtain ⟨parted, p, run, final⟩ := ih (j' - i').toNat (by omega) state' rfl
      refine ⟨parted, p, ?_, final⟩
      intro fuel lo hi enough low high
      obtain ⟨fuel, rfl⟩ := Nat.exists_eq_succ_of_ne_zero (Nat.ne_zero_of_lt enough)
      rw [round fuel lo hi low high]
      exact run fuel lo hi (by omega) low high
    · have met : j = i := by omega
      subst met
      refine ⟨now, j, ?_, state⟩
      intro fuel lo hi enough _ _
      obtain ⟨fuel, rfl⟩ := Nat.exists_eq_succ_of_ne_zero (Nat.ne_zero_of_lt enough)
      rw [partition, if_neg less]

/-- The first element as the pivot: what one call does before it calls itself. -/
theorem pivot_placed {cell : Int → Int} {left right : Int} (less : left < right)
    (positive : 0 ≤ left) (fits : right ≤ INT_MAX) :
    ∃ parted p, (∀ fuel lo hi, fuel > (right - left).toNat → lo ≤ left → right < hi →
        partition (cell left) fuel ⟨lo, hi, cell⟩ left right = some (⟨lo, hi, parted⟩, p)) ∧
      Partitioning cell left right (cell left) parted p p := by
  apply partition_ends _ positive fits
  constructor
  · omega
  · omega
  · omega
  · apply bag_congr
    intro x _
    by_cases here : x = left
    · rw [here, set_same]
    · exact set_other _ _ here
  · exact fun _ _ => rfl

theorem partitioning_sorts {cell parted upper sorted : Int → Int} {left right p : Int}
    (placed : Partitioning cell left right (cell left) parted p p)
    (first : Sorts (set parted p (cell left)) (p + 1) right upper)
    (second : Sorts upper left (p - 1) sorted) : Sorts cell left right sorted := by
  have window := placed.window
  have whole : Sorts (set parted p (cell left)) left right sorted := by
    apply sorts_around_pivot (by omega) _ _ first second
    · intro i low less
      rw [set_same, set_other _ _ (by omega)]
      exact placed.small i low less
    · intro i less high
      rw [set_same, set_other _ _ (by omega)]
      exact placed.large i less high
  apply sorts_rearranged whole placed.kept
  intro i apart
  rw [set_other _ _ (by omega)]
  exact placed.outside i apart

theorem quicksort_runs {cell : Int → Int} {left right : Int} (positive : 0 ≤ left)
    (fits : right < INT_MAX) :
    ∃ sorted, (∀ fuel lo hi, fuel > (right + 1 - left).toNat → lo ≤ left → right < hi →
        quicksort fuel ⟨lo, hi, cell⟩ left right = some ⟨lo, hi, sorted⟩) ∧
      Sorts cell left right sorted := by
  induction distance : (right + 1 - left).toNat using Nat.strongRecOn
    generalizing cell left right with
  | ind d ih =>
    by_cases less : left < right
    · obtain ⟨parted, p, run, placed⟩ := @pivot_placed cell left right less positive (by omega)
      obtain ⟨start, _, last⟩ := placed.window
      obtain ⟨upper, runUpper, first⟩ := @ih (right + 1 - (p + 1)).toNat (by omega)
        (set parted p (cell left)) (p + 1) right (by omega) fits rfl
      obtain ⟨sorted, runLower, second⟩ := @ih (p - 1 + 1 - left).toNat (by omega) upper left
        (p - 1) positive (by omega) rfl
      refine ⟨sorted, ?_, partitioning_sorts placed first second⟩
      intro fuel lo hi enough low high
      obtain ⟨fuel, rfl⟩ := Nat.exists_eq_succ_of_ne_zero (Nat.ne_zero_of_lt enough)
      have read := @load_inside _ ⟨lo, hi, cell⟩ left low (by dsimp only; omega)
      have write := @save_inside _ ⟨lo, hi, parted⟩ p (by dsimp only; omega)
        (by dsimp only; omega) (cell left)
      rw [quicksort, if_neg (by omega), read, Option.bind_eq_bind, Option.bind_some]
      dsimp only
      rw [run (fuel + 1) lo hi (by omega) low high]
      change (save ⟨lo, hi, parted⟩ p (cell left)).bind _ = _
      rw [write, Option.bind_some, int_index (by omega) (by omega)]
      change (quicksort fuel ⟨lo, hi, set parted p (cell left)⟩ (p + 1) right).bind _ = _
      rw [runUpper fuel lo hi (by omega) (by omega) high,
        int_index (by omega) (by omega)]
      exact runLower fuel lo hi (by omega) low (by omega)
    · refine ⟨cell, ?_, sorts_short cell (by omega)⟩
      intro fuel lo hi enough _ _
      obtain ⟨fuel, rfl⟩ := Nat.exists_eq_succ_of_ne_zero (Nat.ne_zero_of_lt enough)
      rw [quicksort, if_pos (by omega)]

/-- Every range of every array is sorted. The outcome is the same with any cells around the
    range that may be used or not, so no index outside left .. right is. -/
theorem quicksort_sorts (array : IntArray) {left right : Int} (low : 0 ≤ left)
    (high : right < array.size) :
    ∃ sorted, (∃ enough, ∀ fuel ≥ enough, ∀ lo hi, lo ≤ left → right < hi →
        quicksort fuel ⟨lo, hi, array.cell⟩ left right = some ⟨lo, hi, sorted⟩) ∧
      (∀ i, i < left ∨ right < i → sorted i = array.cell i) ∧
      (stretch sorted left right).Pairwise (· ≤ ·) ∧
      (stretch sorted left right).Perm (stretch array.cell left right) := by
  have fits := lt_of_lt_of_le high array.size_fits
  obtain ⟨sorted, run, sorts⟩ := @quicksort_runs array.cell left right low fits
  refine ⟨sorted, ⟨(right + 1 - left).toNat + 1, ?_⟩, sorts.outside, sorts_stretch sorts⟩
  intro fuel enough lo hi
  exact run fuel lo hi enough

def tenInts : IntArray :=
  { size := 10, cell := fun i => [1, 5, 7, 10, 2, 3, 45, 6, 78, 9].getD i.toNat 0,
    size_fits := by decide }

theorem ten_ints_sorted :
    ∃ sorted, (∃ enough, ∀ fuel ≥ enough, ∀ lo hi, lo ≤ 0 → 9 < hi →
        quicksort fuel ⟨lo, hi, tenInts.cell⟩ 0 9 = some ⟨lo, hi, sorted⟩) ∧
      (∀ i, i < 0 ∨ 9 < i → sorted i = tenInts.cell i) ∧
      (stretch sorted 0 9).Pairwise (· ≤ ·) ∧
      (stretch sorted 0 9).Perm (stretch tenInts.cell 0 9) :=
  quicksort_sorts tenInts (by decide) (by decide)

end UC.Quicksort
