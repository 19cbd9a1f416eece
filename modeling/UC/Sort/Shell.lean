import UC.Lib.Ints
import UC.Lib.Sorting

/- insertSort and shellSort of example_sort.cpp. Both hold one element in tmp while a hole
   moves down. An index outside the array and an int that overflows are none. -/
namespace UC.ShellSort
open UC.Cells UC.Ints UC.Sorting

/-- for(j=i; j>0 && arr[j-1]>tmp; j--): the array and j behind it. -/
def insertShift (tmp : Int) (arr : Arr Int) (j : Int) : Option (Arr Int × Int) :=
  if _more : j > 0 then do
    let before ← load arr (j - 1)
    if before > tmp then do
      let moved ← load arr (j - 1)
      let arr ← save arr j moved
      let _ ← int (j - 1)
      insertShift tmp arr (j - 1)
    else some (arr, j)
  else some (arr, j)
termination_by j.toNat

def insertPass (size : Int) (arr : Arr Int) (i : Int) : Option (Arr Int) :=
  if _more : i < size then do
    let tmp ← load arr i
    let (arr, j) ← insertShift tmp arr i
    let arr ← save arr j tmp
    let _ ← int (i + 1)
    insertPass size arr (i + 1)
  else some arr
termination_by (size - i).toNat

def insertSort (arr : Arr Int) (size : Int) : Option (Arr Int) := insertPass size arr 1

/-- for(j=i; j>=increment; j-=increment) with its break. The increment is positive by the
    condition of the outer loop. -/
def shellShift {increment : Int} (positive : 0 < increment) (tmp : Int) (arr : Arr Int)
    (j : Int) : Option (Arr Int × Int) :=
  if _more : j ≥ increment then do
    let before ← load arr (j - increment)
    if tmp < before then do
      let moved ← load arr (j - increment)
      let arr ← save arr j moved
      let _ ← int (j - increment)
      shellShift positive tmp arr (j - increment)
    else some (arr, j)
  else some (arr, j)
termination_by j.toNat

def shellPass {increment : Int} (positive : 0 < increment) (size : Int) (arr : Arr Int)
    (i : Int) : Option (Arr Int) :=
  if _more : i < size then do
    let tmp ← load arr i
    let (arr, j) ← shellShift positive tmp arr i
    let arr ← save arr j tmp
    let _ ← int (i + 1)
    shellPass positive size arr (i + 1)
  else some arr
termination_by (size - i).toNat

theorem half_smaller {increment : Int} (positive : 0 < increment) :
    (increment.tdiv 2).toNat < increment.toNat := by
  rw [Int.tdiv_eq_ediv_of_nonneg (by omega)]
  omega

def shellPasses (size : Int) (arr : Arr Int) (increment : Int) : Option (Arr Int) :=
  if positive : 0 < increment then do
    let arr ← shellPass positive size arr increment
    shellPasses size arr (increment.tdiv 2)
  else some arr
termination_by increment.toNat
decreasing_by exact half_smaller positive

def shellSort (arr : Arr Int) (size : Int) : Option (Arr Int) :=
  shellPasses size arr (size.tdiv 2)

theorem insert_shift_one (tmp : Int) (arr : Arr Int) (j : Int) :
    insertShift tmp arr j = shellShift Int.one_pos tmp arr j := by
  induction distance : j.toNat generalizing arr j with
  | zero => rw [insertShift, shellShift, dif_neg (by omega), dif_neg (by omega)]
  | succ d ih =>
    have next : ∀ arr, insertShift tmp arr (j - 1) = shellShift Int.one_pos tmp arr (j - 1) :=
      fun arr => ih arr (j - 1) (by omega)
    rw [insertShift, shellShift, dif_pos (by omega), dif_pos (by omega)]
    simp only [next]

theorem insert_pass_one (size : Int) (arr : Arr Int) (i : Int) :
    insertPass size arr i = shellPass Int.one_pos size arr i := by
  induction distance : (size - i).toNat generalizing arr i with
  | zero => rw [insertPass, shellPass, dif_neg (by omega), dif_neg (by omega)]
  | succ d ih =>
    have next : ∀ arr, insertPass size arr (i + 1) = shellPass Int.one_pos size arr (i + 1) :=
      fun arr => ih arr (i + 1) (by omega)
    rw [insertPass, shellPass, dif_pos (by omega), dif_pos (by omega)]
    simp only [next, insert_shift_one]

/-- The cells in front of stop whose distance the increment divides are in order. -/
def GapOrdered (increment : Int) (cell : Int → Int) (stop : Int) : Prop :=
  ∀ x y, 0 ≤ x → x ≤ y → y < stop → increment ∣ y - x → cell x ≤ cell y

/-- The state of the inner loop. The hole is at j: with tmp in it, the array holds what it held
    at the beginning, and without it the cells up to i are in order. -/
structure Shifting (increment : Int) (start : Int → Int) (last i tmp : Int) (now : Int → Int)
    (j : Int) : Prop where
  window : 0 ≤ j ∧ j ≤ i ∧ i ≤ last
  ordered : ∀ x y, 0 ≤ x → x ≤ y → y ≤ i → x ≠ j → y ≠ j → increment ∣ y - x → now x ≤ now y
  large : ∀ y, j < y → y ≤ i → increment ∣ y - j → tmp < now y
  kept : bag (set now j tmp) (indices 0 last) = bag start (indices 0 last)
  outside : ∀ x, x < 0 ∨ last < x → now x = start x

theorem column_apart {increment x y : Int} (less : x < y) (column : increment ∣ y - x) :
    x ≤ y - increment := by
  have far := Int.le_of_dvd (by omega) column
  omega

theorem hole_goes_down {increment last i tmp j : Int} {start now : Int → Int}
    (state : Shifting increment start last i tmp now j) (positive : 0 < increment)
    (more : increment ≤ j) (large : tmp < now (j - increment)) :
    Shifting increment start last i tmp (set now j (now (j - increment))) (j - increment) := by
  have window := state.window
  constructor
  · omega
  · intro x y low le high apartX apartY column
    by_cases hereY : y = j
    · subst hereY
      rw [set_same]
      by_cases hereX : x = y
      · rw [hereX, set_same]
      · have far := column_apart (by omega) column
        rw [set_other _ _ hereX]
        apply state.ordered x (y - increment) low far (by omega) hereX (by omega)
        have back : y - increment - x = y - x - increment := by omega
        rw [back]
        exact Int.dvd_sub column (Int.dvd_refl increment)
    · rw [set_other _ _ hereY]
      by_cases hereX : x = j
      · subst hereX
        rw [set_same]
        apply state.ordered (x - increment) y (by omega) (by omega) high (by omega) hereY
        have back : y - (x - increment) = y - x + increment := by omega
        rw [back]
        exact Int.dvd_add column (Int.dvd_refl increment)
      · rw [set_other _ _ hereX]
        exact state.ordered x y low le high hereX hereY column
  · intro y above high column
    by_cases here : y = j
    · rw [here, set_same]
      exact large
    · have far := column_apart above column
      rw [set_other _ _ here]
      apply state.large y (by omega) high
      have back : y - j = y - (j - increment) - increment := by omega
      rw [back]
      exact Int.dvd_sub column (Int.dvd_refl increment)
  · have atJ : j ∈ indices 0 last := mem_indices.mpr (by omega)
    have below : j - increment ∈ indices 0 last := mem_indices.mpr (by omega)
    rw [bag_move now atJ below]
    exact state.kept
  · intro x apart
    rw [set_other _ _ (by omega)]
    exact state.outside x apart

theorem shell_shift_step {increment tmp j lo hi : Int} {now : Int → Int}
    (positive : 0 < increment) (more : increment ≤ j) (low : lo ≤ 0) (high : j < hi)
    (fits : j ≤ INT_MAX) : shellShift positive tmp ⟨lo, hi, now⟩ j =
      if tmp < now (j - increment) then
        shellShift positive tmp ⟨lo, hi, set now j (now (j - increment))⟩ (j - increment)
      else some (⟨lo, hi, now⟩, j) := by
  have read := @load_inside _ ⟨lo, hi, now⟩ (j - increment) (by dsimp only; omega)
    (by dsimp only; omega)
  have write := @save_inside _ ⟨lo, hi, now⟩ j (by dsimp only; omega) high
    (now (j - increment))
  rw [shellShift, dif_pos more, read, Option.bind_eq_bind, Option.bind_some]
  by_cases large : tmp < now (j - increment)
  · rw [if_pos large, if_pos large]
    change (save ⟨lo, hi, now⟩ j (now (j - increment))).bind _ = _
    rw [write, Option.bind_some, int_index (by omega) (by omega)]
    rfl
  · rw [if_neg large, if_neg large]

theorem shell_shift_stops {increment last i tmp j : Int} {start now : Int → Int}
    (state : Shifting increment start last i tmp now j) (positive : 0 < increment)
    (fits : last ≤ INT_MAX) :
    ∃ now' j', (∀ lo hi, lo ≤ 0 → last < hi →
        shellShift positive tmp ⟨lo, hi, now⟩ j = some (⟨lo, hi, now'⟩, j')) ∧
      Shifting increment start last i tmp now' j' ∧
      (increment ≤ j' → now' (j' - increment) ≤ tmp) := by
  induction distance : j.toNat using Nat.strongRecOn generalizing now j with
  | ind d ih =>
    have window := state.window
    by_cases more : increment ≤ j
    · have step := fun lo hi low high =>
        @shell_shift_step increment tmp j lo hi now positive more low high (by omega)
      by_cases large : tmp < now (j - increment)
      · obtain ⟨now', j', run, final, place⟩ := ih (j - increment).toNat (by omega)
          (hole_goes_down state positive more large) rfl
        refine ⟨now', j', ?_, final, place⟩
        intro lo hi low high
        rw [step lo hi low (by omega), if_pos large]
        exact run lo hi low high
      · refine ⟨now, j, ?_, state, fun _ => not_lt.mp large⟩
        intro lo hi low high
        rw [step lo hi low (by omega), if_neg large]
    · refine ⟨now, j, ?_, state, fun le => absurd le more⟩
      intro lo hi _ _
      rw [shellShift, dif_neg more]

structure Passing (increment : Int) (start : Int → Int) (last : Int) (now : Int → Int)
    (i : Int) : Prop where
  ordered : GapOrdered increment now i
  kept : bag now (indices 0 last) = bag start (indices 0 last)
  outside : ∀ x, x < 0 ∨ last < x → now x = start x

theorem shift_begins {increment last i : Int} {start now : Int → Int}
    (state : Passing increment start last now i) (inside : 0 ≤ i ∧ i ≤ last) :
    Shifting increment start last i (now i) now i := by
  constructor
  · omega
  · intro x y low le high _ apart column
    exact state.ordered x y low le (by omega) column
  · omega
  · rw [← state.kept]
    apply bag_congr
    intro x _
    by_cases here : x = i
    · rw [here, set_same]
    · exact set_other _ _ here
  · exact state.outside

theorem shift_ends {increment last i tmp j : Int} {start now : Int → Int}
    (state : Shifting increment start last i tmp now j) (positive : 0 < increment)
    (place : increment ≤ j → now (j - increment) ≤ tmp) :
    Passing increment start last (set now j tmp) (i + 1) := by
  have window := state.window
  constructor
  · intro x y low le high column
    by_cases hereX : x = j
    · by_cases hereY : y = j
      · rw [hereX, hereY]
      · subst hereX
        rw [set_same, set_other _ _ hereY]
        exact le_of_lt (state.large y (by omega) (by omega) column)
    · rw [set_other _ _ hereX]
      by_cases hereY : y = j
      · subst hereY
        have far := column_apart (by omega) column
        have back : y - increment - x = y - x - increment := by omega
        have below : now x ≤ now (y - increment) := by
          apply state.ordered x (y - increment) low far (by omega) hereX (by omega)
          rw [back]
          exact Int.dvd_sub column (Int.dvd_refl increment)
        rw [set_same]
        exact below.trans (place (by omega))
      · rw [set_other _ _ hereY]
        exact state.ordered x y low le (by omega) hereX hereY column
  · exact state.kept
  · intro x apart
    rw [set_other _ _ (by omega)]
    exact state.outside x apart

theorem shell_pass_step {increment last i : Int} {start now : Int → Int}
    (state : Passing increment start last now i) (positive : 0 < increment)
    (fits : last < INT_MAX) (inside : 0 ≤ i ∧ i ≤ last) :
    ∃ next, Passing increment start last next (i + 1) ∧ ∀ lo hi, lo ≤ 0 → last < hi →
      shellPass positive (last + 1) ⟨lo, hi, now⟩ i =
        shellPass positive (last + 1) ⟨lo, hi, next⟩ (i + 1) := by
  obtain ⟨shifted, j, run, final, place⟩ :=
    shell_shift_stops (shift_begins state inside) positive (by omega)
  have window := final.window
  refine ⟨set shifted j (now i), shift_ends final positive place, ?_⟩
  intro lo hi low high
  have read := @load_inside _ ⟨lo, hi, now⟩ i (by dsimp only; omega) (by dsimp only; omega)
  have write := @save_inside _ ⟨lo, hi, shifted⟩ j (by dsimp only; omega) (by dsimp only; omega)
    (now i)
  rw [shellPass, dif_pos (by omega), read, Option.bind_eq_bind, Option.bind_some,
    run lo hi low high]
  change (save ⟨lo, hi, shifted⟩ j (now i)).bind _ = _
  rw [write, Option.bind_some, int_index (by omega) (by omega)]
  rfl

theorem shell_pass_continues {increment last i : Int} {start now : Int → Int}
    (state : Passing increment start last now i) (positive : 0 < increment)
    (fits : last < INT_MAX) (nonneg : 0 ≤ i) :
    ∃ passed, Passing increment start last passed (last + 1) ∧ ∀ lo hi, lo ≤ 0 → last < hi →
      shellPass positive (last + 1) ⟨lo, hi, now⟩ i = some ⟨lo, hi, passed⟩ := by
  induction distance : (last + 1 - i).toNat generalizing now i with
  | zero =>
    refine ⟨now, ⟨?_, state.kept, state.outside⟩, ?_⟩
    · intro x y low le high column
      exact state.ordered x y low le (by omega) column
    · intro lo hi _ _
      rw [shellPass, dif_neg (by omega)]
  | succ d ih =>
    obtain ⟨next, state', step⟩ := shell_pass_step state positive fits (by omega)
    obtain ⟨passed, final, run⟩ := ih state' (by omega) (by omega)
    refine ⟨passed, final, ?_⟩
    intro lo hi low high
    rw [step lo hi low high]
    exact run lo hi low high

/-- One pass puts every column in order. It may begin at the increment, because the first cells
    are each alone in their column. -/
theorem shell_pass_orders {increment last i : Int} (cell : Int → Int) (positive : 0 < increment)
    (fits : last < INT_MAX) (first : 0 ≤ i ∧ i ≤ increment) :
    ∃ passed, Passing increment cell last passed (last + 1) ∧ ∀ lo hi, lo ≤ 0 → last < hi →
      shellPass positive (last + 1) ⟨lo, hi, cell⟩ i = some ⟨lo, hi, passed⟩ := by
  apply shell_pass_continues _ positive fits first.1
  constructor
  · intro x y low le high column
    rcases Int.lt_or_eq_of_le le with less | same
    · have far := column_apart less column
      omega
    · rw [same]
  · rfl
  · exact fun _ _ => rfl

/-- With the increment 1 there is one column only. -/
theorem last_pass_sorts {last : Int} {cell passed : Int → Int}
    (state : Passing 1 cell last passed (last + 1)) : Sorts cell 0 last passed := by
  constructor
  · exact state.outside
  · exact state.kept
  · intro x y low le high
    exact state.ordered x y low le (by omega) (Int.one_dvd _)

theorem insert_sort_runs (cell : Int → Int) {last : Int} (fits : last < INT_MAX) :
    ∃ sorted, Sorts cell 0 last sorted ∧ ∀ lo hi, lo ≤ 0 → last < hi →
      insertSort ⟨lo, hi, cell⟩ (last + 1) = some ⟨lo, hi, sorted⟩ := by
  obtain ⟨passed, state, run⟩ := @shell_pass_orders 1 last 1 cell Int.one_pos fits (by omega)
  refine ⟨passed, last_pass_sorts state, ?_⟩
  intro lo hi low high
  rw [insertSort, insert_pass_one]
  exact run lo hi low high

/-- Halving ends with the increment 1, whatever the first one is. -/
theorem shell_passes_sort (cell : Int → Int) {last increment : Int} (fits : last < INT_MAX)
    (positive : 0 < increment) :
    ∃ sorted, Sorts cell 0 last sorted ∧ ∀ lo hi, lo ≤ 0 → last < hi →
      shellPasses (last + 1) ⟨lo, hi, cell⟩ increment = some ⟨lo, hi, sorted⟩ := by
  induction distance : increment.toNat using Nat.strongRecOn generalizing cell increment with
  | ind d ih =>
    obtain ⟨passed, state, run⟩ :=
      @shell_pass_orders increment last increment cell positive fits (by omega)
    have round : ∀ lo hi, lo ≤ 0 → last < hi →
        shellPasses (last + 1) ⟨lo, hi, cell⟩ increment =
          shellPasses (last + 1) ⟨lo, hi, passed⟩ (increment.tdiv 2) := by
      intro lo hi low high
      rw [shellPasses, dif_pos positive, run lo hi low high]
      rfl
    have half : increment.tdiv 2 = increment / 2 := Int.tdiv_eq_ediv_of_nonneg (by omega)
    by_cases one : increment = 1
    · subst one
      refine ⟨passed, last_pass_sorts state, ?_⟩
      intro lo hi low high
      rw [round lo hi low high, shellPasses, dif_neg (by decide)]
    · obtain ⟨sorted, sorts, run'⟩ := ih (increment.tdiv 2).toNat (by omega) passed (by omega) rfl
      refine ⟨sorted, sorts_rearranged sorts state.kept state.outside, ?_⟩
      intro lo hi low high
      rw [round lo hi low high]
      exact run' lo hi low high

theorem shell_sort_runs (cell : Int → Int) {last : Int} (bound : -1 ≤ last)
    (fits : last < INT_MAX) :
    ∃ sorted, Sorts cell 0 last sorted ∧ ∀ lo hi, lo ≤ 0 → last < hi →
      shellSort ⟨lo, hi, cell⟩ (last + 1) = some ⟨lo, hi, sorted⟩ := by
  have half : (last + 1).tdiv 2 = (last + 1) / 2 := Int.tdiv_eq_ediv_of_nonneg (by omega)
  by_cases short : last ≤ 0
  · refine ⟨cell, sorts_short cell short, ?_⟩
    intro lo hi _ _
    rw [shellSort, shellPasses, dif_neg (by omega)]
  · exact shell_passes_sort cell fits (by omega)

/-- Both leave the same array in place of arr[0..size), and no index outside is used. -/
theorem shell_sort_equals_insert_sort (cell : Int → Int) {size : Int} (nonneg : 0 ≤ size)
    (fits : size ≤ INT_MAX) :
    ∃ sorted, (∀ lo hi, lo ≤ 0 → size ≤ hi →
        insertSort ⟨lo, hi, cell⟩ size = some ⟨lo, hi, sorted⟩ ∧
        shellSort ⟨lo, hi, cell⟩ size = some ⟨lo, hi, sorted⟩) ∧
      (∀ i, i < 0 ∨ size ≤ i → sorted i = cell i) ∧
      (stretch sorted 0 (size - 1)).Pairwise (· ≤ ·) ∧
      (stretch sorted 0 (size - 1)).Perm (stretch cell 0 (size - 1)) := by
  obtain ⟨inserted, sorts, run⟩ := @insert_sort_runs cell (size - 1) (by omega)
  obtain ⟨shelled, sorts', run'⟩ := @shell_sort_runs cell (size - 1) (by omega) (by omega)
  rw [Int.sub_add_cancel] at run run'
  rw [sorts_unique sorts' sorts] at run'
  refine ⟨inserted, ?_, fun i apart => sorts.outside i (by omega), sorts_stretch sorts⟩
  intro lo hi low high
  exact ⟨run lo hi low (by omega), run' lo hi low (by omega)⟩

def mainArray (i : Int) : Int :=
  [81, 94, 11, 96, 12, 35, 17, 95, 28, 58, 41, 75, 15].getD i.toNat 0

theorem main_array_sorted_by_both :
    ∃ sorted, (∀ lo hi, lo ≤ 0 → 13 ≤ hi →
        insertSort ⟨lo, hi, mainArray⟩ 13 = some ⟨lo, hi, sorted⟩ ∧
        shellSort ⟨lo, hi, mainArray⟩ 13 = some ⟨lo, hi, sorted⟩) ∧
      (∀ i, i < 0 ∨ 13 ≤ i → sorted i = mainArray i) ∧
      (stretch sorted 0 (13 - 1)).Pairwise (· ≤ ·) ∧
      (stretch sorted 0 (13 - 1)).Perm (stretch mainArray 0 (13 - 1)) :=
  shell_sort_equals_insert_sort mainArray (by decide) (by decide)

end UC.ShellSort
