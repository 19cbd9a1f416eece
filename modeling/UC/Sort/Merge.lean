import UC.Lib.Ints
import UC.Lib.Sorting

/- The merge sort of example_sort.cpp. The elements are ints there; as they are only compared
   with <=, their type is left open here, and equal elements can be told apart. An index outside
   an array and an int that overflows are none. -/
namespace UC.MergeSort
open UC.Cells UC.Ints UC.Sorting

section
variable {α : Type} [LE α] [DecidableLE α]

/-- while (lpos <= leftEnd && rpos <= rightend): tmpArray, lpos, rpos and tmpPos behind it. -/
def mergeLoop (arr : Arr α) (leftEnd rightend : Int) (tmpArray : Arr α)
    (lpos rpos tmpPos : Int) : Option (Arr α × Int × Int × Int) :=
  if _more : lpos ≤ leftEnd ∧ rpos ≤ rightend then do
    let left ← load arr lpos
    let right ← load arr rpos
    if left ≤ right then do
      let tmpArray ← save tmpArray tmpPos left
      let _ ← int (tmpPos + 1)
      let _ ← int (lpos + 1)
      mergeLoop arr leftEnd rightend tmpArray (lpos + 1) rpos (tmpPos + 1)
    else do
      let tmpArray ← save tmpArray tmpPos right
      let _ ← int (tmpPos + 1)
      let _ ← int (rpos + 1)
      mergeLoop arr leftEnd rightend tmpArray lpos (rpos + 1) (tmpPos + 1)
  else some (tmpArray, lpos, rpos, tmpPos)
termination_by (leftEnd + 1 - lpos).toNat + (rightend + 1 - rpos).toNat

/-- while (pos <= last) tmpArray[tmpPos++] = arr[pos++]: tmpArray and tmpPos behind it. -/
def copyLoop (arr : Arr α) (last : Int) (tmpArray : Arr α) (pos tmpPos : Int) :
    Option (Arr α × Int) :=
  if _more : pos ≤ last then do
    let value ← load arr pos
    let tmpArray ← save tmpArray tmpPos value
    let _ ← int (tmpPos + 1)
    let _ ← int (pos + 1)
    copyLoop arr last tmpArray (pos + 1) (tmpPos + 1)
  else some (tmpArray, tmpPos)
termination_by (last + 1 - pos).toNat

/-- So many rounds of arr[rightend] = tmpArray[rightend], rightend--. -/
def backLoop (tmpArray : Arr α) : Nat → Arr α → Int → Option (Arr α)
  | 0, arr, _ => some arr
  | rounds + 1, arr, rightend => do
    let value ← load tmpArray rightend
    let arr ← save arr rightend value
    let rightend ← int (rightend - 1)
    backLoop tmpArray rounds arr rightend

/-- arr and tmpArray after the call. -/
def merge (arr tmpArray : Arr α) (lpos rpos rightend : Int) : Option (Arr α × Arr α) := do
  let leftEnd ← int (rpos - 1)
  let distance ← int (rightend - lpos)
  let numElements ← int (distance + 1)
  let (tmpArray, lpos, rpos, tmpPos) ← mergeLoop arr leftEnd rightend tmpArray lpos rpos lpos
  let (tmpArray, tmpPos) ← copyLoop arr leftEnd tmpArray lpos tmpPos
  let (tmpArray, _) ← copyLoop arr rightend tmpArray rpos tmpPos
  let arr ← backLoop tmpArray numElements.toNat arr rightend
  some (arr, tmpArray)

/-- The fuel bounds the depth of the recursion. -/
def mSort : Nat → Arr α → Arr α → Int → Int → Option (Arr α × Arr α)
  | 0, _, _, _, _ => none
  | fuel + 1, arr, tmpArray, left, right =>
    if left < right then do
      let sum ← int (left + right)
      let center := sum.tdiv 2
      let (arr, tmpArray) ← mSort fuel arr tmpArray left center
      let next ← int (center + 1)
      let (arr, tmpArray) ← mSort fuel arr tmpArray next right
      merge arr tmpArray left next right
    else some (arr, tmpArray)

/-- memory is what malloc returns: NULL, or size elements of some content. -/
def mergeSort (memory : Option (Int → α)) (fuel : Nat) (arr : Arr α) (size : Int) :
    Option (Arr α) :=
  match memory with
  | none => some arr
  | some content => do
    let last ← int (size - 1)
    let (arr, _) ← mSort fuel arr { lo := 0, hi := size, cell := content } 0 last
    some arr

end

section
variable {α : Type} {cell : Int → α} {last : Int}

theorem copy_loop_runs {tmp : Int → α} {pos tmpPos : Int} (positive : 0 ≤ pos)
    (start : pos ≤ last + 1) (ahead : pos ≤ tmpPos) (room : tmpPos + (last - pos) < INT_MAX) :
    ∃ filled, (∀ lo hi lo' hi', lo ≤ pos → last < hi → lo' ≤ tmpPos →
        tmpPos + (last - pos) < hi' → copyLoop ⟨lo, hi, cell⟩ last ⟨lo', hi', tmp⟩ pos tmpPos =
          some (⟨lo', hi', filled⟩, tmpPos + (last + 1 - pos))) ∧
      (∀ i, i < tmpPos ∨ tmpPos + (last - pos) < i → filled i = tmp i) ∧
      stretch filled tmpPos (tmpPos + (last - pos)) = stretch cell pos last := by
  induction distance : (last + 1 - pos).toNat generalizing tmp pos tmpPos with
  | zero =>
    have done : pos = last + 1 := by omega
    refine ⟨tmp, ?_, fun _ _ => rfl, ?_⟩
    · intro lo hi lo' hi' _ _ _ _
      rw [copyLoop, dif_neg (by omega), done, Int.sub_self, Int.add_zero]
    · rw [stretch_none tmp (by omega), stretch_none cell (by omega)]
  | succ d ih =>
    have more : pos ≤ last := by omega
    obtain ⟨filled, run, outside, copied⟩ :=
      @ih (set tmp tmpPos (cell pos)) (pos + 1) (tmpPos + 1) (by omega) (by omega) (by omega)
        (by omega) (by omega)
    have same : tmpPos + 1 + (last - (pos + 1)) = tmpPos + (last - pos) := by omega
    rw [same] at outside copied
    obtain ⟨begins, frame⟩ := stretch_filled (by omega) outside
    refine ⟨filled, ?_, frame, ?_⟩
    · intro lo hi lo' hi' low high low' high'
      have read := @load_inside _ ⟨lo, hi, cell⟩ pos low (by dsimp only; omega)
      have write := @save_inside _ ⟨lo', hi', tmp⟩ tmpPos low' (by dsimp only; omega) (cell pos)
      have step := run lo hi lo' hi' (by omega) high (by omega) (by omega)
      have last' : tmpPos + 1 + (last + 1 - (pos + 1)) = tmpPos + (last + 1 - pos) := by omega
      rw [copyLoop, dif_pos more, read, Option.bind_eq_bind, Option.bind_some]
      dsimp only
      rw [write, int_index (by omega) (by omega),
        int_index (by omega) (by omega)]
      rw [last'] at step
      exact step
    · rw [begins, copied, ← stretch_cons cell more]

theorem back_loop_runs {tmp : Int → α} {rounds : Nat} {rightend : Int}
    (low : rounds ≤ rightend + 1) (fits : rightend ≤ INT_MAX) :
    ∃ copied, (∀ lo hi lo' hi', lo ≤ rightend + 1 - rounds → rightend < hi →
        lo' ≤ rightend + 1 - rounds → rightend < hi' →
        backLoop ⟨lo', hi', tmp⟩ rounds ⟨lo, hi, cell⟩ rightend = some ⟨lo, hi, copied⟩) ∧
      (∀ i, rightend - rounds < i → i ≤ rightend → copied i = tmp i) ∧
      ∀ i, i ≤ rightend - rounds ∨ rightend < i → copied i = cell i := by
  induction rounds generalizing cell rightend with
  | zero => exact ⟨cell, fun _ _ _ _ _ _ _ _ => rfl, by omega, fun _ _ => rfl⟩
  | succ n ih =>
    obtain ⟨copied, run, inside, outside⟩ :=
      @ih (set cell rightend (tmp rightend)) (rightend - 1) (by omega) (by omega)
    refine ⟨copied, ?_, ?_, ?_⟩
    · intro lo hi lo' hi' low' high low'' high'
      have read := @load_inside _ ⟨lo', hi', tmp⟩ rightend (by dsimp only; omega) high'
      have write := @save_inside _ ⟨lo, hi, cell⟩ rightend (by dsimp only; omega) high
        (tmp rightend)
      rw [backLoop, read, Option.bind_eq_bind, Option.bind_some]
      dsimp only
      rw [write, int_index (by omega) (by omega)]
      exact run lo hi lo' hi' (by omega) (by omega) (by omega) (by omega)
    · intro i above below
      by_cases last : i = rightend
      · rw [outside i (by omega), last, set_same]
      · exact inside i (by omega) (by omega)
    · intro i apart
      rw [outside i (by omega), set_other _ _ (by omega)]

end

/-- Where merge stands: what is left of the two runs fills the cells tmpPos .. rightend. -/
structure Pending (leftEnd rightend lpos rpos tmpPos : Int) : Prop where
  positive : 0 ≤ lpos
  left : lpos ≤ leftEnd + 1
  between : leftEnd < rpos
  right : rpos ≤ rightend + 1
  room : tmpPos + (leftEnd + 1 - lpos) + (rightend + 1 - rpos) = rightend + 1
  fits : rightend < INT_MAX

section
variable {α : Type} [LE α] [DecidableLE α] {cell : Int → α} {leftEnd rightend : Int}

theorem pending_takes_left {lpos rpos tmpPos : Int}
    (pending : Pending leftEnd rightend lpos rpos tmpPos) (more : lpos ≤ leftEnd) :
    Pending leftEnd rightend (lpos + 1) rpos (tmpPos + 1) := by
  obtain ⟨positive, left, between, right, room, fits⟩ := pending
  constructor <;> omega

theorem pending_takes_right {lpos rpos tmpPos : Int}
    (pending : Pending leftEnd rightend lpos rpos tmpPos) (more : rpos ≤ rightend) :
    Pending leftEnd rightend lpos (rpos + 1) (tmpPos + 1) := by
  obtain ⟨positive, left, between, right, room, fits⟩ := pending
  constructor <;> omega

theorem merge_loop_step {tmp : Int → α} {lpos rpos tmpPos : Int}
    (pending : Pending leftEnd rightend lpos rpos tmpPos)
    (more : lpos ≤ leftEnd ∧ rpos ≤ rightend) {lo hi lo' hi' : Int} (low : lo ≤ lpos)
    (high : rightend < hi) (low' : lo' ≤ tmpPos) (high' : rightend < hi') :
    mergeLoop ⟨lo, hi, cell⟩ leftEnd rightend ⟨lo', hi', tmp⟩ lpos rpos tmpPos =
      if cell lpos ≤ cell rpos then
        mergeLoop ⟨lo, hi, cell⟩ leftEnd rightend ⟨lo', hi', set tmp tmpPos (cell lpos)⟩
          (lpos + 1) rpos (tmpPos + 1)
      else
        mergeLoop ⟨lo, hi, cell⟩ leftEnd rightend ⟨lo', hi', set tmp tmpPos (cell rpos)⟩
          lpos (rpos + 1) (tmpPos + 1) := by
  obtain ⟨positive, left, between, right, room, fits⟩ := pending
  have readL := @load_inside _ ⟨lo, hi, cell⟩ lpos low (by dsimp only; omega)
  have readR := @load_inside _ ⟨lo, hi, cell⟩ rpos (by dsimp only; omega) (by dsimp only; omega)
  have write := @save_inside _ ⟨lo', hi', tmp⟩ tmpPos low' (by dsimp only; omega)
  have fitsT := @int_index (tmpPos + 1) (by omega) (by omega)
  have fitsL := @int_index (lpos + 1) (by omega) (by omega)
  have fitsR := @int_index (rpos + 1) (by omega) (by omega)
  rw [mergeLoop, dif_pos more, readL, Option.bind_eq_bind, Option.bind_some, readR,
    Option.bind_some]
  dsimp only
  by_cases le : cell lpos ≤ cell rpos
  · rw [if_pos le, if_pos le, write, fitsT, fitsL]
    rfl
  · rw [if_neg le, if_neg le, write, fitsT, fitsR]
    rfl

theorem merge_loop_runs {tmp : Int → α} {lpos rpos tmpPos : Int}
    (pending : Pending leftEnd rightend lpos rpos tmpPos) :
    ∃ filled l r p, (∀ lo hi lo' hi', lo ≤ lpos → rightend < hi → lo' ≤ tmpPos → rightend < hi' →
        mergeLoop ⟨lo, hi, cell⟩ leftEnd rightend ⟨lo', hi', tmp⟩ lpos rpos tmpPos =
          some (⟨lo', hi', filled⟩, l, r, p)) ∧
      Pending leftEnd rightend l r p ∧ lpos ≤ l ∧ tmpPos ≤ p ∧
      (∀ i, i < tmpPos ∨ p - 1 < i → filled i = tmp i) ∧
      stretch filled tmpPos (p - 1) ++ (stretch cell l leftEnd ++ stretch cell r rightend) =
        (stretch cell lpos leftEnd).merge (stretch cell rpos rightend) := by
  induction distance : (leftEnd + 1 - lpos).toNat + (rightend + 1 - rpos).toNat
    using Nat.strongRecOn generalizing tmp lpos rpos tmpPos with
  | ind d ih =>
    by_cases more : lpos ≤ leftEnd ∧ rpos ≤ rightend
    · rw [stretch_cons cell more.1, stretch_cons cell more.2]
      by_cases le : cell lpos ≤ cell rpos
      · obtain ⟨filled, l, r, p, run, final, goesL, goesP, outside, merged⟩ :=
          @ih ((leftEnd + 1 - (lpos + 1)).toNat + (rightend + 1 - rpos).toNat) (by omega)
            (set tmp tmpPos (cell lpos)) _ _ _ (pending_takes_left pending more.1) rfl
        obtain ⟨begins, frame⟩ := stretch_filled (by omega) outside
        refine ⟨filled, l, r, p, ?_, final, by omega, by omega, ?_, ?_⟩
        · intro lo hi lo' hi' low high low' high'
          rw [merge_loop_step pending more low high low' high', if_pos le]
          exact run lo hi lo' hi' (by omega) high (by omega) high'
        · exact frame
        · rw [begins, List.cons_append, merged, stretch_cons cell more.2,
            List.cons_merge_cons_pos _ _ _ (by simpa using le)]
      · obtain ⟨filled, l, r, p, run, final, goesL, goesP, outside, merged⟩ :=
          @ih ((leftEnd + 1 - lpos).toNat + (rightend + 1 - (rpos + 1)).toNat) (by omega)
            (set tmp tmpPos (cell rpos)) _ _ _ (pending_takes_right pending more.2) rfl
        obtain ⟨begins, frame⟩ := stretch_filled (by omega) outside
        refine ⟨filled, l, r, p, ?_, final, by omega, by omega, ?_, ?_⟩
        · intro lo hi lo' hi' low high low' high'
          rw [merge_loop_step pending more low high low' high', if_neg le]
          exact run lo hi lo' hi' low high (by omega) high'
        · exact frame
        · rw [begins, List.cons_append, merged, stretch_cons cell more.1,
            List.cons_merge_cons_neg _ _ _ (by simpa using le)]
    · refine ⟨tmp, lpos, rpos, tmpPos, ?_, pending, le_refl _, le_refl _, fun _ _ => rfl, ?_⟩
      · intro lo hi lo' hi' _ _ _ _
        rw [mergeLoop, dif_neg more]
      · rw [stretch_none tmp (by omega), List.nil_append]
        by_cases empty : leftEnd < lpos
        · rw [stretch_none cell empty, List.nil_append, List.nil_merge]
        · rw [stretch_none cell (by omega : rightend < rpos), List.append_nil, List.merge_right]

/-- The three loops in front of the last one fill tmpArray with the merged runs. -/
theorem loops_fill {tmp : Int → α} {lpos rpos tmpPos : Int}
    (pending : Pending leftEnd rightend lpos rpos tmpPos) :
    ∃ filled, (∀ lo hi lo' hi', lo ≤ lpos → rightend < hi → lo' ≤ tmpPos → rightend < hi' →
        ((mergeLoop ⟨lo, hi, cell⟩ leftEnd rightend ⟨lo', hi', tmp⟩ lpos rpos tmpPos).bind
          fun (tmpArray, lpos, rpos, tmpPos) =>
            (copyLoop ⟨lo, hi, cell⟩ leftEnd tmpArray lpos tmpPos).bind fun (tmpArray, tmpPos) =>
              copyLoop ⟨lo, hi, cell⟩ rightend tmpArray rpos tmpPos) =
          some (⟨lo', hi', filled⟩, rightend + 1)) ∧
      stretch filled tmpPos rightend =
        (stretch cell lpos leftEnd).merge (stretch cell rpos rightend) := by
  obtain ⟨merged, l, r, p, first, final, goesL, goesP, _, content⟩ :=
    @merge_loop_runs α _ _ cell leftEnd rightend tmp lpos rpos tmpPos pending
  have positive := pending.positive
  obtain ⟨_, left, between, right, room, fits⟩ := final
  obtain ⟨joined, second, before, copiedL⟩ :=
    @copy_loop_runs α cell leftEnd merged l p (by omega) left (by omega) (by omega)
  obtain ⟨filled, third, before', copiedR⟩ :=
    @copy_loop_runs α cell rightend joined r (p + (leftEnd + 1 - l)) (by omega) right (by omega)
      (by omega)
  have stop : p + (leftEnd + 1 - l) + (rightend - r) = rightend := by omega
  have border : p + (leftEnd - l) = p + (leftEnd + 1 - l) - 1 := by omega
  rw [stop] at third before' copiedR
  rw [border] at second before copiedL
  refine ⟨filled, ?_, ?_⟩
  · intro lo hi lo' hi' low high low' high'
    rw [first lo hi lo' hi' low high low' high', Option.bind_some]
    dsimp only
    rw [second lo hi lo' hi' (by omega) (by omega) (by omega) (by omega), Option.bind_some]
    dsimp only
    rw [third lo hi lo' hi' (by omega) high (by omega) high', room]
  · have front : stretch filled tmpPos (p - 1) = stretch merged tmpPos (p - 1) := by
      apply stretch_congr
      intro i _ high
      rw [before' i (by omega), before i (by omega)]
    have middle : stretch filled p (p + (leftEnd + 1 - l) - 1) = stretch cell l leftEnd := by
      rw [← copiedL]
      apply stretch_congr
      intro i _ high
      exact before' i (by omega)
    rw [← stretch_append filled (by omega : tmpPos ≤ p) (by omega), front,
      ← stretch_append filled (by omega : p ≤ p + (leftEnd + 1 - l)) (by omega), middle, copiedR,
      content]

theorem merge_runs {tmp : Int → α} {lpos rpos : Int} (positive : 0 ≤ lpos) (left : lpos ≤ rpos)
    (right : rpos ≤ rightend + 1) (fits : rightend < INT_MAX) :
    ∃ merged buffered, (∀ lo hi lo' hi', lo ≤ lpos → rightend < hi → lo' ≤ lpos →
        rightend < hi' → merge ⟨lo, hi, cell⟩ ⟨lo', hi', tmp⟩ lpos rpos rightend =
          some (⟨lo, hi, merged⟩, ⟨lo', hi', buffered⟩)) ∧
      stretch merged lpos rightend =
        (stretch cell lpos (rpos - 1)).merge (stretch cell rpos rightend) ∧
      ∀ i, i < lpos ∨ rightend < i → merged i = cell i := by
  have pending : Pending (rpos - 1) rightend lpos rpos lpos := by
    constructor <;> omega
  obtain ⟨buffered, fill, content⟩ := @loops_fill α _ _ cell _ _ tmp _ _ _ pending
  obtain ⟨merged, back, inside, outside⟩ :=
    @back_loop_runs α cell buffered (rightend - lpos + 1).toNat rightend (by omega) (by omega)
  refine ⟨merged, buffered, ?_, ?_, ?_⟩
  · intro lo hi lo' hi' low high low' high'
    have loops := fill lo hi lo' hi' low high low' high'
    obtain ⟨⟨tmp1, l, r, p⟩, first, rest⟩ := Option.bind_eq_some_iff.mp loops
    obtain ⟨⟨tmp2, p2⟩, second, third⟩ := Option.bind_eq_some_iff.mp rest
    have last := back lo hi lo' hi' (by omega) high (by omega) high'
    dsimp only at second third
    rw [merge, int_index (by omega) (by omega), Option.bind_eq_bind,
      Option.bind_some, int_index (by omega) (by omega), Option.bind_some,
      int_index (by omega) (by omega), Option.bind_some]
    simp only [first, second, third, last, Option.bind_eq_bind, Option.bind_some]
  · rw [← content]
    exact stretch_congr fun i low high => inside i (by omega) high
  · intro i apart
    exact outside i (by omega)

end

theorem center_between {left right : Int} (positive : 0 ≤ left) (less : left < right) :
    left ≤ (left + right).tdiv 2 ∧ (left + right).tdiv 2 < right ∧
      2 * (left + right).tdiv 2 ≤ left + right := by
  rw [Int.tdiv_eq_ediv_of_nonneg (by omega)]
  omega

theorem m_sort_runs {cell tmp : Int → Int} {left right : Int} (positive : 0 ≤ left)
    (fits : (right - 1) + right ≤ INT_MAX) :
    ∃ sorted buffered, (∀ fuel > (right - left).toNat, ∀ lo hi lo' hi', lo ≤ left → right < hi →
        lo' ≤ left → right < hi' → mSort fuel ⟨lo, hi, cell⟩ ⟨lo', hi', tmp⟩ left right =
          some (⟨lo, hi, sorted⟩, ⟨lo', hi', buffered⟩)) ∧
      Sorts cell left right sorted := by
  have top : INT_MAX = 2147483647 := rfl
  induction distance : (right - left).toNat using Nat.strongRecOn
    generalizing cell tmp left right with
  | ind d ih =>
    by_cases less : left < right
    · obtain ⟨low, high, _⟩ := center_between positive less
      generalize half : (left + right).tdiv 2 = center at low high
      obtain ⟨one, tmp1, run1, first⟩ :=
        @ih (center - left).toNat (by omega) cell tmp left center positive (by omega) rfl
      obtain ⟨two, tmp2, run2, second⟩ :=
        @ih (right - (center + 1)).toNat (by omega) one tmp1 (center + 1) right (by omega) fits rfl
      obtain ⟨sorted, tmp3, run3, content, outside⟩ :=
        @merge_runs Int _ _ two right tmp2 left (center + 1) positive (by omega) (by omega)
          (by omega)
      rw [Int.add_sub_cancel] at content
      refine ⟨sorted, tmp3, ?_, ?_⟩
      · intro fuel enough lo hi lo' hi' low1 high1 low2 high2
        obtain ⟨fuel, rfl⟩ := Nat.exists_eq_succ_of_ne_zero (Nat.ne_zero_of_lt enough)
        have half1 := run1 fuel (by omega) lo hi lo' hi' low1 (by omega) low2 (by omega)
        have half2 := run2 fuel (by omega) lo hi lo' hi' (by omega) high1 (by omega) high2
        have both := run3 lo hi lo' hi' low1 high1 low2 high2
        rw [mSort, if_pos less, int_index (by omega) (by omega)]
        simp only [half, Option.bind_eq_bind, Option.bind_some, half1]
        rw [int_index (by omega) (by omega)]
        simp only [Option.bind_some, half2, both]
      · apply sorts_merged ⟨low, le_of_lt high⟩ first second _ outside
        rw [content]
        exact merge_is_stable Int.le_total
    · refine ⟨cell, tmp, ?_, sorts_short cell (by omega)⟩
      intro fuel enough lo hi lo' hi' _ _ _ _
      obtain ⟨fuel, rfl⟩ := Nat.exists_eq_succ_of_ne_zero (Nat.ne_zero_of_lt enough)
      rw [mSort, if_neg less]

/-- The last two or three elements are sorted by one call, and there left + right is too large. -/
theorem m_sort_overflows {left right : Int} (positive : 0 ≤ left) (less : left < right)
    (large : INT_MAX < (right - 1) + right) (fuel : Nat) (arr tmpArray : Arr Int) :
    mSort fuel arr tmpArray left right = none := by
  induction fuel generalizing arr tmpArray left with
  | zero => rfl
  | succ fuel ih =>
    rw [mSort, if_pos less]
    by_cases overflow : INT_MAX < left + right
    · rw [int_too_large overflow]
      rfl
    · rw [int_index (by omega) (by omega), Option.bind_eq_bind, Option.bind_some]
      obtain ⟨low, high, near⟩ := center_between positive less
      generalize (left + right).tdiv 2 = center at low high near ⊢
      dsimp only
      cases first : mSort fuel arr tmpArray left center with
      | none => rfl
      | some result =>
        obtain ⟨arr1, tmp1⟩ := result
        have more : center + 1 < right := by
          unfold INT_MAX at large overflow
          omega
        change (int (center + 1)).bind _ = none
        rw [int_index (by omega) (by omega), Option.bind_some,
          ih (by omega) more]
        rfl

theorem merge_sort_overflows {size : Int} (fits : size ≤ INT_MAX)
    (large : INT_MAX < (size - 2) + (size - 1))
    (memory : Int → Int) (fuel : Nat) (arr : Arr Int) :
    mergeSort (some memory) fuel arr size = none := by
  rw [mergeSort, int_index (by omega) (by omega), Option.bind_eq_bind,
    Option.bind_some, m_sort_overflows (le_refl _) (by omega) (by omega)]
  rfl

theorem merge_sort_runs (memory cell : Int → Int) {size : Int} (low : 0 ≤ size)
    (small : (size - 2) + (size - 1) ≤ INT_MAX) :
    ∃ sorted, (∀ fuel > size.toNat, ∀ lo hi, lo ≤ 0 → size ≤ hi →
        mergeSort (some memory) fuel ⟨lo, hi, cell⟩ size = some ⟨lo, hi, sorted⟩) ∧
      Sorts cell 0 (size - 1) sorted := by
  obtain ⟨sorted, buffered, run, sorts⟩ :=
    @m_sort_runs cell memory 0 (size - 1) (le_refl _) (by omega)
  refine ⟨sorted, ?_, sorts⟩
  have top : INT_MAX = 2147483647 := rfl
  intro fuel enough lo hi below above
  rw [mergeSort, int_index (by omega) (by omega),
    Option.bind_eq_bind, Option.bind_some,
    run fuel (by omega) lo hi 0 size below (by omega) (le_refl _) (by omega)]
  rfl

/-- The first size elements are put in order, and the cells around them are as they were. -/
def LeavesSorted (memory cell : Int → Int) (size : Int) : Prop :=
  ∃ sorted, (∃ enough, ∀ fuel ≥ enough, ∀ lo hi, lo ≤ 0 → size ≤ hi →
      mergeSort (some memory) fuel ⟨lo, hi, cell⟩ size = some ⟨lo, hi, sorted⟩) ∧
    (∀ i, i < 0 ∨ size ≤ i → sorted i = cell i) ∧
    (stretch sorted 0 (size - 1)).Pairwise (· ≤ ·) ∧
    (stretch sorted 0 (size - 1)).Perm (stretch cell 0 (size - 1))

/-- The runs lpos .. rpos - 1 and rpos .. rightend give way to their stable merge. -/
def MergesRuns {α : Type} [Preorder α] [DecidableLE α] (cell tmp : Int → α)
    (lpos rpos rightend : Int) : Prop :=
  ∃ merged buffered, (∀ lo hi lo' hi', lo ≤ lpos → rightend < hi → lo' ≤ lpos → rightend < hi' →
      merge ⟨lo, hi, cell⟩ ⟨lo', hi', tmp⟩ lpos rpos rightend =
        some (⟨lo, hi, merged⟩, ⟨lo', hi', buffered⟩)) ∧
    StableMerge (stretch cell lpos (rpos - 1)) (stretch cell rpos rightend)
      (stretch merged lpos rightend) ∧
    ∀ i, i < lpos ∨ rightend < i → merged i = cell i

/-- An array is sorted if the sum of its last two indices is an int; else left + right overflows
    before all is sorted. Each merge is right, for elements of any type. -/
theorem merge_sort_iff (memory cell : Int → Int) {size : Int} (low : 0 ≤ size)
    (fits : size ≤ INT_MAX) :
    (LeavesSorted memory cell size ↔ (size - 2) + (size - 1) ≤ INT_MAX) ∧
      ∀ {α : Type} [Preorder α] [DecidableLE α], (∀ a b : α, a ≤ b ∨ b ≤ a) →
        ∀ (arr tmp : Int → α) (lpos rpos rightend : Int), 0 ≤ lpos → lpos ≤ rpos →
          rpos ≤ rightend + 1 → rightend < INT_MAX →
          (stretch arr lpos (rpos - 1)).Pairwise (· ≤ ·) →
          (stretch arr rpos rightend).Pairwise (· ≤ ·) → MergesRuns arr tmp lpos rpos rightend := by
  constructor
  · constructor
    · rintro ⟨sorted, ⟨enough, run⟩, _⟩
      by_contra large
      have result := run enough (le_refl _) 0 size (le_refl _) (le_refl _)
      rw [merge_sort_overflows fits (by omega)] at result
      cases result
    · intro small
      obtain ⟨sorted, run, sorts⟩ := merge_sort_runs memory cell low small
      refine ⟨sorted, ⟨size.toNat + 1, run⟩, ?_, sorts_stretch sorts⟩
      intro i apart
      exact sorts.outside i (by omega)
  · intro α _ _ total arr tmp lpos rpos rightend positive left right room first second
    obtain ⟨merged, buffered, run, content, outside⟩ :=
      @merge_runs α _ _ arr rightend tmp lpos rpos positive left right room
    refine ⟨merged, buffered, run, ?_, outside⟩
    rw [content]
    exact merge_is_stable total first second

structure Placed where
  value : Int
  place : Int

instance : Preorder Placed where
  le a b := a.value ≤ b.value
  le_refl a := Int.le_refl a.value
  le_trans _ _ _ := Int.le_trans

instance : DecidableLE Placed := fun a b => Int.decLe a.value b.value

theorem four_ints_sorted :
    (LeavesSorted (fun _ => 0) (fun i => -i) 4 ↔ (4 - 2 : Int) + (4 - 1) ≤ INT_MAX) ∧
      MergesRuns (fun i => Placed.mk (i % 2) i) (fun _ => ⟨0, 0⟩) 0 2 3 :=
  ⟨(merge_sort_iff (fun _ => 0) (fun i => -i) (by decide) (by decide)).1,
    (merge_sort_iff (fun _ => 0) (fun i => -i) (by decide : (0 : Int) ≤ 4) (by decide)).2
      (fun a b => Int.le_total a.value b.value) (fun i => Placed.mk (i % 2) i) (fun _ => ⟨0, 0⟩)
      0 2 3 (by decide) (by decide) (by decide) (by decide) (by decide) (by decide)⟩

/-- One element more than the last size that works. -/
theorem large_array_not_sorted : ¬LeavesSorted (fun _ => 0) (fun _ => 0) (1073741826) := by
  rintro ⟨sorted, ⟨enough, run⟩, _⟩
  have result := run enough (le_refl _) 0 (1073741826) (le_refl _) (le_refl _)
  rw [merge_sort_overflows (by decide) (by decide)] at result
  cases result

end UC.MergeSort
