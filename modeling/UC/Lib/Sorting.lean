import UC.Lib.Cells

/- Merging lists that are in order, and sorting a range of an array in place. -/
namespace UC.Sorting
open UC.Cells

section
variable {α : Type*} [Preorder α] {xs ys zs : List α}

/-- All elements in order; those that are equal in the order stand as they stood in xs, and
    behind them as they stood in ys. -/
structure StableMerge [DecidableLE α] (xs ys zs : List α) : Prop where
  ordered : zs.Pairwise (· ≤ ·)
  kept : zs.Perm (xs ++ ys)
  stable : ∀ v, zs.filter (fun w => w ≤ v ∧ v ≤ w) =
    xs.filter (fun w => w ≤ v ∧ v ≤ w) ++ ys.filter (fun w => w ≤ v ∧ v ≤ w)

/-- An element of the second list goes first only if it is less than all of the first. -/
theorem merge_stable_filter [DecidableLE α] (ordered : xs.Pairwise (· ≤ ·)) (v : α) :
    (xs.merge ys).filter (fun w => w ≤ v ∧ v ≤ w) =
      xs.filter (fun w => w ≤ v ∧ v ≤ w) ++ ys.filter (fun w => w ≤ v ∧ v ≤ w) := by
  induction xs generalizing ys with
  | nil => simp
  | cons x xs ihX =>
    have first := List.pairwise_cons.mp ordered
    induction ys with
    | nil => simp
    | cons y ys ihY =>
      by_cases le : x ≤ y
      · rw [List.cons_merge_cons_pos _ _ _ (by simpa using le), List.filter_cons, ihX first.2]
        conv_rhs => rw [List.filter_cons]
        split
        · rfl
        · rfl
      · rw [List.cons_merge_cons_neg _ _ _ (by simpa using le), List.filter_cons, ihY]
        by_cases here : y ≤ v ∧ v ≤ y
        · have empty : (x :: xs).filter (fun w => w ≤ v ∧ v ≤ w) = [] := by
            rw [List.filter_eq_nil_iff]
            intro w mem
            have above : x ≤ w := by
              rcases List.mem_cons.mp mem with same | later
              · rw [same]
              · exact first.1 w later
            simp only [decide_eq_true_eq, not_and]
            intro small _
            exact le (above.trans (small.trans here.2))
          rw [empty, List.nil_append, List.nil_append, List.filter_cons]
        · have skip : (y :: ys).filter (fun w => w ≤ v ∧ v ≤ w) =
              ys.filter (fun w => w ≤ v ∧ v ≤ w) :=
            List.filter_cons_of_neg (by simpa using here)
          rw [if_neg (by simpa using here), skip]

theorem merge_is_stable [DecidableLE α] (total : ∀ a b : α, a ≤ b ∨ b ≤ a)
    (first : xs.Pairwise (· ≤ ·)) (second : ys.Pairwise (· ≤ ·)) :
    StableMerge xs ys (xs.merge ys) := by
  constructor
  · have ordered := @List.pairwise_merge _ (fun a b : α => decide (a ≤ b))
      (by simpa using fun _ _ _ => le_trans) (by simpa using total) xs ys
      (by simpa using first) (by simpa using second)
    simpa using ordered
  · exact List.merge_perm_append _
  · exact merge_stable_filter first

theorem parts_join {β : Type*} (number : β → Nat) (n : Nat) (items : List β) :
    ((List.range n).flatMap fun k => items.filter (number · = k)).Perm
      (items.filter (number · < n)) := by
  induction n with
  | zero => simp
  | succ n ih =>
    have split := List.filter_append_perm (number · < n) (items.filter (number · < n + 1))
    have low : (items.filter (number · < n + 1)).filter (number · < n) =
        items.filter (number · < n) := by
      rw [List.filter_filter]
      congr 1
      funext item
      by_cases less : number item < n
      · simp [less, Nat.lt_succ_of_lt less]
      · simp [less]
    have last : (items.filter (number · < n + 1)).filter (fun item => !decide (number item < n)) =
        items.filter (number · = n) := by
      rw [List.filter_filter]
      congr 1
      funext item
      rcases Nat.lt_trichotomy (number item) n with less | same | more
      · simp [less, Nat.ne_of_lt less]
      · simp [same]
      · have ne : number item ≠ n := by omega
        have above : ¬ number item < n + 1 := by omega
        simp [ne, above]
    rw [low, last] at split
    rw [List.range_succ, List.flatMap_append, List.flatMap_singleton]
    exact (ih.append_right _).trans split

theorem parts_ordered (number : α → Nat) (follows : ∀ x y, number x < number y → x ≤ y)
    {n : Nat} {part : Nat → List α} (ordered : ∀ k < n, (part k).Pairwise (· ≤ ·))
    (numbered : ∀ k < n, ∀ x ∈ part k, number x = k) :
    ((List.range n).flatMap part).Pairwise (· ≤ ·) := by
  rw [List.pairwise_flatMap]
  constructor
  · intro k mem
    exact ordered k (List.mem_range.mp mem)
  · apply List.pairwise_lt_range.imp_of_mem
    intro i j memI memJ less x memX y memY
    apply follows
    rw [numbered i (List.mem_range.mp memI) x memX, numbered j (List.mem_range.mp memJ) y memY]
    exact less

end

variable {α : Type*} [LinearOrder α] {cell sorted : Int → α} {left right : Int}

/-- The cells left .. right are put in order, and no other cell is changed. -/
structure Sorts (cell : Int → α) (left right : Int) (sorted : Int → α) : Prop where
  outside : ∀ i, i < left ∨ right < i → sorted i = cell i
  kept : bag sorted (indices left right) = bag cell (indices left right)
  ordered : ∀ x y, left ≤ x → x ≤ y → y ≤ right → sorted x ≤ sorted y

theorem sorts_short (cell : Int → α) (short : right ≤ left) : Sorts cell left right cell := by
  constructor
  · exact fun _ _ => rfl
  · rfl
  · intro x y low le high
    have same : x = y := by omega
    rw [same]

theorem sorts_rearranged {start : Int → α} (sorts : Sorts cell left right sorted)
    (kept : bag cell (indices left right) = bag start (indices left right))
    (outside : ∀ i, i < left ∨ right < i → cell i = start i) : Sorts start left right sorted := by
  constructor
  · exact fun i apart => (sorts.outside i apart).trans (outside i apart)
  · exact sorts.kept.trans kept
  · exact sorts.ordered

theorem sorts_bound {P : α → Prop} (sorts : Sorts cell left right sorted)
    (all : ∀ i, left ≤ i → i ≤ right → P (cell i)) {i : Int} (low : left ≤ i) (high : i ≤ right) :
    P (sorted i) := by
  have mem : sorted i ∈ bag sorted (indices left right) :=
    mem_bag.mpr ⟨i, mem_indices.mpr ⟨low, high⟩, rfl⟩
  rw [sorts.kept] at mem
  obtain ⟨j, inside, same⟩ := mem_bag.mp mem
  rw [mem_indices] at inside
  rw [← same]
  exact all j inside.1 inside.2

/-- Sorting behind the pivot and then in front of it sorts the whole. -/
theorem sorts_around_pivot {p : Int} {upper : Int → α} (inside : left ≤ p ∧ p ≤ right)
    (small : ∀ i, left ≤ i → i < p → cell i ≤ cell p)
    (large : ∀ i, p < i → i ≤ right → cell p ≤ cell i)
    (first : Sorts cell (p + 1) right upper) (second : Sorts upper left (p - 1) sorted) :
    Sorts cell left right sorted := by
  have pivot : sorted p = cell p :=
    (second.outside p (by omega)).trans (first.outside p (by omega))
  have below : ∀ x, left ≤ x → x < p → sorted x ≤ cell p := by
    intro x low less
    apply sorts_bound second (P := fun v => v ≤ cell p) _ low (by omega)
    intro i low' high'
    rw [first.outside i (by omega)]
    exact small i low' (by omega)
  have above : ∀ y, p < y → y ≤ right → cell p ≤ sorted y := by
    intro y less high
    rw [second.outside y (by omega)]
    apply sorts_bound first (P := fun v => cell p ≤ v) _ (by omega) high
    intro i low' high'
    exact large i (by omega) high'
  constructor
  · intro i apart
    rw [second.outside i (by omega), first.outside i (by omega)]
  · have lower : bag sorted (indices left right) = bag upper (indices left right) := by
      apply bag_frame (indices_subset (le_refl _) (by omega)) second.kept
      intro i _ apart
      rw [mem_indices] at apart
      exact second.outside i (by omega)
    have higher : bag upper (indices left right) = bag cell (indices left right) := by
      apply bag_frame (indices_subset (by omega) (le_refl _)) first.kept
      intro i _ apart
      rw [mem_indices] at apart
      exact first.outside i (by omega)
    exact lower.trans higher
  · intro x y low le high
    rcases lt_trichotomy x p with before | here | behind
    · rcases lt_trichotomy y p with before' | here' | behind'
      · exact second.ordered x y low le (by omega)
      · rw [here', pivot]
        exact below x low before
      · exact (below x low before).trans (above y behind' high)
    · rw [here, pivot]
      rcases Int.lt_or_eq_of_le (here ▸ le) with less | same
      · exact above y less high
      · rw [← same, pivot]
    · rw [second.outside x (by omega), second.outside y (by omega)]
      exact first.ordered x y (by omega) le high

theorem stretch_ordered_iff : (stretch cell left right).Pairwise (· ≤ ·) ↔
    ∀ x y, left ≤ x → x ≤ y → y ≤ right → cell x ≤ cell y := by
  constructor
  · intro ordered x y low le high
    rcases Int.lt_or_eq_of_le le with less | same
    · rw [stretch, List.pairwise_map, List.pairwise_iff_getElem] at ordered
      have pair := ordered (x - left).toNat (y - left).toNat (by rw [List.length_range]; omega)
        (by rw [List.length_range]; omega) (by omega)
      have atX : left + ((x - left).toNat : Int) = x := by omega
      have atY : left + ((y - left).toNat : Int) = y := by omega
      rwa [List.getElem_range, List.getElem_range, atX, atY] at pair
    · rw [same]
  · intro ordered
    rw [stretch, List.pairwise_map]
    apply List.pairwise_lt_range.imp_of_mem
    intro a b memA memB less
    rw [List.mem_range] at memA memB
    exact ordered _ _ (by omega) (by omega) (by omega)

theorem sorts_stretch (sorts : Sorts cell left right sorted) :
    (stretch sorted left right).Pairwise (· ≤ ·) ∧
      (stretch sorted left right).Perm (stretch cell left right) := by
  constructor
  · exact stretch_ordered_iff.mpr sorts.ordered
  · apply Multiset.coe_eq_coe.mp
    rw [stretch_bag, stretch_bag, sorts.kept]

theorem sorts_unique {other : Int → α} (first : Sorts cell left right sorted)
    (second : Sorts cell left right other) : sorted = other := by
  have one := sorts_stretch first
  have two := sorts_stretch second
  have same : stretch sorted left right = stretch other left right :=
    (one.2.trans two.2.symm).eq_of_pairwise (fun _ _ _ _ => le_antisymm) one.1 two.1
  funext i
  by_cases inside : left ≤ i ∧ i ≤ right
  · exact cells_of_stretch same inside.1 inside.2
  · rw [first.outside i (by omega), second.outside i (by omega)]

/-- Sorting two halves one after the other and merging them sorts the whole. -/
theorem sorts_merged {mid : Int} {one two : Int → α} (inside : left ≤ mid ∧ mid ≤ right)
    (first : Sorts cell left mid one) (second : Sorts one (mid + 1) right two)
    (merged : (stretch two left mid).Pairwise (· ≤ ·) →
      (stretch two (mid + 1) right).Pairwise (· ≤ ·) →
      StableMerge (stretch two left mid) (stretch two (mid + 1) right) (stretch sorted left right))
    (outside : ∀ i, i < left ∨ right < i → sorted i = two i) : Sorts cell left right sorted := by
  have still : stretch two left mid = stretch one left mid :=
    stretch_congr fun i _ high => second.outside i (by omega)
  have merge := merged (by rw [still]; exact (sorts_stretch first).1) (sorts_stretch second).1
  constructor
  · intro i apart
    rw [outside i apart, second.outside i (by omega), first.outside i (by omega)]
  · have joined := merge.kept
    have whole := @stretch_append _ two left (mid + 1) right (by omega) (by omega)
    rw [Int.add_sub_cancel] at whole
    rw [whole] at joined
    have final : bag sorted (indices left right) = bag two (indices left right) := by
      rw [← stretch_bag, ← stretch_bag]
      exact Multiset.coe_eq_coe.mpr joined
    have upper : bag two (indices left right) = bag one (indices left right) := by
      apply bag_frame (indices_subset (by omega) (le_refl _)) second.kept
      intro i _ apart
      rw [mem_indices] at apart
      exact second.outside i (by omega)
    have lower : bag one (indices left right) = bag cell (indices left right) := by
      apply bag_frame (indices_subset (le_refl _) (by omega)) first.kept
      intro i _ apart
      rw [mem_indices] at apart
      exact first.outside i (by omega)
    rw [final, upper, lower]
  · exact stretch_ordered_iff.mp merge.ordered

end UC.Sorting
