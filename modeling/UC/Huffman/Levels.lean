import UC.Huffman.Ints

/- How deep the tree of CreateHuffman gets and what it costs, from the weights alone; with more
   than ten levels HuffManCoding leaves its array, with a cost that is no int WeightPathLength
   overflows. -/
namespace UC.Huffman
open BTreeNode UC.Cells UC.Ints UC.WeightedTree

/-- What stands at a position: a weight with the levels that were joined into it, or nothing. -/
abbrev Slot := Option (Int × Nat)

/-- The first position of a least weight. -/
def leastAt : List Slot → Option (Nat × Int × Nat)
  | [] => none
  | slot :: rest =>
    match slot, leastAt rest with
    | none, found => found.map fun least => (least.1 + 1, least.2)
    | some here, none => some (0, here)
    | some here, some least =>
      if least.2.1 < here.1 then some (least.1 + 1, least.2) else some (0, here)

/-- The first least weight and the first least of the others are joined in place of the one. -/
def joinLeast (slots : List Slot) : Option (List Slot × Int × Nat) := do
  let (k1, weight1, level1) ← leastAt slots
  let (k2, weight2, level2) ← leastAt (slots.set k1 none)
  let joined := (weight1 + weight2, max level1 level2 + 1)
  some ((slots.set k1 (some joined)).set k2 none, joined)

/-- The levels of the last join. -/
def joinTimes : Nat → List Slot → Nat → Nat
  | 0, _, level => level
  | rounds + 1, slots, level =>
    match joinLeast slots with
    | some (slots, joined) => joinTimes rounds slots joined.2
    | none => level

/-- The sum of all joins. -/
def joinCosts : Nat → List Slot → Int
  | 0, _ => 0
  | rounds + 1, slots =>
    match joinLeast slots with
    | some (slots, joined) => joined.1 + joinCosts rounds slots
    | none => 0

/-- How many levels of joins it takes until one weight is left. -/
def joinedLevels (a : List Int) : Nat :=
  joinTimes (a.length - 1) (a.map fun weight => some (weight, 0)) 0

/-- What the joins add up to until one weight is left. -/
def joinedCost (a : List Int) : Int :=
  joinCosts (a.length - 1) (a.map fun weight => some (weight, 0))

theorem least_at_inside {slots : List Slot} {least : Nat × Int × Nat}
    (found : leastAt slots = some least) : slots[least.1]? = some (some least.2) := by
  induction slots generalizing least with
  | nil => simp [leastAt] at found
  | cons slot rest ih =>
    cases slot with
    | none =>
      simp only [leastAt, Option.map_eq_some_iff] at found
      obtain ⟨later, found', same⟩ := found
      rw [← same, List.getElem?_cons_succ]
      exact ih found'
    | some first =>
      cases behind : leastAt rest with
      | none =>
        simp only [leastAt, behind, Option.some.injEq] at found
        rw [← found]
        rfl
      | some later =>
        simp only [leastAt, behind] at found
        split at found
        · rw [Option.some.injEq] at found
          rw [← found, List.getElem?_cons_succ]
          exact ih behind
        · rw [Option.some.injEq] at found
          rw [← found]
          rfl

theorem least_at_found {slots : List Slot} {k : Nat} {here : Int × Nat}
    (inside : slots[k]? = some (some here))
    (before : ∀ x < k, ∀ other : Int × Nat, slots[x]? = some (some other) → here.1 < other.1)
    (least : ∀ (x : Nat) (other : Int × Nat), slots[x]? = some (some other) →
      here.1 ≤ other.1) :
    leastAt slots = some (k, here) := by
  induction slots generalizing k with
  | nil => simp at inside
  | cons slot rest ih =>
    cases k with
    | zero =>
      rw [List.getElem?_cons_zero, Option.some.injEq] at inside
      subst inside
      cases found : leastAt rest with
      | none => simp only [leastAt, found]
      | some later =>
        have above := least (later.1 + 1) later.2 (least_at_inside found)
        simp only [leastAt, found]
        rw [if_neg (not_lt.mpr above)]
    | succ k =>
      have behind := ih inside
        (fun x less other at_x => before (x + 1) (by omega) other at_x)
        (fun x other at_x => least (x + 1) other at_x)
      cases slot with
      | none =>
        simp only [leastAt, behind]
        rfl
      | some first =>
        have less := before 0 (by omega) first rfl
        simp only [leastAt, behind]
        rw [if_pos less]

/-- The positions that the second loop ends with are the first ones with their weights. -/
structure Leftmost (b : Forest) (k1 k2 : Nat) : Prop where
  before₁ : ∀ x < k1, (b.at x).isNull = false → (b.at k1).data < (b.at x).data
  before₂ : ∀ x < k2, (b.at x).isNull = false → x ≠ k1 → (b.at k2).data < (b.at x).data

theorem leftmost_step {b : Forest} {j k1 k2 : Nat} (inv : TwoLeast b j k1 k2)
    (left : Leftmost b k1 k2) : Leftmost b (smallestTwo b [j] k1 k2).1
      (smallestTwo b [j] k1 k2).2 := by
  cases here : (b.at j).isNull with
  | true => simpa [smallestTwo, here] using left
  | false =>
    by_cases lt₁ : (b.at j).data < (b.at k1).data
    · have scan : smallestTwo b [j] k1 k2 = (j, k1) := by simp [smallestTwo, here, lt₁]
      rw [scan]
      dsimp only
      constructor
      · intro x less present
        by_cases same : x = k1
        · rw [same]
          exact lt₁
        · have le := inv.least x less present same
          have ordered := inv.ordered
          omega
      · intro x less present _
        exact left.before₁ x less present
    · by_cases lt₂ : (b.at j).data < (b.at k2).data
      · have scan : smallestTwo b [j] k1 k2 = (k1, j) := by simp [smallestTwo, here, lt₁, lt₂]
        rw [scan]
        dsimp only
        constructor
        · exact left.before₁
        · intro x less present ne
          have le := inv.least x less present ne
          omega
      · simpa [smallestTwo, here, lt₁, lt₂] using left

theorem smallest_two_cons (b : Forest) (j : Nat) (js : List Nat) (k1 k2 : Nat) :
    smallestTwo b (j :: js) k1 k2 =
      smallestTwo b js (smallestTwo b [j] k1 k2).1 (smallestTwo b [j] k1 k2).2 := by
  simp only [smallestTwo]
  split
  · split
    · rfl
    · split
      · rfl
      · rfl
  · rfl

theorem leftmost_run {b : Forest} (m : Nat) {j k1 k2 : Nat} (inv : TwoLeast b j k1 k2)
    (left : Leftmost b k1 k2) : Leftmost b (smallestTwo b (List.range' j m) k1 k2).1
      (smallestTwo b (List.range' j m) k1 k2).2 := by
  induction m generalizing j k1 k2 with
  | zero => exact left
  | succ m ih =>
    rw [List.range'_succ, smallest_two_cons]
    exact ih (two_least_run 1 inv) (leftmost_step inv left)

theorem leftmost_start {b : Forest} {k1 k2 : Nat} (second : (b.at k2).isNull = false)
    (before : k1 < k2) (gap : ∀ x < k2, x ≠ k1 → (b.at x).isNull = true) :
    Leftmost b (smallestTwo b [k2] k1 k2).1 (smallestTwo b [k2] k1 k2).2 := by
  have only : ∀ x < k2, (b.at x).isNull = false → x = k1 := by
    intro x less present
    by_contra other
    rw [gap x less other] at present
    contradiction
  by_cases lt : (b.at k2).data < (b.at k1).data
  · have scan : smallestTwo b [k2] k1 k2 = (k2, k1) := by simp [smallestTwo, second, lt]
    rw [scan]
    constructor
    · intro x less present
      rw [only x less present]
      exact lt
    · intro x less present _
      have here := only x (by omega) present
      omega
  · have scan : smallestTwo b [k2] k1 k2 = (k1, k2) := by simp [smallestTwo, second, lt]
    rw [scan]
    constructor
    · intro x less present
      have here := only x (by omega) present
      omega
    · intro x less present ne
      exact absurd (only x less present) ne

theorem round_choice {b : Forest} (two : 2 ≤ (roots b).card) :
    ∃ k1 k2, joinRound b = some ((b.set k1 (.node ((b.at k1).data + (b.at k2).data) (b.at k1)
        (b.at k2))).set k2 .null, .node ((b.at k1).data + (b.at k2).data) (b.at k1) (b.at k2)) ∧
      TwoLeast b b.length k1 k2 ∧ Leftmost b k1 k2 := by
  obtain ⟨k1, k2, found, first, second, before, inside, gap⟩ := first_two_exists two
  obtain ⟨s1, s2, started, eq⟩ := two_least_start first second before gap []
  have ended : smallestTwo b [k2] k1 k2 = (s1, s2) := eq
  have left := leftmost_start second before gap
  rw [ended] at left
  have done := two_least_run (b.length - (k2 + 1)) started
  have left' := leftmost_run (b.length - (k2 + 1)) started left
  have length : k2 + 1 + (b.length - (k2 + 1)) = b.length := by omega
  have size : b.length - k2 = b.length - (k2 + 1) + 1 := by omega
  rw [length] at done
  refine ⟨_, _, ?_, done, left'⟩
  simp only [joinRound, found]
  rw [size, List.range'_succ, smallest_two_cons, ended]

def slot (t : BTreeNode) : Slot := if t.isNull then none else some (t.data, levels t)

theorem slot_at {b : Forest} {x : Nat} {other : Int × Nat} :
    (b.map slot)[x]? = some (some other) ↔
      x < b.length ∧ (b.at x).isNull = false ∧ ((b.at x).data, levels (b.at x)) = other := by
  by_cases inside : x < b.length
  · have here : b.at x = b[x] := by simp [Forest.at, inside]
    rw [List.getElem?_map, List.getElem?_eq_getElem inside, ← here, Option.map_some,
      Option.some.injEq, slot]
    cases null : (b.at x).isNull with
    | true => simp
    | false => simp [inside]
  · rw [List.getElem?_map, List.getElem?_eq_none (by omega)]
    simp [inside]

theorem levels_join {left right : BTreeNode} (data : Int) (present : left.isNull = false) :
    levels (.node data left right) = max (levels left) (levels right) + 1 := by
  rw [levels]
  intro null
  rw [null] at present
  contradiction

theorem slot_at_others {b : Forest} {k1 x : Nat} {other : Int × Nat} (below : k1 < b.length)
    (at_x : ((b.set k1 .null).map slot)[x]? = some (some other)) :
    x < b.length ∧ x ≠ k1 ∧ (b.at x).isNull = false ∧ (b.at x).data = other.1 := by
  obtain ⟨inside, present, same⟩ := slot_at.mp at_x
  rw [List.length_set] at inside
  rw [at_set b below] at present same
  by_cases here : x = k1
  · rw [if_pos here] at present
    contradiction
  · rw [if_neg here] at present same
    exact ⟨inside, here, present, congrArg Prod.fst same⟩

theorem least_at_first {b : Forest} {k1 k2 : Nat} (inv : TwoLeast b b.length k1 k2)
    (left : Leftmost b k1 k2) :
    leastAt (b.map slot) = some (k1, (b.at k1).data, levels (b.at k1)) := by
  apply least_at_found (slot_at.mpr ⟨inv.below₁, inv.first, rfl⟩)
  · intro x less other at_x
    obtain ⟨_, present, same⟩ := slot_at.mp at_x
    rw [← same]
    exact left.before₁ x less present
  · intro x other at_x
    obtain ⟨inside, present, same⟩ := slot_at.mp at_x
    rw [← same]
    by_cases here : x = k1
    · rw [here]
    · exact inv.ordered.trans (inv.least x inside present here)

theorem least_at_second {b : Forest} {k1 k2 : Nat} (inv : TwoLeast b b.length k1 k2)
    (left : Leftmost b k1 k2) :
    leastAt ((b.set k1 .null).map slot) = some (k2, (b.at k2).data, levels (b.at k2)) := by
  have kept : Forest.at (b.set k1 .null) k2 = b.at k2 := by
    rw [at_set b inv.below₁, if_neg (Ne.symm inv.distinct)]
  apply least_at_found
  · apply slot_at.mpr
    rw [List.length_set, kept]
    exact ⟨inv.below₂, inv.second, rfl⟩
  · intro x less other at_x
    obtain ⟨_, ne, present, same⟩ := slot_at_others inv.below₁ at_x
    rw [← same]
    exact left.before₂ x less present ne
  · intro x other at_x
    obtain ⟨inside, ne, present, same⟩ := slot_at_others inv.below₁ at_x
    rw [← same]
    exact inv.least x inside present ne

theorem round_joins {b : Forest} (two : 2 ≤ (roots b).card) :
    ∃ b' q, joinRound b = some (b', q) ∧
      joinLeast (b.map slot) = some (b'.map slot, q.data, levels q) := by
  obtain ⟨k1, k2, run, inv, left⟩ := round_choice two
  have taken : (b.map slot).set k1 none = (b.set k1 .null).map slot := by
    rw [List.map_set]
    rfl
  have joined : slot (.node ((b.at k1).data + (b.at k2).data) (b.at k1) (b.at k2)) =
      some ((b.at k1).data + (b.at k2).data, max (levels (b.at k1)) (levels (b.at k2)) + 1) := by
    rw [slot, levels_join _ inv.first]
    rfl
  refine ⟨_, _, run, ?_⟩
  rw [joinLeast, least_at_first inv left, Option.bind_eq_bind, Option.bind_some]
  dsimp only
  rw [taken, least_at_second inv left, Option.bind_some, List.map_set, List.map_set, joined,
    levels_join _ inv.first]
  rfl

theorem rounds_join (rounds : Nat) {b : Forest} {q : BTreeNode}
    (count : (roots b).card = rounds + 1) :
    ∃ t, joinRounds rounds b (some q) = some t ∧
      levels t = joinTimes rounds (b.map slot) (levels q) := by
  induction rounds generalizing b q with
  | zero => exact ⟨q, rfl, rfl⟩
  | succ rounds ih =>
    obtain ⟨b', q', run, joined⟩ := round_joins (b := b) (by omega)
    obtain ⟨b'', l, r, G, run', before, after, _⟩ := join_round_spec (b := b) (by omega)
    rw [run, Option.some.injEq, Prod.mk.injEq] at run'
    have fewer : (roots b').card = rounds + 1 := by
      rw [before, Multiset.card_cons, Multiset.card_cons] at count
      rw [run'.1, after, Multiset.card_cons]
      omega
    obtain ⟨t, made, same⟩ := @ih b' q' fewer
    refine ⟨t, ?_, ?_⟩
    · rw [joinRounds, run]
      exact made
    · rw [joinTimes, joined]
      exact same

theorem create_levels {a : List Int} (two : 2 ≤ a.length) :
    ∃ t, createHuffman a = some t ∧ levels t = joinedLevels a := by
  have count : (roots (a.map newLeaf)).card = a.length - 1 + 1 := by
    rw [roots_new_leaves, Multiset.card_map, Multiset.coe_card]
    omega
  have slots : (a.map newLeaf).map slot = a.map fun weight => some (weight, 0) := by
    rw [List.map_map]
    rfl
  obtain ⟨t, made, same⟩ := rounds_join (a.length - 1) (q := newLeaf 0) count
  rw [slots] at same
  refine ⟨t, ?_, same⟩
  obtain ⟨rounds, more⟩ := Nat.exists_eq_succ_of_ne_zero (n := a.length - 1) (by omega)
  rw [more] at made
  rw [createHuffman, more, ← made]
  rfl

theorem path_length_deeper {t : BTreeNode} (full : Full t) (sums : Sums t) :
    weightPathLength t 1 = weightPathLength t 0 + t.data := by
  have here := full_path_length t full 0
  have below := full_path_length t full 1
  rw [sums_weight t full sums]
  exact below.trans ((wpl_succ (shape t) 0).trans (congrArg (· + weight (shape t)) here.symm))

theorem data_node (d : Int) (l r : BTreeNode) : (BTreeNode.node d l r).data = d := rfl

def forestCost (b : Forest) : Int := ((roots b).map fun t => weightPathLength t 0).sum

theorem round_costs {b b' : Forest} {a : Multiset Int} {l r : BTreeNode} {G : Multiset BTreeNode}
    (inv : ForestInv b a) (before : roots b = l ::ₘ r ::ₘ G)
    (after : roots b' = .node (l.data + r.data) l r ::ₘ G) :
    forestCost b' = forestCost b + (l.data + r.data) := by
  have full := inv.full
  have sums := inv.sums
  simp only [before, Multiset.mem_cons, forall_eq_or_imp] at full sums
  have left := path_length_deeper full.1 sums.1
  have right := path_length_deeper full.2.1 sums.2.1
  have joined : weightPathLength (.node (l.data + r.data) l r) 0 =
      weightPathLength l 1 + weightPathLength r 1 := by
    rw [weightPathLength]
    · rfl
    · exact join_inner full.1
  unfold forestCost
  rw [before, after, Multiset.map_cons, Multiset.map_cons, Multiset.map_cons, Multiset.sum_cons,
    Multiset.sum_cons, Multiset.sum_cons, joined, left, right]
  ring

/-- The cost of the joins is what they add to the cost of the trees. -/
theorem rounds_cost (rounds : Nat) {b : Forest} {a : Multiset Int} {q : Option BTreeNode}
    {t : BTreeNode} (inv : ForestInv b a) (count : (roots b).card = rounds + 1)
    (last : rounds = 0 → ∃ t, q = some t ∧ roots b = {t}) (made : joinRounds rounds b q = some t) :
    forestCost b + joinCosts rounds (b.map slot) = weightPathLength t 0 := by
  induction rounds generalizing b q with
  | zero =>
    obtain ⟨t', rfl, one⟩ := last rfl
    cases made
    rw [forestCost, one, Multiset.map_singleton, Multiset.sum_singleton, joinCosts, add_zero]
  | succ rounds ih =>
    obtain ⟨b', q', joined, costs⟩ := round_joins (b := b) (by omega)
    obtain ⟨b'', l, r, G, joined', before, after, ordered, least⟩ :=
      join_round_spec (b := b) (by omega)
    rw [joined, Option.some.injEq, Prod.mk.injEq] at joined'
    obtain ⟨rfl, rfl⟩ := joined'
    rw [before, Multiset.card_cons, Multiset.card_cons] at count
    rw [joinRounds, joined] at made
    have more := ih (forest_inv_join inv before after ordered least)
      (by rw [after, Multiset.card_cons]; omega) (fun done => ?_) made
    · rw [joinCosts, costs, ← more, round_costs inv before after]
      simp only [data_node]
      ring
    · have empty : G = 0 := Multiset.card_eq_zero.mp (by omega)
      exact ⟨_, rfl, by rw [after, empty, Multiset.cons_zero]⟩

/-- The sums of CreateHuffman are no larger than all joins together. -/
theorem rounds_fit (rounds : Nat) {b : Forest} (q : Option BTreeNode)
    (weights : ∀ t ∈ roots b, 0 ≤ t.data) (count : (roots b).card = rounds + 1) :
    0 ≤ joinCosts rounds (b.map slot) ∧ (joinCosts rounds (b.map slot) ≤ INT_MAX →
      joinRounds32 rounds b q = joinRounds rounds b q) := by
  induction rounds generalizing b q with
  | zero => exact ⟨le_refl _, fun _ => rfl⟩
  | succ rounds ih =>
    obtain ⟨b', q', joined, costs⟩ := round_joins (b := b) (by omega)
    obtain ⟨b'', l, r, G, joined', before, after, _⟩ := join_round_spec (b := b) (by omega)
    rw [joined, Option.some.injEq, Prod.mk.injEq] at joined'
    obtain ⟨rfl, rfl⟩ := joined'
    rw [before, Multiset.card_cons, Multiset.card_cons] at count
    simp only [before, Multiset.mem_cons, forall_eq_or_imp] at weights
    obtain ⟨left, right, others⟩ := weights
    have sum : 0 ≤ l.data + r.data := by omega
    obtain ⟨positive, fits⟩ := ih (b := b')
      (some (.node (l.data + r.data) l r))
      (by
        rw [after]
        simp only [Multiset.mem_cons, forall_eq_or_imp]
        exact ⟨sum, others⟩)
      (by rw [after, Multiset.card_cons]; omega)
    rw [joinCosts, costs]
    simp only [data_node]
    refine ⟨by omega, fun small => ?_⟩
    have whole : int (l.data + r.data) = some (l.data + r.data) :=
      int_fits (le_trans (by decide) sum) (by omega)
    rw [joinRounds32, joinRounds, join_round32, joined, Option.bind_some]
    simp only [data_node]
    rw [whole, Option.map_some]
    exact fits (by omega)

/-- One code for each leaf, none a prefix of another, with what WeightPathLength returns as
    their cost, and no access outside the array. -/
def Usable (a : List Int) : Prop :=
  ∃ t array codes, createHuffman32 a = some t ∧
    huffManCoding t codeArray 0 = some (array, codes) ∧
    ((codes.map Prod.fst : List Int) : Multiset Int) = leafValues t ∧
    PrefixFree (codes.map Prod.snd) ∧
    weightPathLength32 t 0 = some (cost ((codes.map fun code => (code.1, code.2.length) :
      List (Int × ℕ)) : Multiset (Int × ℕ)))

theorem shallow_usable {t : BTreeNode} (full : Full t) (shallow : levels t ≤ 10) :
    ∃ array codes, huffManCoding t codeArray 0 = some (array, codes) ∧
      ((codes.map Prod.fst : List Int) : Multiset Int) = leafValues t ∧
      PrefixFree (codes.map Prod.snd) ∧
      cost ((codes.map fun code => (code.1, code.2.length) : List (Int × ℕ)) :
        Multiset (Int × ℕ)) = weightPathLength t 0 := by
  obtain ⟨behind, run, _⟩ := @coding_runs t full (fun _ => 0) 0 (by omega)
  have printed : (paths t).map (fun path => (path.1, stretch (fun _ => 0) 0 ((0 : Nat) - 1) ++
      path.2)) = paths t := by
    rw [stretch_none _ (by decide)]
    exact List.map_id _
  rw [printed] at run
  have leaves := paths_pairs t full 0
  simp only [Nat.zero_add] at leaves
  refine ⟨_, paths t, run, ?_, paths_prefix_free t, ?_⟩
  · have values := congrArg (Multiset.map Prod.fst) leaves
    rw [pairs_weights, ← full_leaf_values t full, Multiset.map_coe, List.map_map] at values
    exact values
  · rw [leaves]
    exact (full_path_length t full 0).symm

theorem create_huffman_full {a : List Int} (two : 2 ≤ a.length) :
    ∃ t, createHuffman a = some t ∧ Full t ∧ leafValues t = a ∧ levels t = joinedLevels a := by
  obtain ⟨t, b, made, inv, one⟩ := create_huffman_built two
  obtain ⟨t', made', same⟩ := create_levels two
  rw [made, Option.some.injEq] at made'
  subst made'
  obtain ⟨full, values, _⟩ := forest_inv_single inv one
  exact ⟨t, made, full, values, same⟩

theorem deep_fails {t : BTreeNode} (full : Full t) (deep : 10 < levels t) :
    huffManCoding t codeArray 0 = none :=
  coding_overruns t full (by omega) (by omega)

theorem joined_cost {a : List Int} (two : 2 ≤ a.length) {t : BTreeNode}
    (made : createHuffman a = some t) : weightPathLength t 0 = joinedCost a := by
  have count : (roots (a.map newLeaf)).card = a.length - 1 + 1 := by
    rw [roots_new_leaves, Multiset.card_map, Multiset.coe_card]
    omega
  have slots : (a.map newLeaf).map slot = a.map fun weight => some (weight, 0) := by
    rw [List.map_map]
    rfl
  have start : forestCost (a.map newLeaf) = 0 := by
    rw [forestCost, roots_new_leaves, Multiset.map_map]
    apply Multiset.sum_eq_zero
    intro c mem
    obtain ⟨w, _, rfl⟩ := Multiset.mem_map.mp mem
    exact mul_zero w
  have costs := rounds_cost (a.length - 1) (q := none) (forest_inv_start a) count
    (fun h => by omega) made
  rw [← costs, start, slots, zero_add]
  rfl

theorem create_huffman32_fits {a : List Int} (two : 2 ≤ a.length) (weights : ∀ w ∈ a, 0 ≤ w)
    (small : joinedCost a ≤ INT_MAX) : createHuffman32 a = createHuffman a := by
  have count : (roots (a.map newLeaf)).card = a.length - 1 + 1 := by
    rw [roots_new_leaves, Multiset.card_map, Multiset.coe_card]
    omega
  have slots : (a.map newLeaf).map slot = a.map fun weight => some (weight, 0) := by
    rw [List.map_map]
    rfl
  have start : ∀ t ∈ roots (a.map newLeaf), 0 ≤ t.data := by
    intro t mem
    rw [roots_new_leaves] at mem
    obtain ⟨w, inside, rfl⟩ := Multiset.mem_map.mp mem
    exact weights w inside
  obtain ⟨_, fits⟩ := rounds_fit (a.length - 1) none start count
  rw [slots] at fits
  exact fits small

/-- The codes are usable exactly for the weights that take ten levels of joins at most, with
    joins that add up to an int. -/
theorem codes_usable_iff {a : List Int} (two : 2 ≤ a.length) (weights : ∀ w ∈ a, 0 ≤ w) :
    Usable a ↔ joinedLevels a ≤ 10 ∧ joinedCost a ≤ INT_MAX := by
  obtain ⟨t, made, full, values, same⟩ := create_huffman_full two
  have costs := joined_cost two made
  constructor
  · rintro ⟨t', array, codes, made', run, _, _, length⟩
    rw [create_huffman32_some made', Option.some.injEq] at made
    subst made
    refine ⟨?_, ?_⟩
    · by_contra deep
      rw [deep_fails full (by omega)] at run
      contradiction
    · obtain ⟨whole, small⟩ := weight_path_length32_some length
      rw [← costs, ← whole]
      exact small
  · rintro ⟨shallow, small⟩
    rw [← create_huffman32_fits two weights small] at made
    rw [← costs] at small
    rw [← same] at shallow
    obtain ⟨array, codes, run, printed, apart, length⟩ := shallow_usable full shallow
    have leaves : ∀ w ∈ leafValues t, 0 ≤ w := by
      rw [values]
      exact weights
    have above : (10 : Int) ≤ INT_MAX := by decide
    refine ⟨t, array, codes, made, run, printed, apart, ?_⟩
    rw [length]
    exact weight_path_length32_fits leaves (le_refl 0) (by omega) small

theorem fewer_levels_than_leaves (t : BTreeNode) (full : Full t) :
    levels t < (leafValues t).card := by
  fun_induction levels t with
  | case1 => exact full.elim
  | case2 data => simp [leafValues]
  | case3 data left right inner hl hr =>
    have both : Full left ∧ Full right := by
      rwa [Full] at full
      exact inner
    have one := hl both.1
    have two := hr both.2
    rw [leafValues, Multiset.card_add]
    · omega
    · exact inner

/-- A tree over eleven weights has no room for more than ten levels. -/
theorem eleven_weights_fit {a : List Int} (two : 2 ≤ a.length) (few : a.length ≤ 11) :
    joinedLevels a ≤ 10 := by
  obtain ⟨t, made, full, values, same⟩ := create_huffman_full two
  have fewer := fewer_levels_than_leaves t full
  rw [values, Multiset.coe_card] at fewer
  omega

theorem four_weights_usable : Usable [3, 1, 4, 1] ↔
    joinedLevels [3, 1, 4, 1] ≤ 10 ∧ joinedCost [3, 1, 4, 1] ≤ INT_MAX :=
  codes_usable_iff (by decide) (by decide)

/-- Of twelve weights that grow like this, each is joined with all before it. -/
def growing : List Int := [1, 1, 2, 3, 5, 8, 13, 21, 34, 55, 89, 144]

theorem growing_weights_leave_array :
    (∃ t, createHuffman32 growing = some t ∧ huffManCoding t codeArray 0 = none) ∧
      ¬ Usable growing := by
  obtain ⟨t, made, full, _, same⟩ := create_huffman_full (a := growing) (by decide)
  have eleven : joinedLevels growing = 11 := by decide +kernel
  have small : joinedCost growing ≤ INT_MAX := by decide +kernel
  have fails := deep_fails full (by omega)
  rw [← create_huffman32_fits (by decide) (by decide) small] at made
  refine ⟨⟨t, made, fails⟩, ?_⟩
  rintro ⟨t', array, codes, made', run, _⟩
  rw [made, Option.some.injEq] at made'
  subst made'
  rw [fails] at run
  contradiction

end UC.Huffman
