import Mathlib.Data.List.Perm.Basic
import UC.Huffman.Model

/- CreateHuffman joins two least roots in every round, so its tree is optimal. -/
namespace UC.Huffman
open BTreeNode UC.WeightedTree

/-- Positions k1 and k2 hold the two least roots among the first n positions. -/
structure TwoLeast (b : Forest) (n k1 k2 : Nat) : Prop where
  first : (b.at k1).isNull = false
  second : (b.at k2).isNull = false
  distinct : k1 ≠ k2
  below₁ : k1 < n
  below₂ : k2 < n
  ordered : (b.at k1).data ≤ (b.at k2).data
  least : ∀ x < n, (b.at x).isNull = false → x ≠ k1 → (b.at k2).data ≤ (b.at x).data

theorem first_two_second (b : Forest) (k m j : Nat) :
    (∃ i, j ≤ i ∧ i < j + m ∧ (b.at i).isNull = false ∧
      (∀ x, j ≤ x → x < i → (b.at x).isNull = true) ∧
      firstTwo b (List.range' j m) (some k) = (some k, some i)) ∨
    ∀ x, j ≤ x → x < j + m → (b.at x).isNull = true := by
  induction m generalizing j with
  | zero => exact .inr fun x h₁ h₂ => by omega
  | succ m ih =>
    rw [List.range'_succ]
    cases here : (b.at j).isNull with
    | false =>
      refine .inl ⟨j, Nat.le_refl j, by omega, here, fun x _ _ => by omega, ?_⟩
      simp [firstTwo, here]
    | true =>
      rcases ih (j + 1) with ⟨i, lo, hi, present, gap, found⟩ | all
      · refine .inl ⟨i, by omega, by omega, present, ?_, ?_⟩
        · intro x h₁ h₂
          rcases Nat.eq_or_lt_of_le h₁ with rfl | h₁
          · exact here
          · exact gap x h₁ h₂
        · simp [firstTwo, here, found]
      · refine .inr fun x h₁ h₂ => ?_
        rcases Nat.eq_or_lt_of_le h₁ with rfl | h₁
        · exact here
        · exact all x h₁ (by omega)

theorem first_two_first (b : Forest) (m j : Nat) :
    (∃ k, j ≤ k ∧ k < j + m ∧ (b.at k).isNull = false ∧
      (∀ x, j ≤ x → x < k → (b.at x).isNull = true) ∧
      firstTwo b (List.range' j m) none =
        firstTwo b (List.range' (k + 1) (j + m - (k + 1))) (some k)) ∨
    ∀ x, j ≤ x → x < j + m → (b.at x).isNull = true := by
  induction m generalizing j with
  | zero => exact .inr fun x h₁ h₂ => by omega
  | succ m ih =>
    rw [List.range'_succ]
    cases here : (b.at j).isNull with
    | false =>
      refine .inl ⟨j, Nat.le_refl j, by omega, here, fun x _ _ => by omega, ?_⟩
      rw [show j + (m + 1) - (j + 1) = m by omega]
      simp [firstTwo, here]
    | true =>
      rcases ih (j + 1) with ⟨k, lo, hi, present, gap, found⟩ | all
      · refine .inl ⟨k, by omega, by omega, present, ?_, ?_⟩
        · intro x h₁ h₂
          rcases Nat.eq_or_lt_of_le h₁ with rfl | h₁
          · exact here
          · exact gap x h₁ h₂
        · rw [show j + (m + 1) - (k + 1) = j + 1 + m - (k + 1) by omega]
          simp [firstTwo, here, found]
      · refine .inr fun x h₁ h₂ => ?_
        rcases Nat.eq_or_lt_of_le h₁ with rfl | h₁
        · exact here
        · exact all x h₁ (by omega)

theorem two_least_step {b : Forest} {j k1 k2 : Nat} (inv : TwoLeast b j k1 k2) (js : List Nat) :
    ∃ r1 r2, TwoLeast b (j + 1) r1 r2 ∧
      smallestTwo b (j :: js) k1 k2 = smallestTwo b js r1 r2 := by
  obtain ⟨first, second, distinct, below₁, below₂, ordered, least⟩ := inv
  cases here : (b.at j).isNull with
  | true =>
    refine ⟨k1, k2, ⟨first, second, distinct, by omega, by omega, ordered, ?_⟩,
      by simp [smallestTwo, here]⟩
    intro x hx present ne
    rcases Nat.eq_or_lt_of_le (Nat.le_of_lt_succ hx) with rfl | hx
    · rw [here] at present
      cases present
    · exact least x hx present ne
  | false =>
    by_cases lt₁ : (b.at j).data < (b.at k1).data
    · refine ⟨j, k1, ⟨here, first, by omega, by omega, by omega, by omega, ?_⟩,
        by simp [smallestTwo, here, lt₁]⟩
      intro x hx present ne
      by_cases same : x = k1
      · rw [same]
      · have := least x (by omega) present same
        omega
    · by_cases lt₂ : (b.at j).data < (b.at k2).data
      · refine ⟨k1, j, ⟨first, here, by omega, by omega, by omega, by omega, ?_⟩,
          by simp [smallestTwo, here, lt₁, lt₂]⟩
        intro x hx present ne
        by_cases same : x = j
        · rw [same]
        · have := least x (by omega) present ne
          omega
      · refine ⟨k1, k2, ⟨first, second, distinct, by omega, by omega, ordered, ?_⟩,
          by simp [smallestTwo, here, lt₁, lt₂]⟩
        intro x hx present ne
        by_cases same : x = j
        · rw [same]
          omega
        · exact least x (by omega) present ne

theorem two_least_run {b : Forest} (m : Nat) {j k1 k2 : Nat} (inv : TwoLeast b j k1 k2) :
    TwoLeast b (j + m) (smallestTwo b (List.range' j m) k1 k2).1
      (smallestTwo b (List.range' j m) k1 k2).2 := by
  induction m generalizing j k1 k2 with
  | zero => exact inv
  | succ m ih =>
    rw [List.range'_succ]
    obtain ⟨r1, r2, next, eq⟩ := two_least_step inv (List.range' (j + 1) m)
    rw [eq, show j + (m + 1) = j + 1 + m by omega]
    exact ih next

/-- The first iteration of the second loop orders the two positions. -/
theorem two_least_start {b : Forest} {k1 k2 : Nat} (first : (b.at k1).isNull = false)
    (second : (b.at k2).isNull = false) (before : k1 < k2)
    (gap : ∀ x < k2, x ≠ k1 → (b.at x).isNull = true) (js : List Nat) :
    ∃ r1 r2, TwoLeast b (k2 + 1) r1 r2 ∧
      smallestTwo b (k2 :: js) k1 k2 = smallestTwo b js r1 r2 := by
  have only : ∀ x < k2 + 1, (b.at x).isNull = false → x = k1 ∨ x = k2 := by
    intro x hx present
    by_contra other
    rw [not_or] at other
    rw [gap x (by omega) other.1] at present
    cases present
  by_cases lt : (b.at k2).data < (b.at k1).data
  · refine ⟨k2, k1, ⟨second, first, by omega, by omega, by omega, by omega, ?_⟩,
      by simp [smallestTwo, second, lt]⟩
    intro x hx present ne
    rw [(only x hx present).resolve_right ne]
  · refine ⟨k1, k2, ⟨first, second, by omega, by omega, by omega, by omega, ?_⟩,
      by simp [smallestTwo, second, lt]⟩
    intro x hx present ne
    rw [(only x hx present).resolve_left ne]

def roots (b : Forest) : Multiset BTreeNode := ↑(b.filter fun t => !t.isNull)

def single (t : BTreeNode) : Multiset BTreeNode := if t.isNull then 0 else {t}

theorem single_add_erase (b : Forest) {k : Nat} (hk : k < b.length) (x : BTreeNode) :
    roots (b.set k x) = single x + roots (b.eraseIdx k) := by
  have perm := (List.set_perm_cons_eraseIdx hk x).filter fun t => !t.isNull
  rw [roots, Multiset.coe_eq_coe.mpr perm]
  cases null : x.isNull <;> simp [roots, single, null]

theorem roots_set (b : Forest) {k : Nat} (hk : k < b.length) (x : BTreeNode) :
    roots (b.set k x) + single (b.at k) = single x + roots b := by
  have value : b.at k = b[k] := by simp [Forest.at, hk]
  have old := single_add_erase b hk (b.at k)
  rw [value, List.set_getElem_self] at old
  rw [single_add_erase b hk x, old, value, add_assoc, add_comm (roots _)]

theorem roots_zero {b : Forest} (all : ∀ x < b.length, (b.at x).isNull = true) : roots b = 0 := by
  rw [roots, Multiset.coe_eq_zero, List.filter_eq_nil_iff]
  intro t mem
  obtain ⟨x, hx, rfl⟩ := List.getElem_of_mem mem
  have null := all x hx
  simp only [Forest.at, List.getD_eq_getElem?_getD, List.getElem?_eq_getElem hx,
    Option.getD_some] at null
  simp [null]

theorem roots_card_le_one {b : Forest} {k : Nat} (hk : k < b.length)
    (only : ∀ x < b.length, x ≠ k → (b.at x).isNull = true) : (roots b).card ≤ 1 := by
  have cleared := roots_set b hk .null
  have rest : roots (b.set k .null) = 0 := by
    apply roots_zero
    intro x hx
    rw [List.length_set] at hx
    by_cases same : x = k
    · subst same
      simp [Forest.at, hx, BTreeNode.isNull]
    · have null := only x hx same
      simpa [Forest.at, List.getElem?_set_ne (Ne.symm same)] using null
  rw [rest, zero_add] at cleared
  have null : single .null = 0 := rfl
  rw [null, zero_add] at cleared
  rw [← cleared, single]
  split <;> simp

theorem single_present {t : BTreeNode} (present : t.isNull = false) : single t = {t} := by
  rw [single, present]
  rfl

theorem mem_roots {b : Forest} {t : BTreeNode} :
    t ∈ roots b ↔ ∃ x < b.length, b.at x = t ∧ t.isNull = false := by
  simp only [roots, Multiset.mem_coe, List.mem_filter, Bool.not_eq_true', Forest.at]
  constructor
  · rintro ⟨mem, present⟩
    obtain ⟨x, hx, rfl⟩ := List.getElem_of_mem mem
    exact ⟨x, hx, by simp [hx], present⟩
  · rintro ⟨x, hx, rfl, present⟩
    exact ⟨by simp [hx], present⟩

theorem at_set (b : Forest) {k : Nat} (hk : k < b.length) (t : BTreeNode) (x : Nat) :
    Forest.at (b.set k t) x = if x = k then t else b.at x := by
  simp only [Forest.at, List.getD_eq_getElem?_getD, List.getElem?_set]
  by_cases same : k = x
  · subst same
    simp [hk]
  · simp [same, Ne.symm same]

theorem first_two_exists {b : Forest} (two : 2 ≤ (roots b).card) :
    ∃ k1 k2, firstTwo b (List.range b.length) none = (some k1, some k2) ∧
      (b.at k1).isNull = false ∧ (b.at k2).isNull = false ∧ k1 < k2 ∧ k2 < b.length ∧
      ∀ x < k2, x ≠ k1 → (b.at x).isNull = true := by
  rw [List.range_eq_range']
  rcases first_two_first b b.length 0 with ⟨k1, _, hk1, first, gap₁, found₁⟩ | all
  · rcases first_two_second b k1 (b.length - (k1 + 1)) (k1 + 1) with
      ⟨k2, hk12, hk2, second, gap₂, found₂⟩ | all
    · have gap : ∀ x < k2, x ≠ k1 → (b.at x).isNull = true := by
        intro x hx ne
        rcases Nat.lt_or_ge x k1 with lt | ge
        · exact gap₁ x (Nat.zero_le x) lt
        · exact gap₂ x (by omega) hx
      rw [Nat.zero_add] at found₁
      exact ⟨k1, k2, found₁.trans found₂, first, second, hk12, by omega, gap⟩
    · have few := roots_card_le_one (b := b) (k := k1) (by omega) (by
        intro x hx ne
        rcases Nat.lt_or_ge x k1 with lt | ge
        · exact gap₁ x (Nat.zero_le x) lt
        · exact all x (by omega) (by omega))
      omega
  · have none := roots_zero (b := b) fun x hx => all x (Nat.zero_le x) (by omega)
    rw [none] at two
    simp at two

theorem two_least_exists {b : Forest} (two : 2 ≤ (roots b).card) :
    ∃ k1 k2 r1 r2, firstTwo b (List.range b.length) none = (some k1, some k2) ∧
      smallestTwo b (List.range' k2 (b.length - k2)) k1 k2 = (r1, r2) ∧
      TwoLeast b b.length r1 r2 := by
  obtain ⟨k1, k2, found, first, second, before, inside, gap⟩ := first_two_exists two
  obtain ⟨s1, s2, started, eq⟩ := two_least_start first second before gap
    (List.range' (k2 + 1) (b.length - (k2 + 1)))
  have done := two_least_run (b.length - (k2 + 1)) started
  rw [show k2 + 1 + (b.length - (k2 + 1)) = b.length by omega] at done
  refine ⟨k1, k2, _, _, found, ?_, done⟩
  rw [show b.length - k2 = b.length - (k2 + 1) + 1 by omega, List.range'_succ]
  exact eq

/-- A round joins two least roots and leaves the others alone. -/
theorem join_round_spec {b : Forest} (two : 2 ≤ (roots b).card) :
    ∃ b' l r G, joinRound b = some (b', .node (l.data + r.data) l r) ∧
      roots b = l ::ₘ r ::ₘ G ∧ roots b' = .node (l.data + r.data) l r ::ₘ G ∧
      l.data ≤ r.data ∧ ∀ t ∈ G, r.data ≤ t.data := by
  obtain ⟨k1, k2, r1, r2, found, scanned, least⟩ := two_least_exists two
  generalize hl : b.at r1 = l
  generalize hr : b.at r2 = r
  generalize hq : BTreeNode.node (l.data + r.data) l r = q
  have present : q.isNull = false := by rw [← hq]; rfl
  have set₁ := roots_set b least.below₁ q
  have bound : r2 < (b.set r1 q).length := by rw [List.length_set]; exact least.below₂
  have set₂ := roots_set (b.set r1 q) bound .null
  rw [at_set b least.below₁, if_neg (Ne.symm least.distinct), hr,
    single_present (by rw [← hr]; exact least.second)] at set₂
  rw [hl, single_present (by rw [← hl]; exact least.first), single_present present] at set₁
  have null : single .null = 0 := rfl
  rw [null, zero_add] at set₂
  have stays : q ∈ roots ((b.set r1 q).set r2 .null) := by
    refine mem_roots.mpr ⟨r1, by simpa using least.below₁, ?_, present⟩
    rw [at_set _ bound, if_neg least.distinct, at_set b least.below₁, if_pos rfl]
  obtain ⟨G, hG⟩ := Multiset.exists_cons_of_mem stays
  have split : roots b = l ::ₘ r ::ₘ G := by
    rw [hG] at set₂
    rw [← set₂, Multiset.cons_add, Multiset.cons_add, ← Multiset.singleton_add q] at set₁
    have rest := add_left_cancel set₁
    rw [← rest, add_comm, Multiset.singleton_add, add_comm, Multiset.singleton_add]
  refine ⟨(b.set r1 q).set r2 .null, l, r, G, ?_, split, by rw [hG, hq], ?_, ?_⟩
  · simp only [joinRound, found, scanned, hl, hr, hq]
  · rw [← hl, ← hr]
    exact least.ordered
  · -- the other roots are those of the array without position r1
    intro t mem
    have set₀ := roots_set b least.below₁ .null
    rw [hl, single_present (by rw [← hl]; exact least.first), null, zero_add, split, add_comm,
      Multiset.singleton_add, Multiset.cons_inj_right] at set₀
    have other : t ∈ roots (b.set r1 .null) := by
      rw [set₀]
      exact Multiset.mem_cons_of_mem mem
    obtain ⟨x, hx, here, present⟩ := mem_roots.mp other
    rw [List.length_set] at hx
    rw [at_set b least.below₁] at here
    split at here
    · rw [← here] at present
      cases present
    · rename_i ne
      rw [← hr, ← here]
      exact least.least x hx (by rw [here]; exact present) ne

def shape : BTreeNode → WTree Int
  | .null => .leaf 0
  | .node d .null .null => .leaf d
  | .node _ l r => .node (shape l) (shape r)

theorem full_path_length (t : BTreeNode) (full : Full t) (d : ℕ) :
    weightPathLength t d = wpl (shape t) d := by
  fun_induction shape t generalizing d with
  | case1 => exact full.elim
  | case2 w => rw [weightPathLength, wpl_leaf]
  | case3 w l r inner hl hr =>
    rw [Full] at full
    · rw [weightPathLength, wpl_node, ← hl full.1, ← hr full.2]
      · rfl
      · exact inner
    · exact inner

theorem full_leaf_values (t : BTreeNode) (full : Full t) : leafValues t = leaves (shape t) := by
  fun_induction shape t with
  | case1 => exact full.elim
  | case2 w => rfl
  | case3 w l r inner hl hr =>
    rw [Full] at full
    · rw [leafValues, leaves, hl full.1, hr full.2]
      exact inner
    · exact inner

theorem sums_weight (t : BTreeNode) (full : Full t) (sums : Sums t) :
    t.data = weight (shape t) := by
  fun_induction shape t with
  | case1 => exact full.elim
  | case2 w => rw [weight_leaf]; rfl
  | case3 w l r inner hl hr =>
    rw [Full] at full
    · rw [Sums] at sums
      · rw [weight_node, ← hl full.1 sums.2.1, ← hr full.2 sums.2.2, ← sums.1]
        rfl
      · exact inner
    · exact inner

theorem join_inner {l r : BTreeNode} (hl : Full l) : l = .null → r = .null → False := by
  rintro rfl
  exact hl.elim

/-- Between rounds: sound trees that carry the given weights, and from which the
    optimum is still in reach. -/
structure ForestInv (b : Forest) (a : Multiset Int) : Prop where
  full : ∀ t ∈ roots b, Full t
  sums : ∀ t ∈ roots b, Sums t
  content : ((roots b).map leafValues).sum = a
  extendable : Extendable ((roots b).map shape) a

theorem roots_new_leaves (a : List Int) :
    roots (a.map newLeaf) = (a : Multiset Int).map newLeaf := by
  rw [roots, List.filter_map, Multiset.map_coe]
  congr 2
  exact List.filter_eq_self.mpr fun w _ => rfl

theorem forest_inv_start (a : List Int) : ForestInv (a.map newLeaf) a := by
  have all := roots_new_leaves a
  refine ⟨?_, ?_, ?_, ?_⟩
  · intro t mem
    rw [all] at mem
    obtain ⟨w, _, rfl⟩ := Multiset.mem_map.mp mem
    trivial
  · intro t mem
    rw [all] at mem
    obtain ⟨w, _, rfl⟩ := Multiset.mem_map.mp mem
    trivial
  · rw [all, Multiset.map_map]
    exact Multiset.sum_map_singleton (a : Multiset Int)
  · rw [all, Multiset.map_map]
    exact extendable_leaves (a : Multiset Int)

theorem forest_inv_join {b b' : Forest} {a : Multiset Int} {l r : BTreeNode}
    {G : Multiset BTreeNode} (inv : ForestInv b a) (before : roots b = l ::ₘ r ::ₘ G)
    (after : roots b' = .node (l.data + r.data) l r ::ₘ G) (ordered : l.data ≤ r.data)
    (least : ∀ t ∈ G, r.data ≤ t.data) : ForestInv b' a := by
  obtain ⟨full, sums, content, extendable⟩ := inv
  simp only [before, Multiset.mem_cons, forall_eq_or_imp] at full sums
  obtain ⟨fullL, fullR, fullG⟩ := full
  obtain ⟨sumsL, sumsR, sumsG⟩ := sums
  have inner := join_inner (r := r) fullL
  refine ⟨?_, ?_, ?_, ?_⟩
  · simp only [after, Multiset.mem_cons, forall_eq_or_imp]
    refine ⟨?_, fullG⟩
    rw [Full]
    · exact ⟨fullL, fullR⟩
    · exact inner
  · simp only [after, Multiset.mem_cons, forall_eq_or_imp]
    refine ⟨?_, sumsG⟩
    rw [Sums]
    · exact ⟨rfl, sumsL, sumsR⟩
    · exact inner
  · rw [before] at content
    rw [after, ← content, Multiset.map_cons, Multiset.map_cons, Multiset.map_cons, leafValues]
    · simp only [Multiset.sum_cons, add_assoc]
    · exact inner
  · rw [before, Multiset.map_cons, Multiset.map_cons] at extendable
    rw [after, Multiset.map_cons, shape]
    · apply extendable_join extendable
      · rw [← sums_weight l fullL sumsL, ← sums_weight r fullR sumsR]
        exact ordered
      · intro s mem
        obtain ⟨t, ht, rfl⟩ := Multiset.mem_map.mp mem
        rw [← sums_weight r fullR sumsR, ← sums_weight t (fullG t ht) (sumsG t ht)]
        exact least t ht
    · exact inner

theorem forest_inv_single {b : Forest} {a : Multiset Int} {t : BTreeNode} (inv : ForestInv b a)
    (one : roots b = {t}) :
    Full t ∧ leafValues t = a ∧ Sums t ∧
      ∀ u, Full u → leafValues u = a → weightPathLength t 0 ≤ weightPathLength u 0 := by
  obtain ⟨full, sums, content, extendable⟩ := inv
  rw [one] at full sums content extendable
  have fullT := full t (Multiset.mem_singleton_self t)
  refine ⟨fullT, by simpa using content, sums t (Multiset.mem_singleton_self t), ?_⟩
  intro u fullU values
  have bound := extendable_single extendable (shape u) (by rw [← full_leaf_values u fullU, values])
  rw [← full_path_length t fullT 0, ← full_path_length u fullU 0] at bound
  exact bound

theorem join_rounds_spec {a : Multiset Int} (rounds : Nat) {b : Forest} {q : Option BTreeNode}
    (inv : ForestInv b a) (count : (roots b).card = rounds + 1)
    (last : rounds = 0 → ∃ t, q = some t ∧ roots b = {t}) :
    ∃ t b', joinRounds rounds b q = some t ∧ ForestInv b' a ∧ roots b' = {t} := by
  induction rounds generalizing b q with
  | zero =>
    obtain ⟨t, rfl, one⟩ := last rfl
    exact ⟨t, b, rfl, inv, one⟩
  | succ rounds ih =>
    obtain ⟨b', l, r, G, joined, before, after, ordered, least⟩ :=
      join_round_spec (b := b) (by omega)
    rw [before, Multiset.card_cons, Multiset.card_cons] at count
    simp only [joinRounds, joined]
    refine ih (forest_inv_join inv before after ordered least) ?_ ?_
    · rw [after, Multiset.card_cons]
      omega
    · intro done
      have empty : G = 0 := Multiset.card_eq_zero.mp (by omega)
      exact ⟨_, rfl, by rw [after, empty, Multiset.cons_zero]⟩

theorem create_huffman_built {a : List Int} (two : 2 ≤ a.length) :
    ∃ t b, createHuffman a = some t ∧ ForestInv b a ∧ roots b = {t} := by
  have count : (roots (a.map newLeaf)).card = a.length - 1 + 1 := by
    rw [roots_new_leaves, Multiset.card_map, Multiset.coe_card]
    omega
  exact join_rounds_spec (a.length - 1) (q := none) (forest_inv_start a) count (fun h => by omega)

/-- CreateHuffman returns a full tree over exactly the given weights, with correct sums.
    WeightPathLength is its sum of weight times depth, and no full tree over these weights
    has a smaller one. -/
theorem create_huffman_optimal (a : List Int) (two : 2 ≤ a.length) :
    ∃ t, createHuffman a = some t ∧ Full t ∧ leafValues t = a ∧ Sums t ∧
      weightPathLength t 0 = wpl (shape t) 0 ∧
      ∀ u, Full u → leafValues u = a → weightPathLength t 0 ≤ wpl (shape u) 0 := by
  obtain ⟨t, b, made, done, one⟩ := create_huffman_built two
  obtain ⟨full, values, sums, least⟩ := forest_inv_single done one
  refine ⟨t, made, full, values, sums, full_path_length t full 0, fun u fullU same => ?_⟩
  rw [← full_path_length u fullU 0]
  exact least u fullU same

theorem three_weights_with_a_tie :
    createHuffman [2, 1, 1] = some (.node 4 (newLeaf 2) (.node 2 (newLeaf 1) (newLeaf 1))) ∧
    ∃ t, createHuffman [2, 1, 1] = some t ∧ Full t ∧ leafValues t = ↑[(2 : Int), 1, 1] := by
  refine ⟨by decide, ?_⟩
  obtain ⟨t, made, full, values, _⟩ := create_huffman_optimal [2, 1, 1] (by decide)
  exact ⟨t, made, full, values⟩

end UC.Huffman
