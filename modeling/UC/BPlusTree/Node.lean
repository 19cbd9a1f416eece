import UC.BPlusTree.Model
import UC.Lib.Slots

/- What the member functions of one node do to its slots. -/
namespace UC.BPlusTree.CNode
open UC.Memory UC.Loops UC.Slots

section Slots

variable {K : Type} {n : CNode K}

theorem set_key_value {i : Nat} (inside : i < MAXNUM_KEY) (key : K) :
    n.setKeyValue i key = some { n with m_KeyValues := store n.m_KeyValues i key } :=
  if_pos inside

theorem set_child {i : Nat} (inside : i < MAXNUM_CHILD) (child : Option Ptr) :
    n.setChild i child = some { n with m_Childs := store n.m_Childs i child } :=
  if_pos inside

theorem set_data {i : Nat} (inside : i < MAXNUM_LEAF) (data : Int) :
    n.setData i data = some { n with m_Datas := store n.m_Datas i data } :=
  if_pos inside

theorem copy_keys (src : Mem K) (s : Nat) {count : Nat} (fits : count ≤ MAXNUM_KEY) :
    forLoop (fun i m => m.setKeyValue i (src (i + s))) count n =
      some { n with m_KeyValues := memcpy n.m_KeyValues 0 src s count } :=
  @for_loop_copies _ _ _ (fun keys => { n with m_KeyValues := keys }) src s count
    (fun _ hi _ => set_key_value (Nat.lt_of_lt_of_le hi fits) _) n.m_KeyValues

theorem copy_childs (src : Mem (Option Ptr)) (s : Nat) {count : Nat}
    (fits : count ≤ MAXNUM_CHILD) :
    forLoop (fun i m => m.setChild i (src (i + s))) count n =
      some { n with m_Childs := memcpy n.m_Childs 0 src s count } :=
  @for_loop_copies _ _ _ (fun childs => { n with m_Childs := childs }) src s count
    (fun _ hi _ => set_child (Nat.lt_of_lt_of_le hi fits) _) n.m_Childs

theorem copy_datas (src : Mem Int) (s : Nat) {count : Nat} (fits : count ≤ MAXNUM_LEAF) :
    forLoop (fun i m => m.setData i (src (i + s))) count n =
      some { n with m_Datas := memcpy n.m_Datas 0 src s count } :=
  @for_loop_copies _ _ _ (fun datas => { n with m_Datas := datas }) src s count
    (fun _ hi _ => set_data (Nat.lt_of_lt_of_le hi fits) _) n.m_Datas

/-- The halves of a split node: the node itself and, made of the blank node m, the new
    one. -/
def leftInternal (n : CNode K) : CNode K := { n with m_KeyNum := MINNUM_KEY }

def rightInternal (m n : CNode K) : CNode K :=
  { m with
    m_KeyNum := MINNUM_KEY
    m_KeyValues := memcpy m.m_KeyValues 0 n.m_KeyValues MINNUM_CHILD MINNUM_KEY
    m_Childs := memcpy m.m_Childs 0 n.m_Childs MINNUM_CHILD MINNUM_CHILD }

def leftLeaf (n : CNode K) (new : Ptr) : CNode K :=
  { n with m_KeyNum := MINNUM_LEAF, m_RightSibling := some new }

def rightLeaf (m n : CNode K) (this : Ptr) : CNode K :=
  { m with
    m_KeyNum := MINNUM_LEAF + 1
    m_RightSibling := n.m_RightSibling
    m_LeftSibling := some this
    m_KeyValues := memcpy m.m_KeyValues 0 n.m_KeyValues MINNUM_LEAF (MINNUM_LEAF + 1)
    m_Datas := memcpy m.m_Datas 0 n.m_Datas MINNUM_LEAF (MINNUM_LEAF + 1) }

theorem fill_internal_spec (m : CNode K) : m.fillInternal n = some (m.rightInternal n) := by
  unfold fillInternal
  dsimp only
  rw [copy_keys _ _ (by decide)]
  simp only [Option.bind_eq_bind, Option.bind_some]
  rw [copy_childs _ _ (by decide)]
  rfl

theorem fill_leaf_spec (m : CNode K) (this : Ptr) :
    m.fillLeaf n this = some (m.rightLeaf n this) := by
  unfold fillLeaf
  dsimp only
  rw [copy_keys _ _ (by decide)]
  simp only [Option.bind_eq_bind, Option.bind_some]
  rw [copy_datas _ _ (by decide)]
  rfl

/-- Node n with one key more, in slot c, and one child more, in slot ci. -/
def withChild (n : CNode K) (c ci : Nat) (key : K) (child : Option Ptr) : CNode K :=
  { n with
    m_KeyNum := n.m_KeyNum + 1
    m_KeyValues := insertAt n.m_KeyValues c n.m_KeyNum key
    m_Childs := insertAt n.m_Childs ci (n.m_KeyNum + 1) child }

theorem with_child_key (n : CNode K) (c ci : Nat) (key : K) (child : Option Ptr) :
    (n.withChild c ci key child).m_KeyValues c = key := insert_here n.m_KeyValues c _ key

/-- Behind j rounds the slots above the last j keys are those one below. -/
theorem insert_child_loop (room : n.m_KeyNum < MAXNUM_KEY) {c : Nat} (le : c ≤ n.m_KeyNum) :
    forLoop (fun j m => do
      let i := n.m_KeyNum - j
      let m ← m.setChild (i + 1) (m.m_Childs i)
      m.setKeyValue i (m.m_KeyValues (i - 1))) (n.m_KeyNum - c) n =
    some { n with
      m_KeyValues := shiftUp n.m_KeyValues c n.m_KeyNum
      m_Childs := shiftUp n.m_Childs (c + 1) (n.m_KeyNum + 1) } := by
  obtain ⟨n', run, rfl⟩ := @for_loop_invariant _
    (fun j (m : CNode K) => do
      let i := n.m_KeyNum - j
      let m ← m.setChild (i + 1) (m.m_Childs i)
      m.setKeyValue i (m.m_KeyValues (i - 1))) (n.m_KeyNum - c)
    (fun j m => m = { n with
      m_KeyValues := shiftUp n.m_KeyValues (n.m_KeyNum - j) n.m_KeyNum
      m_Childs := shiftUp n.m_Childs (n.m_KeyNum - j + 1) (n.m_KeyNum + 1) }) n
    (by rw [Nat.sub_zero, shift_up_none, shift_up_none]) (by
      rintro j hj m rfl
      have child := @shift_up_step _ n.m_Childs (n.m_KeyNum - j) (n.m_KeyNum + 1) (by omega)
      have key := @shift_up_step _ n.m_KeyValues (n.m_KeyNum - (j + 1)) n.m_KeyNum (by omega)
      have index : n.m_KeyNum - (j + 1) + 1 = n.m_KeyNum - j := by omega
      rw [index] at key
      refine ⟨_, ?_, rfl⟩
      dsimp only
      rw [set_child (by unfold MAXNUM_CHILD; omega)]
      simp only [Option.bind_eq_bind, Option.bind_some]
      rw [set_key_value (by omega), shift_up_below _ (by omega), shift_up_below _ (by omega),
        child, show n.m_KeyNum - j - 1 = n.m_KeyNum - (j + 1) by omega, key, index])
  rw [show n.m_KeyNum - (n.m_KeyNum - c) = c by omega] at run
  exact run

theorem insert_child_spec (room : n.m_KeyNum < MAXNUM_KEY) {c ci : Nat} (le : c ≤ n.m_KeyNum)
    (side : ci = c ∨ ci = c + 1) (key : K) (child : Option Ptr) :
    n.insertChild c ci key child = some (n.withChild c ci key child) := by
  unfold insertChild
  dsimp only
  rw [insert_child_loop room le]
  simp only [Option.bind_eq_bind, Option.bind_some, Nat.min_eq_right le]
  rcases side with rfl | rfl
  · have step := @shift_up_step _ n.m_Childs ci (n.m_KeyNum + 1) (by omega)
    rw [if_pos rfl, set_child (by unfold MAXNUM_CHILD; omega)]
    simp only [Option.bind_some]
    rw [shift_up_below _ (by omega), step, set_child (by unfold MAXNUM_CHILD; omega)]
    simp only [Option.bind_some]
    rw [set_key_value (by omega)]
    rfl
  · rw [if_neg (by omega), set_child (by unfold MAXNUM_CHILD; omega)]
    simp only [Option.bind_some]
    rw [set_key_value (by omega)]
    rfl

theorem remove_leaf_spec (leaf : n.m_Type = .LEAF) {i : Nat} (used : i < n.m_KeyNum)
    (full : n.m_KeyNum ≤ MAXNUM_LEAF) (childIndex : Nat) :
    n.removeKey i childIndex = some { n with
      m_KeyNum := n.m_KeyNum - 1
      m_KeyValues := shiftDown n.m_KeyValues i (n.m_KeyNum - 1)
      m_Datas := shiftDown n.m_Datas i (n.m_KeyNum - 1) } := by
  unfold MAXNUM_LEAF at full
  obtain ⟨n', run, rfl⟩ := @for_loop_invariant _
    (fun j (m : CNode K) => do
      let m ← m.setKeyValue (i + j) (m.m_KeyValues (i + j + 1))
      m.setData (i + j) (m.m_Datas (i + j + 1))) (n.m_KeyNum - i - 1)
    (fun j m => m = { n with
      m_KeyValues := shiftDown n.m_KeyValues i (i + j)
      m_Datas := shiftDown n.m_Datas i (i + j) }) n
    (by rw [Nat.add_zero, shift_down_none, shift_down_none]) (by
      rintro j hj m rfl
      refine ⟨_, ?_, rfl⟩
      rw [set_key_value (by omega)]
      simp only [Option.bind_eq_bind, Option.bind_some]
      rw [set_data (by unfold MAXNUM_LEAF; omega), shift_down_above _ (by omega),
        shift_down_above _ (by omega), shift_down_step _ (by omega), shift_down_step _ (by omega),
        Nat.add_assoc])
  unfold removeKey
  rw [if_neg (by omega), leaf]
  dsimp only
  rw [run]
  simp only [Option.bind_eq_bind, Option.bind_some]
  rw [show i + (n.m_KeyNum - i - 1) = n.m_KeyNum - 1 by omega, leaf]

/-- Key i goes, and child i or the one behind it. The loop moves as many children as keys:
    with child i the last child does not move. -/
theorem remove_inner_spec (inner : n.m_Type = .INTERNAL) {i ci : Nat} (used : i < n.m_KeyNum)
    (full : n.m_KeyNum ≤ MAXNUM_KEY) (side : ci ≤ i + 1) :
    n.removeKey i ci = some { n with
      m_KeyNum := n.m_KeyNum - 1
      m_KeyValues := shiftDown n.m_KeyValues i (n.m_KeyNum - 1)
      m_Childs := shiftDown n.m_Childs ci (ci + (n.m_KeyNum - i - 1)) } := by
  obtain ⟨n', run, rfl⟩ := @for_loop_invariant _
    (fun j (m : CNode K) => do
      let m ← m.setKeyValue (i + j) (m.m_KeyValues (i + j + 1))
      m.setChild (ci + j) (m.m_Childs (ci + j + 1))) (n.m_KeyNum - i - 1)
    (fun j m => m = { n with
      m_KeyValues := shiftDown n.m_KeyValues i (i + j)
      m_Childs := shiftDown n.m_Childs ci (ci + j) }) n
    (by rw [Nat.add_zero, Nat.add_zero, shift_down_none, shift_down_none]) (by
      rintro j hj m rfl
      refine ⟨_, ?_, rfl⟩
      rw [set_key_value (by omega)]
      simp only [Option.bind_eq_bind, Option.bind_some]
      rw [set_child (by unfold MAXNUM_CHILD; omega), shift_down_above _ (by omega),
        shift_down_above _ (by omega), shift_down_step _ (by omega), shift_down_step _ (by omega),
        Nat.add_assoc, Nat.add_assoc])
  unfold removeKey
  rw [if_neg (by omega), inner]
  dsimp only
  rw [run]
  simp only [Option.bind_eq_bind, Option.bind_some]
  rw [show i + (n.m_KeyNum - i - 1) = n.m_KeyNum - 1 by omega, inner]

/-- An inner node with the given children in its used slots. -/
structure Branching (n : CNode K) (cs : List (Option Ptr)) : Prop where
  type : n.m_Type = .INTERNAL
  childs : slice n.m_Childs 0 (n.m_KeyNum + 1) = cs

namespace Branching

variable {cs pre post : List (Option Ptr)} {c : Option Ptr}

theorem count (branching : n.Branching cs) : n.m_KeyNum + 1 = cs.length := by
  have count := congrArg List.length branching.childs
  rwa [slice_length] at count

theorem child (branching : n.Branching (pre ++ c :: post)) : n.m_Childs pre.length = c :=
  (slice_parts branching.childs).2.2.1

theorem insert (branching : n.Branching cs) (room : n.m_KeyNum < MAXNUM_KEY) {i ci : Nat}
    (le : i ≤ n.m_KeyNum) (side : ci = i ∨ ci = i + 1) (key : K) (child : Option Ptr) :
    ∃ n', n.insertChild i ci key child = some n' ∧
      n'.Branching (cs.take ci ++ child :: cs.drop ci) ∧ n'.m_KeyNum = n.m_KeyNum + 1 := by
  have le' : ci ≤ n.m_KeyNum + 1 := by omega
  refine ⟨_, insert_child_spec room le side key child, ⟨branching.type, ?_⟩, rfl⟩
  change slice (insertAt n.m_Childs ci (n.m_KeyNum + 1) child) 0 (n.m_KeyNum + 1 + 1) = _
  rw [slice_insert _ _ le', branching.childs]

theorem append (branching : n.Branching cs) (room : n.m_KeyNum < MAXNUM_KEY) (key : K)
    (child : Option Ptr) :
    ∃ n', n.insertChild n.m_KeyNum (n.m_KeyNum + 1) key child = some n' ∧
      n'.Branching (cs ++ [child]) ∧ n'.m_KeyNum = n.m_KeyNum + 1 := by
  obtain ⟨n', inserted, branching', more⟩ :=
    branching.insert room (Nat.le_refl _) (.inr rfl) key child
  rw [branching.count, List.take_length, List.drop_length] at branching'
  exact ⟨n', inserted, branching', more⟩

theorem slot (branching : n.Branching cs) {i : Nat} (less : i < cs.length) :
    n.m_Childs i = cs[i] := by
  have place : (cs.take i).length = i := by
    rw [List.length_take]
    omega
  have parts : cs = cs.take i ++ cs[i] :: cs.drop (i + 1) := by
    rw [List.getElem_cons_drop, List.take_append_drop]
  rw [parts] at branching
  have child := branching.child
  rwa [place] at child

theorem remove (branching : n.Branching (pre ++ c :: post)) {i : Nat} (place : pre.length = i + 1)
    (full : n.m_KeyNum ≤ MAXNUM_KEY) :
    ∃ n', n.removeKey i (i + 1) = some n' ∧ n'.Branching (pre ++ post) ∧
      n'.m_Childs (i + 1) = post.headD c := by
  have count := branching.count
  rw [List.length_append, List.length_cons] at count
  have span : i + 1 + (n.m_KeyNum - i - 1) = n.m_KeyNum := by omega
  refine ⟨_, remove_inner_spec branching.type (by omega) full (Nat.le_refl _),
    ⟨branching.type, ?_⟩, ?_⟩
  · have rest := slice_remove_parts branching.childs
    rw [Nat.add_sub_cancel, place] at rest
    change slice (shiftDown n.m_Childs (i + 1) (i + 1 + (n.m_KeyNum - i - 1))) 0
      (n.m_KeyNum - 1 + 1) = _
    rw [span, show n.m_KeyNum - 1 + 1 = n.m_KeyNum by omega]
    exact rest
  · change shiftDown n.m_Childs (i + 1) (i + 1 + (n.m_KeyNum - i - 1)) (i + 1) = _
    rw [span]
    cases post with
    | nil =>
      rw [List.length_nil] at count
      rw [shift_down_above _ (by omega), ← place]
      exact branching.child
    | cons next post =>
      rw [List.length_cons] at count
      rw [shiftDown, if_pos (by omega)]
      have behind := branching.childs
      rw [List.append_cons] at behind
      have here := (slice_parts behind).2.2.1
      rwa [List.length_append, List.length_singleton, place] at here

end Branching

end Slots

section Keys

variable {K : Type} [LinearOrder K] {n : CNode K}

/-- Behind the loop of the leaf insertion the keys from i' on were above the key and have
    moved up. -/
theorem shift_leaf_spec (room : n.m_KeyNum < MAXNUM_LEAF) (key : K) {i : Nat}
    (le : i ≤ n.m_KeyNum) :
    ∃ i' ≤ i, shiftLeaf key i { n with
        m_KeyValues := shiftUp n.m_KeyValues i n.m_KeyNum
        m_Datas := shiftUp n.m_Datas i n.m_KeyNum } =
      some ({ n with
        m_KeyValues := shiftUp n.m_KeyValues i' n.m_KeyNum
        m_Datas := shiftUp n.m_Datas i' n.m_KeyNum }, i') ∧
      (∀ j, i' ≤ j → j < i → key < n.m_KeyValues j) ∧
      ∀ j, j + 1 = i' → n.m_KeyValues j ≤ key := by
  induction i with
  | zero =>
    refine ⟨0, Nat.le_refl 0, rfl, ?_, ?_⟩
    · intro j _ hj
      omega
    · intro j hj
      omega
  | succ i ih =>
    have old := @shift_up_below _ n.m_KeyValues (i + 1) n.m_KeyNum i (by omega)
    have oldData := @shift_up_below _ n.m_Datas (i + 1) n.m_KeyNum i (by omega)
    have step := @shift_up_step _ n.m_KeyValues i n.m_KeyNum (by omega)
    have stepData := @shift_up_step _ n.m_Datas i n.m_KeyNum (by omega)
    unfold shiftLeaf
    dsimp only
    by_cases above : n.m_KeyValues i > key
    · obtain ⟨i', lower, run, moved, stop⟩ := ih (by omega)
      refine ⟨i', by omega, ?_, ?_, stop⟩
      · unfold MAXNUM_LEAF at room
        simp only [old, if_pos above]
        rw [set_key_value (by omega)]
        simp only [Option.bind_eq_bind, Option.bind_some]
        rw [set_data (by unfold MAXNUM_LEAF; omega)]
        simp only [Option.bind_some, step, oldData, stepData]
        exact run
      · intro j hj hj'
        rcases Nat.eq_or_lt_of_le (Nat.le_of_lt_succ hj') with here | below
        · rw [here]
          exact above
        · exact moved j hj below
    · refine ⟨i + 1, Nat.le_refl _, ?_, ?_, ?_⟩
      · simp only [old, if_neg above]
      · intro j hj hj'
        omega
      · intro j hj
        cases hj
        exact not_lt.mp above

theorem insert_leaf_spec (room : n.m_KeyNum < MAXNUM_LEAF) (key : K) (data : Int) :
    ∃ i ≤ n.m_KeyNum, n.insertLeaf key data = some { n with
        m_KeyNum := n.m_KeyNum + 1
        m_KeyValues := insertAt n.m_KeyValues i n.m_KeyNum key
        m_Datas := insertAt n.m_Datas i n.m_KeyNum data } ∧
      (∀ j, i ≤ j → j < n.m_KeyNum → key < n.m_KeyValues j) ∧
      ∀ j, j + 1 = i → n.m_KeyValues j ≤ key := by
  obtain ⟨i, le, run, above, below⟩ := shift_leaf_spec room key (Nat.le_refl n.m_KeyNum)
  rw [shift_up_none, shift_up_none] at run
  refine ⟨i, le, ?_, above, below⟩
  unfold MAXNUM_LEAF at room
  unfold insertLeaf
  rw [run]
  simp only [Option.bind_eq_bind, Option.bind_some]
  rw [set_key_value (by omega)]
  simp only [Option.bind_some]
  rw [set_data (by unfold MAXNUM_LEAF; omega)]
  rfl

/-- The binary search stays in its interval; what it leaves to the left is below the key
    when the keys are in order, and it stops early only at a key that is not below. -/
theorem search_key_spec (keys : Mem K) (key : K) {fuel left right : Nat} (le : left ≤ right)
    (enough : right ≤ left + fuel) :
    left ≤ searchKey keys key fuel left right ∧ searchKey keys key fuel left right ≤ right ∧
      (searchKey keys key fuel left right < right →
        key ≤ keys (searchKey keys key fuel left right)) ∧
      ((∀ i j, i ≤ j → j < right → keys i ≤ keys j) →
        ∀ j, left ≤ j → j < searchKey keys key fuel left right → keys j < key) := by
  induction fuel generalizing left right with
  | zero =>
    obtain rfl : left = right := by omega
    refine ⟨Nat.le_refl _, Nat.le_refl _, ?_, ?_⟩
    · intro less
      exact absurd less (Nat.lt_irrefl left)
    · intro _ j hj hj'
      exact absurd hj' (Nat.not_lt.mpr hj)
  | succ fuel ih =>
    unfold searchKey
    split
    · next done =>
      subst done
      refine ⟨Nat.le_refl _, Nat.le_refl _, ?_, ?_⟩
      · intro less
        exact absurd less (Nat.lt_irrefl left)
      · intro _ j hj hj'
        exact absurd hj' (Nat.not_lt.mpr hj)
    · next more =>
      dsimp only
      split
      · next above =>
        obtain ⟨lower, upper, stop, below⟩ :=
          @ih ((left + right) / 2 + 1) right (by omega) (by omega)
        refine ⟨by omega, upper, stop, ?_⟩
        intro sorted j hj hj'
        by_cases right_half : (left + right) / 2 + 1 ≤ j
        · exact below sorted j right_half hj'
        · exact lt_of_le_of_lt (sorted j ((left + right) / 2) (by omega) (by omega)) above
      · next notAbove =>
        obtain ⟨lower, upper, stop, below⟩ := @ih left ((left + right) / 2) (by omega) (by omega)
        refine ⟨lower, by omega, ?_, ?_⟩
        · intro _
          rcases Nat.eq_or_lt_of_le upper with here | before
          · rw [here]
            exact not_lt.mp notAbove
          · exact stop before
        · intro sorted j hj hj'
          exact below (fun i j hij hj => sorted i j hij (by omega)) j hj hj'

theorem get_key_index_spec (key : K) (pos : 0 < n.m_KeyNum) :
    ∃ i < n.m_KeyNum, n.getKeyIndex key = some i ∧
      (i + 1 < n.m_KeyNum → key ≤ n.m_KeyValues i) ∧
      ((∀ i j, i ≤ j → j + 1 < n.m_KeyNum → n.m_KeyValues i ≤ n.m_KeyValues j) →
        ∀ j < i, n.m_KeyValues j < key) := by
  obtain ⟨k, num⟩ := Nat.exists_eq_succ_of_ne_zero (Nat.ne_of_gt pos)
  obtain ⟨_, upper, stop, below⟩ :=
    search_key_spec n.m_KeyValues key (Nat.zero_le k) (show k ≤ 0 + k by omega)
  refine ⟨searchKey n.m_KeyValues key k 0 k, by omega, ?_, ?_, ?_⟩
  · unfold getKeyIndex
    rw [num]
  · intro before
    exact stop (by omega)
  · intro sorted j hj
    exact below (fun i j hij hj => sorted i j hij (by omega)) j (Nat.zero_le j) hj

/-- A leaf with the given entries in its used slots. -/
structure Holding (n : CNode K) (es : List (K × Int)) : Prop where
  type : n.m_Type = .LEAF
  keys : slice n.m_KeyValues 0 n.m_KeyNum = es.map Prod.fst
  datas : slice n.m_Datas 0 n.m_KeyNum = es.map Prod.snd

namespace Holding

variable {es pre post : List (K × Int)} {e : K × Int}

omit [LinearOrder K] in
theorem count (holding : n.Holding es) : n.m_KeyNum = es.length := by
  have count := congrArg List.length holding.keys
  rwa [slice_length, List.length_map] at count

omit [LinearOrder K] in
theorem entry (holding : n.Holding (pre ++ e :: post)) :
    n.m_KeyValues pre.length = e.1 ∧ n.m_Datas pre.length = e.2 := by
  obtain ⟨_, keys, datas⟩ := holding
  rw [List.map_append, List.map_cons] at keys datas
  have key := (slice_parts keys).2.2.1
  have data := (slice_parts datas).2.2.1
  rw [List.length_map] at key data
  exact ⟨key, data⟩

theorem insert (holding : n.Holding es) (sorted : (es.map Prod.fst).Pairwise (· ≤ ·))
    (room : es.length < MAXNUM_LEAF) (key : K) (data : Int) :
    ∃ n' es', n.insertLeaf key data = some n' ∧ n'.Holding es' ∧
      es'.Perm ((key, data) :: es) ∧ (es'.map Prod.fst).Pairwise (· ≤ ·) ∧
      n'.m_RightSibling = n.m_RightSibling := by
  have count := holding.count
  obtain ⟨type, keys, datas⟩ := holding
  obtain ⟨i, le, run, above, below⟩ := insert_leaf_spec (count ▸ room) key data
  have in_order := insert_sorted le (keys ▸ sorted) above below
  refine ⟨_, es.take i ++ (key, data) :: es.drop i, run, ⟨type, ?_, ?_⟩, ?_, ?_, rfl⟩
  · change slice (insertAt n.m_KeyValues i n.m_KeyNum key) 0 (n.m_KeyNum + 1) = _
    rw [slice_insert _ _ le, keys, List.map_append, List.map_cons, List.map_take, List.map_drop]
  · change slice (insertAt n.m_Datas i n.m_KeyNum data) 0 (n.m_KeyNum + 1) = _
    rw [slice_insert _ _ le, datas, List.map_append, List.map_cons, List.map_take, List.map_drop]
  · refine List.perm_middle.trans ?_
    rw [List.take_append_drop]
  · rw [List.map_append, List.map_cons, List.map_take, List.map_drop, ← keys]
    exact in_order

omit [LinearOrder K] in
theorem remove (holding : n.Holding (pre ++ e :: post))
    (full : (pre ++ e :: post).length ≤ MAXNUM_LEAF) (childIndex : Nat) :
    ∃ n', n.removeKey pre.length childIndex = some n' ∧ n'.Holding (pre ++ post) ∧
      n'.m_RightSibling = n.m_RightSibling := by
  have count := holding.count
  have used : pre.length < n.m_KeyNum := by
    rw [count, List.length_append, List.length_cons]
    omega
  obtain ⟨type, keys, datas⟩ := holding
  rw [List.map_append, List.map_cons] at keys datas
  refine ⟨_, remove_leaf_spec type used (count ▸ full) childIndex, ⟨type, ?_, ?_⟩, rfl⟩
  · have rest := slice_remove_parts keys
    rwa [List.length_map, ← List.map_append] at rest
  · have rest := slice_remove_parts datas
    rwa [List.length_map, ← List.map_append] at rest

end Holding

end Keys

end UC.BPlusTree.CNode
