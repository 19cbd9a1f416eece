import Mathlib.Data.List.Sort
import UC.BPlusTree.LeafChain
import UC.BPlusTree.SingleLeaf

/- The queries. The one-sided ones divide what is stored: each entry is below, at or above
   the compared key. -/
namespace UC.BPlusTree
open UC.Memory UC.Slots UC.Chains UC.BPlusTree.Tree

inductive CompareOperator where
  | LT
  | LE
  | EQ
  | BE
  | BT
  | BETWEEN
  deriving DecidableEq

structure SelectResult where
  keyIndex : Nat
  targetNode : Ptr

section Queries

variable {K : Type} [LinearOrder K]

/-- The recursive_search with a SelectResult. -/
def Heap.recursiveSearchResult (h : Heap K) (key : K) : Nat → Option Ptr → Option SelectResult
  | 0, _ => none
  | fuel + 1, pNode => do
    let p ← pNode
    let n ← h.cells p
    let keyIndex ← n.getKeyIndex key
    let childIndex := n.getChildIndex key keyIndex
    match n.m_Type with
    | .LEAF => some ⟨keyIndex, p⟩
    | .INTERNAL => recursiveSearchResult h key fuel (n.m_Childs childIndex)

omit [LinearOrder K] in
/-- The loops over leaves: from slot i of leaf itr on, and on to the right until itr is the
    node to stop at. The result also has the last i. -/
def Heap.scan (h : Heap K) (stop : Option Ptr) : Nat → Option Ptr → Nat → Option (List Int × Nat)
  | 0, _, _ => none
  | fuel + 1, itr, i =>
    if itr = stop then some ([], i)
    else do
      let p ← itr
      let n ← h.cells p
      let (rest, last) ← scan h stop fuel n.m_RightSibling 0
      some (slice n.m_Datas i (n.m_KeyNum - i) ++ rest, last)

namespace CBPlusTree

def searchResult (t : CBPlusTree K) (key : K) : Option SelectResult :=
  t.heap.recursiveSearchResult key t.heap.depthBound t.m_Root

omit [LinearOrder K] in
def dataFrom (t : CBPlusTree K) (itr : Option Ptr) : Option (List Int) :=
  (t.heap.scan none t.heap.depthBound itr 0).map Prod.fst

/-- The switch of select, for a compared key in the range of the tree. -/
def selectInside (t : CBPlusTree K) (compareKey : K) (compareOperator : CompareOperator) :
    Option (List Int) := do
  let ⟨keyIndex, targetNode⟩ ← t.searchResult compareKey
  let n ← t.heap.cells targetNode
  match compareOperator with
  | .LT | .LE =>
    let (before, _) ← t.heap.scan (some targetNode) t.heap.depthBound t.m_DataHead 0
    let last := if n.m_KeyValues keyIndex < compareKey ∨
        compareOperator = .LE ∧ compareKey = n.m_KeyValues keyIndex then
      [n.m_Datas keyIndex] else []
    some (before ++ slice n.m_Datas 0 keyIndex ++ last)
  | .EQ => some (if n.m_KeyValues keyIndex = compareKey then [n.m_Datas keyIndex] else [])
  | .BE | .BT =>
    let first := if compareKey < n.m_KeyValues keyIndex ∨
        compareOperator = .BE ∧ compareKey = n.m_KeyValues keyIndex then
      [n.m_Datas keyIndex] else []
    let after ← t.dataFrom n.m_RightSibling
    some (first ++ slice n.m_Datas (keyIndex + 1) (n.m_KeyNum - (keyIndex + 1)) ++ after)
  | .BETWEEN => some []

/-- What select has found before it sorts. -/
def selectUnsorted (t : CBPlusTree K) (compareKey : K) (compareOperator : CompareOperator) :
    Option (List Int) :=
  if t.m_Root = none then some []
  else if compareKey > t.m_MaxKey then
    if compareOperator = .LE ∨ compareOperator = .LT then t.dataFrom t.m_DataHead else some []
  else do
    let head ← t.m_DataHead
    let n ← t.heap.cells head
    if compareKey < n.m_KeyValues 0 then
      if compareOperator = .BE ∨ compareOperator = .BT then t.dataFrom (some head) else some []
    else t.selectInside compareKey compareOperator

def select (t : CBPlusTree K) (compareKey : K) (compareOperator : CompareOperator) :
    Option (List Int) :=
  (t.selectUnsorted compareKey compareOperator).map (List.insertionSort (· ≤ ·))

end CBPlusTree

end Queries

variable {K : Type}

section Scan

variable {h : Heap K}

theorem scan_stop (stop : Option Ptr) (fuel i : Nat) :
    h.scan stop (fuel + 1) stop i = some ([], i) := by
  unfold Heap.scan
  exact if_pos rfl

theorem scan_chain {ls : List (Leaf K)} {stop : Option Ptr} (chained : Chained h ls stop)
    (before : ∀ leaf ∈ ls, some leaf.ptr ≠ stop) {fuel : Nat} (enough : ls.length < fuel) :
    h.scan stop fuel (begins ls stop) 0 = some (ls.flatMap datas, 0) := by
  induction ls generalizing fuel with
  | nil =>
    obtain ⟨fuel, rfl⟩ := Nat.exists_eq_succ_of_ne_zero (Nat.ne_of_gt enough)
    exact scan_stop stop fuel 0
  | cons leaf ls ih =>
    obtain ⟨fuel, rfl⟩ := Nat.exists_eq_succ_of_ne_zero (Nat.ne_of_gt (Nat.zero_lt_of_lt enough))
    obtain ⟨⟨n, cell, _, _, datas_n, sibling⟩, later⟩ := chained
    have rest := ih later (fun leaf mem => before leaf (List.mem_cons_of_mem _ mem))
      (Nat.lt_of_succ_lt_succ enough)
    have next : n.m_RightSibling = begins ls stop := sibling
    unfold Heap.scan
    rw [begins_cons, if_neg (before leaf List.mem_cons_self)]
    simp only [cell, next, rest, Option.bind_eq_bind, Option.bind_some, Nat.sub_zero]
    rw [datas_n]
    rfl

end Scan

variable [LinearOrder K]

theorem recursive_search_result {h : Heap K} {d : Nat} {T : Tree K d} {tail : Option Ptr}
    {lo fuel : Nat} (repr : Repr h d T tail) (within : Within lo d T) (pos : 1 ≤ lo)
    (deep : d < fuel) (key : K) :
    ∃ leaf ∈ leaves d T, ∃ n i, h.cells leaf.ptr = some n ∧ n.getKeyIndex key = some i ∧
      h.recursiveSearchResult key fuel (some (ptr d T)) = some ⟨i, leaf.ptr⟩ := by
  induction d generalizing tail lo fuel with
  | zero =>
    obtain ⟨fuel, rfl⟩ := Nat.exists_eq_succ_of_ne_zero (Nat.ne_of_gt deep)
    obtain ⟨n, i, cell, type, index⟩ := leaf_routed repr within pos key
    refine ⟨T, List.mem_singleton_self _, n, i, cell, index, ?_⟩
    unfold Heap.recursiveSearchResult
    simp only [cell, index, type, Option.bind_eq_bind, Option.bind_some]
    rfl
  | succ d ih =>
    obtain ⟨fuel, rfl⟩ := Nat.exists_eq_succ_of_ne_zero (Nat.ne_of_gt (Nat.zero_lt_of_lt deep))
    obtain ⟨n, i, p, pre, k, post, rfl, cell, type, index, childIndex, child⟩ :=
      routed repr within pos key
    obtain ⟨leaf, mem, at_leaf⟩ :=
      ih (repr_kid repr) (within_kid within) (by decide) (Nat.lt_of_succ_lt_succ deep)
    refine ⟨leaf, List.mem_flatMap.mpr ⟨k, List.mem_append_right _ List.mem_cons_self, mem⟩, ?_⟩
    unfold Heap.recursiveSearchResult
    simp only [ptr_node, cell, index, type, childIndex, child, Option.bind_eq_bind,
      Option.bind_some]
    exact at_leaf

/-- The entry e of a leaf at which the search of a key ends, among the leaves of the tree. -/
structure EndsAt (t : CBPlusTree K) (ls : List (Leaf K)) (key : K) (n : CNode K)
    (before : List (Leaf K)) (leaf : Leaf K) (after : List (Leaf K)) (pre : List (K × Int))
    (e : K × Int) (post : List (K × Int)) : Prop where
  parts : ls = before ++ leaf :: after
  result : t.searchResult key = some ⟨pre.length, leaf.ptr⟩
  at_e : LeafIndex t.heap leaf key n pre e post
  chained : Chained t.heap before (some leaf.ptr)
  apart : ∀ other ∈ before, some other.ptr ≠ some leaf.ptr
  rest : Chained t.heap after none
  sibling : n.m_RightSibling = begins after none
  head : t.m_DataHead = begins before (some leaf.ptr)
  few : before.length < t.heap.depthBound ∧ after.length < t.heap.depthBound

namespace Shape

variable {t : CBPlusTree K} {d : Nat} {T : Tree K d}

theorem few_leaves {lo : Nat} (shape : Shape t lo d T) :
    (leaves d T).length < t.heap.depthBound := by
  rw [← List.length_map Leaf.ptr]
  exact Nat.lt_succ_of_le (Nat.le_trans (leaves_are_nodes T).length_le shape.size)

theorem search_result_spec (shape : Shape t 1 d T) (key : K) :
    ∃ n before leaf after pre e post,
      EndsAt t (leaves d T) key n before leaf after pre e post := by
  obtain ⟨leaf, mem, n, i, cell, index, run⟩ :=
    recursive_search_result shape.repr shape.within (Nat.le_refl 1) shape.deep key
  have within_leaf := leaf_within shape.within (Nat.le_refl 1) mem
  obtain ⟨chained, start⟩ := leaves_chained shape.repr shape.within
  have nodup := shape.placed.nodup.sublist (leaves_are_nodes T)
  have few := shape.few_leaves
  obtain ⟨before, after, parts⟩ := List.append_of_mem mem
  rw [parts, chained_middle] at chained
  rw [parts, begins_append, begins_cons] at start
  rw [parts, List.map_append, List.map_cons] at nodup
  rw [parts, List.length_append, List.length_cons] at few
  obtain ⟨front, repr_leaf, rest⟩ := chained
  obtain ⟨n', pre, e, post, at_e, sibling⟩ :=
    leaf_index_exists repr_leaf within_leaf (num_bounds within_leaf).1 key
  cases Option.some.inj (cell.symm.trans at_e.cell)
  cases Option.some.inj (index.symm.trans at_e.index)
  refine ⟨n, before, leaf, after, pre, e, post, parts, ?_, at_e, front, ?_, rest, sibling, ?_, ?_⟩
  · unfold CBPlusTree.searchResult
    rw [shape.root]
    exact run
  · intro other mem_other eq
    have apart := (List.nodup_append.mp nodup).2.2 _ (List.mem_map_of_mem mem_other) _
      List.mem_cons_self
    exact apart (Option.some.inj eq)
  · rw [shape.head, ← start]
  · omega

theorem head_cell {lo : Nat} (shape : Shape t lo d T) :
    ∃ n, t.heap.cells (first d T) = some n := by
  obtain ⟨chained, start⟩ := leaves_chained shape.repr shape.within
  cases list : leaves d T with
  | nil =>
    rw [list] at start
    cases start
  | cons leaf ls =>
    rw [list] at chained start
    obtain ⟨n, cell, _⟩ := chained.1
    have head : leaf.ptr = first d T := Option.some.inj start
    exact ⟨n, head ▸ cell⟩

theorem data_from_head {lo : Nat} (shape : Shape t lo d T) :
    t.dataFrom t.m_DataHead = some ((entries d T).map Prod.snd) := by
  obtain ⟨chained, start⟩ := leaves_chained shape.repr shape.within
  unfold CBPlusTree.dataFrom
  rw [shape.head, ← start, scan_chain chained (fun _ _ => Option.some_ne_none _) shape.few_leaves,
    leaves_datas]
  rfl

end Shape

namespace EndsAt

variable {t : CBPlusTree K} {ls before after : List (Leaf K)} {leaf : Leaf K} {key : K}
  {n : CNode K} {pre post : List (K × Int)} {e : K × Int}

/-- What is stored to the left and to the right of the entry. -/
def lower (before : List (Leaf K)) (pre : List (K × Int)) : List Int :=
  before.flatMap datas ++ pre.map Prod.snd

def upper (post : List (K × Int)) (after : List (Leaf K)) : List Int :=
  post.map Prod.snd ++ after.flatMap datas

theorem stored (ends : EndsAt t ls key n before leaf after pre e post) :
    ls.flatMap datas = lower before pre ++ e.2 :: upper post after := by
  have here : datas leaf = pre.map Prod.snd ++ e.2 :: post.map Prod.snd := by
    unfold datas
    rw [show leaf.entries = pre ++ e :: post from ends.at_e.parts, List.map_append, List.map_cons]
  rw [ends.parts, List.flatMap_append, List.flatMap_cons, here]
  unfold lower upper
  simp only [List.append_assoc, List.cons_append]

theorem scan_before (ends : EndsAt t ls key n before leaf after pre e post) :
    t.heap.scan (some leaf.ptr) t.heap.depthBound t.m_DataHead 0 =
      some (before.flatMap datas, 0) := by
  rw [ends.head]
  exact scan_chain ends.chained ends.apart ends.few.1

theorem data_after (ends : EndsAt t ls key n before leaf after pre e post) :
    t.dataFrom n.m_RightSibling = some (after.flatMap datas) := by
  unfold CBPlusTree.dataFrom
  rw [ends.sibling, scan_chain ends.rest (fun _ _ => Option.some_ne_none _) ends.few.2]
  rfl

/-- The entry itself is in the answer when its key is on the right side. -/
def answer (before : List (Leaf K)) (pre : List (K × Int)) (e : K × Int) (post : List (K × Int))
    (after : List (Leaf K)) (key : K) : CompareOperator → List Int
  | .LT => lower before pre ++ if e.1 < key then [e.2] else []
  | .LE => lower before pre ++ if e.1 ≤ key then [e.2] else []
  | .EQ => if e.1 = key then [e.2] else []
  | .BE => (if key ≤ e.1 then [e.2] else []) ++ upper post after
  | .BT => (if key < e.1 then [e.2] else []) ++ upper post after
  | .BETWEEN => []

theorem select_inside_spec (ends : EndsAt t ls key n before leaf after pre e post)
    (op : CompareOperator) :
    t.selectInside key op = some (answer before pre e post after key op) := by
  obtain ⟨_, datas_pre, _, datas_post⟩ := slice_parts ends.at_e.datas
  rw [List.length_map] at datas_pre datas_post
  rw [List.length_map] at datas_post
  have rest : n.m_KeyNum - (pre.length + 1) = post.length := by
    rw [ends.at_e.count]
    omega
  have cell : t.heap.cells leaf.ptr = some n := ends.at_e.cell
  unfold CBPlusTree.selectInside
  simp only [ends.result, cell, ends.scan_before, ends.data_after, ends.at_e.key_here,
    ends.at_e.data_here, rest, datas_pre, datas_post, Option.bind_eq_bind, Option.bind_some]
  cases op with
  | LT => simp only [answer, lower, reduceCtorEq, false_and, or_false]
  | LE => simp only [answer, lower, true_and, le_iff_lt_or_eq, eq_comm]
  | EQ => rfl
  | BE => simp only [answer, upper, true_and, le_iff_lt_or_eq, List.append_assoc]
  | BT => simp only [answer, upper, reduceCtorEq, false_and, or_false, List.append_assoc]
  | BETWEEN => rfl

end EndsAt

/-- The answers to the one-sided queries with one key divide what is stored. -/
structure Divides (answer : CompareOperator → List Int) (stored : List Int) : Prop where
  all : (answer .LT ++ answer .EQ ++ answer .BT).Perm stored
  atMost : (answer .LE).Perm (answer .LT ++ answer .EQ)
  atLeast : (answer .BE).Perm (answer .EQ ++ answer .BT)

namespace Divides

variable {stored : List Int}

theorem at_entry (before : List (Leaf K)) (pre : List (K × Int)) (e : K × Int)
    (post : List (K × Int)) (after : List (Leaf K)) (key : K) :
    Divides (EndsAt.answer before pre e post after key)
      (EndsAt.lower before pre ++ e.2 :: EndsAt.upper post after) := by
  unfold EndsAt.answer
  rcases lt_trichotomy e.1 key with less | same | more
  · constructor
    · simp [less, less.ne, less.asymm]
    · simp [less, less.le, less.ne]
    · simp [less.not_ge, less.ne, less.asymm]
  · constructor
    · simp [same]
    · simp [same]
    · simp [same]
  · constructor
    · simp [more, more.ne', more.asymm]
    · simp [more.not_ge, more.ne', more.asymm]
    · simp [more, more.le, more.ne']

theorem sorted {answer : CompareOperator → List Int} (divides : Divides answer stored) :
    Divides (fun op => (answer op).insertionSort (· ≤ ·)) stored := by
  have same := fun op => List.perm_insertionSort (· ≤ ·) (answer op)
  constructor
  · exact (((same .LT).append (same .EQ)).append (same .BT)).trans divides.all
  · exact ((same .LE).trans divides.atMost).trans ((same .LT).append (same .EQ)).symm
  · exact ((same .BE).trans divides.atLeast).trans ((same .EQ).append (same .BT)).symm

end Divides

/-- Whichever branch of select the compared key leads to, its answers divide the data. -/
theorem Shape.select_unsorted_divides {t : CBPlusTree K} {d : Nat} {T : Tree K d}
    (shape : Shape t 1 d T) (key : K) :
    ∃ answer, (∀ op, t.selectUnsorted key op = some (answer op)) ∧
      Divides answer ((leaves d T).flatMap datas) := by
  have all := shape.data_from_head
  rw [← leaves_datas] at all
  have some_root : t.m_Root ≠ none := by
    rw [shape.root]
    exact Option.some_ne_none _
  by_cases above : key > t.m_MaxKey
  · refine ⟨fun op => if op = .LE ∨ op = .LT then (leaves d T).flatMap datas else [], ?_, ?_⟩
    · intro op
      unfold CBPlusTree.selectUnsorted
      rw [if_neg some_root, if_pos above, all]
      exact (apply_ite some _ _ _).symm
    · constructor <;> simp
  · obtain ⟨n, cell⟩ := shape.head_cell
    by_cases below : key < n.m_KeyValues 0
    · refine ⟨fun op => if op = .BE ∨ op = .BT then (leaves d T).flatMap datas else [], ?_, ?_⟩
      · intro op
        rw [shape.head] at all
        unfold CBPlusTree.selectUnsorted
        rw [if_neg some_root, if_neg above, shape.head]
        simp only [cell, Option.bind_eq_bind, Option.bind_some]
        rw [if_pos below, all]
        exact (apply_ite some _ _ _).symm
      · constructor <;> simp
    · obtain ⟨n', before, leaf, after, pre, e, post, ends⟩ := shape.search_result_spec key
      rw [ends.stored]
      refine ⟨_, ?_, Divides.at_entry before pre e post after key⟩
      intro op
      unfold CBPlusTree.selectUnsorted
      rw [if_neg some_root, if_neg above, shape.head]
      simp only [cell, Option.bind_eq_bind, Option.bind_some]
      rw [if_neg below]
      exact ends.select_inside_spec op

/-- On every tree insertions make, the empty one included, the queries below, at and above a
    key divide the stored data, and the ones with equality add what is at the key. -/
theorem one_sided_queries_divide (raw : Ptr → CNode K) (m_MaxKey : K) (pairs : List (K × Int))
    (compareKey : K) :
    ∃ t accepted ls, insertAll (CBPlusTree.empty raw m_MaxKey) pairs = some (t, accepted) ∧
      t.printData = some ls ∧ (ls.flatMap Prod.snd).Perm (accepted.map Prod.snd) ∧
      ∃ answer, (∀ op, t.select compareKey op = some (answer op)) ∧
        Divides answer (ls.flatMap Prod.snd) := by
  rcases inserted_tree raw m_MaxKey pairs with ⟨rfl, run⟩ | ⟨t, accepted, d, T, run, shape, stored⟩
  · exact ⟨_, _, [], run, rfl, List.Perm.refl _, fun _ => [], fun _ => rfl, by constructor <;> rfl⟩
  · have listed : ((leaves d T).map printed).flatMap Prod.snd = (leaves d T).flatMap datas :=
      List.flatMap_map ..
    obtain ⟨answer, run_select, divides⟩ := shape.select_unsorted_divides compareKey
    refine ⟨t, accepted, _, run, shape.print_data_spec, ?_, _, ?_, listed ▸ divides.sorted⟩
    · rw [listed, leaves_datas]
      exact stored.map Prod.snd
    · intro op
      unfold CBPlusTree.select
      rw [run_select op]
      rfl

end UC.BPlusTree
