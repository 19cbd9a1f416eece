import Mathlib.Data.Multiset.AddSub
import UC.BPlusTree.Lookups
import UC.BPlusTree.Select
import UC.Lib.Cuts

/- The range query. While all keys are in one leaf it agrees with the one-sided queries. -/
namespace UC.BPlusTree
open UC.Memory UC.Slots UC.Cuts UC.Bindings UC.BPlusTree.Tree

variable {K : Type} [LinearOrder K]

/-- What the select of a range has found before it sorts. -/
def CBPlusTree.selectRangeUnsorted (t : CBPlusTree K) (smallKey largeKey : K) :
    Option (List Int) :=
  if smallKey ≤ largeKey then do
    let start ← t.searchResult smallKey
    let last ← t.searchResult largeKey
    let n ← t.heap.cells start.targetNode
    let i := if n.m_KeyValues start.keyIndex < smallKey then start.keyIndex + 1
      else start.keyIndex
    let m ← t.heap.cells last.targetNode
    -- an int, so that index 0 may go down to -1
    let keyIndex : Int := if m.m_KeyValues last.keyIndex > largeKey then last.keyIndex - 1
      else last.keyIndex
    let (results, i) ← t.heap.scan (some last.targetNode) t.heap.depthBound
      (some start.targetNode) i
    some (results ++ slice m.m_Datas i (keyIndex + 1 - i).toNat)
  else some []

def CBPlusTree.selectRange (t : CBPlusTree K) (smallKey largeKey : K) : Option (List Int) :=
  (t.selectRangeUnsorted smallKey largeKey).map (List.insertionSort (· ≤ ·))

theorem LeafIndex.sides {h : Heap K} {T : Tree K 0} {key : K} {n : CNode K}
    {pre post : List (K × Int)} {e : K × Int} (at_e : LeafIndex h T key n pre e post)
    (sorted : (leafKeys T).Pairwise (· < ·)) :
    (∀ x ∈ pre, x.1 < key) ∧ (∀ x ∈ post, key ≤ e.1 ∧ e.1 < x.1) := by
  have keys : leafKeys T = pre.map Prod.fst ++ e.1 :: post.map Prod.fst := by
    unfold leafKeys
    rw [at_e.parts, List.map_append, List.map_cons]
  have used := at_e.keys
  obtain ⟨_, before, here, _⟩ := slice_parts used
  rw [List.length_map] at before here
  have count := at_e.count
  obtain ⟨i, _, index, stop, below⟩ :=
    CNode.get_key_index_spec key (show 0 < n.m_KeyNum by rw [count]; omega)
  cases Option.some.inj (index.symm.trans at_e.index)
  rw [keys] at sorted
  have in_order : ∀ i j, i ≤ j → j + 1 < n.m_KeyNum → n.m_KeyValues i ≤ n.m_KeyValues j := by
    intro i j le inside
    rw [← used, pairwise_slice] at sorted
    rcases Nat.eq_or_lt_of_le le with rfl | less
    · exact le_refl _
    · exact le_of_lt (sorted i j less (Nat.lt_of_succ_lt inside))
  constructor
  · intro x mem
    have key_x : x.1 ∈ slice n.m_KeyValues 0 pre.length := by
      rw [before]
      exact List.mem_map_of_mem mem
    obtain ⟨j, less, eq⟩ := mem_slice.mp key_x
    rw [Nat.zero_add] at eq
    rw [← eq]
    exact below in_order j less
  · intro x mem
    have some_post : 0 < post.length := List.length_pos_of_mem mem
    constructor
    · rw [← here]
      exact stop (by omega)
    · have behind := (List.pairwise_append.mp sorted).2.1
      exact (List.pairwise_cons.mp behind).1 _ (List.mem_map_of_mem mem)

section Leaf

variable {t : CBPlusTree K} {T : Tree K 0}

/-- A tree of one leaf with its keys in strict order, none of them above m_MaxKey. -/
structure OneLeaf (t : CBPlusTree K) (T : Tree K 0) : Prop where
  shape : Shape t 1 0 T
  sorted : (leafKeys T).Pairwise (· < ·)
  upper : ∀ x ∈ entries 0 T, x.1 ≤ t.m_MaxKey

/-- The keys that select for BE and for BT are to find. -/
def Reaches (key : K) : Bool → K × Int → Prop
  | true, x => key ≤ x.1
  | false, x => key < x.1

instance (key : K) (equal : Bool) (x : K × Int) : Decidable (Reaches key equal x) := by
  cases equal
  · exact inferInstanceAs (Decidable (key < x.1))
  · exact inferInstanceAs (Decidable (key ≤ x.1))

theorem reaches_le {key : K} {equal : Bool} {x : K × Int} (reaches : Reaches key equal x) :
    key ≤ x.1 := by
  cases equal
  · exact le_of_lt reaches
  · exact reaches

theorem reaches_of_lt {key : K} (equal : Bool) {x : K × Int} (less : key < x.1) :
    Reaches key equal x := by
  cases equal
  · exact less
  · exact le_of_lt less

namespace OneLeaf

theorem search_result_spec (one : OneLeaf t T) (key : K) :
    ∃ n pre e post, EndsAt t [T] key n [] T [] pre e post := by
  obtain ⟨n, before, leaf, after, pre, e, post, ends⟩ := one.shape.search_result_spec key
  have parts : [T] = before ++ leaf :: after := ends.parts
  obtain ⟨rfl, same⟩ := List.append_eq_singleton_iff.mp parts.symm |>.resolve_right
    fun other => List.cons_ne_nil _ _ other.2
  obtain ⟨rfl, rfl⟩ := List.cons.inj same
  exact ⟨n, pre, e, post, ends⟩

theorem cut_at {key : K} {n : CNode K} {pre post : List (K × Int)} {e : K × Int}
    (one : OneLeaf t T) (at_e : LeafIndex t.heap T key n pre e post) (equal : Bool) :
    Cut (Reaches key equal) (entries 0 T)
      (if Reaches key equal e then pre.length else pre.length + 1) := by
  obtain ⟨low, high⟩ := at_e.sides one.sorted
  rw [at_e.parts]
  apply cut_parts
  · intro x mem reaches
    exact not_lt.mpr (reaches_le reaches) (low x mem)
  · intro x mem
    obtain ⟨le, less⟩ := high x mem
    exact reaches_of_lt equal (lt_of_le_of_lt le less)

theorem least_key (one : OneLeaf t T) {n : CNode K} (cell : t.heap.cells (first 0 T) = some n)
    {x : K × Int} (mem : x ∈ entries 0 T) : n.m_KeyValues 0 ≤ x.1 := by
  obtain ⟨n', cell', _, keys, _⟩ := one.shape.repr
  cases Option.some.inj (cell.symm.trans cell')
  have sorted := one.sorted
  have key : x.1 ∈ slice n.m_KeyValues 0 n.m_KeyNum := by
    rw [keys]
    exact List.mem_map_of_mem mem
  unfold leafKeys at sorted
  change ((Leaf.entries T).map Prod.fst).Pairwise _ at sorted
  rw [← keys, pairwise_slice] at sorted
  obtain ⟨j, inside, eq⟩ := mem_slice.mp key
  rw [Nat.zero_add] at eq
  rw [← eq]
  rcases Nat.eq_zero_or_pos j with rfl | pos
  · exact le_refl _
  · exact le_of_lt (sorted 0 j pos inside)

theorem select_cut (one : OneLeaf t T) (key : K) (equal : Bool) :
    ∃ i, Cut (Reaches key equal) (entries 0 T) i ∧
      t.selectUnsorted key (if equal then .BE else .BT) =
        some (((entries 0 T).drop i).map Prod.snd) := by
  have some_root : t.m_Root ≠ none := by
    rw [one.shape.root]
    exact Option.some_ne_none _
  unfold CBPlusTree.selectUnsorted
  rw [if_neg some_root]
  by_cases above : key > t.m_MaxKey
  · refine ⟨_, cut_none ?_, ?_⟩
    · intro x mem reaches
      exact not_lt.mpr (le_trans (reaches_le reaches) (one.upper x mem)) above
    · rw [if_pos above, List.drop_length]
      cases equal <;> rfl
  · rw [if_neg above]
    obtain ⟨n, cell⟩ := one.shape.head_cell
    rw [one.shape.head]
    simp only [cell, Option.bind_eq_bind, Option.bind_some]
    by_cases below : key < n.m_KeyValues 0
    · refine ⟨0, cut_all ?_, ?_⟩
      · intro x mem
        exact reaches_of_lt equal (lt_of_lt_of_le below (one.least_key cell mem))
      · have all := one.shape.data_from_head
        rw [one.shape.head] at all
        rw [if_pos below, List.drop_zero, all]
        cases equal <;> rfl
    · obtain ⟨m, pre, e, post, ends⟩ := one.search_result_spec key
      refine ⟨_, one.cut_at ends.at_e equal, ?_⟩
      rw [if_neg below, ends.select_inside_spec]
      have parts : entries 0 T = pre ++ e :: post := ends.at_e.parts
      have found : (entries 0 T).drop
          (if Reaches key equal e then pre.length else pre.length + 1) =
          (if Reaches key equal e then [e] else []) ++ post := by
        rw [parts]
        split
        · exact List.drop_left' rfl
        · rw [List.append_cons]
          exact List.drop_left' (by rw [List.length_append, List.length_singleton])
      rw [found]
      cases equal with
      | false =>
        change some ((if key < e.1 then [e.2] else []) ++ (post.map Prod.snd ++ [])) =
          some (((if key < e.1 then [e] else []) ++ post).map Prod.snd)
        rw [List.append_nil, List.map_append]
        split <;> rfl
      | true =>
        change some ((if key ≤ e.1 then [e.2] else []) ++ (post.map Prod.snd ++ [])) =
          some (((if key ≤ e.1 then [e] else []) ++ post).map Prod.snd)
        rw [List.append_nil, List.map_append]
        split <;> rfl

omit [LinearOrder K] in
theorem slice_between (m : Mem Int) {n i j : Nat} (inside : j ≤ n) :
    slice m i (j - i) = ((slice m 0 n).take j).drop i := by
  rw [slice_take, Nat.min_eq_right inside]
  rcases Nat.le_total i j with le | le
  · exact (slice_drop m le).symm
  · rw [Nat.sub_eq_zero_of_le le, slice_zero, List.drop_of_length_le]
    rw [slice_length]
    exact le

/-- A range is what lies between two cuts. -/
theorem range_between (one : OneLeaf t T) {smallKey largeKey : K} (le : smallKey ≤ largeKey) :
    ∃ i j, Cut (Reaches smallKey true) (entries 0 T) i ∧
      Cut (Reaches largeKey false) (entries 0 T) j ∧
      t.selectRangeUnsorted smallKey largeKey =
        some ((((entries 0 T).take j).drop i).map Prod.snd) := by
  obtain ⟨n, pre, e, post, start⟩ := one.search_result_spec smallKey
  obtain ⟨n', pre', e', post', last⟩ := one.search_result_spec largeKey
  have cell : t.heap.cells (Leaf.ptr T) = some n := start.at_e.cell
  cases Option.some.inj (cell.symm.trans last.at_e.cell)
  refine ⟨_, _, one.cut_at start.at_e true, one.cut_at last.at_e false, ?_⟩
  have used : slice n.m_Datas 0 n.m_KeyNum = (entries 0 T).map Prod.snd := by
    rw [last.at_e.datas, show entries 0 T = pre' ++ e' :: post' from last.at_e.parts,
      List.map_append, List.map_cons]
  have count := last.at_e.count
  have from_start : (if e.1 < smallKey then pre.length + 1 else pre.length) =
      if Reaches smallKey true e then pre.length else pre.length + 1 := by
    by_cases less : e.1 < smallKey
    · rw [if_pos less, if_neg (show ¬ Reaches smallKey true e from not_le.mpr less)]
    · rw [if_neg less, if_pos (show Reaches smallKey true e from not_lt.mp less)]
  have to_last : ((if e'.1 > largeKey then (pre'.length : Int) - 1 else pre'.length) + 1) =
      ((if Reaches largeKey false e' then pre'.length else pre'.length + 1 : Nat) : Int) := by
    by_cases more : e'.1 > largeKey
    · rw [if_pos more, if_pos (show Reaches largeKey false e' from more), Int.sub_add_cancel]
    · rw [if_neg more, if_neg (show ¬ Reaches largeKey false e' from more)]
      rfl
  have inside : (if Reaches largeKey false e' then pre'.length else pre'.length + 1) ≤
      n.m_KeyNum := by
    split <;> omega
  unfold CBPlusTree.selectRangeUnsorted Heap.depthBound
  rw [if_pos le]
  simp only [start.result, last.result, cell, start.at_e.key_here, last.at_e.key_here, scan_stop,
    from_start, to_last, Option.bind_eq_bind, Option.bind_some, List.nil_append]
  rw [Int.toNat_sub, List.map_drop, List.map_take,
    ← used, slice_between _ inside]

end OneLeaf

end Leaf

/-- The range query ends, with what BE finds from the small key on less what BT finds behind
    the large one. -/
def RangeAgrees (t : CBPlusTree K) : Prop :=
  ∀ smallKey largeKey, smallKey ≤ largeKey →
    ∃ between atLeast above, t.selectRange smallKey largeKey = some between ∧
      t.select smallKey .BE = some atLeast ∧ t.select largeKey .BT = some above ∧
      (between : Multiset Int) = (atLeast : Multiset Int) - (above : Multiset Int)

theorem OneLeaf.range_agrees {t : CBPlusTree K} {T : Tree K 0} (one : OneLeaf t T) :
    RangeAgrees t := by
  intro smallKey largeKey le
  obtain ⟨i, j, low, high, between⟩ := one.range_between le
  obtain ⟨i', low', atLeast⟩ := one.select_cut smallKey true
  obtain ⟨j', high', above⟩ := one.select_cut largeKey false
  have weaker : ∀ x : K × Int, Reaches largeKey false x → Reaches smallKey true x :=
    fun x less => le_trans le (le_of_lt less)
  have parts := cut_between weaker low high
  rw [cut_unique low' low, parts] at atLeast
  rw [cut_unique high' high] at above
  refine ⟨_, _, _, congrArg _ between, congrArg _ atLeast, congrArg _ above, ?_⟩
  have sorted := fun l : List Int => Multiset.coe_eq_coe.mpr (List.perm_insertionSort (· ≤ ·) l)
  rw [sorted, sorted, sorted, List.map_append, ← Multiset.coe_add, Multiset.add_sub_cancel_right]

namespace TwoLeaves

variable {t : CBPlusTree K} {p : Ptr} {left right : Tree K 0} {sep key : K}

theorem result_at_leaf {h : Heap K} {T : Tree K 0} {tail : Option Ptr} (repr : Repr h 0 T tail)
    (within : Within MINNUM_KEY 0 T) (key : K) (fuel : Nat) :
    ∃ i, h.recursiveSearchResult key (fuel + 1) (some (ptr 0 T)) = some ⟨i, ptr 0 T⟩ := by
  obtain ⟨leaf, mem, _, i, _, _, run⟩ :=
    recursive_search_result repr within (by decide) fuel.succ_pos key
  cases List.mem_singleton.mp mem
  exact ⟨i, run⟩

theorem result_other (two : TwoLeaves t p left right sep) (other : key ≠ sep) :
    ∃ i, t.searchResult key = some ⟨i, ptr 0 left⟩ := by
  obtain ⟨n, cell, fork⟩ := two.fork
  obtain ⟨fuel, enough⟩ := two.some_fuel
  obtain ⟨i, run⟩ := result_at_leaf two.repr_left two.within_left key fuel
  refine ⟨i, ?_⟩
  unfold CBPlusTree.searchResult
  rw [two.shape.root, enough, ptr_node, Heap.recursiveSearchResult]
  simp only [cell, fork.index, fork.child_left other, fork.type, fork.left, Option.bind_eq_bind,
    Option.bind_some]
  exact run

theorem result_sep (two : TwoLeaves t p left right sep) :
    ∃ i, t.searchResult sep = some ⟨i, ptr 0 right⟩ := by
  obtain ⟨n, cell, fork⟩ := two.fork
  obtain ⟨fuel, enough⟩ := two.some_fuel
  obtain ⟨i, run⟩ := result_at_leaf two.repr_right two.within_right sep fuel
  refine ⟨i, ?_⟩
  unfold CBPlusTree.searchResult
  rw [two.shape.root, enough, ptr_node, Heap.recursiveSearchResult]
  simp only [cell, fork.index, fork.child_right, fork.type, fork.right, Option.bind_eq_bind,
    Option.bind_some]
  exact run

/-- From the root's key up to a larger one the scan starts behind the leaf it is to stop at. -/
theorem range_fails (two : TwoLeaves t p left right sep) (above : sep < key) :
    t.selectRange sep key = none := by
  obtain ⟨i, start⟩ := two.result_sep
  obtain ⟨j, last⟩ := two.result_other above.ne'
  obtain ⟨n, cell_l, _⟩ := repr_root two.repr_left
  obtain ⟨m, cell_r, _, _, _, sibling⟩ := two.repr_right
  change t.heap.cells (ptr 0 right) = some m at cell_r
  obtain ⟨fuel, enough⟩ := two.some_fuel
  have apart : some (ptr 0 right) ≠ some (ptr 0 left) :=
    fun eq => two.apart (Option.some.inj eq).symm
  have lost : ∀ i, t.heap.scan (some (ptr 0 left)) t.heap.depthBound (some (ptr 0 right)) i =
      none := by
    intro i
    rw [enough, Heap.scan, if_neg apart]
    simp only [cell_r, sibling, Option.bind_eq_bind, Option.bind_some]
    rw [Heap.scan, if_neg (Option.some_ne_none _).symm]
    rfl
  unfold CBPlusTree.selectRange CBPlusTree.selectRangeUnsorted
  rw [if_pos above.le]
  simp only [start, last, cell_l, cell_r, lost, Option.bind_eq_bind, Option.bind_some,
    Option.bind_none]
  rfl

end TwoLeaves

inductive Change (K : Type) where
  | insert (key : K) (data : Int)
  | remove (key : K)
  | clear

def change (t : CBPlusTree K) : Change K → Option (CBPlusTree K)
  | .insert key data => (t.insert key data).map Prod.fst
  | .remove key => (t.remove key).map Prod.fst
  | .clear => t.clear

def changeAll (t : CBPlusTree K) : List (Change K) → Option (CBPlusTree K)
  | [] => some t
  | call :: calls => (change t call).bind fun t => changeAll t calls

def changed (m : Map K Int) : Change K → Map K Int
  | .insert key data => (apply m (.insert key data)).1
  | .remove key => (apply m (.remove key)).1
  | .clear => ∅

/-- A new key meets a leaf with room. -/
def HasRoom (m : Map K Int) : Change K → Prop
  | .insert key _ => key ∈ m ∨ m.keys.card < MAXNUM_KEY
  | .remove _ => True
  | .clear => True

def AllHaveRoom (m : Map K Int) : List (Change K) → Prop
  | [] => True
  | call :: calls => HasRoom m call ∧ AllHaveRoom (changed m call) calls

/-- Behind the calls the range query agrees unless the tree is empty. -/
def AgreesBehind (t : CBPlusTree K) (calls : List (Change K)) : Prop :=
  ∃ t', changeAll t calls = some t' ∧ (RangeAgrees t' ↔ t'.m_Root ≠ none)

/-- The tree holds the map in at most one leaf, and no key is above m_MaxKey. -/
structure Kept (t : CBPlusTree K) (m : Map K Int) : Prop where
  stands : Stands t m
  upper : ∀ key ∈ m, key ≤ t.m_MaxKey

theorem empty_disagrees {t : CBPlusTree K} (no_root : t.m_Root = none) : ¬ RangeAgrees t := by
  intro agrees
  obtain ⟨between, _, _, run, _⟩ := agrees t.m_MaxKey t.m_MaxKey (le_refl _)
  unfold CBPlusTree.selectRange CBPlusTree.selectRangeUnsorted CBPlusTree.searchResult
    Heap.depthBound at run
  rw [if_pos (le_refl _), no_root, Heap.recursiveSearchResult] at run
  cases run

section Step

variable {t t' : CBPlusTree K} {m : Map K Int}

omit [LinearOrder K] in
theorem grow_root_max (grown : t.growRoot = some t') : t'.m_MaxKey = t.m_MaxKey := by
  unfold CBPlusTree.growRoot at grown
  obtain ⟨root, _, grown⟩ := Option.bind_eq_some_iff.mp grown
  obtain ⟨r, _, grown⟩ := Option.bind_eq_some_iff.mp grown
  split at grown
  · obtain ⟨h, _, grown⟩ := Option.bind_eq_some_iff.mp grown
    obtain ⟨h', _, grown⟩ := Option.bind_eq_some_iff.mp grown
    cases grown
    rfl
  · cases grown
    rfl

theorem insert_max {key : K} {data : Int} (run : t.insert key data = some (t', true)) :
    key ≤ t'.m_MaxKey ∧ (t.m_Root ≠ none → t.m_MaxKey ≤ t'.m_MaxKey) := by
  unfold CBPlusTree.insert at run
  obtain ⟨found, _, run⟩ := Option.bind_eq_some_iff.mp run
  cases found with
  | true => cases run
  | false =>
    obtain ⟨t₁, grown, run⟩ := Option.bind_eq_some_iff.mp run
    obtain ⟨root, _, run⟩ := Option.bind_eq_some_iff.mp run
    obtain ⟨h, _, run⟩ := Option.bind_eq_some_iff.mp run
    cases run
    have same := grow_root_max grown
    have kept : t.m_Root ≠ none → t₁.m_MaxKey = t.m_MaxKey := by
      intro filled
      obtain ⟨root, some_root⟩ := Option.ne_none_iff_exists'.mp filled
      rw [same]
      unfold CBPlusTree.firstLeaf
      rw [some_root]
    by_cases more : key > t₁.m_MaxKey
    · simp only [if_pos more]
      exact ⟨le_refl _, fun filled => kept filled ▸ more.le⟩
    · simp only [if_neg more]
      exact ⟨not_lt.mp more, fun filled => (kept filled).ge⟩

theorem filled_of_mem (stands : Stands t m) {key : K} (mem : key ∈ m) : t.m_Root ≠ none := by
  obtain ⟨l, holds, lists⟩ := stands
  cases holds with
  | empty => exact absurd ((mem_iff lists key).mp mem) List.not_mem_nil
  | leaf shape =>
    rw [shape.root]
    exact Option.some_ne_none _

theorem strict_keys {T : Tree K 0} {lo : Nat} (shape : Shape t lo 0 T)
    (lists : Lists m (entries 0 T)) : (leafKeys T).Pairwise (· < ·) := by
  obtain ⟨_, _, sorted⟩ := shape.within
  exact (sorted.and lists.distinct).imp fun ⟨le, ne⟩ => lt_of_le_of_ne le ne

namespace Kept

theorem insert (kept : Kept t m) {key : K} (data : Int) (room : HasRoom m (.insert key data)) :
    ∃ t', change t (.insert key data) = some t' ∧ Kept t' (changed m (.insert key data)) := by
  obtain ⟨t', run, stands⟩ := stands_insert kept.stands data room
  refine ⟨t', congrArg (Option.map Prod.fst) run, stands, ?_⟩
  change ∀ key' ∈ (apply m (.insert key data)).1, key' ≤ t'.m_MaxKey
  by_cases present : key ∈ m
  · rw [apply, if_pos present] at run ⊢
    have search := stands_search kept.stands key
    rw [decide_eq_true present] at search
    rw [Shape.insert_found search] at run
    cases run
    exact kept.upper
  · rw [apply, if_neg present] at run ⊢
    obtain ⟨here, more⟩ := insert_max run
    intro key' mem
    rcases (Finmap.mem_insert).mp mem with rfl | old
    · exact here
    · exact le_trans (kept.upper key' old) (more (filled_of_mem kept.stands old))

theorem upper_removed (kept : Kept t m) {key : K} {data : Int} (stored : m.lookup key = some data)
    (run : t.removeData key = some (t', true, data)) :
    ∀ key' ∈ m.erase key, key' ≤ t'.m_MaxKey := by
  obtain ⟨⟨l, holds, lists⟩, upper⟩ := kept
  intro key' mem
  obtain ⟨other, old⟩ := Finmap.mem_erase.mp mem
  have present := (mem_iff lists key).mp (Finmap.mem_of_lookup_eq_some stored)
  have present' := (mem_iff lists key').mp old
  cases holds with
  | empty => exact absurd present List.not_mem_nil
  | @leaf T shape =>
    have two : 1 < num 0 T := by
      by_contra few
      have one : (entries 0 T).length = 1 :=
        Nat.le_antisymm (Nat.le_of_not_lt few) (num_bounds shape.within).1
      obtain ⟨e, single⟩ := List.length_eq_one_iff.mp one
      rw [single] at present present'
      have same := List.mem_singleton.mp present
      have same' := List.mem_singleton.mp present'
      exact other (same'.trans same.symm)
    obtain ⟨t'', T', data', run', shape', less, bound⟩ := Holds.remove_one shape two present
    cases Option.some.inj (run.symm.trans run')
    have keys := (less.map Prod.fst).mem_iff.mp present'
    obtain ⟨x, mem_x, rfl⟩ := List.mem_map.mp ((List.mem_cons.mp keys).resolve_left other)
    refine bound ?_ ?_ x mem_x
    · exact strict_keys shape lists
    · intro y mem_y
      exact upper y.1 ((mem_iff lists y.1).mpr (List.mem_map_of_mem mem_y))

theorem remove (kept : Kept t m) (key : K) :
    ∃ t', change t (.remove key) = some t' ∧ Kept t' (changed m (.remove key)) := by
  change ∃ t', (t.remove key).map Prod.fst = some t' ∧ Kept t' (apply m (.remove key)).1
  unfold CBPlusTree.remove
  cases stored : m.lookup key with
  | none =>
    rw [stands_remove_absent kept.stands stored, apply, if_neg (Finmap.lookup_eq_none.mp stored)]
    exact ⟨t, rfl, kept⟩
  | some data =>
    obtain ⟨t', run, stands⟩ := stands_remove_present kept.stands stored
    rw [run, apply, if_pos (Finmap.mem_of_lookup_eq_some stored)]
    exact ⟨t', rfl, stands, kept.upper_removed stored run⟩

theorem clear (kept : Kept t m) : ∃ t', change t .clear = some t' ∧ Kept t' (changed m .clear) := by
  obtain ⟨⟨l, holds, _⟩, _⟩ := kept
  have emptied : ∃ t', t.clear = some t' ∧ t'.m_Root = none := by
    cases holds with
    | empty no_root =>
      unfold CBPlusTree.clear
      rw [no_root]
      exact ⟨t, rfl, no_root⟩
    | leaf shape => exact Holds.clear_leaf shape
  obtain ⟨t', run, no_root⟩ := emptied
  exact ⟨t', run, ⟨[], .empty no_root, lists_empty⟩, fun key mem => absurd mem Finmap.notMem_empty⟩

theorem step (kept : Kept t m) (call : Change K) (room : HasRoom m call) :
    ∃ t', change t call = some t' ∧ Kept t' (changed m call) := by
  cases call with
  | insert key data => exact kept.insert data room
  | remove key => exact kept.remove key
  | clear => exact kept.clear

theorem agrees (kept : Kept t m) : RangeAgrees t ↔ t.m_Root ≠ none := by
  constructor
  · exact fun agrees no_root => empty_disagrees no_root agrees
  · intro filled
    obtain ⟨⟨l, holds, lists⟩, upper⟩ := kept
    cases holds with
    | empty no_root => exact absurd no_root filled
    | leaf shape =>
      have one : OneLeaf t _ := ⟨shape, strict_keys shape lists, fun x mem =>
        upper x.1 ((mem_iff lists x.1).mpr (List.mem_map_of_mem mem))⟩
      exact one.range_agrees

theorem overflow (kept : Kept t m) {call : Change K} (full : ¬ HasRoom m call) :
    ∃ t', change t call = some t' ∧ ¬ (RangeAgrees t' ↔ t'.m_Root ≠ none) := by
  cases call with
  | remove key => exact absurd trivial full
  | clear => exact absurd trivial full
  | insert key data =>
    obtain ⟨new, many⟩ := not_or.mp full
    have search := stands_search kept.stands key
    rw [decide_eq_false new] at search
    have exact_full := Nat.le_antisymm (card_le kept.stands) (Nat.le_of_not_lt many)
    obtain ⟨⟨l, holds, lists⟩, _⟩ := kept
    rw [card_keys lists] at exact_full
    cases holds with
    | empty => exact absurd exact_full (Nat.zero_ne_add_one _)
    | @leaf T shape =>
      obtain ⟨t', p, left, right, e, rest, _, run, two, _, parts, right_half, _⟩ :=
        shape.insert_splits exact_full search data
      refine ⟨t', congrArg (Option.map Prod.fst) run, ?_⟩
      intro agrees
      have filled : t'.m_Root ≠ none := by
        rw [two.shape.root]
        exact Option.some_ne_none _
      -- seven keys are in the right leaf, the second one is above the root's
      have total : (entries 0 T).length = MAXNUM_KEY := exact_full
      have several : 1 < (e :: rest).length := by
        rw [← parts, right_half, List.length_drop, total]
        decide
      obtain ⟨e', rest', rfl⟩ :=
        List.exists_cons_of_length_pos (Nat.lt_of_succ_lt_succ several)
      have less : e.1 < e'.1 := by
        have sorted := (strict_keys shape lists).drop (i := MINNUM_LEAF)
        unfold leafKeys at sorted
        rw [← List.map_drop, ← right_half, parts] at sorted
        exact (List.pairwise_cons.mp sorted).1 _ List.mem_cons_self
      obtain ⟨between, _, _, done, _⟩ := agrees.mpr filled e.1 e'.1 less.le
      cases (two.range_fails less).symm.trans done

end Kept

theorem agrees_behind_step {call : Change K} {calls : List (Change K)}
    (run : change t call = some t') :
    AgreesBehind t (call :: calls) ↔ AgreesBehind t' calls := by
  unfold AgreesBehind
  rw [changeAll, run, Option.bind_some]

theorem range_run_iff (kept : Kept t m) (calls : List (Change K)) :
    (∀ done, done <+: calls → AgreesBehind t done) ↔ AllHaveRoom m calls := by
  induction calls generalizing t m with
  | nil =>
    constructor
    · intro _
      trivial
    · intro _ done first
      cases List.prefix_nil.mp first
      exact ⟨t, rfl, kept.agrees⟩
  | cons call calls ih =>
    constructor
    · intro agrees
      have room : HasRoom m call := by
        by_contra full
        obtain ⟨t', run, fails⟩ := kept.overflow full
        obtain ⟨t'', run', holds⟩ :=
          agrees [call] (List.cons_prefix_cons.mpr ⟨rfl, List.nil_prefix⟩)
        rw [changeAll, run] at run'
        cases run'
        exact fails holds
      obtain ⟨t', run, kept'⟩ := kept.step call room
      refine ⟨room, (ih kept').mp ?_⟩
      intro done first
      exact (agrees_behind_step run).mp (agrees _ (List.cons_prefix_cons.mpr ⟨rfl, first⟩))
    · rintro ⟨room, rest⟩ done first
      obtain ⟨t', run, kept'⟩ := kept.step call room
      cases done with
      | nil => exact ⟨t, rfl, kept.agrees⟩
      | cons call' done =>
        obtain ⟨rfl, later⟩ := List.cons_prefix_cons.mp first
        exact (agrees_behind_step run).mpr ((ih kept').mpr rest done later)

end Step

/-- From the empty tree on, the range query agrees with the one-sided ones at every point of
    a run where the tree is not empty, and only there, exactly as long as every inserted new
    key finds fewer than MAXNUM_KEY stored. -/
theorem range_agrees_iff_all_have_room (raw : Ptr → CNode K) (m_MaxKey : K)
    (calls : List (Change K)) :
    (∀ done, done <+: calls → AgreesBehind (CBPlusTree.empty raw m_MaxKey) done) ↔
      AllHaveRoom ∅ calls :=
  range_run_iff ⟨⟨[], .empty rfl, lists_empty⟩, fun _ mem => absurd mem Finmap.notMem_empty⟩ calls

/-- On the empty tree the one-sided query answers, and the range query has no leaf to begin
    at; behind fourteen increasing keys it loses its way from 6, the key of the root. -/
theorem range_query_dereferences_null :
    (CBPlusTree.empty (fun _ => zeroed) 0).select 1 .BE = some [] ∧
    (CBPlusTree.empty (fun _ => zeroed) 0).selectRange 1 2 = none ∧
    ¬ RangeAgrees (CBPlusTree.empty (fun _ => zeroed) 0) ∧
    ((changeAll (CBPlusTree.empty (fun _ => zeroed) 0)
      ((List.range 14).map fun key => .insert (Int.ofNat key) (Int.ofNat key))).map fun t =>
        (t.select 6 .BE, t.selectRange 6 9)) = some (some [6, 7, 8, 9, 10, 11, 12], none) :=
  ⟨by decide, by decide, empty_disagrees rfl, by decide +kernel⟩

end UC.BPlusTree
