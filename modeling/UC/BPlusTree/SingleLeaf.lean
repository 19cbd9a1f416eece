import UC.BPlusTree.Shape

/- A tree that is empty or one leaf: search, insert below a full leaf, remove. -/
namespace UC.BPlusTree
open UC.Memory UC.Slots UC.BPlusTree.Tree

variable {K : Type} [LinearOrder K]

def leafKeys (T : Tree K 0) : List K := (entries 0 T).map Prod.fst

/-- The tree holds exactly the listed entries, in at most one leaf. -/
inductive Holds (t : CBPlusTree K) : List (K × Int) → Prop where
  | empty (no_root : t.m_Root = none) : Holds t []
  | leaf {T : Tree K 0} (shape : Shape t 1 0 T) : Holds t (entries 0 T)

section Search

variable {h : Heap K}

/-- Leaf T with node n, and the entry e the binary search for the key ends at. -/
structure LeafIndex (h : Heap K) (T : Tree K 0) (key : K) (n : CNode K) (pre : List (K × Int))
    (e : K × Int) (post : List (K × Int)) : Prop where
  cell : h.cells (ptr 0 T) = some n
  type : n.m_Type = .LEAF
  parts : entries 0 T = pre ++ e :: post
  keys : slice n.m_KeyValues 0 n.m_KeyNum = pre.map Prod.fst ++ e.1 :: post.map Prod.fst
  datas : slice n.m_Datas 0 n.m_KeyNum = pre.map Prod.snd ++ e.2 :: post.map Prod.snd
  index : n.getKeyIndex key = some pre.length
  found : key ∈ leafKeys T → key = e.1

theorem leaf_index_exists {T : Tree K 0} {tail : Option Ptr} {lo : Nat} (repr : Repr h 0 T tail)
    (within : Within lo 0 T) (some_key : 0 < num 0 T) (key : K) :
    ∃ n pre e post, LeafIndex h T key n pre e post ∧ n.m_RightSibling = tail := by
  obtain ⟨n, cell, type, keys_n, datas_n, sibling⟩ := repr
  obtain ⟨_, _, sorted⟩ := within
  have count := congrArg List.length keys_n
  rw [slice_length, List.length_map] at count
  rw [← keys_n, pairwise_slice] at sorted
  obtain ⟨i, less, index, stop, below⟩ := CNode.get_key_index_spec key
    (show 0 < n.m_KeyNum by rw [count]; exact some_key)
  have before : ∀ j < i, n.m_KeyValues j < key := by
    apply below
    intro i j le inside
    rcases Nat.eq_or_lt_of_le le with rfl | lt
    · exact le_refl _
    · exact sorted i j lt (by omega)
  obtain ⟨pre, e, post, parts, rfl⟩ := parts_at (count ▸ less)
  rw [parts, List.map_append, List.map_cons] at keys_n datas_n
  have here := (slice_parts keys_n).2.2.1
  rw [List.length_map] at here
  refine ⟨n, pre, e, post, ⟨cell, type, parts, keys_n, datas_n, index, ?_⟩, sibling⟩
  intro stored
  unfold leafKeys at stored
  change key ∈ (Leaf.entries T).map Prod.fst at stored
  rw [parts, List.map_append, List.map_cons, ← keys_n] at stored
  obtain ⟨j, inside, eq⟩ := mem_slice.mp stored
  rw [Nat.zero_add] at eq
  rcases Nat.lt_trichotomy j pre.length with lt | rfl | gt
  · exact absurd eq (ne_of_lt (before j lt))
  · rw [← eq, here]
  · by_contra other
    have above := lt_of_le_of_ne (stop (by omega)) (here ▸ other)
    exact absurd eq (ne_of_gt (lt_of_lt_of_le above (sorted _ j gt inside)))

namespace LeafIndex

variable {T : Tree K 0} {key : K} {n : CNode K} {pre post : List (K × Int)} {e : K × Int}

theorem count (at_e : LeafIndex h T key n pre e post) :
    n.m_KeyNum = pre.length + (post.length + 1) := by
  have count := (slice_parts at_e.keys).1
  rwa [List.length_map, List.length_map] at count

theorem holding (at_e : LeafIndex h T key n pre e post) : n.Holding (pre ++ e :: post) := by
  refine ⟨at_e.type, ?_, ?_⟩
  · rw [List.map_append]
    exact at_e.keys
  · rw [List.map_append]
    exact at_e.datas

theorem key_here (at_e : LeafIndex h T key n pre e post) : n.m_KeyValues pre.length = e.1 :=
  at_e.holding.entry.1

theorem data_here (at_e : LeafIndex h T key n pre e post) : n.m_Datas pre.length = e.2 :=
  at_e.holding.entry.2

theorem search_spec (at_e : LeafIndex h T key n pre e post) (fuel : Nat) :
    h.recursiveSearch key (fuel + 1) (ptr 0 T) = some (decide (key ∈ leafKeys T)) := by
  have less : pre.length < n.m_KeyNum := by
    rw [at_e.count]
    omega
  unfold Heap.recursiveSearch
  simp only [at_e.cell, at_e.index, at_e.type, at_e.key_here, less, true_and,
    Option.bind_eq_bind, Option.bind_some]
  by_cases same : key = e.1
  · have mem : key ∈ leafKeys T := by
      unfold leafKeys
      rw [at_e.parts, List.map_append, List.map_cons, same]
      exact List.mem_append_right _ List.mem_cons_self
    rw [if_pos same, decide_eq_true mem]
  · rw [if_neg same, decide_eq_false fun stored => same (at_e.found stored)]

def without (n : CNode K) (i : Nat) : CNode K :=
  { n with
    m_KeyNum := n.m_KeyNum - 1
    m_KeyValues := shiftDown n.m_KeyValues i (n.m_KeyNum - 1)
    m_Datas := shiftDown n.m_Datas i (n.m_KeyNum - 1) }

theorem remove_key (at_e : LeafIndex h T key n pre e post) (full : n.m_KeyNum ≤ MAXNUM_LEAF)
    (childIndex : Nat) : n.removeKey pre.length childIndex = some (without n pre.length) := by
  have less : pre.length < n.m_KeyNum := by
    rw [at_e.count]
    omega
  exact CNode.remove_leaf_spec at_e.type less full childIndex

theorem without_keys (at_e : LeafIndex h T key n pre e post) :
    slice (without n pre.length).m_KeyValues 0 (without n pre.length).m_KeyNum =
      (pre ++ post).map Prod.fst := by
  have rest := slice_remove_parts at_e.keys
  rw [List.length_map, ← List.map_append] at rest
  exact rest

theorem without_datas (at_e : LeafIndex h T key n pre e post) :
    slice (without n pre.length).m_Datas 0 (without n pre.length).m_KeyNum =
      (pre ++ post).map Prod.snd := by
  have rest := slice_remove_parts at_e.datas
  rw [List.length_map, ← List.map_append] at rest
  exact rest

theorem max_without (at_e : LeafIndex h T key n pre e post) (here : key = e.1)
    (sorted : (leafKeys T).Pairwise (· < ·)) {max : K} (upper : ∀ x ∈ entries 0 T, x.1 ≤ max) :
    ∀ x ∈ pre ++ post,
      x.1 ≤ if key = max ∧ pre.length > 0 then n.m_KeyValues (pre.length - 1) else max := by
  have parts := at_e.parts
  have keys := at_e.keys
  unfold leafKeys at sorted
  rw [parts, List.map_append, List.map_cons] at sorted
  rw [parts] at upper
  intro x mem
  split
  · next removed =>
    obtain ⟨last_key, some_pre⟩ := removed
    obtain ⟨front, l, rfl⟩ := List.eq_nil_or_concat' pre |>.resolve_left
      (List.ne_nil_of_length_pos some_pre)
    rw [List.map_append, List.map_singleton, List.append_assoc, List.singleton_append]
      at keys sorted
    have last := (slice_parts keys).2.2.1
    rw [List.length_map] at last
    rw [List.length_append, List.length_singleton, Nat.add_sub_cancel, last]
    obtain ⟨_, behind, across⟩ := List.pairwise_append.mp sorted
    rcases List.mem_append.mp mem with before | after
    · rcases List.mem_append.mp before with before | same
      · exact le_of_lt (across _ (List.mem_map_of_mem before) _ List.mem_cons_self)
      · cases List.mem_singleton.mp same
        exact le_refl _
    · -- nothing is behind the greatest key
      have less := (List.pairwise_cons.mp (List.pairwise_cons.mp behind).2).1 _
        (List.mem_map_of_mem after)
      have le := upper x (List.mem_append_right _ (List.mem_cons_of_mem _ after))
      rw [← last_key, here] at le
      exact absurd less (not_lt.mpr le)
  · apply upper
    rcases List.mem_append.mp mem with before | after
    · exact List.mem_append_left _ before
    · exact List.mem_append_right _ (List.mem_cons_of_mem _ after)

end LeafIndex

end Search

namespace Holds

variable {t : CBPlusTree K} {l : List (K × Int)} {key : K} {data : Int}

theorem search_spec (holds : Holds t l) (key : K) :
    t.search key = some (decide (key ∈ l.map Prod.fst)) := by
  unfold CBPlusTree.search
  cases holds with
  | empty no_root =>
    rw [no_root]
    rfl
  | leaf shape =>
    rw [shape.root]
    obtain ⟨n, pre, e, post, at_e, _⟩ :=
      leaf_index_exists shape.repr shape.within (num_bounds shape.within).1 key
    exact at_e.search_spec _

theorem search_absent (holds : Holds t l) (absent : key ∉ l.map Prod.fst) :
    t.search key = some false := by
  rw [holds.search_spec, decide_eq_false absent]

theorem search_present (holds : Holds t l) (present : key ∈ l.map Prod.fst) :
    t.search key = some true := by
  rw [holds.search_spec, decide_eq_true present]

theorem insert_spec (holds : Holds t l) (absent : key ∉ l.map Prod.fst)
    (room : l.length < MAXNUM_KEY) (data : Int) :
    ∃ t' l', t.insert key data = some (t', true) ∧ Holds t' l' ∧ l'.Perm ((key, data) :: l) := by
  have search := holds.search_absent absent
  cases holds with
  | empty no_root =>
    obtain ⟨t', T', run, shape, one, _⟩ := Shape.insert_first no_root key data
    exact ⟨t', entries 0 T', run, .leaf shape, one ▸ List.Perm.refl _⟩
  | @leaf T shape =>
    have grown : (t.firstLeaf key).growRoot = some t := by
      rw [shape.first_leaf_kept]
      exact shape.grow_root_room room
    obtain ⟨t', T', run, shape', more, _⟩ :=
      Shape.insert_absent search grown shape (.inl (Nat.le_refl 1)) room data
    exact ⟨t', entries 0 T', run, .leaf shape', more⟩

theorem remove_absent (holds : Holds t l) (absent : key ∉ l.map Prod.fst) :
    t.removeData key = some (t, false, INVALID_INDEX) := by
  unfold CBPlusTree.removeData
  rw [holds.search_absent absent]
  rfl

theorem clear_leaf {T : Tree K 0} {lo : Nat} (shape : Shape t lo 0 T) :
    ∃ t', t.clear = some t' ∧ t'.m_Root = none := by
  obtain ⟨n, cell, _, type⟩ := repr_root shape.repr
  refine ⟨{ t with
    heap := { t.heap with cells := fun x => if x = ptr 0 T then none else t.heap.cells x }
    m_Root := none
    m_DataHead := none }, ?_, rfl⟩
  unfold CBPlusTree.clear Heap.depthBound Heap.clear Heap.delete
  simp only [shape.root, cell, type, ↓reduceIte, Option.bind_eq_bind, Option.bind_some,
    Option.map_some]

theorem remove_last {T : Tree K 0} (shape : Shape t 1 0 T) {e : K × Int}
    (one : entries 0 T = [e]) :
    ∃ t', t.removeData e.1 = some (t', true, e.2) ∧ t'.m_Root = none := by
  have present : e.1 ∈ (entries 0 T).map Prod.fst := by
    rw [one]
    exact List.mem_singleton_self e.1
  have search := (Holds.leaf shape).search_present present
  obtain ⟨n, cell, num_n, type⟩ := repr_root shape.repr
  obtain ⟨n', cell', _, _, datas, _⟩ := shape.repr
  cases Option.some.inj (cell.symm.trans cell')
  have count : n.m_KeyNum = 1 := num_n.trans (congrArg List.length one)
  change Leaf.entries T = [e] at one
  rw [one, count] at datas
  have data : n.m_Datas 0 = e.2 := List.head_eq_of_cons_eq datas
  obtain ⟨t', emptied, no_root⟩ := clear_leaf shape
  refine ⟨t', ?_, no_root⟩
  unfold CBPlusTree.removeData
  simp only [search, shape.root, cell, count, type, data, emptied, Option.bind_eq_bind,
    Option.bind_some, not_true_eq_false, ↓reduceIte, and_self]

theorem remove_one {T : Tree K 0} (shape : Shape t 1 0 T) (more : 1 < num 0 T)
    (present : key ∈ leafKeys T) :
    ∃ t' T' data, t.removeData key = some (t', true, data) ∧ Shape t' 1 0 T' ∧
      (entries 0 T).Perm ((key, data) :: entries 0 T') ∧
      ((leafKeys T).Pairwise (· < ·) → (∀ x ∈ entries 0 T, x.1 ≤ t.m_MaxKey) →
        ∀ x ∈ entries 0 T', x.1 ≤ t'.m_MaxKey) := by
  have search := (Holds.leaf shape).search_present present
  obtain ⟨n, pre, e, post, at_e, sibling⟩ :=
    leaf_index_exists shape.repr shape.within (Nat.lt_of_succ_lt more) key
  have here := at_e.found present
  have total : n.m_KeyNum = num 0 T := by
    change _ = (entries 0 T).length
    rw [at_e.count, at_e.parts, List.length_append, List.length_cons]
  obtain ⟨_, upper, sorted⟩ := shape.within
  let m := LeafIndex.without n pre.length
  let h := t.heap.write (ptr 0 T) m
  let max :=
    if key = t.m_MaxKey ∧ pre.length > 0 then n.m_KeyValues (pre.length - 1) else t.m_MaxKey
  let t' : CBPlusTree K := ⟨h, some (ptr 0 T), t.m_DataHead, max⟩
  have step : t.heap.modify (ptr 0 T) (fun n => n.removeKey pre.length pre.length) = some h :=
    Heap.modify_cell at_e.cell (at_e.remove_key (total ▸ upper) _)
  have cell : h.cells (ptr 0 T) = some m := Heap.write_here _ _ _
  have type : m.m_Type = .LEAF := at_e.type
  have child : n.getChildIndex key pre.length = pre.length := by
    unfold CNode.getChildIndex
    rw [at_e.type]
  have run : CBPlusTree.recursiveRemove key t.heap.depthBound t (ptr 0 T) = some (t', e.2) := by
    unfold Heap.depthBound CBPlusTree.recursiveRemove
    simp only [at_e.cell, at_e.index, at_e.type, child, step, shape.root, cell, type,
      at_e.data_here, Option.bind_eq_bind, Option.bind_some, ne_eq, not_true_eq_false, false_and,
      and_false, ↓reduceIte]
    rfl
  refine ⟨t', Leaf.mk (ptr 0 T) (pre ++ post), e.2, ?_, ?_, ?_,
    fun sorted upper => at_e.max_without here sorted upper⟩
  · have not_one : n.m_KeyNum ≠ 1 := by
      rw [total]
      exact Nat.ne_of_gt more
    unfold CBPlusTree.removeData
    simp only [search, shape.root, at_e.cell, not_one, run, Option.bind_eq_bind,
      Option.bind_some, not_true_eq_false, false_and, ↓reduceIte]
  · have less : (entries 0 T).length = pre.length + post.length + 1 := by
      rw [at_e.parts, List.length_append, List.length_cons]
      rfl
    change 1 < (entries 0 T).length at more
    change (entries 0 T).length ≤ _ at upper
    constructor
    · rfl
    · exact shape.head
    · exact ⟨m, cell, type, at_e.without_keys, at_e.without_datas, sibling⟩
    · change 1 ≤ (pre ++ post).length ∧ (pre ++ post).length ≤ _ ∧ _
      rw [List.length_append]
      refine ⟨by omega, by omega, ?_⟩
      change ((entries 0 T).map Prod.fst).Pairwise _ at sorted
      rw [at_e.parts] at sorted
      exact sorted.sublist (((List.sublist_cons_self e post).append_left pre).map Prod.fst)
    · exact ⟨shape.placed.nodup, shape.placed.old⟩
  · rw [at_e.parts, here]
    exact List.perm_middle

theorem remove_spec (holds : Holds t l) (present : key ∈ l.map Prod.fst) :
    ∃ t' data l', t.removeData key = some (t', true, data) ∧ Holds t' l' ∧
      l.Perm ((key, data) :: l') := by
  cases holds with
  | empty no_root => exact absurd present List.not_mem_nil
  | @leaf T shape =>
    have some_key : 1 ≤ num 0 T := (num_bounds shape.within).1
    rcases Nat.eq_or_lt_of_le some_key with one | more
    · obtain ⟨e, single⟩ := List.length_eq_one_iff.mp (show (entries 0 T).length = 1 from one.symm)
      obtain ⟨t', run, no_root⟩ := remove_last shape single
      have here : key = e.1 := by
        rw [single] at present
        exact List.mem_singleton.mp present
      rw [here]
      refine ⟨t', e.2, [], run, .empty no_root, ?_⟩
      rw [single]
    · obtain ⟨t', T', data, run, shape', less, _⟩ := remove_one shape more present
      exact ⟨t', data, entries 0 T', run, .leaf shape', less⟩

end Holds

end UC.BPlusTree
