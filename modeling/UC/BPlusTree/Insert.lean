import Mathlib.Data.List.Perm.Basic
import UC.BPlusTree.Split

/- Insertion into a tree that is not full at the root, on any depth. -/
namespace UC.BPlusTree
open UC.Memory UC.Slots UC.Chains UC.BPlusTree.Tree

variable {K : Type} [LinearOrder K]

/-- Tree T' stands in heap h' for what T stood for in heap h and the added entries. All
    nodes allocated on the way are in T', and no node outside T has changed. -/
structure Grows (h h' : Heap K) (d : Nat) (T T' : Tree K d) (tail : Option Ptr) (lo : Nat)
    (added : List (K × Int)) : Prop where
  repr : Repr h' d T' tail
  within : Within lo d T'
  ptr : ptr d T' = ptr d T
  first : first d T' = first d T
  entries : (entries d T').Perm (added ++ entries d T)
  ptrs : (ptrs d T').Perm (List.range' h.next (h'.next - h.next) ++ ptrs d T)
  next : h.next ≤ h'.next
  others : ∀ x, x ∉ Tree.ptrs d T → x < h.next → h'.cells x = h.cells x

namespace Grows

variable {h h' h'' : Heap K} {d : Nat} {T T' T'' : Tree K d} {tail : Option Ptr} {lo : Nat}
  {added : List (K × Int)}

theorem placed (grows : Grows h h' d T T' tail lo added) (placed : Placed h d T) :
    Placed h' d T' := by
  constructor
  · apply grows.ptrs.nodup_iff.mpr
    rw [List.nodup_append]
    refine ⟨List.nodup_range', placed.nodup, ?_⟩
    intro x fresh y hy eq
    subst eq
    have lower := (List.mem_range'_1.mp fresh).1
    exact Nat.not_lt.mpr lower (placed.old x hy)
  · intro x hx
    rcases List.mem_append.mp (grows.ptrs.mem_iff.mp hx) with fresh | mem
    · have upper := (List.mem_range'_1.mp fresh).2
      rwa [Nat.add_sub_cancel' grows.next] at upper
    · exact Nat.lt_of_lt_of_le (placed.old x mem) grows.next

theorem keeps_ptrs (grows : Grows h h' d T T' tail lo added) : Tree.ptrs d T ⊆ Tree.ptrs d T' :=
  fun _ mem => grows.ptrs.mem_iff.mpr (List.mem_append_right _ mem)

/-- A first growth that adds no entries, such as a split, goes before another. -/
theorem trans (first : Grows h h' d T T' tail lo [])
    (second : Grows h' h'' d T' T'' tail lo added) : Grows h h'' d T T'' tail lo added := by
  have le := first.next
  have le' := second.next
  constructor
  · exact second.repr
  · exact second.within
  · exact second.ptr.trans first.ptr
  · exact second.first.trans first.first
  · exact second.entries.trans (first.entries.append_left added)
  · have joined : List.range' h.next (h''.next - h.next) =
        List.range' h.next (h'.next - h.next) ++ List.range' h'.next (h''.next - h'.next) := by
      have glue := @List.range'_append h.next (h'.next - h.next) (h''.next - h'.next) 1
      rw [Nat.one_mul, Nat.add_sub_cancel' le] at glue
      rw [glue, Nat.add_comm, Nat.sub_add_sub_cancel le' le]
    rw [joined]
    refine (second.ptrs.trans (first.ptrs.append_left _)).trans ?_
    rw [← List.append_assoc]
    exact List.perm_append_comm.append_right _
  · exact Nat.le_trans le le'
  · intro x outside old
    have outside' : x ∉ Tree.ptrs d T' := by
      intro mem
      rcases List.mem_append.mp (first.ptrs.mem_iff.mp mem) with fresh | mem'
      · exact Nat.not_lt.mpr (List.mem_range'_1.mp fresh).1 old
      · exact outside mem'
    rw [second.others x outside' (Nat.lt_of_lt_of_le old le), first.others x outside old]

end Grows

section Kids

variable {h h' : Heap K} {d : Nat} {p : Ptr} {pre post : List (Tree K d)} {k k' : Tree K d}
  {tail : Option Ptr} {lo : Nat} {added : List (K × Int)}

theorem replace_kid {a : Tree K d} {rest : List (Tree K d)} {n : CNode K}
    (repr : Repr h (d + 1) (node p (pre ++ k :: post)) tail)
    (within : Within lo (d + 1) (node p (pre ++ k :: post)))
    (placed : Placed h (d + 1) (node p (pre ++ k :: post)))
    (parent : h'.cells p = some n) (type : n.m_Type = .INTERNAL)
    (childs : slice n.m_Childs 0 (n.m_KeyNum + 1) =
      (pre ++ a :: (rest ++ post)).map (fun kid => some (Tree.ptr d kid)))
    (fits : (pre ++ a :: (rest ++ post)).length ≤ MAXNUM_CHILD)
    (here : Repr h' d a (headOr (first d) (rest ++ post) tail)) (begins : first d a = first d k)
    (later : Linked (Repr h' d) (first d) rest (headOr (first d) post tail))
    (bounded : ∀ kid ∈ a :: rest, Within MINNUM_KEY d kid)
    (stored : ((a :: rest).flatMap (entries d)).Perm (added ++ entries d k))
    (nodes : ((a :: rest).flatMap (ptrs d)).Perm
      (List.range' h.next (h'.next - h.next) ++ ptrs d k))
    (next : h.next ≤ h'.next)
    (others : ∀ x, x ∉ ptrs d k → x ≠ p → x < h.next → h'.cells x = h.cells x) :
    Grows h h' (d + 1) (node p (pre ++ k :: post)) (node p (pre ++ a :: (rest ++ post))) tail lo
      added := by
  obtain ⟨_, _, _, _, linked⟩ := repr
  obtain ⟨lower, _, kids⟩ := within
  obtain ⟨_, _, p_old, apart⟩ := placed_kid placed
  change lo + 1 ≤ (pre ++ k :: post).length at lower
  change Linked _ _ (pre ++ k :: post) _ at linked
  rw [linked_middle] at linked
  obtain ⟨left, _, right⟩ := linked
  have same : ∀ kid ∈ pre ++ post, ∀ x ∈ ptrs d kid, h'.cells x = h.cells x := by
    intro kid mem x hx
    obtain ⟨not_p, not_k, old⟩ := apart kid mem x hx
    exact others x not_k not_p old
  constructor
  · refine ⟨n, parent, type, childs, ?_⟩
    change Linked _ _ (pre ++ a :: (rest ++ post)) _
    rw [linked_middle, begins, linked_append]
    refine ⟨?_, here, later, ?_⟩
    · exact linked_same (fun kid mem => same kid (List.mem_append_left _ mem)) left
    · exact linked_same (fun kid mem => same kid (List.mem_append_right _ mem)) right
  · refine ⟨?_, fits, ?_⟩
    · change _ ≤ (pre ++ a :: (rest ++ post)).length
      rw [List.length_append, List.length_cons] at lower ⊢
      rw [List.length_append]
      omega
    · intro kid mem
      change kid ∈ pre ++ a :: (rest ++ post) at mem
      rw [← List.cons_append, List.mem_append, List.mem_append] at mem
      rcases mem with before | new | behind
      · exact kids kid (List.mem_append_left _ before)
      · exact bounded kid new
      · exact kids kid (List.mem_append_right _ (List.mem_cons_of_mem _ behind))
  · rfl
  · rw [first_node, first_node, head_or_append, head_or_append, head_or_cons, head_or_cons,
      begins]
  · rw [entries_node, entries_node]
    refine ((flat_map_between pre (a :: rest) post _).trans (stored.append_right _)).trans ?_
    rw [List.append_assoc]
    exact (flat_map_middle pre post k _).symm.append_left added
  · rw [ptrs_node, ptrs_node]
    have moved := (flat_map_between pre (a :: rest) post _).trans (nodes.append_right _)
    refine (moved.cons p).trans ?_
    rw [List.append_assoc]
    refine List.perm_middle.symm.trans ?_
    exact ((flat_map_middle pre post k _).symm.cons p).append_left _
  · exact next
  · intro x out old
    rw [ptrs_node, List.mem_cons, not_or] at out
    obtain ⟨not_p, not_kids⟩ := out
    apply others x _ not_p old
    intro mem
    exact not_kids ((flat_map_middle pre post k _).mem_iff.mpr (List.mem_append_left _ mem))

theorem grows_kid (repr : Repr h (d + 1) (node p (pre ++ k :: post)) tail)
    (within : Within lo (d + 1) (node p (pre ++ k :: post)))
    (placed : Placed h (d + 1) (node p (pre ++ k :: post)))
    (grows : Grows h h' d k k' (headOr (first d) post tail) MINNUM_KEY added) :
    Grows h h' (d + 1) (node p (pre ++ k :: post)) (node p (pre ++ k' :: post)) tail lo
      added := by
  obtain ⟨_, outside, p_old, _⟩ := placed_kid placed
  have cells := repr
  obtain ⟨n, cell, type, childs, _⟩ := cells
  apply @replace_kid _ _ _ _ _ _ _ _ _ _ _ _ k' [] n repr within placed
  · exact (grows.others p outside p_old).trans cell
  · exact type
  · change _ = (pre ++ k' :: post).map _
    rw [childs, List.map_append, List.map_cons, grows.ptr]
    exact List.map_append
  · have upper := within.2.1
    change (pre ++ k :: post).length ≤ _ at upper
    rw [List.length_append, List.length_cons] at upper ⊢
    exact upper
  · exact grows.repr
  · exact grows.first
  · trivial
  · intro kid mem
    cases List.mem_singleton.mp mem
    exact grows.within
  · rw [List.flatMap_singleton]
    exact grows.entries
  · rw [List.flatMap_singleton]
    exact grows.ptrs
  · exact grows.next
  · intro x not_k _ old
    exact grows.others x not_k old

/-- A node one of whose kids has been split grows by the right half, and by no entry. -/
theorem halves_grow {left right : Tree K d} {n : CNode K}
    (repr : Repr h (d + 1) (node p (pre ++ k :: post)) tail)
    (within : Within lo (d + 1) (node p (pre ++ k :: post)))
    (placed : Placed h (d + 1) (node p (pre ++ k :: post)))
    (room : (pre ++ k :: post).length < MAXNUM_CHILD) (cell : h.cells p = some n)
    (halves : Halves h h' p pre.length n d k left right (headOr (first d) post tail))
    (within_l : Within MINNUM_KEY d left) (within_r : Within MINNUM_KEY d right) :
    Grows h h' (d + 1) (node p (pre ++ k :: post)) (node p (pre ++ left :: right :: post))
      tail lo [] := by
  have cells := repr
  obtain ⟨n', cell', type, childs, _⟩ := cells
  cases Option.some.inj (cell.symm.trans cell')
  change slice n.m_Childs 0 (n.m_KeyNum + 1) = (pre ++ k :: post).map _ at childs
  rw [List.map_append, List.map_cons] at childs
  obtain ⟨count, childsPre, child_k, childsPost⟩ := slice_parts childs
  rw [List.length_map, List.length_map] at count
  rw [List.length_map] at childsPre child_k childsPost
  rw [List.length_map] at childsPost
  rw [List.length_append, List.length_cons] at room
  unfold MAXNUM_CHILD at room
  obtain ⟨sep, parent⟩ := halves.parent
  apply @replace_kid _ _ _ _ _ _ _ _ _ _ _ _ left [right] _ repr within placed parent
  · exact type
  · have le : pre.length + 1 ≤ n.m_KeyNum + 1 := by omega
    change slice (insertAt n.m_Childs (pre.length + 1) (n.m_KeyNum + 1) _) 0
      (n.m_KeyNum + 1 + 1) = (pre ++ left :: right :: post).map _
    rw [slice_insert _ _ le, slice_take, Nat.min_eq_right le, slice_drop _ le, slice_succ,
      childsPre, Nat.zero_add, child_k,
      show n.m_KeyNum + 1 - (pre.length + 1) = post.length by omega, childsPost]
    rw [List.map_append, List.map_cons, List.map_cons, halves.ptrLeft, halves.ptrRight,
      List.append_assoc]
    rfl
  · rw [List.length_append, List.length_cons, List.length_append, List.length_singleton]
    unfold MAXNUM_CHILD
    omega
  · exact halves.reprLeft
  · exact halves.first
  · exact ⟨halves.reprRight, trivial⟩
  · intro kid mem
    rcases List.mem_cons.mp mem with rfl | mem
    · exact within_l
    · cases List.mem_singleton.mp mem
      exact within_r
  · rw [List.flatMap_cons, List.flatMap_singleton, halves.entries]
    exact List.Perm.refl _
  · rw [List.flatMap_cons, List.flatMap_singleton, halves.next, Nat.add_sub_cancel_left]
    exact halves.ptrs
  · rw [halves.next]
    exact Nat.le_succ _
  · intro x not_k not_p old
    apply halves.others x not_p _ (Nat.ne_of_lt old)
    intro eq
    exact not_k (eq ▸ ptr_mem_ptrs d k)

theorem split_kid (repr : Repr h (d + 1) (node p (pre ++ k :: post)) tail)
    (within : Within lo (d + 1) (node p (pre ++ k :: post)))
    (placed : Placed h (d + 1) (node p (pre ++ k :: post)))
    (room : (pre ++ k :: post).length < MAXNUM_CHILD) (full : num d k = MAXNUM_KEY) :
    ∃ h' left right, h.split (ptr d k) p pre.length = some h' ∧
      Grows h h' (d + 1) (node p (pre ++ k :: post)) (node p (pre ++ left :: right :: post))
        tail lo [] ∧
      ptr d left = ptr d k ∧ num d left < MAXNUM_KEY ∧ num d right < MAXNUM_KEY := by
  obtain ⟨placed_k, outside, p_old, _⟩ := placed_kid placed
  obtain ⟨n, cell, _, count, _⟩ := repr_child repr
  have few := room
  rw [List.length_append, List.length_cons] at few
  unfold MAXNUM_CHILD at few
  obtain ⟨h', left, right, run, halves, ⟨within_l, num_l⟩, within_r, num_r⟩ :=
    @kid_halves _ _ _ _ _ pre.length _ _ _ (repr_kid repr) (within_kid within) full cell
      (by omega) (by omega) outside placed_k.nodup placed_k.old p_old
  exact ⟨h', left, right, run,
    halves_grow repr within placed room cell halves within_l within_r, halves.ptrLeft, num_l, num_r⟩

end Kids

section Descent

variable {h : Heap K} {key : K}

theorem leaf_insert_spec {T : Tree K 0} {tail : Option Ptr} {lo : Nat} (repr : Repr h 0 T tail)
    (within : Within lo 0 T) (room : num 0 T < MAXNUM_KEY) (fuel : Nat) (key : K) (data : Int) :
    ∃ h' T', h.recursiveInsert key data (fuel + 1) (ptr 0 T) = some h' ∧
      Grows h h' 0 T T' tail lo [(key, data)] := by
  obtain ⟨n, cell, type, keys, datas, sibling⟩ := repr
  obtain ⟨lower, _, sorted⟩ := within
  have holding : n.Holding (Leaf.entries T) := ⟨type, keys, datas⟩
  obtain ⟨n', es, run, ⟨type', keys', datas'⟩, perm, sorted', same⟩ :=
    holding.insert sorted room key data
  refine ⟨h.write (Leaf.ptr T) n', Leaf.mk (Leaf.ptr T) es, ?_, ?_⟩
  · unfold Heap.recursiveInsert
    change h.cells (ptr 0 T) = some n at cell
    simp only [cell, type, Option.bind_eq_bind, Option.bind_some]
    exact Heap.modify_cell cell run
  · constructor
    · exact ⟨n', Heap.write_here _ _ _, type', keys', datas', same.trans sibling⟩
    · have size : es.length = (Leaf.entries T).length + 1 := perm.length_eq
      refine ⟨?_, ?_, sorted'⟩
      · change lo ≤ es.length
        omega
      · change es.length ≤ MAXNUM_LEAF
        rw [size]
        exact room
    · rfl
    · rfl
    · exact perm
    · change [Leaf.ptr T].Perm (List.range' h.next (h.next - h.next) ++ [Leaf.ptr T])
      rw [Nat.sub_self]
      exact List.Perm.refl _
    · exact Nat.le_refl _
    · intro x outside _
      exact Heap.write_elsewhere _ _ (fun eq => outside (eq ▸ List.mem_singleton_self _))

theorem leaf_routed {T : Tree K 0} {tail : Option Ptr} {lo : Nat} (repr : Repr h 0 T tail)
    (within : Within lo 0 T) (pos : 1 ≤ lo) (key : K) :
    ∃ n i, h.cells (ptr 0 T) = some n ∧ n.m_Type = .LEAF ∧ n.getKeyIndex key = some i := by
  obtain ⟨n, cell, num, type⟩ := repr_root repr
  rw [if_pos rfl] at type
  have some_key : 0 < n.m_KeyNum := by
    rw [num]
    exact Nat.lt_of_lt_of_le pos (num_bounds within).1
  obtain ⟨i, _, index, _⟩ := CNode.get_key_index_spec key some_key
  exact ⟨n, i, cell, type, index⟩

theorem routed {d : Nat} {T : Tree K (d + 1)} {tail : Option Ptr} {lo : Nat}
    (repr : Repr h (d + 1) T tail) (within : Within lo (d + 1) T) (pos : 1 ≤ lo) (key : K) :
    ∃ n i p pre k post, T = node p (pre ++ k :: post) ∧ h.cells p = some n ∧
      n.m_Type = .INTERNAL ∧ n.getKeyIndex key = some i ∧
      n.getChildIndex key i = List.length pre ∧ n.m_Childs pre.length = some (ptr d k) := by
  obtain ⟨n, cell, num_n, type⟩ := repr_root repr
  rw [if_neg (Nat.succ_ne_zero d)] at type
  have lower := (num_bounds within).1
  obtain ⟨i, less, index, _⟩ := CNode.get_key_index_spec key (show 0 < n.m_KeyNum by omega)
  have child : n.getChildIndex key i ≤ n.m_KeyNum := by
    unfold CNode.getChildIndex
    rw [type]
    dsimp only
    split
    · exact less
    · exact Nat.le_of_lt less
  rw [num_n, num_inner] at child
  rw [num_inner] at lower
  obtain ⟨pre, k, post, parts, place⟩ := parts_at
    (show n.getChildIndex key i < (Inner.kids T).length by omega)
  have split : T = node (Inner.ptr T) (pre ++ k :: post) := by
    rw [← parts]
    rfl
  rw [split] at repr
  obtain ⟨n', cell', _, _, slot⟩ := repr_child repr
  cases Option.some.inj (cell.symm.trans cell')
  exact ⟨n, i, Inner.ptr T, pre, k, post, split, cell, type, index, place.symm, slot⟩

theorem recursive_search_ends {d : Nat} {T : Tree K d} {tail : Option Ptr} {lo fuel : Nat}
    (repr : Repr h d T tail) (within : Within lo d T) (pos : 1 ≤ lo) (deep : d < fuel) (key : K) :
    ∃ found, h.recursiveSearch key fuel (ptr d T) = some found := by
  induction d generalizing tail lo fuel with
  | zero =>
    obtain ⟨fuel, rfl⟩ := Nat.exists_eq_succ_of_ne_zero (Nat.ne_of_gt deep)
    obtain ⟨n, i, cell, type, index⟩ := leaf_routed repr within pos key
    unfold Heap.recursiveSearch
    simp only [cell, index, type, Option.bind_eq_bind, Option.bind_some]
    split
    · exact ⟨true, rfl⟩
    · exact ⟨false, rfl⟩
  | succ d ih =>
    obtain ⟨fuel, rfl⟩ := Nat.exists_eq_succ_of_ne_zero (Nat.ne_of_gt (Nat.zero_lt_of_lt deep))
    obtain ⟨n, i, p, pre, k, post, rfl, cell, type, index, childIndex, child⟩ :=
      routed repr within pos key
    unfold Heap.recursiveSearch
    simp only [ptr_node, cell, index, type, childIndex, child, Option.bind_eq_bind,
      Option.bind_some]
    split
    · exact ⟨true, rfl⟩
    · exact ih (repr_kid repr) (within_kid within) (by decide) (Nat.lt_of_succ_lt_succ deep)

/-- Insertion below a root that has a key and is not full. -/
theorem recursive_insert_spec {d : Nat} {T : Tree K d} {tail : Option Ptr} {lo fuel : Nat}
    (repr : Repr h d T tail) (within : Within lo d T) (placed : Placed h d T) (pos : 1 ≤ lo)
    (room : num d T < MAXNUM_KEY) (deep : d < fuel) (key : K) (data : Int) :
    ∃ h' T', h.recursiveInsert key data fuel (ptr d T) = some h' ∧
      Grows h h' d T T' tail lo [(key, data)] := by
  induction d generalizing h tail lo fuel with
  | zero =>
    obtain ⟨fuel, rfl⟩ := Nat.exists_eq_succ_of_ne_zero (Nat.ne_of_gt deep)
    exact leaf_insert_spec repr within room fuel key data
  | succ d ih =>
    obtain ⟨fuel, rfl⟩ := Nat.exists_eq_succ_of_ne_zero (Nat.ne_of_gt (Nat.zero_lt_of_lt deep))
    have deep' := Nat.lt_of_succ_lt_succ deep
    obtain ⟨n, i, p, pre, k, post, rfl, cell, type, index, childIndex, child⟩ :=
      routed repr within pos key
    have below : ∀ {h : Heap K} {pre post : List (Tree K d)} {k : Tree K d},
        Repr h (d + 1) (node p (pre ++ k :: post)) tail →
        Within lo (d + 1) (node p (pre ++ k :: post)) →
        Placed h (d + 1) (node p (pre ++ k :: post)) → num d k < MAXNUM_KEY →
        ∃ h' T', h.recursiveInsert key data fuel (ptr d k) = some h' ∧
          Grows h h' (d + 1) (node p (pre ++ k :: post)) T' tail lo [(key, data)] := by
      intro h pre post k repr within placed room_k
      obtain ⟨h', k', run, grows⟩ :=
        ih (repr_kid repr) (within_kid within) (placed_kid placed).1 (by decide) room_k deep'
      exact ⟨h', _, run, grows_kid repr within placed grows⟩
    obtain ⟨c, cell_k, num_k, _⟩ := repr_root (repr_kid repr)
    unfold Heap.recursiveInsert
    simp only [ptr_node, cell, type, index, childIndex, child, cell_k, Option.bind_eq_bind,
      Option.bind_some, num_k]
    by_cases full : num d k ≥ MAXNUM_LEAF
    · have upper := (num_bounds (within_kid within)).2
      have size : (pre ++ k :: post).length < MAXNUM_CHILD := by
        have less := room
        rw [num_inner] at less
        change (pre ++ k :: post).length - 1 < MAXNUM_KEY at less
        unfold MAXNUM_CHILD
        omega
      obtain ⟨h₁, left, right, run, grows, left_ptr, num_l, num_r⟩ :=
        split_kid repr within placed size (Nat.le_antisymm upper full)
      obtain ⟨m, cell_m, _⟩ := repr_child grows.repr
      rw [if_pos full, run]
      simp only [Option.bind_some, cell_m]
      split
      · -- the separator is not above the key: on to the right half
        have repr₁ := grows.repr
        have within₁ := grows.within
        have placed₁ := grows.placed placed
        rw [List.append_cons] at repr₁ within₁ placed₁
        obtain ⟨m', cell', _, _, right_kid⟩ := repr_child repr₁
        cases Option.some.inj (cell_m.symm.trans cell')
        rw [List.length_append, List.length_singleton] at right_kid
        rw [right_kid]
        obtain ⟨h₂, T₂, run₂, grows₂⟩ := below repr₁ within₁ placed₁ num_r
        rw [← List.append_cons] at grows₂
        exact ⟨h₂, T₂, run₂, grows.trans grows₂⟩
      · obtain ⟨h₂, T₂, run₂, grows₂⟩ := below grows.repr grows.within (grows.placed placed) num_l
        rw [← left_ptr]
        exact ⟨h₂, T₂, run₂, grows.trans grows₂⟩
    · rw [if_neg full]
      exact below repr within placed (Nat.lt_of_not_le full)

end Descent

end UC.BPlusTree
