import UC.BPlusTree.SingleLeaf

/- The tree behind the first split of its root: two leaves under a root with one key. A
   descent only goes to the right leaf with this key. -/
namespace UC.BPlusTree
open UC.Memory UC.Slots UC.BPlusTree.Tree

variable {K : Type} [LinearOrder K]

structure TwoLeaves (t : CBPlusTree K) (p : Ptr) (left right : Tree K 0) (sep : K) : Prop where
  shape : Shape t 1 1 (node p [left, right])
  key : ∃ n, t.heap.cells p = some n ∧ n.m_KeyValues 0 = sep

/-- The root over two leaves. -/
structure Fork (n : CNode K) (left right : Tree K 0) (sep : K) : Prop where
  type : n.m_Type = .INTERNAL
  count : n.m_KeyNum = 1
  key : n.m_KeyValues 0 = sep
  left : n.m_Childs 0 = some (ptr 0 left)
  right : n.m_Childs 1 = some (ptr 0 right)

namespace Fork

variable {n : CNode K} {left right : Tree K 0} {sep key : K}

theorem index (fork : Fork n left right sep) (key : K) : n.getKeyIndex key = some 0 := by
  unfold CNode.getKeyIndex
  rw [fork.count]
  rfl

theorem child_left (fork : Fork n left right sep) (other : key ≠ sep) :
    n.getChildIndex key 0 = 0 := by
  unfold CNode.getChildIndex
  rw [fork.type, fork.key]
  exact if_neg other

theorem child_right (fork : Fork n left right sep) : n.getChildIndex sep 0 = 1 := by
  unfold CNode.getChildIndex
  rw [fork.type, fork.key]
  exact if_pos rfl

end Fork

namespace TwoLeaves

variable {t : CBPlusTree K} {p : Ptr} {left right : Tree K 0} {sep key : K}

theorem fork (two : TwoLeaves t p left right sep) :
    ∃ n, t.heap.cells p = some n ∧ Fork n left right sep := by
  obtain ⟨n, cell, key⟩ := two.key
  obtain ⟨n', cell', type, childs, _⟩ := two.shape.repr
  cases Option.some.inj (cell.symm.trans cell')
  have count := congrArg List.length childs
  rw [slice_length] at count
  have one : n.m_KeyNum = 1 := Nat.succ.inj count
  rw [one] at childs
  obtain ⟨first, rest⟩ := List.cons.inj childs
  exact ⟨n, cell, type, one, key, first, (List.cons.inj rest).1⟩

theorem repr_left (two : TwoLeaves t p left right sep) :
    Repr t.heap 0 left (some (ptr 0 right)) := @repr_kid _ _ _ _ [] [right] _ _ two.shape.repr

theorem repr_right (two : TwoLeaves t p left right sep) : Repr t.heap 0 right none :=
  @repr_kid _ _ _ _ [left] [] _ _ two.shape.repr

theorem within_left (two : TwoLeaves t p left right sep) : Within MINNUM_KEY 0 left :=
  two.shape.within.2.2 left List.mem_cons_self

theorem within_right (two : TwoLeaves t p left right sep) : Within MINNUM_KEY 0 right :=
  two.shape.within.2.2 right (List.mem_cons_of_mem _ List.mem_cons_self)

theorem apart (two : TwoLeaves t p left right sep) : ptr 0 left ≠ ptr 0 right := by
  obtain ⟨_, _, _, kids⟩ := @placed_kid _ _ _ _ [left] [] _ two.shape.placed
  have outside := (kids left List.mem_cons_self _ (ptr_mem_ptrs 0 left)).2.1
  exact fun eq => outside (List.mem_singleton.mpr eq)

theorem left_old (two : TwoLeaves t p left right sep) : ptr 0 left < t.heap.next :=
  (@placed_kid _ _ _ _ [] [right] _ two.shape.placed).1.old _ (ptr_mem_ptrs 0 left)

theorem right_old (two : TwoLeaves t p left right sep) : ptr 0 right < t.heap.next :=
  (@placed_kid _ _ _ _ [left] [] _ two.shape.placed).1.old _ (ptr_mem_ptrs 0 right)

theorem some_fuel (two : TwoLeaves t p left right sep) :
    ∃ fuel, t.heap.depthBound = fuel + 1 + 1 :=
  Nat.exists_eq_add_of_le' (Nat.succ_le_of_lt two.shape.deep)

theorem search_other (two : TwoLeaves t p left right sep) (other : key ≠ sep) :
    t.search key = some (decide (key ∈ leafKeys left)) := by
  obtain ⟨n, cell, fork⟩ := two.fork
  obtain ⟨m, pre, e, post, at_e, _⟩ := leaf_index_exists two.repr_left two.within_left
    (Nat.lt_of_lt_of_le (by decide) (num_bounds two.within_left).1) key
  obtain ⟨fuel, enough⟩ := two.some_fuel
  unfold CBPlusTree.search
  rw [two.shape.root, enough, ptr_node]
  simp only
  unfold Heap.recursiveSearch
  simp only [cell, fork.index, fork.child_left other, fork.key, other, fork.type, fork.left,
    and_false, ↓reduceIte, Option.bind_eq_bind, Option.bind_some]
  exact at_e.search_spec fuel

theorem search_sep (two : TwoLeaves t p left right sep) : t.search sep = some true := by
  obtain ⟨n, cell, fork⟩ := two.fork
  obtain ⟨fuel, enough⟩ := two.some_fuel
  unfold CBPlusTree.search
  rw [two.shape.root, enough, ptr_node]
  simp only
  unfold Heap.recursiveSearch
  simp only [cell, fork.index, fork.key, fork.count, Nat.one_pos, and_self, ↓reduceIte,
    Option.bind_eq_bind, Option.bind_some]

theorem other_of_absent (two : TwoLeaves t p left right sep) (absent : t.search key = some false) :
    key ≠ sep := by
  rintro rfl
  cases absent.symm.trans two.search_sep

theorem descend (two : TwoLeaves t p left right sep) (other : key ≠ sep)
    (room : num 0 left < MAXNUM_KEY) (data : Int) :
    ∃ h left', t.heap.recursiveInsert key data t.heap.depthBound p = some h ∧
      TwoLeaves { t with heap := h } p left' right sep ∧ ptr 0 left' = ptr 0 left ∧
      (entries 0 left').Perm ((key, data) :: entries 0 left) ∧
      ∀ x, x ≠ ptr 0 left → x < t.heap.next → h.cells x = t.heap.cells x := by
  obtain ⟨n, cell, fork⟩ := two.fork
  obtain ⟨c, cell_c, num_c, _⟩ := repr_root two.repr_left
  obtain ⟨fuel, enough⟩ := two.some_fuel
  obtain ⟨h, left', run, grows⟩ :=
    leaf_insert_spec two.repr_left two.within_left room fuel key data
  have root := @grows_kid _ _ _ _ _ _ [] [right] _ _ _ _ _ two.shape.repr two.shape.within
    two.shape.placed grows
  obtain ⟨_, outside, p_old, _⟩ := @placed_kid _ _ _ _ [] [right] _ two.shape.placed
  have few : ¬ c.m_KeyNum ≥ MAXNUM_LEAF := by
    rw [num_c]
    exact Nat.not_le.mpr room
  refine ⟨h, left', ?_, ⟨two.shape.grown root, n, ?_, fork.key⟩, grows.ptr, grows.entries, ?_⟩
  · rw [enough, Heap.recursiveInsert]
    simp only [cell, fork.type, fork.index, fork.child_left other, fork.left, cell_c, if_neg few,
      Option.bind_eq_bind, Option.bind_some]
    exact run
  · exact (grows.others p outside p_old).trans cell
  · intro x other
    exact grows.others x fun mem => other (List.mem_singleton.mp mem)

theorem with_max (two : TwoLeaves t p left right sep) (m_MaxKey : K) :
    TwoLeaves { t with m_MaxKey := m_MaxKey } p left right sep :=
  ⟨two.shape.with_max m_MaxKey, two.key⟩

theorem insert_room (two : TwoLeaves t p left right sep) (absent : t.search key = some false)
    (room : num 0 left < MAXNUM_KEY) (data : Int) :
    ∃ t' left', t.insert key data = some (t', true) ∧ TwoLeaves t' p left' right sep ∧
      ptr 0 left' = ptr 0 left ∧ (entries 0 left').Perm ((key, data) :: entries 0 left) := by
  have grown : (t.firstLeaf key).growRoot = some t := by
    rw [two.shape.first_leaf_kept]
    exact two.shape.grow_root_room (Nat.le_of_ble_eq_true rfl)
  obtain ⟨h, left', run, two', same, more, _⟩ :=
    two.descend (two.other_of_absent absent) room data
  exact ⟨_, left', Shape.insert_runs absent grown two.shape.root run, two'.with_max _, same, more⟩

end TwoLeaves

theorem Shape.grow_root_leaf {t : CBPlusTree K} {T : Tree K 0} {lo : Nat} (shape : Shape t lo 0 T)
    (full : num 0 T = MAXNUM_KEY) :
    ∃ t' p right e rest r, t.growRoot = some t' ∧ TwoLeaves t' p (lowerHalf T) right e.1 ∧
      entries 0 right = e :: rest ∧ entries 0 right = (entries 0 T).drop MINNUM_LEAF ∧
      t'.heap.cells (ptr 0 right) = some r ∧ r.m_LeftSibling = some (ptr 0 T) := by
  obtain ⟨n, cell, _, keys, _⟩ := shape.repr
  have count := congrArg List.length keys
  rw [slice_length, List.length_map] at count
  have total : (Leaf.entries T).length = MAXNUM_KEY := full
  have high := shape.lifted_shape full
  obtain ⟨placed_T, outside, p_old, _⟩ := @placed_kid _ _ _ _ [] [] _ high.placed
  obtain ⟨h, n', run, cell', halved, halves, ⟨within_l, _⟩, within_r, _⟩ :=
    @leaf_halves _ _ _ _ _ 0 _ _ (@repr_kid _ _ _ _ [] [] _ _ high.repr)
      (@within_kid _ _ _ _ _ [] [] _ high.within) full (Heap.write_here _ _ _)
      (Nat.le_of_ble_eq_true rfl) (Nat.le_refl 0) outside placed_T.old p_old
  have old : ptr 0 T ≠ t.heap.next := Nat.ne_of_lt (shape.placed.old _ (ptr_mem_ptrs 0 T))
  have same : (Shape.lifted t (ptr 0 T)).heap.cells (ptr 0 T) = some n :=
    ((Heap.write_elsewhere _ _ old).trans (Heap.grown_old _ old)).trans cell
  cases Option.some.inj (cell'.symm.trans same)
  have grows := @halves_grow _ _ _ _ _ _ [] [] _ _ _ _ _ _ high.repr high.within high.placed
    (Nat.le_of_ble_eq_true rfl) (Heap.write_here _ _ _) halves within_l within_r
  have low := high.grown grows
  obtain ⟨e, rest, behind⟩ := List.exists_cons_of_length_pos
    (show 0 < ((Leaf.entries T).drop MINNUM_LEAF).length by
      rw [List.length_drop, total]
      decide)
  -- the root's key is the first one of the right half
  have separator : n.m_KeyValues MINNUM_LEAF = e.1 := by
    rw [← List.take_append_drop MINNUM_LEAF (Leaf.entries T), behind, List.map_append,
      List.map_cons] at keys
    have here := (slice_parts keys).2.2.1
    rwa [List.length_map, List.length_take, total] at here
  refine ⟨{ t with heap := h, m_Root := some t.heap.next }, t.heap.next,
    upperHalf (Shape.lifted t (ptr 0 T)).heap T, e, rest, _, ?_, ⟨?_, _, halved.parent, ?_⟩,
    behind, rfl, halved.right, rfl⟩
  · have step : (t.heap.grown .INTERNAL).modify t.heap.next
        (fun n => n.setChild 0 (some (ptr 0 T))) = some (Shape.lifted t (ptr 0 T)).heap :=
      Heap.modify_cell (Heap.grown_fresh _ _) (CNode.set_child (by decide) _)
    change t.heap.cells (ptr 0 T) = some n at cell
    have full_n : n.m_KeyNum ≥ MAXNUM_KEY := by
      rw [count, total]
    unfold CBPlusTree.growRoot
    simp only [shape.root, cell, if_pos full_n, Heap.new_eq, step, run, Option.bind_eq_bind,
      Option.bind_some]
  · exact { low with within := within_num low.within (Nat.le_refl 1) (Nat.le_refl 1) }
  · rw [← separator]
    exact CNode.with_child_key _ 0 _ _ _

/-- An insertion of an absent key into a full root leaf; it goes to the left half. -/
theorem Shape.insert_splits {t : CBPlusTree K} {T : Tree K 0} (shape : Shape t 1 0 T)
    (full : num 0 T = MAXNUM_KEY) {key : K} (absent : t.search key = some false) (data : Int) :
    ∃ t' p left right e rest r, t.insert key data = some (t', true) ∧
      TwoLeaves t' p left right e.1 ∧ num 0 left = MINNUM_LEAF + 1 ∧
      entries 0 right = e :: rest ∧ entries 0 right = (entries 0 T).drop MINNUM_LEAF ∧
      t'.heap.cells (ptr 0 right) = some r ∧ r.m_LeftSibling = some (ptr 0 T) ∧
      ptr 0 left = ptr 0 T := by
  obtain ⟨t₁, p, right, e, rest, r, grown, two, parts, right_half, cell_r, back⟩ :=
    shape.grow_root_leaf full
  have total : (Leaf.entries T).length = MAXNUM_KEY := full
  have six : num 0 (lowerHalf T) = MINNUM_LEAF := by
    change ((Leaf.entries T).take MINNUM_LEAF).length = _
    rw [List.length_take, total]
    rfl
  have other : key ≠ e.1 := by
    rintro rfl
    have stored : e.1 ∈ leafKeys T := by
      have mem : e ∈ (entries 0 T).drop MINNUM_LEAF := by
        rw [← right_half, parts]
        exact List.mem_cons_self
      exact List.mem_map_of_mem (List.mem_of_mem_drop mem)
    have found := (Holds.leaf shape).search_present stored
    cases absent.symm.trans found
  rw [← shape.first_leaf_kept key] at grown
  obtain ⟨h, left, run, two', same, more, others⟩ := two.descend other (six ▸ by decide) data
  refine ⟨_, p, left, right, e, rest, r, Shape.insert_runs absent grown two.shape.root run,
    two'.with_max _, ?_, parts, right_half, ?_, back, same⟩
  · have size := more.length_eq
    rw [List.length_cons] at size
    exact size.trans (congrArg (· + 1) six)
  · exact (others _ two.apart.symm two.right_old).trans cell_r

end UC.BPlusTree
