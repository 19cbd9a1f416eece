import UC.BPlusTree.LeafChain
import UC.BPlusTree.TwoLeaves

/- The left and right siblings of the leaves. A split sets the left sibling of the new leaf,
   but not that of the leaf behind it. -/
namespace UC.BPlusTree
open UC.Memory UC.Loops UC.Slots UC.Chains UC.BPlusTree.Tree

variable {K : Type}

/-- Node n' has the siblings of n, or a right one that is not below base. -/
structure LinkedAs (base : Ptr) (n n' : CNode K) : Prop where
  type : n'.m_Type = n.m_Type
  left : n'.m_LeftSibling = n.m_LeftSibling
  right : n'.m_RightSibling = n.m_RightSibling ∨
    ∃ fresh, base ≤ fresh ∧ n'.m_RightSibling = some fresh

/-- The nodes below base keep their left siblings; a new right one is not below base. -/
structure Kin (base : Ptr) (h h' : Heap K) : Prop where
  next : h.next ≤ h'.next
  kept : ∀ x < base, ∀ n, h.cells x = some n → ∃ n', h'.cells x = some n' ∧ LinkedAs base n n'

section Kin

variable {base : Ptr} {h h' h'' : Heap K} {n n' n'' : CNode K}

theorem linked_as_refl (n : CNode K) : LinkedAs base n n := ⟨rfl, rfl, .inl rfl⟩

theorem LinkedAs.trans (first : LinkedAs base n n') (second : LinkedAs base n' n'') :
    LinkedAs base n n'' := by
  constructor
  · exact second.type.trans first.type
  · exact second.left.trans first.left
  · rcases second.right with same | fresh
    · rw [same]
      exact first.right
    · exact .inr fresh

theorem kin_refl (h : Heap K) : Kin base h h :=
  ⟨Nat.le_refl _, fun _ _ n cell => ⟨n, cell, linked_as_refl n⟩⟩

theorem Kin.trans (first : Kin base h h') (second : Kin base h' h'') : Kin base h h'' := by
  constructor
  · exact Nat.le_trans first.next second.next
  · intro x less n cell
    obtain ⟨n', cell', as'⟩ := first.kept x less n cell
    obtain ⟨n'', cell'', as''⟩ := second.kept x less n' cell'
    exact ⟨n'', cell'', as'.trans as''⟩

theorem kin_write {p : Ptr} (cell : h.cells p = some n) (as : p < base → LinkedAs base n n') :
    Kin base h (h.write p n') := by
  constructor
  · exact Nat.le_refl _
  · intro x less m cell_x
    by_cases here : x = p
    · subst here
      cases Option.some.inj (cell.symm.trans cell_x)
      exact ⟨n', Heap.write_here _ _ _, as less⟩
    · exact ⟨m, (Heap.write_elsewhere _ _ here).trans cell_x, linked_as_refl m⟩

theorem kin_modify {p : Ptr} {f : CNode K → Option (CNode K)} (run : h.modify p f = some h')
    (as : p < base → ∀ n n', f n = some n' → LinkedAs base n n') : Kin base h h' := by
  unfold Heap.modify at run
  obtain ⟨n, cell, run⟩ := Option.bind_eq_some_iff.mp run
  obtain ⟨n', done, run⟩ := Option.bind_eq_some_iff.mp run
  cases run
  exact kin_write cell fun less => as less n n' done

theorem kin_new (le : base ≤ h.next) (type : NodeType) : Kin base h (h.new type).1 := by
  constructor
  · exact Nat.le_succ _
  · intro x less n cell
    exact ⟨n, (Heap.grown_old type (Nat.ne_of_lt (Nat.lt_of_lt_of_le less le))).trans cell,
      linked_as_refl n⟩

end Kin

section Nodes

variable {base : Ptr} {n n' m : CNode K}

theorem set_key_value_links {i : Nat} {key : K} (as : LinkedAs base m n)
    (run : n.setKeyValue i key = some n') : LinkedAs base m n' := by
  unfold CNode.setKeyValue at run
  split at run
  · cases run
    exact ⟨as.type, as.left, as.right⟩
  · cases run

theorem set_child_links {i : Nat} {child : Option Ptr} (as : LinkedAs base m n)
    (run : n.setChild i child = some n') : LinkedAs base m n' := by
  unfold CNode.setChild at run
  split at run
  · cases run
    exact ⟨as.type, as.left, as.right⟩
  · cases run

theorem set_data_links {i : Nat} {data : Int} (as : LinkedAs base m n)
    (run : n.setData i data = some n') : LinkedAs base m n' := by
  unfold CNode.setData at run
  split at run
  · cases run
    exact ⟨as.type, as.left, as.right⟩
  · cases run

theorem insert_child_links {c ci : Nat} {key : K} {child : Option Ptr}
    (run : n.insertChild c ci key child = some n') : LinkedAs base n n' := by
  unfold CNode.insertChild at run
  obtain ⟨n₁, shifted, run⟩ := Option.bind_eq_some_iff.mp run
  have as₁ : LinkedAs base n n₁ := by
    refine for_loop_keeps ?_ (linked_as_refl n) shifted
    intro i s s' as step
    obtain ⟨s₁, first, last⟩ := Option.bind_eq_some_iff.mp step
    exact set_key_value_links (set_child_links as first) last
  have behind : ∀ {n₂ : CNode K}, LinkedAs base n n₂ →
      (do
        let m ← n₂.setChild ci child
        let m ← m.setKeyValue c key
        some { m with m_KeyNum := n.m_KeyNum + 1 }) = some n' → LinkedAs base n n' := by
    intro n₂ as₂ run
    obtain ⟨n₃, first, run⟩ := Option.bind_eq_some_iff.mp run
    obtain ⟨n₄, last, run⟩ := Option.bind_eq_some_iff.mp run
    have as₄ : LinkedAs base n n₄ := set_key_value_links (set_child_links as₂ first) last
    cases run
    exact ⟨as₄.type, as₄.left, as₄.right⟩
  dsimp only at run
  split at run
  · obtain ⟨n₂, moved, run⟩ := Option.bind_eq_some_iff.mp run
    exact behind (set_child_links as₁ moved) run
  · exact behind as₁ run

variable [LinearOrder K]

theorem shift_leaf_links {key : K} {i j : Nat} (as : LinkedAs base m n)
    (run : n.shiftLeaf key i = some (n', j)) : LinkedAs base m n' := by
  induction i generalizing n with
  | zero =>
    cases run
    exact as
  | succ i ih =>
    unfold CNode.shiftLeaf at run
    split at run
    · obtain ⟨n₁, first, run⟩ := Option.bind_eq_some_iff.mp run
      obtain ⟨n₂, second, run⟩ := Option.bind_eq_some_iff.mp run
      exact ih (set_data_links (set_key_value_links as first) second) run
    · cases run
      exact as

theorem insert_leaf_links {key : K} {data : Int} (run : n.insertLeaf key data = some n') :
    LinkedAs base n n' := by
  unfold CNode.insertLeaf at run
  obtain ⟨⟨n₁, i⟩, shifted, run⟩ := Option.bind_eq_some_iff.mp run
  obtain ⟨n₂, first, run⟩ := Option.bind_eq_some_iff.mp run
  obtain ⟨n₃, second, run⟩ := Option.bind_eq_some_iff.mp run
  have as : LinkedAs base n n₃ := set_data_links (set_key_value_links
    (shift_leaf_links (linked_as_refl n) shifted) first) second
  cases run
  exact ⟨as.type, as.left, as.right⟩

end Nodes

section Insertion

variable {base : Ptr} {h h' : Heap K}

theorem split_internal_kin {this parent : Ptr} {c : Nat} (le : base ≤ h.next)
    (run : h.splitInternal this parent c = some h') : Kin base h h' := by
  unfold Heap.splitInternal at run
  rw [Heap.new_eq] at run
  obtain ⟨n, _, run⟩ := Option.bind_eq_some_iff.mp run
  obtain ⟨h₁, filled, run⟩ := Option.bind_eq_some_iff.mp run
  obtain ⟨h₂, shortened, run⟩ := Option.bind_eq_some_iff.mp run
  have kin₁ := (kin_new le .INTERNAL).trans
    (kin_modify filled fun less => absurd less (Nat.not_lt.mpr le))
  refine (kin₁.trans (kin_modify shortened ?_)).trans (kin_modify run ?_)
  · intro _ n n' done
    cases done
    exact ⟨rfl, rfl, .inl rfl⟩
  · intro _ n n' done
    exact insert_child_links done

theorem split_leaf_kin {this parent : Ptr} {c : Nat} (le : base ≤ h.next)
    (run : h.splitLeaf this parent c = some h') : Kin base h h' := by
  unfold Heap.splitLeaf at run
  rw [Heap.new_eq] at run
  obtain ⟨n, _, run⟩ := Option.bind_eq_some_iff.mp run
  obtain ⟨h₁, shortened, run⟩ := Option.bind_eq_some_iff.mp run
  obtain ⟨h₂, filled, run⟩ := Option.bind_eq_some_iff.mp run
  have kin₁ : Kin base h h₁ := by
    refine (kin_new le .LEAF).trans (kin_modify shortened ?_)
    intro _ n n' done
    cases done
    exact ⟨rfl, rfl, .inr ⟨h.next, le, rfl⟩⟩
  have kin₂ := kin₁.trans (kin_modify filled fun less => absurd less (Nat.not_lt.mpr le))
  refine kin₂.trans (kin_modify run ?_)
  intro _ n n' done
  exact insert_child_links done

theorem split_kin {this parent : Ptr} {c : Nat} (le : base ≤ h.next)
    (run : h.split this parent c = some h') : Kin base h h' := by
  unfold Heap.split at run
  obtain ⟨n, _, run⟩ := Option.bind_eq_some_iff.mp run
  split at run
  · exact split_internal_kin le run
  · exact split_leaf_kin le run

theorem grow_root_kin {t t' : CBPlusTree K} (le : base ≤ t.heap.next)
    (run : t.growRoot = some t') : Kin base t.heap t'.heap := by
  unfold CBPlusTree.growRoot at run
  obtain ⟨root, _, run⟩ := Option.bind_eq_some_iff.mp run
  obtain ⟨r, _, run⟩ := Option.bind_eq_some_iff.mp run
  split at run
  · rw [Heap.new_eq] at run
    obtain ⟨h₁, above, run⟩ := Option.bind_eq_some_iff.mp run
    obtain ⟨h₂, halved, run⟩ := Option.bind_eq_some_iff.mp run
    have kin₁ := (kin_new le .INTERNAL).trans
      (kin_modify above fun _ n _ done => set_child_links (linked_as_refl n) done)
    have kin₂ := split_kin (Nat.le_trans le kin₁.next) halved
    cases run
    exact kin₁.trans kin₂
  · cases run
    exact kin_refl _

variable [LinearOrder K]

theorem recursive_insert_kin {key : K} {data : Int} {fuel : Nat} {p : Ptr} (le : base ≤ h.next)
    (run : h.recursiveInsert key data fuel p = some h') : Kin base h h' := by
  induction fuel generalizing h p with
  | zero => cases run
  | succ fuel ih =>
    unfold Heap.recursiveInsert at run
    obtain ⟨n, _, run⟩ := Option.bind_eq_some_iff.mp run
    split at run
    · exact kin_modify run fun _ _ _ done => insert_leaf_links done
    · obtain ⟨keyIndex, _, run⟩ := Option.bind_eq_some_iff.mp run
      obtain ⟨child, _, run⟩ := Option.bind_eq_some_iff.mp run
      obtain ⟨c, _, run⟩ := Option.bind_eq_some_iff.mp run
      split at run
      · obtain ⟨h₁, halved, run⟩ := Option.bind_eq_some_iff.mp run
        have kin₁ := split_kin le halved
        have le₁ := Nat.le_trans le kin₁.next
        obtain ⟨m, _, run⟩ := Option.bind_eq_some_iff.mp run
        split at run
        · obtain ⟨right, _, run⟩ := Option.bind_eq_some_iff.mp run
          exact kin₁.trans (ih le₁ run)
        · exact kin₁.trans (ih le₁ run)
      · exact ih le run

theorem insert_kin {t t' : CBPlusTree K} {key : K} {data : Int}
    (run : t.insert key data = some (t', true)) :
    Kin (t.firstLeaf key).heap.next (t.firstLeaf key).heap t'.heap := by
  unfold CBPlusTree.insert at run
  obtain ⟨found, _, run⟩ := Option.bind_eq_some_iff.mp run
  split at run
  · cases run
  · obtain ⟨t₁, grown, run⟩ := Option.bind_eq_some_iff.mp run
    obtain ⟨root, _, run⟩ := Option.bind_eq_some_iff.mp run
    obtain ⟨h, done, run⟩ := Option.bind_eq_some_iff.mp run
    have kin := grow_root_kin (Nat.le_refl _) grown
    cases run
    split at done
    · exact kin.trans (recursive_insert_kin kin.next done)
    · exact kin.trans (recursive_insert_kin kin.next done)

theorem Shape.insert_kin {t t' : CBPlusTree K} {lo d : Nat} {T : Tree K d} (shape : Shape t lo d T)
    {key : K} {data : Int} (run : t.insert key data = some (t', true)) :
    Kin t.heap.next t.heap t'.heap := by
  have kin := UC.BPlusTree.insert_kin run
  rwa [shape.first_leaf_kept] at kin

end Insertion

def DoublyLinked (t : CBPlusTree K) : Prop :=
  ∃ ls, t.printData = some ls ∧
    (∀ leaf ∈ ls, ∀ n right, t.heap.cells leaf.1 = some n → n.m_RightSibling = some right →
      ∃ m, t.heap.cells right = some m ∧ m.m_LeftSibling = some leaf.1) ∧
    ∀ head, t.m_DataHead = some head →
      ∃ n, t.heap.cells head = some n ∧ n.m_LeftSibling = none

def HasLeft (h : Heap K) (p : Ptr) (left : Option Ptr) : Prop :=
  ∃ n, h.cells p = some n ∧ n.m_LeftSibling = left

/-- A leaf whose left sibling has another right one. -/
structure Torn (h : Heap K) (right left : Ptr) : Prop where
  leaf : ∃ m, h.cells right = some m ∧ m.m_Type = .LEAF ∧ m.m_LeftSibling = some left
  gone : ∃ n, h.cells left = some n ∧ n.m_RightSibling ≠ some right
  old : left < h.next ∧ right < h.next

section Kept

variable {h h' : Heap K} {p left right : Ptr}

theorem HasLeft.kept {s : Option Ptr} (has : HasLeft h p s) (kin : Kin h.next h h')
    (old : p < h.next) : HasLeft h' p s := by
  obtain ⟨n, cell, same⟩ := has
  obtain ⟨n', cell', as⟩ := kin.kept p old n cell
  exact ⟨n', cell', as.left.trans same⟩

/-- No insertion mends it: a right sibling only changes to a new node. -/
theorem Torn.kept (torn : Torn h right left) (kin : Kin h.next h h') : Torn h' right left := by
  obtain ⟨⟨m, cell_m, type, back⟩, ⟨n, cell_n, gone⟩, old_l, old_r⟩ := torn
  obtain ⟨m', cell_m', as_m⟩ := kin.kept right old_r m cell_m
  obtain ⟨n', cell_n', as_n⟩ := kin.kept left old_l n cell_n
  refine ⟨⟨m', cell_m', as_m.type.trans type, as_m.left.trans back⟩, ⟨n', cell_n', ?_⟩,
    Nat.lt_of_lt_of_le old_l kin.next, Nat.lt_of_lt_of_le old_r kin.next⟩
  rcases as_n.right with same | ⟨fresh, le, new⟩
  · rw [same]
    exact gone
  · rw [new]
    intro eq
    cases Option.some.inj eq
    exact Nat.not_lt.mpr le old_r

theorem leaf_of_type {d : Nat} {T : Tree K d} {tail : Option Ptr} {m : CNode K}
    (repr : Repr h d T tail) (mem : p ∈ ptrs d T) (cell : h.cells p = some m)
    (type : m.m_Type = .LEAF) : ∃ leaf ∈ leaves d T, leaf.ptr = p := by
  induction d generalizing tail with
  | zero =>
    cases List.mem_singleton.mp mem
    exact ⟨T, List.mem_singleton_self _, rfl⟩
  | succ d ih =>
    obtain ⟨n, cell_n, inner, _, linked⟩ := repr
    rcases List.mem_cons.mp mem with rfl | below
    · cases Option.some.inj (cell.symm.trans cell_n)
      cases inner.symm.trans type
    · obtain ⟨kid, mem_kid, mem_p⟩ := List.mem_flatMap.mp below
      obtain ⟨tail', repr_kid⟩ := linked_mem linked mem_kid
      obtain ⟨leaf, mem_leaf, same⟩ := ih repr_kid mem_p
      exact ⟨leaf, List.mem_flatMap.mpr ⟨kid, mem_kid, mem_leaf⟩, same⟩

end Kept

variable [LinearOrder K]

theorem torn_not_linked {t : CBPlusTree K} {d lo : Nat} {T : Tree K d} (shape : Shape t lo d T)
    {left right : Ptr} (torn : Torn t.heap right left) (mem : right ∈ ptrs d T) :
    ¬ DoublyLinked t := by
  rintro ⟨ls, print, back, head_left⟩
  obtain ⟨⟨m, cell_m, type, left_m⟩, ⟨n, cell_n, gone⟩, _⟩ := torn
  rw [shape.print_data_spec] at print
  cases print
  obtain ⟨leaf, mem_leaf, rfl⟩ := leaf_of_type shape.repr mem cell_m type
  obtain ⟨chained, start⟩ := leaves_chained shape.repr shape.within
  obtain ⟨before, after, parts⟩ := List.append_of_mem mem_leaf
  rcases List.eq_nil_or_concat' before with rfl | ⟨front, prev, rfl⟩
  · -- the first leaf has no left sibling
    rw [parts] at start
    have first_leaf : leaf.ptr = first d T := Option.some.inj start
    obtain ⟨n', cell', none_left⟩ := head_left _ shape.head
    rw [← first_leaf, cell_m] at cell'
    cases cell'
    cases none_left.symm.trans left_m
  · rw [parts, List.append_assoc, List.singleton_append, chained_middle, begins_cons] at chained
    obtain ⟨_, ⟨n', cell', _, _, _, sibling⟩, _⟩ := chained
    have listed : printed prev ∈ (leaves d T).map printed := by
      rw [parts, List.append_assoc, List.singleton_append]
      exact List.mem_map_of_mem (List.mem_append_right _ List.mem_cons_self)
    obtain ⟨m', cell_m', left_m'⟩ := back _ listed n' leaf.ptr cell' sibling
    cases Option.some.inj (cell_m.symm.trans cell_m')
    cases Option.some.inj (left_m.symm.trans left_m')
    cases Option.some.inj (cell_n.symm.trans cell')
    exact gone sibling

theorem TwoLeaves.descend_full {t : CBPlusTree K} {p : Ptr} {left right : Tree K 0} {sep key : K}
    {data : Int} {h : Heap K} (two : TwoLeaves t p left right sep) (other : key ≠ sep)
    (full : num 0 left = MAXNUM_KEY)
    (run : t.heap.recursiveInsert key data t.heap.depthBound p = some h) :
    ∃ n, h.cells (ptr 0 left) = some n ∧ n.m_RightSibling ≠ some (ptr 0 right) := by
  obtain ⟨m, cell_m, fork⟩ := two.fork
  obtain ⟨n, cell_n, num_n, type⟩ := repr_root two.repr_left
  obtain ⟨fuel, enough⟩ := two.some_fuel
  obtain ⟨placed_l, outside, p_old, _⟩ := @placed_kid _ _ _ _ [] [right] _ two.shape.placed
  have left_old := placed_l.old _ (ptr_mem_ptrs 0 left)
  have room : m.m_KeyNum < MAXNUM_KEY := by
    rw [fork.count]
    decide
  obtain ⟨h₁, halved, after⟩ := Heap.split_leaf_halves cell_n cell_m type room (Nat.zero_le _)
    (fun eq => outside (List.mem_singleton.mpr eq)) (Nat.ne_of_lt left_old) (Nat.ne_of_lt p_old)
  have many : n.m_KeyNum ≥ MAXNUM_LEAF := by
    rw [num_n, full]
    exact Nat.le_refl _
  have kin : Kin h₁.next h₁ h := by
    rw [enough, Heap.recursiveInsert] at run
    simp only [cell_m, fork.type, fork.index, fork.child_left other, fork.left, cell_n,
      if_pos many, halved, after.parent, Option.bind_eq_bind, Option.bind_some] at run
    split at run
    · obtain ⟨child, _, run⟩ := Option.bind_eq_some_iff.mp run
      exact recursive_insert_kin (Nat.le_refl _) run
    · exact recursive_insert_kin (Nat.le_refl _) run
  have below : ptr 0 left < h₁.next := by
    rw [after.next]
    exact Nat.lt_succ_of_lt left_old
  obtain ⟨n', cell', as⟩ := kin.kept _ below _ after.left
  refine ⟨n', cell', ?_⟩
  rcases as.right with same | ⟨fresh, le, new⟩
  · rw [same]
    intro eq
    exact Nat.ne_of_gt two.right_old (Option.some.inj eq)
  · rw [new]
    intro eq
    cases Option.some.inj eq
    rw [after.next] at le
    exact Nat.not_succ_le_self _ (Nat.le_trans le (Nat.le_of_lt two.right_old))

/-- Trees by the number of entries: one leaf, two leaves, and then torn ones. -/
inductive Links (t : CBPlusTree K) : Nat → Prop where
  | one {T : Tree K 0} (shape : Shape t 1 0 T) (head : HasLeft t.heap (ptr 0 T) none) :
    Links t (num 0 T)
  | two {p : Ptr} {left right : Tree K 0} {sep : K} (two : TwoLeaves t p left right sep)
    (seven : num 0 right = MINNUM_LEAF + 1) (head : HasLeft t.heap (ptr 0 left) none)
    (back : HasLeft t.heap (ptr 0 right) (some (ptr 0 left))) :
    Links t (num 0 left + (MINNUM_LEAF + 1))
  | torn {d : Nat} {T : Tree K d} {left right : Ptr} {count : Nat} (shape : Shape t 1 d T)
    (torn : Torn t.heap right left) (mem : right ∈ ptrs d T)
    (many : MAXNUM_LEAF + (MINNUM_LEAF + 1) < count) : Links t count

section Links

variable {t : CBPlusTree K} {count : Nat}

theorem Links.shape (links : Links t count) : ∃ d, ∃ T : Tree K d, Shape t 1 d T := by
  cases links with
  | one shape => exact ⟨_, _, shape⟩
  | two two => exact ⟨_, _, two.shape⟩
  | torn shape => exact ⟨_, _, shape⟩

theorem links_linked (links : Links t count) :
    DoublyLinked t ↔ count ≤ MAXNUM_LEAF + (MINNUM_LEAF + 1) := by
  cases links with
  | @one T shape head =>
    have upper := (num_bounds shape.within).2
    refine iff_of_true ⟨_, shape.print_data_spec, ?_, ?_⟩ (Nat.le_add_right_of_le upper)
    · intro leaf mem n right cell sibling
      cases List.mem_singleton.mp mem
      obtain ⟨n', cell', _, _, _, none_right⟩ := shape.repr
      cases Option.some.inj (cell.symm.trans cell')
      cases none_right.symm.trans sibling
    · intro first_ptr is_head
      cases shape.head.symm.trans is_head
      exact head
  | @two p left right sep two seven head back =>
    have upper := (num_bounds two.within_left).2
    refine iff_of_true ⟨_, two.shape.print_data_spec, ?_, ?_⟩ (Nat.add_le_add_right upper _)
    · intro leaf mem n next cell sibling
      rcases List.mem_cons.mp mem with rfl | mem
      · obtain ⟨n', cell', _, _, _, is_right⟩ := two.repr_left
        cases Option.some.inj (cell.symm.trans cell')
        cases is_right.symm.trans sibling
        exact back
      · cases List.mem_singleton.mp mem
        obtain ⟨n', cell', _, _, _, none_right⟩ := two.repr_right
        cases Option.some.inj (cell.symm.trans cell')
        cases none_right.symm.trans sibling
    · intro first_ptr is_head
      cases two.shape.head.symm.trans is_head
      exact head
  | torn shape torn mem many =>
    exact iff_of_false (torn_not_linked shape torn mem) (Nat.not_le.mpr many)

/-- The split of the left one of two leaves tears the right one off. -/
theorem two_torn {p : Ptr} {left right : Tree K 0} {sep key : K}
    (two : TwoLeaves t p left right sep) (back : HasLeft t.heap (ptr 0 right) (some (ptr 0 left)))
    (full : num 0 left = MAXNUM_KEY) (absent : t.search key = some false) (data : Int) :
    ∃ t' d, ∃ T : Tree K d, t.insert key data = some (t', true) ∧ Shape t' 1 d T ∧
      Torn t'.heap (ptr 0 right) (ptr 0 left) ∧ ptr 0 right ∈ ptrs d T := by
  have grown : (t.firstLeaf key).growRoot = some t := by
    rw [two.shape.first_leaf_kept]
    exact two.shape.grow_root_room (Nat.le_of_ble_eq_true rfl)
  have deep := two.shape.deep
  obtain ⟨h, T, run, grows⟩ := recursive_insert_spec two.shape.repr two.shape.within
    two.shape.placed (Nat.le_refl 1) (Nat.le_of_ble_eq_true rfl) deep key data
  have kin : Kin t.heap.next t.heap h := recursive_insert_kin (Nat.le_refl _) run
  obtain ⟨n, cell_n, gone⟩ := two.descend_full (two.other_of_absent absent) full run
  obtain ⟨m, cell_m, type_m⟩ := repr_root two.repr_right
  have leaf_m := type_m.2
  rw [if_pos rfl] at leaf_m
  obtain ⟨m', cell_m', as⟩ := kin.kept _ two.right_old m cell_m
  obtain ⟨m'', cell_m'', left_m⟩ := back.kept kin two.right_old
  cases Option.some.inj (cell_m'.symm.trans cell_m'')
  have in_right : ptr 0 right ∈ ptrs 1 (node p [left, right]) := by
    rw [ptrs_node]
    exact List.mem_cons_of_mem _ (List.mem_flatMap.mpr
      ⟨right, List.mem_cons_of_mem _ List.mem_cons_self, ptr_mem_ptrs 0 right⟩)
  refine ⟨_, 1, T, Shape.insert_runs absent grown two.shape.root run,
    (two.shape.grown grows).with_max _, ⟨⟨m', cell_m', as.type.trans leaf_m, left_m⟩,
      ⟨n, cell_n, gone⟩, ?_, ?_⟩, grows.keeps_ptrs in_right⟩
  · exact Nat.lt_of_lt_of_le two.left_old kin.next
  · exact Nat.lt_of_lt_of_le two.right_old kin.next

theorem links_insert (links : Links t count) (key : K) (data : Int) :
    ∃ t' inserted, t.insert key data = some (t', inserted) ∧
      Links t' (if inserted then count + 1 else count) := by
  obtain ⟨d, T, shape⟩ := links.shape
  obtain ⟨found, search⟩ := shape.search_ends key
  cases found with
  | true => exact ⟨t, false, Shape.insert_found search data, links⟩
  | false =>
    cases links with
    | @one T shape head =>
      have old := shape.placed.old _ (ptr_mem_ptrs 0 T)
      by_cases room : num 0 T < MAXNUM_KEY
      · have grown : (t.firstLeaf key).growRoot = some t := by
          rw [shape.first_leaf_kept]
          exact shape.grow_root_room room
        obtain ⟨t', T', run, shape', more, kept⟩ :=
          Shape.insert_absent search grown shape (.inl (Nat.le_refl 1)) room data
        have same : ptr 0 T = ptr 0 T' := List.mem_singleton.mp (kept (ptr_mem_ptrs 0 T))
        have head' := head.kept (shape.insert_kin run) old
        have links' := Links.one shape' (same ▸ head')
        rw [show num 0 T' = num 0 T + 1 from more.length_eq] at links'
        exact ⟨t', true, run, links'⟩
      · have full := Nat.le_antisymm (num_bounds shape.within).2 (Nat.le_of_not_lt room)
        obtain ⟨t', p, left, right, e, rest, r, run, two, six, parts, right_half, cell_r, back, same⟩ :=
          shape.insert_splits full search data
        have head' := head.kept (shape.insert_kin run) old
        have seven : num 0 right = MINNUM_LEAF + 1 := by
          change (entries 0 right).length = _
          rw [right_half, List.length_drop, show (entries 0 T).length = MAXNUM_KEY from full]
          rfl
        have links' := Links.two two seven (same ▸ head') ⟨r, cell_r, same ▸ back⟩
        rw [six] at links'
        rw [full]
        exact ⟨t', true, run, links'⟩
    | @two p left right sep two seven head back =>
      by_cases room : num 0 left < MAXNUM_KEY
      · obtain ⟨t', left', run, two', same, more⟩ := two.insert_room search room data
        have kin := two.shape.insert_kin run
        have links' := Links.two two' seven (same ▸ head.kept kin two.left_old)
          (same ▸ back.kept kin two.right_old)
        rw [show num 0 left' = num 0 left + 1 from more.length_eq] at links'
        exact ⟨t', true, run, by rwa [Nat.add_right_comm] at links'⟩
      · have full := Nat.le_antisymm (num_bounds two.within_left).2 (Nat.le_of_not_lt room)
        obtain ⟨t', d, T, run, shape', torn, mem⟩ := two_torn two back full search data
        refine ⟨t', true, run, .torn shape' torn mem ?_⟩
        rw [full]
        exact Nat.lt_succ_self _
    | torn shape torn mem many =>
      obtain ⟨t', d', T', run, shape', _, kept⟩ := shape.insert_new search data
      exact ⟨t', true, run, .torn shape' (torn.kept (shape.insert_kin run)) (kept mem)
        (Nat.lt_succ_of_lt many)⟩

theorem links_insert_all (links : Links t count) (pairs : List (K × Int)) :
    ∃ t' accepted, insertAll t pairs = some (t', accepted) ∧
      Links t' (accepted.length + count) := by
  induction pairs generalizing t count with
  | nil => exact ⟨t, [], rfl, (Nat.zero_add count).symm ▸ links⟩
  | cons pair pairs ih =>
    obtain ⟨t₁, inserted, run₁, links₁⟩ := links_insert links pair.1 pair.2
    obtain ⟨t₂, accepted, run₂, links₂⟩ := ih links₁
    refine ⟨t₂, _, insert_all_cons run₁ run₂, ?_⟩
    cases inserted with
    | true =>
      rw [if_pos rfl] at links₂ ⊢
      rw [List.length_cons, Nat.succ_add_eq_add_succ]
      exact links₂
    | false => exact links₂

end Links

/-- Insertions on an empty tree leave the leaves doubly linked exactly as long as at most
    twenty were accepted: the next one splits a leaf that has a right sibling. -/
theorem doubly_linked_iff_few_accepted (raw : Ptr → CNode K) (m_MaxKey : K)
    (pairs : List (K × Int)) :
    ∃ t accepted, insertAll (CBPlusTree.empty raw m_MaxKey) pairs = some (t, accepted) ∧
      (DoublyLinked t ↔ accepted.length ≤ MAXNUM_LEAF + (MINNUM_LEAF + 1)) := by
  cases pairs with
  | nil =>
    refine ⟨_, [], rfl, iff_of_true ⟨[], rfl, ?_, ?_⟩ (Nat.zero_le _)⟩
    · intro leaf mem
      cases mem
    · intro head is_head
      cases is_head
  | cons pair pairs =>
    obtain ⟨t₁, T₁, run₁, shape₁, one, same⟩ :=
      @Shape.insert_first _ _ (CBPlusTree.empty raw m_MaxKey) rfl pair.1 pair.2
    have fresh : HasLeft (((CBPlusTree.empty raw m_MaxKey).firstLeaf pair.1).heap) 0 none :=
      ⟨_, Heap.grown_fresh (CBPlusTree.empty raw m_MaxKey).heap .LEAF, rfl⟩
    have head := fresh.kept (insert_kin run₁) (Nat.lt_succ_self 0)
    have links₁ := Links.one shape₁ (same ▸ head)
    rw [show num 0 T₁ = 1 from congrArg List.length one] at links₁
    obtain ⟨t, accepted, run, links⟩ := links_insert_all links₁ pairs
    exact ⟨t, pair :: accepted, insert_all_cons run₁ run, links_linked links⟩

/-- Keys in increasing order: behind the twenty-first the last of the three leaves still has
    the first one as its left sibling. -/
theorem third_leaf_is_torn :
    ∃ t accepted, insertAll (CBPlusTree.empty (fun _ => zeroed) 0)
        ((List.range 21).map fun key => (Int.ofNat key, 0)) = some (t, accepted) ∧
      ¬ DoublyLinked t := by
  have facts : ((insertAll (CBPlusTree.empty (fun _ => zeroed) 0)
      ((List.range 21).map fun key => (Int.ofNat key, 0))).map fun last =>
        (last.1.printData.map (List.map Prod.fst), (last.1.heap.cells 3).map CNode.m_RightSibling,
          (last.1.heap.cells 2).map CNode.m_LeftSibling)) =
      some (some [0, 3, 2], some (some 2), some (some 0)) := by
    decide +kernel
  obtain ⟨⟨t, accepted⟩, run, eq⟩ := Option.map_eq_some_iff.mp facts
  obtain ⟨print, siblings⟩ := Prod.mk.inj eq
  obtain ⟨right, left⟩ := Prod.mk.inj siblings
  refine ⟨t, accepted, run, ?_⟩
  rintro ⟨ls, listed, back, _⟩
  obtain ⟨ls', listed', ptrs⟩ := Option.map_eq_some_iff.mp print
  cases listed.symm.trans listed'
  obtain ⟨n, cell, sibling⟩ := Option.map_eq_some_iff.mp right
  have mem : 3 ∈ ls.map Prod.fst := by
    rw [ptrs]
    decide
  obtain ⟨leaf, mem_leaf, is_three⟩ := List.mem_map.mp mem
  rw [← is_three] at cell
  obtain ⟨m, cell_m, left_m⟩ := back leaf mem_leaf n 2 cell sibling
  rw [cell_m, Option.map_some, left_m, is_three] at left
  cases left

end UC.BPlusTree
