import UC.BPlusTree.Refits

/- Borrowing and merging that leave the children in order: the tree stands again, and the node
   the removal goes on with is the one nextNode tells. -/
namespace UC.BPlusTree
open UC.Memory UC.Loops UC.Slots UC.Chains UC.BPlusTree.Tree

variable {K : Type} [LinearOrder K]

omit [LinearOrder K] in
theorem rekeyed_branching {m : CNode K} {cs : List (Option Ptr)} (branching : m.Branching cs)
    (keys : Mem K) : CNode.Branching { m with m_KeyValues := keys } cs :=
  ⟨branching.type, branching.childs⟩

section LeafPairs

variable {h : Heap K} {p : Ptr} {pre post : List (Leaf K)} {x y : Leaf K} {tail : Option Ptr}
  {lo : Nat}

omit [LinearOrder K] in
theorem pair_branching {m : CNode K} (near : @Neighbours K 0 h p pre x y post m)
    (keys : Mem K) (es en : List (K × Int)) :
    CNode.Branching { m with m_KeyValues := keys }
      ((pre ++ (([⟨x.ptr, es⟩, ⟨y.ptr, en⟩] : List (Leaf K)) ++ post)).map
        fun leaf => some leaf.ptr) := by
  rw [List.map_append]
  exact rekeyed_branching near.branching keys

theorem refits_leaves {h' : Heap K} {new : List (Leaf K)} {n : CNode K}
    (repr : Repr h 1 (overLeaves p (pre ++ x :: y :: post)) tail)
    (within : Within lo 1 (overLeaves p (pre ++ x :: y :: post)))
    (placed : Placed h 1 (overLeaves p (pre ++ x :: y :: post)))
    (parent : h'.cells p = some n)
    (branching : n.Branching ((pre ++ (new ++ post)).map fun leaf => some leaf.ptr))
    (chained : Chained h' new (begins post tail)) (start : ∀ e, begins new e = some x.ptr)
    (bounded : ∀ leaf ∈ new, @Within K _ MINNUM_KEY 0 leaf)
    (enough : lo + 1 ≤ (pre ++ (new ++ post)).length)
    (nodes : (new.map Leaf.ptr).Sublist [x.ptr, y.ptr]) (next : h'.next = h.next)
    (others : ∀ z, z ≠ x.ptr → z ≠ y.ptr → z ≠ p → h'.cells z = h.cells z)
    (keys : ∀ S, h.KeysIn S → h'.KeysIn S) :
    Refits h h' 1 (overLeaves p (pre ++ x :: y :: post)) (overLeaves p (pre ++ (new ++ post)))
      tail lo := by
  have few := nodes.length_le
  rw [List.length_map] at few
  rw [List.map_eq_flatMap] at nodes
  refine @refits_pair K _ h h' 0 lo p pre post x y tail new n repr within placed parent branching
    chained start bounded enough few nodes.subperm next ?_ keys
  intro z not_p not_x not_y
  exact others z (fun eq => not_x (List.mem_singleton.mpr eq))
    (fun eq => not_y (List.mem_singleton.mpr eq)) not_p

theorem leaf_refits_left (repr : Repr h 1 (overLeaves p (pre ++ x :: y :: post)) tail)
    (within : Within lo 1 (overLeaves p (pre ++ x :: y :: post)))
    (placed : Placed h 1 (overLeaves p (pre ++ x :: y :: post)))
    (more : MINNUM_KEY < x.entries.length) (low : y.entries.length = MINNUM_KEY) :
    ∃ h', h.borrowFrom y.ptr x.ptr p pre.length .LEFT = some h' ∧ ∃ x' M : Leaf K,
      M.ptr = y.ptr ∧ Refits h h' 1 (overLeaves p (pre ++ x :: y :: post))
        (overLeaves p (pre ++ ([x', M] ++ post))) tail lo ∧ MINNUM_KEY < M.entries.length := by
  obtain ⟨a, b, m, pair⟩ := leaf_pair repr within placed
  obtain ⟨es, e, en, a', b', parts, perm, size, holding_a, holding_b, _, rfl, run, chained,
    bounded_x, bounded_y⟩ := pair.lend_left more low
  have enough : MINNUM_KEY < en.length := size ▸ Nat.lt_succ_self _
  refine ⟨_, run, ⟨x.ptr, es⟩, ⟨y.ptr, en⟩, rfl, ?_, enough⟩
  refine refits_leaves repr within placed Heap.rewritten_third
    (pair_branching pair.toNeighbours _ es en) chained (fun _ => rfl) ?_ ?_
    (List.Sublist.refl _) rfl ?_ ?_
  · intro leaf mem
    rcases List.mem_cons.mp mem with rfl | mem
    · exact bounded_x
    · cases List.mem_singleton.mp mem
      exact ⟨Nat.le_of_lt enough, bounded_y.2⟩
  · have lower := within.1
    change lo + 1 ≤ (pre ++ x :: y :: post).length at lower
    simp only [List.length_append, List.length_cons, List.length_nil] at lower ⊢
    omega
  · intro z not_x not_y not_p
    exact Heap.rewritten_others not_y not_x not_p
  · intro S keys_in
    have in_x := (keys_in_holding pair.holding_x).mp (keys_in _ _ pair.cell_x)
    have in_y := (keys_in_holding pair.holding_y).mp (keys_in _ _ pair.cell_y)
    rw [parts] at in_x
    have in_b : b'.KeysIn S := by
      rw [keys_in_holding holding_b]
      intro e' mem
      rcases List.mem_cons.mp (perm.mem_iff.mp mem) with rfl | mem
      · exact in_x _ (List.mem_append_right _ (List.mem_singleton_self _))
      · exact in_y e' mem
    refine keys_in_rewritten keys_in in_b ?_ (keys_in_store (keys_in _ _ pair.parent) _ ?_)
    · rw [keys_in_holding holding_a]
      exact fun e' mem => in_x e' (List.mem_append_left _ mem)
    · exact key_in in_b (by rw [holding_b.count, size]; decide)

end LeafPairs

section InnerPairs

variable {h : Heap K} {d lo : Nat} {p : Ptr} {pre post : List (Tree K (d + 1))}
  {x y : Tree K (d + 1)} {tail : Option Ptr}

omit [LinearOrder K] in
theorem grandkid_elsewhere {kids : List (Tree K (d + 1))}
    (placed : Placed h (d + 2) (node p kids)) {kid : Tree K (d + 1)} (mem : kid ∈ kids)
    {z : Ptr} (low : z ∈ below (d + 1) kid) : z ≠ p ∧ z ∉ kids.map (ptr (d + 1)) := by
  have apart := @over_grandkids _ _ p kids (ptr (d + 1) kid) [] (grandkids kids) [] placed.nodup
    (by rw [List.append_nil, List.nil_append]) (List.mem_map_of_mem mem)
  apply apart.below z
  rw [flat_map_grandkids]
  exact List.mem_flatMap.mpr ⟨kid, mem, low⟩

omit [LinearOrder K] in
theorem below_kids (kids : List (Tree K (d + 1))) :
    kids.flatMap (below (d + 1)) = (grandkids kids).flatMap (ptrs d) :=
  (flat_map_grandkids kids (ptrs d)).symm

omit [LinearOrder K] in
theorem head_groups {new : List (Tree K (d + 1))} (some_kid : ∀ kid ∈ new, Inner.kids kid ≠ [])
    (e : Option Ptr) :
    headOr (first (d + 1)) new e = headOr (first d) (grandkids new) e := by
  cases new with
  | nil => rfl
  | cons kid rest =>
    obtain ⟨g, gs, parts⟩ := List.exists_cons_of_ne_nil (some_kid kid List.mem_cons_self)
    rw [grandkids_cons, parts, head_or_cons, List.cons_append, head_or_cons, first_inner parts]

omit [LinearOrder K] in
theorem linked_groups {h' : Heap K} {new : List (Tree K (d + 1))} {e : Option Ptr}
    (cells : ∀ kid ∈ new, ∃ c, h'.cells (ptr (d + 1) kid) = some c ∧
      c.Branching ((Inner.kids kid).map fun g => some (ptr d g)))
    (some_kid : ∀ kid ∈ new, Inner.kids kid ≠ [])
    (linked : Linked (Repr h' d) (first d) (grandkids new) e) :
    Linked (Repr h' (d + 1)) (first (d + 1)) new e := by
  induction new with
  | nil => trivial
  | cons kid rest ih =>
    have some_rest : ∀ kid ∈ rest, Inner.kids kid ≠ [] := fun kid mem =>
      some_kid kid (List.mem_cons_of_mem _ mem)
    rw [grandkids_cons, linked_append, ← head_groups some_rest] at linked
    obtain ⟨here, later⟩ := linked
    obtain ⟨c, cell, branching⟩ := cells kid List.mem_cons_self
    exact ⟨⟨c, cell, branching.type, branching.childs, here⟩,
      ih (fun kid mem => cells kid (List.mem_cons_of_mem _ mem)) some_rest later⟩

theorem refits_grandkids {h' : Heap K} {new : List (Tree K (d + 1))} {n : CNode K}
    (repr : Repr h (d + 2) (node p (pre ++ x :: y :: post)) tail)
    (within : Within lo (d + 2) (node p (pre ++ x :: y :: post)))
    (placed : Placed h (d + 2) (node p (pre ++ x :: y :: post)))
    (parent : h'.cells p = some n)
    (branching : n.Branching ((pre ++ (new ++ post)).map fun kid => some (ptr (d + 1) kid)))
    (cells : ∀ kid ∈ new, ∃ c, h'.cells (ptr (d + 1) kid) = some c ∧
      c.Branching ((Inner.kids kid).map fun g => some (ptr d g)))
    (sizes : ∀ kid ∈ new,
      MINNUM_KEY + 1 ≤ (Inner.kids kid).length ∧ (Inner.kids kid).length ≤ MAXNUM_CHILD)
    (regrouped : grandkids new = Inner.kids x ++ Inner.kids y)
    (enough : lo + 1 ≤ (pre ++ (new ++ post)).length)
    (nodes : (new.map (ptr (d + 1))).Sublist [ptr (d + 1) x, ptr (d + 1) y])
    (next : h'.next = h.next)
    (others : ∀ z, z ≠ p → z ≠ ptr (d + 1) x → z ≠ ptr (d + 1) y → h'.cells z = h.cells z)
    (keys : ∀ S, h.KeysIn S → h'.KeysIn S) :
    Refits h h' (d + 2) (node p (pre ++ x :: y :: post)) (node p (pre ++ (new ++ post))) tail
        lo ∧
      ∀ kid ∈ new, ∀ z ∈ below (d + 1) kid, h'.cells z = h.cells z := by
  obtain ⟨_, _, _, _, linked⟩ := id repr
  obtain ⟨_, _, kids⟩ := id within
  change Linked _ _ (pre ++ x :: (y :: post)) _ at linked
  change ∀ kid ∈ pre ++ x :: y :: post, _ at kids
  rw [linked_middle] at linked
  obtain ⟨_, ⟨_, _, _, _, linked_x⟩, ⟨_, _, _, _, linked_y⟩, _⟩ := linked
  have mem_x : x ∈ pre ++ x :: y :: post := List.mem_append_right _ List.mem_cons_self
  have mem_y : y ∈ pre ++ x :: y :: post :=
    List.mem_append_right _ (List.mem_cons_of_mem _ List.mem_cons_self)
  obtain ⟨enough_x, _, kids_x⟩ := kids x mem_x
  obtain ⟨enough_y, _, kids_y⟩ := kids y mem_y
  have deep : ∀ z ∈ (Inner.kids x ++ Inner.kids y).flatMap (ptrs d), h'.cells z = h.cells z := by
    intro z mem
    rw [List.flatMap_append] at mem
    have apart : z ≠ p ∧ z ∉ (pre ++ x :: y :: post).map (ptr (d + 1)) :=
      (List.mem_append.mp mem).elim (grandkid_elsewhere placed mem_x)
        (grandkid_elsewhere placed mem_y)
    exact others z apart.1 (fun eq => apart.2 (eq ▸ mem_kids_left))
      (fun eq => apart.2 (eq ▸ mem_kids_right))
  obtain ⟨f, fs, front_y⟩ := List.exists_cons_of_length_pos
    (Nat.lt_of_lt_of_le (Nat.zero_lt_succ _) enough_y)
  obtain ⟨g, gs, front_x⟩ := List.exists_cons_of_length_pos
    (Nat.lt_of_lt_of_le (Nat.zero_lt_succ _) enough_x)
  have whole : Linked (Repr h d) (first d) (Inner.kids x ++ Inner.kids y)
      (headOr (first (d + 1)) post tail) := by
    rw [linked_append]
    refine ⟨?_, linked_y⟩
    rw [head_or_cons, first_inner front_y] at linked_x
    rw [front_y, head_or_cons]
    exact linked_x
  have moved : Linked (Repr h' d) (first d) (grandkids new) (headOr (first (d + 1)) post tail) := by
    rw [regrouped]
    refine linked_same ?_ whole
    intro kid mem z mem_z
    exact deep z (List.mem_flatMap.mpr ⟨kid, mem, mem_z⟩)
  have some_kid : ∀ kid ∈ new, Inner.kids kid ≠ [] := fun kid mem =>
    List.ne_nil_of_length_pos (Nat.lt_of_lt_of_le (Nat.zero_lt_succ _) (sizes kid mem).1)
  have start : ∀ e, headOr (first (d + 1)) new e = some (first (d + 1) x) := by
    intro e
    rw [head_groups some_kid, regrouped, front_x, List.cons_append, head_or_cons,
      first_inner front_x]
  have low : new.flatMap (below (d + 1)) = (Inner.kids x ++ Inner.kids y).flatMap (ptrs d) := by
    rw [below_kids, regrouped]
  have few := nodes.length_le
  rw [List.length_map] at few
  refine ⟨refits_pair repr within placed parent branching (linked_groups cells some_kid moved)
    start ?_ enough few ?_ next ?_
    keys, ?_⟩
  · intro kid mem
    refine ⟨(sizes kid mem).1, (sizes kid mem).2, ?_⟩
    intro g' mem_g
    have inside : g' ∈ grandkids new := List.mem_flatMap.mpr ⟨kid, mem, mem_g⟩
    rw [regrouped] at inside
    exact (List.mem_append.mp inside).elim (kids_x g') (kids_y g')
  · have old : (ptrs (d + 1) x ++ ptrs (d + 1) y).Perm
        ([ptr (d + 1) x, ptr (d + 1) y] ++ (Inner.kids x ++ Inner.kids y).flatMap (ptrs d)) := by
      rw [List.flatMap_append]
      exact (@List.perm_middle _ _ (below (d + 1) x) _).cons _
    have fresh : (new.flatMap (ptrs (d + 1))).Perm
        (new.map (ptr (d + 1)) ++ (Inner.kids x ++ Inner.kids y).flatMap (ptrs d)) := by
      rw [← low]
      exact (List.map_append_flatMap_perm new (ptr (d + 1)) (below (d + 1))).symm
    exact (fresh.subperm.trans (nodes.append_right _).subperm).trans old.symm.subperm
  · intro z not_p not_x not_y
    exact others z not_p (fun eq => not_x (eq ▸ ptr_mem_ptrs _ x))
      (fun eq => not_y (eq ▸ ptr_mem_ptrs _ y))
  · intro kid mem z mem_z
    apply deep z
    rw [← low]
    exact List.mem_flatMap.mpr ⟨kid, mem, mem_z⟩

theorem inner_refits_left (repr : Repr h (d + 2) (node p (pre ++ x :: y :: post)) tail)
    (within : Within lo (d + 2) (node p (pre ++ x :: y :: post)))
    (placed : Placed h (d + 2) (node p (pre ++ x :: y :: post)))
    (more : MINNUM_KEY < num (d + 1) x) (low : num (d + 1) y = MINNUM_KEY) :
    ∃ h', h.borrowFrom (ptr (d + 1) y) (ptr (d + 1) x) p pre.length .LEFT = some h' ∧
      ∃ x' M : Tree K (d + 1), ptr (d + 1) M = ptr (d + 1) y ∧
        Refits h h' (d + 2) (node p (pre ++ x :: y :: post)) (node p (pre ++ ([x', M] ++ post)))
          tail lo ∧
        MINNUM_KEY < num (d + 1) M ∧ ∀ z ∈ below (d + 1) M, h'.cells z = h.cells z := by
  obtain ⟨a, b, m, pair⟩ := inner_pair repr within placed
  rw [num_inner] at more low
  have count_x := pair.branching_x.count
  have count_y := pair.branching_y.count
  have fits_x := pair.fits_x
  rw [List.length_map] at count_x count_y
  unfold MAXNUM_CHILD at fits_x
  have half : MINNUM_KEY + 1 < MAXNUM_KEY := by decide
  have some_key : 0 < MINNUM_KEY := by decide
  obtain ⟨gs, g, parts⟩ := (List.eq_nil_or_concat' (Inner.kids x)).resolve_left
    (List.ne_nil_of_length_pos (Nat.lt_of_lt_of_le (Nat.zero_lt_of_lt more) (Nat.sub_le _ _)))
  have branching_x := pair.branching_x
  rw [parts, List.map_append] at branching_x
  rw [parts, List.length_append, List.length_singleton] at more count_x fits_x
  have room : b.m_KeyNum < MAXNUM_KEY := by omega
  have has_key : 0 < a.m_KeyNum := by omega
  have few : a.m_KeyNum ≤ MAXNUM_KEY := by omega
  have index := Nat.lt_of_lt_of_le pair.index pair.full
  have run := Heap.borrow_inner_left_run pair.cell_y pair.cell_x pair.parent
    pair.branching_y.type branching_x.type room has_key few index pair.apart.symm pair.apart_y
    pair.apart_x
  obtain ⟨b', m', a', run', branching_b, branching_a, _⟩ :=
    Heap.borrow_inner_left pair.cell_y pair.cell_x pair.parent pair.branching_y branching_x
      room has_key few index pair.apart.symm pair.apart_y pair.apart_x
  have same := Option.some.inj (run'.symm.trans run)
  obtain rfl := Option.some.inj ((Heap.rewritten_first pair.apart_y.symm pair.apart.symm).symm.trans
    ((congrArg (fun g => Heap.cells g _) same).trans
      (Heap.rewritten_first pair.apart_y.symm pair.apart.symm)))
  obtain rfl := Option.some.inj (Heap.rewritten_third.symm.trans
    ((congrArg (fun g => Heap.cells g _) same).trans Heap.rewritten_third))
  have spare : MINNUM_KEY < num (d + 1) (node (ptr (d + 1) y) (g :: Inner.kids y)) := by
    change MINNUM_KEY < (g :: Inner.kids y).length - 1
    rw [List.length_cons]
    omega
  refine ⟨_, run, node (ptr (d + 1) x) gs, node (ptr (d + 1) y) (g :: Inner.kids y), rfl, ?_⟩
  refine And.imp_right
    (fun deep => ⟨spare, deep _ (List.mem_cons_of_mem _ List.mem_cons_self)⟩)
    (refits_grandkids repr within placed (Heap.rewritten_second pair.apart_x) ?_ ?_ ?_ ?_ ?_
      (List.Sublist.refl _) rfl ?_ ?_)
  · rw [List.map_append]
    exact rekeyed_branching pair.branching _
  · intro kid mem
    rcases List.mem_cons.mp mem with rfl | mem
    · exact ⟨_, Heap.rewritten_third, branching_a⟩
    · cases List.mem_singleton.mp mem
      exact ⟨_, Heap.rewritten_first pair.apart_y.symm pair.apart.symm, branching_b⟩
  · intro kid mem
    rcases List.mem_cons.mp mem with rfl | mem
    · change MINNUM_KEY + 1 ≤ gs.length ∧ gs.length ≤ MAXNUM_KEY + 1
      omega
    · cases List.mem_singleton.mp mem
      change MINNUM_KEY + 1 ≤ (g :: Inner.kids y).length ∧
        (g :: Inner.kids y).length ≤ MAXNUM_KEY + 1
      rw [List.length_cons]
      omega
  · change gs ++ ((g :: Inner.kids y) ++ []) = _
    rw [parts, List.append_nil, List.append_assoc]
    rfl
  · have lower := within.1
    change lo + 1 ≤ (pre ++ x :: y :: post).length at lower
    simp only [List.length_append, List.length_cons, List.length_nil] at lower ⊢
    omega
  · intro z not_p not_x not_y
    exact Heap.rewritten_others not_y not_p not_x
  · intro S keys_in
    have in_x := keys_in _ _ pair.cell_x
    refine keys_in_rewritten keys_in ?_ (keys_in_store (keys_in _ _ pair.parent) _ ?_) ?_
    · exact keys_in_insert (keys_in _ _ pair.cell_y) (Nat.zero_le _)
        (key_in (keys_in _ _ pair.parent) pair.index)
    · exact key_in in_x (Nat.sub_lt has_key Nat.one_pos)
    · exact keys_in_without in_x (Nat.sub_lt has_key Nat.one_pos) _

end InnerPairs

section Steps

variable {h : Heap K} {d lo : Nat} {p : Ptr} {pre post : List (Tree K d)} {k x y : Tree K d}
  {tail : Option Ptr}

/-- Kid M of T in heap h' has a key to spare, and its nodes below the root are as they were in
    heap h. -/
structure Rebalanced (h h' : Heap K) (d : Nat) (T : Tree K (d + 1)) (tail : Option Ptr) (lo : Nat)
    (pre : List (Tree K d)) (M : Tree K d) (post : List (Tree K d)) : Prop where
  refits : Refits h h' (d + 1) T (node (ptr (d + 1) T) (pre ++ M :: post)) tail lo
  more : MINNUM_KEY < num d M
  deep : ∀ z ∈ below d M, h'.cells z = h.cells z

theorem refits_left (repr : Repr h (d + 1) (node p (pre ++ x :: y :: post)) tail)
    (within : Within lo (d + 1) (node p (pre ++ x :: y :: post)))
    (placed : Placed h (d + 1) (node p (pre ++ x :: y :: post)))
    (more : MINNUM_KEY < num d x) (low : num d y = MINNUM_KEY) :
    ∃ h', h.borrowFrom (ptr d y) (ptr d x) p pre.length .LEFT = some h' ∧ ∃ x' M,
      ptr d M = ptr d y ∧
        Rebalanced h h' d (node p (pre ++ x :: y :: post)) tail lo (pre ++ [x']) M post := by
  cases d with
  | zero =>
    obtain ⟨h', run, x', M, same, refits, spare⟩ := leaf_refits_left repr within placed more low
    refine ⟨h', run, x', M, same, ?_, spare, fun _ mem => absurd mem List.not_mem_nil⟩
    rw [List.append_assoc]
    exact refits
  | succ d =>
    obtain ⟨h', run, x', M, same, refits, spare, deep⟩ :=
      inner_refits_left repr within placed more low
    refine ⟨h', run, x', M, same, ?_, spare, deep⟩
    rw [List.append_assoc]
    exact refits

variable {a b m v : CNode K}

/-- The node on the left gives an entry or a child away. -/
theorem left_step (repr : Repr h (d + 1) (node p (pre ++ x :: y :: post)) tail)
    (within : Within lo (d + 1) (node p (pre ++ x :: y :: post)))
    (placed : Placed h (d + 1) (node p (pre ++ x :: y :: post)))
    (cell_x : h.cells (ptr d x) = some a) (cell_y : h.cells (ptr d y) = some b)
    (parent : h.cells p = some m) (more : MINNUM_KEY < num d x) (low : num d y = MINNUM_KEY)
    (made : b.borrowed a (m.m_KeyValues pre.length) .LEFT = some v) :
    ∃ h', h.borrowFrom (ptr d y) (ptr d x) p pre.length .LEFT = some h' ∧
      h'.cells (ptr d y) = some v ∧ ∃ pre' M post', ptr d M = ptr d y ∧
        Rebalanced h h' d (node p (pre ++ x :: y :: post)) tail lo pre' M post' := by
  obtain ⟨_, near⟩ := neighbours repr within placed
  obtain ⟨h', run, x', M, same, rebalanced⟩ := refits_left repr within placed more low
  have here := borrow_left_cell run cell_y cell_x parent near.apart.symm near.apart_y
  exact ⟨h', run, here.trans made, _, M, _, same, rebalanced⟩

section Cases

variable {child : Ptr} {c : CNode K} {i : Nat} {left right : Option Ptr}

end Cases

end Steps

end UC.BPlusTree
