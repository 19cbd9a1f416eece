import Mathlib.Data.List.Nodup
import UC.BPlusTree.LeafChain
import UC.BPlusTree.Rebalance

/- Borrowing and merging seen on the chain of leaves: entries move between leaves, leaves go,
   and the removal goes on in one subtree. The inner nodes above it are not looked at. -/
namespace UC.BPlusTree
open UC.Memory UC.Slots UC.Chains UC.BPlusTree.Tree

variable {K : Type}

/-- Leaves outside the given nodes stay as they are. -/
structure LeafFrame (changed : List Ptr) (h h' : Heap K) : Prop where
  next : h'.next = h.next
  leaf : ∀ x ∉ changed, ∀ n, h.cells x = some n → n.m_Type = .LEAF → h'.cells x = some n

section Frame

variable {h h' h'' : Heap K} {changed changed' : List Ptr}

theorem LeafFrame.refl (changed : List Ptr) (h : Heap K) : LeafFrame changed h h :=
  ⟨rfl, fun _ _ _ cell _ => cell⟩

theorem LeafFrame.trans (first : LeafFrame changed h h') (second : LeafFrame changed' h' h'')
    (part : changed' ⊆ changed) : LeafFrame changed h h'' := by
  constructor
  · exact second.next.trans first.next
  · intro x outside n cell type
    exact second.leaf x (fun mem => outside (part mem)) n (first.leaf x outside n cell type) type

theorem LeafFrame.mono (frame : LeafFrame changed' h h') (part : changed' ⊆ changed) :
    LeafFrame changed h h' :=
  (LeafFrame.refl changed h).trans frame part

theorem LeafFrame.chained (frame : LeafFrame changed h h') {ls : List (Leaf K)}
    {tail : Option Ptr} (chained : Chained h ls tail) (apart : ∀ leaf ∈ ls, leaf.ptr ∉ changed) :
    Chained h' ls tail := by
  refine linked_imp ?_ chained
  rintro leaf mem e ⟨n, cell, type, rest⟩
  exact ⟨n, frame.leaf _ (apart leaf mem) n cell type, type, rest⟩

end Frame

variable [LinearOrder K]

section Focus

variable {h h' : Heap K} {d lo : Nat} {p : Ptr} {pre post : List (Tree K d)} {k : Tree K d}
  {tail : Option Ptr}

omit [LinearOrder K] in
theorem kid_ptrs_sublist (kids : List (Tree K d)) :
    (kids.map (ptr d)).Sublist (kids.flatMap (ptrs d)) := by
  induction kids with
  | nil => exact List.Sublist.refl _
  | cons kid rest ih =>
    rw [List.map_cons, List.flatMap_cons]
    exact (List.singleton_sublist.mpr (ptr_mem_ptrs d kid)).append ih

omit [LinearOrder K] in
theorem kids_apart {kids : List (Tree K d)} (placed : Placed h (d + 1) (node p kids)) :
    p ∉ kids.map (ptr d) ∧ (kids.map (ptr d)).Nodup := by
  have nodup := placed.nodup
  rw [ptrs_node, List.nodup_cons] at nodup
  obtain ⟨outside, nodup⟩ := nodup
  have sub := kid_ptrs_sublist kids
  exact ⟨fun mem => outside (sub.subset mem), nodup.sublist sub⟩

/-- Node m of the parent p of two neighbouring kids. -/
structure Neighbours (h : Heap K) (p : Ptr) (pre : List (Tree K d)) (x y : Tree K d)
    (post : List (Tree K d)) (m : CNode K) : Prop where
  parent : h.cells p = some m
  branching : m.Branching ((pre.map fun kid => some (ptr d kid)) ++
    some (ptr d x) :: some (ptr d y) :: post.map fun kid => some (ptr d kid))
  full : m.m_KeyNum ≤ MAXNUM_KEY
  index : pre.length < m.m_KeyNum
  apart : ptr d x ≠ ptr d y
  apart_x : p ≠ ptr d x
  apart_y : p ≠ ptr d y

theorem neighbours {x y : Tree K d} (repr : Repr h (d + 1) (node p (pre ++ x :: y :: post)) tail)
    (within : Within lo (d + 1) (node p (pre ++ x :: y :: post)))
    (placed : Placed h (d + 1) (node p (pre ++ x :: y :: post))) :
    ∃ m, Neighbours h p pre x y post m := by
  obtain ⟨m, parent, type, childs, _⟩ := repr
  obtain ⟨_, upper, _⟩ := within
  obtain ⟨outside, nodup⟩ := kids_apart placed
  rw [List.map_append, List.map_cons, List.map_cons] at outside nodup
  rw [List.nodup_middle, List.nodup_cons] at nodup
  change (pre ++ x :: y :: post).length ≤ MAXNUM_CHILD at upper
  have branching : m.Branching ((pre.map fun kid => some (ptr d kid)) ++
      some (ptr d x) :: some (ptr d y) :: post.map fun kid => some (ptr d kid)) := by
    refine ⟨type, ?_⟩
    change _ = (pre ++ x :: y :: post).map _ at childs
    rwa [List.map_append] at childs
  have count := branching.count
  simp only [List.length_append, List.length_cons, List.length_map] at count upper
  have mem_y : ptr d y ∈ pre.map (ptr d) ++ ptr d y :: post.map (ptr d) :=
    List.mem_append_right _ List.mem_cons_self
  refine ⟨m, parent, branching, ?_, by omega, ?_, ?_, ?_⟩
  · unfold MAXNUM_CHILD at upper
    omega
  · exact fun eq => nodup.1 (eq ▸ mem_y)
  · exact fun eq => outside (eq ▸ List.mem_append_right _ List.mem_cons_self)
  · exact fun eq => outside (eq ▸
      List.mem_append_right _ (List.mem_cons_of_mem _ List.mem_cons_self))

end Focus

section LeafWindow

variable {h h' : Heap K} {p : Ptr} {pre post : List (Leaf K)} {x y : Leaf K} {tail : Option Ptr}

def overLeaves (p : Ptr) (ls : List (Leaf K)) : Tree K 1 := @node K 0 p ls

section Replaced

variable {M : Leaf K} {nl nr : List (Leaf K)}

end Replaced

structure LeafPair (h : Heap K) (p : Ptr) (pre : List (Leaf K)) (x y : Leaf K)
    (post : List (Leaf K)) (tail : Option Ptr) (a b m : CNode K) : Prop
    extends @Neighbours K 0 h p pre x y post m where
  cell_x : h.cells x.ptr = some a
  cell_y : h.cells y.ptr = some b
  holding_x : a.Holding x.entries
  holding_y : b.Holding y.entries
  sibling_x : a.m_RightSibling = some y.ptr
  sibling_y : b.m_RightSibling = begins post tail
  within_x : @Within K _ MINNUM_KEY 0 x
  within_y : @Within K _ MINNUM_KEY 0 y

theorem leaf_pair {lo : Nat} (repr : Repr h 1 (overLeaves p (pre ++ x :: y :: post)) tail)
    (within : Within lo 1 (overLeaves p (pre ++ x :: y :: post)))
    (placed : Placed h 1 (overLeaves p (pre ++ x :: y :: post))) :
    ∃ a b m, LeafPair h p pre x y post tail a b m := by
  obtain ⟨m, near⟩ := neighbours repr within placed
  obtain ⟨_, _, _, _, linked⟩ := repr
  have chained : Chained h (pre ++ x :: (y :: post)) tail := linked
  rw [chained_middle, begins_cons] at chained
  obtain ⟨_, ⟨a, cell_x, type_x, keys_x, datas_x, sibling_x⟩, behind⟩ := chained
  obtain ⟨⟨b, cell_y, type_y, keys_y, datas_y, sibling_y⟩, _⟩ := behind
  have kids := within.2.2
  exact ⟨a, b, m, near, cell_x, cell_y, ⟨type_x, keys_x, datas_x⟩, ⟨type_y, keys_y, datas_y⟩,
    sibling_x, sibling_y, kids x (List.mem_append_right _ List.mem_cons_self),
    kids y (List.mem_append_right _ (List.mem_cons_of_mem _ List.mem_cons_self))⟩

/-- The last entry of x goes to y. -/
theorem LeafPair.lend_left {a b m : CNode K} (pair : LeafPair h p pre x y post tail a b m)
    (more : MINNUM_KEY < x.entries.length) (low : y.entries.length = MINNUM_KEY) :
    ∃ es e en a' b', x.entries = es ++ [e] ∧ en.Perm (e :: y.entries) ∧
      en.length = MINNUM_KEY + 1 ∧ a'.Holding es ∧ b'.Holding en ∧
      ∃ h', h' = h.rewritten y.ptr x.ptr p b' a'
          { m with m_KeyValues := store m.m_KeyValues pre.length (b'.m_KeyValues 0) } ∧
        h.borrowFrom y.ptr x.ptr p pre.length .LEFT = some h' ∧
        Chained h' [⟨x.ptr, es⟩, ⟨y.ptr, en⟩] (begins post tail) ∧
        @Within K _ MINNUM_KEY 0 (⟨x.ptr, es⟩ : Leaf K) ∧
        @Within K _ MINNUM_LEAF 0 (⟨y.ptr, en⟩ : Leaf K) := by
  obtain ⟨es, e, parts⟩ := (List.eq_nil_or_concat' x.entries).resolve_left
    (List.ne_nil_of_length_pos (Nat.zero_lt_of_lt more))
  obtain ⟨_, upper, sorted⟩ := pair.within_x
  change x.entries.length ≤ MAXNUM_LEAF at upper
  change (x.entries.map Prod.fst).Pairwise _ at sorted
  rw [parts, List.length_append, List.length_singleton] at more upper
  rw [parts, List.map_append] at sorted
  have holding := pair.holding_x
  rw [parts] at holding
  obtain ⟨b', en, a', run, holding_b, perm, in_order, same_b, holding_a, same_a⟩ :=
    Heap.borrow_leaf_left pair.cell_y pair.cell_x pair.parent pair.holding_y holding
      pair.within_y.2.2 (low ▸ by decide) upper (Nat.lt_of_lt_of_le pair.index pair.full)
      pair.apart.symm pair.apart_y pair.apart_x
  have size := perm.length_eq
  rw [List.length_cons, low] at size
  refine ⟨es, e, en, a', b', parts, perm, size, holding_a, holding_b, _, rfl, run,
    ⟨?_, ?_, trivial⟩, ⟨Nat.le_of_lt_succ more, Nat.le_of_succ_le upper,
      (List.pairwise_append.mp sorted).1⟩, ?_, ?_, in_order⟩
  · exact ⟨a', Heap.rewritten_second pair.apart_x.symm, holding_a.type, holding_a.keys,
      holding_a.datas, same_a.trans pair.sibling_x⟩
  · exact ⟨b', Heap.rewritten_first pair.apart.symm pair.apart_y.symm, holding_b.type,
      holding_b.keys, holding_b.datas, same_b.trans pair.sibling_y⟩
  · change MINNUM_LEAF ≤ en.length
    rw [size]
    exact Nat.le_succ _
  · change en.length ≤ MAXNUM_LEAF
    rw [size]
    decide

/-- The entries of y go to x. -/
theorem LeafPair.merge {a b m m' : CNode K} (pair : LeafPair h p pre x y post tail a b m)
    (low_x : x.entries.length = MINNUM_KEY) (low_y : y.entries.length = MINNUM_KEY)
    (removed : m.removeKey pre.length (pre.length + 1) = some m') :
    ∃ en a', en.Perm (x.entries ++ y.entries) ∧ a'.Holding en ∧
      h.mergeChild x.ptr p y.ptr pre.length = some ((h.write x.ptr a').write p m') ∧
      Chained ((h.write x.ptr a').write p m') [⟨x.ptr, en⟩] (begins post tail) ∧
      MINNUM_KEY < en.length ∧ @Within K _ MINNUM_LEAF 0 (⟨x.ptr, en⟩ : Leaf K) := by
  obtain ⟨a', en, run, holding_a, perm, in_order, same_a⟩ :=
    Heap.merge_leaf pair.cell_x pair.cell_y pair.parent pair.holding_x pair.holding_y
      pair.within_x.2.2 (by rw [low_x, low_y]; decide) removed pair.apart pair.apart_x
  have size := perm.length_eq
  rw [List.length_append, low_x, low_y] at size
  refine ⟨en, a', perm, holding_a, run, ⟨?_, trivial⟩, size ▸ by decide, ?_, ?_, in_order⟩
  · exact ⟨a', (Heap.write_elsewhere _ _ pair.apart_x.symm).trans (Heap.write_here _ _ _),
      holding_a.type, holding_a.keys, holding_a.datas, same_a.trans pair.sibling_y⟩
  · change MINNUM_LEAF ≤ en.length
    rw [size]
    decide
  · change en.length ≤ MAXNUM_LEAF
    rw [size]
    decide

end LeafWindow

section InnerWindow

variable {h h' : Heap K} {d lo : Nat} {p : Ptr} {kids : List (Tree K (d + 1))}
  {tail : Option Ptr}

def grandkids (kids : List (Tree K (d + 1))) : List (Tree K d) :=
  @List.flatMap (Tree K (d + 1)) (Tree K d) Inner.kids kids

omit [LinearOrder K] in
theorem flat_map_grandkids {β : Type} (kids : List (Tree K (d + 1))) (f : Tree K d → List β) :
    (grandkids kids).flatMap f =
      @List.flatMap (Tree K (d + 1)) β (fun kid => (Inner.kids kid).flatMap f) kids :=
  List.flatMap_assoc

omit [LinearOrder K] in
theorem grandkids_cons (kid : Tree K (d + 1)) (rest : List (Tree K (d + 1))) :
    grandkids (kid :: rest) = Inner.kids kid ++ grandkids rest := List.flatMap_cons

omit [LinearOrder K] in
theorem grandkids_ptrs (p : Ptr) (kids : List (Tree K (d + 1))) :
    (ptrs (d + 2) (node p kids)).Perm
      (p :: (kids.map (ptr (d + 1)) ++ (grandkids kids).flatMap (ptrs d))) := by
  rw [flat_map_grandkids]
  exact ((List.map_append_flatMap_perm kids (ptr (d + 1))
    (fun kid => (Inner.kids kid).flatMap (ptrs d))).symm).cons p

/-- Which nodes a node over some of the grandkids has, and which are outside of it. -/
structure OverGrandkids (p q : Ptr) (kids : List (Tree K (d + 1))) (Gl Gm Gr : List (Tree K d)) :
    Prop where
  nodup : (ptrs (d + 1) (node q Gm)).Nodup
  part : ptrs (d + 1) (node q Gm) ⊆ ptrs (d + 2) (node p kids)
  below : ∀ z ∈ Gm.flatMap (ptrs d), z ≠ p ∧ z ∉ kids.map (ptr (d + 1))
  parent : p ∉ ptrs (d + 1) (node q Gm)
  leaves : ∀ leaf ∈ Gl.flatMap (leaves d) ++ Gr.flatMap (leaves d),
    leaf.ptr ∉ ptrs (d + 1) (node q Gm) ∧ leaf.ptr ≠ p

omit [LinearOrder K] in
theorem over_grandkids {q : Ptr} {Gl Gm Gr : List (Tree K d)}
    (nodup : (ptrs (d + 2) (node p kids)).Nodup) (parts : grandkids kids = Gl ++ (Gm ++ Gr))
    (is_kid : q ∈ kids.map (ptr (d + 1))) : OverGrandkids p q kids Gl Gm Gr := by
  have all := grandkids_ptrs p kids
  have distinct := all.nodup_iff.mp nodup
  rw [parts] at distinct all
  obtain ⟨outside, distinct⟩ := List.nodup_cons.mp distinct
  obtain ⟨_, distinct_g, apart⟩ := List.nodup_append.mp distinct
  have inside : ∀ z ∈ Gm.flatMap (ptrs d), z ∈ (Gl ++ (Gm ++ Gr)).flatMap (ptrs d) := by
    intro z mem
    rw [List.flatMap_append, List.flatMap_append]
    exact List.mem_append_right _ (List.mem_append_left _ mem)
  have between := flat_map_between Gl Gm Gr (ptrs d)
  have outer : ∀ leaf ∈ Gl.flatMap (leaves d) ++ Gr.flatMap (leaves d),
      leaf.ptr ∈ (Gl ++ Gr).flatMap (ptrs d) := by
    intro leaf mem
    rw [← List.flatMap_append] at mem
    obtain ⟨g, mem_g, mem_leaf⟩ := List.mem_flatMap.mp mem
    exact List.mem_flatMap.mpr
      ⟨g, mem_g, (leaves_are_nodes g).subset (List.mem_map_of_mem mem_leaf)⟩
  constructor
  · rw [ptrs_node, List.nodup_cons]
    rw [List.flatMap_append, List.flatMap_append] at distinct_g
    exact ⟨fun mem => apart q is_kid q (inside q mem) rfl,
      (List.nodup_append.mp (List.nodup_append.mp distinct_g).2.1).1⟩
  · intro z mem
    rw [ptrs_node] at mem
    apply all.mem_iff.mpr
    rcases List.mem_cons.mp mem with rfl | mem
    · exact List.mem_cons_of_mem _ (List.mem_append_left _ is_kid)
    · exact List.mem_cons_of_mem _ (List.mem_append_right _ (inside z mem))
  · intro z mem
    constructor
    · intro eq
      exact outside (eq ▸ List.mem_append_right _ (inside z mem))
    · intro mem_kid
      exact apart z mem_kid z (inside z mem) rfl
  · intro mem
    rcases List.mem_cons.mp mem with rfl | mem
    · exact outside (List.mem_append_left _ is_kid)
    · exact outside (List.mem_append_right _ (inside p mem))
  · intro leaf mem
    have other := outer leaf mem
    have here := between.mem_iff.mpr (List.mem_append_right _ other)
    constructor
    · intro window
      rw [ptrs_node, List.mem_cons] at window
      rcases window with eq | window
      · exact apart q is_kid _ here eq.symm
      · exact (List.nodup_append.mp (between.nodup_iff.mp distinct_g)).2.2 _ window _ other rfl
    · intro eq
      exact outside (eq ▸ List.mem_append_right _ here)

structure InnerPair (h : Heap K) (p : Ptr) (pre : List (Tree K (d + 1))) (x y : Tree K (d + 1))
    (post : List (Tree K (d + 1))) (a b m : CNode K) : Prop
    extends Neighbours h p pre x y post m where
  cell_x : h.cells (ptr (d + 1) x) = some a
  cell_y : h.cells (ptr (d + 1) y) = some b
  branching_x : a.Branching ((Inner.kids x).map fun kid => some (ptr d kid))
  branching_y : b.Branching ((Inner.kids y).map fun kid => some (ptr d kid))
  fits_x : (Inner.kids x).length ≤ MAXNUM_CHILD
  fits_y : (Inner.kids y).length ≤ MAXNUM_CHILD

variable {pre post : List (Tree K (d + 1))} {x y : Tree K (d + 1)}

theorem inner_pair (repr : Repr h (d + 2) (node p (pre ++ x :: y :: post)) tail)
    (within : Within lo (d + 2) (node p (pre ++ x :: y :: post)))
    (placed : Placed h (d + 2) (node p (pre ++ x :: y :: post))) :
    ∃ a b m, InnerPair h p pre x y post a b m := by
  obtain ⟨m, near⟩ := neighbours repr within placed
  obtain ⟨_, _, _, _, linked⟩ := repr
  obtain ⟨_, _, kids⟩ := within
  change Linked _ _ (pre ++ x :: (y :: post)) _ at linked
  rw [linked_middle] at linked
  obtain ⟨_, ⟨a, cell_x, type_x, childs_x, _⟩, ⟨b, cell_y, type_y, childs_y, _⟩, _⟩ := linked
  exact ⟨a, b, m, near, cell_x, cell_y, ⟨type_x, childs_x⟩, ⟨type_y, childs_y⟩,
    (kids x (List.mem_append_right _ List.mem_cons_self)).2.1,
    (kids y (List.mem_append_right _ (List.mem_cons_of_mem _ List.mem_cons_self))).2.1⟩

omit [LinearOrder K] in
theorem mem_kids_left : ptr (d + 1) x ∈ (pre ++ x :: y :: post).map (ptr (d + 1)) :=
  List.mem_map_of_mem (List.mem_append_right _ List.mem_cons_self)

omit [LinearOrder K] in
theorem mem_kids_right : ptr (d + 1) y ∈ (pre ++ x :: y :: post).map (ptr (d + 1)) :=
  List.mem_map_of_mem (List.mem_append_right _ (List.mem_cons_of_mem _ List.mem_cons_self))

end InnerWindow

section Rebalance

variable {h h' : Heap K} {d lo : Nat} {p : Ptr} {pre post : List (Tree K d)} {x y : Tree K d}
  {tail : Option Ptr}

variable {k : Tree K d}

omit [LinearOrder K] in
theorem sides (repr : Repr h (d + 1) (node p (pre ++ k :: post)) tail) :
    ∃ m, h.cells p = some m ∧
      (if pre.length > 0 then m.m_Childs (pre.length - 1) else none) =
        pre.getLast?.map (ptr d) ∧
      (if pre.length < m.m_KeyNum then m.m_Childs (pre.length + 1) else none) =
        post.head?.map (ptr d) := by
  obtain ⟨m, parent, _, count, _⟩ := repr_child repr
  refine ⟨m, parent, ?_, ?_⟩
  · rcases List.eq_nil_or_concat' pre with rfl | ⟨front, x, rfl⟩
    · rfl
    · rw [List.append_assoc] at repr
      obtain ⟨m', parent', _, _, child⟩ := repr_child repr
      cases Option.some.inj (parent.symm.trans parent')
      rw [List.getLast?_concat, List.length_append, List.length_singleton, if_pos (Nat.succ_pos _)]
      exact child
  · cases post with
    | nil => rw [if_neg (by rw [count]; exact Nat.lt_irrefl _)]; rfl
    | cons y rest =>
      rw [List.append_cons] at repr
      obtain ⟨m', parent', _, _, child⟩ := repr_child repr
      cases Option.some.inj (parent.symm.trans parent')
      rw [List.length_append, List.length_singleton] at child
      rw [if_pos (by rw [count, List.length_cons]; omega)]
      exact child

end Rebalance

end UC.BPlusTree
