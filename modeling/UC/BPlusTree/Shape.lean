import Mathlib.Data.Int.Order.Basic
import Mathlib.Data.List.Flatten
import UC.BPlusTree.Insert

/- Runs of insertions on an empty tree: the shape of the tree they leave and what it
   stores. -/
namespace UC.BPlusTree
open UC.Memory UC.Slots UC.Chains UC.BPlusTree.Tree

variable {K : Type} [LinearOrder K]

section Leaves

variable {h : Heap K}

def printed (leaf : Leaf K) : Ptr × List Int := (leaf.ptr, leaf.entries.map Prod.snd)

omit [LinearOrder K] in
theorem print_leaves_step {p : Ptr} {n : CNode K} (cell : h.cells p = some n) (fuel : Nat) :
    h.printLeaves (fuel + 1) (some p) =
      (h.printLeaves fuel n.m_RightSibling).map ((p, slice n.m_Datas 0 n.m_KeyNum) :: ·) := by
  rw [Heap.printLeaves, cell]
  simp only [Option.bind_eq_bind, Option.bind_some]
  cases h.printLeaves fuel n.m_RightSibling <;> rfl

def Prints (h : Heap K) (begin : Option Ptr) (leaves : List (Leaf K)) (tail : Option Ptr) : Prop :=
  ∀ fuel, h.printLeaves (fuel + leaves.length) begin =
    (h.printLeaves fuel tail).map (leaves.map printed ++ ·)

omit [LinearOrder K] in
theorem prints_none (tail : Option Ptr) : Prints h tail [] tail := by
  intro fuel
  exact (Option.map_id' (x := h.printLeaves fuel tail)).symm

omit [LinearOrder K] in
theorem prints_append {begin middle tail : Option Ptr} {xs ys : List (Leaf K)}
    (front : Prints h begin xs middle) (back : Prints h middle ys tail) :
    Prints h begin (xs ++ ys) tail := by
  intro fuel
  rw [List.length_append, Nat.add_comm xs.length, ← Nat.add_assoc, front, back, Option.map_map,
    List.map_append]
  congr 1
  funext rest
  exact (List.append_assoc _ _ _).symm

omit [LinearOrder K] in
theorem prints_linked {d : Nat} {kids : List (Tree K d)} {tail : Option Ptr}
    (each : ∀ kid ∈ kids, ∀ tail, Repr h d kid tail →
      Prints h (some (first d kid)) (leaves d kid) tail)
    (linked : Linked (Repr h d) (first d) kids tail) :
    Prints h (headOr (first d) kids tail) (kids.flatMap (leaves d)) tail := by
  induction kids with
  | nil => exact prints_none tail
  | cons kid rest ih =>
    obtain ⟨here, later⟩ := linked
    rw [head_or_cons, List.flatMap_cons]
    apply prints_append
    · exact each kid List.mem_cons_self _ here
    · exact ih (fun kid mem => each kid (List.mem_cons_of_mem _ mem)) later

/-- Along the right siblings printData comes by the leaves of a tree from left to right. -/
theorem tree_prints {d : Nat} {T : Tree K d} {tail : Option Ptr} {lo : Nat}
    (repr : Repr h d T tail) (within : Within lo d T) :
    Prints h (some (first d T)) (leaves d T) tail := by
  induction d generalizing tail lo with
  | zero =>
    obtain ⟨n, cell, _, _, datas, rfl⟩ := repr
    intro fuel
    refine (print_leaves_step cell fuel).trans ?_
    rw [datas]
    rfl
  | succ d ih =>
    obtain ⟨_, _, _, _, linked⟩ := repr
    obtain ⟨lower, _, kids⟩ := within
    obtain ⟨kid, rest, eq⟩ := List.exists_cons_of_length_pos (Nat.lt_of_lt_of_le lo.succ_pos lower)
    have all := prints_linked (fun kid mem _ repr => ih repr (kids kid mem)) linked
    rw [first_inner eq]
    unfold leaves
    rw [eq, head_or_cons] at all
    rw [eq]
    exact all

omit [LinearOrder K] in
theorem leaves_are_nodes {d : Nat} (T : Tree K d) :
    ((leaves d T).map Leaf.ptr).Sublist (ptrs d T) := by
  induction d with
  | zero => exact List.Sublist.refl _
  | succ d ih =>
    change (((Inner.kids T).flatMap (leaves d)).map Leaf.ptr).Sublist
      (Inner.ptr T :: (Inner.kids T).flatMap (ptrs d))
    rw [List.map_flatMap]
    exact (List.Sublist.flatMap_right _ fun kid _ => ih kid).cons _

end Leaves

/-- The nodes old of heap h have become the nodes new of heap h': none is lost, every fresh
    node is among them, and no other node has changed. -/
structure Spread (h h' : Heap K) (old new : List Ptr) : Prop where
  nodes : old ⊆ new
  others : ∀ x, x ∉ new → x < h'.next → x < h.next ∧ h'.cells x = h.cells x

section Spread

variable {h h' h'' : Heap K} {old mid new : List Ptr}

omit [LinearOrder K] in
theorem spread_refl (h : Heap K) (old : List Ptr) : Spread h h old old :=
  ⟨fun _ => id, fun _ _ less => ⟨less, rfl⟩⟩

omit [LinearOrder K] in
theorem Spread.trans (first : Spread h h' old mid) (second : Spread h' h'' mid new) :
    Spread h h'' old new := by
  constructor
  · exact fun _ mem => second.nodes (first.nodes mem)
  · intro x outside less
    obtain ⟨less', same'⟩ := second.others x outside less
    obtain ⟨less'', same⟩ := first.others x (fun mem => outside (second.nodes mem)) less'
    exact ⟨less'', same'.trans same⟩

theorem grows_spread {d : Nat} {T T' : Tree K d} {tail : Option Ptr} {lo : Nat}
    {added : List (K × Int)} (grows : Grows h h' d T T' tail lo added) :
    Spread h h' (ptrs d T) (ptrs d T') := by
  constructor
  · exact grows.keeps_ptrs
  · intro x outside less
    rw [grows.ptrs.mem_iff, List.mem_append, not_or] at outside
    have before : x < h.next := by
      by_contra fresh
      apply outside.1
      rw [List.mem_range'_1, Nat.add_sub_cancel' grows.next]
      exact ⟨Nat.le_of_not_lt fresh, less⟩
    exact ⟨before, grows.others x outside.2 before⟩

omit [LinearOrder K] in
theorem new_spread (h : Heap K) (type : NodeType) (old : List Ptr) :
    Spread h (h.grown type) old (h.next :: old) := by
  constructor
  · exact List.subset_cons_self _ _
  · intro x outside less
    have ne := List.ne_of_not_mem_cons outside
    exact ⟨Nat.lt_of_le_of_ne (Nat.le_of_lt_succ less) ne, Heap.grown_old type ne⟩

omit [LinearOrder K] in
theorem write_spread (h : Heap K) {p : Ptr} {old : List Ptr} (mem : p ∈ old) (n : CNode K) :
    Spread h (h.write p n) old old := by
  constructor
  · exact fun _ => id
  · intro x outside less
    exact ⟨less, Heap.write_elsewhere h n fun eq => outside (eq ▸ mem)⟩

end Spread

structure Shape (t : CBPlusTree K) (lo d : Nat) (T : Tree K d) : Prop where
  root : t.m_Root = some (ptr d T)
  head : t.m_DataHead = some (first d T)
  repr : Repr t.heap d T none
  within : Within lo d T
  placed : Placed t.heap d T

namespace Shape

variable {t : CBPlusTree K} {lo d : Nat} {T : Tree K d}

theorem size (shape : Shape t lo d T) : (ptrs d T).length ≤ t.heap.next := by
  have inside : ptrs d T ⊆ List.range t.heap.next := fun x mem =>
    List.mem_range.mpr (shape.placed.old x mem)
  have le := shape.placed.nodup.length_le_of_subset inside
  rwa [List.length_range] at le

theorem deep (shape : Shape t lo d T) : d < t.heap.depthBound :=
  Nat.lt_succ_of_lt (Nat.lt_of_lt_of_le (depth_lt_ptrs shape.within) shape.size)

theorem search_ends (shape : Shape t 1 d T) (key : K) : ∃ found, t.search key = some found := by
  unfold CBPlusTree.search
  rw [shape.root]
  exact recursive_search_ends shape.repr shape.within (Nat.le_refl 1) shape.deep key

theorem print_data_spec (shape : Shape t lo d T) :
    t.printData = some ((leaves d T).map printed) := by
  have fits : (leaves d T).length < t.heap.depthBound := by
    rw [← List.length_map Leaf.ptr]
    exact Nat.lt_succ_of_le (Nat.le_trans (leaves_are_nodes T).length_le shape.size)
  obtain ⟨fuel, eq⟩ := Nat.exists_eq_add_of_lt fits
  unfold CBPlusTree.printData
  rw [shape.head, eq, show (leaves d T).length + fuel + 1 = fuel + 1 + (leaves d T).length by omega,
    tree_prints shape.repr shape.within]
  change some ((leaves d T).map printed ++ []) = _
  rw [List.append_nil]

theorem grown {h : Heap K} {T' : Tree K d} {added : List (K × Int)}
    (shape : Shape t lo d T) (grows : Grows t.heap h d T T' none lo added) :
    Shape { t with heap := h } lo d T' := by
  constructor
  · rw [grows.ptr]
    exact shape.root
  · rw [grows.first]
    exact shape.head
  · exact grows.repr
  · exact grows.within
  · exact grows.placed shape.placed

/-- The node growRoot puts above the root. -/
def above (t : CBPlusTree K) (root : Ptr) : CNode K :=
  { t.heap.blank .INTERNAL with m_Childs := store (t.heap.blank .INTERNAL).m_Childs 0 (some root) }

def lifted (t : CBPlusTree K) (root : Ptr) : CBPlusTree K :=
  { t with
    heap := (t.heap.grown .INTERNAL).write t.heap.next (above t root)
    m_Root := some t.heap.next }

theorem lifted_shape (shape : Shape t lo d T) (full : num d T = MAXNUM_KEY) :
    Shape (lifted t (ptr d T)) 0 (d + 1) (node t.heap.next [T]) := by
  obtain ⟨nodup, old⟩ := shape.placed
  have single : slice (above t (ptr d T)).m_Childs 0 1 = [some (ptr d T)] := by
    rw [slice_cons, slice_zero]
    exact congrArg (fun child => [child]) (store_same (t.heap.blank .INTERNAL).m_Childs 0 _)
  constructor
  · rfl
  · exact shape.head
  · refine ⟨above t (ptr d T), Heap.write_here _ _ _, rfl, single, ?_, trivial⟩
    apply repr_congr _ shape.repr
    intro x mem
    have ne := Nat.ne_of_lt (old x mem)
    exact (Heap.write_elsewhere _ _ ne).trans (Heap.grown_old _ ne)
  · refine ⟨Nat.le_refl 1, Nat.le_of_ble_eq_true rfl, ?_⟩
    intro kid mem
    cases List.mem_singleton.mp mem
    exact within_num shape.within (full ▸ by decide) (full ▸ by decide)
  · constructor
    · rw [ptrs_node, List.flatMap_singleton]
      exact List.nodup_cons.mpr ⟨fun mem => Nat.lt_irrefl _ (old _ mem), nodup⟩
    · intro x mem
      rw [ptrs_node, List.flatMap_singleton] at mem
      rcases List.mem_cons.mp mem with rfl | mem
      · exact Nat.lt_succ_self _
      · exact Nat.lt_succ_of_lt (old x mem)

theorem grow_root_room (shape : Shape t lo d T) (room : num d T < MAXNUM_KEY) :
    t.growRoot = some t := by
  obtain ⟨n, cell, num_n, _⟩ := repr_root shape.repr
  unfold CBPlusTree.growRoot
  simp only [shape.root, cell, num_n, Option.bind_eq_bind, Option.bind_some]
  exact if_neg (Nat.not_le.mpr room)

theorem grow_root_spread (shape : Shape t lo d T) :
    ∃ t' lo' d' T', t.growRoot = some t' ∧ Shape t' lo' d' T' ∧ num d' T' < MAXNUM_KEY ∧
      (lo' = lo ∨ lo' = 1) ∧ (entries d' T').Perm (entries d T) ∧
      Spread t.heap t'.heap (ptrs d T) (ptrs d' T') := by
  by_cases full : num d T < MAXNUM_KEY
  · exact ⟨t, lo, d, T, shape.grow_root_room full, shape, full, .inl rfl, List.Perm.refl _,
      spread_refl _ _⟩
  · obtain ⟨n, cell, num_n, _⟩ := repr_root shape.repr
    have full := Nat.le_of_not_lt full
    have exact_full := Nat.le_antisymm (num_bounds shape.within).2 full
    have high := lifted_shape shape exact_full
    obtain ⟨h, left, right, run, grows, _⟩ :=
      @split_kid _ _ _ _ _ [] [] _ _ _ high.repr high.within high.placed
        (Nat.le_of_ble_eq_true rfl) exact_full
    have step : (t.heap.grown .INTERNAL).modify t.heap.next
        (fun n => n.setChild 0 (some (ptr d T))) = some (lifted t (ptr d T)).heap :=
      Heap.modify_cell (Heap.grown_fresh _ _) (CNode.set_child (by decide) _)
    have low := high.grown grows
    have one : num (d + 1) (node t.heap.next ([] ++ left :: right :: [])) = 1 := rfl
    change (lifted t (ptr d T)).heap.split (ptr d T) t.heap.next 0 = some h at run
    refine ⟨_, 1, d + 1, _, ?_, { low with within := ?_ }, ?_, .inr rfl, ?_, ?_⟩
    · unfold CBPlusTree.growRoot
      simp only [shape.root, cell, num_n, Option.bind_eq_bind, Option.bind_some, if_pos full,
        Heap.new_eq, step, run]
      rfl
    · exact within_num low.within (Nat.le_refl 1) (Nat.le_refl 1)
    · rw [one]
      decide
    · refine grows.entries.trans ?_
      change (entries d T ++ []).Perm (entries d T)
      rw [List.append_nil]
    · have lifts := (new_spread t.heap .INTERNAL (ptrs d T)).trans
        (write_spread _ List.mem_cons_self (above t (ptr d T)))
      have whole : ptrs (d + 1) (node t.heap.next ([] ++ T :: [])) = t.heap.next :: ptrs d T := by
        rw [ptrs_node, List.nil_append, List.flatMap_singleton]
      rw [← whole] at lifts
      exact lifts.trans (grows_spread grows)

theorem grow_root_spec (shape : Shape t lo d T) :
    ∃ t' lo' d' T', t.growRoot = some t' ∧ Shape t' lo' d' T' ∧ num d' T' < MAXNUM_KEY ∧
      (lo' = lo ∨ lo' = 1) ∧ (entries d' T').Perm (entries d T) ∧ ptrs d T ⊆ ptrs d' T' := by
  obtain ⟨t', lo', d', T', run, shape', room, low, same, spread⟩ := shape.grow_root_spread
  exact ⟨t', lo', d', T', run, shape', room, low, same, spread.nodes⟩

theorem insert_runs {t₀ : CBPlusTree K} {key : K} {data : Int} {root : Ptr} {h : Heap K}
    (absent : t₀.search key = some false) (grown : (t₀.firstLeaf key).growRoot = some t)
    (some_root : t.m_Root = some root)
    (run : t.heap.recursiveInsert key data t.heap.depthBound root = some h) :
    t₀.insert key data = some ({ t with
      heap := h, m_MaxKey := if key > t.m_MaxKey then key else t.m_MaxKey }, true) := by
  unfold CBPlusTree.insert
  simp only [absent, grown, Option.bind_eq_bind, Option.bind_some, Bool.false_eq_true, ↓reduceIte]
  split
  · simp only [some_root, run, Option.bind_some]
  · simp only [some_root, run, Option.bind_some]

theorem with_max (shape : Shape t lo d T) (m_MaxKey : K) :
    Shape { t with m_MaxKey := m_MaxKey } lo d T :=
  ⟨shape.root, shape.head, shape.repr, shape.within, shape.placed⟩

theorem insert_absent_spread {t₀ : CBPlusTree K} {key : K} (absent : t₀.search key = some false)
    (grown : (t₀.firstLeaf key).growRoot = some t) (shape : Shape t lo d T)
    (pos : 1 ≤ lo ∨ d = 0) (room : num d T < MAXNUM_KEY) (data : Int) :
    ∃ t' T', t₀.insert key data = some (t', true) ∧ Shape t' lo d T' ∧
      (entries d T').Perm ((key, data) :: entries d T) ∧
      Spread t.heap t'.heap (ptrs d T) (ptrs d T') := by
  have below : ∃ h T', t.heap.recursiveInsert key data t.heap.depthBound (ptr d T) = some h ∧
      Grows t.heap h d T T' none lo [(key, data)] := by
    have deep := shape.deep
    obtain ⟨_, _, repr, within, placed⟩ := shape
    rcases pos with pos | rfl
    · exact recursive_insert_spec repr within placed pos room deep key data
    · exact leaf_insert_spec repr within room _ key data
  obtain ⟨h, T', run, grows⟩ := below
  exact ⟨_, T', insert_runs absent grown shape.root run, (shape.grown grows).with_max _,
    grows.entries, grows_spread grows⟩

theorem insert_absent {t₀ : CBPlusTree K} {key : K} (absent : t₀.search key = some false)
    (grown : (t₀.firstLeaf key).growRoot = some t) (shape : Shape t lo d T)
    (pos : 1 ≤ lo ∨ d = 0) (room : num d T < MAXNUM_KEY) (data : Int) :
    ∃ t' T', t₀.insert key data = some (t', true) ∧ Shape t' lo d T' ∧
      (entries d T').Perm ((key, data) :: entries d T) ∧ ptrs d T ⊆ ptrs d T' := by
  obtain ⟨t', T', run, shape', more, spread⟩ := insert_absent_spread absent grown shape pos room data
  exact ⟨t', T', run, shape', more, spread.nodes⟩

theorem first_leaf_kept (shape : Shape t lo d T) (key : K) : t.firstLeaf key = t := by
  unfold CBPlusTree.firstLeaf
  rw [shape.root]

theorem insert_found {key : K} (found : t.search key = some true) (data : Int) :
    t.insert key data = some (t, false) := by
  unfold CBPlusTree.insert
  rw [found]
  rfl

theorem insert_new_spread (shape : Shape t 1 d T) {key : K} (absent : t.search key = some false)
    (data : Int) :
    ∃ t' d' T', t.insert key data = some (t', true) ∧ Shape t' 1 d' T' ∧
      (entries d' T').Perm ((key, data) :: entries d T) ∧
      Spread t.heap t'.heap (ptrs d T) (ptrs d' T') := by
  obtain ⟨t₁, lo₁, d₁, T₁, run₁, shape₁, room, low, same, spread⟩ := shape.grow_root_spread
  obtain rfl : lo₁ = 1 := low.elim id id
  rw [← shape.first_leaf_kept key] at run₁
  obtain ⟨t', T', run, shape', more, spread'⟩ :=
    insert_absent_spread absent run₁ shape₁ (.inl (Nat.le_refl 1)) room data
  exact ⟨t', d₁, T', run, shape', more.trans (same.cons _), spread.trans spread'⟩

theorem insert_new (shape : Shape t 1 d T) {key : K} (absent : t.search key = some false)
    (data : Int) :
    ∃ t' d' T', t.insert key data = some (t', true) ∧ Shape t' 1 d' T' ∧
      (entries d' T').Perm ((key, data) :: entries d T) ∧ ptrs d T ⊆ ptrs d' T' := by
  obtain ⟨t', d', T', run, shape', more, spread⟩ := shape.insert_new_spread absent data
  exact ⟨t', d', T', run, shape', more, spread.nodes⟩

theorem insert_spec (shape : Shape t 1 d T) (key : K) (data : Int) :
    ∃ t' inserted d' T', t.insert key data = some (t', inserted) ∧ Shape t' 1 d' T' ∧
      (entries d' T').Perm ((if inserted then [(key, data)] else []) ++ entries d T) := by
  obtain ⟨found, search⟩ := shape.search_ends key
  cases found with
  | true => exact ⟨t, false, d, T, insert_found search data, shape, List.Perm.refl _⟩
  | false =>
    obtain ⟨t', d', T', run, shape', more, _⟩ := shape.insert_new search data
    exact ⟨t', true, d', T', run, shape', more⟩

omit [LinearOrder K] in
theorem first_leaf_made (no_root : t.m_Root = none) (key : K) :
    t.firstLeaf key = ⟨t.heap.grown .LEAF, some t.heap.next, some t.heap.next, key⟩ := by
  unfold CBPlusTree.firstLeaf
  rw [no_root]
  rfl

theorem first_leaf_shape (no_root : t.m_Root = none) (key : K) :
    Shape (t.firstLeaf key) 0 0 (Leaf.mk t.heap.next []) := by
  rw [first_leaf_made no_root]
  constructor
  · rfl
  · rfl
  · exact ⟨t.heap.blank .LEAF, Heap.grown_fresh _ _, rfl, rfl, rfl, rfl⟩
  · exact ⟨Nat.le_refl 0, Nat.zero_le _, List.Pairwise.nil⟩
  · constructor
    · exact List.nodup_cons.mpr ⟨List.not_mem_nil, List.nodup_nil⟩
    · intro x mem
      cases List.mem_singleton.mp mem
      exact Nat.lt_succ_self _

theorem search_no_root (no_root : t.m_Root = none) (key : K) : t.search key = some false := by
  unfold CBPlusTree.search
  rw [no_root]

theorem insert_first_spread (no_root : t.m_Root = none) (key : K) (data : Int) :
    ∃ t' T', t.insert key data = some (t', true) ∧ Shape t' 1 0 T' ∧
      entries 0 T' = [(key, data)] ∧ ptr 0 T' = t.heap.next ∧
      Spread t.heap t'.heap [] (ptrs 0 T') := by
  have shape := first_leaf_shape no_root key
  have absent := search_no_root no_root key
  have room : num 0 (Leaf.mk t.heap.next ([] : List (K × Int))) < MAXNUM_KEY :=
    Nat.le_of_ble_eq_true rfl
  obtain ⟨t', T', run, shape', more, spread⟩ :=
    insert_absent_spread absent (shape.grow_root_room room) shape (.inr rfl) room data
  have one : num 0 T' = 1 := more.length_eq
  have fresh : Spread t.heap (t.firstLeaf key).heap [] [t.heap.next] := by
    rw [first_leaf_made no_root]
    exact new_spread t.heap .LEAF []
  refine ⟨t', T', run, { shape' with within := ?_ }, List.perm_singleton.mp more,
    (List.mem_singleton.mp (spread.nodes (List.mem_singleton_self _))).symm, fresh.trans spread⟩
  exact within_num shape'.within (Nat.le_of_eq one.symm) (one ▸ Nat.one_pos)

theorem insert_first (no_root : t.m_Root = none) (key : K) (data : Int) :
    ∃ t' T', t.insert key data = some (t', true) ∧ Shape t' 1 0 T' ∧
      entries 0 T' = [(key, data)] ∧ ptr 0 T' = t.heap.next := by
  obtain ⟨t', T', run, shape, one, place, _⟩ := insert_first_spread no_root key data
  exact ⟨t', T', run, shape, one, place⟩

end Shape

/-- Insertion of the pairs in turn; the result also has those whose insert returned true. -/
def insertAll (t : CBPlusTree K) : List (K × Int) → Option (CBPlusTree K × List (K × Int))
  | [] => some (t, [])
  | (key, data) :: pairs => do
    let (t, inserted) ← t.insert key data
    let (t, accepted) ← insertAll t pairs
    some (t, if inserted then (key, data) :: accepted else accepted)

theorem insert_all_cons {t t₁ t₂ : CBPlusTree K} {pair : K × Int} {pairs accepted : List (K × Int)}
    {inserted : Bool} (first : t.insert pair.1 pair.2 = some (t₁, inserted))
    (later : insertAll t₁ pairs = some (t₂, accepted)) :
    insertAll t (pair :: pairs) =
      some (t₂, if inserted then pair :: accepted else accepted) := by
  unfold insertAll
  rw [first]
  simp only [Option.bind_eq_bind, Option.bind_some]
  rw [later]
  rfl

theorem insert_all_spec {t : CBPlusTree K} {d : Nat} {T : Tree K d} (shape : Shape t 1 d T)
    (pairs : List (K × Int)) :
    ∃ t' accepted d' T', insertAll t pairs = some (t', accepted) ∧ Shape t' 1 d' T' ∧
      (entries d' T').Perm (accepted ++ entries d T) := by
  induction pairs generalizing t d T with
  | nil => exact ⟨t, [], d, T, rfl, shape, List.Perm.refl _⟩
  | cons pair pairs ih =>
    obtain ⟨t₁, inserted, d₁, T₁, run₁, shape₁, more₁⟩ := shape.insert_spec pair.1 pair.2
    obtain ⟨t₂, accepted, d₂, T₂, run₂, shape₂, more₂⟩ := ih shape₁
    refine ⟨t₂, _, d₂, T₂, insert_all_cons run₁ run₂, shape₂, ?_⟩
    refine (more₂.trans (more₁.append_left accepted)).trans ?_
    cases inserted with
    | true => exact List.perm_middle
    | false => exact List.Perm.refl _

/-- Tree T, with all leaves d levels below the root, in the memory of t: numbers of keys and
    of children, no node twice, the leaf chain, and the stored pairs. -/
structure WellShaped (t : CBPlusTree K) (stored : List (K × Int)) (d : Nat) (T : Tree K d) :
    Prop where
  root : t.m_Root = some (ptr d T)
  repr : Repr t.heap d T none
  within : Within 1 d T
  distinct : (ptrs d T).Nodup
  chain : t.printData = some ((leaves d T).map printed)
  stored : (entries d T).Perm stored

/-- Insertions on an empty tree: none, or a tree over the accepted pairs. -/
theorem inserted_tree (raw : Ptr → CNode K) (m_MaxKey : K) (pairs : List (K × Int)) :
    (pairs = [] ∧ insertAll (CBPlusTree.empty raw m_MaxKey) pairs =
      some (CBPlusTree.empty raw m_MaxKey, [])) ∨
    ∃ t accepted d T, insertAll (CBPlusTree.empty raw m_MaxKey) pairs = some (t, accepted) ∧
      Shape t 1 d T ∧ (entries d T).Perm accepted := by
  cases pairs with
  | nil => exact .inl ⟨rfl, rfl⟩
  | cons pair pairs =>
    right
    obtain ⟨t₁, T₁, run₁, shape₁, one, _⟩ :=
      @Shape.insert_first _ _ (CBPlusTree.empty raw m_MaxKey) rfl pair.1 pair.2
    obtain ⟨t, accepted, d, T, run, shape, more⟩ := insert_all_spec shape₁ pairs
    refine ⟨t, pair :: accepted, d, T, insert_all_cons run₁ run, shape, ?_⟩
    rw [one] at more
    exact more.trans (List.perm_append_singleton _ _)

/-- Insertions on an empty tree never write outside a node's slots, and leave a well shaped
    tree over the accepted pairs. -/
theorem inserted_tree_is_well_shaped (raw : Ptr → CNode K) (m_MaxKey : K)
    (pairs : List (K × Int)) (some_call : pairs ≠ []) :
    ∃ t accepted d T, insertAll (CBPlusTree.empty raw m_MaxKey) pairs = some (t, accepted) ∧
      WellShaped t accepted d T := by
  obtain ⟨t, accepted, d, T, run, shape, stored⟩ :=
    (inserted_tree raw m_MaxKey pairs).resolve_left fun none => some_call none.1
  exact ⟨t, accepted, d, T, run, shape.root, shape.repr, shape.within, shape.placed.nodup,
    shape.print_data_spec, stored⟩

/-- A node as zeroed memory has it. -/
def zeroed : CNode Int := ⟨.INTERNAL, 0, fun _ => 0, fun _ => none, none, none, fun _ => 0⟩

theorem repeated_key_is_not_stored_twice :
    (insertAll (CBPlusTree.empty (fun _ => zeroed) 0) [(5, 1), (3, 2), (5, 4)]).map Prod.snd =
      some [(5, 1), (3, 2)] ∧
    ∃ t accepted d T,
      insertAll (CBPlusTree.empty (fun _ => zeroed) 0) [(5, 1), (3, 2), (5, 4)] =
        some (t, accepted) ∧ WellShaped t accepted d T :=
  ⟨by decide, inserted_tree_is_well_shaped (fun _ => zeroed) 0 _ (List.cons_ne_nil _ _)⟩

end UC.BPlusTree
