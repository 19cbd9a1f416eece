import Mathlib.Data.Int.Order.Basic
import Mathlib.Data.List.Dedup
import UC.Lib.Heaps
import UC.Lib.SearchTrees
import UC.SearchTree.Model

/- The tree of example_binary_tree_adt.cpp as it grows, with its pointers: insNode, find, findMin,
   findMax and makeEmpty. The depth of a recursion is bounded by the number of nodes; malloc does
   not fail. The result none is the use of what is not live, or of the value that findMax does
   not return for NULL. -/
namespace UC.SearchTree.Nodes
open BinaryTree UC.Heaps UC.TreeOrders UC.SearchTrees

structure TreeNode where
  value : Int
  left : Option Nat
  right : Option Nat

abbrev Memory := Heap TreeNode

/-- The memory left; the pointer returned is NULL. -/
def makeEmpty : Nat → Memory → Option Nat → Option Memory
  | _, h, none => some h
  | 0, _, some _ => none
  | depth + 1, h, some tree =>
    (h.cells tree).bind fun node =>
      (makeEmpty depth h node.left).bind fun h =>
        (h.cells tree).bind fun node =>
          (makeEmpty depth h node.right).bind fun h => h.free tree

/-- The pointer returned, and the memory. -/
def insNode (value : Int) : Nat → Memory → Option Nat → Option (Option Nat × Memory)
  | _, h, none =>
    let (tree, h) := h.malloc ⟨value, none, none⟩
    some (some tree, h)
  | 0, _, some _ => none
  | depth + 1, h, some tree =>
    (h.cells tree).bind fun node =>
      if value > node.value then
        (insNode value depth h node.right).bind fun (right, h) =>
          (h.cells tree).bind fun node =>
            (h.write tree { node with right := right }).map fun h => (some tree, h)
      else if value < node.value then
        (insNode value depth h node.left).bind fun (left, h) =>
          (h.cells tree).bind fun node =>
            (h.write tree { node with left := left }).map fun h => (some tree, h)
      else some (some tree, h)

def find (value : Int) (h : Memory) : Nat → Option Nat → Option (Option Nat)
  | _, none => some none
  | 0, some _ => none
  | depth + 1, some tree =>
    (h.cells tree).bind fun node =>
      if value > node.value then find value h depth node.right
      else if value < node.value then find value h depth node.left
      else some (some tree)

def findMin (h : Memory) : Nat → Option Nat → Option (Option Nat)
  | _, none => some none
  | 0, some _ => none
  | depth + 1, some tree =>
    (h.cells tree).bind fun node =>
      match node.left with
      | none => some (some tree)
      | some left => findMin h depth (some left)

/-- while(tree->right) tree = tree->right. -/
def findMax (h : Memory) : Nat → Option Nat → Option Nat
  | _, none => none
  | 0, some _ => none
  | depth + 1, some tree =>
    (h.cells tree).bind fun node =>
      match node.right with
      | none => some tree
      | some right => findMax h depth (some right)

structure State where
  tree : Option Nat
  heap : Memory

def start : State := ⟨none, ⟨0, fun _ => none, 0, []⟩⟩

def State.insert (s : State) (value : Int) : Option State :=
  (insNode value s.heap.fresh s.heap s.tree).map fun (tree, heap) => ⟨tree, heap⟩

def State.insertAll (s : State) (values : List Int) : Option State := values.foldlM State.insert s

def State.find (s : State) (value : Int) : Option (Option Nat) :=
  Nodes.find value s.heap s.heap.fresh s.tree

def State.findMin (s : State) : Option (Option Nat) := Nodes.findMin s.heap s.heap.fresh s.tree

def State.findMax (s : State) : Option Nat := Nodes.findMax s.heap s.heap.fresh s.tree

def State.makeEmpty (s : State) : Option Memory := Nodes.makeEmpty s.heap.fresh s.heap s.tree

/-- The nodes with their addresses. -/
abbrev Placed := BinaryTree (Nat × Int)

def addr : Placed → Option Nat
  | nil => none
  | node x _ _ => some x.1

def Stored (h : Memory) : Placed → Prop
  | nil => True
  | node x left right => h.cells x.1 = some ⟨x.2, addr left, addr right⟩ ∧
      Stored h left ∧ Stored h right

def Leads (h : Memory) : PSearchTree → Option Nat → Prop
  | .null, pointer => pointer = none
  | .freed, pointer => ∃ a, pointer = some a ∧ h.cells a = none
  | .node value left right, pointer => ∃ a here, pointer = some a ∧ h.cells a = some here ∧
      here.value = value ∧ Leads h left here.left ∧ Leads h right here.right

def shape : Placed → PSearchTree
  | nil => .null
  | node x left right => .node x.2 (shape left) (shape right)

def addresses (t : Placed) : List Nat := (inorder t).map Prod.fst

section Trees
variable {h h' : Memory} {t left right : Placed} {x y : Nat × Int} {a depth : Nat} {v : Int}

theorem addresses_node : addresses (node x left right) =
    addresses left ++ x.1 :: addresses right := by
  rw [addresses, inorder, List.map_append, List.map_cons]
  rfl

theorem mem_addresses : a ∈ addresses (node x left right) ↔
    a ∈ addresses left ∨ a = x.1 ∨ a ∈ addresses right := by
  rw [addresses_node, List.mem_append, List.mem_cons]

theorem address_mem (member : x ∈ inorder t) : x.1 ∈ addresses t := List.mem_map_of_mem member

theorem parts_apart {ls rs : List Nat} (once : (ls ++ a :: rs).Nodup) :
    ls.Nodup ∧ rs.Nodup ∧ a ∉ ls ∧ a ∉ rs ∧ ∀ b ∈ ls, b ∉ rs := by
  rw [List.nodup_append, List.nodup_cons] at once
  obtain ⟨below, ⟨out, above⟩, across⟩ := once
  refine ⟨below, above, fun member => across _ member _ List.mem_cons_self rfl, out, ?_⟩
  exact fun b here there => across b here b (List.mem_cons_of_mem _ there) rfl

theorem apart (once : (addresses (node x left right)).Nodup) :
    (addresses left).Nodup ∧ (addresses right).Nodup ∧ x.1 ∉ addresses left ∧
      x.1 ∉ addresses right ∧ ∀ a ∈ addresses left, a ∉ addresses right := by
  rw [addresses_node] at once
  exact parts_apart once

theorem stored_frame (same : ∀ a ∈ addresses t, h'.cells a = h.cells a) (stored : Stored h t) :
    Stored h' t := by
  induction t with
  | nil => trivial
  | node x left right leftIh rightIh =>
    obtain ⟨here, below, above⟩ := stored
    refine ⟨(same _ (mem_addresses.mpr (.inr (.inl rfl)))).trans here, leftIh ?_ below,
      rightIh ?_ above⟩
    · exact fun a member => same a (mem_addresses.mpr (.inl member))
    · exact fun a member => same a (mem_addresses.mpr (.inr (.inr member)))

theorem stored_mem (stored : Stored h t) (member : x ∈ inorder t) :
    ∃ node, h.cells x.1 = some node ∧ node.value = x.2 := by
  induction t with
  | nil => cases member
  | node y left right leftIh rightIh =>
    obtain ⟨here, below, above⟩ := stored
    rcases mem_node.mp member with inside | rfl | inside
    · exact leftIh below inside
    · exact ⟨_, here, rfl⟩
    · exact rightIh above inside

theorem leads_stored (stored : Stored h t) : Leads h (shape t) (addr t) := by
  induction t with
  | nil => rfl
  | node x left right leftIh rightIh =>
    obtain ⟨here, below, above⟩ := stored
    exact ⟨x.1, _, rfl, here, rfl, leftIh below, rightIh above⟩

theorem values_shape (t : Placed) : SearchTree.values (shape t) = (inorder t).map Prod.snd := by
  induction t with
  | nil => rfl
  | node x left right leftIh rightIh =>
    rw [shape, SearchTree.values, leftIh, rightIh, inorder, List.map_append, List.map_cons]

theorem search_tree_shape (ordered : Ordered Prod.snd t) : IsSearchTree (shape t) := by
  induction t with
  | nil => trivial
  | node x left right leftIh rightIh =>
    obtain ⟨below, above, less, more⟩ := ordered_node.mp ordered
    rw [shape, IsSearchTree, values_shape, values_shape]
    exact ⟨List.forall_mem_map.mpr less, List.forall_mem_map.mpr more, leftIh below,
      rightIh above⟩

theorem smaller (deep : (addresses (node x left right)).length ≤ depth + 1) :
    (addresses left).length ≤ depth ∧ (addresses right).length ≤ depth := by
  rw [addresses_node, List.length_append, List.length_cons] at deep
  omega

theorem no_depth (deep : (addresses (node x left right)).length ≤ 0) : False := by
  rw [addresses_node, List.length_append, List.length_cons] at deep
  omega

theorem find_stored (stored : Stored h t) (deep : (addresses t).length ≤ depth) :
    Nodes.find v h depth (addr t) = some ((SearchTrees.find Prod.snd v t).map Prod.fst) := by
  induction t generalizing depth with
  | nil => cases depth <;> rfl
  | node x left right leftIh rightIh =>
    cases depth with
    | zero => exact (no_depth deep).elim
    | succ depth =>
      obtain ⟨here, below, above⟩ := stored
      obtain ⟨short, short'⟩ := smaller deep
      rw [addr, Nodes.find, here, Option.bind_some, SearchTrees.find]
      dsimp only
      by_cases more : v > x.2
      · rw [if_pos more, if_pos more, rightIh above short']
      · rw [if_neg more, if_neg more]
        by_cases less : v < x.2
        · rw [if_pos less, if_pos less, leftIh below short]
        · rw [if_neg less, if_neg less]
          rfl

theorem find_min_stored (stored : Stored h t) (deep : (addresses t).length ≤ depth) :
    Nodes.findMin h depth (addr t) = some ((inorder t).head?.map Prod.fst) := by
  induction t generalizing depth with
  | nil => cases depth <;> rfl
  | node x left right leftIh rightIh =>
    cases depth with
    | zero => exact (no_depth deep).elim
    | succ depth =>
      obtain ⟨here, below, above⟩ := stored
      have less := leftIh below (smaller deep).1
      rw [addr, Nodes.findMin, here, Option.bind_some]
      cases left with
      | nil => rfl
      | node y lower upper =>
        change Nodes.findMin h depth (addr (node y lower upper)) = _
        rw [less, inorder.eq_2 x, List.head?_append_of_ne_nil]
        simp [inorder]

theorem find_max_stored (stored : Stored h t) (deep : (addresses t).length ≤ depth) :
    Nodes.findMax h depth (addr t) = (inorder t).getLast?.map Prod.fst := by
  induction t generalizing depth with
  | nil => cases depth <;> rfl
  | node x left right leftIh rightIh =>
    cases depth with
    | zero => exact (no_depth deep).elim
    | succ depth =>
      obtain ⟨here, below, above⟩ := stored
      have more := rightIh above (smaller deep).2
      rw [addr, Nodes.findMax, here, Option.bind_some]
      cases right with
      | nil => simp [addr, inorder]
      | node y lower upper =>
        change Nodes.findMax h depth (addr (node y lower upper)) = _
        have nonempty : inorder (node y lower upper) ≠ [] := by simp [inorder]
        rw [more, inorder.eq_2 x, List.getLast?_append_of_ne_nil _ (List.cons_ne_nil _ _),
          List.getLast?_cons_of_ne_nil nonempty]

theorem make_empty_drops (stored : Stored h t) (once : (addresses t).Nodup) (base : h.base = 0)
    (deep : (addresses t).length ≤ depth) :
    ∃ h', Nodes.makeEmpty depth h (addr t) = some h' ∧
      h.Dropped h' ((postorder t).map Prod.fst) := by
  induction t generalizing h depth with
  | nil =>
    refine ⟨h, ?_, Heap.dropped_nil h⟩
    cases depth <;> rfl
  | node x left right leftIh rightIh =>
    cases depth with
    | zero => exact (no_depth deep).elim
    | succ depth =>
      obtain ⟨here, below, above⟩ := stored
      obtain ⟨short, short'⟩ := smaller deep
      obtain ⟨once, once', out, out', across⟩ := apart once
      have same : ∀ {t : Placed} {a}, a ∈ (postorder t).map Prod.fst ↔ a ∈ addresses t := by
        intro t a
        exact ((postorder_perm t).trans (inorder_perm t).symm |>.map Prod.fst).mem_iff
      obtain ⟨g, first, dropped⟩ := leftIh below once base short
      have middle : g.cells x.1 = _ := (dropped.kept _ (mt same.mp out)).trans here
      obtain ⟨k, second, dropped'⟩ := rightIh
        (stored_frame (fun a member => dropped.kept a fun gone => across a (same.mp gone) member)
          above) once' (dropped.base.trans base) short'
      have last : k.cells x.1 = _ := (dropped'.kept _ (mt same.mp out')).trans middle
      have both := Heap.dropped_append dropped dropped'
      have dynamic : k.base ≤ x.1 := both.base.trans base ▸ Nat.zero_le _
      refine ⟨k.drop x.1, ?_, ?_⟩
      · rw [addr, Nodes.makeEmpty, here, Option.bind_some]
        dsimp only
        rw [first, Option.bind_some, middle, Option.bind_some]
        dsimp only
        rw [second, Option.bind_some, Heap.free_live last dynamic]
      · rw [postorder, List.map_append, List.map_append]
        exact Heap.dropped_append both (Heap.dropped_drop last dynamic)

theorem address_insert {b : Nat} (member : a ∈ addresses (SearchTrees.insert Prod.snd (b, v) t)) :
    a = b ∨ a ∈ addresses t := by
  obtain ⟨y, inside, rfl⟩ := List.mem_map.mp member
  rcases mem_insert inside with rfl | old
  · exact .inl rfl
  · exact .inr (address_mem old)

/-- A node is written again when its children are in place. -/
theorem put_stored {g : Memory} (below : Stored g left) (above : Stored g right)
    (out : x.1 ∉ addresses left) (out' : x.1 ∉ addresses right) :
    Stored (g.put x.1 ⟨x.2, addr left, addr right⟩) (node x left right) := by
  refine ⟨Heap.put_same _ _ _, stored_frame (fun a member => Heap.put_other _ _ ?_) below,
    stored_frame (fun a member => Heap.put_other _ _ ?_) above⟩
  · rintro rfl
    exact out member
  · rintro rfl
    exact out' member

/-- What insNode leaves behind, where t has become t'. -/
structure Grown (h h' : Memory) (t t' : Placed) : Prop where
  stored : Stored h' t'
  sound : h'.Sound
  base : h'.base = h.base
  fresh : h'.fresh + (addresses t).length = h.fresh + (addresses t').length
  kept : ∀ a < h.fresh, a ∉ addresses t → h'.cells a = h.cells a

theorem grown_right {g : Memory} {right' : Placed} {cell : TreeNode} (below : Stored h left)
    (grown : Grown h g right right') (live : g.cells x.1 = some cell)
    (olds : ∀ a ∈ addresses left, a < h.fresh) (out : x.1 ∉ addresses left)
    (out' : x.1 ∉ addresses right') (across : ∀ a ∈ addresses left, a ∉ addresses right) :
    Grown h (g.put x.1 ⟨x.2, addr left, addr right'⟩) (node x left right) (node x left right') := by
  refine ⟨put_stored ?_ grown.stored out out', Heap.sound_put grown.sound live _, grown.base,
    ?_, ?_⟩
  · exact stored_frame (fun a member => grown.kept a (olds a member) (across a member)) below
  · have lengths := grown.fresh
    simp only [addresses_node, List.length_append, List.length_cons]
    change g.fresh + _ = _
    omega
  · intro a low outside
    rw [mem_addresses, not_or, not_or] at outside
    exact (Heap.put_other _ _ outside.2.1).trans (grown.kept a low outside.2.2)

theorem grown_left {g : Memory} {left' : Placed} {cell : TreeNode} (above : Stored h right)
    (grown : Grown h g left left') (live : g.cells x.1 = some cell)
    (olds : ∀ a ∈ addresses right, a < h.fresh) (out : x.1 ∉ addresses left')
    (out' : x.1 ∉ addresses right) (across : ∀ a ∈ addresses left, a ∉ addresses right) :
    Grown h (g.put x.1 ⟨x.2, addr left', addr right⟩) (node x left right) (node x left' right) := by
  refine ⟨put_stored grown.stored ?_ out out', Heap.sound_put grown.sound live _, grown.base,
    ?_, ?_⟩
  · exact stored_frame (fun a member => grown.kept a (olds a member)
      fun inside => across a inside member) above
  · have lengths := grown.fresh
    simp only [addresses_node, List.length_append, List.length_cons]
    change g.fresh + _ = _
    omega
  · intro a low outside
    rw [mem_addresses, not_or, not_or] at outside
    exact (Heap.put_other _ _ outside.2.1).trans (grown.kept a low outside.1)

theorem ins_node_grows (sound : h.Sound) (stored : Stored h t) (once : (addresses t).Nodup)
    (old : ∀ a ∈ addresses t, a < h.fresh) (deep : (addresses t).length ≤ depth) :
    ∃ h', insNode v depth h (addr t) =
      some (addr (SearchTrees.insert Prod.snd (h.fresh, v) t), h') ∧
      Grown h h' t (SearchTrees.insert Prod.snd (h.fresh, v) t) := by
  induction t generalizing depth with
  | nil =>
    refine ⟨(h.malloc ⟨v, none, none⟩).2, ?_, ⟨Heap.malloc_new _ _, trivial, trivial⟩,
      Heap.sound_malloc sound _, rfl, rfl, ?_⟩
    · cases depth <;> rfl
    · exact fun a low _ => Heap.malloc_other _ _ (Nat.ne_of_lt low)
  | node x left right leftIh rightIh =>
    cases depth with
    | zero => exact (no_depth deep).elim
    | succ depth =>
      obtain ⟨here, below, above⟩ := stored
      obtain ⟨short, short'⟩ := smaller deep
      obtain ⟨once, once', out, out', across⟩ := apart once
      have low := old x.1 (mem_addresses.mpr (.inr (.inl rfl)))
      have olds : ∀ a ∈ addresses left, a < h.fresh :=
        fun a member => old a (mem_addresses.mpr (.inl member))
      have olds' : ∀ a ∈ addresses right, a < h.fresh :=
        fun a member => old a (mem_addresses.mpr (.inr (.inr member)))
      rw [addr, insNode, here, Option.bind_some, SearchTrees.insert]
      dsimp only
      by_cases more : v > x.2
      · obtain ⟨g, run, grown⟩ := rightIh above once' olds' short'
        have still : g.cells x.1 = _ := (grown.kept _ low out').trans here
        have new : x.1 ∉ addresses (SearchTrees.insert Prod.snd (h.fresh, v) right) :=
          fun member => (address_insert member).elim (Nat.ne_of_lt low) out'
        rw [if_pos more, if_pos more, run, Option.bind_some]
        dsimp only
        rw [still, Option.bind_some, Heap.write_live still, Option.map_some]
        exact ⟨_, rfl, grown_right below grown still olds out new across⟩
      rw [if_neg more, if_neg more]
      by_cases less : v < x.2
      · obtain ⟨g, run, grown⟩ := leftIh below once olds short
        have still : g.cells x.1 = _ := (grown.kept _ low out).trans here
        have new : x.1 ∉ addresses (SearchTrees.insert Prod.snd (h.fresh, v) left) :=
          fun member => (address_insert member).elim (Nat.ne_of_lt low) out
        rw [if_pos less, if_pos less, run, Option.bind_some]
        dsimp only
        rw [still, Option.bind_some, Heap.write_live still, Option.map_some]
        exact ⟨_, rfl, grown_left above grown still olds' new out' across⟩
      · rw [if_neg less, if_neg less]
        exact ⟨h, rfl, ⟨here, below, above⟩, sound, rfl, rfl, fun _ _ _ => rfl⟩

end Trees

/-- The state behind the insertions of values, with the tree that the nodes make. -/
structure Made (s : State) (t : Placed) (values : List Int) : Prop where
  tree : s.tree = addr t
  stored : Stored s.heap t
  sound : s.heap.Sound
  base : s.heap.base = 0
  ordered : Ordered Prod.snd t
  all : (addresses t).Perm (List.range s.heap.fresh)
  same : ∀ v, v ∈ values ↔ ∃ x ∈ inorder t, x.2 = v

section Runs
variable {s : State} {t : Placed} {values : List Int}

theorem made_start : Made start nil [] where
  tree := rfl
  stored := trivial
  sound := Heap.sound_start (by simp)
  base := rfl
  ordered := List.Pairwise.nil
  all := List.Perm.refl []
  same v := by simp [inorder]

theorem made_once (made : Made s t values) : (addresses t).Nodup :=
  made.all.nodup_iff.mpr List.nodup_range

theorem made_deep (made : Made s t values) : (addresses t).length ≤ s.heap.fresh :=
  Nat.le_of_eq (made.all.length_eq.trans List.length_range)

/-- A new value takes the next address, a known one takes none. -/
theorem all_inserted {h h' : Memory} {v : Int} (ordered : Ordered Prod.snd t)
    (all : (addresses t).Perm (List.range h.fresh))
    (grown : Grown h h' t (SearchTrees.insert Prod.snd (h.fresh, v) t)) :
    (addresses (SearchTrees.insert Prod.snd (h.fresh, v) t)).Perm (List.range h'.fresh) := by
  have lengths := grown.fresh
  by_cases known : ∃ x ∈ inorder t, x.2 = v
  · obtain ⟨x, member, same⟩ := known
    rw [insert_known ordered member same] at lengths ⊢
    rw [Nat.add_right_cancel lengths]
    exact all
  · have new : ∀ x ∈ inorder t, x.2 ≠ v := fun x member same => known ⟨x, member, same⟩
    have more := (insert_new (x := (h.fresh, v)) new).map Prod.fst
    have count := more.length_eq
    rw [List.map_cons, List.length_cons] at count
    have next : h'.fresh = h.fresh + 1 := by
      rw [addresses, addresses] at lengths
      omega
    rw [next, List.range_succ]
    exact more.trans ((all.cons _).trans (List.perm_append_singleton _ _).symm)

theorem made_insert (made : Made s t values) (v : Int) :
    ∃ s' t', s.insert v = some s' ∧ Made s' t' (values ++ [v]) ∧
      ∀ x ∈ inorder t, x ∈ inorder t' := by
  have low : ∀ a ∈ addresses t, a < s.heap.fresh := fun a member =>
    List.mem_range.mp (made.all.mem_iff.mp member)
  obtain ⟨h, run, grown⟩ := @ins_node_grows s.heap t s.heap.fresh v made.sound made.stored
    (made_once made) low (made_deep made)
  refine ⟨⟨addr (SearchTrees.insert Prod.snd (s.heap.fresh, v) t), h⟩,
    SearchTrees.insert Prod.snd (s.heap.fresh, v) t, ?_, ?_,
    fun x member => mem_insert_old member⟩
  · rw [State.insert, made.tree, run, Option.map_some]
  refine ⟨rfl, grown.stored, grown.sound, grown.base.trans made.base,
    insert_ordered made.ordered, all_inserted made.ordered made.all grown, fun w => ?_⟩
  rw [List.mem_append, List.mem_singleton, made.same w]
  constructor
  · rintro (⟨x, member, same⟩ | rfl)
    · exact ⟨x, mem_insert_old member, same⟩
    · exact insert_key (s.heap.fresh, w) t
  · rintro ⟨x, member, same⟩
    rcases mem_insert member with rfl | old
    · exact .inr same.symm
    · exact .inl ⟨x, old, same⟩

theorem made_all (made : Made s t values) (more : List Int) :
    ∃ s' t', s.insertAll more = some s' ∧ Made s' t' (values ++ more) ∧
      ∀ x ∈ inorder t, x ∈ inorder t' := by
  induction more generalizing s t values with
  | nil => exact ⟨s, t, rfl, (List.append_nil values).symm ▸ made, fun _ => id⟩
  | cons v more ih =>
    obtain ⟨s', t', run, now, kept⟩ := made_insert made v
    obtain ⟨s'', t'', later, done, kept'⟩ := ih now
    refine ⟨s'', t'', ?_, ?_, fun x member => kept' x (kept x member)⟩
    · rw [State.insertAll, List.foldlM_cons, run]
      exact later
    · rwa [List.append_assoc, List.singleton_append] at done

theorem values_made (made : Made s t values) (v : Int) :
    v ∈ SearchTree.values (shape t) ↔ v ∈ values := by
  rw [values_shape, List.mem_map]
  exact (made.same v).symm

theorem find_made (made : Made s t values) {x : Nat × Int} (member : x ∈ inorder t) :
    s.find x.2 = some (some x.1) := by
  rw [State.find, made.tree, find_stored made.stored (made_deep made),
    find_mem made.ordered member, Option.map_some]

theorem find_not_made (made : Made s t values) {v : Int} (absent : v ∉ values) :
    s.find v = some none := by
  have nowhere : ∀ x ∈ inorder t, x.2 ≠ v := fun x member same =>
    absent ((made.same v).mpr ⟨x, member, same⟩)
  rw [State.find, made.tree, find_stored made.stored (made_deep made), find_absent nowhere,
    Option.map_none]

theorem find_min_made (made : Made s t values) {least : Int} (member : least ∈ values)
    (under : ∀ v ∈ values, least ≤ v) : s.findMin = s.find least := by
  obtain ⟨y, inside, value⟩ := (made.same least).mp member
  cases first : (inorder t).head? with
  | none =>
    rw [List.head?_eq_none_iff.mp first] at inside
    cases inside
  | some x =>
    have there := List.mem_of_head? first
    have lower := head_least made.ordered first inside
    have upper := under x.2 ((made.same x.2).mpr ⟨x, there, rfl⟩)
    have same : x.2 = least := le_antisymm (lower.trans value.le) upper
    rw [← same, find_made made there, State.findMin, made.tree,
      find_min_stored made.stored (made_deep made), first, Option.map_some]

theorem find_max_made (made : Made s t values) {greatest : Int} (member : greatest ∈ values)
    (above : ∀ v ∈ values, v ≤ greatest) : s.findMax.map some = s.find greatest := by
  obtain ⟨y, inside, value⟩ := (made.same greatest).mp member
  cases last : (inorder t).getLast? with
  | none =>
    rw [List.getLast?_eq_none_iff.mp last] at inside
    cases inside
  | some x =>
    have there := List.mem_of_getLast? last
    have upper := last_greatest made.ordered last inside
    have lower := above x.2 ((made.same x.2).mpr ⟨x, there, rfl⟩)
    have same : x.2 = greatest := le_antisymm lower (value.ge.trans upper)
    rw [← same, find_made made there, State.findMax, made.tree,
      find_max_stored made.stored (made_deep made), last, Option.map_some, Option.map_some]

theorem make_empty_made (made : Made s t values) : ∃ h, s.makeEmpty = some h ∧
    h.freed.Perm (List.range h.fresh) ∧ h.fresh = values.dedup.length := by
  obtain ⟨h, run, dropped⟩ := make_empty_drops made.stored (made_once made) made.base
    (made_deep made)
  have sound := dropped.sound made.sound
  have gone : ∀ a, h.base ≤ a → h.cells a = none := by
    intro a _
    by_cases inside : a ∈ (postorder t).map Prod.fst
    · exact dropped.gone a inside
    · have outside : a ∉ addresses t := fun member => inside
        (((postorder_perm t).trans (inorder_perm t).symm |>.map Prod.fst).mem_iff.mpr member)
      rw [dropped.kept a inside, ← Option.not_isSome_iff_eq_none, made.sound.live a]
      exact fun live => outside (made.all.mem_iff.mpr (List.mem_range.mpr live.1))
  have all := Heap.all_freed sound gone
  rw [dropped.base, made.base, Nat.sub_zero, ← List.range_eq_range'] at all
  refine ⟨h, by rw [State.makeEmpty, made.tree, run], all, ?_⟩
  have distinct : ((inorder t).map Prod.snd).Nodup := by
    rw [List.Nodup, List.pairwise_map]
    exact made.ordered.imp fun less => less.ne
  have values_perm : ((inorder t).map Prod.snd).Perm values.dedup := by
    refine (List.perm_ext_iff_of_nodup distinct (List.nodup_dedup values)).mpr fun v => ?_
    rw [List.mem_map, List.mem_dedup, made.same v]
  have count := made.all.length_eq
  rw [List.length_range, addresses, List.length_map] at count
  rw [dropped.fresh, ← count, ← values_perm.length_eq, List.length_map]

end Runs

/-- Whatever is inserted: the tree is a search tree of the values, a value keeps its node for
    good, and makeEmpty frees each node, of which there is one for each value. -/
theorem insertions_make_a_search_tree (values more : List Int) :
    ∃ s s' tree h, start.insertAll values = some s ∧ s.insertAll more = some s' ∧
      (Leads s.heap tree s.tree ∧ IsSearchTree tree ∧
        ∀ v, v ∈ SearchTree.values tree ↔ v ∈ values) ∧
      (∀ v ∈ values, ∃ a node, s.find v = some (some a) ∧ s.heap.cells a = some node ∧
        node.value = v ∧ s'.find v = some (some a)) ∧
      (∀ v ∉ values, s.find v = some none) ∧
      (∀ least ∈ values, (∀ v ∈ values, least ≤ v) → s.findMin = s.find least) ∧
      (∀ greatest ∈ values, (∀ v ∈ values, v ≤ greatest) →
        s.findMax.map some = s.find greatest) ∧
      s.makeEmpty = some h ∧ h.freed.Perm (List.range h.fresh) ∧
      h.fresh = values.dedup.length := by
  obtain ⟨s, t, run, made, _⟩ := made_all made_start values
  obtain ⟨s', t', later, made', kept⟩ := made_all made more
  obtain ⟨h, emptied, freed, count⟩ := make_empty_made made
  refine ⟨s, s', shape t, h, run, later,
    ⟨made.tree ▸ leads_stored made.stored, search_tree_shape made.ordered, values_made made⟩,
    fun v member => ?_, fun v => find_not_made made, fun least => find_min_made made,
    fun greatest => find_max_made made, emptied, freed, count⟩
  obtain ⟨x, inside, rfl⟩ := (made.same v).mp member
  obtain ⟨node, here, value⟩ := stored_mem made.stored inside
  exact ⟨x.1, node, find_made made inside, here, value, find_made made' (kept x inside)⟩

end UC.SearchTree.Nodes
