import UC.SearchTree.Nodes

/- delNode with the pointers of the tree, beside delNode on what a pointer leads to. -/
namespace UC.SearchTree.Nodes
open BinaryTree UC.Heaps UC.TreeOrders

/-- The pointer returned, and the memory. -/
def delNode (value : Int) : Nat → Memory → Option Nat → Option (Option Nat × Memory)
  | _, h, none => some (none, h)
  | 0, _, some _ => none
  | depth + 1, h, some tree =>
    (h.cells tree).bind fun node =>
      if value > node.value then delNode value depth h node.right
      else if value < node.value then delNode value depth h node.left
      else if node.right.isSome ∧ node.left.isSome then
        (findMin h depth node.right).bind fun min =>
          (min.bind h.cells).bind fun least =>
            (h.write tree { node with value := least.value }).bind fun h =>
              (min.bind h.cells).bind fun least =>
                (h.cells tree).bind fun node =>
                  (delNode least.value depth h node.right).bind fun (right, h) =>
                    (h.cells tree).bind fun node =>
                      (h.write tree { node with right := right }).map fun h => (some tree, h)
      else
        let tmpCell := tree
        let tree := node.right.getD tree
        -- tree is the right child when its left pointer is tested.
        (h.cells tree).bind fun node =>
          let tree := node.left.getD tree
          (h.free tmpCell).map fun h => (some tree, h)

def State.delete (s : State) (value : Int) : Option State :=
  (delNode value s.heap.fresh s.heap s.tree).map fun (tree, heap) => ⟨tree, heap⟩

def State.deleteAll (s : State) (values : List Int) : Option State := values.foldlM State.delete s

/-- What a pointer leads to, with the addresses of the nodes there. -/
def Occupies (h : Memory) : PSearchTree → Option Nat → List Nat → Prop
  | .null, pointer, xs => pointer = none ∧ xs = []
  | .freed, pointer, xs => (∃ a, pointer = some a ∧ h.cells a = none) ∧ xs = []
  | .node value left right, pointer, xs => ∃ a p q ls rs, pointer = some a ∧
      h.cells a = some ⟨value, p, q⟩ ∧ Occupies h left p ls ∧ Occupies h right q rs ∧
      xs = ls ++ a :: rs

variable {h h' : Memory} {tree left right : PSearchTree} {p q p' : Option Nat}
  {a b depth : Nat} {xs ys ls rs : List Nat} {v w : Int}

theorem occupies_leads (occupies : Occupies h tree p xs) : Leads h tree p := by
  induction tree generalizing p xs with
  | null => exact occupies.1
  | freed => exact occupies.1
  | node value left right leftIh rightIh =>
    obtain ⟨a, p, q, ls, rs, pointer, here, below, above, _⟩ := occupies
    exact ⟨a, _, pointer, here, rfl, leftIh below, rightIh above⟩

theorem stored_occupies {t : Placed} (stored : Stored h t) :
    Occupies h (shape t) (addr t) (addresses t) := by
  induction t with
  | nil => exact ⟨rfl, rfl⟩
  | node x left right leftIh rightIh =>
    obtain ⟨here, below, above⟩ := stored
    exact ⟨x.1, _, _, _, _, rfl, here, leftIh below, rightIh above, addresses_node⟩

theorem occupies_live (occupies : Occupies h tree p xs) (member : b ∈ xs) : h.cells b ≠ none := by
  induction tree generalizing p xs with
  | null =>
    rw [occupies.2] at member
    cases member
  | freed =>
    rw [occupies.2] at member
    cases member
  | node value left right leftIh rightIh =>
    obtain ⟨a, p, q, ls, rs, _, here, below, above, rfl⟩ := occupies
    rcases List.mem_append.mp member with inside | inside
    · exact leftIh below inside
    rcases List.mem_cons.mp inside with rfl | inside
    · rw [here]
      exact Option.some_ne_none _
    · exact rightIh above inside

theorem occupies_frame (same : ∀ b ∈ xs, h'.cells b = h.cells b)
    (dead : ∀ b, h.cells b = none → h'.cells b = none) (occupies : Occupies h tree p xs) :
    Occupies h' tree p xs := by
  induction tree generalizing p xs with
  | null => exact occupies
  | freed =>
    obtain ⟨⟨a, pointer, gone⟩, none_there⟩ := occupies
    exact ⟨⟨a, pointer, dead a gone⟩, none_there⟩
  | node value left right leftIh rightIh =>
    obtain ⟨a, p, q, ls, rs, pointer, here, below, above, rfl⟩ := occupies
    refine ⟨a, p, q, ls, rs, pointer, ?_, leftIh ?_ below, rightIh ?_ above, rfl⟩
    · exact (same a (List.mem_append_right _ List.mem_cons_self)).trans here
    · exact fun b member => same b (List.mem_append_left _ member)
    · exact fun b member => same b (List.mem_append_right _ (List.mem_cons_of_mem _ member))

theorem occupies_put {old : TreeNode} (occupies : Occupies h tree p xs)
    (live : h.cells a = some old) (out : a ∉ xs) (cell : TreeNode) :
    Occupies (h.put a cell) tree p xs := by
  refine occupies_frame (fun b member => Heap.put_other _ _ ?_) (fun b gone => ?_) occupies
  · rintro rfl
    exact out member
  · have other : b ≠ a := by
      rintro rfl
      rw [gone] at live
      cases live
    exact (Heap.put_other _ _ other).trans gone

theorem pointer_some (occupies : Occupies h tree p xs) : p.isSome ↔ tree ≠ .null := by
  cases tree with
  | null => simp [occupies.1]
  | freed =>
    obtain ⟨⟨a, rfl, _⟩, _⟩ := occupies
    simp
  | node value left right =>
    obtain ⟨a, _, _, _, _, rfl, _⟩ := occupies
    simp

theorem find_min_agrees (occupies : Occupies h tree p xs) (deep : xs.length ≤ depth) :
    (SearchTree.findMin tree = none → findMin h depth p = none) ∧
      ∀ min, SearchTree.findMin tree = some min →
        ∃ q zs, findMin h depth p = some q ∧ Occupies h min q zs ∧ zs ⊆ xs := by
  induction tree generalizing p xs depth with
  | null =>
    obtain ⟨rfl, rfl⟩ := occupies
    refine ⟨fun lost => absurd lost (Option.some_ne_none _), fun min found => ?_⟩
    cases found
    refine ⟨none, [], ?_, ⟨rfl, rfl⟩, List.Subset.refl _⟩
    cases depth <;> rfl
  | freed =>
    obtain ⟨⟨a, rfl, gone⟩, rfl⟩ := occupies
    refine ⟨fun _ => ?_, fun min found => absurd found.symm (Option.some_ne_none _)⟩
    cases depth with
    | zero => rfl
    | succ depth =>
      rw [findMin, gone]
      rfl
  | node value left right leftIh rightIh =>
    have whole := occupies
    obtain ⟨a, p, q, ls, rs, rfl, here, below, above, rfl⟩ := occupies
    rw [List.length_append, List.length_cons] at deep
    cases depth with
    | zero => omega
    | succ depth =>
      rw [findMin, here, Option.bind_some, SearchTree.findMin]
      by_cases no_left : left = .null
      · subst no_left
        obtain ⟨rfl, rfl⟩ := below
        rw [if_pos rfl]
        refine ⟨fun lost => absurd lost (Option.some_ne_none _), fun min found => ?_⟩
        cases found
        exact ⟨some a, _, rfl, whole, List.Subset.refl _⟩
      · rw [if_neg no_left]
        obtain ⟨b, rfl⟩ := Option.isSome_iff_exists.mp ((pointer_some below).mpr no_left)
        have short : ls.length ≤ depth := by omega
        obtain ⟨lost, found⟩ := leftIh below short
        refine ⟨lost, fun min run => ?_⟩
        obtain ⟨q, zs, run, place, part⟩ := found min run
        exact ⟨q, zs, run, place, fun c member => List.mem_append_left _ (part member)⟩

/-- What delNode leaves behind of a tree at xs. -/
structure Unlinked (h h' : Memory) (after : PSearchTree) (p : Option Nat) (xs ys : List Nat) :
    Prop where
  occupies : Occupies h' after p ys
  fewer : ys.Sublist xs
  kept : ∀ b ∉ xs, h'.cells b = h.cells b
  base : h'.base = h.base
  fresh : h'.fresh = h.fresh

/-- The run with the pointers fails if and only if the one without does. -/
def Agrees (h : Memory) (xs : List Nat) :
    Option PSearchTree → Option (Option Nat × Memory) → Prop
  | none, run => run = none
  | some after, run => ∃ p h' ys, run = some (p, h') ∧ Unlinked h h' after p xs ys

theorem agrees_part {result : Option PSearchTree} {run : Option (Option Nat × Memory)}
    (part : ys.Sublist xs) (agrees : Agrees h ys result run) : Agrees h xs result run := by
  cases result with
  | none => exact agrees
  | some after =>
    obtain ⟨p, h', zs, same, unlinked⟩ := agrees
    exact ⟨p, h', zs, same, unlinked.occupies, unlinked.fewer.trans part,
      fun b out => unlinked.kept b fun member => out (part.subset member), unlinked.base,
      unlinked.fresh⟩

theorem unlinked_drop (occupies : Occupies h tree p ys) (part : ys.Sublist xs) (out : a ∉ ys)
    (member : a ∈ xs) : Unlinked h (h.drop a) tree p xs ys := by
  refine ⟨occupies_frame (fun b inside => Heap.drop_other _ ?_) (fun b gone => ?_) occupies, part,
    fun b outside => Heap.drop_other _ ?_, rfl, rfl⟩
  · rintro rfl
    exact out inside
  · by_cases same : b = a
    · rw [same, Heap.drop_same]
    · rw [Heap.drop_other _ same, gone]
  · rintro rfl
    exact outside member

theorem without_both_agrees (here : h.cells a = some ⟨w, p, q⟩) (below : Occupies h left p ls)
    (above : Occupies h right q rs) (once : (ls ++ a :: rs).Nodup) (base : h.base = 0) :
    Agrees h (ls ++ a :: rs)
      (if right ≠ .null then do
        let below ← SearchTree.left right
        some (if below ≠ .null then below else right)
      else if left ≠ .null then some left else some .freed)
      ((h.cells (q.getD a)).bind fun node =>
        (h.free a).map fun h => (some (node.left.getD (q.getD a)), h)) := by
  obtain ⟨_, _, out, out', across⟩ := parts_apart once
  have inside : a ∈ ls ++ a :: rs := List.mem_append_right _ List.mem_cons_self
  have behind : rs.Sublist (ls ++ a :: rs) :=
    (List.sublist_cons_self a rs).trans (List.sublist_append_right ls _)
  rw [Heap.free_live here (base ▸ Nat.zero_le a)]
  cases right with
  | null =>
    obtain ⟨rfl, rfl⟩ := above
    rw [if_neg (not_not_intro rfl), Option.getD_none, here, Option.bind_some]
    by_cases no_left : left = .null
    · subst no_left
      obtain ⟨rfl, rfl⟩ := below
      rw [if_neg (not_not_intro rfl)]
      refine ⟨some a, h.drop a, [], rfl, ⟨⟨a, rfl, Heap.drop_same h a⟩, rfl⟩,
        List.nil_sublist _, fun b outside => Heap.drop_other _ ?_, rfl, rfl⟩
      rintro rfl
      exact outside inside
    · obtain ⟨b, rfl⟩ := Option.isSome_iff_exists.mp ((pointer_some below).mpr no_left)
      rw [if_pos no_left]
      exact ⟨some b, h.drop a, ls, rfl,
        unlinked_drop below (List.sublist_append_left ls _) out inside⟩
  | freed =>
    have whole := above
    obtain ⟨⟨b, rfl, gone⟩, rfl⟩ := above
    rw [if_pos ((pointer_some whole).mp rfl), Option.getD_some, gone]
    rfl
  | node x l r =>
    have whole := above
    obtain ⟨b, p', q', ls', rs', rfl, there, below', above', rfl⟩ := above
    rw [if_pos ((pointer_some whole).mp rfl), Option.getD_some, there, Option.bind_some]
    by_cases no_left : l = .null
    · subst no_left
      obtain ⟨rfl, rfl⟩ := below'
      exact ⟨some b, h.drop a, _, rfl, unlinked_drop whole behind out' inside⟩
    · obtain ⟨c, rfl⟩ := Option.isSome_iff_exists.mp ((pointer_some below').mpr no_left)
      refine ⟨some c, h.drop a, ls', rfl, ?_⟩
      rw [if_pos no_left]
      exact unlinked_drop below' ((List.sublist_append_left ls' _).trans behind)
        (fun member => out' (List.mem_append_left _ member)) inside

/-- The value of a node was overwritten with least, which was then deleted on the right. -/
theorem unlinked_both {k : Memory} {after : PSearchTree} {least : Int}
    (here : h.cells a = some ⟨w, p, q⟩) (below : Occupies h left p ls)
    (above : Occupies h right q rs) (once : (ls ++ a :: rs).Nodup)
    (unlinked : Unlinked (h.put a ⟨least, p, q⟩) k after p' rs ys) :
    Unlinked h (k.put a ⟨least, p, p'⟩) (.node least left after) (some a) (ls ++ a :: rs)
      (ls ++ a :: ys) := by
  obtain ⟨_, _, out, out', across⟩ := parts_apart once
  have still : k.cells a = _ := (unlinked.kept a out').trans (Heap.put_same _ _ _)
  have kept : ∀ b, b ≠ a → b ∉ rs → (k.put a ⟨least, p, p'⟩).cells b = h.cells b := by
    intro b other outside
    rw [Heap.put_other _ _ other, unlinked.kept b outside, Heap.put_other _ _ other]
  refine ⟨⟨a, p, p', ls, ys, rfl, Heap.put_same _ _ _, ?_, ?_, rfl⟩,
    (List.Sublist.refl ls).append (unlinked.fewer.cons_cons a), fun b outside => ?_,
    unlinked.base, unlinked.fresh⟩
  · refine occupies_frame (fun b member => kept b ?_ (across b member)) (fun b gone => ?_) below
    · rintro rfl
      exact out member
    · refine (kept b ?_ fun member => occupies_live above member gone).trans gone
      rintro rfl
      rw [here] at gone
      cases gone
  · exact occupies_put unlinked.occupies still (fun member => out' (unlinked.fewer.subset member)) _
  · rw [List.mem_append, List.mem_cons, not_or, not_or] at outside
    exact kept b outside.2.1 outside.2.2

theorem both_children_agree (here : h.cells a = some ⟨w, p, q⟩) (below : Occupies h left p ls)
    (above : Occupies h right q rs) (once : (ls ++ a :: rs).Nodup) (deep : rs.length ≤ depth)
    (ih : ∀ (g : Memory) (least : Int), Occupies g right q rs → g.base = h.base →
      Agrees g rs (SearchTree.delNode least right) (delNode least depth g q)) :
    Agrees h (ls ++ a :: rs)
      (do
        let min ← SearchTree.findMin right
        let least ← SearchTree.value min
        let right ← SearchTree.delNode least right
        some (.node least left right))
      ((findMin h depth q).bind fun min =>
        (min.bind h.cells).bind fun least =>
          (h.write a { value := least.value, left := p, right := q }).bind fun h =>
            (min.bind h.cells).bind fun least =>
              (h.cells a).bind fun node =>
                (delNode least.value depth h node.right).bind fun (right, h) =>
                  (h.cells a).bind fun node =>
                    (h.write a { node with right := right }).map fun h => (some a, h)) := by
  obtain ⟨_, _, out, out', _⟩ := parts_apart once
  obtain ⟨lost, found⟩ := find_min_agrees above deep
  cases result : SearchTree.findMin right with
  | none =>
    rw [lost result]
    rfl
  | some min =>
    obtain ⟨pointer, zs, run, place, part⟩ := found min result
    rw [run, Option.bind_some]
    cases min with
    | null =>
      rw [place.1]
      rfl
    | freed =>
      obtain ⟨⟨b, rfl, gone⟩, _⟩ := place
      rw [Option.bind_some, gone]
      rfl
    | node least l r =>
      obtain ⟨b, p', q', ls', rs', rfl, there, _, _, rfl⟩ := place
      have other : b ≠ a := by
        rintro rfl
        exact out' (part (List.mem_append_right _ List.mem_cons_self))
      -- min->value and tree->right are read again behind the assignment.
      rw [Option.bind_some, there, Option.bind_some, Heap.write_live here, Option.bind_some,
        Option.bind_some, Heap.put_other _ _ other, there, Option.bind_some, Heap.put_same,
        Option.bind_some]
      have agrees := ih (h.put a ⟨least, p, q⟩) least (occupies_put above here out' _) rfl
      change Agrees h _ ((SearchTree.delNode least right).bind fun right =>
        some (.node least left right)) _
      cases rest : SearchTree.delNode least right with
      | none =>
        rw [rest] at agrees
        have failed : delNode least depth (h.put a ⟨least, p, q⟩) q = none := agrees
        dsimp only
        rw [failed]
        rfl
      | some after =>
        rw [rest] at agrees
        obtain ⟨p'', k, ys, run, unlinked⟩ := agrees
        have still : k.cells a = _ := (unlinked.kept a out').trans (Heap.put_same _ _ _)
        dsimp only
        rw [run, Option.bind_some, Option.bind_some]
        dsimp only
        rw [still, Option.bind_some, Heap.write_live still, Option.map_some]
        exact ⟨some a, _, ls ++ a :: ys, rfl, unlinked_both here below above once unlinked⟩

theorem del_node_agrees (occupies : Occupies h tree p xs) (once : xs.Nodup) (base : h.base = 0)
    (deep : xs.length ≤ depth) :
    Agrees h xs (SearchTree.delNode v tree) (delNode v depth h p) := by
  induction tree generalizing h p xs depth v with
  | null =>
    obtain ⟨rfl, rfl⟩ := occupies
    have same : delNode v depth h none = some (none, h) := by cases depth <;> rfl
    rw [same]
    exact ⟨none, h, [], rfl, ⟨rfl, rfl⟩, List.Sublist.refl _, fun _ _ => rfl, rfl, rfl⟩
  | freed =>
    obtain ⟨⟨a, rfl, gone⟩, rfl⟩ := occupies
    cases depth with
    | zero => rfl
    | succ depth =>
      rw [delNode, gone]
      rfl
  | node w left right leftIh rightIh =>
    obtain ⟨a, p, q, ls, rs, rfl, here, below, above, rfl⟩ := occupies
    obtain ⟨once_left, once_right, _⟩ := parts_apart once
    rw [List.length_append, List.length_cons] at deep
    cases depth with
    | zero => omega
    | succ depth =>
      have before : ls.Sublist (ls ++ a :: rs) := List.sublist_append_left ls _
      have behind : rs.Sublist (ls ++ a :: rs) :=
        (List.sublist_cons_self a rs).trans (List.sublist_append_right ls _)
      have children : (q.isSome ∧ p.isSome) ↔ (right ≠ .null ∧ left ≠ .null) :=
        and_congr (pointer_some above) (pointer_some below)
      rw [delNode, here, Option.bind_some, SearchTree.delNode]
      dsimp only
      by_cases more : v > w
      · rw [if_pos more, if_pos more]
        exact agrees_part behind (rightIh above once_right base (by omega))
      rw [if_neg more, if_neg more]
      by_cases less : v < w
      · rw [if_pos less, if_pos less]
        exact agrees_part before (leftIh below once_left base (by omega))
      rw [if_neg less, if_neg less]
      by_cases both : right ≠ .null ∧ left ≠ .null
      · rw [if_pos both, if_pos (children.mpr both)]
        exact both_children_agree here below above once (by omega) fun g least place ground =>
          rightIh place once_right (ground.trans base) (by omega)
      · rw [if_neg both, if_neg (mt children.mp both)]
        exact without_both_agrees here below above once base

section Runs
variable {s : State}

theorem deletions_agree (occupies : Occupies s.heap tree s.tree xs) (once : xs.Nodup)
    (base : s.heap.base = 0) (deep : xs.length ≤ s.heap.fresh) (gone : List Int) :
    (gone.foldlM (fun tree v => SearchTree.delNode v tree) tree = none →
        s.deleteAll gone = none) ∧
      ∀ after, gone.foldlM (fun tree v => SearchTree.delNode v tree) tree = some after →
        ∃ s', s.deleteAll gone = some s' ∧ Leads s'.heap after s'.tree := by
  induction gone generalizing s tree xs with
  | nil =>
    refine ⟨fun lost => absurd lost (Option.some_ne_none _), fun after same => ⟨s, rfl, ?_⟩⟩
    cases same
    exact occupies_leads occupies
  | cons v gone ih =>
    have agrees := del_node_agrees (v := v) occupies once base deep
    rw [List.foldlM_cons, State.deleteAll, List.foldlM_cons, State.delete]
    cases result : SearchTree.delNode v tree with
    | none =>
      rw [result] at agrees
      have failed : delNode v s.heap.fresh s.heap s.tree = none := agrees
      rw [failed]
      exact ⟨fun _ => rfl, fun after kept => absurd kept.symm (Option.some_ne_none _)⟩
    | some after =>
      rw [result] at agrees
      obtain ⟨p, h, ys, run, unlinked⟩ := agrees
      rw [run]
      refine ih (s := ⟨p, h⟩) unlinked.occupies (unlinked.fewer.nodup once)
        (unlinked.base.trans base) ?_
      exact unlinked.fresh ▸ unlinked.fewer.length_le.trans deep

end Runs

/-- Behind insertions, deletions with the pointers do what they do without them, and use memory
    that is not live exactly when a deletion without pointers meets a freed node. -/
theorem deletions_refine (values gone : List Int) : ∃ s tree,
    start.insertAll values = some s ∧ Leads s.heap tree s.tree ∧ IsSearchTree tree ∧
      (∀ v, v ∈ SearchTree.values tree ↔ v ∈ values) ∧
      (s.deleteAll gone = none ↔
        gone.foldlM (fun tree v => SearchTree.delNode v tree) tree = none) ∧
      ∀ after, gone.foldlM (fun tree v => SearchTree.delNode v tree) tree = some after →
        ∃ s', s.deleteAll gone = some s' ∧ Leads s'.heap after s'.tree := by
  obtain ⟨s, t, run, made, _⟩ := made_all made_start values
  obtain ⟨lost, kept⟩ := deletions_agree (made.tree ▸ stored_occupies made.stored)
    (made_once made) made.base (made_deep made) gone
  refine ⟨s, shape t, run, made.tree ▸ leads_stored made.stored, search_tree_shape made.ordered,
    values_made made, ⟨fun failed => ?_, lost⟩, kept⟩
  cases result : gone.foldlM (fun tree v => SearchTree.delNode v tree) (shape t) with
  | none => rfl
  | some after =>
    obtain ⟨s', done, _⟩ := kept after result
    rw [failed] at done
    cases done

/-- The root is a leaf: its pointer stays behind when it is freed, and is read again. -/
example : ((start.insertAll [5]).bind fun s => s.deleteAll [5, 5]).isNone := by decide

end UC.SearchTree.Nodes
