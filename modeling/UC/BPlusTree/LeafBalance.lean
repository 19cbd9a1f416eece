import Mathlib.Data.List.Nodup
import UC.BPlusTree.InnerBalance

/- Borrowing between leaves and merging them: the entries stay in their order, and the parent
   keeps telling the two leaves apart. -/
namespace UC.BPlusTree
open UC.Memory UC.Slots

variable {K : Type}

def CNode.entries (n : CNode K) : List (K × Int) :=
  (List.range n.m_KeyNum).map fun i => (n.m_KeyValues i, n.m_Datas i)

def Heap.leafEntries (h : Heap K) (left right : Ptr) : Option (List (K × Int)) := do
  let l ← h.cells left
  let r ← h.cells right
  some (l.entries ++ r.entries)

structure KeepsEntries (h h' : Heap K) (d : Direction) (this sibling parent : Ptr)
    (keyIndex : Nat) : Prop where
  entries : h'.leafEntries (d.leftOf this sibling) (d.rightOf this sibling) =
    h.leafEntries (d.leftOf this sibling) (d.rightOf this sibling)
  borrower : h'.keyNum this = (h.keyNum this).map (· + 1)
  lender : (h'.keyNum sibling).map (· + 1) = h.keyNum sibling
  separator : ∃ m r, h'.cells parent = some m ∧ h'.cells (d.rightOf this sibling) = some r ∧
    r.keys.head? = some (m.m_KeyValues keyIndex)
  above : ∀ m, h.cells parent = some m → ∃ m', h'.cells parent = some m' ∧
    m'.m_Type = m.m_Type ∧ m'.m_KeyNum = m.m_KeyNum ∧ m'.m_Childs = m.m_Childs ∧
    ∀ i, i ≠ keyIndex → m'.m_KeyValues i = m.m_KeyValues i
  others : ∀ p, p ≠ this → p ≠ sibling → p ≠ parent → h'.cells p = h.cells p

structure MergesLeaves (h h' : Heap K) (this parent child : Ptr) (keyIndex : Nat) : Prop where
  entries : (h'.cells this).map CNode.entries = h.leafEntries this child
  sibling : (h'.cells this).map CNode.m_RightSibling = (h.cells child).map CNode.m_RightSibling
  above : ∀ m, h.cells parent = some m → ∃ m', h'.cells parent = some m' ∧
    m'.keys = m.keys.eraseIdx keyIndex ∧ m'.childs = m.childs.eraseIdx (keyIndex + 1)
  others : ∀ p, p ≠ this → p ≠ parent → h'.cells p = h.cells p

section Entries

variable {n : CNode K} {es es' : List (K × Int)}

theorem holding_entries (leaf : n.m_Type = .LEAF) : n.Holding n.entries := by
  refine ⟨leaf, ?_, ?_⟩
  all_goals simp [CNode.entries, slice, Function.comp_def]

theorem entries_of_holding (holding : n.Holding es) : n.entries = es := by
  have count := holding.count
  apply List.ext_getElem
  · simp [CNode.entries, count]
  · intro i inside inside'
    have parts : es = es.take i ++ es[i] :: es.drop (i + 1) := by
      rw [List.getElem_cons_drop, List.take_append_drop]
    have place : (es.take i).length = i := by
      rw [List.length_take]
      omega
    rw [parts] at holding
    obtain ⟨key, data⟩ := holding.entry
    rw [place] at key data
    simp [CNode.entries, key, data]

theorem entries_length : n.entries.length = n.m_KeyNum := by simp [CNode.entries]

theorem keys_head (some_key : 0 < n.m_KeyNum) : n.keys.head? = some (n.m_KeyValues 0) := by
  obtain ⟨k, count⟩ := Nat.exists_eq_succ_of_ne_zero some_key.ne'
  rw [CNode.keys, count, slice_cons]
  rfl

theorem entries_in_order [LinearOrder K] (perm : es'.Perm es)
    (sorted : (es'.map Prod.fst).Pairwise (· ≤ ·)) (strict : (es.map Prod.fst).Pairwise (· < ·)) :
    es' = es := by
  have distinct : (es.map Prod.fst).Nodup := strict.imp ne_of_lt
  refine @List.Perm.eq_of_pairwise _ (fun a b => a.1 ≤ b.1) _ _ ?_ ?_ ?_ perm
  · intro a b mem mem' below above
    exact List.inj_on_of_nodup_map distinct (perm.subset mem) mem' (le_antisymm below above)
  · exact List.pairwise_map.mp sorted
  · exact (List.pairwise_map.mp strict).imp le_of_lt

end Entries

section Borrow

variable {h : Heap K} {left right this sibling parent : Ptr} {m l r n s n' s' x : CNode K}
  {keyIndex : Nat}

theorem leaf_entries_cells (cell_l : h.cells left = some l) (cell_r : h.cells right = some r) :
    h.leafEntries left right = some (l.entries ++ r.entries) := by
  unfold Heap.leafEntries
  rw [cell_l, cell_r]
  rfl

/-- What is left to show when the three nodes are written. -/
theorem keeps_entries (cell_n : h.cells this = some n) (cell_s : h.cells sibling = some s)
    (cell_m : h.cells parent = some m) (ne : this ≠ sibling) (ne_n : parent ≠ this)
    (ne_s : parent ≠ sibling) (more : n'.m_KeyNum = n.m_KeyNum + 1)
    (less : s'.m_KeyNum + 1 = s.m_KeyNum) {key : K} {d : Direction}
    (same : (h.rewritten this sibling parent n' s'
        { m with m_KeyValues := store m.m_KeyValues keyIndex key }).leafEntries
          (d.leftOf this sibling) (d.rightOf this sibling) =
      h.leafEntries (d.leftOf this sibling) (d.rightOf this sibling))
    (first : (h.rewritten this sibling parent n' s'
        { m with m_KeyValues := store m.m_KeyValues keyIndex key }).cells
          (d.rightOf this sibling) = some x) (front : x.keys.head? = some key) :
    KeepsEntries h (h.rewritten this sibling parent n' s'
      { m with m_KeyValues := store m.m_KeyValues keyIndex key }) d this sibling parent
      keyIndex := by
  refine ⟨same, ?_, ?_, ⟨_, x, Heap.rewritten_third, first, ?_⟩, ?_, ?_⟩
  · unfold Heap.keyNum
    rw [Heap.rewritten_first ne ne_n.symm, cell_n, Option.map_some, Option.map_some, more]
    rfl
  · unfold Heap.keyNum
    rw [Heap.rewritten_second ne_s.symm, cell_s]
    exact congrArg some less
  · simp only [front, store_same]
  · intro m₁ cell
    cases cell_m.symm.trans cell
    refine ⟨_, Heap.rewritten_third, rfl, rfl, rfl, ?_⟩
    intro i other
    exact store_other _ _ other
  · intro p other_n other_s other_m
    exact Heap.rewritten_others other_n other_s other_m

variable [LinearOrder K]

theorem borrow_left_keeps_entries (near : Adjacent h parent left right keyIndex m)
    (cell_l : h.cells left = some l) (cell_r : h.cells right = some r)
    (leaf_l : l.m_Type = .LEAF) (leaf_r : r.m_Type = .LEAF)
    (strict : ((l.entries ++ r.entries).map Prod.fst).Pairwise (· < ·))
    (more : 0 < l.m_KeyNum) (few : l.m_KeyNum ≤ MAXNUM_LEAF) (room : r.m_KeyNum < MAXNUM_LEAF) :
    ∃ h', h.borrowFrom right left parent keyIndex .LEFT = some h' ∧
      KeepsEntries h h' .LEFT right left parent keyIndex := by
  obtain ⟨es, e, parts⟩ := (List.eq_nil_or_concat' l.entries).resolve_left
    (List.ne_nil_of_length_pos (by rwa [entries_length]))
  have size := @entries_length _ l
  rw [parts, List.length_append, List.length_singleton] at size
  rw [parts, List.append_assoc, List.singleton_append, List.map_append] at strict
  have behind := (List.pairwise_append.mp strict).2.1
  have weak := (List.pairwise_cons.mp behind).2.imp le_of_lt
  obtain ⟨n', en, s', run, holding_n, perm, sorted, _, holding_s, _⟩ :=
    Heap.borrow_leaf_left cell_r cell_l near.cell (holding_entries leaf_r)
      (parts ▸ holding_entries leaf_l) weak (by rwa [entries_length]) (by omega)
      (Nat.lt_of_lt_of_le near.index near.few) near.apart.symm near.above_right near.above_left
  cases entries_in_order perm sorted behind
  have count_n := holding_n.count
  have count_s := holding_s.count
  rw [List.length_cons, entries_length] at count_n
  refine ⟨_, run, keeps_entries cell_r cell_l near.cell near.apart.symm near.above_right
    near.above_left count_n (by omega) ?_
    (Heap.rewritten_first near.apart.symm near.above_right.symm) (keys_head (by omega))⟩
  unfold Direction.leftOf Direction.rightOf
  rw [leaf_entries_cells cell_l cell_r, leaf_entries_cells
    (Heap.rewritten_second near.above_left.symm)
    (Heap.rewritten_first near.apart.symm near.above_right.symm),
    entries_of_holding holding_n, entries_of_holding holding_s, parts, List.append_assoc]
  rfl

theorem borrow_right_keeps_entries (near : Adjacent h parent left right keyIndex m)
    (cell_l : h.cells left = some l) (cell_r : h.cells right = some r)
    (leaf_l : l.m_Type = .LEAF) (leaf_r : r.m_Type = .LEAF)
    (strict : ((l.entries ++ r.entries).map Prod.fst).Pairwise (· < ·))
    (more : 1 < r.m_KeyNum) (few : r.m_KeyNum ≤ MAXNUM_LEAF) (room : l.m_KeyNum < MAXNUM_LEAF) :
    ∃ h', h.borrowFrom left right parent keyIndex .RIGHT = some h' ∧
      KeepsEntries h h' .RIGHT left right parent keyIndex := by
  obtain ⟨e, es, parts⟩ := List.exists_cons_of_ne_nil (List.ne_nil_of_length_pos
    (show 0 < r.entries.length by rw [entries_length]; omega))
  have size := @entries_length _ r
  rw [parts, List.length_cons] at size
  rw [parts, List.append_cons, List.map_append] at strict
  have before := (List.pairwise_append.mp strict).1
  have weak : (l.entries.map Prod.fst).Pairwise (· ≤ ·) := by
    rw [List.map_append] at before
    exact (List.pairwise_append.mp before).1.imp le_of_lt
  obtain ⟨n', en, s', run, holding_n, perm, sorted, _, holding_s, _⟩ :=
    Heap.borrow_leaf_right cell_l cell_r near.cell (holding_entries leaf_l)
      (parts ▸ holding_entries leaf_r) weak (by rwa [entries_length]) (by omega)
      (Nat.lt_of_lt_of_le near.index near.few) near.apart near.above_left near.above_right
  cases entries_in_order (perm.trans (List.perm_append_singleton _ _).symm) sorted before
  have count_n := holding_n.count
  have count_s := holding_s.count
  rw [List.length_append, entries_length, List.length_singleton] at count_n
  refine ⟨_, run, keeps_entries cell_l cell_r near.cell near.apart near.above_left
    near.above_right count_n (by omega) ?_ (Heap.rewritten_second near.above_right.symm)
    (keys_head (by omega))⟩
  unfold Direction.leftOf Direction.rightOf
  rw [leaf_entries_cells cell_l cell_r, leaf_entries_cells
    (Heap.rewritten_first near.apart near.above_left.symm)
    (Heap.rewritten_second near.above_right.symm),
    entries_of_holding holding_n, entries_of_holding holding_s, parts, ← List.append_cons]

theorem merge_keeps_entries (near : Adjacent h parent left right keyIndex m)
    (cell_l : h.cells left = some l) (cell_r : h.cells right = some r)
    (leaf_l : l.m_Type = .LEAF) (leaf_r : r.m_Type = .LEAF)
    (strict : ((l.entries ++ r.entries).map Prod.fst).Pairwise (· < ·))
    (room : l.m_KeyNum + r.m_KeyNum ≤ MAXNUM_LEAF) :
    ∃ h', h.mergeChild left parent right keyIndex = some h' ∧
      MergesLeaves h h' left parent right keyIndex := by
  have weak : (l.entries.map Prod.fst).Pairwise (· ≤ ·) := by
    rw [List.map_append] at strict
    exact (List.pairwise_append.mp strict).1.imp le_of_lt
  have removed : m.removeKey keyIndex (keyIndex + 1) =
      some (m.withoutKey keyIndex (keyIndex + 1)) :=
    CNode.remove_inner_spec near.type near.index near.few (Nat.le_refl _)
  obtain ⟨n', en, run, holding, perm, sorted, sibling⟩ := Heap.merge_leaf cell_l cell_r near.cell
    (holding_entries leaf_l) (holding_entries leaf_r) weak
    (by rwa [entries_length, entries_length]) removed near.apart near.above_left
  cases entries_in_order perm sorted strict
  have cell_n := (Heap.write_elsewhere (h.write left n') (m.withoutKey keyIndex (keyIndex + 1))
    near.above_left.symm).trans (Heap.write_here h left n')
  refine ⟨_, run, ?_, ?_, ?_, ?_⟩
  · rw [cell_n, leaf_entries_cells cell_l cell_r, Option.map_some, entries_of_holding holding]
  · rw [cell_n, cell_r, Option.map_some, Option.map_some, sibling]
  · intro m₁ cell
    cases near.cell.symm.trans cell
    exact ⟨_, Heap.write_here _ _ _, CNode.without_key_keys near.index _,
      CNode.without_key_childs near.index⟩
  · intro p other other_m
    exact (Heap.write_elsewhere _ _ other_m).trans (Heap.write_elsewhere _ _ other)

/-- Two adjacent leaves whose keys strictly increase from the one to the other: borrowing in
    either direction and merging. -/
theorem leaf_rebalancing (near : Adjacent h parent left right keyIndex m)
    (cell_l : h.cells left = some l) (cell_r : h.cells right = some r)
    (leaf_l : l.m_Type = .LEAF) (leaf_r : r.m_Type = .LEAF)
    (few_l : l.m_KeyNum ≤ MAXNUM_KEY) (few_r : r.m_KeyNum ≤ MAXNUM_KEY)
    (strict : ((l.entries ++ r.entries).map Prod.fst).Pairwise (· < ·)) :
    (MINNUM_KEY < l.m_KeyNum → r.m_KeyNum = MINNUM_KEY →
      ∃ h', h.borrowFrom right left parent keyIndex .LEFT = some h' ∧
        KeepsEntries h h' .LEFT right left parent keyIndex) ∧
    (MINNUM_KEY < r.m_KeyNum → l.m_KeyNum = MINNUM_KEY →
      ∃ h', h.borrowFrom left right parent keyIndex .RIGHT = some h' ∧
        KeepsEntries h h' .RIGHT left right parent keyIndex) ∧
    (l.m_KeyNum = MINNUM_KEY → r.m_KeyNum = MINNUM_KEY →
      ∃ h', h.mergeChild left parent right keyIndex = some h' ∧
        MergesLeaves h h' left parent right keyIndex) := by
  refine ⟨fun more low => ?_, fun more low => ?_, fun low low' => ?_⟩
  · exact borrow_left_keeps_entries near cell_l cell_r leaf_l leaf_r strict
      (Nat.zero_lt_of_lt more) few_l (by rw [low]; decide)
  · exact borrow_right_keeps_entries near cell_l cell_r leaf_l leaf_r strict
      (Nat.lt_of_le_of_lt (by decide) more) few_r (by rw [low]; decide)
  · exact merge_keeps_entries near cell_l cell_r leaf_l leaf_r strict (by rw [low, low']; decide)

end Borrow

section Fork

def forkLeft (a : Nat) : CNode Int := { bushyLeaf none (some 2) 0 with m_KeyNum := a }

def forkRight (b : Nat) : CNode Int := { bushyLeaf (some 1) none 10 with m_KeyNum := b }

def forkRoot : CNode Int := { bushyRoot with m_KeyNum := 1, m_KeyValues := fun _ => 100 }

/-- Root 0 over leaf 1 with a entries and leaf 2 with b entries. -/
def forkHeap (a b : Nat) : Heap Int :=
  { cells := fun p =>
      if p = 0 then some forkRoot
      else if p = 1 then some (forkLeft a)
      else if p = 2 then some (forkRight b)
      else none
    next := 3
    raw := fun _ => bushyRoot }

theorem fork_adjacent (a b : Nat) : Adjacent (forkHeap a b) 0 1 2 0 forkRoot :=
  ⟨rfl, rfl, by decide, by decide, rfl, rfl, by decide, by decide, by decide⟩

theorem fork_borrows_and_merges :
    (∃ h', (forkHeap 7 6).borrowFrom 2 1 0 0 .LEFT = some h' ∧
      KeepsEntries (forkHeap 7 6) h' .LEFT 2 1 0 0) ∧
    (∃ h', (forkHeap 6 7).borrowFrom 1 2 0 0 .RIGHT = some h' ∧
      KeepsEntries (forkHeap 6 7) h' .RIGHT 1 2 0 0) ∧
    (∃ h', (forkHeap 6 6).mergeChild 1 0 2 0 = some h' ∧
      MergesLeaves (forkHeap 6 6) h' 1 0 2 0) := by
  have at_left : ∀ a b, (forkHeap a b).cells 1 = some (forkLeft a) := fun _ _ => rfl
  have at_right : ∀ a b, (forkHeap a b).cells 2 = some (forkRight b) := fun _ _ => rfl
  refine ⟨?_, ?_, ?_⟩
  · exact (leaf_rebalancing (fork_adjacent 7 6) (at_left 7 6) (at_right 7 6) rfl rfl (by decide)
      (by decide) (by decide)).1 (by decide) rfl
  · exact (leaf_rebalancing (fork_adjacent 6 7) (at_left 6 7) (at_right 6 7) rfl rfl (by decide)
      (by decide) (by decide)).2.1 (by decide) rfl
  · exact (leaf_rebalancing (fork_adjacent 6 6) (at_left 6 6) (at_right 6 6) rfl rfl (by decide)
      (by decide) (by decide)).2.2 rfl rfl

end Fork

end UC.BPlusTree
