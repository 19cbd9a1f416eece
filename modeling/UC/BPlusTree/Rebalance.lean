import UC.BPlusTree.Sequence
import UC.BPlusTree.Split

/- Borrowing and merging: what they leave in the two nodes and their parent. -/
namespace UC.BPlusTree.Heap
open UC.Memory UC.Loops UC.Slots

variable {K : Type}

def rewritten (h : Heap K) (p q r : Ptr) (a b c : CNode K) : Heap K :=
  ((h.write p a).write q b).write r c

section Rewritten

variable {h : Heap K} {p q r : Ptr} {a b c : CNode K}

theorem rewritten_first (ne : p ≠ q) (ne' : p ≠ r) : (h.rewritten p q r a b c).cells p = some a := by
  unfold rewritten
  rw [write_elsewhere _ _ ne', write_elsewhere _ _ ne, write_here]

theorem rewritten_second (ne : q ≠ r) : (h.rewritten p q r a b c).cells q = some b := by
  unfold rewritten
  rw [write_elsewhere _ _ ne, write_here]

theorem rewritten_third : (h.rewritten p q r a b c).cells r = some c := write_here _ _ _

theorem rewritten_others {x : Ptr} (ne : x ≠ p) (ne' : x ≠ q) (ne'' : x ≠ r) :
    (h.rewritten p q r a b c).cells x = h.cells x := by
  unfold rewritten
  rw [write_elsewhere _ _ ne'', write_elsewhere _ _ ne', write_elsewhere _ _ ne]

theorem rewritten_steps {f g k : CNode K → Option (CNode K)} {a₀ b₀ c₀ : CNode K}
    (cell_p : h.cells p = some a₀) (cell_q : h.cells q = some b₀) (cell_r : h.cells r = some c₀)
    (ne_q : q ≠ p) (ne_r : r ≠ p) (ne : r ≠ q) (at_p : f a₀ = some a) (at_q : g b₀ = some b)
    (at_r : k c₀ = some c) :
    h.modify p f = some (h.write p a) ∧
      (h.write p a).modify q g = some ((h.write p a).write q b) ∧
      ((h.write p a).write q b).modify r k = some (h.rewritten p q r a b c) := by
  have cell_q₁ : (h.write p a).cells q = some b₀ := (write_elsewhere _ _ ne_q).trans cell_q
  have cell_r₁ : (h.write p a).cells r = some c₀ := (write_elsewhere _ _ ne_r).trans cell_r
  have cell_r₂ : ((h.write p a).write q b).cells r = some c₀ :=
    (write_elsewhere _ _ ne).trans cell_r₁
  exact ⟨modify_cell cell_p at_p, modify_cell cell_q₁ at_q, modify_cell cell_r₂ at_r⟩

end Rewritten

theorem write_same {h : Heap K} {p : Ptr} {n : CNode K} (cell : h.cells p = some n) :
    h.write p n = h := by
  unfold write
  congr
  funext x
  by_cases here : x = p
  · rw [if_pos here, here, cell]
  · rw [if_neg here]

theorem write_twice (h : Heap K) (p : Ptr) (n n' : CNode K) :
    (h.write p n).write p n' = h.write p n' := by
  unfold write
  congr
  funext x
  by_cases here : x = p
  · rw [if_pos here, if_pos here]
  · rw [if_neg here, if_neg here]
    exact if_neg here

theorem delete_cells {h h' : Heap K} {p : Ptr} (deleted : h.delete (some p) = some h') :
    (h.cells p).isSome ∧ ∀ x, h'.cells x = if x = p then none else h.cells x := by
  obtain ⟨n, cell, rfl⟩ := Option.map_eq_some_iff.mp deleted
  exact ⟨Option.isSome_of_eq_some cell, fun _ => rfl⟩

theorem delete_live {h : Heap K} {p : Ptr} {n : CNode K} (cell : h.cells p = some n) :
    ∃ h', h.delete (some p) = some h' := by
  unfold delete
  dsimp only
  rw [cell]
  exact ⟨_, rfl⟩

section Leaf

variable [LinearOrder K] {h : Heap K} {this sibling parent : Ptr} {n s m : CNode K}
  {en es : List (K × Int)} {e : K × Int} {keyIndex : Nat}

theorem borrow_leaf_left_run {n' s' : CNode K} (cell_n : h.cells this = some n)
    (cell_s : h.cells sibling = some s) (cell_m : h.cells parent = some m)
    (leaf_n : n.m_Type = .LEAF)
    (inserted : n.insertLeaf (s.m_KeyValues (s.m_KeyNum - 1)) (s.m_Datas (s.m_KeyNum - 1)) =
      some n')
    (removed : s.removeKey (s.m_KeyNum - 1) (s.m_KeyNum - 1) = some s')
    (index : keyIndex < MAXNUM_KEY) (ne : this ≠ sibling) (ne_n : parent ≠ this)
    (ne_s : parent ≠ sibling) :
    h.borrowFrom this sibling parent keyIndex .LEFT = some (h.rewritten this sibling parent n' s'
      { m with m_KeyValues := store m.m_KeyValues keyIndex (n'.m_KeyValues 0) }) := by
  have cell_n₂ : ((h.write this n').write sibling s').cells this = some n' :=
    (write_elsewhere _ _ ne).trans (write_here _ _ _)
  obtain ⟨step₁, step₂, step₃⟩ := rewritten_steps
    (f := fun n => n.insertLeaf (s.m_KeyValues (s.m_KeyNum - 1)) (s.m_Datas (s.m_KeyNum - 1)))
    (g := fun s => s.removeKey (s.m_KeyNum - 1) (s.m_KeyNum - 1))
    (k := fun m => m.setKeyValue keyIndex (n'.m_KeyValues 0))
    cell_n cell_s cell_m ne.symm ne_n ne_s inserted removed (CNode.set_key_value index _)
  unfold borrowFrom
  simp only [cell_n, leaf_n, Option.bind_eq_bind, Option.bind_some]
  unfold borrowLeaf
  simp only [cell_s, step₁, step₂, cell_n₂, Option.bind_eq_bind, Option.bind_some]
  exact step₃

theorem borrow_leaf_right_run {n' s' : CNode K} (cell_n : h.cells this = some n)
    (cell_s : h.cells sibling = some s) (cell_m : h.cells parent = some m)
    (leaf_n : n.m_Type = .LEAF)
    (inserted : n.insertLeaf (s.m_KeyValues 0) (s.m_Datas 0) = some n')
    (removed : s.removeKey 0 0 = some s') (index : keyIndex < MAXNUM_KEY) (ne : this ≠ sibling)
    (ne_n : parent ≠ this) (ne_s : parent ≠ sibling) :
    h.borrowFrom this sibling parent keyIndex .RIGHT = some (h.rewritten this sibling parent n' s'
      { m with m_KeyValues := store m.m_KeyValues keyIndex (s'.m_KeyValues 0) }) := by
  have cell_s₂ : ((h.write this n').write sibling s').cells sibling = some s' := write_here _ _ _
  obtain ⟨step₁, step₂, step₃⟩ := rewritten_steps
    (f := fun n => n.insertLeaf (s.m_KeyValues 0) (s.m_Datas 0)) (g := fun s => s.removeKey 0 0)
    (k := fun m => m.setKeyValue keyIndex (s'.m_KeyValues 0))
    cell_n cell_s cell_m ne.symm ne_n ne_s inserted removed (CNode.set_key_value index _)
  unfold borrowFrom
  simp only [cell_n, leaf_n, Option.bind_eq_bind, Option.bind_some]
  unfold borrowLeaf
  simp only [cell_s, step₁, step₂, cell_s₂, Option.bind_eq_bind, Option.bind_some]
  exact step₃

theorem borrow_leaf_left (cell_n : h.cells this = some n) (cell_s : h.cells sibling = some s)
    (cell_m : h.cells parent = some m) (holding_n : n.Holding en)
    (holding_s : s.Holding (es ++ [e])) (sorted : (en.map Prod.fst).Pairwise (· ≤ ·))
    (room : en.length < MAXNUM_LEAF) (few : es.length < MAXNUM_LEAF)
    (index : keyIndex < MAXNUM_KEY) (ne : this ≠ sibling) (ne_n : parent ≠ this)
    (ne_s : parent ≠ sibling) :
    ∃ n' en' s', h.borrowFrom this sibling parent keyIndex .LEFT =
        some (h.rewritten this sibling parent n' s'
          { m with m_KeyValues := store m.m_KeyValues keyIndex (n'.m_KeyValues 0) }) ∧
      n'.Holding en' ∧ en'.Perm (e :: en) ∧ (en'.map Prod.fst).Pairwise (· ≤ ·) ∧
      n'.m_RightSibling = n.m_RightSibling ∧ s'.Holding es ∧
      s'.m_RightSibling = s.m_RightSibling := by
  have count := holding_s.count
  rw [List.length_append, List.length_singleton] at count
  obtain ⟨key, data⟩ := holding_s.entry
  have last : s.m_KeyNum - 1 = es.length := by omega
  rw [← last] at key data
  obtain ⟨n', en', inserted, holding_n', more, sorted', same_n⟩ :=
    holding_n.insert sorted room e.1 e.2
  obtain ⟨s', removed, holding_s', same_s⟩ := holding_s.remove
    (by rw [List.length_append, List.length_singleton]; omega) es.length
  rw [List.append_nil] at holding_s'
  have run := borrow_leaf_left_run cell_n cell_s cell_m holding_n.type
    (by rw [key, data]; exact inserted) (by rw [last]; exact removed) index ne ne_n ne_s
  exact ⟨n', en', s', run, holding_n', more, sorted', same_n, holding_s', same_s⟩

theorem borrow_leaf_right (cell_n : h.cells this = some n) (cell_s : h.cells sibling = some s)
    (cell_m : h.cells parent = some m) (holding_n : n.Holding en)
    (holding_s : s.Holding (e :: es)) (sorted : (en.map Prod.fst).Pairwise (· ≤ ·))
    (room : en.length < MAXNUM_LEAF) (few : es.length < MAXNUM_LEAF)
    (index : keyIndex < MAXNUM_KEY) (ne : this ≠ sibling) (ne_n : parent ≠ this)
    (ne_s : parent ≠ sibling) :
    ∃ n' en' s', h.borrowFrom this sibling parent keyIndex .RIGHT =
        some (h.rewritten this sibling parent n' s'
          { m with m_KeyValues := store m.m_KeyValues keyIndex (s'.m_KeyValues 0) }) ∧
      n'.Holding en' ∧ en'.Perm (e :: en) ∧ (en'.map Prod.fst).Pairwise (· ≤ ·) ∧
      n'.m_RightSibling = n.m_RightSibling ∧ s'.Holding es ∧
      s'.m_RightSibling = s.m_RightSibling := by
  have holding_e : s.Holding ([] ++ e :: es) := holding_s
  obtain ⟨key, data⟩ := holding_e.entry
  rw [List.length_nil] at key data
  obtain ⟨n', en', inserted, holding_n', more, sorted', same_n⟩ :=
    holding_n.insert sorted room e.1 e.2
  obtain ⟨s', removed, holding_s', same_s⟩ := holding_e.remove (Nat.succ_le_of_lt few) 0
  have run := borrow_leaf_right_run cell_n cell_s cell_m holding_n.type
    (by rw [key, data]; exact inserted) removed index ne ne_n ne_s
  exact ⟨n', en', s', run, holding_n', more, sorted', same_n, holding_s', same_s⟩

theorem merge_leaf_round {child : Ptr} {c n₁ : CNode K} {ec en₁ : List (K × Int)} {i : Nat}
    (child_same : (h.write this n₁).cells child = some c) (holding_c : c.Holding ec)
    (less : i < ec.length) (room : en.length + ec.length ≤ MAXNUM_LEAF)
    (holding₁ : n₁.Holding en₁) (more : en₁.Perm (en ++ ec.take i))
    (sorted₁ : (en₁.map Prod.fst).Pairwise (· ≤ ·)) :
    ∃ n₂ en₂, (do
        let c ← (h.write this n₁).cells child
        (h.write this n₁).modify this fun n => n.insertLeaf (c.m_KeyValues i) (c.m_Datas i)) =
          some (h.write this n₂) ∧
      n₂.Holding en₂ ∧ en₂.Perm (en ++ ec.take (i + 1)) ∧
      (en₂.map Prod.fst).Pairwise (· ≤ ·) := by
  unfold MAXNUM_LEAF at room
  have parts : ec = ec.take i ++ ec[i] :: ec.drop (i + 1) := by
    rw [List.getElem_cons_drop, List.take_append_drop]
  have place : (ec.take i).length = i := by
    rw [List.length_take]
    omega
  have entry := holding_c
  rw [parts] at entry
  obtain ⟨key, data⟩ := entry.entry
  rw [place] at key data
  have size := more.length_eq
  rw [List.length_append, place] at size
  obtain ⟨n₂, en₂, inserted, holding₂, more₂, sorted₂, _⟩ :=
    holding₁.insert sorted₁ (by unfold MAXNUM_LEAF; omega) ec[i].1 ec[i].2
  have step : (h.write this n₁).modify this (fun n => n.insertLeaf ec[i].1 ec[i].2) =
      some ((h.write this n₁).write this n₂) := modify_cell (write_here _ _ _) inserted
  refine ⟨n₂, en₂, ?_, holding₂, ?_, sorted₂⟩
  · rw [child_same]
    simp only [Option.bind_eq_bind, Option.bind_some, key, data, step, write_twice]
  · refine more₂.trans ((more.cons _).trans ?_)
    rw [← List.take_append_getElem less, ← List.append_assoc]
    exact (List.perm_append_singleton _ _).symm

theorem merge_leaf {child : Ptr} {c m' : CNode K} {ec : List (K × Int)}
    (cell_n : h.cells this = some n) (cell_c : h.cells child = some c)
    (cell_m : h.cells parent = some m) (holding_n : n.Holding en) (holding_c : c.Holding ec)
    (sorted : (en.map Prod.fst).Pairwise (· ≤ ·)) (room : en.length + ec.length ≤ MAXNUM_LEAF)
    (removed : m.removeKey keyIndex (keyIndex + 1) = some m') (ne : this ≠ child)
    (ne_n : parent ≠ this) :
    ∃ n' en', h.mergeChild this parent child keyIndex =
        some ((h.write this n').write parent m') ∧
      n'.Holding en' ∧ en'.Perm (en ++ ec) ∧ (en'.map Prod.fst).Pairwise (· ≤ ·) ∧
      n'.m_RightSibling = c.m_RightSibling := by
  have count := holding_c.count
  have bound : ec.length ≤ MAXNUM_LEAF := (Nat.le_add_left _ _).trans room
  unfold MAXNUM_LEAF at bound
  have child_same : ∀ n₁, (h.write this n₁).cells child = some c := fun n₁ =>
    (write_elsewhere _ _ ne.symm).trans cell_c
  obtain ⟨h₁, moved, n₁, en₁, rfl, holding₁, more, sorted₁⟩ := @for_while_invariant _
    (fun h => h.keyNum child) (fun i h => do
      let c ← h.cells child
      h.modify this fun n => n.insertLeaf (c.m_KeyValues i) (c.m_Datas i)) c.m_KeyNum mergeBound 0
    (fun i h' => ∃ n₁ en₁, h' = h.write this n₁ ∧ n₁.Holding en₁ ∧ en₁.Perm (en ++ ec.take i) ∧
      (en₁.map Prod.fst).Pairwise (· ≤ ·)) h
    ⟨n, en, (write_same cell_n).symm, holding_n, by rw [List.take_zero, List.append_nil], sorted⟩
    (Nat.zero_le _) (by unfold mergeBound; omega)
    (by
      rintro i _ ⟨n₁, _, rfl, _⟩
      unfold keyNum
      rw [child_same n₁]
      rfl)
    (by
      rintro i less _ ⟨n₁, en₁, rfl, holding₁, more, sorted₁⟩
      obtain ⟨n₂, en₂, step, rest⟩ := merge_leaf_round (child_same n₁) holding_c
        (by rwa [count] at less) room holding₁ more sorted₁
      exact ⟨h.write this n₂, step, n₂, en₂, rfl, rest⟩)
  rw [count, List.take_length] at more
  have step₂ : (h.write this n₁).modify this
      (fun n => some { n with m_RightSibling := c.m_RightSibling }) = some _ :=
    modify_cell (write_here _ _ _) rfl
  have step₃ : (h.write this { n₁ with m_RightSibling := c.m_RightSibling }).modify parent
      (fun m => m.removeKey keyIndex (keyIndex + 1)) = some _ :=
    modify_cell ((write_elsewhere _ _ ne_n).trans cell_m) removed
  refine ⟨{ n₁ with m_RightSibling := c.m_RightSibling }, en₁, ?_,
    ⟨holding₁.type, holding₁.keys, holding₁.datas⟩, more, sorted₁, rfl⟩
  unfold mergeChild
  simp only [cell_n, holding_n.type, Option.bind_eq_bind, Option.bind_some]
  unfold mergeLeaf
  simp only [Option.bind_eq_bind] at moved ⊢
  simp only [moved, child_same, step₂, write_twice, Option.bind_some]
  exact step₃

end Leaf

section Inner

variable {h : Heap K} {this sibling parent : Ptr} {n s m : CNode K}
  {gn gs : List (Option Ptr)} {g : Option Ptr} {keyIndex : Nat}

theorem borrow_inner_left_run [LinearOrder K] (cell_n : h.cells this = some n)
    (cell_s : h.cells sibling = some s) (cell_m : h.cells parent = some m)
    (inner_n : n.m_Type = .INTERNAL) (inner_s : s.m_Type = .INTERNAL)
    (room : n.m_KeyNum < MAXNUM_KEY) (some_key : 0 < s.m_KeyNum) (few : s.m_KeyNum ≤ MAXNUM_KEY)
    (index : keyIndex < MAXNUM_KEY) (ne : this ≠ sibling) (ne_n : parent ≠ this)
    (ne_s : parent ≠ sibling) :
    h.borrowFrom this sibling parent keyIndex .LEFT = some (h.rewritten this parent sibling
      (n.withChild 0 0 (m.m_KeyValues keyIndex) (s.m_Childs s.m_KeyNum))
      { m with m_KeyValues := store m.m_KeyValues keyIndex (s.m_KeyValues (s.m_KeyNum - 1)) }
      (s.withoutKey (s.m_KeyNum - 1) s.m_KeyNum)) := by
  have inserted : n.insertChild 0 0 (m.m_KeyValues keyIndex) (s.m_Childs s.m_KeyNum) = _ :=
    CNode.insert_child_spec room (Nat.zero_le _) (.inl rfl) _ _
  have removed : s.removeKey (s.m_KeyNum - 1) s.m_KeyNum =
      some (s.withoutKey (s.m_KeyNum - 1) s.m_KeyNum) :=
    CNode.remove_inner_spec inner_s (by omega) few (by omega)
  have cell_s₁ := (write_elsewhere h (n.withChild 0 0 (m.m_KeyValues keyIndex)
    (s.m_Childs s.m_KeyNum)) ne.symm).trans cell_s
  obtain ⟨step₁, step₂, step₃⟩ := rewritten_steps
    (f := fun n => n.insertChild 0 0 (m.m_KeyValues keyIndex) (s.m_Childs s.m_KeyNum))
    (g := fun m => m.setKeyValue keyIndex (s.m_KeyValues (s.m_KeyNum - 1)))
    (k := fun s => s.removeKey (s.m_KeyNum - 1) s.m_KeyNum)
    cell_n cell_m cell_s ne_n ne.symm ne_s.symm inserted (CNode.set_key_value index _) removed
  unfold borrowFrom
  simp only [cell_n, inner_n, Option.bind_eq_bind, Option.bind_some]
  unfold borrowInternal
  simp only [cell_m, cell_s, step₁, cell_s₁, step₂, Option.bind_eq_bind, Option.bind_some]
  exact step₃

theorem borrow_inner_right_run [LinearOrder K] (cell_n : h.cells this = some n)
    (cell_s : h.cells sibling = some s) (cell_m : h.cells parent = some m)
    (inner_n : n.m_Type = .INTERNAL) (inner_s : s.m_Type = .INTERNAL)
    (room : n.m_KeyNum < MAXNUM_KEY) (some_key : 0 < s.m_KeyNum) (few : s.m_KeyNum ≤ MAXNUM_KEY)
    (index : keyIndex < MAXNUM_KEY) (ne : this ≠ sibling) (ne_n : parent ≠ this)
    (ne_s : parent ≠ sibling) :
    h.borrowFrom this sibling parent keyIndex .RIGHT = some (h.rewritten this parent sibling
      (n.withChild n.m_KeyNum (n.m_KeyNum + 1) (m.m_KeyValues keyIndex) (s.m_Childs 0))
      { m with m_KeyValues := store m.m_KeyValues keyIndex (s.m_KeyValues 0) }
      (s.withoutKey 0 0)) := by
  have inserted : n.insertChild n.m_KeyNum (n.m_KeyNum + 1) (m.m_KeyValues keyIndex)
      (s.m_Childs 0) = _ := CNode.insert_child_spec room (Nat.le_refl _) (.inr rfl) _ _
  have removed : s.removeKey 0 0 = some (s.withoutKey 0 0) :=
    CNode.remove_inner_spec inner_s some_key few (Nat.zero_le _)
  have cell_s₁ := (write_elsewhere h (n.withChild n.m_KeyNum (n.m_KeyNum + 1)
    (m.m_KeyValues keyIndex) (s.m_Childs 0)) ne.symm).trans cell_s
  obtain ⟨step₁, step₂, step₃⟩ := rewritten_steps
    (f := fun n => n.insertChild n.m_KeyNum (n.m_KeyNum + 1) (m.m_KeyValues keyIndex)
      (s.m_Childs 0))
    (g := fun m => m.setKeyValue keyIndex (s.m_KeyValues 0)) (k := fun s => s.removeKey 0 0)
    cell_n cell_m cell_s ne_n ne.symm ne_s.symm inserted (CNode.set_key_value index _) removed
  unfold borrowFrom
  simp only [cell_n, inner_n, Option.bind_eq_bind, Option.bind_some]
  unfold borrowInternal
  simp only [cell_m, cell_s, step₁, cell_s₁, step₂, Option.bind_eq_bind, Option.bind_some]
  exact step₃

theorem borrow_inner_left [LinearOrder K] (cell_n : h.cells this = some n)
    (cell_s : h.cells sibling = some s) (cell_m : h.cells parent = some m)
    (branching_n : n.Branching gn) (branching_s : s.Branching (gs ++ [g]))
    (room : n.m_KeyNum < MAXNUM_KEY) (some_key : 0 < s.m_KeyNum) (few : s.m_KeyNum ≤ MAXNUM_KEY)
    (index : keyIndex < MAXNUM_KEY) (ne : this ≠ sibling) (ne_n : parent ≠ this)
    (ne_s : parent ≠ sibling) :
    ∃ n' m' s', h.borrowFrom this sibling parent keyIndex .LEFT =
        some (h.rewritten this parent sibling n' m' s') ∧
      n'.Branching (g :: gn) ∧ s'.Branching gs ∧ m'.m_Type = m.m_Type ∧
      s'.m_Type = s.m_Type := by
  have count := branching_s.count
  rw [List.length_append, List.length_singleton] at count
  have child := branching_s.child
  rw [← Nat.succ.inj count] at child
  have last : s.m_KeyNum - 1 + 1 = s.m_KeyNum := by omega
  obtain ⟨n', inserted, branching_n', _⟩ :=
    branching_n.insert room (Nat.zero_le _) (.inl rfl) (m.m_KeyValues keyIndex) g
  obtain ⟨s', removed, branching_s', _⟩ :=
    @CNode.Branching.remove _ _ _ [] _ branching_s (s.m_KeyNum - 1) (by omega) few
  rw [List.append_nil] at branching_s'
  rw [last] at removed
  have run := borrow_inner_left_run cell_n cell_s cell_m branching_n.type branching_s.type room
    some_key few index ne ne_n ne_s
  rw [child] at run
  cases (CNode.insert_child_spec room (Nat.zero_le _) (.inl rfl) _ _).symm.trans inserted
  cases (CNode.remove_inner_spec branching_s.type (by omega) few (by omega)).symm.trans removed
  exact ⟨_, _, _, run, branching_n', branching_s', rfl, rfl⟩

theorem merge_inner_round [LinearOrder K] {child : Ptr} {c n₂ : CNode K} {i : Nat}
    {joined : List (Option Ptr ⊕ K)} (child_same : (h.write this n₂).cells child = some c)
    (few : i < MINNUM_KEY) (inner₂ : n₂.m_Type = .INTERNAL)
    (num₂ : n₂.m_KeyNum = MINNUM_KEY + (i + 1)) (content : n₂.sequence = joined ++ c.upTo i) :
    ∃ n₃, (do
        let c ← (h.write this n₂).cells child
        (h.write this n₂).modify this fun n => n.insertChild (MINNUM_KEY + (i + 1))
          (MINNUM_KEY + (i + 1) + 1) (c.m_KeyValues i) (c.m_Childs (i + 1))) =
            some (h.write this n₃) ∧
      n₃.m_Type = .INTERNAL ∧ n₃.m_KeyNum = MINNUM_KEY + (i + 1 + 1) ∧
      n₃.sequence = joined ++ c.upTo (i + 1) := by
  have room : n₂.m_KeyNum < MAXNUM_KEY := by
    rw [num₂]
    exact Nat.lt_of_lt_of_le (Nat.add_lt_add_left (Nat.succ_lt_succ few) _) (by decide)
  let n₃ := n₂.withChild n₂.m_KeyNum (n₂.m_KeyNum + 1) (c.m_KeyValues i) (c.m_Childs (i + 1))
  have inserted : n₂.insertChild (MINNUM_KEY + (i + 1)) (MINNUM_KEY + (i + 1) + 1)
      (c.m_KeyValues i) (c.m_Childs (i + 1)) = some n₃ := by
    rw [← num₂]
    exact CNode.insert_child_spec room (Nat.le_refl _) (.inr rfl) _ _
  have longer : n₃.sequence = _ := n₂.sequence_append _ _
  have step : (h.write this n₂).modify this (fun n => n.insertChild (MINNUM_KEY + (i + 1))
      (MINNUM_KEY + (i + 1) + 1) (c.m_KeyValues i) (c.m_Childs (i + 1))) = some _ :=
    modify_cell (write_here _ _ _) inserted
  refine ⟨n₃, ?_, inner₂, congrArg (· + 1) num₂, ?_⟩
  · rw [child_same]
    simp only [Option.bind_eq_bind, Option.bind_some, step, write_twice]
  · rw [longer, content, List.append_assoc]
    rfl

/-- The parent's key and the whole right node go behind the left one. What is deleted is the
    child the parent then has behind key keyIndex. -/
theorem merge_inner_run [LinearOrder K] {child : Ptr} {c m' : CNode K}
    (cell_n : h.cells this = some n) (cell_c : h.cells child = some c)
    (cell_m : h.cells parent = some m) (inner_n : n.m_Type = .INTERNAL)
    (low_n : n.m_KeyNum = MINNUM_KEY) (low_c : c.m_KeyNum = MINNUM_KEY)
    (removed : m.removeKey keyIndex (keyIndex + 1) = some m') (ne : this ≠ child)
    (ne_n : parent ≠ this) :
    ∃ n', h.mergeChild this parent child keyIndex =
        ((h.write this n').write parent m').delete (m'.m_Childs (keyIndex + 1)) ∧
      n'.m_Type = .INTERNAL ∧
      n'.sequence = n.sequence ++ .inr (m.m_KeyValues keyIndex) :: c.sequence := by
  have child_same : ∀ n₁, (h.write this n₁).cells child = some c := fun n₁ =>
    (write_elsewhere _ _ ne.symm).trans cell_c
  let n₁ := n.withChild n.m_KeyNum (n.m_KeyNum + 1) (m.m_KeyValues keyIndex) (c.m_Childs 0)
  have step₁ : h.modify this (fun n => n.insertChild MINNUM_KEY (MINNUM_KEY + 1)
      (m.m_KeyValues keyIndex) (c.m_Childs 0)) = some (h.write this n₁) := by
    apply modify_cell cell_n
    rw [← low_n]
    exact CNode.insert_child_spec (by rw [low_n]; decide) (Nat.le_refl _) (.inr rfl) _ _
  obtain ⟨h₂, moved, _, n₂, rfl, inner₂, _, joined⟩ := @for_while_invariant _
    (fun h => (h.keyNum child).map (· + 1)) (fun i h => do
      let c ← h.cells child
      h.modify this fun n => n.insertChild (MINNUM_KEY + i) (MINNUM_KEY + i + 1)
        (c.m_KeyValues (i - 1)) (c.m_Childs i)) (MINNUM_KEY + 1) mergeBound 1
    (fun i h' => 1 ≤ i ∧ ∃ n₂, h' = h.write this n₂ ∧ n₂.m_Type = .INTERNAL ∧
      n₂.m_KeyNum = MINNUM_KEY + i ∧
      n₂.sequence = n.sequence ++ .inr (m.m_KeyValues keyIndex) :: c.upTo (i - 1))
    (h.write this n₁)
    ⟨Nat.le_refl 1, n₁, rfl, inner_n, congrArg (· + 1) low_n, n.sequence_append _ _⟩
    (Nat.le_add_left 1 _) (by decide)
    (by
      rintro i _ ⟨_, n₂, rfl, _⟩
      unfold keyNum
      rw [child_same n₂, Option.map_some, low_c]
      rfl)
    (by
      rintro i less _ ⟨first, n₂, rfl, inner₂, num₂, joined⟩
      obtain ⟨i, rfl⟩ := Nat.exists_eq_add_of_le' first
      obtain ⟨n₃, step, inner₃, num₃, longer⟩ := merge_inner_round (child_same n₂)
        (Nat.lt_of_succ_lt_succ less) inner₂ num₂
        (joined.trans (List.append_cons ..))
      exact ⟨h.write this n₃, step, Nat.le_add_left 1 _, n₃, rfl, inner₃, num₃,
        longer.trans (List.append_cons ..).symm⟩)
  have step₃ : (h.write this n₂).modify parent (fun m => m.removeKey keyIndex (keyIndex + 1)) =
      some ((h.write this n₂).write parent m') :=
    modify_cell ((write_elsewhere _ _ ne_n).trans cell_m) removed
  have cell_m' : ((h.write this n₂).write parent m').cells parent = some m' := write_here _ _ _
  refine ⟨n₂, ?_, inner₂, ?_⟩
  · unfold mergeChild
    simp only [cell_n, inner_n, Option.bind_eq_bind, Option.bind_some]
    unfold mergeInternal
    simp only [Option.bind_eq_bind] at moved ⊢
    simp only [cell_m, cell_c, step₁, moved, step₃, cell_m', Option.bind_some]
  · have whole : c.sequence = c.upTo MINNUM_KEY := congrArg c.upTo low_c
    rw [joined, whole]
    rfl

end Inner

end UC.BPlusTree.Heap
