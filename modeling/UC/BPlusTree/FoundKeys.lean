import Mathlib.Data.Set.Insert
import UC.BPlusTree.Clearing

/- What search finds has been inserted: in runs without remove, every key of a node, a
   separator too, is the key of a stored pair. -/
namespace UC.BPlusTree
open UC.Memory UC.Slots UC.BPlusTree.Tree

variable {K : Type} {S : Set K}

def CNode.KeysIn (S : Set K) (n : CNode K) : Prop :=
  ∀ key ∈ slice n.m_KeyValues 0 n.m_KeyNum, key ∈ S

def Heap.KeysIn (S : Set K) (h : Heap K) : Prop := ∀ p n, h.cells p = some n → n.KeysIn S

section Nodes

variable {n m : CNode K}

theorem key_in (keys_in : n.KeysIn S) {i : Nat} (used : i < n.m_KeyNum) :
    n.m_KeyValues i ∈ S :=
  keys_in _ (mem_slice.mpr ⟨i, used, congrArg n.m_KeyValues (Nat.zero_add i)⟩)

theorem keys_in_part (keys_in : n.KeysIn S) {a len : Nat} (fits : a + len ≤ n.m_KeyNum) :
    ∀ key ∈ slice n.m_KeyValues a len, key ∈ S := by
  intro key mem
  obtain ⟨i, inside, rfl⟩ := mem_slice.mp mem
  exact key_in keys_in (by omega)

theorem keys_in_insert (keys_in : n.KeysIn S) {i : Nat} (le : i ≤ n.m_KeyNum) {key : K}
    (mem : key ∈ S) :
    ∀ x ∈ slice (insertAt n.m_KeyValues i n.m_KeyNum key) 0 (n.m_KeyNum + 1), x ∈ S := by
  rw [slice_insert _ _ le]
  intro x part
  rcases List.mem_append.mp part with before | behind
  · exact keys_in x (List.mem_of_mem_take before)
  · rcases List.mem_cons.mp behind with rfl | after
    · exact mem
    · exact keys_in x (List.mem_of_mem_drop after)

theorem keys_in_leaf_insert [LinearOrder K] {n' : CNode K} {key : K} {data : Int}
    (keys_in : n.KeysIn S) (room : n.m_KeyNum < MAXNUM_LEAF) (mem : key ∈ S)
    (run : n.insertLeaf key data = some n') : n'.KeysIn S := by
  obtain ⟨i, le, inserted, _⟩ := CNode.insert_leaf_spec room key data
  cases Option.some.inj (inserted.symm.trans run)
  exact keys_in_insert keys_in le mem

end Nodes

section Heap

variable {h h' : Heap K}

theorem keys_in_write {p : Ptr} {n : CNode K} (keys_in : h.KeysIn S) (new : n.KeysIn S) :
    (h.write p n).KeysIn S := by
  intro x m cell
  by_cases here : x = p
  · rw [here, Heap.write_here] at cell
    cases cell
    exact new
  · rw [Heap.write_elsewhere h n here] at cell
    exact keys_in x m cell

theorem keys_in_grown (keys_in : h.KeysIn S) (type : NodeType) : (h.grown type).KeysIn S :=
  fun x m cell => keys_in_write (p := h.next) keys_in
    (fun _ mem => absurd mem List.not_mem_nil : (h.blank type).KeysIn S) x m cell

theorem keys_in_halved {q p : Ptr} {c : Nat} {m left right : CNode K} {sep : K}
    (keys_in : h.KeysIn S) (halved : h.Halved h' q p c m sep left right)
    (parent : h.cells p = some m) (le : c ≤ m.m_KeyNum) (left_in : left.KeysIn S)
    (right_in : right.KeysIn S) (mem : sep ∈ S) : h'.KeysIn S := by
  intro x n cell
  by_cases at_p : x = p
  · rw [at_p, halved.parent] at cell
    cases cell
    exact keys_in_insert (keys_in p m parent) le mem
  · by_cases at_q : x = q
    · rw [at_q, halved.left] at cell
      cases cell
      exact left_in
    · by_cases fresh : x = h.next
      · rw [fresh, halved.right] at cell
        cases cell
        exact right_in
      · rw [halved.others x at_p at_q fresh] at cell
        exact keys_in x n cell

theorem keys_in_split {q p : Ptr} {c : Nat} {n m : CNode K} (keys_in : h.KeysIn S)
    (cell : h.cells q = some n) (full : n.m_KeyNum = MAXNUM_KEY) (parent : h.cells p = some m)
    (room : m.m_KeyNum < MAXNUM_KEY) (le : c ≤ m.m_KeyNum) (ne : p ≠ q) (q_old : q ≠ h.next)
    (p_old : p ≠ h.next) (run : h.split q p c = some h') : h'.KeysIn S := by
  have node_in := keys_in q n cell
  have keys : MINNUM_CHILD + MINNUM_KEY ≤ n.m_KeyNum ∧
      MINNUM_LEAF + (MINNUM_LEAF + 1) ≤ n.m_KeyNum ∧ 0 + MINNUM_KEY < n.m_KeyNum := by
    rw [full]
    decide
  obtain ⟨for_inner, for_leaf, for_sep⟩ := keys
  have sep_in := key_in node_in for_sep
  have left_in := keys_in_part node_in (Nat.le_of_lt for_sep)
  cases type : n.m_Type with
  | INTERNAL =>
    obtain ⟨h₁, run₁, halved⟩ :=
      Heap.split_internal_halves cell parent type room le ne q_old p_old
    cases Option.some.inj (run₁.symm.trans run)
    apply keys_in_halved keys_in halved parent le left_in _ sep_in
    change ∀ key ∈ slice (memcpy _ 0 n.m_KeyValues MINNUM_CHILD MINNUM_KEY) 0 MINNUM_KEY, key ∈ S
    rw [slice_memcpy]
    exact keys_in_part node_in for_inner
  | LEAF =>
    obtain ⟨h₁, run₁, halved⟩ := Heap.split_leaf_halves cell parent type room le ne q_old p_old
    cases Option.some.inj (run₁.symm.trans run)
    apply keys_in_halved keys_in halved parent le left_in _ sep_in
    change ∀ key ∈ slice (memcpy _ 0 n.m_KeyValues MINNUM_LEAF (MINNUM_LEAF + 1)) 0
      (MINNUM_LEAF + 1), key ∈ S
    rw [slice_memcpy]
    exact keys_in_part node_in for_leaf

end Heap

section Tree

variable [LinearOrder K] {h h' : Heap K} {key : K}

theorem found_key {fuel : Nat} {p : Ptr} (keys_in : h.KeysIn S)
    (found : h.recursiveSearch key fuel p = some true) : key ∈ S := by
  induction fuel generalizing p with
  | zero => cases found
  | succ fuel ih =>
    unfold Heap.recursiveSearch at found
    obtain ⟨n, cell, found⟩ := Option.bind_eq_some_iff.mp found
    obtain ⟨i, _, found⟩ := Option.bind_eq_some_iff.mp found
    dsimp only at found
    split at found
    · next here =>
      rw [here.2]
      exact key_in (keys_in p n cell) here.1
    · split at found
      · cases found
      · split at found
        · cases found
        · exact ih found

omit [LinearOrder K] in
theorem keys_in_split_kid {d : Nat} {p : Ptr} {pre post : List (Tree K d)} {k : Tree K d}
    {tail : Option Ptr} (repr : Repr h (d + 1) (node p (pre ++ k :: post)) tail)
    (placed : Placed h (d + 1) (node p (pre ++ k :: post)))
    (room : (pre ++ k :: post).length < MAXNUM_CHILD) (full : num d k = MAXNUM_KEY)
    (keys_in : h.KeysIn S) (run : h.split (ptr d k) p pre.length = some h') : h'.KeysIn S := by
  obtain ⟨placed_k, outside, p_old, _⟩ := placed_kid placed
  obtain ⟨m, parent, _, count, _⟩ := repr_child repr
  obtain ⟨n, cell, num_n, _⟩ := repr_root (repr_kid repr)
  rw [List.length_append, List.length_cons] at room
  unfold MAXNUM_CHILD at room
  have root_in := ptr_mem_ptrs d k
  apply keys_in_split keys_in cell (num_n.trans full) parent _ _ _ _ (Nat.ne_of_lt p_old) run
  · omega
  · omega
  · exact fun eq => outside (eq ▸ root_in)
  · exact Nat.ne_of_lt (placed_k.old _ root_in)

theorem keys_in_recursive_insert {d : Nat} {T : Tree K d} {tail : Option Ptr} {lo fuel : Nat}
    {data : Int} (repr : Repr h d T tail) (within : Within lo d T) (placed : Placed h d T)
    (pos : 1 ≤ lo ∨ d = 0) (room : num d T < MAXNUM_KEY) (keys_in : h.KeysIn S) (mem : key ∈ S)
    (run : h.recursiveInsert key data fuel (ptr d T) = some h') : h'.KeysIn S := by
  induction d generalizing h tail lo fuel with
  | zero =>
    obtain ⟨fuel, rfl⟩ : ∃ k, fuel = k + 1 := by
      cases fuel with
      | zero => cases run
      | succ fuel => exact ⟨fuel, rfl⟩
    obtain ⟨n, cell, num_n, type⟩ := repr_root repr
    rw [if_pos rfl] at type
    unfold Heap.recursiveInsert Heap.modify at run
    simp only [cell, type, Option.bind_eq_bind, Option.bind_some] at run
    obtain ⟨n', inserted, run⟩ := Option.bind_eq_some_iff.mp run
    cases run
    exact keys_in_write keys_in
      (keys_in_leaf_insert (keys_in _ n cell) (num_n ▸ room) mem inserted)
  | succ d ih =>
    obtain ⟨fuel, rfl⟩ : ∃ k, fuel = k + 1 := by
      cases fuel with
      | zero => cases run
      | succ fuel => exact ⟨fuel, rfl⟩
    have pos := pos.resolve_right (Nat.succ_ne_zero d)
    obtain ⟨n, i, p, pre, k, post, rfl, cell, type, index, childIndex, child⟩ :=
      routed repr within pos key
    have below : ∀ {h : Heap K} {pre post : List (Tree K d)} {k : Tree K d},
        Repr h (d + 1) (node p (pre ++ k :: post)) tail →
        Within lo (d + 1) (node p (pre ++ k :: post)) →
        Placed h (d + 1) (node p (pre ++ k :: post)) → num d k < MAXNUM_KEY → h.KeysIn S →
        h.recursiveInsert key data fuel (ptr d k) = some h' → h'.KeysIn S := by
      intro h pre post k repr within placed room_k keys_in run
      exact ih (repr_kid repr) (within_kid within) (placed_kid placed).1 (.inl (by decide)) room_k
        keys_in run
    obtain ⟨c, cell_k, num_k, _⟩ := repr_root (repr_kid repr)
    unfold Heap.recursiveInsert at run
    simp only [ptr_node, cell, type, index, childIndex, child, cell_k, Option.bind_eq_bind,
      Option.bind_some, num_k] at run
    by_cases full : num d k ≥ MAXNUM_LEAF
    · have exact_full := Nat.le_antisymm (num_bounds (within_kid within)).2 full
      have size : (pre ++ k :: post).length < MAXNUM_CHILD := by
        have less := room
        rw [num_inner] at less
        change (pre ++ k :: post).length - 1 < MAXNUM_KEY at less
        unfold MAXNUM_CHILD
        omega
      obtain ⟨h₁, left, right, halved, grows, left_ptr, num_l, num_r⟩ :=
        split_kid repr within placed size exact_full
      have keys_in₁ : h₁.KeysIn S := keys_in_split_kid repr placed size exact_full keys_in halved
      obtain ⟨m, cell_m, _⟩ := repr_child grows.repr
      rw [if_pos full, halved] at run
      simp only [Option.bind_some, cell_m] at run
      split at run
      · -- on to the right half, as recursive_insert does it
        have repr₁ := grows.repr
        have within₁ := grows.within
        have placed₁ := grows.placed placed
        rw [List.append_cons] at repr₁ within₁ placed₁
        obtain ⟨m', cell', _, _, right_kid⟩ := repr_child repr₁
        cases Option.some.inj (cell_m.symm.trans cell')
        rw [List.length_append, List.length_singleton] at right_kid
        rw [right_kid] at run
        exact below repr₁ within₁ placed₁ num_r keys_in₁ run
      · rw [← left_ptr] at run
        exact below grows.repr grows.within (grows.placed placed) num_l keys_in₁ run
    · rw [if_neg full] at run
      exact below repr within placed (Nat.lt_of_not_le full) keys_in run

variable {t t' : CBPlusTree K} {lo d : Nat} {T : Tree K d}

theorem keys_in_grow_root (shape : Shape t lo d T) (keys_in : t.heap.KeysIn S)
    (run : t.growRoot = some t') : t'.heap.KeysIn S := by
  by_cases room : num d T < MAXNUM_KEY
  · cases Option.some.inj ((shape.grow_root_room room).symm.trans run)
    exact keys_in
  · obtain ⟨n, cell, num_n, _⟩ := repr_root shape.repr
    have full := Nat.le_of_not_lt room
    have exact_full := Nat.le_antisymm (num_bounds shape.within).2 full
    have high := shape.lifted_shape exact_full
    have step : (t.heap.grown .INTERNAL).modify t.heap.next
        (fun n => n.setChild 0 (some (ptr d T))) = some (Shape.lifted t (ptr d T)).heap :=
      Heap.modify_cell (Heap.grown_fresh _ _) (CNode.set_child (by decide) _)
    unfold CBPlusTree.growRoot at run
    simp only [shape.root, cell, num_n, Option.bind_eq_bind, Option.bind_some, if_pos full,
      Heap.new_eq, step] at run
    obtain ⟨h, halved, run⟩ := Option.bind_eq_some_iff.mp run
    cases run
    have lifted_in : (Shape.lifted t (ptr d T)).heap.KeysIn S :=
      keys_in_write (keys_in_grown keys_in .INTERNAL) fun _ mem => absurd mem List.not_mem_nil
    exact @keys_in_split_kid _ _ _ _ _ _ [] [] _ _ high.repr high.placed
      (Nat.le_of_ble_eq_true rfl) exact_full
      lifted_in halved

theorem keys_in_insert_absent {t₀ : CBPlusTree K} {data : Int} {inserted : Bool}
    (absent : t₀.search key = some false) (grown : (t₀.firstLeaf key).growRoot = some t)
    (shape : Shape t lo d T) (pos : 1 ≤ lo ∨ d = 0) (room : num d T < MAXNUM_KEY)
    (keys_in : t.heap.KeysIn S) (mem : key ∈ S)
    (run : t₀.insert key data = some (t', inserted)) : t'.heap.KeysIn S := by
  have below : ∃ h, t.heap.recursiveInsert key data t.heap.depthBound (ptr d T) = some h := by
    have deep := shape.deep
    rcases pos with pos | rfl
    · obtain ⟨h, _, run, _⟩ :=
        recursive_insert_spec shape.repr shape.within shape.placed pos room deep key data
      exact ⟨h, run⟩
    · obtain ⟨h, _, run, _⟩ := leaf_insert_spec shape.repr shape.within room _ key data
      exact ⟨h, run⟩
  obtain ⟨h, run'⟩ := below
  have inserts := Shape.insert_runs absent grown shape.root run'
  cases Option.some.inj (inserts.symm.trans run)
  exact keys_in_recursive_insert shape.repr shape.within shape.placed pos room keys_in mem run'

end Tree

section Runs

variable [LinearOrder K] {t t' : CBPlusTree K} {stored : List (K × Int)}

theorem insert_returns_false {key : K} {data : Int}
    (run : t.insert key data = some (t', false)) : t.search key = some true := by
  unfold CBPlusTree.insert at run
  obtain ⟨found, search, run⟩ := Option.bind_eq_some_iff.mp run
  cases found with
  | true => exact search
  | false =>
    obtain ⟨t₁, _, run⟩ := Option.bind_eq_some_iff.mp run
    obtain ⟨root, _, run⟩ := Option.bind_eq_some_iff.mp run
    obtain ⟨h, _, run⟩ := Option.bind_eq_some_iff.mp run
    cases run

def storedKeys (stored : List (K × Int)) : Set K := {key | key ∈ stored.map Prod.fst}

theorem Owns.insert_keys_in (owns : Owns t stored) {key : K} {data : Int} {inserted : Bool}
    (keys_in : t.heap.KeysIn S) (mem : key ∈ S)
    (run : t.insert key data = some (t', inserted)) : t'.heap.KeysIn S := by
  cases owns with
  | empty root _ free =>
    have shape := Shape.first_leaf_shape root key
    have first_in : (t.firstLeaf key).heap.KeysIn S := by
      rw [Shape.first_leaf_made root]
      exact keys_in_grown keys_in .LEAF
    have room : num 0 (Leaf.mk t.heap.next ([] : List (K × Int))) < MAXNUM_KEY :=
      Nat.le_of_ble_eq_true rfl
    exact keys_in_insert_absent (Shape.search_no_root root key) (shape.grow_root_room room) shape
      (.inr rfl) room first_in mem run
  | tree shape _ _ _ =>
    obtain ⟨found, search⟩ := shape.search_ends key
    cases found with
    | true =>
      cases Option.some.inj ((Shape.insert_found search data).symm.trans run)
      exact keys_in
    | false =>
      obtain ⟨t₁, lo₁, d₁, T₁, grown, shape₁, room, low, _⟩ := shape.grow_root_spec
      obtain rfl : lo₁ = 1 := low.elim id id
      have keys_in₁ := keys_in_grow_root shape keys_in grown
      rw [← shape.first_leaf_kept key] at grown
      exact keys_in_insert_absent search grown shape₁ (.inl (Nat.le_refl 1)) room keys_in₁ mem run

theorem keys_in_call {c : Call K} {answer : Answer} {stored' : List (K × Int)}
    (owns : Owns t stored) (keys_in : t.heap.KeysIn (storedKeys stored))
    (run : call t c = some (t', answer)) (account : Accounts stored c answer stored') :
    t'.heap.KeysIn (storedKeys stored') := by
  cases account with
  | inserted key data =>
    obtain ⟨⟨t₁, inserted⟩, run, same⟩ := Option.map_eq_some_iff.mp run
    cases same
    apply owns.insert_keys_in _ (List.mem_cons_self : key ∈ ((key, data) :: stored).map Prod.fst) run
    exact fun p n cell x mem => List.mem_cons_of_mem _ (keys_in p n cell x mem)
  | refused key data =>
    obtain ⟨⟨t₁, inserted⟩, run, same⟩ := Option.map_eq_some_iff.mp run
    cases same
    have found := Shape.insert_found (insert_returns_false run) data
    cases Option.some.inj (found.symm.trans run)
    exact keys_in
  | searched key found =>
    obtain ⟨_, _, same⟩ := Option.map_eq_some_iff.mp run
    cases same
    exact keys_in
  | printed all =>
    obtain ⟨_, _, same⟩ := Option.map_eq_some_iff.mp run
    cases same
    exact keys_in
  | cleared =>
    obtain ⟨t₁, run, same⟩ := Option.map_eq_some_iff.mp run
    cases same
    obtain ⟨t₂, run₂, _, free⟩ := owns.clear
    cases Option.some.inj (run₂.symm.trans run)
    intro p n cell
    cases (free p).symm.trans cell

theorem keys_in_calls (owns : Owns t stored) (keys_in : t.heap.KeysIn (storedKeys stored))
    (calls : List (Call K)) :
    ∃ t' answers stored', callAll t calls = some (t', answers) ∧
      AllAccount stored calls answers stored' ∧ t'.heap.KeysIn (storedKeys stored') := by
  induction calls generalizing t stored with
  | nil => exact ⟨t, [], stored, rfl, .nil, keys_in⟩
  | cons c calls ih =>
    obtain ⟨t₁, answer, mid, run₁, first, owns₁⟩ := owns.call c
    obtain ⟨t', answers, stored', run, later, keys_in'⟩ :=
      ih owns₁ (keys_in_call owns keys_in run₁ first)
    refine ⟨t', answer :: answers, stored', ?_, .cons first later, keys_in'⟩
    simp only [callAll, run₁, run, Option.bind_eq_bind, Option.bind_some]

theorem search_found (keys_in : t.heap.KeysIn S) {key : K} (found : t.search key = some true) :
    key ∈ S := by
  unfold CBPlusTree.search at found
  split at found
  · cases found
  · exact found_key keys_in found

end Runs

/-- Behind every run of insert, search, printData and clear, search finds only keys of stored
    pairs, and insert refuses no other key. -/
theorem found_keys_are_stored [LinearOrder K] (raw : Ptr → CNode K) (m_MaxKey : K)
    (calls : List (Call K)) :
    ∃ t answers stored, callAll (CBPlusTree.empty raw m_MaxKey) calls = some (t, answers) ∧
      AllAccount [] calls answers stored ∧
      (∀ key, t.search key = some true → key ∈ stored.map Prod.fst) ∧
      ∀ key data t', t.insert key data = some (t', false) → key ∈ stored.map Prod.fst := by
  have owns : Owns (CBPlusTree.empty raw m_MaxKey) [] := .empty rfl rfl fun _ => rfl
  obtain ⟨t, answers, stored, run, account, keys_in⟩ :=
    keys_in_calls owns (fun _ _ cell => by cases cell) calls
  refine ⟨t, answers, stored, run, account, ?_, ?_⟩
  · intro key found
    exact search_found keys_in found
  · intro key data t' refused
    exact search_found keys_in (insert_returns_false refused)

end UC.BPlusTree
