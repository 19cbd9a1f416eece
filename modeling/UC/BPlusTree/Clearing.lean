import UC.BPlusTree.LeafChain

/- Runs of insert, search, printData and clear from the empty tree. At any moment the live
   nodes are those of the tree, and clear deletes each of them once. -/
namespace UC.BPlusTree
open UC.Memory UC.Slots UC.Chains UC.Loops UC.BPlusTree.Tree

variable {K : Type}

/-- Nothing lives where the allocator has not been yet. -/
def Untouched (h : Heap K) : Prop := ∀ x, h.next ≤ x → h.cells x = none

section Untouched

variable {h h' : Heap K}

theorem untouched_modify {p : Ptr} {f : CNode K → Option (CNode K)} (clean : Untouched h)
    (run : h.modify p f = some h') : Untouched h' := by
  unfold Heap.modify at run
  obtain ⟨n, cell, run⟩ := Option.bind_eq_some_iff.mp run
  obtain ⟨n', _, run⟩ := Option.bind_eq_some_iff.mp run
  cases run
  intro x above
  have ne : x ≠ p := by
    rintro rfl
    cases cell.symm.trans (clean x above)
  exact (Heap.write_elsewhere h n' ne).trans (clean x above)

theorem untouched_grown (clean : Untouched h) (type : NodeType) : Untouched (h.grown type) := by
  intro x above
  rw [Heap.grown_old type (Nat.ne_of_gt above)]
  exact clean x (Nat.le_of_succ_le above)

theorem untouched_split {this parent : Ptr} {c : Nat} (clean : Untouched h)
    (run : h.split this parent c = some h') : Untouched h' := by
  unfold Heap.split at run
  obtain ⟨n, _, run⟩ := Option.bind_eq_some_iff.mp run
  split at run
  · unfold Heap.splitInternal at run
    rw [Heap.new_eq] at run
    obtain ⟨n, _, run⟩ := Option.bind_eq_some_iff.mp run
    obtain ⟨h₁, filled, run⟩ := Option.bind_eq_some_iff.mp run
    obtain ⟨h₂, shortened, run⟩ := Option.bind_eq_some_iff.mp run
    have clean₁ := untouched_modify (untouched_grown clean .INTERNAL) filled
    exact untouched_modify (untouched_modify clean₁ shortened) run
  · unfold Heap.splitLeaf at run
    rw [Heap.new_eq] at run
    obtain ⟨n, _, run⟩ := Option.bind_eq_some_iff.mp run
    obtain ⟨h₁, shortened, run⟩ := Option.bind_eq_some_iff.mp run
    obtain ⟨h₂, filled, run⟩ := Option.bind_eq_some_iff.mp run
    have clean₁ := untouched_modify (untouched_grown clean .LEAF) shortened
    exact untouched_modify (untouched_modify clean₁ filled) run

theorem untouched_grow_root {t t' : CBPlusTree K} (clean : Untouched t.heap)
    (run : t.growRoot = some t') : Untouched t'.heap := by
  unfold CBPlusTree.growRoot at run
  obtain ⟨root, _, run⟩ := Option.bind_eq_some_iff.mp run
  obtain ⟨r, _, run⟩ := Option.bind_eq_some_iff.mp run
  split at run
  · rw [Heap.new_eq] at run
    obtain ⟨h₁, above, run⟩ := Option.bind_eq_some_iff.mp run
    obtain ⟨h₂, halved, run⟩ := Option.bind_eq_some_iff.mp run
    cases run
    exact untouched_split (untouched_modify (untouched_grown clean .INTERNAL) above) halved
  · cases run
    exact clean

variable [LinearOrder K]

theorem untouched_recursive_insert {key : K} {data : Int} {fuel : Nat} {p : Ptr}
    (clean : Untouched h) (run : h.recursiveInsert key data fuel p = some h') :
    Untouched h' := by
  induction fuel generalizing h p with
  | zero => cases run
  | succ fuel ih =>
    unfold Heap.recursiveInsert at run
    obtain ⟨n, _, run⟩ := Option.bind_eq_some_iff.mp run
    split at run
    · exact untouched_modify clean run
    · obtain ⟨keyIndex, _, run⟩ := Option.bind_eq_some_iff.mp run
      obtain ⟨child, _, run⟩ := Option.bind_eq_some_iff.mp run
      obtain ⟨c, _, run⟩ := Option.bind_eq_some_iff.mp run
      split at run
      · obtain ⟨h₁, halved, run⟩ := Option.bind_eq_some_iff.mp run
        obtain ⟨m, _, run⟩ := Option.bind_eq_some_iff.mp run
        have clean₁ := untouched_split clean halved
        split at run
        · obtain ⟨child', _, run⟩ := Option.bind_eq_some_iff.mp run
          exact ih clean₁ run
        · exact ih clean₁ run
      · exact ih clean run

omit [LinearOrder K] in
theorem untouched_first_leaf {t : CBPlusTree K} (clean : Untouched t.heap) (key : K) :
    Untouched (t.firstLeaf key).heap := by
  unfold CBPlusTree.firstLeaf
  split
  · exact clean
  · exact untouched_grown clean .LEAF

theorem untouched_insert {t t' : CBPlusTree K} {key : K} {data : Int} {inserted : Bool}
    (clean : Untouched t.heap) (run : t.insert key data = some (t', inserted)) :
    Untouched t'.heap := by
  unfold CBPlusTree.insert at run
  obtain ⟨found, _, run⟩ := Option.bind_eq_some_iff.mp run
  split at run
  · cases run
    exact clean
  · obtain ⟨t₁, grown, run⟩ := Option.bind_eq_some_iff.mp run
    have clean₁ := untouched_grow_root (untouched_first_leaf clean key) grown
    obtain ⟨root, _, run⟩ := Option.bind_eq_some_iff.mp run
    obtain ⟨h₂, inserted, run⟩ := Option.bind_eq_some_iff.mp run
    cases run
    refine untouched_recursive_insert ?_ inserted
    split
    · exact clean₁
    · exact clean₁

end Untouched

section Clear

variable {h : Heap K}

/-- The heap without node p. -/
def dropped (h : Heap K) (p : Ptr) : Heap K :=
  { h with cells := fun x => if x = p then none else h.cells x }

theorem delete_live {p : Ptr} {n : CNode K} (cell : h.cells p = some n) :
    h.delete (some p) = some (dropped h p) := by
  unfold Heap.delete
  dsimp only
  rw [cell]
  rfl

theorem dropped_here (h : Heap K) (p : Ptr) : (dropped h p).cells p = none := if_pos rfl

theorem dropped_elsewhere (h : Heap K) {p x : Ptr} (ne : x ≠ p) :
    (dropped h p).cells x = h.cells x := if_neg ne

/-- The heap after the clear of the root of T: the nodes below it are gone. -/
structure Cleared (h h' : Heap K) (d : Nat) (T : Tree K d) : Prop where
  next : h'.next = h.next
  root : ∃ n, h'.cells (ptr d T) = some n
  below : ∀ x ∈ ptrs d T, x ≠ ptr d T → h'.cells x = none
  others : ∀ x, x ∉ ptrs d T → h'.cells x = h.cells x

/-- The heap after some rounds of the loop at node p: the nodes of the first kids are gone,
    and the child slots from i on are as they were. -/
structure Emptied (h g : Heap K) (p : Ptr) (n : CNode K) (i : Nat) (gone : List Ptr) :
    Prop where
  next : g.next = h.next
  slots : ∃ m, g.cells p = some m ∧ ∀ j, i ≤ j → m.m_Childs j = n.m_Childs j
  deleted : ∀ x ∈ gone, x ≠ p ∧ g.cells x = none
  others : ∀ x, x ≠ p → x ∉ gone → g.cells x = h.cells x

theorem emptied_step {g g₁ : Heap K} {d : Nat} {p : Ptr} {n : CNode K} {k : Tree K d} {i : Nat}
    {gone : List Ptr} (emptied : Emptied h g p n i gone) (cleared : Cleared g g₁ d k)
    (outside : p ∉ ptrs d k) (fits : i < MAXNUM_CHILD) :
    ∃ g₂, (do
        let g ← g₁.delete (some (ptr d k))
        g.modify p fun n => n.setChild i none) = some g₂ ∧
      Emptied h g₂ p n (i + 1) (gone ++ ptrs d k) := by
  obtain ⟨c, live⟩ := cleared.root
  obtain ⟨m, cell, slots⟩ := emptied.slots
  have ne : p ≠ ptr d k := fun eq => outside (eq ▸ ptr_mem_ptrs d k)
  have cell₂ : (dropped g₁ (ptr d k)).cells p = some m := by
    rw [dropped_elsewhere g₁ ne, cleared.others p outside, cell]
  refine ⟨(dropped g₁ (ptr d k)).write p { m with m_Childs := store m.m_Childs i none }, ?_, ?_⟩
  · rw [delete_live live]
    exact Heap.modify_cell cell₂ (CNode.set_child fits none)
  · have kid_gone : ∀ x ∈ ptrs d k, (dropped g₁ (ptr d k)).cells x = none := by
      intro x mem
      by_cases root : x = ptr d k
      · rw [root]
        exact dropped_here g₁ _
      · rw [dropped_elsewhere g₁ root]
        exact cleared.below x mem root
    have apart : ∀ x, x ∉ ptrs d k → (dropped g₁ (ptr d k)).cells x = g.cells x := by
      intro x out
      have ne_root : x ≠ ptr d k := by
        rintro rfl
        exact out (ptr_mem_ptrs d k)
      rw [dropped_elsewhere g₁ ne_root]
      exact cleared.others x out
    constructor
    · exact cleared.next.trans emptied.next
    · refine ⟨_, Heap.write_here _ _ _, ?_⟩
      intro j behind
      exact (store_other m.m_Childs none (Nat.ne_of_gt behind)).trans
        (slots j (Nat.le_of_succ_le behind))
    · intro x mem
      have other : x ≠ p ∧ (dropped g₁ (ptr d k)).cells x = none := by
        by_cases in_kid : x ∈ ptrs d k
        · constructor
          · rintro rfl
            exact outside in_kid
          · exact kid_gone x in_kid
        · have earlier := emptied.deleted x ((List.mem_append.mp mem).resolve_right in_kid)
          exact ⟨earlier.1, (apart x in_kid).trans earlier.2⟩
      exact ⟨other.1, (Heap.write_elsewhere _ _ other.1).trans other.2⟩
    · intro x not_p out
      rw [List.mem_append, not_or] at out
      rw [Heap.write_elsewhere _ _ not_p, apart x out.2]
      exact emptied.others x not_p out.1

theorem kid_intact {g : Heap K} {d : Nat} {p : Ptr} {n : CNode K} {pre post : List (Tree K d)}
    {k : Tree K d} {tail : Option Ptr} (repr : Repr h (d + 1) (node p (pre ++ k :: post)) tail)
    (placed : Placed h (d + 1) (node p (pre ++ k :: post)))
    (emptied : Emptied h g p n pre.length (pre.flatMap (ptrs d))) :
    Repr g d k (headOr (first d) post tail) ∧ Placed g d k := by
  obtain ⟨placed_k, outside, _, apart⟩ := placed_kid placed
  constructor
  · apply repr_congr _ (repr_kid repr)
    intro x mem
    apply emptied.others x
    · rintro rfl
      exact outside mem
    · intro gone
      obtain ⟨kid, in_pre, mem_kid⟩ := List.mem_flatMap.mp gone
      exact (apart kid (List.mem_append_left _ in_pre) x mem_kid).2.1 mem
  · constructor
    · exact placed_k.nodup
    · rw [emptied.next]
      exact placed_k.old

variable [LinearOrder K]

/-- The clear of a tree: by induction on its depth, and at each node over its kids. -/
theorem clear_root {d : Nat} {T : Tree K d} {tail : Option Ptr} {lo fuel : Nat}
    (repr : Repr h d T tail) (within : Within lo d T) (placed : Placed h d T) (deep : d < fuel) :
    ∃ h', Heap.clear fuel h (ptr d T) = some h' ∧ Cleared h h' d T := by
  induction d generalizing h tail lo fuel with
  | zero =>
    obtain ⟨fuel, rfl⟩ := Nat.exists_eq_succ_of_ne_zero (Nat.ne_of_gt deep)
    obtain ⟨n, cell, type, _⟩ := repr
    refine ⟨h, ?_, rfl, ⟨n, cell⟩, ?_, fun _ _ => rfl⟩
    · unfold Heap.clear
      change (h.cells (Leaf.ptr T)).bind _ = _
      rw [cell, Option.bind_some]
      simp only [type]
    · intro x mem ne
      exact absurd (List.mem_singleton.mp mem) ne
  | succ d ih =>
    obtain ⟨fuel, rfl⟩ := Nat.exists_eq_succ_of_ne_zero (Nat.ne_of_gt (Nat.zero_lt_of_lt deep))
    obtain ⟨p, kids⟩ := T
    obtain ⟨n, cell, type, childs, _⟩ := id repr
    have count : n.m_KeyNum + 1 = kids.length := by
      have lengths := congrArg List.length childs
      rwa [slice_length, List.length_map] at lengths
    have upper : kids.length ≤ MAXNUM_CHILD := within.2.1
    have start : Emptied h h p n 0 ((kids.take 0).flatMap (ptrs d)) :=
      ⟨rfl, ⟨n, cell, fun _ _ => rfl⟩, fun _ mem => absurd mem List.not_mem_nil, fun _ _ _ => rfl⟩
    obtain ⟨h', run, emptied⟩ := @for_loop_invariant _
      (fun i h => do
        let n ← h.cells p
        let child ← n.m_Childs i
        let h ← Heap.clear fuel h child
        let h ← h.delete (some child)
        h.modify p fun n => n.setChild i none) (n.m_KeyNum + 1)
      (fun i g => Emptied h g p n i ((kids.take i).flatMap (ptrs d))) h start (by
        intro i inside g emptied
        obtain ⟨pre, k, post, rfl, rfl⟩ := parts_at (count ▸ inside)
        rw [List.take_left] at emptied
        obtain ⟨repr_k, placed_k⟩ := kid_intact repr placed emptied
        obtain ⟨g₁, run₁, cleared⟩ :=
          ih repr_k (within_kid within) placed_k (Nat.lt_of_succ_lt_succ deep)
        obtain ⟨g₂, run₂, emptied₂⟩ := emptied_step emptied cleared (placed_kid placed).2.1
          (Nat.lt_of_lt_of_le (count ▸ inside) upper)
        obtain ⟨m, cell_m, slots⟩ := emptied.slots
        obtain ⟨n', cell', _, _, child⟩ := repr_child repr
        cases Option.some.inj (cell.symm.trans cell')
        refine ⟨g₂, ?_, ?_⟩
        · simp only [cell_m, slots pre.length (Nat.le_refl _), child, run₁, Option.bind_eq_bind,
            Option.bind_some]
          exact run₂
        · have next : (pre ++ k :: post).take (pre.length + 1) = pre ++ [k] := by
            rw [List.take_length_add_append]
            rfl
          rw [next, List.flatMap_append, List.flatMap_singleton]
          exact emptied₂)
    rw [count, List.take_length] at emptied
    refine ⟨h', ?_, emptied.next, ?_, ?_, ?_⟩
    · unfold Heap.clear
      change (h.cells p).bind _ = _
      rw [cell, Option.bind_some]
      simp only [type]
      exact run
    · obtain ⟨m, cell_m, _⟩ := emptied.slots
      exact ⟨m, cell_m⟩
    · intro x mem ne
      exact (emptied.deleted x ((List.mem_cons.mp mem).resolve_left ne)).2
    · intro x out
      obtain ⟨not_p, not_kids⟩ := not_or.mp (mt List.mem_cons.mpr out)
      exact emptied.others x not_p not_kids

end Clear

variable [LinearOrder K]

/-- The tree stores the given pairs, and the live nodes are those of the tree. -/
inductive Owns (t : CBPlusTree K) : List (K × Int) → Prop where
  | empty (root : t.m_Root = none) (head : t.m_DataHead = none)
      (free : ∀ x, t.heap.cells x = none) : Owns t []
  | tree {stored : List (K × Int)} {d : Nat} {T : Tree K d} (shape : Shape t 1 d T)
      (clean : Untouched t.heap) (only : ∀ x, x ∉ ptrs d T → t.heap.cells x = none)
      (entries : (entries d T).Perm stored) : Owns t stored

namespace Owns

variable {t t' : CBPlusTree K} {stored : List (K × Int)}

omit [LinearOrder K] in
theorem only_nodes {old new : List Ptr} (spread : Spread t.heap t'.heap old new)
    (clean : Untouched t'.heap) (only : ∀ x, x ∉ old → t.heap.cells x = none) :
    ∀ x, x ∉ new → t'.heap.cells x = none := by
  intro x out
  by_cases below : x < t'.heap.next
  · obtain ⟨_, same⟩ := spread.others x out below
    rw [same]
    exact only x fun mem => out (spread.nodes mem)
  · exact clean x (Nat.le_of_not_lt below)

theorem search_ends (owns : Owns t stored) (key : K) : ∃ found, t.search key = some found := by
  cases owns with
  | empty root =>
    refine ⟨false, ?_⟩
    unfold CBPlusTree.search
    rw [root]
  | tree shape => exact shape.search_ends key

theorem insert (owns : Owns t stored) (key : K) (data : Int) :
    ∃ t' inserted, t.insert key data = some (t', inserted) ∧
      Owns t' (if inserted then (key, data) :: stored else stored) := by
  cases owns with
  | empty root _ free =>
    obtain ⟨t', T', run, shape, one, _, spread⟩ := Shape.insert_first_spread root key data
    have clean := untouched_insert (fun x _ => free x) run
    exact ⟨t', true, run, .tree shape clean (only_nodes spread clean fun x _ => free x)
      (List.Perm.of_eq one)⟩
  | tree shape clean only same =>
    obtain ⟨found, search⟩ := shape.search_ends key
    cases found with
    | true => exact ⟨t, false, Shape.insert_found search data, .tree shape clean only same⟩
    | false =>
      obtain ⟨t', d', T', run, shape', more, spread⟩ := shape.insert_new_spread search data
      have clean' := untouched_insert clean run
      exact ⟨t', true, run, .tree shape' clean' (only_nodes spread clean' only)
        (more.trans (same.cons _))⟩

theorem clear (owns : Owns t stored) :
    ∃ t', t.clear = some t' ∧ Owns t' [] ∧ ∀ x, t'.heap.cells x = none := by
  cases owns with
  | empty root head free =>
    refine ⟨t, ?_, .empty root head free, free⟩
    unfold CBPlusTree.clear
    rw [root]
  | @tree _ d T shape _ only _ =>
    obtain ⟨h, run, cleared⟩ := clear_root shape.repr shape.within shape.placed shape.deep
    obtain ⟨n, live⟩ := cleared.root
    have free : ∀ x, (dropped h (ptr d T)).cells x = none := by
      intro x
      by_cases root : x = ptr d T
      · rw [root]
        exact dropped_here h _
      · rw [dropped_elsewhere h root]
        by_cases mem : x ∈ ptrs d T
        · exact cleared.below x mem root
        · exact (cleared.others x mem).trans (only x mem)
    refine ⟨{ t with heap := dropped h (ptr d T), m_Root := none, m_DataHead := none }, ?_,
      .empty rfl rfl free, free⟩
    unfold CBPlusTree.clear
    rw [shape.root]
    simp only [run, delete_live live, Option.bind_eq_bind, Option.bind_some]

theorem print_data (owns : Owns t stored) :
    ∃ lines, t.printData = some lines ∧
      (lines.flatMap Prod.snd).Perm (stored.map Prod.snd) := by
  cases owns with
  | empty root head =>
    refine ⟨[], ?_, List.Perm.refl _⟩
    unfold CBPlusTree.printData
    rw [head]
    rfl
  | tree shape _ _ same =>
    refine ⟨_, shape.print_data_spec, ?_⟩
    rw [List.flatMap_map]
    exact (List.Perm.of_eq (leaves_datas _)).trans (same.map Prod.snd)

end Owns

inductive Call (K : Type) where
  | insert (key : K) (data : Int)
  | search (key : K)
  | printData
  | clear

inductive Answer where
  | inserted (done : Bool)
  | found (found : Bool)
  | lines (lines : List (List Int))
  | cleared

def call (t : CBPlusTree K) : Call K → Option (CBPlusTree K × Answer)
  | .insert key data => (t.insert key data).map fun (t, done) => (t, .inserted done)
  | .search key => (t.search key).map fun found => (t, .found found)
  | .printData => t.printData.map fun leaves => (t, .lines (leaves.map Prod.snd))
  | .clear => t.clear.map fun t => (t, .cleared)

def callAll (t : CBPlusTree K) : List (Call K) → Option (CBPlusTree K × List Answer)
  | [] => some (t, [])
  | c :: calls => do
    let (t, answer) ← call t c
    let (t, answers) ← callAll t calls
    some (t, answer :: answers)

/-- What a call and its answer make of the stored pairs. -/
inductive Accounts : List (K × Int) → Call K → Answer → List (K × Int) → Prop where
  | inserted {stored : List (K × Int)} (key : K) (data : Int) :
      Accounts stored (.insert key data) (.inserted true) ((key, data) :: stored)
  | refused {stored : List (K × Int)} (key : K) (data : Int) :
      Accounts stored (.insert key data) (.inserted false) stored
  | searched {stored : List (K × Int)} (key : K) (found : Bool) :
      Accounts stored (.search key) (.found found) stored
  | printed {stored : List (K × Int)} {lines : List (List Int)}
      (all : lines.flatten.Perm (stored.map Prod.snd)) :
      Accounts stored .printData (.lines lines) stored
  | cleared {stored : List (K × Int)} : Accounts stored .clear .cleared []

inductive AllAccount : List (K × Int) → List (Call K) → List Answer → List (K × Int) → Prop where
  | nil {stored : List (K × Int)} : AllAccount stored [] [] stored
  | cons {stored mid last : List (K × Int)} {c : Call K} {answer : Answer}
      {calls : List (Call K)} {answers : List Answer} (first : Accounts stored c answer mid)
      (later : AllAccount mid calls answers last) :
      AllAccount stored (c :: calls) (answer :: answers) last

theorem Owns.call {t : CBPlusTree K} {stored : List (K × Int)} (owns : Owns t stored)
    (c : Call K) :
    ∃ t' answer stored', UC.BPlusTree.call t c = some (t', answer) ∧
      Accounts stored c answer stored' ∧ Owns t' stored' := by
  cases c with
  | insert key data =>
    obtain ⟨t', inserted, run, owns'⟩ := owns.insert key data
    refine ⟨t', .inserted inserted, _, ?_, ?_, owns'⟩
    · simp only [UC.BPlusTree.call, run, Option.map_some]
    · cases inserted with
      | true => exact .inserted key data
      | false => exact .refused key data
  | search key =>
    obtain ⟨found, search⟩ := owns.search_ends key
    refine ⟨t, .found found, stored, ?_, .searched key found, owns⟩
    simp only [UC.BPlusTree.call, search, Option.map_some]
  | printData =>
    obtain ⟨leaves, run, same⟩ := owns.print_data
    refine ⟨t, .lines (leaves.map Prod.snd), stored, ?_, .printed ?_, owns⟩
    · simp only [UC.BPlusTree.call, run, Option.map_some]
    · rwa [← List.flatMap_def]
  | clear =>
    obtain ⟨t', run, owns', _⟩ := owns.clear
    refine ⟨t', .cleared, [], ?_, .cleared, owns'⟩
    simp only [UC.BPlusTree.call, run, Option.map_some]

theorem Owns.call_all {t : CBPlusTree K} {stored : List (K × Int)} (owns : Owns t stored)
    (calls : List (Call K)) :
    ∃ t' answers stored', callAll t calls = some (t', answers) ∧
      AllAccount stored calls answers stored' ∧ Owns t' stored' := by
  induction calls generalizing t stored with
  | nil => exact ⟨t, [], stored, rfl, .nil, owns⟩
  | cons c calls ih =>
    obtain ⟨t₁, answer, mid, run₁, first, owns₁⟩ := owns.call c
    obtain ⟨t', answers, stored', run, later, owns'⟩ := ih owns₁
    refine ⟨t', answer :: answers, stored', ?_, .cons first later, owns'⟩
    simp only [callAll, run₁, run, Option.bind_eq_bind, Option.bind_some]

/-- No run of insert, search, printData and clear reads, writes or deletes a node that is not
    live; the live nodes are those of the tree, printData prints what is stored, and the
    clear of the destructor leaves no node behind. -/
theorem every_node_is_deleted_once (raw : Ptr → CNode K) (m_MaxKey : K)
    (calls : List (Call K)) :
    ∃ t answers stored, callAll (CBPlusTree.empty raw m_MaxKey) calls = some (t, answers) ∧
      AllAccount [] calls answers stored ∧ Owns t stored ∧
      ∃ t', t.clear = some t' ∧ ∀ x, t'.heap.cells x = none := by
  have owns : Owns (CBPlusTree.empty raw m_MaxKey) [] := .empty rfl rfl fun _ => rfl
  obtain ⟨t, answers, stored, run, account, owns'⟩ := owns.call_all calls
  obtain ⟨t', cleared, _, free⟩ := owns'.clear
  exact ⟨t, answers, stored, run, account, owns', t', cleared, free⟩

end UC.BPlusTree
