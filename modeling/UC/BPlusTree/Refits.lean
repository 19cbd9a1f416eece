import UC.BPlusTree.FoundKeys
import UC.BPlusTree.Way
import UC.BPlusTree.Window

/- A tree that stands again behind a step on some of its nodes, with the same root, the same
   first leaf and no new key. -/
namespace UC.BPlusTree
open UC.Memory UC.Loops UC.Slots UC.Chains UC.BPlusTree.Tree

variable {K : Type}

namespace Tree

/-- The nodes under the root. -/
def below : (d : Nat) → Tree K d → List Ptr
  | 0, _ => []
  | d + 1, t => (Inner.kids t).flatMap (ptrs d)

end Tree

variable [LinearOrder K]

/-- Tree T' stands in heap h' where T stood in heap h, with no new node and no new key. No
    node outside T has changed. -/
structure Refits (h h' : Heap K) (d : Nat) (T T' : Tree K d) (tail : Option Ptr) (lo : Nat) :
    Prop where
  repr : Repr h' d T' tail
  within : Within lo d T'
  ptr : ptr d T' = ptr d T
  first : first d T' = first d T
  nodup : (ptrs d T').Nodup
  part : ptrs d T' ⊆ ptrs d T
  next : h'.next = h.next
  others : ∀ x ∉ ptrs d T, h'.cells x = h.cells x
  keys : ∀ S, h.KeysIn S → h'.KeysIn S

namespace Refits

variable {h h' h'' : Heap K} {d lo lo' : Nat} {T T' T'' : Tree K d} {tail : Option Ptr}

theorem placed (refits : Refits h h' d T T' tail lo) (placed : Placed h d T) :
    Placed h' d T' := by
  refine ⟨refits.nodup, ?_⟩
  intro x mem
  rw [refits.next]
  exact placed.old x (refits.part mem)

theorem refl (repr : Repr h d T tail) (within : Within lo d T) (placed : Placed h d T) :
    Refits h h d T T tail lo :=
  ⟨repr, within, rfl, rfl, placed.nodup, fun _ => id, rfl, fun _ _ => rfl, fun _ => id⟩

theorem trans (first : Refits h h' d T T' tail lo) (second : Refits h' h'' d T' T'' tail lo') :
    Refits h h'' d T T'' tail lo' := by
  constructor
  · exact second.repr
  · exact second.within
  · exact second.ptr.trans first.ptr
  · exact second.first.trans first.first
  · exact second.nodup
  · exact fun x mem => first.part (second.part mem)
  · exact second.next.trans first.next
  · intro x outside
    rw [second.others x fun mem => outside (first.part mem), first.others x outside]
  · exact fun S keys_in => second.keys S (first.keys S keys_in)

end Refits

section Kids

variable {h h' : Heap K} {d lo : Nat} {p : Ptr} {pre post : List (Tree K d)} {k k' x y : Tree K d}
  {tail : Option Ptr}

/-- A node refits when the kids new come in the place of two neighbours. -/
theorem refits_pair {new : List (Tree K d)} {n : CNode K}
    (repr : Repr h (d + 1) (node p (pre ++ x :: y :: post)) tail)
    (within : Within lo (d + 1) (node p (pre ++ x :: y :: post)))
    (placed : Placed h (d + 1) (node p (pre ++ x :: y :: post)))
    (parent : h'.cells p = some n)
    (branching : n.Branching ((pre ++ (new ++ post)).map fun kid => some (ptr d kid)))
    (linked : Linked (Repr h' d) (first d) new (headOr (first d) post tail))
    (start : ∀ e, headOr (first d) new e = some (first d x))
    (bounded : ∀ kid ∈ new, Within MINNUM_KEY d kid)
    (enough : lo + 1 ≤ (pre ++ (new ++ post)).length) (few : new.length ≤ 2)
    (nodes : (new.flatMap (ptrs d)).Subperm (ptrs d x ++ ptrs d y)) (next : h'.next = h.next)
    (others : ∀ z, z ≠ p → z ∉ ptrs d x → z ∉ ptrs d y → h'.cells z = h.cells z)
    (keys : ∀ S, h.KeysIn S → h'.KeysIn S) :
    Refits h h' (d + 1) (node p (pre ++ x :: y :: post)) (node p (pre ++ (new ++ post))) tail
      lo := by
  obtain ⟨_, _, _, _, whole⟩ := repr
  obtain ⟨_, upper, kids⟩ := within
  change (pre ++ x :: y :: post).length ≤ MAXNUM_CHILD at upper
  change ∀ kid ∈ pre ++ x :: y :: post, _ at kids
  change Linked _ _ (pre ++ x :: ([y] ++ post)) _ at whole
  rw [linked_middle, linked_append] at whole
  obtain ⟨left, _, _, right⟩ := whole
  have nodup := placed.nodup
  have regroup : ∀ mid : List (Tree K d), ((pre ++ (mid ++ post)).flatMap (ptrs d)).Perm _ :=
    fun mid => flat_map_between pre mid post (ptrs d)
  have old := regroup [x, y]
  rw [List.flatMap_cons, List.flatMap_singleton] at old
  change ((pre ++ x :: y :: post).flatMap (ptrs d)).Perm _ at old
  rw [ptrs_node, List.nodup_cons, old.nodup_iff, old.mem_iff] at nodup
  obtain ⟨not_p, nodup⟩ := nodup
  rw [List.nodup_append] at nodup
  obtain ⟨nodup_pair, nodup_others, distinct⟩ := nodup
  have part : ∀ z ∈ new.flatMap (ptrs d) ++ (pre ++ post).flatMap (ptrs d),
      z ∈ (ptrs d x ++ ptrs d y) ++ (pre ++ post).flatMap (ptrs d) := by
    intro z mem
    rcases List.mem_append.mp mem with here | other
    · exact List.mem_append_left _ (nodes.subset here)
    · exact List.mem_append_right _ other
  have same : ∀ kid ∈ pre ++ post, ∀ z ∈ ptrs d kid, h'.cells z = h.cells z := by
    intro kid mem z mem_z
    have other : z ∈ (pre ++ post).flatMap (ptrs d) := List.mem_flatMap.mpr ⟨kid, mem, mem_z⟩
    apply others z
    · exact fun eq => not_p (eq ▸ List.mem_append_right _ other)
    · exact fun here => distinct z (List.mem_append_left _ here) z other rfl
    · exact fun here => distinct z (List.mem_append_right _ here) z other rfl
  constructor
  · refine ⟨n, parent, branching.type, branching.childs, ?_⟩
    change Linked _ _ (pre ++ (new ++ post)) _
    rw [linked_append, linked_append, head_or_append, start]
    exact ⟨linked_same (fun kid mem => same kid (List.mem_append_left _ mem)) left, linked,
      linked_same (fun kid mem => same kid (List.mem_append_right _ mem)) right⟩
  · refine ⟨enough, ?_, ?_⟩
    · change (pre ++ (new ++ post)).length ≤ MAXNUM_CHILD
      simp only [List.length_append, List.length_cons] at upper ⊢
      omega
    · intro kid mem
      change kid ∈ pre ++ (new ++ post) at mem
      rw [List.mem_append, List.mem_append] at mem
      rcases mem with before | new | behind
      · exact kids kid (List.mem_append_left _ before)
      · exact bounded kid new
      · exact kids kid (List.mem_append_right _
          (List.mem_cons_of_mem _ (List.mem_cons_of_mem _ behind)))
  · rfl
  · rw [first_node, first_node, head_or_append, head_or_append, head_or_append, start,
      head_or_cons]
  · rw [ptrs_node, List.nodup_cons, (regroup new).nodup_iff, (regroup new).mem_iff,
      List.nodup_append]
    obtain ⟨_, same_nodes, sub⟩ := id nodes
    exact ⟨fun mem => not_p (part p mem), same_nodes.nodup_iff.mp (nodup_pair.sublist sub),
      nodup_others, fun z here => distinct z (nodes.subset here)⟩
  · intro z mem
    rw [ptrs_node, List.mem_cons, (regroup new).mem_iff] at mem
    rw [ptrs_node, List.mem_cons, old.mem_iff]
    exact mem.imp_right (part z)
  · exact next
  · intro z out
    rw [ptrs_node, List.mem_cons, old.mem_iff, not_or, List.mem_append, List.mem_append, not_or,
      not_or] at out
    exact others z out.1 out.2.1.1 out.2.1.2
  · exact keys

omit [LinearOrder K] in
theorem Neighbours.removed {m : CNode K} (near : Neighbours h p pre x y post m) :
    m.removeKey pre.length (pre.length + 1) =
        some (m.withoutKey pre.length (pre.length + 1)) ∧
      (m.withoutKey pre.length (pre.length + 1)).Branching
        ((pre.map fun kid => some (ptr d kid)) ++
          some (ptr d x) :: post.map fun kid => some (ptr d kid)) ∧
      (m.withoutKey pre.length (pre.length + 1)).m_Childs (pre.length + 1) =
        (post.map fun kid => some (ptr d kid)).headD (some (ptr d y)) := by
  have branching := near.branching
  rw [List.append_cons] at branching
  obtain ⟨m', removed, branching', next⟩ := branching.remove
    (by rw [List.length_append, List.length_map, List.length_singleton]) near.full
  have explicit := CNode.remove_inner_spec near.branching.type near.index near.full
    (Nat.le_refl (pre.length + 1))
  cases Option.some.inj (explicit.symm.trans removed)
  rw [List.append_assoc] at branching'
  exact ⟨removed, branching', next⟩

end Kids

section Keys

variable {S : Set K} {h : Heap K} {n m : CNode K}

omit [LinearOrder K] in
theorem keys_in_holding {es : List (K × Int)} (holding : n.Holding es) :
    n.KeysIn S ↔ ∀ e ∈ es, e.1 ∈ S := by
  unfold CNode.KeysIn
  rw [holding.keys, List.forall_mem_map]

omit [LinearOrder K] in
theorem keys_in_store (keys_in : n.KeysIn S) (i : Nat) {key : K} (mem : key ∈ S) :
    CNode.KeysIn S { n with m_KeyValues := store n.m_KeyValues i key } := by
  intro x part
  obtain ⟨j, used, rfl⟩ := mem_slice.mp part
  change store n.m_KeyValues i key (0 + j) ∈ S
  rw [Nat.zero_add]
  by_cases here : j = i
  · rw [here, store_same]
    exact mem
  · rw [store_other _ _ here]
    exact key_in keys_in used

omit [LinearOrder K] in
theorem keys_in_without (keys_in : n.KeysIn S) {i : Nat} (used : i < n.m_KeyNum) (ci : Nat) :
    (n.withoutKey i ci).KeysIn S := by
  intro x part
  have part : x ∈ (n.withoutKey i ci).keys := part
  rw [CNode.without_key_keys used] at part
  exact keys_in x (List.mem_of_mem_eraseIdx part)

omit [LinearOrder K] in
theorem keys_in_rewritten {p q r : Ptr} {a b c : CNode K} (keys_in : h.KeysIn S)
    (first : a.KeysIn S) (second : b.KeysIn S) (third : c.KeysIn S) :
    (h.rewritten p q r a b c).KeysIn S :=
  keys_in_write (keys_in_write (keys_in_write keys_in first) second) third

end Keys

end UC.BPlusTree
