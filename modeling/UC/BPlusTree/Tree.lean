import Mathlib.Data.List.Perm.Basic
import UC.BPlusTree.Node
import UC.Lib.Chains

/- The trees a heap stands for. All leaves of a tree of depth d are d levels below its
   root. -/
namespace UC.BPlusTree
open UC.Memory UC.Slots UC.Chains

structure Leaf (K : Type) where
  ptr : Ptr
  entries : List (K × Int)

structure Inner (Kid : Type) where
  ptr : Ptr
  kids : List Kid

def Tree (K : Type) : Nat → Type
  | 0 => Leaf K
  | d + 1 => Inner (Tree K d)

namespace Tree

variable {K : Type}

def ptr : (d : Nat) → Tree K d → Ptr
  | 0, t => Leaf.ptr t
  | _ + 1, t => Inner.ptr t

def num : (d : Nat) → Tree K d → Nat
  | 0, t => (Leaf.entries t).length
  | _ + 1, t => (Inner.kids t).length - 1

def first : (d : Nat) → Tree K d → Ptr
  | 0, t => Leaf.ptr t
  | d + 1, t =>
    match Inner.kids t with
    | [] => Inner.ptr t
    | kid :: _ => first d kid

def ptrs : (d : Nat) → Tree K d → List Ptr
  | 0, t => [Leaf.ptr t]
  | d + 1, t => Inner.ptr t :: (Inner.kids t).flatMap (ptrs d)

def leaves : (d : Nat) → Tree K d → List (Leaf K)
  | 0, t => [t]
  | d + 1, t => (Inner.kids t).flatMap (leaves d)

def entries : (d : Nat) → Tree K d → List (K × Int)
  | 0, t => Leaf.entries t
  | d + 1, t => (Inner.kids t).flatMap (entries d)

/-- Numbers of keys: at least lo in the root, at least MINNUM_KEY below it, nowhere more
    than MAXNUM_KEY; a node with n keys has n + 1 children; the keys of a leaf in order. -/
def Within [LinearOrder K] (lo : Nat) : (d : Nat) → Tree K d → Prop
  | 0, t => lo ≤ (Leaf.entries t).length ∧ (Leaf.entries t).length ≤ MAXNUM_LEAF ∧
      ((Leaf.entries t).map Prod.fst).Pairwise (· ≤ ·)
  | d + 1, t => lo + 1 ≤ (Inner.kids t).length ∧ (Inner.kids t).length ≤ MAXNUM_CHILD ∧
      ∀ kid ∈ Inner.kids t, Within MINNUM_KEY d kid

/-- The nodes of the heap from the root of the tree on; the last leaf's right sibling is
    the tail. -/
def Repr (h : Heap K) : (d : Nat) → Tree K d → Option Ptr → Prop
  | 0, t, tail => ∃ n, h.cells (Leaf.ptr t) = some n ∧ n.m_Type = .LEAF ∧
      slice n.m_KeyValues 0 n.m_KeyNum = (Leaf.entries t).map Prod.fst ∧
      slice n.m_Datas 0 n.m_KeyNum = (Leaf.entries t).map Prod.snd ∧ n.m_RightSibling = tail
  | d + 1, t, tail => ∃ n, h.cells (Inner.ptr t) = some n ∧ n.m_Type = .INTERNAL ∧
      slice n.m_Childs 0 (n.m_KeyNum + 1) = (Inner.kids t).map (fun kid => some (ptr d kid)) ∧
      Linked (Repr h d) (first d) (Inner.kids t) tail

theorem first_inner {d : Nat} {t : Tree K (d + 1)} {kid : Tree K d} {rest : List (Tree K d)}
    (kids : Inner.kids t = kid :: rest) : first (d + 1) t = first d kid := by
  rw [first, kids]

def node {d : Nat} (p : Ptr) (kids : List (Tree K d)) : Tree K (d + 1) := Inner.mk p kids

theorem ptr_node {d : Nat} (p : Ptr) (kids : List (Tree K d)) :
    ptr (d + 1) (node p kids) = p := rfl

theorem ptrs_node {d : Nat} (p : Ptr) (kids : List (Tree K d)) :
    ptrs (d + 1) (node p kids) = p :: kids.flatMap (ptrs d) := rfl

theorem entries_node {d : Nat} (p : Ptr) (kids : List (Tree K d)) :
    entries (d + 1) (node p kids) = kids.flatMap (entries d) := rfl

theorem first_node {d : Nat} (p : Ptr) (kids : List (Tree K d)) :
    first (d + 1) (node p kids) = (headOr (first d) kids (some p)).getD p := by
  cases kids with
  | nil => rfl
  | cons kid rest => exact first_inner rfl

theorem num_inner {d : Nat} (t : Tree K (d + 1)) :
    num (d + 1) t = (Inner.kids t).length - 1 := rfl

theorem flat_map_between {α β : Type} (pre new post : List α) (f : α → List β) :
    ((pre ++ (new ++ post)).flatMap f).Perm (new.flatMap f ++ (pre ++ post).flatMap f) := by
  simp only [List.flatMap_append]
  rw [← List.append_assoc, ← List.append_assoc]
  exact List.perm_append_comm.append_right _

theorem flat_map_middle {α β : Type} (pre post : List α) (k : α) (f : α → List β) :
    ((pre ++ k :: post).flatMap f).Perm (f k ++ (pre ++ post).flatMap f) := by
  have between := flat_map_between pre [k] post f
  rwa [List.flatMap_singleton] at between

theorem ptr_mem_ptrs (d : Nat) (t : Tree K d) : ptr d t ∈ ptrs d t := by
  cases d with
  | zero => exact List.mem_singleton_self _
  | succ d => exact List.mem_cons_self

theorem repr_root {h : Heap K} {d : Nat} {t : Tree K d} {tail : Option Ptr}
    (repr : Repr h d t tail) :
    ∃ n, h.cells (ptr d t) = some n ∧ n.m_KeyNum = num d t ∧
      n.m_Type = if d = 0 then .LEAF else .INTERNAL := by
  cases d with
  | zero =>
    obtain ⟨n, cell, type, keys, _⟩ := repr
    have count := congrArg List.length keys
    rw [slice_length, List.length_map] at count
    exact ⟨n, cell, count, type⟩
  | succ d =>
    obtain ⟨n, cell, type, childs, _⟩ := repr
    have count := congrArg List.length childs
    rw [slice_length, List.length_map] at count
    exact ⟨n, cell, Nat.eq_sub_of_add_eq count, type⟩

theorem repr_congr {h h' : Heap K} {d : Nat} {t : Tree K d} {tail : Option Ptr}
    (same : ∀ x ∈ ptrs d t, h'.cells x = h.cells x) (repr : Repr h d t tail) :
    Repr h' d t tail := by
  induction d generalizing tail with
  | zero =>
    obtain ⟨n, cell, rest⟩ := repr
    exact ⟨n, (same _ (List.mem_singleton_self _)).trans cell, rest⟩
  | succ d ih =>
    obtain ⟨n, cell, type, childs, linked⟩ := repr
    refine ⟨n, (same _ List.mem_cons_self).trans cell, type, childs, ?_⟩
    apply linked_imp _ linked
    intro kid mem e
    apply ih
    intro x hx
    exact same x (List.mem_cons_of_mem _ (List.mem_flatMap.mpr ⟨kid, mem, hx⟩))

/-- The nodes of a tree are live and distinct. -/
structure Placed (h : Heap K) (d : Nat) (T : Tree K d) : Prop where
  nodup : (ptrs d T).Nodup
  old : ∀ x ∈ ptrs d T, x < h.next

theorem placed_kid {h : Heap K} {d : Nat} {p : Ptr} {pre post : List (Tree K d)}
    {k : Tree K d} (placed : Placed h (d + 1) (node p (pre ++ k :: post))) :
    Placed h d k ∧ p ∉ ptrs d k ∧ p < h.next ∧
      ∀ kid ∈ pre ++ post, ∀ x ∈ ptrs d kid, x ≠ p ∧ x ∉ ptrs d k ∧ x < h.next := by
  have all := flat_map_middle pre post k (ptrs d)
  obtain ⟨nodup, old⟩ := placed
  rw [ptrs_node] at nodup old
  obtain ⟨outside, distinct⟩ := List.nodup_cons.mp nodup
  rw [all.nodup_iff, List.nodup_append] at distinct
  rw [all.mem_iff, List.mem_append, not_or] at outside
  obtain ⟨nodup_k, _, apart⟩ := distinct
  have within_k : ∀ x ∈ ptrs d k, x < h.next := fun x hx =>
    old x (List.mem_cons_of_mem _ (all.mem_iff.mpr (List.mem_append_left _ hx)))
  refine ⟨⟨nodup_k, within_k⟩, outside.1, old p List.mem_cons_self, ?_⟩
  intro kid mem x hx
  have other : x ∈ (pre ++ post).flatMap (ptrs d) := List.mem_flatMap.mpr ⟨kid, mem, hx⟩
  refine ⟨?_, ?_, ?_⟩
  · intro eq
    exact outside.2 (eq ▸ other)
  · intro mem_k
    exact apart x mem_k x other rfl
  · exact old x (List.mem_cons_of_mem _ (all.mem_iff.mpr (List.mem_append_right _ other)))

theorem repr_kid {h : Heap K} {d : Nat} {p : Ptr} {pre post : List (Tree K d)} {k : Tree K d}
    {tail : Option Ptr} (repr : Repr h (d + 1) (node p (pre ++ k :: post)) tail) :
    Repr h d k (headOr (first d) post tail) := by
  obtain ⟨_, _, _, _, linked⟩ := repr
  change Linked _ _ (pre ++ k :: post) _ at linked
  exact ((linked_middle pre post k tail).mp linked).2.1

theorem repr_child {h : Heap K} {d : Nat} {p : Ptr} {pre post : List (Tree K d)} {k : Tree K d}
    {tail : Option Ptr} (repr : Repr h (d + 1) (node p (pre ++ k :: post)) tail) :
    ∃ n, h.cells p = some n ∧ n.m_Type = .INTERNAL ∧
      n.m_KeyNum = pre.length + post.length ∧ n.m_Childs pre.length = some (ptr d k) := by
  obtain ⟨n, cell, type, childs, _⟩ := repr
  change slice n.m_Childs 0 (n.m_KeyNum + 1) = (pre ++ k :: post).map _ at childs
  rw [List.map_append, List.map_cons] at childs
  obtain ⟨count, _, child, _⟩ := slice_parts childs
  rw [List.length_map, List.length_map] at count
  rw [List.length_map] at child
  exact ⟨n, cell, type, Nat.succ.inj count, child⟩

theorem within_kid [LinearOrder K] {lo d : Nat} {p : Ptr} {pre post : List (Tree K d)}
    {k : Tree K d} (within : Within lo (d + 1) (node p (pre ++ k :: post))) :
    Within MINNUM_KEY d k :=
  within.2.2 k (List.mem_append_right _ List.mem_cons_self)

/-- Kids none of whose nodes change stay linked. -/
theorem linked_same {h h' : Heap K} {d : Nat} {kids : List (Tree K d)} {tail : Option Ptr}
    (same : ∀ kid ∈ kids, ∀ x ∈ ptrs d kid, h'.cells x = h.cells x)
    (linked : Linked (Repr h d) (first d) kids tail) :
    Linked (Repr h' d) (first d) kids tail :=
  linked_imp (fun kid mem _ repr => repr_congr (same kid mem) repr) linked

theorem within_num [LinearOrder K] {lo lo' d : Nat} {t : Tree K d} (within : Within lo d t)
    (enough : lo' ≤ num d t) (more : 0 < num d t) : Within lo' d t := by
  cases d with
  | zero =>
    obtain ⟨_, upper, sorted⟩ := within
    exact ⟨enough, upper, sorted⟩
  | succ d =>
    obtain ⟨_, upper, kids⟩ := within
    rw [num_inner] at enough more
    exact ⟨by omega, upper, kids⟩

theorem num_bounds [LinearOrder K] {lo d : Nat} {t : Tree K d} (within : Within lo d t) :
    lo ≤ num d t ∧ num d t ≤ MAXNUM_KEY := by
  cases d with
  | zero =>
    obtain ⟨lower, upper, _⟩ := within
    exact ⟨lower, upper⟩
  | succ d =>
    obtain ⟨lower, upper, _⟩ := within
    unfold MAXNUM_CHILD at upper
    rw [num_inner]
    omega

theorem depth_lt_ptrs [LinearOrder K] {lo d : Nat} {t : Tree K d} (within : Within lo d t) :
    d < (ptrs d t).length := by
  induction d generalizing lo with
  | zero => exact Nat.zero_lt_one
  | succ d ih =>
    obtain ⟨lower, _, kids⟩ := within
    obtain ⟨kid, mem⟩ := List.exists_mem_of_length_pos (show 0 < (Inner.kids t).length by omega)
    have deep := ih (kids kid mem)
    have part : (ptrs d kid).length ≤ ((Inner.kids t).flatMap (ptrs d)).length := by
      rw [List.flatMap_def]
      exact (List.sublist_flatten_of_mem (List.mem_map_of_mem mem)).length_le
    exact Nat.succ_lt_succ (Nat.lt_of_lt_of_le deep part)

end Tree

end UC.BPlusTree
