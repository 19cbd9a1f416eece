import UC.BPlusTree.Shape

/- The leaves of a tree as one list, linked by their right siblings. -/
namespace UC.BPlusTree.Tree
open UC.Memory UC.Slots UC.Chains

variable {K : Type} {h : Heap K}

/-- Leaf by leaf along the right siblings; the last one's sibling is the tail. -/
def Chained (h : Heap K) (ls : List (Leaf K)) (tail : Option Ptr) : Prop :=
  Linked (Repr h 0) (first 0) ls tail

def begins (ls : List (Leaf K)) (tail : Option Ptr) : Option Ptr := headOr Leaf.ptr ls tail

def datas (leaf : Leaf K) : List Int := leaf.entries.map Prod.snd

theorem begins_cons (leaf : Leaf K) (ls : List (Leaf K)) (tail : Option Ptr) :
    begins (leaf :: ls) tail = some leaf.ptr := rfl

theorem begins_append (xs ys : List (Leaf K)) (tail : Option Ptr) :
    begins (xs ++ ys) tail = begins xs (begins ys tail) := head_or_append xs ys tail

theorem chained_middle (xs ys : List (Leaf K)) (leaf : Leaf K) (tail : Option Ptr) :
    Chained h (xs ++ leaf :: ys) tail ↔
      Chained h xs (some leaf.ptr) ∧ Repr h 0 leaf (begins ys tail) ∧ Chained h ys tail :=
  linked_middle xs ys leaf tail

theorem leaves_entries {d : Nat} (T : Tree K d) :
    (leaves d T).flatMap Leaf.entries = entries d T := by
  induction d with
  | zero => exact List.flatMap_singleton Leaf.entries _
  | succ d ih =>
    change ((Inner.kids T).flatMap (leaves d)).flatMap Leaf.entries = _
    rw [List.flatMap_assoc]
    exact congrArg (fun f => (Inner.kids T).flatMap f) (funext ih)

theorem leaves_datas {d : Nat} (T : Tree K d) :
    (leaves d T).flatMap datas = (entries d T).map Prod.snd := by
  rw [← leaves_entries, List.map_flatMap]
  rfl

variable [LinearOrder K]

theorem leaves_chained {d : Nat} {T : Tree K d} {tail : Option Ptr} {lo : Nat}
    (repr : Repr h d T tail) (within : Within lo d T) :
    Chained h (leaves d T) tail ∧ begins (leaves d T) tail = some (first d T) := by
  induction d generalizing tail lo with
  | zero => exact ⟨⟨repr, trivial⟩, rfl⟩
  | succ d ih =>
    obtain ⟨_, _, _, _, linked⟩ := repr
    obtain ⟨lower, _, kids⟩ := within
    obtain ⟨kid, rest, eq⟩ := List.exists_cons_of_length_pos (Nat.lt_of_lt_of_le lo.succ_pos lower)
    have all := linked_flat_map (fun kid mem _ repr => ih repr (kids kid mem)) linked
    rw [eq, head_or_cons] at all
    rw [first_inner eq]
    unfold leaves
    rw [eq]
    exact all

theorem leaf_within {d : Nat} {T : Tree K d} {lo : Nat} (within : Within lo d T) (pos : 1 ≤ lo)
    {leaf : Leaf K} (mem : leaf ∈ leaves d T) : @Within K _ 1 0 leaf := by
  induction d generalizing lo with
  | zero =>
    cases List.mem_singleton.mp mem
    exact within_num within (Nat.le_trans pos (num_bounds within).1)
      (Nat.lt_of_lt_of_le pos (num_bounds within).1)
  | succ d ih =>
    obtain ⟨kid, mem_kid, mem⟩ := List.mem_flatMap.mp mem
    exact ih (within.2.2 kid mem_kid) (by decide) mem

end UC.BPlusTree.Tree
