import Mathlib.Data.List.Pairwise
import Mathlib.Order.Lattice
import UC.Avl.Model

/- insNode keeps the tree as long as no value makes a right subtree two higher than its left
   one. Where one does, the rotation of the left branch leaves a node out of balance that no
   rotation further up repairs, or dereferences NULL. -/
namespace UC.Avl
open AvlTree UC.Histories

/-- A node whose stored height is right. -/
def mk (value : Int) (left right : AvlTree) : AvlTree :=
  node value left right (max (trueHeight left) (trueHeight right) + 1)

def rootValue : AvlTree → Int
  | NULL => 0
  | node value _ _ _ => value

section Shape
variable {value v h : Int} {t t' l r : AvlTree}

@[simp] theorem inorder_mk : inorder (mk v l r) = inorder l ++ v :: inorder r := rfl

@[simp] theorem height_mk :
    trueHeight (mk v l r) = max (trueHeight l) (trueHeight r) + 1 := rfl

@[simp] theorem height_node :
    trueHeight (node v l r h) = max (trueHeight l) (trueHeight r) + 1 := rfl

@[simp] theorem stored_mk : HeightsStored (mk v l r) ↔ HeightsStored l ∧ HeightsStored r := by
  simp [HeightsStored, EveryNode, mk]

@[simp] theorem stored_node : HeightsStored (node v l r h) ↔
    h = max (trueHeight l) (trueHeight r) + 1 ∧ HeightsStored l ∧ HeightsStored r := Iff.rfl

@[simp] theorem balanced_node : Balanced (node v l r h) ↔
    (trueHeight l - trueHeight r ≤ 1 ∧ trueHeight r - trueHeight l ≤ 1) ∧
      Balanced l ∧ Balanced r := Iff.rfl

@[simp] theorem balanced_mk : Balanced (mk v l r) ↔
    (trueHeight l - trueHeight r ≤ 1 ∧ trueHeight r - trueHeight l ≤ 1) ∧
      Balanced l ∧ Balanced r := Iff.rfl

theorem height_low (t : AvlTree) : -1 ≤ trueHeight t := by
  induction t with
  | NULL => simp [trueHeight]
  | node v l r h il ir =>
    simp only [height_node]
    omega

theorem deep_eq (stored : HeightsStored t) : treeDeep t = trueHeight t := by
  cases t with
  | NULL => rfl
  | node v l r h => exact stored.1

@[simp] theorem deep_node : treeDeep (node v l r h) = h := rfl

theorem set_height_eq (left : HeightsStored l) (right : HeightsStored r) :
    setHeight (node v l r h) = some (mk v l r) := by
  simp [setHeight, mk, deep_eq left, deep_eq right]

end Shape

def single (v : Int) (l r : AvlTree) : Option AvlTree :=
  match l with
  | NULL => none
  | node lv ll lr _ => some (mk lv ll (mk v lr r))

def double (v : Int) (l r : AvlTree) : Option AvlTree :=
  match l with
  | node lv ll (node dv dl dr _) _ => some (mk dv (mk lv ll dl) (mk v dr r))
  | _ => none

section Rotations
variable {value v h : Int} {t t' l r l' r' : AvlTree}

theorem single_rotate_eq (left : HeightsStored l) (right : HeightsStored r) :
    (singleRotateWithLeft (node v l r h)).bind setHeight = single v l r := by
  cases l with
  | NULL => rfl
  | node lv ll lr lh =>
    have child := deep_eq left.2.2
    simp [singleRotateWithLeft, single, setHeight, mk, deep_eq left.2.1, deep_eq right, child]

theorem double_rotate_eq (left : HeightsStored l) (right : HeightsStored r) :
    (doubleRotateWithLeft (node v l r h)).bind setHeight = double v l r := by
  cases l with
  | NULL => rfl
  | node lv ll lr lh =>
    cases lr with
    | NULL => rfl
    | node dv dl dr dh =>
      have inner := left.2.2
      simp [doubleRotateWithLeft, singleRotateWithLeft, singleRotateWithRight, double, setHeight,
        mk, deep_eq left.2.1, deep_eq inner.2.1, deep_eq inner.2.2, deep_eq right]

theorem ins_left_eq (go : value < v) (below : insNode value l = some l')
    (left : HeightsStored l') (right : HeightsStored r) : insNode value (node v l r h) =
      if trueHeight l' - trueHeight r = 2 then
        if value < rootValue l' then single v l' r else double v l' r
      else some (mk v l' r) := by
  simp only [insNode, go, if_true, below, Option.bind_some, deep_eq left, deep_eq right]
  split
  · rename_i tall
    cases l' with
    | NULL =>
      have low := height_low r
      simp only [trueHeight] at tall
      omega
    | node lv ll lr lh =>
      by_cases near : value < lv
      · simp only [rootValue, near, if_true]
        exact single_rotate_eq left right
      · simp only [rootValue, near, if_false]
        exact double_rotate_eq left right
  · exact set_height_eq left right

theorem ins_right_eq (go : v < value) (below : insNode value r = some r')
    (left : HeightsStored l) (right : HeightsStored r') : insNode value (node v l r h) =
      if trueHeight r' - trueHeight l = 2 then
        if value > rootValue r' then single v l r' else double v l r'
      else some (mk v l r') := by
  have other : ¬ value < v := by omega
  simp only [insNode, other, gt_iff_lt, go, if_true, if_false, below, Option.bind_some,
    deep_eq left, deep_eq right]
  split
  · rename_i tall
    cases r' with
    | NULL =>
      have low := height_low l
      simp only [trueHeight] at tall
      omega
    | node rv rl rr rh =>
      by_cases far : rv < value
      · simp only [rootValue, far, if_true]
        exact single_rotate_eq left right
      · simp only [rootValue, far, if_false]
        exact double_rotate_eq left right
  · exact set_height_eq left right

theorem ins_here (left : HeightsStored l) (right : HeightsStored r) :
    insNode v (node v l r h) = some (mk v l r) := by
  have irreflexive : ¬ v < v := by omega
  simp only [insNode, gt_iff_lt, irreflexive, if_false]
  exact set_height_eq left right

theorem single_keeps (made : single v l r = some t) (left : HeightsStored l)
    (right : HeightsStored r) :
    HeightsStored t ∧ inorder t = inorder l ++ v :: inorder r := by
  cases l with
  | NULL => cases made
  | node lv ll lr lh =>
    cases made
    have parts := stored_node.mp left
    simp [inorder, parts, right]

theorem double_keeps (made : double v l r = some t) (left : HeightsStored l)
    (right : HeightsStored r) :
    HeightsStored t ∧ inorder t = inorder l ++ v :: inorder r := by
  cases l with
  | NULL => cases made
  | node lv ll lr lh =>
    cases lr with
    | NULL => cases made
    | node dv dl dr dh =>
      cases made
      have parts := stored_node.mp left
      have inner := stored_node.mp parts.2.2
      simp [inorder, parts.2.1, inner, right]

/-- Whatever insNode does above the recursive call, the heights stored and the values are
    those of the two subtrees. -/
theorem rebuilt_keeps {tall small : Prop} [Decidable tall] [Decidable small]
    (made : (if tall then if small then single v l r else double v l r else some (mk v l r)) =
      some t) (left : HeightsStored l) (right : HeightsStored r) :
    HeightsStored t ∧ inorder t = inorder l ++ v :: inorder r := by
  split at made
  · split at made
    · exact single_keeps made left right
    · exact double_keeps made left right
  · cases made
    exact ⟨stored_mk.mpr ⟨left, right⟩, rfl⟩

theorem ins_level (stored : HeightsStored (node v l r h))
    (recur_left : ∀ t, insNode value l = some t → HeightsStored t)
    (recur_right : ∀ t, insNode value r = some t → HeightsStored t)
    (ran : insNode value (node v l r h) = some t) : HeightsStored t ∧
      ((value < v ∧ ∃ l', insNode value l = some l' ∧ inorder t = inorder l' ++ v :: inorder r) ∨
      (v < value ∧ ∃ r', insNode value r = some r' ∧ inorder t = inorder l ++ v :: inorder r') ∨
      (value = v ∧ inorder t = inorder l ++ v :: inorder r)) := by
  have left := stored.2.1
  have right := stored.2.2
  rcases lt_trichotomy value v with go | here | go
  · cases below : insNode value l with
    | none => simp [insNode, go, below] at ran
    | some l' =>
      rw [ins_left_eq go below (recur_left l' below) right] at ran
      have kept := rebuilt_keeps ran (recur_left l' below) right
      exact ⟨kept.1, .inl ⟨go, l', rfl, kept.2⟩⟩
  · subst here
    rw [ins_here left right] at ran
    cases ran
    exact ⟨stored_mk.mpr ⟨left, right⟩, .inr (.inr ⟨rfl, rfl⟩)⟩
  · have other : ¬ value < v := by omega
    cases below : insNode value r with
    | none => simp [insNode, go, other, below] at ran
    | some r' =>
      rw [ins_right_eq go below left (recur_right r' below)] at ran
      have kept := rebuilt_keeps ran left (recur_right r' below)
      exact ⟨kept.1, .inr (.inl ⟨go, r', rfl, kept.2⟩)⟩

theorem ins_stored (stored : HeightsStored t) (ran : insNode value t = some t') :
    HeightsStored t' := by
  induction t generalizing t' with
  | NULL =>
    cases ran
    simp [HeightsStored, EveryNode, trueHeight, treeDeep]
  | node v l r h il ir =>
    exact (ins_level stored (fun _ => il stored.2.1) (fun _ => ir stored.2.2) ran).1

end Rotations

section Values
variable {value v h : Int} {t t' l r : AvlTree}

theorem sorted_middle (a b : List Int) (v : Int) : (a ++ v :: b).Pairwise (· < ·) ↔
    a.Pairwise (· < ·) ∧ b.Pairwise (· < ·) ∧ (∀ x ∈ a, x < v) ∧ ∀ x ∈ b, v < x := by
  rw [List.pairwise_append, List.pairwise_cons]
  constructor
  · rintro ⟨left, ⟨above, right⟩, cross⟩
    exact ⟨left, right, fun x inside => cross x inside v (by simp), above⟩
  · rintro ⟨left, right, below, above⟩
    refine ⟨left, ⟨above, right⟩, ?_⟩
    intro x first y last
    rcases List.mem_cons.mp last with rfl | last
    · exact below x first
    · exact (below x first).trans (above y last)

theorem ins_values (stored : HeightsStored t) (sorted : (inorder t).Pairwise (· < ·))
    (ran : insNode value t = some t') :
    (inorder t').Pairwise (· < ·) ∧ ∀ x, x ∈ inorder t' ↔ x = value ∨ x ∈ inorder t := by
  induction t generalizing t' with
  | NULL =>
    cases ran
    simp [inorder]
  | node v l r h il ir =>
    have parts := (sorted_middle _ _ _).mp sorted
    have level := ins_level stored (fun _ => ins_stored stored.2.1)
      (fun _ => ins_stored stored.2.2) ran
    rcases level.2 with ⟨go, l', below, order⟩ | ⟨go, r', below, order⟩ | ⟨here, order⟩
    · have into := il stored.2.1 parts.1 below
      rw [order, sorted_middle]
      constructor
      · refine ⟨into.1, parts.2.1, ?_, parts.2.2.2⟩
        intro x inside
        rcases (into.2 x).mp inside with rfl | old
        · exact go
        · exact parts.2.2.1 x old
      · intro x
        simp only [List.mem_append, List.mem_cons, into.2 x, inorder, or_assoc]
    · have into := ir stored.2.2 parts.2.1 below
      rw [order, sorted_middle]
      constructor
      · refine ⟨parts.1, into.1, parts.2.2.1, ?_⟩
        intro x inside
        rcases (into.2 x).mp inside with rfl | old
        · exact go
        · exact parts.2.2.2 x old
      · intro x
        simp only [List.mem_append, List.mem_cons, into.2 x, inorder, or_left_comm]
    · subst here
      rw [order]
      refine ⟨sorted, ?_⟩
      intro x
      simp only [inorder, List.mem_append, List.mem_cons, or_left_comm, or_self_left]

end Values

/-- A tree that has just grown through value: its root leans to the side of value. -/
def Leans (value : Int) : AvlTree → Prop
  | NULL => False
  | node v l r _ =>
    (value < v → trueHeight l = trueHeight r + 1) ∧
      (v < value → trueHeight r = trueHeight l + 1) ∧
      (value = v → trueHeight l = -1 ∧ trueHeight r = -1)

/-- What an insertion that avoids the wrong branch does to a balanced tree. -/
structure Grown (value : Int) (t t' : AvlTree) : Prop where
  balanced : Balanced t'
  grows : Grows value t → trueHeight t' = trueHeight t + 1 ∧ Leans value t'
  stays : ¬ Grows value t → trueHeight t' = trueHeight t

section Growth
variable {value v h : Int} {t t' l r l' : AvlTree}

@[simp] theorem leans_mk : Leans value (mk v l r) ↔
    (value < v → trueHeight l = trueHeight r + 1) ∧
      (v < value → trueHeight r = trueHeight l + 1) ∧
      (value = v → trueHeight l = -1 ∧ trueHeight r = -1) := Iff.rfl

theorem left_rotations (left : Balanced l') (right : Balanced r) (leans : Leans value l')
    (tall : trueHeight l' = trueHeight r + 2) :
    ∃ t', (if value < rootValue l' then single v l' r else double v l' r) = some t' ∧
      Balanced t' ∧ trueHeight t' = trueHeight l' := by
  have low := height_low r
  cases l' with
  | NULL => exact leans.elim
  | node lv ll lr lh =>
    have parts := balanced_node.mp left
    simp only [height_node] at tall
    rcases lt_trichotomy value lv with go | here | go
    · have side := leans.1 go
      refine ⟨mk lv ll (mk v lr r), by simp [rootValue, single, go], ?_, ?_⟩
      · simp only [balanced_mk, height_mk, parts.2.1, parts.2.2, right, true_and, and_true]
        omega
      · simp only [height_mk, height_node]
        omega
    · have leaf := leans.2.2 here
      omega
    · have side := leans.2.1 go
      have other : ¬ value < lv := by omega
      cases lr with
      | NULL =>
        have lowest := height_low ll
        simp only [trueHeight] at side
        omega
      | node dv dl dr dh =>
        have inner := balanced_node.mp parts.2.2
        simp only [height_node] at side tall parts
        refine ⟨mk dv (mk lv ll dl) (mk v dr r), by simp [rootValue, double, other], ?_, ?_⟩
        · simp only [balanced_mk, height_mk, parts.2.1, inner.2.1, inner.2.2, right, and_true]
          omega
        · simp only [height_mk, height_node]
          omega

theorem grown_left (go : value < v) (stored : HeightsStored (node v l r h))
    (balanced : Balanced (node v l r h)) (below : insNode value l = some l')
    (into : Grown value l l') :
    ∃ t', insNode value (node v l r h) = some t' ∧ Grown value (node v l r h) t' := by
  have sides := (balanced_node.mp balanced).1
  have right := (balanced_node.mp balanced).2.2
  rw [ins_left_eq go below (ins_stored stored.2.1 below) stored.2.2]
  by_cases grew : Grows value l
  · have taller := into.grows grew
    by_cases tall : trueHeight l' - trueHeight r = 2
    · obtain ⟨t', made, kept, height⟩ :=
        @left_rotations value v r l' into.balanced right taller.2 (by omega)
      refine ⟨t', by rw [if_pos tall, made], kept, ?_, ?_⟩
      · intro grows
        simp only [Grows, go, if_true] at grows
        omega
      · intro _
        simp only [height_node]
        omega
    · refine ⟨mk v l' r, by rw [if_neg tall], ?_, ?_, ?_⟩
      · simp only [balanced_mk, into.balanced, right, and_true]
        omega
      · intro grows
        simp only [Grows, go, if_true] at grows
        simp only [height_mk, height_node, leans_mk]
        omega
      · intro stays
        simp only [Grows, go, if_true, grew, and_true] at stays
        simp only [height_mk, height_node]
        omega
  · have same := into.stays grew
    have flat : ¬ trueHeight l' - trueHeight r = 2 := by omega
    refine ⟨mk v l' r, by rw [if_neg flat], ?_, ?_, ?_⟩
    · simp only [balanced_mk, into.balanced, right, and_true]
      omega
    · intro grows
      simp only [Grows, go, if_true] at grows
      exact absurd grows.2 grew
    · intro _
      simp only [height_mk, height_node, same]

theorem grown_right (go : v < value) {r' : AvlTree} (stored : HeightsStored (node v l r h))
    (balanced : Balanced (node v l r h)) (below : insNode value r = some r')
    (into : Grown value r r')
    (light : ¬ (trueHeight r = trueHeight l + 1 ∧ Grows value r)) :
    ∃ t', insNode value (node v l r h) = some t' ∧ Grown value (node v l r h) t' := by
  have other : ¬ value < v := by omega
  have sides := (balanced_node.mp balanced).1
  have left := (balanced_node.mp balanced).2.1
  rw [ins_right_eq go below stored.2.1 (ins_stored stored.2.2 below)]
  by_cases grew : Grows value r
  · have taller := into.grows grew
    have flat : ¬ trueHeight r' - trueHeight l = 2 := by
      intro tall
      exact light ⟨by omega, grew⟩
    refine ⟨mk v l r', by rw [if_neg flat], ?_, ?_, ?_⟩
    · simp only [balanced_mk, into.balanced, left, and_true]
      omega
    · intro grows
      simp only [Grows, other, gt_iff_lt, go, if_true, if_false] at grows
      simp only [height_mk, height_node, leans_mk]
      omega
    · intro stays
      simp only [Grows, other, gt_iff_lt, go, if_true, if_false, grew, and_true] at stays
      simp only [height_mk, height_node]
      omega
  · have same := into.stays grew
    have flat : ¬ trueHeight r' - trueHeight l = 2 := by omega
    refine ⟨mk v l r', by rw [if_neg flat], ?_, ?_, ?_⟩
    · simp only [balanced_mk, into.balanced, left, and_true]
      omega
    · intro grows
      simp only [Grows, other, gt_iff_lt, go, if_true, if_false] at grows
      exact absurd grows.2 grew
    · intro _
      simp only [height_mk, height_node, same]

/-- Without the wrong branch insNode is AVL insertion. -/
theorem ins_grown (stored : HeightsStored t) (balanced : Balanced t)
    (avoids : ¬ RightHeavy value t) :
    ∃ t', insNode value t = some t' ∧ Grown value t t' := by
  induction t with
  | NULL =>
    refine ⟨node value NULL NULL 0, rfl, ?_, ?_, ?_⟩
    · simp [Balanced, EveryNode, trueHeight]
    · intro _
      simp [Leans, trueHeight]
    · intro never
      exact absurd trivial never
  | node v l r h il ir =>
    have parts := (balanced_node.mp balanced).2
    rcases lt_trichotomy value v with go | here | go
    · simp only [RightHeavy, go, if_true] at avoids
      obtain ⟨l', below, into⟩ := il stored.2.1 parts.1 avoids
      exact grown_left go stored balanced below into
    · subst here
      refine ⟨mk value l r, ins_here stored.2.1 stored.2.2, balanced, ?_, ?_⟩
      · intro grows
        simp [Grows] at grows
      · exact fun _ => rfl
    · have other : ¬ value < v := by omega
      simp only [RightHeavy, other, gt_iff_lt, go, if_true, if_false, not_or] at avoids
      obtain ⟨r', below, into⟩ := ir stored.2.2 parts.2 avoids.1
      exact grown_right go stored balanced below into avoids.2

end Growth

end UC.Avl
