import UC.SearchTree.Model

/- Deletion: from which search trees delNode takes just one value. -/
namespace UC.SearchTree
open PSearchTree

/-- What a call of delNode is to do. -/
def Deletes (v : Int) (tree : PSearchTree) : Prop :=
  ∃ after, delNode v tree = some after ∧ IsSearchTree after ∧
    ∀ x, x ∈ values after ↔ x ∈ values tree ∧ x ≠ v

/-- A node without a left child. -/
def noLeft : PSearchTree → Prop
  | node _ null _ => True
  | _ => False

/-- The trees that delNode is right on: the empty one; and those with the value at the root,
    where the root has only a left child, or only a right child that has no left one, or both
    children and a right child without a left one but with a right one of that kind. -/
def Handles (v : Int) : PSearchTree → Prop
  | null => True
  | freed => False
  | node value left right => value = v ∧
      match left, right with
      | null, right => noLeft right
      | _, null => True
      | _, node _ null behind => noLeft behind
      | _, _ => False

/-- What delNode does with a node, case by case. -/
inductive Deleted (v : Int) : PSearchTree → PSearchTree → Prop where
  | right {w : Int} {l r after : PSearchTree} (greater : w < v)
      (run : delNode v r = some after) : Deleted v (node w l r) after
  | left {w : Int} {l r after : PSearchTree} (less : v < w)
      (run : delNode v l = some after) : Deleted v (node w l r) after
  | both {l r min r' : PSearchTree} {least : Int} (some_left : l ≠ null)
      (found : findMin r = some min) (read : SearchTree.value min = some least)
      (rest : delNode least r = some r') : Deleted v (node v l r) (node least l r')
  | only_right {r below : PSearchTree} (below_right : SearchTree.left r = some below) :
      Deleted v (node v null r) (if below ≠ null then below else r)
  | only_left {l : PSearchTree} (some_left : l ≠ null) : Deleted v (node v l null) l
  | leaf : Deleted v (node v null null) freed

theorem del_node_deleted {v w : Int} {l r after : PSearchTree}
    (run : delNode v (node w l r) = some after) : Deleted v (node w l r) after := by
  rw [delNode] at run
  split at run
  case isTrue greater => exact .right greater run
  case isFalse not_greater =>
    split at run
    case isTrue less => exact .left less run
    case isFalse not_less =>
      have same : w = v := by omega
      subst same
      split at run
      case isTrue both =>
        simp only [Option.bind_eq_bind, Option.bind_eq_some_iff] at run
        obtain ⟨min, found, least, read, r', rest, result⟩ := run
        cases result
        exact .both both.2 found read rest
      case isFalse not_both =>
        split at run
        case isTrue some_right =>
          have none_left : l = null := by
            by_contra some_left
            exact not_both ⟨some_right, some_left⟩
          subst none_left
          simp only [Option.bind_eq_bind, Option.bind_eq_some_iff] at run
          obtain ⟨below, read, result⟩ := run
          cases result
          exact .only_right read
        case isFalse none_right =>
          have none_right : r = null := not_not.mp none_right
          subst none_right
          split at run
          case isTrue some_left =>
            cases run
            exact .only_left some_left
          case isFalse none_left =>
            have none_left : l = null := not_not.mp none_left
            subst none_left
            cases run
            exact .leaf

theorem left_values {tree below : PSearchTree} (read : SearchTree.left tree = some below) :
    ∀ x ∈ values below, x ∈ values tree := by
  cases tree with
  | node w l r =>
    cases read
    exact fun x mem => mem_values.mpr (.inl mem)
  | null => simp [SearchTree.left] at read
  | freed => simp [SearchTree.left] at read

theorem find_min_value {tree min : PSearchTree} {least : Int} (found : findMin tree = some min)
    (read : SearchTree.value min = some least) : least ∈ values tree := by
  induction tree with
  | null =>
    cases found
    simp [SearchTree.value] at read
  | freed => simp [findMin] at found
  | node w l r leftIh _ =>
    rw [findMin] at found
    split at found
    · cases found
      cases read
      exact mem_values.mpr (.inr (.inl rfl))
    · exact mem_values.mpr (.inl (leftIh found))

theorem del_node_values {v : Int} {tree after : PSearchTree} (run : delNode v tree = some after) :
    ∀ x ∈ values after, x ∈ values tree := by
  induction tree generalizing v after with
  | null =>
    cases run
    exact fun x mem => mem
  | freed => simp [delNode] at run
  | node w l r leftIh rightIh =>
    intro x mem
    rw [mem_values]
    cases del_node_deleted run with
    | right _ run => exact .inr (.inr (rightIh run x mem))
    | left _ run => exact .inl (leftIh run x mem)
    | both _ found read rest =>
      rw [mem_values] at mem
      rcases mem with low | least | high
      · exact .inl low
      · exact .inr (.inr (least ▸ find_min_value found read))
      · exact .inr (.inr (rightIh rest x high))
    | only_right read =>
      split at mem
      · exact .inr (.inr (left_values read x mem))
      · exact .inr (.inr mem)
    | only_left _ => exact .inl mem
    | leaf => simp [values] at mem

/-- A right child whose left child is returned in its place is lost itself. -/
theorem only_right_kept {r below : PSearchTree} (ordered : IsSearchTree r) (some_right : r ≠ null)
    (read : SearchTree.left r = some below)
    (kept : ∀ x ∈ values r, x ∈ values (if below ≠ null then below else r)) : noLeft r := by
  cases r with
  | null => exact absurd rfl some_right
  | freed => exact ordered.elim
  | node w l r' =>
    cases read
    by_cases none : below = null
    · subst none
      trivial
    · have mem := kept w (mem_values.mpr (.inr (.inl rfl)))
      rw [if_pos none] at mem
      exact absurd (ordered.1 w mem) (Int.lt_irrefl w)

/-- A right child with a left one is lost when the least value is taken from under it. -/
theorem least_on_the_left {least w : Int} {l r r' : PSearchTree}
    (ordered : IsSearchTree (node w l r)) (less : least < w)
    (rest : delNode least (node w l r) = some r') : w ∉ values r' := by
  intro mem
  cases del_node_deleted rest with
  | left _ run => exact absurd (ordered.1 w (del_node_values run w mem)) (Int.lt_irrefl w)
  | right greater _ => omega
  | both => omega
  | only_right => omega
  | only_left => omega
  | leaf => omega

theorem both_handles {v least : Int} {l r min r' : PSearchTree}
    (ordered : IsSearchTree (node v l r)) (some_left : l ≠ null) (found : findMin r = some min)
    (read : SearchTree.value min = some least) (rest : delNode least r = some r')
    (good : IsSearchTree r') (kept : ∀ x ∈ values r, x ∈ values (node least l r')) :
    Handles v (node v l r) := by
  obtain ⟨low, high, leftOrdered, rightOrdered⟩ := ordered
  cases r with
  | null =>
    cases found
    simp [SearchTree.value] at read
  | freed => exact rightOrdered.elim
  | node w rl rr =>
    have above := high w (mem_values.mpr (.inr (.inl rfl)))
    rw [findMin] at found
    split at found
    case isTrue none =>
      subst none
      cases found
      cases read
      have behind : noLeft rr := by
        cases del_node_deleted rest with
        | right greater _ => omega
        | left less _ => omega
        | both some_left _ _ _ => exact absurd rfl some_left
        | only_left some_left => exact absurd rfl some_left
        | leaf => exact good.elim
        | only_right read =>
          have some_right : rr ≠ null := by
            intro none
            simp [none, SearchTree.left] at read
          apply only_right_kept rightOrdered.2.2.2 some_right read
          intro x inside
          have far := rightOrdered.2.1 x inside
          rcases mem_values.mp (kept x (mem_values.mpr (.inr (.inr inside)))) with old | same | new
          · have near := low x old
            omega
          · omega
          · exact new
      cases l with
      | null => exact absurd rfl some_left
      | freed => exact leftOrdered.elim
      | node x a b => exact ⟨rfl, behind⟩
    case isFalse some_below =>
      have less := rightOrdered.1 least (find_min_value found read)
      rcases mem_values.mp (kept w (mem_values.mpr (.inr (.inl rfl)))) with old | same | new
      · have near := low w old
        omega
      · omega
      · exact absurd new (least_on_the_left rightOrdered less rest)

theorem deletes_handles {v : Int} {tree : PSearchTree} (ordered : IsSearchTree tree)
    (deletes : Deletes v tree) : Handles v tree := by
  cases tree with
  | null => trivial
  | freed => exact ordered.elim
  | node w l r =>
    obtain ⟨after, run, good, mem⟩ := deletes
    obtain ⟨low, high, leftOrdered, rightOrdered⟩ := ordered
    have root : w ≠ v → w ∈ values after := fun other =>
      (mem w).mpr ⟨mem_values.mpr (.inr (.inl rfl)), other⟩
    have upper : ∀ x ∈ values r, w = v → x ∈ values after := fun x inside same =>
      (mem x).mpr ⟨mem_values.mpr (.inr (.inr inside)), by have := high x inside; omega⟩
    cases del_node_deleted run with
    | right greater run =>
      have lost := high w (del_node_values run w (root (by omega)))
      omega
    | left less run =>
      have lost := low w (del_node_values run w (root (by omega)))
      omega
    | leaf => exact good.elim
    | only_left some_left =>
      cases l with
      | null => exact absurd rfl some_left
      | freed => exact leftOrdered.elim
      | node x a b => exact ⟨rfl, trivial⟩
    | only_right read =>
      cases r with
      | null => simp [SearchTree.left] at read
      | freed => exact rightOrdered.elim
      | node x a b =>
        refine ⟨rfl, only_right_kept rightOrdered (by simp) read ?_⟩
        exact fun y inside => upper y inside rfl
    | both some_left found read rest =>
      exact both_handles ⟨low, high, leftOrdered, rightOrdered⟩ some_left found read rest
        good.2.2.2 fun y inside => upper y inside rfl

theorem no_left_node {tree : PSearchTree} (shape : noLeft tree) :
    ∃ w r, tree = node w null r := by
  cases tree with
  | null => exact shape.elim
  | freed => exact shape.elim
  | node w l r =>
    cases l with
    | null => exact ⟨w, r, rfl⟩
    | node => exact shape.elim
    | freed => exact shape.elim

theorem handles_cases {v : Int} {tree : PSearchTree} (ordered : IsSearchTree tree)
    (handles : Handles v tree) :
    tree = null ∨ (∃ b c, tree = node v null (node b null c)) ∨
      (∃ l, l ≠ null ∧ tree = node v l null) ∨
      ∃ l m b c, l ≠ null ∧ tree = node v l (node m null (node b null c)) := by
  cases tree with
  | null => exact .inl rfl
  | freed => exact handles.elim
  | node w l r =>
    obtain ⟨same, shape⟩ := handles
    subst same
    cases l with
    | freed => exact ordered.2.2.1.elim
    | null =>
      obtain ⟨b, c, rfl⟩ := no_left_node shape
      exact .inr (.inl ⟨b, c, rfl⟩)
    | node a la ra =>
      cases r with
      | freed => exact ordered.2.2.2.elim
      | null => exact .inr (.inr (.inl ⟨_, by simp, rfl⟩))
      | node m below behind =>
        cases below with
        | node => exact shape.elim
        | freed => exact shape.elim
        | null =>
          obtain ⟨b, c, rfl⟩ := no_left_node shape
          exact .inr (.inr (.inr ⟨_, m, b, c, by simp, rfl⟩))

theorem values_but_root {v : Int} {l r : PSearchTree} (ordered : IsSearchTree (node v l r))
    (x : Int) : x ∈ values (node v l r) ∧ x ≠ v ↔ x ∈ values l ∨ x ∈ values r := by
  rw [mem_values]
  constructor
  · intro both
    rcases both with ⟨low | same | high, other⟩
    · exact .inl low
    · exact absurd same other
    · exact .inr high
  · intro either
    cases either with
    | inl low =>
      have less := ordered.1 x low
      exact ⟨.inl low, by omega⟩
    | inr high =>
      have less := ordered.2.1 x high
      exact ⟨.inr (.inr high), by omega⟩

theorem handles_deletes {v : Int} {tree : PSearchTree} (ordered : IsSearchTree tree)
    (handles : Handles v tree) : Deletes v tree := by
  rcases handles_cases ordered handles with empty | onlyRight | onlyLeft | both
  · subst empty
    exact ⟨null, rfl, trivial, fun x => by simp [values]⟩
  · obtain ⟨b, c, rfl⟩ := onlyRight
    refine ⟨node b null c, by simp [delNode, SearchTree.left], ordered.2.2.2, ?_⟩
    intro x
    rw [values_but_root ordered]
    simp [values]
  · obtain ⟨l, some_left, rfl⟩ := onlyLeft
    refine ⟨l, by simp [delNode, some_left], ordered.2.2.1, ?_⟩
    intro x
    rw [values_but_root ordered]
    simp [values]
  · obtain ⟨l, m, b, c, some_left, rfl⟩ := both
    refine ⟨node m l (node b null c), ?_, ?_, ?_⟩
    · simp [delNode, SearchTree.left, findMin, SearchTree.value, some_left]
    · obtain ⟨low, high, leftGood, _, behind, _, rightGood⟩ := ordered
      have above := high m (mem_values.mpr (.inr (.inl rfl)))
      exact ⟨fun x mem => Int.lt_trans (low x mem) above, behind, leftGood, rightGood⟩
    · intro x
      rw [values_but_root ordered, mem_values, mem_values]
      simp [values]

/-- Deletion is right on these search trees and on no others. -/
theorem del_node_iff {v : Int} {tree : PSearchTree} (ordered : IsSearchTree tree) :
    Deletes v tree ↔ Handles v tree :=
  ⟨deletes_handles ordered, handles_deletes ordered⟩

/-- 5 with 3 on its left, and on its right 8, which has only 9 behind it. -/
def slanted : PSearchTree := node 5 (node 3 null null) (node 8 null (node 9 null null))

theorem slanted_deletes_iff : Deletes 5 slanted ↔ Handles 5 slanted := del_node_iff (by decide)

example : delNode 5 slanted = some (node 8 (node 3 null null) (node 9 null null)) := by decide

/-- A value that is not there: the tree is lost. -/
theorem absent_value_loses_tree : ¬ Deletes 7 (node 5 null null) := by
  intro deletes
  obtain ⟨after, run, _, mem⟩ := deletes
  cases (by simpa [delNode] using run : null = after)
  have kept := (mem 5).mpr (by decide)
  simp [values] at kept

end UC.SearchTree
