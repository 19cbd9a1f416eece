import UC.Avl.Insert

/- What the wrong rotations leave. Further up at most three nodes are turned, and in every
   case a node out of balance stays behind; so insertions keep the tree exactly as long as they
   avoid the wrong branch. -/
namespace UC.Avl
open AvlTree UC.Histories

/-- The subtree insNode returns above a wrong rotation. pre is the height before the call;
    the nodes named are those that the next level up may still turn. -/
inductive Wrecked (value pre : Int) : AvlTree → Prop where
  | left {v l r h} (bad : ¬ Balanced l) : Wrecked value pre (node v l r h)
  | below {v l r h x rl rr rh} (is : r = node x rl rr rh) (bad : ¬ Balanced rl ∨ ¬ Balanced rr) :
      Wrecked value pre (node v l r h)
  /-- Just behind the wrong rotation at n. -/
  | fresh {c n ll lr r nh h} (k : Int) (go : c < value) (right : n < value) (before : pre = k + 2)
      (low : trueHeight lr ≤ k - 1)
      (top : trueHeight ll ≤ k - 1 ∨ trueHeight lr + 2 ≤ trueHeight ll)
      (tall : trueHeight r = k + 2) : Wrecked value pre (node c ll (node n lr r nh) h)
  /-- The double rotation of a left branch has brought n to the top. -/
  | top {n p l m s ph h} (k : Int) (go : n < value) (before : k + 3 ≤ pre)
      (low : trueHeight l ≤ k) (tall : k + 2 ≤ trueHeight m) :
      Wrecked value pre (node n l (node p m s ph) h)
  /-- That node has become a right child. -/
  | under {a n s l p nh h} (k : Int) (go : a < value) (low : trueHeight l ≤ k)
      (side : k + 2 ≤ trueHeight s) (tall : k + 2 ≤ trueHeight p) :
      Wrecked value pre (node a s (node n l p nh) h)

section Wreck
variable {value pre v h : Int} {t t' l r l' r' : AvlTree}

theorem unbalanced_node (apart : trueHeight l - trueHeight r ≥ 2 ∨ trueHeight r - trueHeight l ≥ 2) :
    ¬ Balanced (node v l r h) := by
  intro balanced
  have sides := balanced.1
  omega

theorem unbalanced_left (bad : ¬ Balanced l) : ¬ Balanced (node v l r h) :=
  fun balanced => bad balanced.2.1

theorem unbalanced_right (bad : ¬ Balanced r) : ¬ Balanced (node v l r h) :=
  fun balanced => bad balanced.2.2

theorem wrecked_unbalanced (wrecked : Wrecked value pre t) : ¬ Balanced t := by
  cases wrecked with
  | left bad => exact unbalanced_left bad
  | below is bad =>
    subst is
    apply unbalanced_right
    rcases bad with bad | bad
    · exact unbalanced_left bad
    · exact unbalanced_right bad
  | fresh k go right before low top tall =>
    apply unbalanced_right
    apply unbalanced_node
    omega
  | top k go before low tall =>
    apply unbalanced_node
    simp only [height_node]
    omega
  | under k go low side tall =>
    apply unbalanced_right
    apply unbalanced_node
    omega

/-- A rotation over a wrecked left subtree leaves a wreck, if it ends. -/
theorem wrecked_rotated_left (wrecked : Wrecked value (trueHeight l) l')
    (turned : (if value < rootValue l' then single v l' r else double v l' r) = some t') :
    Wrecked value (trueHeight (node v l r h)) t' := by
  cases wrecked with
  | @left x ll lr lh bad =>
    by_cases near : value < x
    · simp only [rootValue, near, if_true, single, Option.some.injEq] at turned
      exact turned ▸ .left bad
    · simp only [rootValue, near, if_false] at turned
      cases lr with
      | NULL => cases turned
      | node dv dl dr dh => exact Option.some.inj turned ▸ .left (unbalanced_left bad)
  | @below x ll lr lh y yl yr yh is bad =>
    subst is
    by_cases near : value < x
    · simp only [rootValue, near, if_true, single, Option.some.injEq] at turned
      subst turned
      apply Wrecked.below rfl
      left
      rcases bad with bad | bad
      · exact unbalanced_left bad
      · exact unbalanced_right bad
    · simp only [rootValue, near, if_false, double, Option.some.injEq] at turned
      subst turned
      rcases bad with bad | bad
      · exact .left (unbalanced_right bad)
      · exact .below rfl (.inl bad)
  | @fresh c n ll lr m nh lh k go right before low top tall =>
    have far : ¬ value < c := by omega
    simp only [rootValue, far, if_false, double, Option.some.injEq] at turned
    subst turned
    by_cases skew : trueHeight lr + 2 ≤ trueHeight ll
    · exact .left (unbalanced_node (.inl (by omega)))
    · refine .top k right ?_ ?_ ?_
      · simp only [height_node]
        omega
      · simp only [height_mk]
        omega
      · omega
  | @top n p ll m s ph lh k go before low tall =>
    have far : ¬ value < n := by omega
    simp only [rootValue, far, if_false, double, Option.some.injEq] at turned
    exact turned ▸ .left (unbalanced_node (.inr (by omega)))
  | @under a n s ll p nh lh k go low side tall =>
    have far : ¬ value < a := by omega
    simp only [rootValue, far, if_false, double, Option.some.injEq] at turned
    exact turned ▸ .left (unbalanced_node (.inl (by omega)))

theorem wrecked_turned_right {small : Prop} [Decidable small] (bad : ¬ Balanced r')
    (turned : (if small then single v l r' else double v l r') = some t') :
    Wrecked value pre t' := by
  split at turned
  · cases l with
    | NULL => cases turned
    | node lv ll lr lh => exact Option.some.inj turned ▸ .below rfl (.inr bad)
  · cases l with
    | NULL => cases turned
    | node lv ll lr lh =>
      cases lr with
      | NULL => cases turned
      | node dv dl dr dh => exact Option.some.inj turned ▸ .below rfl (.inr bad)

theorem wrecked_placed_right (go : v < value) (wrecked : Wrecked value (trueHeight r) r')
    (side : trueHeight r - trueHeight l ≤ 1) : Wrecked value pre (mk v l r') := by
  cases wrecked with
  | left bad => exact .below rfl (.inl bad)
  | below is bad =>
    subst is
    apply Wrecked.below rfl
    right
    rcases bad with bad | bad
    · exact unbalanced_left bad
    · exact unbalanced_right bad
  | fresh k c_below n_below before low top tall =>
    exact .below rfl (.inr (unbalanced_node (.inr (by omega))))
  | top k n_below before low tall =>
    refine .under k go low (by omega) ?_
    simp only [height_node]
    omega
  | under k a_below low side tall =>
    exact .below rfl (.inr (unbalanced_node (.inr (by omega))))

theorem wrong_rotation_wrecks {small : Prop} [Decidable small] (go : v < value)
    (balanced : Balanced (node v l r h)) (heavy : trueHeight r = trueHeight l + 1)
    (smaller : ∀ x ∈ inorder l, x < v) (tall : trueHeight r' = trueHeight l + 2)
    (turned : (if small then single v l r' else double v l r') = some t') :
    Wrecked value (trueHeight (node v l r h)) t' := by
  have left := (balanced_node.mp balanced).2.1
  have pre : trueHeight (node v l r h) = trueHeight l + 2 := by
    simp only [height_node]
    omega
  rw [pre]
  split at turned
  · cases l with
    | NULL => cases turned
    | node lv ll lr lh =>
      have sides := (balanced_node.mp left).1
      have root : lv < v := smaller lv (by simp [inorder])
      refine Option.some.inj turned ▸ .fresh _ (root.trans go) go rfl ?_ ?_ tall
      · simp only [height_node]
        omega
      · simp only [height_node]
        omega
  · cases l with
    | NULL => cases turned
    | node lv ll lr lh =>
      cases lr with
      | NULL => cases turned
      | node dv dl dr dh =>
        have sides := (balanced_node.mp left).1
        have root : dv < v := smaller dv (by simp [inorder])
        simp only [height_node] at sides
        refine Option.some.inj turned ▸ .fresh _ (root.trans go) go rfl ?_ ?_ tall
        · simp only [height_node]
          omega
        · simp only [height_node, height_mk]
          omega

/-- An insertion that takes the wrong branch ends in a NULL pointer or leaves a wreck. -/
theorem right_heavy_wrecks (stored : HeightsStored t) (balanced : Balanced t)
    (sorted : (inorder t).Pairwise (· < ·)) (heavy : RightHeavy value t)
    (ran : insNode value t = some t') : Wrecked value (trueHeight t) t' := by
  induction t generalizing t' with
  | NULL => exact heavy.elim
  | node v l r h il ir =>
    have sides := (balanced_node.mp balanced).1
    have parts := (balanced_node.mp balanced).2
    have order := (sorted_middle _ _ _).mp sorted
    rcases lt_trichotomy value v with go | here | go
    · simp only [RightHeavy, go, if_true] at heavy
      cases below : insNode value l with
      | none => simp [insNode, go, below] at ran
      | some l' =>
        have wrecked := il stored.2.1 parts.1 order.1 heavy below
        rw [ins_left_eq go below (ins_stored stored.2.1 below) stored.2.2] at ran
        split at ran
        · exact wrecked_rotated_left wrecked ran
        · exact Option.some.inj ran ▸ .left (wrecked_unbalanced wrecked)
    · subst here
      simp [RightHeavy] at heavy
    · have other : ¬ value < v := by omega
      simp only [RightHeavy, other, gt_iff_lt, go, if_true, if_false] at heavy
      cases below : insNode value r with
      | none => simp [insNode, go, other, below] at ran
      | some r' =>
        rw [ins_right_eq go below stored.2.1 (ins_stored stored.2.2 below)] at ran
        by_cases deeper : RightHeavy value r
        · have wrecked := ir stored.2.2 parts.2 order.2.1 deeper below
          split at ran
          · exact wrecked_turned_right (wrecked_unbalanced wrecked) ran
          · exact Option.some.inj ran ▸ wrecked_placed_right go wrecked (by omega)
        · have here := heavy.resolve_left deeper
          obtain ⟨grown, same, growth⟩ := ins_grown stored.2.2 parts.2 deeper
          rw [below] at same
          cases same
          have taller := (growth.grows here.2).1
          rw [if_pos (by omega)] at ran
          exact wrong_rotation_wrecks go balanced here.1 order.2.2.1 (by omega) ran

end Wreck

theorem start_correct : Correct start := by
  refine ⟨NULL, rfl, ?_, ?_, trivial, trivial⟩
  · exact List.Pairwise.nil
  · intro v
    simp [inorder, start]

theorem insert_correct (run : Run) (value : Int) (next : Run) (correct : Correct run)
    (avoids : Avoids run value) (taken : insert run value = some next) : Correct next := by
  obtain ⟨tree, here, search⟩ := correct
  obtain ⟨tree', ran, grown⟩ := ins_grown search.heights search.balanced (avoids tree here)
  have values := ins_values search.heights search.sorted ran
  cases taken
  refine ⟨tree', by simp [here, ran], values.1, ?_, ins_stored search.heights ran, grown.balanced⟩
  intro v
  rw [values.2 v, search.values v, List.mem_append, List.mem_singleton, or_comm]

theorem insert_breaks (run : Run) (value : Int) (next : Run) (correct : Correct run)
    (careless : ¬ Avoids run value) (taken : insert run value = some next) : ¬ Correct next := by
  obtain ⟨tree, here, search⟩ := correct
  rintro ⟨tree', made, after⟩
  cases taken
  simp only [here, Option.bind_some] at made
  have heavy : RightHeavy value tree := by
    by_contra light
    apply careless
    intro other same
    rw [here] at same
    cases same
    exact light
  have wrecked := right_heavy_wrecks search.heights search.balanced search.sorted heavy made
  exact wrecked_unbalanced wrecked after.balanced

theorem insertions_possible (history : List Int) (run : Run) :
    (play insert history run).isSome := by
  induction history generalizing run with
  | nil => rfl
  | cons value history ih => exact ih _

/-- The tree is right after every insertion of exactly the sequences whose insertions all
    avoid the branch with the wrong rotations. -/
theorem avl_exact_iff (history : List Int) :
    Always insert Correct history start ↔ Lawful insert Avoids history start :=
  always_iff_lawful (fun _ correct => correct) insert_correct insert_breaks history start_correct
    (insertions_possible history start)

/-- Inserting 1, 2, 3 dereferences NULL. -/
theorem right_insertions_crash :
    ¬ ∀ history run, play insert history start = some run → Correct run := by
  intro always
  obtain ⟨tree, made, _⟩ := always [1, 2, 3] _ rfl
  have crashed : none = some tree := made
  cases crashed

end UC.Avl
