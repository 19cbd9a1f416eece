import Mathlib.Algebra.BigOperators.Group.Multiset.Basic
import Mathlib.Algebra.Order.Ring.Defs
import Mathlib.Data.Multiset.MapFold
import Mathlib.Tactic.Linarith
import Mathlib.Tactic.Ring

/- Full binary trees with weights at the leaves, and the exchange argument: repeatedly
   joining two trees of least weight builds a tree of least weighted path length. A tree
   is seen through the multiset of its (weight, depth) pairs. -/
namespace UC.WeightedTree

inductive WTree (R : Type*) where
  | leaf (weight : R)
  | node (left right : WTree R)

section Shape
variable {R : Type*}

def pairs : WTree R → ℕ → Multiset (R × ℕ)
  | .leaf w, d => {(w, d)}
  | .node l r, d => pairs l (d + 1) + pairs r (d + 1)

def leaves : WTree R → Multiset R
  | .leaf w => {w}
  | .node l r => leaves l + leaves r

def height : WTree R → ℕ
  | .leaf _ => 0
  | .node l r => max (height l) (height r) + 1

theorem pairs_weights (t : WTree R) (d : ℕ) : (pairs t d).map Prod.fst = leaves t := by
  induction t generalizing d with
  | leaf w => rfl
  | node l r hl hr => simp only [pairs, leaves, Multiset.map_add, hl, hr]

theorem depth_le_height (t : WTree R) (d : ℕ) :
    ∀ e ∈ (pairs t d).map Prod.snd, e ≤ d + height t := by
  induction t generalizing d with
  | leaf w => simp [pairs, height]
  | node l r hl hr =>
    intro e mem
    simp only [pairs, Multiset.map_add, Multiset.mem_add] at mem
    rcases mem with mem | mem
    · have := hl (d + 1) e mem
      simp only [height]
      omega
    · have := hr (d + 1) e mem
      simp only [height]
      omega

theorem leaves_card_pos (t : WTree R) : 0 < (leaves t).card := by
  induction t with
  | leaf w => simp [leaves]
  | node l r hl _ =>
    rw [leaves, Multiset.card_add]
    omega

theorem leaf_of_height_zero {t : WTree R} (flat : height t = 0) : ∃ w, t = .leaf w := by
  cases t with
  | leaf w => exact ⟨w, rfl⟩
  | node l r => simp [height] at flat

theorem map_eq_add_split {α β : Type*} (f : α → β) (A B : Multiset β) (Q : Multiset α)
    (image : Q.map f = A + B) :
    ∃ Q₁ Q₂, Q = Q₁ + Q₂ ∧ Q₁.map f = A ∧ Q₂.map f = B := by
  induction A using Multiset.induction generalizing Q with
  | empty => exact ⟨0, Q, by simp, by simp, by simpa using image⟩
  | cons a A ih =>
    have mem : a ∈ Q.map f := by simp [image]
    obtain ⟨q, hq, rfl⟩ := Multiset.mem_map.mp mem
    obtain ⟨Q', rfl⟩ := Multiset.exists_cons_of_mem hq
    rw [Multiset.map_cons, Multiset.cons_add, Multiset.cons_inj_right] at image
    obtain ⟨Q₁, Q₂, rfl, h₁, h₂⟩ := ih Q' image
    exact ⟨q ::ₘ Q₁, Q₂, by rw [Multiset.cons_add], by rw [Multiset.map_cons, h₁], h₂⟩

/-- The leaves of a tree may be relabelled by any pairing of weights with its depths. -/
theorem fill (t : WTree R) (d : ℕ) (Q : Multiset (R × ℕ))
    (depths : Q.map Prod.snd = (pairs t d).map Prod.snd) : ∃ u, pairs u d = Q := by
  induction t generalizing d Q with
  | leaf w =>
    obtain ⟨⟨v, e⟩, rfl, same⟩ := Multiset.map_eq_singleton.mp depths
    cases same
    exact ⟨.leaf v, rfl⟩
  | node l r hl hr =>
    simp only [pairs, Multiset.map_add] at depths
    obtain ⟨Q₁, Q₂, rfl, h₁, h₂⟩ := map_eq_add_split Prod.snd _ _ Q depths
    obtain ⟨u, hu⟩ := hl (d + 1) Q₁ h₁
    obtain ⟨v, hv⟩ := hr (d + 1) Q₂ h₂
    exact ⟨.node u v, by rw [pairs, hu, hv]⟩

/-- Two sibling leaves sit at the greatest depth; folding them into one leaf gives a
    tree with the other depths unchanged. -/
theorem deepest_siblings (t : WTree R) (d : ℕ) (internal : 0 < height t) :
    ∃ (D : ℕ) (E : Multiset ℕ) (u : WTree R),
      (pairs t d).map Prod.snd = (D + 1) ::ₘ (D + 1) ::ₘ E ∧
      (pairs u d).map Prod.snd = D ::ₘ E ∧ D + 1 = d + height t := by
  induction t generalizing d with
  | leaf w => simp [height] at internal
  | node l r hl hr =>
    rcases Nat.le_total (height r) (height l) with lower | lower
    · rcases Nat.eq_zero_or_pos (height l) with flat | deeper
      · obtain ⟨v, rfl⟩ := leaf_of_height_zero flat
        obtain ⟨w, rfl⟩ := leaf_of_height_zero (Nat.le_zero.mp (flat ▸ lower))
        exact ⟨d, 0, .leaf v, rfl, rfl, rfl⟩
      · obtain ⟨D, E, u, before, after, depth⟩ := hl (d + 1) deeper
        refine ⟨D, E + (pairs r (d + 1)).map Prod.snd, .node u r, ?_, ?_, ?_⟩
        · rw [pairs, Multiset.map_add, before, Multiset.cons_add, Multiset.cons_add]
        · rw [pairs, Multiset.map_add, after, Multiset.cons_add]
        · rw [height, Nat.max_eq_left lower]
          omega
    · rcases Nat.eq_zero_or_pos (height r) with flat | deeper
      · obtain ⟨v, rfl⟩ := leaf_of_height_zero flat
        obtain ⟨w, rfl⟩ := leaf_of_height_zero (Nat.le_zero.mp (flat ▸ lower))
        exact ⟨d, 0, .leaf v, rfl, rfl, rfl⟩
      · obtain ⟨D, E, u, before, after, depth⟩ := hr (d + 1) deeper
        refine ⟨D, (pairs l (d + 1)).map Prod.snd + E, .node l u, ?_, ?_, ?_⟩
        · rw [pairs, Multiset.map_add, before, Multiset.add_cons, Multiset.add_cons]
        · rw [pairs, Multiset.map_add, after, Multiset.add_cons]
        · rw [height, Nat.max_eq_right lower]
          omega

end Shape

section Cost
variable {R : Type*} [CommRing R]

def cost (P : Multiset (R × ℕ)) : R := (P.map fun p => p.1 * (p.2 : R)).sum

/-- Weighted path length of a tree whose root is at depth d. -/
def wpl (t : WTree R) (d : ℕ) : R := cost (pairs t d)

def weight (t : WTree R) : R := (leaves t).sum

@[simp] theorem cost_cons (p : R × ℕ) (P : Multiset (R × ℕ)) :
    cost (p ::ₘ P) = p.1 * (p.2 : R) + cost P := by
  simp [cost]

theorem wpl_leaf (w : R) (d : ℕ) : wpl (.leaf w) d = w * d := by
  simp [wpl, pairs, cost]

@[simp] theorem weight_leaf (w : R) : weight (.leaf w) = w := by
  simp [weight, leaves]

@[simp] theorem weight_node (l r : WTree R) : weight (.node l r) = weight l + weight r := by
  simp [weight, leaves]

theorem wpl_node (l r : WTree R) (d : ℕ) : wpl (.node l r) d = wpl l (d + 1) + wpl r (d + 1) := by
  simp [wpl, pairs, cost]

theorem wpl_succ (t : WTree R) (d : ℕ) : wpl t (d + 1) = wpl t d + weight t := by
  induction t generalizing d with
  | leaf w =>
    simp only [wpl_leaf, weight_leaf]
    push_cast
    ring
  | node l r hl hr =>
    simp only [wpl_node, hl, hr, weight_node]
    ring

variable [LinearOrder R] [IsStrictOrderedRing R]

/-- The least weight can be moved to a greatest depth at no cost. -/
theorem exchange {P : Multiset (R × ℕ)} {x : R} {D : ℕ} (hx : x ∈ P.map Prod.fst)
    (hD : D ∈ P.map Prod.snd) (least : ∀ w ∈ P.map Prod.fst, x ≤ w)
    (greatest : ∀ e ∈ P.map Prod.snd, e ≤ D) :
    ∃ Q, P.map Prod.fst = x ::ₘ Q.map Prod.fst ∧ P.map Prod.snd = D ::ₘ Q.map Prod.snd ∧
      x * D + cost Q ≤ cost P := by
  obtain ⟨⟨x, d⟩, mem, rfl⟩ := Multiset.mem_map.mp hx
  obtain ⟨P, rfl⟩ := Multiset.exists_cons_of_mem mem
  by_cases same : d = D
  · subst same
    exact ⟨P, by simp, by simp, by simp⟩
  · rw [Multiset.map_cons, Multiset.mem_cons] at hD
    obtain ⟨⟨w, D⟩, mem', rfl⟩ := Multiset.mem_map.mp (hD.resolve_left (Ne.symm same))
    obtain ⟨P, rfl⟩ := Multiset.exists_cons_of_mem mem'
    refine ⟨(w, d) ::ₘ P, by simp, ?_, ?_⟩
    · simp only [Multiset.map_cons]
      exact Multiset.cons_swap _ _ _
    · dsimp only at *
      have lighter : x ≤ w := least w (by simp)
      have deeper : (d : R) ≤ D := Nat.cast_le.mpr (greatest d (by simp))
      have gain := mul_nonneg (sub_nonneg.mpr lighter) (sub_nonneg.mpr deeper)
      simp only [cost_cons]
      linarith

/-- Joining the two least weights into one leaf saves at least their sum. -/
theorem merge_least {t : WTree R} {x y : R} {M : Multiset R} (content : leaves t = x ::ₘ y ::ₘ M)
    (hxy : x ≤ y) (least : ∀ w ∈ M, y ≤ w) :
    ∃ u, leaves u = (x + y) ::ₘ M ∧ wpl u 0 + (x + y) ≤ wpl t 0 := by
  have internal : 0 < height t := by
    rcases Nat.eq_zero_or_pos (height t) with flat | pos
    · obtain ⟨w, rfl⟩ := leaf_of_height_zero flat
      have := congrArg Multiset.card content
      simp [leaves] at this
    · exact pos
  obtain ⟨D, E, u, before, after, depth⟩ := deepest_siblings t 0 internal
  have weights : (pairs t 0).map Prod.fst = x ::ₘ y ::ₘ M := by rw [pairs_weights, content]
  have below := depth_le_height t 0
  rw [before, ← depth] at below
  obtain ⟨Q, fst₁, snd₁, cost₁⟩ := exchange (P := pairs t 0) (x := x) (D := D + 1)
    (by simp [weights]) (by simp [before])
    (by
      rw [weights]
      intro w mem
      rcases Multiset.mem_cons.mp mem with rfl | mem
      · exact le_rfl
      · rcases Multiset.mem_cons.mp mem with rfl | mem
        · exact hxy
        · exact hxy.trans (least w mem))
    (by rw [before]; exact below)
  rw [weights, Multiset.cons_inj_right] at fst₁
  rw [before, Multiset.cons_inj_right] at snd₁
  obtain ⟨S, fst₂, snd₂, cost₂⟩ := exchange (P := Q) (x := y) (D := D + 1)
    (by simp [← fst₁]) (by simp [← snd₁])
    (by
      rw [← fst₁]
      intro w mem
      rcases Multiset.mem_cons.mp mem with rfl | mem
      · exact le_rfl
      · exact least w mem)
    (by
      rw [← snd₁]
      intro e mem
      exact below e (Multiset.mem_cons_of_mem mem))
  rw [← fst₁, Multiset.cons_inj_right] at fst₂
  rw [← snd₁, Multiset.cons_inj_right] at snd₂
  obtain ⟨v, hv⟩ := fill u 0 ((x + y, D) ::ₘ S) (by rw [Multiset.map_cons, after, snd₂])
  refine ⟨v, ?_, ?_⟩
  · rw [← pairs_weights v 0, hv, Multiset.map_cons, fst₂]
  · rw [wpl, wpl, hv, cost_cons]
    push_cast at cost₁ cost₂
    dsimp only
    linarith

end Cost

section Forest
variable {R : Type*} [CommRing R] [LinearOrder R]

/-- A forest from which any target tree over the weights M can still be reached without
    loss: the leaves lie as deep in it as the trees built so far put them. -/
def Extendable (F : Multiset (WTree R)) (M : Multiset R) : Prop :=
  ∀ t, leaves t = M → ∃ u, leaves u = F.map weight ∧
    (F.map fun s => wpl s 0).sum + wpl u 0 ≤ wpl t 0

theorem extendable_leaves (M : Multiset R) : Extendable (M.map .leaf) M := by
  intro t content
  refine ⟨t, ?_, ?_⟩
  · simp only [content, Multiset.map_map, Function.comp_def, weight_leaf, Multiset.map_id']
  · simp [wpl_leaf]

theorem extendable_single {t : WTree R} {M : Multiset R} (ext : Extendable {t} M) :
    ∀ u, leaves u = M → wpl t 0 ≤ wpl u 0 := by
  intro u content
  obtain ⟨v, root, bound⟩ := ext u content
  have leaf : wpl v 0 = 0 := by
    cases v with
    | leaf w => simp [wpl_leaf]
    | node l r =>
      have count := congrArg Multiset.card root
      have hl := leaves_card_pos l
      have hr := leaves_card_pos r
      simp only [leaves, Multiset.card_add, Multiset.map_singleton,
        Multiset.card_singleton] at count
      omega
  simpa [leaf] using bound

variable [IsStrictOrderedRing R]

/-- The greedy step: join two trees of least weight. -/
theorem extendable_join {F : Multiset (WTree R)} {M : Multiset R} {a b : WTree R}
    (ext : Extendable (a ::ₘ b ::ₘ F) M) (hab : weight a ≤ weight b)
    (least : ∀ s ∈ F, weight b ≤ weight s) : Extendable (.node a b ::ₘ F) M := by
  intro t content
  obtain ⟨u, covers, bound⟩ := ext t content
  simp only [Multiset.map_cons, Multiset.sum_cons] at covers bound
  obtain ⟨v, joined, saved⟩ := merge_least covers hab (by
    intro w mem
    obtain ⟨s, hs, rfl⟩ := Multiset.mem_map.mp mem
    exact least s hs)
  refine ⟨v, ?_, ?_⟩
  · rw [joined, Multiset.map_cons, weight_node]
  · simp only [Multiset.map_cons, Multiset.sum_cons, wpl_node, wpl_succ]
    linarith

end Forest

end UC.WeightedTree
