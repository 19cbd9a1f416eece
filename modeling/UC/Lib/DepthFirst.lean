import Mathlib.Data.Finset.Card
import Mathlib.Data.List.Nodup
import Mathlib.Logic.Relation
import UC.Lib.Cells

/- Depth-first search on a relation. U holds the vertices not visited before, U' those not
   visited afterwards; a vector of flags says which these are. -/
namespace UC.DepthFirst
open UC.Cells

variable {V : Type*} {E : V → V → Prop} {U U' U₁ U₂ : V → Prop} {v w : V}

def Path (E : V → V → Prop) (U : V → Prop) (v w : V) : Prop :=
  Relation.ReflTransGen (fun a b => E a b ∧ U b) v w

/-- What the visit of v does. -/
structure Explored (E : V → V → Prop) (U U' : V → Prop) (v : V) : Prop where
  shrinks : ∀ w, U' w → U w
  root : ¬ U' v
  closed : ∀ u, U u → ¬ U' u → ∀ w, E u w → ¬ U' w
  reached : ∀ w, U w → ¬ U' w → Path E U v w

/-- What it has done while the edges to the pending vertices are not looked at. -/
structure Scanned (E : V → V → Prop) (U U' : V → Prop) (v : V) (pending : List V) : Prop where
  shrinks : ∀ w, U' w → U w
  root : ¬ U' v
  closed : ∀ u, U u → ¬ U' u → ∀ w, E u w → ¬ U' w ∨ u = v ∧ w ∈ pending
  reached : ∀ w, U w → ¬ U' w → Path E U v w

theorem path_wider (wider : ∀ w, U₁ w → U w) (path : Path E U₁ v w) : Path E U v w :=
  Relation.ReflTransGen.mono (fun _ b step => ⟨step.1, wider b step.2⟩) v w path

/-- The vertices newly visited are those on paths of unvisited vertices. -/
theorem explored_iff (explored : Explored E U U' v) (fresh : U v) (w : V) :
    U w ∧ ¬ U' w ↔ Path E U v w := by
  constructor
  · exact fun new => explored.reached w new.1 new.2
  · intro path
    induction path with
    | refl => exact ⟨fresh, explored.root⟩
    | tail _ step ih => exact ⟨step.2, explored.closed _ ih.1 ih.2 _ step.1⟩

theorem mark_scanned (marked : ∀ w, U' w ↔ U w ∧ w ≠ v) {pending : List V}
    (edges : ∀ w, E v w → w ∈ pending) : Scanned E U U' v pending := by
  have only : ∀ u, U u → ¬ U' u → u = v := by
    intro u before after
    by_contra other
    exact after ((marked u).mpr ⟨before, other⟩)
  constructor
  · exact fun w after => ((marked w).mp after).1
  · exact fun after => ((marked v).mp after).2 rfl
  · intro u before after w edge
    have same := only u before after
    subst same
    exact .inr ⟨rfl, edges w edge⟩
  · intro w before after
    rw [only w before after]
    exact Relation.ReflTransGen.refl

theorem skip_scanned {pending : List V} (scanned : Scanned E U U' v (w :: pending))
    (visited : ¬ U' w) : Scanned E U U' v pending := by
  constructor
  · exact scanned.shrinks
  · exact scanned.root
  · intro u before after x edge
    cases scanned.closed u before after x edge with
    | inl done => exact .inl done
    | inr waiting =>
      cases List.mem_cons.mp waiting.2 with
      | inl same => exact .inl (same ▸ visited)
      | inr later => exact .inr ⟨waiting.1, later⟩
  · exact scanned.reached

theorem visit_scanned {pending : List V} (scanned : Scanned E U U₁ v (w :: pending))
    (edge : E v w) (fresh : U₁ w) (explored : Explored E U₁ U₂ w) :
    Scanned E U U₂ v pending := by
  have gone : ∀ u, ¬ U₁ u → ¬ U₂ u := fun u before after => before (explored.shrinks u after)
  constructor
  · exact fun u after => scanned.shrinks u (explored.shrinks u after)
  · exact gone v scanned.root
  · intro u before after x step
    by_cases between : U₁ u
    · exact .inl (explored.closed u between after x step)
    · cases scanned.closed u before between x step with
      | inl done => exact .inl (gone x done)
      | inr waiting =>
        cases List.mem_cons.mp waiting.2 with
        | inl same => exact .inl (same ▸ explored.root)
        | inr later => exact .inr ⟨waiting.1, later⟩
  · intro u before after
    by_cases between : U₁ u
    · have rest := path_wider scanned.shrinks (explored.reached u between after)
      exact Relation.ReflTransGen.head ⟨edge, scanned.shrinks w fresh⟩ rest
    · exact scanned.reached u before between

theorem scanned_all (scanned : Scanned E U U' v []) : Explored E U U' v := by
  constructor
  · exact scanned.shrinks
  · exact scanned.root
  · intro u before after w edge
    cases scanned.closed u before after w edge with
    | inl done => exact done
    | inr waiting => simp at waiting
  · exact scanned.reached

/-- The scan may stop early once nothing that an edge leads to is unvisited. -/
theorem scanned_enough {pending : List V} (scanned : Scanned E U U' v pending)
    (none : ∀ u w, E u w → ¬ U' w) : Explored E U U' v :=
  ⟨scanned.shrinks, scanned.root, fun u _ _ w edge => none u w edge, scanned.reached⟩

/-- The vertices visited on the way from U to U', in order. -/
structure Visits (U U' : V → Prop) (order : List V) : Prop where
  nodup : order.Nodup
  mem : ∀ w, w ∈ order ↔ U w ∧ ¬ U' w

theorem visits_none (U : V → Prop) : Visits U U [] :=
  ⟨List.nodup_nil, fun w => by simp⟩

theorem visits_append {order₁ order₂ : List V} (first : Visits U U₁ order₁)
    (second : Visits U₁ U₂ order₂) (shrinks₁ : ∀ w, U₁ w → U w) (shrinks₂ : ∀ w, U₂ w → U₁ w) :
    Visits U U₂ (order₁ ++ order₂) := by
  constructor
  · apply List.nodup_append'.mpr
    refine ⟨first.nodup, second.nodup, ?_⟩
    intro w one two
    exact ((first.mem w).mp one).2 ((second.mem w).mp two).1
  · intro w
    rw [List.mem_append, first.mem, second.mem]
    constructor
    · intro either
      cases either with
      | inl old => exact ⟨old.1, fun after => old.2 (shrinks₂ w after)⟩
      | inr new => exact ⟨shrinks₁ w new.1, new.2⟩
    · intro visited
      by_cases between : U₁ w
      · exact .inr ⟨between, visited.2⟩
      · exact .inl ⟨visited.1, between⟩

theorem visits_mark (marked : ∀ w, U' w ↔ U w ∧ w ≠ v) (fresh : U v) : Visits U U' [v] := by
  constructor
  · exact List.nodup_singleton v
  · intro w
    rw [List.mem_singleton, marked]
    by_cases same : w = v
    · simp [same, fresh]
    · simp [same]

def unvisitedIn (unvisited : Arr Bool) (v : Int) : Prop := unvisited.cell v = true

/-- How many elements of the vector of this size are true. -/
def countUnvisited (size : Int) (unvisited : Arr Bool) : Nat :=
  ((indices 0 (size - 1)).filter fun v => unvisited.cell v = true).card

theorem unvisited_put {unvisited : Arr Bool} {start : Int} (w : Int) :
    unvisitedIn (put unvisited start false) w ↔ unvisitedIn unvisited w ∧ w ≠ start := by
  by_cases same : w = start
  · simp [unvisitedIn, same]
  · simp [unvisitedIn, set_other _ _ same, same]

theorem count_shrinks {size : Int} {unvisited after : Arr Bool}
    (shrinks : ∀ w, unvisitedIn after w → unvisitedIn unvisited w) :
    countUnvisited size after ≤ countUnvisited size unvisited := by
  apply Finset.card_le_card
  intro w mem
  rw [Finset.mem_filter] at mem ⊢
  exact ⟨mem.1, shrinks w mem.2⟩

theorem count_marked {size : Int} {unvisited : Arr Bool} {start : Int} (low : 0 ≤ start)
    (high : start < size) (fresh : unvisitedIn unvisited start) :
    countUnvisited size (put unvisited start false) + 1 = countUnvisited size unvisited := by
  have rest : ((indices 0 (size - 1)).filter fun v => (put unvisited start false).cell v = true) =
      ((indices 0 (size - 1)).filter fun v => unvisited.cell v = true).erase start := by
    ext w
    have marked := @unvisited_put unvisited start w
    simp only [unvisitedIn] at marked
    simp only [Finset.mem_erase, Finset.mem_filter, marked]
    tauto
  rw [countUnvisited, countUnvisited, rest]
  exact Finset.card_erase_add_one (Finset.mem_filter.mpr ⟨mem_indices.mpr ⟨low, by omega⟩, fresh⟩)

end UC.DepthFirst
