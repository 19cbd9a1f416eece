import Mathlib.Data.Finset.Card
import Mathlib.Data.List.Chain
import UC.Lib.Cells

/- Walks along a relation, counted by their edges, and the levels a breadth-first search
   finds. A negative level says that the vertex has none yet. -/
namespace UC.Levels
open UC.Cells

variable {V : Type*} {E : V → V → Prop} {start : V}

inductive Walk (E : V → V → Prop) (start : V) : Nat → V → Prop where
  | zero : Walk E start 0 start
  | next {n : Nat} {v w : V} (walk : Walk E start n v) (edge : E v w) : Walk E start (n + 1) w

def Reaches (E : V → V → Prop) (start v : V) : Prop := ∃ n, Walk E start n v

/-- The labels given so far, and the labelled vertices not yet taken from the queue. -/
structure Labels (V : Type*) where
  level : V → Int
  pred : V → V
  queue : List V

/-- What holds at every moment of the search: depth is the level of the vertices scanned
    now, and pending are the edges of the current vertex that are not scanned yet. -/
structure Searched (E : V → V → Prop) (start : V) (s : Labels V) (depth : Int)
    (pending : List (V × V)) : Prop where
  deep : 0 ≤ depth
  root : s.level start = 0
  parent : ∀ v, 0 ≤ s.level v → v ≠ start →
    0 ≤ s.level (s.pred v) ∧ s.level v = s.level (s.pred v) + 1 ∧ E (s.pred v) v
  closed : ∀ v, 0 ≤ s.level v → v ∉ s.queue → ∀ w, E v w →
    (0 ≤ s.level w ∧ s.level w ≤ s.level v + 1) ∨ (v, w) ∈ pending
  queued : ∀ v ∈ s.queue, depth ≤ s.level v
  ordered : s.queue.Pairwise fun v w => s.level v ≤ s.level w
  span : ∀ v, s.level v ≤ depth + 1
  scanning : ∀ edge ∈ pending, s.level edge.1 = depth ∧ E edge.1 edge.2

/-- A walk cannot leave the labelled vertices but through the queue. -/
theorem walk_bound {s : Labels V} {depth : Int} (searched : Searched E start s depth [])
    {n : Nat} {v : V} (walk : Walk E start n v) :
    (0 ≤ s.level v ∧ s.level v ≤ n) ∨ ∃ q ∈ s.queue, s.level q < n := by
  induction walk with
  | zero =>
    left
    simp [searched.root]
  | next walk edge ih =>
    rename_i n v w
    cases ih with
    | inl near =>
      by_cases waiting : v ∈ s.queue
      · right
        exact ⟨v, waiting, by omega⟩
      · cases searched.closed v near.1 waiting w edge with
        | inl next =>
          left
          omega
        | inr none => simp at none
    | inr ahead =>
      obtain ⟨q, mem, less⟩ := ahead
      right
      exact ⟨q, mem, by omega⟩

theorem walk_not_shorter {s : Labels V} {depth : Int} (searched : Searched E start s depth [])
    {v : V} (label : s.level v = depth + 1) {n : Nat} (walk : Walk E start n v) :
    s.level v ≤ n := by
  cases walk_bound searched walk with
  | inl near => exact near.2
  | inr ahead =>
    obtain ⟨q, mem, less⟩ := ahead
    have deeper := searched.queued q mem
    omega

theorem unlabelled_unreachable {s : Labels V} {depth : Int}
    (searched : Searched E start s depth []) (empty : s.queue = []) {v : V}
    (none : s.level v < 0) : ¬ Reaches E start v := by
  intro reach
  obtain ⟨n, walk⟩ := reach
  cases walk_bound searched walk with
  | inl near => omega
  | inr ahead =>
    obtain ⟨q, mem, _⟩ := ahead
    simp [empty] at mem

theorem queue_head {s : Labels V} {depth : Int} (searched : Searched E start s depth [])
    {v : V} {rest : List V} (queue : s.queue = v :: rest) :
    (if s.level v > depth then depth + 1 else depth) = s.level v := by
  have low := searched.queued v (by simp [queue])
  have high := searched.span v
  split <;> omega

theorem dequeue_searched {s : Labels V} {depth : Int} (searched : Searched E start s depth [])
    {v : V} {rest : List V} (queue : s.queue = v :: rest) {successors : List V}
    (edges : ∀ w, E v w ↔ w ∈ successors) :
    Searched E start { s with queue := rest } (s.level v) (successors.map fun w => (v, w)) := by
  have low := searched.queued v (by simp [queue])
  have ordered := searched.ordered
  rw [queue, List.pairwise_cons] at ordered
  constructor
  case deep => exact searched.deep.trans low
  case root => exact searched.root
  case parent => exact searched.parent
  case closed =>
    intro u labelled apart w edge
    by_cases here : u = v
    · subst here
      right
      exact List.mem_map_of_mem ((edges w).mp edge)
    · have absent : u ∉ s.queue := by
        rw [queue]
        exact List.not_mem_cons_of_ne_of_not_mem here apart
      cases searched.closed u labelled absent w edge with
      | inl next => exact .inl next
      | inr none => simp at none
  case queued => exact ordered.1
  case ordered => exact ordered.2
  case span =>
    intro u
    have high := searched.span u
    dsimp only
    omega
  case scanning =>
    intro edge mem
    obtain ⟨w, successor, rfl⟩ := List.mem_map.mp mem
    exact ⟨rfl, (edges w).mpr successor⟩

theorem skip_searched {s : Labels V} {depth : Int} {v w : V} {pending : List (V × V)}
    (searched : Searched E start s depth ((v, w) :: pending)) (labelled : 0 ≤ s.level w) :
    Searched E start s depth pending := by
  have here := searched.scanning (v, w) List.mem_cons_self
  have high := searched.span w
  constructor
  case closed =>
    intro u labelled apart x edge
    cases searched.closed u labelled apart x edge with
    | inl next => exact .inl next
    | inr mem =>
      cases List.mem_cons.mp mem with
      | inl same =>
        cases same
        left
        dsimp only at here
        omega
      | inr later => exact .inr later
  case scanning => exact fun edge mem => searched.scanning edge (List.mem_cons_of_mem _ mem)
  all_goals first
    | exact searched.deep
    | exact searched.root
    | exact searched.parent
    | exact searched.queued
    | exact searched.ordered
    | exact searched.span

theorem level_zero {s : Labels V} {depth : Int} (searched : Searched E start s depth [])
    {v : V} (bottom : s.level v = 0) : v = start := by
  by_contra other
  have parent := searched.parent v (by omega) other
  omega

/-- The predecessor of a vertex is one level down and has an edge to it. -/
theorem level_succ {s : Labels V} {depth : Int} (searched : Searched E start s depth [])
    {v : V} {k : Nat} (level : s.level v = k + 1) :
    s.level (s.pred v) = k ∧ E (s.pred v) v := by
  have other : v ≠ start := by
    intro same
    rw [same, searched.root] at level
    omega
  obtain ⟨_, step, edge⟩ := searched.parent v (by omega) other
  exact ⟨by omega, edge⟩

theorem level_walk {s : Labels V} {depth : Int} (searched : Searched E start s depth [])
    {k : Nat} {v : V} (level : s.level v = k) : Walk E start k v := by
  induction k generalizing v with
  | zero =>
    rw [level_zero searched level]
    exact Walk.zero
  | succ k ih =>
    obtain ⟨above, edge⟩ := level_succ searched level
    exact Walk.next (ih above) edge

variable [DecidableEq V]

def startLabels (start : V) (pred : V → V) : Labels V :=
  { level := set (fun _ => -1) start 0, pred := pred, queue := [start] }

theorem start_root (start : V) (pred : V → V) : (startLabels start pred).level start = 0 :=
  set_same (fun _ => -1) start 0

theorem start_others {pred : V → V} {v : V} (other : v ≠ start) :
    (startLabels start pred).level v = -1 := set_other (fun _ => -1) 0 other

theorem start_level {pred : V → V} {v : V} (labelled : 0 ≤ (startLabels start pred).level v) :
    v = start := by
  by_contra other
  have none := @start_others _ start _ pred v other
  omega

theorem start_searched (E : V → V → Prop) (start : V) (pred : V → V) :
    Searched E start (startLabels start pred) 0 [] := by
  constructor
  case deep => exact le_refl 0
  case root => exact start_root start pred
  case parent => exact fun v labelled other => absurd (start_level labelled) other
  case closed =>
    intro v labelled apart
    have here := start_level labelled
    simp [startLabels, here] at apart
  case queued => simp [startLabels]
  case ordered => simp [startLabels]
  case span =>
    intro v
    by_cases here : v = start
    · rw [here, start_root]
      omega
    · rw [start_others here]
      omega
  case scanning => simp

/-- A pending edge to a vertex that has no label: it gets one and joins the queue. -/
def label (s : Labels V) (v w : V) (depth : Int) : Labels V :=
  { level := set s.level w (depth + 1), pred := set s.pred w v, queue := s.queue ++ [w] }

theorem label_new (s : Labels V) (v w : V) (depth : Int) :
    (label s v w depth).level w = depth + 1 := set_same _ _ _

theorem label_other (s : Labels V) (v : V) {w u : V} (depth : Int) (ne : u ≠ w) :
    (label s v w depth).level u = s.level u := set_other _ _ ne

theorem label_keeps {s : Labels V} {v w u : V} {depth : Int} (fresh : s.level w < 0)
    (labelled : 0 ≤ s.level u) : (label s v w depth).level u = s.level u :=
  label_other s v depth (fun same => by subst same; omega)

/-- A vertex labelled afterwards is the new one or had its label before. -/
theorem label_cases {s : Labels V} {v w u : V} {depth : Int}
    (labelled : 0 ≤ (label s v w depth).level u) : u = w ∨ u ≠ w ∧ 0 ≤ s.level u := by
  by_cases here : u = w
  · exact .inl here
  · rw [label_other s v depth here] at labelled
    exact .inr ⟨here, labelled⟩

section
variable {s : Labels V} {depth : Int} {v w : V} {pending : List (V × V)}

theorem label_parent (searched : Searched E start s depth ((v, w) :: pending))
    (fresh : s.level w < 0) {u : V} (labelled : 0 ≤ (label s v w depth).level u)
    (other : u ≠ start) :
    0 ≤ (label s v w depth).level ((label s v w depth).pred u) ∧
      (label s v w depth).level u =
        (label s v w depth).level ((label s v w depth).pred u) + 1 ∧
      E ((label s v w depth).pred u) u := by
  obtain ⟨here, edge⟩ := searched.scanning (v, w) List.mem_cons_self
  dsimp only at here edge
  have deep := searched.deep
  cases label_cases labelled with
  | inl same =>
    have above : (label s v w depth).pred u = v := by simp [label, same]
    rw [above, same, label_keeps fresh (by omega : 0 ≤ s.level v), label_new, here]
    exact ⟨deep, rfl, edge⟩
  | inr old =>
    have above : (label s v w depth).pred u = s.pred u := set_other _ _ old.1
    obtain ⟨before, step, link⟩ := searched.parent u old.2 other
    rw [above, label_keeps fresh before, label_keeps fresh old.2]
    exact ⟨before, step, link⟩

theorem label_closed (searched : Searched E start s depth ((v, w) :: pending))
    (fresh : s.level w < 0) {u : V} (labelled : 0 ≤ (label s v w depth).level u)
    (apart : u ∉ (label s v w depth).queue) {x : V} (edge : E u x) :
    (0 ≤ (label s v w depth).level x ∧
      (label s v w depth).level x ≤ (label s v w depth).level u + 1) ∨ (u, x) ∈ pending := by
  have here := (searched.scanning (v, w) List.mem_cons_self).1
  have new := label_new s v w depth
  dsimp only at here
  have absent : u ≠ w ∧ u ∉ s.queue := by
    simp only [label, List.mem_append, List.mem_singleton, not_or] at apart
    exact ⟨apart.2, apart.1⟩
  have old : 0 ≤ s.level u := by
    cases label_cases labelled with
    | inl same => exact absurd same absent.1
    | inr old => exact old.2
  rw [label_keeps fresh old]
  cases searched.closed u old absent.2 x edge with
  | inl next =>
    left
    rw [label_keeps fresh next.1]
    exact next
  | inr mem =>
    have deep := searched.deep
    cases List.mem_cons.mp mem with
    | inl same =>
      cases same
      left
      omega
    | inr later => exact .inr later

theorem label_queue (searched : Searched E start s depth ((v, w) :: pending))
    (fresh : s.level w < 0) : (∀ u ∈ s.queue, (label s v w depth).level u = s.level u) ∧
      (label s v w depth).queue.Pairwise fun a b =>
        (label s v w depth).level a ≤ (label s v w depth).level b := by
  have queued : ∀ u ∈ s.queue, (label s v w depth).level u = s.level u := fun u mem =>
    label_keeps fresh (searched.deep.trans (searched.queued u mem))
  constructor
  · exact queued
  · apply List.pairwise_append.mpr
    constructor
    · apply searched.ordered.imp_of_mem
      intro a b memA memB less
      rw [queued a memA, queued b memB]
      exact less
    · constructor
      · exact List.pairwise_singleton _ _
      · intro a mem b last
        rw [List.mem_singleton.mp last, label_new, queued a mem]
        exact searched.span a

theorem label_searched (searched : Searched E start s depth ((v, w) :: pending))
    (fresh : s.level w < 0) : Searched E start (label s v w depth) depth pending := by
  have deep := searched.deep
  have new := label_new s v w depth
  obtain ⟨queued, ordered⟩ := label_queue searched fresh
  constructor
  case deep => exact deep
  case root =>
    rw [label_keeps fresh (by rw [searched.root]), searched.root]
  case parent => exact fun u => label_parent searched fresh
  case closed => exact fun u labelled apart x => label_closed searched fresh labelled apart
  case queued =>
    intro u mem
    cases List.mem_append.mp mem with
    | inl old =>
      rw [queued u old]
      exact searched.queued u old
    | inr last =>
      rw [List.mem_singleton.mp last, new]
      omega
  case ordered => exact ordered
  case span =>
    intro u
    by_cases same : u = w
    · rw [same, new]
    · rw [label_other s v depth same]
      exact searched.span u
  case scanning =>
    intro later mem
    obtain ⟨level, edge⟩ := searched.scanning later (List.mem_cons_of_mem _ mem)
    rw [label_keeps fresh (by omega)]
    exact ⟨level, edge⟩

end

def unlabelled (level : V → Int) (vertices : Finset V) : Finset V :=
  vertices.filter fun v => level v < 0

theorem label_counts {s : Labels V} {v w : V} {depth : Int} {vertices : Finset V}
    (deep : 0 ≤ depth) (fresh : s.level w < 0) (inside : w ∈ vertices) :
    (unlabelled (label s v w depth).level vertices).card + 1 =
      (unlabelled s.level vertices).card := by
  have rest : unlabelled (label s v w depth).level vertices =
      (unlabelled s.level vertices).erase w := by
    ext u
    simp only [unlabelled, Finset.mem_erase, Finset.mem_filter]
    by_cases same : u = w
    · have new := label_new s v w depth
      rw [same]
      constructor
      · omega
      · exact fun both => absurd rfl both.1
    · rw [label_other s v depth same]
      tauto
  rw [rest]
  exact Finset.card_erase_add_one (by simp [unlabelled, inside, fresh])

end UC.Levels
