import UC.Digraph.Model
import UC.Lib.DepthFirst

/- Depth-first search: what depthFirstSearchAux visits and prints, for every digraph and
   every vector of unvisited vertices. -/
namespace UC.Digraphs
open UC.Cells UC.DepthFirst

variable {DataType : Type} {digraph : Digraph DataType}

def Prints (digraph : Digraph DataType) (order : List Int) (printed : List DataType) : Prop :=
  List.Forall₂ (fun v data => Data digraph v = some data) order printed

/-- The traversal after some vertices have been visited, in this order. -/
structure Visited (digraph : Digraph DataType) (size : Int) (traversal after : Traversal DataType)
    (order : List Int) : Prop where
  spans : Spans after.unvisited size
  shrinks : ∀ w, unvisitedIn after.unvisited w → unvisitedIn traversal.unvisited w
  visits : Visits (unvisitedIn traversal.unvisited) (unvisitedIn after.unvisited) order
  printed : ∃ new, after.printed = traversal.printed ++ new ∧ Prints digraph order new

theorem visited_none {size : Int} {traversal : Traversal DataType}
    (spans : Spans traversal.unvisited size) : Visited digraph size traversal traversal [] :=
  ⟨spans, fun _ fresh => fresh, visits_none _, [], by simp, List.Forall₂.nil⟩

theorem visited_append {size : Int} {first second third : Traversal DataType}
    {order₁ order₂ : List Int} (one : Visited digraph size first second order₁)
    (two : Visited digraph size second third order₂) :
    Visited digraph size first third (order₁ ++ order₂) := by
  obtain ⟨new₁, sent₁, prints₁⟩ := one.printed
  obtain ⟨new₂, sent₂, prints₂⟩ := two.printed
  constructor
  · exact two.spans
  · exact fun w fresh => one.shrinks w (two.shrinks w fresh)
  · exact visits_append one.visits two.visits one.shrinks two.shrinks
  · refine ⟨new₁ ++ new₂, ?_, List.rel_append prints₁ prints₂⟩
    rw [sent₂, sent₁, List.append_assoc]

/-- The call for a vertex returns, and has explored what is reachable from it. -/
def Explores (digraph : Digraph DataType) (size : Int) (depth : Nat) (start : Int)
    (traversal : Traversal DataType) : Prop :=
  ∃ after order, (∀ fuel ≥ depth, depthFirstSearchAux digraph fuel start traversal = some after) ∧
    Visited digraph size traversal after order ∧
    Explored (Edge digraph) (unvisitedIn traversal.unvisited) (unvisitedIn after.unvisited) start

theorem visit_neighbours_fresh {visit : Int → Traversal DataType → Option (Traversal DataType)}
    {it : Int} {rest : List Int} {traversal next : Traversal DataType}
    (read : load traversal.unvisited it = some true) (run : visit it traversal = some next) :
    visitNeighbours visit (it :: rest) traversal = visitNeighbours visit rest next := by
  simp [visitNeighbours, read, run]

theorem visit_neighbours_seen {visit : Int → Traversal DataType → Option (Traversal DataType)}
    {it : Int} {rest : List Int} {traversal : Traversal DataType}
    (read : load traversal.unvisited it = some false) :
    visitNeighbours visit (it :: rest) traversal = visitNeighbours visit rest traversal := by
  simp [visitNeighbours, read]

theorem visit_neighbours_scans {size : Int} {depth : Nat} {start : Int}
    {first : Traversal DataType}
    (visit : ∀ v traversal, InRange digraph v → Spans traversal.unvisited size →
      unvisitedIn traversal.unvisited v → countUnvisited size traversal.unvisited ≤ depth →
      Explores digraph size depth v traversal)
    (large : (digraph.length : Int) ≤ size) {neighbours : List Int}
    (inside : ∀ w ∈ neighbours, InRange digraph w ∧ Edge digraph start w)
    {traversal : Traversal DataType} (spans : Spans traversal.unvisited size)
    (few : countUnvisited size traversal.unvisited ≤ depth)
    (scanned : Scanned (Edge digraph) (unvisitedIn first.unvisited)
      (unvisitedIn traversal.unvisited) start neighbours) :
    ∃ after order, (∀ fuel ≥ depth, visitNeighbours (depthFirstSearchAux digraph fuel) neighbours
        traversal = some after) ∧ Visited digraph size traversal after order ∧
      Explored (Edge digraph) (unvisitedIn first.unvisited) (unvisitedIn after.unvisited)
        start := by
  induction neighbours generalizing traversal with
  | nil => exact ⟨traversal, [], fun _ _ => rfl, visited_none spans, scanned_all scanned⟩
  | cons it rest ih =>
    obtain ⟨here, edge⟩ := inside it List.mem_cons_self
    have later : ∀ w ∈ rest, InRange digraph w ∧ Edge digraph start w := fun w mem =>
      inside w (List.mem_cons_of_mem it mem)
    have read := load_spans spans here.1 (lt_of_lt_of_le here.2 large)
    by_cases fresh : unvisitedIn traversal.unvisited it
    · obtain ⟨next, order₁, run, visited, explored⟩ := visit it traversal here spans fresh few
      have fewer := (@count_shrinks size _ _ visited.shrinks).trans few
      obtain ⟨after, order₂, runs, visited', explored'⟩ :=
        ih later visited.spans fewer (visit_scanned scanned edge fresh explored)
      refine ⟨after, order₁ ++ order₂, ?_, visited_append visited visited', explored'⟩
      intro fuel enough
      rw [visit_neighbours_fresh (read.trans (congrArg some fresh)) (run fuel enough)]
      exact runs fuel enough
    · have seen : traversal.unvisited.cell it = false := Bool.eq_false_of_not_eq_true fresh
      obtain ⟨after, order, runs, visited, explored⟩ :=
        ih later spans few (skip_scanned scanned fresh)
      refine ⟨after, order, ?_, visited, explored⟩
      intro fuel enough
      rw [visit_neighbours_seen (read.trans (congrArg some seen))]
      exact runs fuel enough

theorem depth_first_search_explores {size : Int} (entries : EntriesInRange digraph)
    (large : (digraph.length : Int) ≤ size) {depth : Nat} {start : Int}
    {traversal : Traversal DataType} (inside : InRange digraph start)
    (spans : Spans traversal.unvisited size) (fresh : unvisitedIn traversal.unvisited start)
    (few : countUnvisited size traversal.unvisited ≤ depth) :
    Explores digraph size depth start traversal := by
  induction depth generalizing start traversal with
  | zero =>
    have marked := count_marked inside.1 (lt_of_lt_of_le inside.2 large) fresh
    omega
  | succ depth ih =>
    have high := lt_of_lt_of_le inside.2 large
    have marked := count_marked inside.1 high fresh
    obtain ⟨info, read, mem⟩ := vertex_info_some inside
    have edges : ∀ w, Edge digraph start w → w ∈ info.adjacencyList := fun w => (edge_iff read).mp
    have write := save_spans spans inside.1 high false
    obtain ⟨after, order, runs, visited, explored⟩ :=
      @visit_neighbours_scans _ digraph size depth start traversal
        (fun v traversal here spans fresh few => ih here spans fresh few) large info.adjacencyList
        (fun w mem' => ⟨entries info mem w mem', (edge_iff read).mpr mem'⟩)
        { unvisited := put traversal.unvisited start false,
          printed := traversal.printed ++ [info.data] }
        (put_spans spans start false) (by dsimp only; omega)
        (mark_scanned unvisited_put edges)
    have first : Visited digraph size traversal
        { unvisited := put traversal.unvisited start false,
          printed := traversal.printed ++ [info.data] } [start] := by
      constructor
      · exact put_spans spans start false
      · exact fun w after => ((unvisited_put w).mp after).1
      · exact visits_mark unvisited_put fresh
      · exact ⟨[info.data], rfl, .cons (by rw [Data, read]; rfl) .nil⟩
    refine ⟨after, [start] ++ order, ?_, visited_append first visited, explored⟩
    intro fuel enough
    obtain ⟨fuel, rfl⟩ := Nat.exists_eq_succ_of_ne_zero (Nat.ne_zero_of_lt enough)
    rw [depthFirstSearchAux, read, Option.bind_eq_bind, Option.bind_some, write]
    exact runs fuel (by omega)

/-- The white-path theorem: the search ends; what it marks and prints, each vertex once, is what
    can be reached along unvisited vertices, and nothing visited becomes unvisited. -/
theorem depth_first_search_visits_white_paths {size : Int} (entries : EntriesInRange digraph)
    (large : (digraph.length : Int) ≤ size) {start : Int} {traversal : Traversal DataType}
    (inside : InRange digraph start) (spans : Spans traversal.unvisited size)
    (fresh : unvisitedIn traversal.unvisited start) :
    ∃ after order printed, (∃ enough, ∀ fuel ≥ enough,
        depthFirstSearchAux digraph fuel start traversal = some after) ∧
      (∀ w, unvisitedIn after.unvisited w → unvisitedIn traversal.unvisited w) ∧
      (∀ w, unvisitedIn traversal.unvisited w ∧ ¬ unvisitedIn after.unvisited w ↔
        Path (Edge digraph) (unvisitedIn traversal.unvisited) start w) ∧
      order.Nodup ∧
      (∀ w, w ∈ order ↔ unvisitedIn traversal.unvisited w ∧ ¬ unvisitedIn after.unvisited w) ∧
      after.printed = traversal.printed ++ printed ∧ Prints digraph order printed := by
  obtain ⟨after, order, runs, visited, explored⟩ :=
    depth_first_search_explores entries large inside spans fresh (le_refl _)
  obtain ⟨printed, sent, prints⟩ := visited.printed
  exact ⟨after, order, printed, ⟨_, runs⟩, visited.shrinks, explored_iff explored fresh,
    visited.visits.nodup, visited.visits.mem, sent, prints⟩

/-- A cycle of 1 and 2, and the way from there over 3 to 4. -/
def cycle : Digraph Char := [⟨'-', []⟩, ⟨'A', [2, 2]⟩, ⟨'B', [1, 3]⟩, ⟨'C', [4]⟩, ⟨'D', []⟩]

def withoutThree : Traversal Char := { unvisited := put (filled 5 true) 3 false, printed := [] }

theorem cycle_visits_white_paths :
    ∃ after order printed, (∃ enough, ∀ fuel ≥ enough,
        depthFirstSearchAux cycle fuel 1 withoutThree = some after) ∧
      (∀ w, unvisitedIn after.unvisited w → unvisitedIn withoutThree.unvisited w) ∧
      (∀ w, unvisitedIn withoutThree.unvisited w ∧ ¬ unvisitedIn after.unvisited w ↔
        Path (Edge cycle) (unvisitedIn withoutThree.unvisited) 1 w) ∧
      order.Nodup ∧
      (∀ w, w ∈ order ↔ unvisitedIn withoutThree.unvisited w ∧ ¬ unvisitedIn after.unvisited w) ∧
      after.printed = withoutThree.printed ++ printed ∧ Prints cycle order printed :=
  depth_first_search_visits_white_paths (by decide) (by decide : ((cycle.length : Nat) : Int) ≤ 5)
    (by decide) (put_spans (filled_spans 5 true) 3 false) (by unfold unvisitedIn; decide)

example : (depthFirstSearchAux cycle 5 1 withoutThree).map (fun after => after.printed) =
    some ['A', 'B'] := by decide

end UC.Digraphs
