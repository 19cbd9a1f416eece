import UC.Graph.Lists
import UC.Lib.DepthFirst

/- Connectivity: the search over the shared edge nodes, stopped early or not, tells whether
   every vertex is joined to vertex 1. -/
namespace UC.Graphs
open UC.Cells UC.Chains UC.DepthFirst

variable {DataType : Type} {graph : Graph DataType} {edges : List (Int × Int)} {n : Int}

theorem any_left_iff {unvisited : Arr Bool} (spans : Spans unvisited (n + 1)) :
    anyLeft unvisited = true ↔ ∃ v, (1 ≤ v ∧ v ≤ n) ∧ unvisitedIn unvisited v := by
  have last : unvisited.hi - 1 = n := by
    rw [spans.hi]
    omega
  rw [anyLeft, last, List.any_eq_true]
  constructor
  · intro found
    obtain ⟨left, mem, true_⟩ := found
    obtain ⟨v, inside, cell⟩ := mem_stretch.mp mem
    exact ⟨v, inside, cell.trans true_⟩
  · intro found
    obtain ⟨v, inside, fresh⟩ := found
    exact ⟨true, mem_stretch.mpr ⟨v, inside, fresh⟩, rfl⟩

section
variable {visit : Int → Arr Bool → Option (Arr Bool)} {start p w : Int} {next : Option Int}
  {unvisited after : Arr Bool}

theorem walk_edges_none_left (rounds : Nat) (ptr : Option Int) (none : ¬ anyLeft unvisited) :
    walkEdges graph visit start (rounds + 1) ptr unvisited = some unvisited := by
  simp [walkEdges, none]

theorem walk_edges_end (rounds : Nat) :
    walkEdges graph visit start (rounds + 1) none unvisited = some unvisited := by
  simp [walkEdges]

theorem walk_edges_fresh (rounds : Nat) (left : anyLeft unvisited)
    (steps : Steps graph.nodes start (p, w) next) (read : load unvisited w = some true)
    (run : visit w unvisited = some after) :
    walkEdges graph visit start (rounds + 1) (some p) unvisited =
      walkEdges graph visit start rounds next after := by
  obtain ⟨node, found, other, link⟩ := steps
  unfold otherEnd at other
  unfold startEnd at link
  simp only [walkEdges, if_pos left, found, Option.bind_eq_bind, Option.bind_some, other, link, read,
    run, if_true]

theorem walk_edges_seen (rounds : Nat) (left : anyLeft unvisited)
    (steps : Steps graph.nodes start (p, w) next) (read : load unvisited w = some false) :
    walkEdges graph visit start (rounds + 1) (some p) unvisited =
      walkEdges graph visit start rounds next unvisited := by
  obtain ⟨node, found, other, link⟩ := steps
  unfold otherEnd at other
  unfold startEnd at link
  simp only [walkEdges, if_pos left, found, Option.bind_eq_bind, Option.bind_some, other, link, read]
  rfl

end

def Between (n : Int) (edges : List (Int × Int)) : Prop :=
  ∀ edge ∈ edges, (1 ≤ edge.1 ∧ edge.1 ≤ n) ∧ 1 ≤ edge.2 ∧ edge.2 ≤ n

instance (n : Int) (edges : List (Int × Int)) : Decidable (Between n edges) :=
  inferInstanceAs (Decidable (∀ edge ∈ edges, _ ∧ _))

theorem joined_between (between : Between n edges) {v w : Int} (joined : Joined edges v w) :
    1 ≤ w ∧ w ≤ n := by
  cases joined with
  | inl one => exact (between _ one).2
  | inr two => exact (between _ two).1

/-- The call for a vertex returns, and has explored what is joined to it. -/
def Explores (graph : Graph DataType) (n : Int) (edges : List (Int × Int)) (depth : Nat)
    (start : Int) (unvisited : Arr Bool) : Prop :=
  ∃ after, (∀ fuel ≥ depth + edges.length + 1,
      depthFirstSearch graph fuel start unvisited = some after) ∧ Spans after (n + 1) ∧
    Explored (Joined edges) (unvisitedIn unvisited) (unvisitedIn after) start

theorem walk_edges_scans {depth : Nat} {start : Int} {first : Arr Bool}
    (between : Between n edges)
    (visit : ∀ v unvisited, 1 ≤ v ∧ v ≤ n → Spans unvisited (n + 1) → unvisitedIn unvisited v →
      countUnvisited (n + 1) unvisited ≤ depth → Explores graph n edges depth v unvisited)
    {entries : List (Int × Int)} {ptr : Option Int} {unvisited : Arr Bool}
    (head : headOr Prod.fst entries none = ptr)
    (linked : Linked (Steps graph.nodes start) Prod.fst entries none)
    (neighbours : ∀ entry ∈ entries, Joined edges start entry.2)
    (spans : Spans unvisited (n + 1)) (few : countUnvisited (n + 1) unvisited ≤ depth)
    (scanned : Scanned (Joined edges) (unvisitedIn first) (unvisitedIn unvisited) start
      (entries.map Prod.snd)) :
    ∃ after, (∀ fuel ≥ depth + edges.length + 1, ∀ rounds > entries.length,
        walkEdges graph (depthFirstSearch graph fuel) start rounds ptr unvisited = some after) ∧
      Spans after (n + 1) ∧
      Explored (Joined edges) (unvisitedIn first) (unvisitedIn after) start := by
  induction entries generalizing ptr unvisited with
  | nil =>
    refine ⟨unvisited, ?_, spans, scanned_all scanned⟩
    intro fuel _ rounds enough
    obtain ⟨rounds, rfl⟩ := Nat.exists_eq_succ_of_ne_zero (Nat.ne_zero_of_lt enough)
    rw [← head]
    exact walk_edges_end rounds
  | cons entry rest ih =>
    obtain ⟨p, w⟩ := entry
    have joined := neighbours (p, w) List.mem_cons_self
    have inside := joined_between between joined
    have later : ∀ entry ∈ rest, Joined edges start entry.2 := fun entry mem =>
      neighbours entry (List.mem_cons_of_mem _ mem)
    obtain ⟨steps, linked⟩ := linked
    by_cases left : anyLeft unvisited
    · have read := load_spans spans (by omega) (by omega : w < n + 1)
      by_cases fresh : unvisitedIn unvisited w
      · obtain ⟨next, run, spans', explored⟩ := visit w unvisited inside spans fresh few
        have fewer := (@count_shrinks (n + 1) _ _ explored.shrinks).trans few
        obtain ⟨after, runs, last, explored'⟩ :=
          ih rfl linked later spans' fewer (visit_scanned scanned joined fresh explored)
        refine ⟨after, ?_, last, explored'⟩
        intro fuel enough rounds more
        obtain ⟨rounds, rfl⟩ := Nat.exists_eq_succ_of_ne_zero (Nat.ne_zero_of_lt more)
        rw [← head, head_or_cons, walk_edges_fresh rounds left steps
          (read.trans (congrArg some fresh)) (run fuel enough)]
        exact runs fuel enough rounds (Nat.lt_of_succ_lt_succ more)
      · have seen : unvisited.cell w = false := Bool.eq_false_of_not_eq_true fresh
        obtain ⟨after, runs, last, explored⟩ :=
          ih rfl linked later spans few (skip_scanned scanned fresh)
        refine ⟨after, ?_, last, explored⟩
        intro fuel enough rounds more
        obtain ⟨rounds, rfl⟩ := Nat.exists_eq_succ_of_ne_zero (Nat.ne_zero_of_lt more)
        rw [← head, head_or_cons, walk_edges_seen rounds left steps
          (read.trans (congrArg some seen))]
        exact runs fuel enough rounds (Nat.lt_of_succ_lt_succ more)
    · -- Nothing is left: the rest of the list would not lead to an unvisited vertex.
      refine ⟨unvisited, ?_, spans, scanned_enough scanned ?_⟩
      · intro fuel _ rounds more
        obtain ⟨rounds, rfl⟩ := Nat.exists_eq_succ_of_ne_zero (Nat.ne_zero_of_lt more)
        exact walk_edges_none_left rounds ptr left
      · intro u x edge fresh
        exact left ((any_left_iff spans).mpr ⟨x, joined_between between edge, fresh⟩)

theorem depth_first_search_explores (holds : Holds n edges graph) (between : Between n edges)
    {depth : Nat} {start : Int} {unvisited : Arr Bool} (inside : 1 ≤ start ∧ start ≤ n)
    (spans : Spans unvisited (n + 1)) (fresh : unvisitedIn unvisited start)
    (few : countUnvisited (n + 1) unvisited ≤ depth) :
    Explores graph n edges depth start unvisited := by
  induction depth generalizing start unvisited with
  | zero =>
    have marked := count_marked (by omega) (by omega : start < n + 1) fresh
    omega
  | succ depth ih =>
    have low : 0 ≤ start := by omega
    have high : start < n + 1 := by omega
    have marked := count_marked low high fresh
    obtain ⟨entries, list⟩ := holds.each start inside.1 inside.2
    have neighbours : ∀ entry ∈ entries, Joined edges start entry.2 := fun entry mem =>
      (list.neighbours entry.2).mp ⟨entry.1, mem⟩
    have all : ∀ w, Joined edges start w → w ∈ entries.map Prod.snd := by
      intro w joined
      obtain ⟨p, mem⟩ := (list.neighbours w).mpr joined
      exact List.mem_map_of_mem mem
    obtain ⟨after, runs, last, explored⟩ := walk_edges_scans between
      (fun v unvisited inside spans fresh few => ih inside spans fresh few) list.head list.linked
      neighbours (put_spans spans start false) (by omega) (mark_scanned unvisited_put all)
    refine ⟨after, ?_, last, explored⟩
    intro fuel enough
    obtain ⟨fuel, rfl⟩ := Nat.exists_eq_succ_of_ne_zero (Nat.ne_zero_of_lt enough)
    rw [depthFirstSearch, save_spans spans low high, Option.bind_eq_bind, Option.bind_some,
      load_spans holds.lists low high]
    have entriesFew := list.few
    exact runs fuel (by omega) (fuel + 1) (by omega)

/-- For every multigraph read: the search ends, and says true exactly when every vertex is
    joined to vertex 1 by a path of edges. -/
theorem is_connected_iff (vi : VertexInfo DataType) (memory : Int → EdgeNode)
    (labels : List DataType) (nonempty : labels ≠ []) (between : Between labels.length edges) :
    ∃ graph connected, read vi memory labels edges = some graph ∧
      (∃ enough, ∀ fuel ≥ enough, isConnected fuel graph = some connected) ∧
      (connected = true ↔ ∀ v : Int, 1 ≤ v → v ≤ labels.length →
        Relation.ReflTransGen (Joined edges) 1 v) := by
  obtain ⟨graph, run, holds⟩ := read_holds vi memory labels between
  have positive := List.length_pos_iff.mpr nonempty
  have spans : Spans (filled graph.myEdgeLists.hi true) (labels.length + 1) := by
    rw [holds.lists.hi]
    exact filled_spans _ _
  have all : ∀ v, unvisitedIn (filled graph.myEdgeLists.hi true) v := fun _ => rfl
  obtain ⟨after, runs, last, explored⟩ :=
    depth_first_search_explores holds between (by omega) spans (all 1) (le_refl _)
  have returns : ∀ fuel ≥ countUnvisited (labels.length + 1)
      (filled graph.myEdgeLists.hi true) + edges.length + 1,
      isConnected fuel graph = some (!anyLeft after) := by
    intro fuel enough
    rw [isConnected, runs fuel enough]
    rfl
  refine ⟨graph, !anyLeft after, run, ⟨_, returns⟩, ?_⟩
  have joined : ∀ v, ¬ unvisitedIn after v ↔ Relation.ReflTransGen (Joined edges) 1 v := by
    intro v
    have white := explored_iff explored (all 1) v
    rw [and_iff_right (all v)] at white
    rw [white]
    constructor
    · exact Relation.ReflTransGen.mono (fun _ _ step => step.1) 1 v
    · exact Relation.ReflTransGen.mono (fun _ b step => ⟨step, all b⟩) 1 v
  rw [Bool.not_eq_true', ← Bool.not_eq_true, any_left_iff last]
  constructor
  · intro none v low high
    exact (joined v).mp fun fresh => none ⟨v, ⟨low, high⟩, fresh⟩
  · intro every found
    obtain ⟨v, inside, fresh⟩ := found
    exact (joined v).mpr (every v inside.1 inside.2) fresh

/-- Self-loops at 1 and 4, two parallel edges between 1 and 2, and vertex 4 apart. -/
def loops : List (Int × Int) := [(1, 1), (1, 2), (2, 1), (3, 2), (4, 4)]

def dirty (p : Int) : EdgeNode := { vertex := fun _ => p + 1, link := fun _ => some p }

theorem loops_is_connected_iff :
    ∃ graph connected, read ⟨'?', some 7⟩ dirty ['a', 'b', 'c', 'd'] loops = some graph ∧
      (∃ enough, ∀ fuel ≥ enough, isConnected fuel graph = some connected) ∧
      (connected = true ↔ ∀ v : Int, 1 ≤ v → v ≤ (['a', 'b', 'c', 'd'].length : Nat) →
        Relation.ReflTransGen (Joined loops) 1 v) :=
  is_connected_iff ⟨'?', some 7⟩ dirty ['a', 'b', 'c', 'd'] (by decide) (by decide)

example : (read ⟨'?', none⟩ dirty ['a', 'b', 'c', 'd'] loops).bind (isConnected 11) =
    some false := by decide +kernel

end UC.Graphs
