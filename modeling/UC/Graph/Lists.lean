import UC.Graph.Model
import UC.Lib.Chains

/- The shared edge nodes as lists: following the links of one vertex gives its neighbours. -/
namespace UC.Graphs
open UC.Cells UC.Chains

variable {DataType : Type} {graph : Graph DataType}

/-- The end of a node at a vertex, as depthFirstSearch tells it. -/
def startEnd (node : EdgeNode) (v : Int) : Nat := if node.vertex 1 ≠ v then 2 else 1

def otherEnd (node : EdgeNode) (v : Int) : Nat := if node.vertex 1 ≠ v then 1 else 2

/-- An entry is a node and the neighbour it leads to from v; the link of v leads on to next. -/
def Steps (nodes : Arr EdgeNode) (v : Int) (entry : Int × Int) (next : Option Int) : Prop :=
  ∃ node, load nodes entry.1 = some node ∧ node.vertex (otherEnd node v) = entry.2 ∧
    node.link (startEnd node v) = next

def Joined (edges : List (Int × Int)) (v w : Int) : Prop := (v, w) ∈ edges ∨ (w, v) ∈ edges

/-- The entries of a vertex are a list from a pointer on, one for each of its edges. -/
structure Entries (nodes : Arr EdgeNode) (edges : List (Int × Int)) (v : Int) (first : Option Int)
    (entries : List (Int × Int)) : Prop where
  head : headOr Prod.fst entries none = first
  linked : Linked (Steps nodes v) Prod.fst entries none
  neighbours : ∀ w, (∃ p, (p, w) ∈ entries) ↔ Joined edges v w
  few : entries.length ≤ edges.length

/-- A graph into which these edges between n vertices have been read. -/
structure Holds (n : Int) (edges : List (Int × Int)) (graph : Graph DataType) : Prop where
  lists : Spans graph.myEdgeLists (n + 1)
  nodes : Spans graph.nodes edges.length
  each : ∀ v, 1 ≤ v → v ≤ n → ∃ entries,
    Entries graph.nodes edges v (graph.myEdgeLists.cell v).first entries

def linkedGraph (newPtr : Int) (j : Nat) (endpoint : Int) (graph : Graph DataType) :
    Graph DataType :=
  { myEdgeLists := put graph.myEdgeLists endpoint
      { graph.myEdgeLists.cell endpoint with first := some newPtr },
    nodes := put graph.nodes newPtr
      { vertex := set (graph.nodes.cell newPtr).vertex j endpoint,
        link := set (graph.nodes.cell newPtr).link j (graph.myEdgeLists.cell endpoint).first } }

theorem link_endpoint_runs {n m newPtr endpoint : Int} (lists : Spans graph.myEdgeLists (n + 1))
    (nodes : Spans graph.nodes m) (allocated : 0 ≤ newPtr ∧ newPtr < m)
    (inside : 1 ≤ endpoint ∧ endpoint ≤ n) (j : Nat) :
    linkEndpoint newPtr j endpoint graph = some (linkedGraph newPtr j endpoint graph) := by
  have low : 0 ≤ endpoint := by omega
  have high : endpoint < n + 1 := by omega
  simp only [linkEndpoint, load_spans nodes allocated.1 allocated.2, load_spans lists low high,
    save_spans nodes allocated.1 allocated.2, save_spans lists low high, Option.bind_eq_bind,
    Option.bind_some, linkedGraph]

def edgeGraph (memory : Int → EdgeNode) (edge : Int × Int) (graph : Graph DataType) :
    Graph DataType :=
  linkedGraph graph.nodes.hi 2 edge.2 (linkedGraph graph.nodes.hi 1 edge.1
    { graph with nodes := pushBack graph.nodes (memory graph.nodes.hi) })

theorem read_edge_runs {n m : Int} {edge : Int × Int} (lists : Spans graph.myEdgeLists (n + 1))
    (nodes : Spans graph.nodes m) (positive : 0 ≤ m) (one : 1 ≤ edge.1 ∧ edge.1 ≤ n)
    (two : 1 ≤ edge.2 ∧ edge.2 ≤ n) (memory : Int → EdgeNode) :
    readEdge memory edge graph = some (edgeGraph memory edge graph) := by
  have grown := push_spans nodes (memory graph.nodes.hi)
  have allocated : 0 ≤ graph.nodes.hi ∧ graph.nodes.hi < m + 1 := by
    rw [nodes.hi]
    omega
  have first := @link_endpoint_runs _
    { graph with nodes := pushBack graph.nodes (memory graph.nodes.hi) } n (m + 1) _ _ lists grown
    allocated one 1
  have second := @link_endpoint_runs _ (linkedGraph graph.nodes.hi 1 edge.1
    { graph with nodes := pushBack graph.nodes (memory graph.nodes.hi) }) n (m + 1) _ _
    (put_spans lists _ _) (put_spans grown _ _) allocated two 2
  rw [readEdge, first, Option.bind_eq_bind, Option.bind_some, second]
  rfl

theorem edge_graph_spans {n m : Int} (lists : Spans graph.myEdgeLists (n + 1))
    (nodes : Spans graph.nodes m) (memory : Int → EdgeNode) (edge : Int × Int) :
    Spans (edgeGraph memory edge graph).myEdgeLists (n + 1) ∧
      Spans (edgeGraph memory edge graph).nodes (m + 1) :=
  ⟨put_spans (put_spans lists _ _) _ _, put_spans (put_spans (push_spans nodes _) _ _) _ _⟩

theorem edge_graph_first_other (memory : Int → EdgeNode) {edge : Int × Int} {v : Int}
    (one : v ≠ edge.1) (two : v ≠ edge.2) :
    ((edgeGraph memory edge graph).myEdgeLists.cell v).first =
      (graph.myEdgeLists.cell v).first := by
  simp only [edgeGraph, linkedGraph, put_cell]
  rw [set_other _ _ two, set_other _ _ one]

theorem edge_graph_first (memory : Int → EdgeNode) {edge : Int × Int} {v : Int}
    (endpoint : v = edge.1 ∨ v = edge.2) :
    ((edgeGraph memory edge graph).myEdgeLists.cell v).first = some graph.nodes.hi := by
  simp only [edgeGraph, linkedGraph, put_cell]
  by_cases two : v = edge.2
  · rw [two, set_same]
  · cases endpoint with
    | inl one => rw [set_other _ _ two, one, set_same]
    | inr same => exact absurd same two

theorem edge_graph_old_node (memory : Int → EdgeNode) (edge : Int × Int) {p : Int}
    (old : p ≠ graph.nodes.hi) :
    (edgeGraph memory edge graph).nodes.cell p = graph.nodes.cell p := by
  simp only [edgeGraph, linkedGraph, put_cell, pushBack]
  rw [set_other _ _ old, set_other _ _ old, set_other _ _ old]

theorem edge_graph_node_cell (memory : Int → EdgeNode) (edge : Int × Int) :
    ∃ node, (edgeGraph memory edge graph).nodes.cell graph.nodes.hi = node ∧
      node.vertex 1 = edge.1 ∧ node.vertex 2 = edge.2 ∧
      node.link 1 = (graph.myEdgeLists.cell edge.1).first ∧
      (edge.2 ≠ edge.1 → node.link 2 = (graph.myEdgeLists.cell edge.2).first) := by
  refine ⟨_, rfl, ?_⟩
  simp only [edgeGraph, linkedGraph, put_cell, pushBack, set_same]
  have first : (1 : Nat) ≠ 2 := by decide
  rw [set_other _ _ first, set_other _ _ first, set_same, set_same]
  refine ⟨rfl, trivial, rfl, ?_⟩
  intro apart
  rw [set_other _ _ apart]

/-- The new node leads from each endpoint to the other one, and its link for that endpoint to
    what was the first node there. -/
theorem edge_graph_new_node {m : Int} (memory : Int → EdgeNode) {edge : Int × Int} {v : Int}
    (nodes : Spans graph.nodes m) (positive : 0 ≤ m) (endpoint : v = edge.1 ∨ v = edge.2) :
    Steps (edgeGraph memory edge graph).nodes v
      (graph.nodes.hi, if v = edge.1 then edge.2 else edge.1)
      (graph.myEdgeLists.cell v).first := by
  obtain ⟨node, cell, vertex1, vertex2, link1, link2⟩ := @edge_graph_node_cell _ graph memory edge
  have spans : Spans (edgeGraph memory edge graph).nodes (m + 1) :=
    put_spans (put_spans (push_spans nodes _) _ _) _ _
  have last : graph.nodes.hi = m := nodes.hi
  refine ⟨node, ?_, ?_, ?_⟩
  · rw [load_spans spans (by dsimp only; omega) (by dsimp only; omega), cell]
  · by_cases one : v = edge.1
    · simp [otherEnd, one, vertex1, vertex2]
    · simp [otherEnd, one, vertex1, Ne.symm one]
  · by_cases one : v = edge.1
    · simp [startEnd, one, vertex1, link1]
    · have two : v = edge.2 := endpoint.resolve_left one
      have apart : edge.2 ≠ edge.1 := two ▸ one
      rw [startEnd, vertex1, if_pos (Ne.symm one), two]
      exact link2 apart

theorem steps_kept {m : Int} (memory : Int → EdgeNode) (edge : Int × Int)
    (nodes : Spans graph.nodes m) {v : Int} {entry : Int × Int} {next : Option Int}
    (steps : Steps graph.nodes v entry next) :
    Steps (edgeGraph memory edge graph).nodes v entry next := by
  obtain ⟨node, read, other, link⟩ := steps
  have spans : Spans (edgeGraph memory edge graph).nodes (m + 1) :=
    put_spans (put_spans (push_spans nodes _) _ _) _ _
  obtain ⟨first, last, cell⟩ := load_some read
  have old : entry.1 ≠ graph.nodes.hi := by omega
  have low := nodes.lo
  have high := nodes.hi
  refine ⟨node, ?_, other, link⟩
  rw [load_spans spans (by omega) (by omega), edge_graph_old_node memory edge old, cell]

theorem joined_append {edges : List (Int × Int)} {edge : Int × Int} {v w : Int} :
    Joined (edges ++ [edge]) v w ↔ Joined edges v w ∨ edge = (v, w) ∨ edge = (w, v) := by
  simp only [Joined, List.mem_append, List.mem_singleton]
  constructor
  · intro joined
    rcases joined with (old | new) | (old | new)
    · exact .inl (.inl old)
    · exact .inr (.inl new.symm)
    · exact .inl (.inr old)
    · exact .inr (.inr new.symm)
  · intro joined
    rcases joined with (old | old) | new | new
    · exact .inl (.inl old)
    · exact .inr (.inl old)
    · exact .inl (.inr new.symm)
    · exact .inr (.inr new.symm)

theorem other_endpoint {edge : Int × Int} {v w : Int} (endpoint : v = edge.1 ∨ v = edge.2) :
    w = (if v = edge.1 then edge.2 else edge.1) ↔ edge = (v, w) ∨ edge = (w, v) := by
  obtain ⟨a, b⟩ := edge
  simp only [Prod.mk.injEq] at endpoint ⊢
  split <;> omega

/-- The list of a vertex after one more edge: the new node stands first if it is an endpoint. -/
theorem edge_graph_entries {edges : List (Int × Int)} (memory : Int → EdgeNode)
    (edge : Int × Int) (nodes : Spans graph.nodes edges.length) {v : Int}
    {entries : List (Int × Int)}
    (old : Entries graph.nodes edges v (graph.myEdgeLists.cell v).first entries) :
    ∃ entries', Entries (edgeGraph memory edge graph).nodes (edges ++ [edge]) v
      ((edgeGraph memory edge graph).myEdgeLists.cell v).first entries' := by
  have kept : Linked (Steps (edgeGraph memory edge graph).nodes v) Prod.fst entries none :=
    linked_imp (fun _ _ _ => steps_kept memory edge nodes) old.linked
  by_cases endpoint : v = edge.1 ∨ v = edge.2
  · refine ⟨(graph.nodes.hi, if v = edge.1 then edge.2 else edge.1) :: entries, ?_, ?_, ?_, ?_⟩
    · rw [edge_graph_first memory endpoint, head_or_cons]
    · constructor
      · rw [old.head]
        exact edge_graph_new_node memory nodes (by omega) endpoint
      · exact kept
    · intro w
      rw [joined_append, ← old.neighbours, ← other_endpoint endpoint]
      simp only [List.mem_cons, Prod.mk.injEq, exists_or, exists_eq_left]
      exact Or.comm
    · simp [old.few]
  · rw [not_or] at endpoint
    refine ⟨entries, ?_, kept, ?_, ?_⟩
    · rw [edge_graph_first_other memory endpoint.1 endpoint.2]
      exact old.head
    · intro w
      have apart : ¬ (edge = (v, w) ∨ edge = (w, v)) := by
        intro either
        cases either with
        | inl one => exact endpoint.1 (by rw [one])
        | inr two => exact endpoint.2 (by rw [two])
      rw [joined_append, ← old.neighbours, or_iff_left apart]
    · exact old.few.trans (by simp)

theorem read_edge_holds {n : Int} {edges : List (Int × Int)} (holds : Holds n edges graph)
    {edge : Int × Int} (one : 1 ≤ edge.1 ∧ edge.1 ≤ n) (two : 1 ≤ edge.2 ∧ edge.2 ≤ n)
    (memory : Int → EdgeNode) :
    ∃ after, readEdge memory edge graph = some after ∧ Holds n (edges ++ [edge]) after := by
  have run := read_edge_runs holds.lists holds.nodes (by omega) one two memory
  obtain ⟨lists, nodes⟩ := edge_graph_spans holds.lists holds.nodes memory edge
  refine ⟨edgeGraph memory edge graph, run, lists, ?_, ?_⟩
  · simpa using nodes
  · intro v low high
    obtain ⟨entries, old⟩ := holds.each v low high
    exact edge_graph_entries memory edge holds.nodes old

theorem read_edges_holds {n : Int} {edges more : List (Int × Int)} (holds : Holds n edges graph)
    (inside : ∀ edge ∈ more, (1 ≤ edge.1 ∧ edge.1 ≤ n) ∧ 1 ≤ edge.2 ∧ edge.2 ≤ n)
    (memory : Int → EdgeNode) :
    ∃ after, readEdges memory more graph = some after ∧ Holds n (edges ++ more) after := by
  induction more generalizing edges graph with
  | nil => exact ⟨graph, rfl, by simpa using holds⟩
  | cons edge more ih =>
    obtain ⟨one, two⟩ := inside edge List.mem_cons_self
    obtain ⟨next, run, kept⟩ := read_edge_holds holds one two memory
    obtain ⟨after, runs, final⟩ :=
      ih kept fun later mem => inside later (List.mem_cons_of_mem edge mem)
    refine ⟨after, ?_, by simpa using final⟩
    rw [readEdges, run, Option.bind_eq_bind, Option.bind_some, runs]

theorem read_labels_holds {labels : List DataType} {n : Int}
    {lists : Arr (VertexInfo DataType)} (spans : Spans lists (n + 1))
    (empty : ∀ v, 1 ≤ v → v ≤ n → (lists.cell v).first = none) :
    Spans (readLabels labels lists) (n + labels.length + 1) ∧
      ∀ v, 1 ≤ v → v ≤ n + labels.length → ((readLabels labels lists).cell v).first = none := by
  induction labels generalizing n lists with
  | nil => simpa [readLabels] using ⟨spans, empty⟩
  | cons label labels ih =>
    have grown := push_spans spans { data := label, first := none }
    have length : n + ((label :: labels).length : Nat) = n + 1 + labels.length := by
      rw [List.length_cons]
      omega
    rw [readLabels, length]
    apply ih grown
    intro v low high
    simp only [pushBack, spans.hi]
    by_cases last : v = n + 1
    · rw [last, set_same]
    · rw [set_other _ _ last]
      exact empty v low (by omega)

/-- What read builds, whatever the memory of its local and of the new nodes held. -/
theorem read_holds (vi : VertexInfo DataType) (memory : Int → EdgeNode) (labels : List DataType)
    {edges : List (Int × Int)}
    (inside : ∀ edge ∈ edges, (1 ≤ edge.1 ∧ edge.1 ≤ labels.length) ∧
      1 ≤ edge.2 ∧ edge.2 ≤ labels.length) :
    ∃ graph, read vi memory labels edges = some graph ∧ Holds labels.length edges graph := by
  have dummy : Spans (pushBack { lo := 0, hi := 0, cell := fun _ => vi } vi) (0 + 1) :=
    push_spans ⟨rfl, rfl⟩ vi
  obtain ⟨lists, firsts⟩ := @read_labels_holds _ labels 0 _ dummy (by omega)
  rw [Int.zero_add] at lists firsts
  apply @read_edges_holds _ _ _ [] edges _ inside memory
  constructor
  · exact lists
  · exact ⟨rfl, rfl⟩
  · intro v low high
    refine ⟨[], ?_, trivial, ?_, Nat.le_refl _⟩
    · exact (firsts v low high).symm
    · simp [Joined]

end UC.Graphs
