import UC.Lib.Cells

/- The adjacency-list digraph of example_digraph.cpp. Vertex 0 is the unused first element
   of myAdjacencyLists, and an index outside a vector is none. -/
namespace UC.Digraphs
open UC.Cells

variable {DataType : Type}

structure VertexInfo (DataType : Type) where
  data : DataType
  adjacencyList : List Int
  deriving DecidableEq

/-- The field myAdjacencyLists. -/
abbrev Digraph (DataType : Type) := List (VertexInfo DataType)

def vertexInfo (digraph : Digraph DataType) (k : Int) : Option (VertexInfo DataType) :=
  if 0 ≤ k then digraph[k.toNat]? else none

def Data (digraph : Digraph DataType) (k : Int) : Option DataType :=
  (vertexInfo digraph k).map fun info => info.data

/-- What depthFirstSearchAux works on; printed is what it has sent to cout. -/
structure Traversal (DataType : Type) where
  unvisited : Arr Bool
  printed : List DataType

/-- The loop of depthFirstSearchAux over an adjacency list, with its recursive call. -/
def visitNeighbours (visit : Int → Traversal DataType → Option (Traversal DataType)) :
    List Int → Traversal DataType → Option (Traversal DataType)
  | [], traversal => some traversal
  | it :: rest, traversal => do
    let fresh ← load traversal.unvisited it
    let traversal ← if fresh then visit it traversal else some traversal
    visitNeighbours visit rest traversal

/-- The fuel bounds the depth of the recursion. -/
def depthFirstSearchAux (digraph : Digraph DataType) :
    Nat → Int → Traversal DataType → Option (Traversal DataType)
  | 0, _, _ => none
  | fuel + 1, start, traversal => do
    let info ← vertexInfo digraph start
    let unvisited ← save traversal.unvisited start false
    visitNeighbours (depthFirstSearchAux digraph fuel) info.adjacencyList
      { unvisited := unvisited, printed := traversal.printed ++ [info.data] }

/-- The local vectors and the queue of shortestPath. -/
structure Search where
  distLabel : Arr Int
  predLabel : Arr Int
  vertexQueue : List Int

/-- The for loop over the adjacency list of vertex. -/
def labelNeighbours (vertex distance : Int) : List Int → Search → Option Search
  | [], search => some search
  | it :: rest, search => do
    let label ← load search.distLabel it
    if label < 0 then
      let distLabel ← save search.distLabel it (distance + 1)
      let predLabel ← save search.predLabel it vertex
      labelNeighbours vertex distance rest
        { distLabel := distLabel, predLabel := predLabel,
          vertexQueue := search.vertexQueue ++ [it] }
    else labelNeighbours vertex distance rest search

/-- The while loop. The fuel bounds its rounds. -/
def searchLoop (digraph : Digraph DataType) (destination : Int) :
    Nat → Int → Search → Option (Int × Search)
  | 0, _, _ => none
  | fuel + 1, distance, search => do
    let label ← load search.distLabel destination
    if label < 0 then
      match search.vertexQueue with
      | [] => some (distance, search)
      | vertex :: vertexQueue =>
        let depth ← load search.distLabel vertex
        let distance := if depth > distance then distance + 1 else distance
        let info ← vertexInfo digraph vertex
        let search ← labelNeighbours vertex distance info.adjacencyList
          { search with vertexQueue := vertexQueue }
        searchLoop digraph destination fuel distance search
    else some (distance, search)

/-- for (int k = distance - 1; k >= 0; k--) path[k] = predLabel[path[k+1]]. -/
def traceBack (predLabel : Arr Int) : Nat → Arr Int → Option (Arr Int)
  | 0, path => some path
  | k + 1, path => do
    let next ← load path (k + 1)
    let previous ← load predLabel next
    let path ← save path k previous
    traceBack predLabel k path

/-- The vector returned, and what is sent to cout. -/
def shortestPath (fuel : Nat) (digraph : Digraph DataType) (start destination : Int) :
    Option (List Int × List String) := do
  let n : Int := digraph.length
  let distLabel ← save (filled n (-1)) start 0
  let (distance, search) ← searchLoop digraph destination fuel 0
    { distLabel := distLabel, predLabel := filled n 0, vertexQueue := [start] }
  let distance := distance + 1
  let path := filled (distance + 1) 0
  let label ← load search.distLabel destination
  if label < 0 then
    some (stretch path.cell 0 distance, ["Destination not reachable from start vertex\n"])
  else
    let path ← save path distance destination
    let path ← traceBack search.predLabel distance.toNat path
    some (stretch path.cell 0 distance, [])

def InRange (digraph : Digraph DataType) (v : Int) : Prop := 0 ≤ v ∧ v < digraph.length

/-- A vertex number: 0 is none. -/
def Vertex (digraph : Digraph DataType) (v : Int) : Prop := 1 ≤ v ∧ v < digraph.length

def EntriesInRange (digraph : Digraph DataType) : Prop :=
  ∀ info ∈ digraph, ∀ w ∈ info.adjacencyList, InRange digraph w

def Edge (digraph : Digraph DataType) (v w : Int) : Prop :=
  ∃ info, vertexInfo digraph v = some info ∧ w ∈ info.adjacencyList

instance (digraph : Digraph DataType) (v : Int) : Decidable (InRange digraph v) :=
  inferInstanceAs (Decidable (_ ∧ _))

instance (digraph : Digraph DataType) (v : Int) : Decidable (Vertex digraph v) :=
  inferInstanceAs (Decidable (_ ∧ _))

instance (digraph : Digraph DataType) : Decidable (EntriesInRange digraph) :=
  inferInstanceAs (Decidable (∀ info ∈ digraph, ∀ w ∈ info.adjacencyList, InRange digraph w))

theorem vertex_in_range {digraph : Digraph DataType} {v : Int} (vertex : Vertex digraph v) :
    InRange digraph v := by
  unfold Vertex at vertex
  unfold InRange
  omega

theorem vertex_info_some {digraph : Digraph DataType} {v : Int} (inside : InRange digraph v) :
    ∃ info, vertexInfo digraph v = some info ∧ info ∈ digraph := by
  obtain ⟨low, high⟩ := inside
  have bound : v.toNat < digraph.length := by omega
  have read : vertexInfo digraph v = some digraph[v.toNat] := by
    rw [vertexInfo, if_pos low, List.getElem?_eq_getElem bound]
  exact ⟨_, read, List.getElem_mem bound⟩

theorem vertex_info_mem {digraph : Digraph DataType} {v : Int} {info : VertexInfo DataType}
    (read : vertexInfo digraph v = some info) : info ∈ digraph := by
  unfold vertexInfo at read
  split at read
  · exact List.mem_of_getElem? read
  · simp at read

theorem edge_iff {digraph : Digraph DataType} {v w : Int} {info : VertexInfo DataType}
    (read : vertexInfo digraph v = some info) : Edge digraph v w ↔ w ∈ info.adjacencyList := by
  simp [Edge, read]

theorem edge_source {digraph : Digraph DataType} {v w : Int} (edge : Edge digraph v w) :
    InRange digraph v := by
  obtain ⟨info, read, _⟩ := edge
  unfold vertexInfo at read
  split at read
  · rename_i low
    have high := (List.getElem?_eq_some_iff.mp read).1
    exact ⟨low, by omega⟩
  · simp at read

end UC.Digraphs
