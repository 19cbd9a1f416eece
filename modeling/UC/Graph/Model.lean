import UC.Lib.Cells

/- The undirected multigraph of example_graph.cpp: every edge is one node that is linked into
   the lists of both its endpoints. An index outside a vector and a pointer to no node are
   none; prompts are left out. -/
namespace UC.Graphs
open UC.Cells

variable {DataType : Type}

/-- vertex[1], vertex[2] and link[1], link[2]; a pointer is the number of a node. -/
structure EdgeNode where
  vertex : Nat → Int
  link : Nat → Option Int

structure VertexInfo (DataType : Type) where
  data : DataType
  first : Option Int

/-- The vector myEdgeLists and the nodes allocated so far. -/
structure Graph (DataType : Type) where
  myEdgeLists : Arr (VertexInfo DataType)
  nodes : Arr EdgeNode

def data (graph : Graph DataType) (k : Int) : Option DataType :=
  (load graph.myEdgeLists k).map fun info => info.data

def readLabels : List DataType → Arr (VertexInfo DataType) → Arr (VertexInfo DataType)
  | [], lists => lists
  | label :: labels, lists => readLabels labels (pushBack lists { data := label, first := none })

/-- One round of the loop over j. -/
def linkEndpoint (newPtr : Int) (j : Nat) (endpoint : Int) (graph : Graph DataType) :
    Option (Graph DataType) := do
  let node ← load graph.nodes newPtr
  let info ← load graph.myEdgeLists endpoint
  let nodes ← save graph.nodes newPtr
    { vertex := set node.vertex j endpoint, link := set node.link j info.first }
  let lists ← save graph.myEdgeLists endpoint { info with first := some newPtr }
  some { myEdgeLists := lists, nodes := nodes }

/-- One edge. The new node holds what its memory held. -/
def readEdge (memory : Int → EdgeNode) (edge : Int × Int) (graph : Graph DataType) :
    Option (Graph DataType) := do
  let newPtr := graph.nodes.hi
  let graph := { graph with nodes := pushBack graph.nodes (memory newPtr) }
  let graph ← linkEndpoint newPtr 1 edge.1 graph
  linkEndpoint newPtr 2 edge.2 graph

def readEdges (memory : Int → EdgeNode) : List (Int × Int) → Graph DataType →
    Option (Graph DataType)
  | [], graph => some graph
  | edge :: edges, graph => do
    let graph ← readEdge memory edge graph
    readEdges memory edges graph

/-- Reads a graph into an empty one; vi is the local before it is assigned to. -/
def read (vi : VertexInfo DataType) (memory : Int → EdgeNode) (labels : List DataType)
    (edges : List (Int × Int)) : Option (Graph DataType) :=
  readEdges memory edges
    { myEdgeLists := readLabels labels (pushBack { lo := 0, hi := 0, cell := fun _ => vi } vi),
      nodes := { lo := 0, hi := 0, cell := memory } }

def anyLeft (unvisited : Arr Bool) : Bool :=
  (stretch unvisited.cell 1 (unvisited.hi - 1)).any fun left => left

/-- The while loop of depthFirstSearch, with its recursive call. -/
def walkEdges (graph : Graph DataType) (visit : Int → Arr Bool → Option (Arr Bool)) (start : Int) :
    Nat → Option Int → Arr Bool → Option (Arr Bool)
  | 0, _, _ => none
  | rounds + 1, ptr, unvisited =>
    if anyLeft unvisited then
      match ptr with
      | none => some unvisited
      | some ptr => do
        let node ← load graph.nodes ptr
        let startEnd := if node.vertex 1 ≠ start then 2 else 1
        let otherEnd := if node.vertex 1 ≠ start then 1 else 2
        let newStart := node.vertex otherEnd
        let fresh ← load unvisited newStart
        let unvisited ← if fresh then visit newStart unvisited else some unvisited
        walkEdges graph visit start rounds (node.link startEnd) unvisited
    else some unvisited

/-- The fuel bounds the depth of the recursion and the rounds of each loop. -/
def depthFirstSearch (graph : Graph DataType) : Nat → Int → Arr Bool → Option (Arr Bool)
  | 0, _, _ => none
  | fuel + 1, start, unvisited => do
    let unvisited ← save unvisited start false
    let info ← load graph.myEdgeLists start
    walkEdges graph (depthFirstSearch graph fuel) start (fuel + 1) info.first unvisited

def isConnected (fuel : Nat) (graph : Graph DataType) : Option Bool := do
  let unvisited := filled graph.myEdgeLists.hi true
  let unvisited ← depthFirstSearch graph fuel 1 unvisited
  some (!anyLeft unvisited)

end UC.Graphs
