import UC.Digraph.Model
import UC.Lib.Levels

/- Breadth-first search with distance labels: what shortestPath returns for every digraph
   and every pair of vertices. -/
namespace UC.Digraphs
open UC.Cells UC.Levels

variable {DataType : Type} {digraph : Digraph DataType} {start destination : Int}

/-- The labels a search has given, as the levels of a breadth-first search. -/
def labels (search : Search) : Labels Int :=
  { level := search.distLabel.cell, pred := search.predLabel.cell, queue := search.vertexQueue }

structure Sized (digraph : Digraph DataType) (search : Search) : Prop where
  dist : Spans search.distLabel digraph.length
  pred : Spans search.predLabel digraph.length
  queue : ∀ v ∈ search.vertexQueue, InRange digraph v

def numbers (digraph : Digraph DataType) : Finset Int := indices 0 (digraph.length - 1)

theorem mem_numbers {v : Int} : v ∈ numbers digraph ↔ InRange digraph v := by
  rw [numbers, mem_indices, InRange]
  omega

/-- Every round takes a vertex off the queue, and only unlabelled vertices join it. -/
def remaining (digraph : Digraph DataType) (search : Search) : Nat :=
  (unlabelled search.distLabel.cell (numbers digraph)).card + search.vertexQueue.length

theorem load_label {search : Search} (sized : Sized digraph search) {v : Int}
    (inside : InRange digraph v) : load search.distLabel v = some (search.distLabel.cell v) :=
  load_spans sized.dist inside.1 inside.2

/-- What the scan of some neighbours of a vertex at a given distance leaves. -/
structure Scanned (digraph : Digraph DataType) (start distance : Int) (search after : Search) :
    Prop where
  sized : Sized digraph after
  searched : Searched (Edge digraph) start (labels after) distance []
  labelled : ∀ v, after.distLabel.cell v = search.distLabel.cell v ∨
    after.distLabel.cell v = distance + 1
  measure : remaining digraph after = remaining digraph search

/-- One neighbour that has no label yet. -/
def addLabel (search : Search) (vertex distance it : Int) : Search :=
  { distLabel := put search.distLabel it (distance + 1),
    predLabel := put search.predLabel it vertex,
    vertexQueue := search.vertexQueue ++ [it] }

theorem labels_add (search : Search) (vertex distance it : Int) :
    labels (addLabel search vertex distance it) = label (labels search) vertex it distance := rfl

theorem sized_add {search : Search} (sized : Sized digraph search) (vertex distance : Int)
    {it : Int} (inside : InRange digraph it) :
    Sized digraph (addLabel search vertex distance it) := by
  constructor
  · exact put_spans sized.dist it _
  · exact put_spans sized.pred it _
  · intro v mem
    cases List.mem_append.mp mem with
    | inl old => exact sized.queue v old
    | inr last =>
      rw [List.mem_singleton.mp last]
      exact inside

theorem remaining_add {search : Search} {vertex distance it : Int} (deep : 0 ≤ distance)
    (fresh : search.distLabel.cell it < 0) (inside : InRange digraph it) :
    remaining digraph (addLabel search vertex distance it) = remaining digraph search := by
  have fewer := @label_counts Int _ (labels search) vertex it distance _ deep fresh
    (mem_numbers.mpr inside)
  have longer : (addLabel search vertex distance it).vertexQueue.length =
      search.vertexQueue.length + 1 := by simp [addLabel]
  rw [← labels_add] at fewer
  dsimp only [labels] at fewer
  unfold remaining
  omega

theorem label_neighbours_scanned {vertex distance : Int} {neighbours : List Int}
    (inside : ∀ w ∈ neighbours, InRange digraph w) {search : Search}
    (sized : Sized digraph search)
    (searched : Searched (Edge digraph) start (labels search) distance
      (neighbours.map fun w => (vertex, w))) :
    ∃ after, labelNeighbours vertex distance neighbours search = some after ∧
      Scanned digraph start distance search after := by
  induction neighbours generalizing search with
  | nil => exact ⟨search, rfl, sized, searched, fun v => .inl rfl, rfl⟩
  | cons it rest ih =>
    have here := inside it List.mem_cons_self
    have later : ∀ w ∈ rest, InRange digraph w := fun w mem =>
      inside w (List.mem_cons_of_mem it mem)
    rw [labelNeighbours, load_label sized here, Option.bind_eq_bind, Option.bind_some]
    by_cases fresh : search.distLabel.cell it < 0
    · have grown := sized_add sized vertex distance here
      obtain ⟨after, run, scanned⟩ := ih later grown (label_searched searched fresh)
      rw [if_pos fresh, save_spans sized.dist here.1 here.2, save_spans sized.pred here.1 here.2]
      refine ⟨after, run, scanned.sized, scanned.searched, ?_, ?_⟩
      · intro v
        cases scanned.labelled v with
        | inl kept =>
          rw [kept]
          by_cases same : v = it
          · right
            rw [same]
            exact set_same _ _ _
          · left
            exact set_other _ _ same
        | inr new => exact .inr new
      · rw [scanned.measure]
        exact remaining_add searched.deep fresh here
    · rw [if_neg fresh]
      exact ih later sized (skip_searched searched (not_lt.mp fresh))

/-- How the while loop ends: the destination is not labelled and nothing is left in the queue,
    or it has the label distance + 1. -/
structure Ended (digraph : Digraph DataType) (start destination distance : Int)
    (search : Search) : Prop where
  sized : Sized digraph search
  searched : Searched (Edge digraph) start (labels search) distance []
  outcome : search.distLabel.cell destination < 0 ∧ search.vertexQueue = [] ∨
    search.distLabel.cell destination = distance + 1

theorem search_round (entries : EntriesInRange digraph) {distance : Int} {search : Search}
    (sized : Sized digraph search)
    (searched : Searched (Edge digraph) start (labels search) distance [])
    (inside : InRange digraph destination) (none : search.distLabel.cell destination < 0)
    {vertex : Int} {rest : List Int} (queue : search.vertexQueue = vertex :: rest) :
    ∃ after, Scanned digraph start (search.distLabel.cell vertex)
        { search with vertexQueue := rest } after ∧
      ∀ fuel, searchLoop digraph destination (fuel + 1) distance search =
        searchLoop digraph destination fuel (search.distLabel.cell vertex) after := by
  have here := sized.queue vertex (by simp [queue])
  obtain ⟨info, read, mem⟩ := vertex_info_some here
  have smaller : Sized digraph { search with vertexQueue := rest } :=
    ⟨sized.dist, sized.pred, fun v later => sized.queue v (by simp [queue, later])⟩
  have taken := dequeue_searched searched queue fun w => edge_iff read
  obtain ⟨after, run, scanned⟩ :=
    label_neighbours_scanned (entries info mem) smaller taken
  have depth : (if search.distLabel.cell vertex > distance then distance + 1 else distance) =
      search.distLabel.cell vertex := queue_head searched queue
  dsimp only [labels] at run
  refine ⟨after, scanned, ?_⟩
  intro fuel
  simp only [searchLoop, load_label sized inside, Option.bind_eq_bind, Option.bind_some, if_pos none,
    queue, load_label sized here, read]
  rw [depth, run]
  rfl

theorem search_loop_ends (entries : EntriesInRange digraph) (inside : InRange digraph destination)
    {distance : Int} {search : Search} (sized : Sized digraph search)
    (searched : Searched (Edge digraph) start (labels search) distance [])
    (outcome : search.distLabel.cell destination < 0 ∨
      search.distLabel.cell destination = distance + 1) :
    ∃ last after, (∀ fuel > remaining digraph search,
      searchLoop digraph destination fuel distance search = some (last, after)) ∧
      Ended digraph start destination last after := by
  induction measure : remaining digraph search using Nat.strongRecOn
    generalizing distance search with
  | ind m ih =>
    cases outcome with
    | inr found =>
      refine ⟨distance, search, ?_, sized, searched, .inr found⟩
      intro fuel enough
      obtain ⟨fuel, rfl⟩ := Nat.exists_eq_succ_of_ne_zero (Nat.ne_zero_of_lt enough)
      have labelled : ¬ search.distLabel.cell destination < 0 := by
        have deep := searched.deep
        omega
      simp [searchLoop, load_label sized inside, labelled]
    | inl none =>
      cases queue : search.vertexQueue with
      | nil =>
        refine ⟨distance, search, ?_, sized, searched, .inl ⟨none, queue⟩⟩
        intro fuel enough
        obtain ⟨fuel, rfl⟩ := Nat.exists_eq_succ_of_ne_zero (Nat.ne_zero_of_lt enough)
        simp [searchLoop, load_label sized inside, queue]
      | cons vertex rest =>
        obtain ⟨next, scanned, round⟩ := search_round entries sized searched inside none queue
        have less : remaining digraph next + 1 = m := by
          rw [scanned.measure, ← measure]
          simp [remaining, queue]
          omega
        have outcome : next.distLabel.cell destination < 0 ∨
            next.distLabel.cell destination = search.distLabel.cell vertex + 1 := by
          cases scanned.labelled destination with
          | inl kept => exact .inl (kept ▸ none)
          | inr new => exact .inr new
        obtain ⟨last, after, runs, ended⟩ :=
          ih (remaining digraph next) (by omega) scanned.sized scanned.searched outcome rfl
        refine ⟨last, after, ?_, ended⟩
        intro fuel enough
        obtain ⟨fuel, rfl⟩ := Nat.exists_eq_succ_of_ne_zero (Nat.ne_zero_of_lt enough)
        rw [round]
        exact runs fuel (by omega)

theorem trace_back_climbs {search : Search} (sized : Sized digraph search) {depth : Int}
    (searched : Searched (Edge digraph) start (labels search) depth []) {m : Int} {k : Nat}
    (inside : k < m) {path : Arr Int} (spans : Spans path m)
    (level : search.distLabel.cell (path.cell k) = k) (here : InRange digraph (path.cell k)) :
    ∃ traced, traceBack search.predLabel k path = some traced ∧
      (∀ i : Int, k ≤ i → traced.cell i = path.cell i) ∧ traced.cell 0 = start ∧
      ∀ i : Int, 0 ≤ i → i < k → Edge digraph (traced.cell i) (traced.cell (i + 1)) := by
  induction k generalizing path with
  | zero =>
    refine ⟨path, rfl, fun i _ => rfl, level_zero searched level, ?_⟩
    intro i low high
    omega
  | succ k ih =>
    rw [Int.natCast_succ] at inside level here
    obtain ⟨above, edge⟩ := level_succ searched level
    obtain ⟨traced, run, same, begins, edges⟩ := ih (by omega)
      (put_spans spans k (search.predLabel.cell (path.cell (k + 1))))
      (by rw [put_cell, set_same]; exact above) (by rw [put_cell, set_same]; exact edge_source edge)
    refine ⟨traced, ?_, ?_, begins, ?_⟩
    · rw [traceBack, load_spans spans (by omega) inside, Option.bind_eq_bind, Option.bind_some,
        load_spans sized.pred here.1 here.2, Option.bind_some,
        save_spans spans (by omega) (by omega)]
      exact run
    · intro i le
      rw [Int.natCast_succ] at le
      rw [same i (by omega), put_cell, set_other _ _ (by omega)]
    · intro i low high
      by_cases last : i = k
      · subst last
        rw [same k (le_refl _), same (k + 1) (by omega), put_cell, set_same,
          set_other _ _ (by omega)]
        exact edge
      · exact edges i low (by omega)

/-- The call returns, with this vector and this output, however many rounds it may take. -/
def Returns (digraph : Digraph DataType) (start destination : Int) (path : List Int)
    (printed : List String) : Prop :=
  ∃ enough, ∀ fuel ≥ enough, shortestPath fuel digraph start destination = some (path, printed)

theorem returns_unique {path path' : List Int} {printed printed' : List String}
    (one : Returns digraph start destination path printed)
    (other : Returns digraph start destination path' printed') : path = path' := by
  obtain ⟨enough, runs⟩ := one
  obtain ⟨enough', runs'⟩ := other
  have first := runs (max enough enough') (le_max_left _ _)
  rw [runs' (max enough enough') (le_max_right _ _)] at first
  simp only [Option.some.injEq, Prod.mk.injEq] at first
  exact first.1.symm

/-- A path of edges from start to destination, as a vector. -/
structure Leads (digraph : Digraph DataType) (start destination : Int) (path : List Int) : Prop where
  begins : path.head? = some start
  ends : path.getLast? = some destination
  edges : path.IsChain (Edge digraph)

def startSearch (digraph : Digraph DataType) (start : Int) : Search :=
  { distLabel := put (filled digraph.length (-1)) start 0, predLabel := filled digraph.length 0,
    vertexQueue := [start] }

theorem start_sized (inside : InRange digraph start) : Sized digraph (startSearch digraph start) := by
  constructor
  · exact put_spans (filled_spans _ _) _ _
  · exact filled_spans _ _
  · intro v mem
    rw [List.mem_singleton.mp mem]
    exact inside

def answer (destination distance : Int) (search : Search) : Option (List Int × List String) := do
  let path := filled (distance + 1) 0
  let label ← load search.distLabel destination
  if label < 0 then
    some (stretch path.cell 0 distance, ["Destination not reachable from start vertex\n"])
  else
    let path ← save path distance destination
    let path ← traceBack search.predLabel distance.toNat path
    some (stretch path.cell 0 distance, [])

theorem shortest_path_answer (inside : InRange digraph start) {fuel : Nat} {last : Int}
    {after : Search}
    (loop : searchLoop digraph destination fuel 0 (startSearch digraph start) = some (last, after)) :
    shortestPath fuel digraph start destination = answer destination (last + 1) after := by
  have write := save_spans (filled_spans (digraph.length : Int) (-1 : Int)) inside.1 inside.2 0
  rw [shortestPath, write, Option.bind_eq_bind, Option.bind_some]
  change (searchLoop digraph destination fuel 0 (startSearch digraph start)).bind _ = _
  rw [loop]
  rfl

/-- The loop from the start vertex on, when this is not the destination. -/
theorem search_from_start (entries : EntriesInRange digraph) (inside : InRange digraph start)
    (target : InRange digraph destination) (apart : start ≠ destination) :
    ∃ last after, Ended digraph start destination last after ∧
      ∃ enough, ∀ fuel ≥ enough,
        shortestPath fuel digraph start destination = answer destination (last + 1) after := by
  have searched : Searched (Edge digraph) start (labels (startSearch digraph start)) 0 [] :=
    start_searched (Edge digraph) start fun _ => 0
  have none : (startSearch digraph start).distLabel.cell destination < 0 := by
    have unlabelled := @start_others Int start _ (fun _ => 0) destination apart.symm
    change (startLabels start fun _ => 0).level destination < 0
    omega
  obtain ⟨last, after, runs, ended⟩ :=
    search_loop_ends entries target (start_sized inside) searched (.inl none)
  refine ⟨last, after, ended, remaining digraph (startSearch digraph start) + 1, ?_⟩
  intro fuel enough
  exact shortest_path_answer inside (runs fuel enough)

theorem answer_found {distance : Int} {search : Search} (sized : Sized digraph search)
    (searched : Searched (Edge digraph) start (labels search) distance [])
    (target : InRange digraph destination)
    (label : search.distLabel.cell destination = distance + 1) :
    ∃ path, answer destination (distance + 1) search = some (path, []) ∧
      Leads digraph start destination path ∧ (path.length : Int) = distance + 2 := by
  have deep := searched.deep
  obtain ⟨k, level⟩ := Int.eq_ofNat_of_zero_le (show 0 ≤ distance + 1 by omega)
  rw [level] at label ⊢
  have spans := put_spans (filled_spans ((k : Int) + 1) 0) k destination
  have top : (put (filled ((k : Int) + 1) 0) k destination).cell k = destination := set_same _ _ _
  obtain ⟨traced, run, same, begins, edges⟩ := trace_back_climbs sized searched
    (by omega : (k : Int) < k + 1) spans (by rw [top, label]) (by rw [top]; exact target)
  have labelled : ¬ search.distLabel.cell destination < 0 := by omega
  refine ⟨stretch traced.cell 0 k, ?_, ⟨?_, ?_, ?_⟩, ?_⟩
  · rw [answer, load_label sized target, Option.bind_eq_bind, Option.bind_some, if_neg labelled,
      save_spans (filled_spans _ _) (by omega) (by omega)]
    change (traceBack search.predLabel (k : Int).toNat _).bind _ = _
    rw [Int.toNat_natCast, run]
    rfl
  · rw [stretch_head _ (by omega), begins]
  · rw [stretch_last _ (by omega), same k (le_refl _), top]
  · exact stretch_chain edges
  · rw [stretch_length]
    omega

theorem answer_not_found {distance : Int} {search : Search} (sized : Sized digraph search)
    (searched : Searched (Edge digraph) start (labels search) distance [])
    (target : InRange digraph destination) (none : search.distLabel.cell destination < 0) :
    ∃ path, answer destination (distance + 1) search =
      some (path, ["Destination not reachable from start vertex\n"]) ∧ path ≠ [] := by
  have deep := searched.deep
  refine ⟨stretch (filled (distance + 1 + 1) (0 : Int)).cell 0 (distance + 1), ?_, ?_⟩
  · rw [answer, load_label sized target, Option.bind_eq_bind, Option.bind_some, if_pos none]
  · intro empty
    have length := congrArg List.length empty
    rw [stretch_length] at length
    simp at length
    omega

/-- A reachable destination other than the start: the vector is a path of as few edges as any
    walk has. -/
theorem shortest_path_returns_shortest (entries : EntriesInRange digraph)
    (inside : InRange digraph start) (target : InRange digraph destination)
    (apart : start ≠ destination) (reach : Reaches (Edge digraph) start destination) :
    ∃ path, Returns digraph start destination path [] ∧ Leads digraph start destination path ∧
      ∀ edges, Walk (Edge digraph) start edges destination → path.length ≤ edges + 1 := by
  obtain ⟨last, after, ended, enough, runs⟩ := search_from_start entries inside target apart
  cases ended.outcome with
  | inl missed => exact absurd reach (unlabelled_unreachable ended.searched missed.2 missed.1)
  | inr found =>
    obtain ⟨path, made, leads, length⟩ := answer_found ended.sized ended.searched target found
    refine ⟨path, ⟨enough, fun fuel more => by rw [runs fuel more, made]⟩, leads, ?_⟩
    intro edges walk
    have few := walk_not_shorter ended.searched found walk
    dsimp only [labels] at few
    omega

/-- Four vertices with a self-loop, a repeated edge, a cycle and two ways from 1 to 4. -/
def crossing : Digraph Char :=
  [⟨'-', []⟩, ⟨'A', [1, 2, 2, 3]⟩, ⟨'B', [3, 1]⟩, ⟨'C', [4]⟩, ⟨'D', [1]⟩]

theorem crossing_reaches : Reaches (Edge crossing) 1 4 :=
  ⟨3, .next (.next (.next .zero ⟨_, rfl, (by decide : (2 : Int) ∈ [1, 2, 2, 3])⟩)
    ⟨_, rfl, (by decide : (3 : Int) ∈ [3, 1])⟩) ⟨_, rfl, (by decide : (4 : Int) ∈ [4])⟩⟩

theorem shortest_path_across : ∃ path, Returns crossing 1 4 path [] ∧ Leads crossing 1 4 path ∧
    ∀ edges, Walk (Edge crossing) 1 edges 4 → path.length ≤ edges + 1 :=
  shortest_path_returns_shortest (by decide) (by decide) (by decide) (by decide) crossing_reaches

example : shortestPath 5 crossing 1 4 = some ([1, 3, 4], []) := by decide

theorem shortest_path_not_reachable (entries : EntriesInRange digraph)
    (inside : InRange digraph start) (target : InRange digraph destination)
    (apart : start ≠ destination) (unreachable : ¬ Reaches (Edge digraph) start destination) :
    ∃ path, Returns digraph start destination path
      ["Destination not reachable from start vertex\n"] ∧ path ≠ [] := by
  obtain ⟨last, after, ended, enough, runs⟩ := search_from_start entries inside target apart
  cases ended.outcome with
  | inl missed =>
    obtain ⟨path, made, nonempty⟩ :=
      answer_not_found ended.sized ended.searched target missed.1
    exact ⟨path, ⟨enough, fun fuel more => by rw [runs fuel more, made]⟩, nonempty⟩
  | inr found =>
    have deep := ended.searched.deep
    obtain ⟨k, level⟩ := Int.eq_ofNat_of_zero_le (show 0 ≤ last + 1 by omega)
    exact absurd ⟨k, level_walk ended.searched (found.trans level)⟩ unreachable

/-- A vertex as its own destination: the loop is not entered, and the predecessor of the start
    is the 0 the vector was made with. -/
theorem shortest_path_to_start (inside : InRange digraph start) :
    Returns digraph start start [0, start] [] := by
  refine ⟨1, fun fuel enough => ?_⟩
  obtain ⟨fuel, rfl⟩ := Nat.exists_eq_succ_of_ne_zero (Nat.ne_zero_of_lt enough)
  have sized := start_sized inside
  have label : (startSearch digraph start).distLabel.cell start = 0 := set_same _ _ _
  have labelled : ¬ (startSearch digraph start).distLabel.cell start < 0 := by omega
  have loop : searchLoop digraph start (fuel + 1) 0 (startSearch digraph start) =
      some (0, startSearch digraph start) := by
    rw [searchLoop, load_label sized inside, Option.bind_eq_bind, Option.bind_some,
      if_neg labelled]
  rw [shortest_path_answer inside loop, answer, load_label sized inside, Option.bind_eq_bind,
    Option.bind_some, if_neg labelled, save_spans (filled_spans _ _) (by omega) (by omega)]
  have previous : load (startSearch digraph start).predLabel start = some 0 :=
    load_spans sized.pred inside.1 inside.2
  have traced : traceBack (startSearch digraph start).predLabel 1 (put (filled (0 + 1 + 1) 0) (0 + 1)
      start) = some (put (put (filled (0 + 1 + 1) 0) (0 + 1) start) 0 0) := by
    change (load (startSearch digraph start).predLabel start).bind _ = _
    rw [previous]
    rfl
  change (traceBack (startSearch digraph start).predLabel 1 _).bind _ = _
  rw [traced]
  rfl

/-- What the vector is to tell its caller: that there is no path, or one. -/
def Tells (digraph : Digraph DataType) (start destination : Int) (path : List Int) : Prop :=
  (¬ Reaches (Edge digraph) start destination → path = []) ∧
    (Reaches (Edge digraph) start destination → Leads digraph start destination path)

/-- The vector tells whether there is a path exactly when there is one from the start to
    another vertex. -/
theorem path_tells_iff (entries : EntriesInRange digraph) (first : Vertex digraph start)
    (second : Vertex digraph destination) :
    (∃ path printed, Returns digraph start destination path printed ∧
        Tells digraph start destination path) ↔
      start ≠ destination ∧ Reaches (Edge digraph) start destination := by
  have inside := vertex_in_range first
  have target := vertex_in_range second
  constructor
  · intro telling
    obtain ⟨path, printed, returns, tells⟩ := telling
    have apart : start ≠ destination := by
      intro same
      subst same
      have begins := (tells.2 ⟨0, Walk.zero⟩).begins
      rw [returns_unique returns (shortest_path_to_start inside)] at begins
      have positive := first.1
      simp at begins
      omega
    constructor
    · exact apart
    · by_contra unreachable
      obtain ⟨zeros, other, nonempty⟩ :=
        shortest_path_not_reachable entries inside target apart unreachable
      have empty := tells.1 unreachable
      rw [returns_unique returns other] at empty
      exact nonempty empty
  · intro reached
    obtain ⟨apart, reach⟩ := reached
    obtain ⟨path, returns, leads, _⟩ :=
      shortest_path_returns_shortest entries inside target apart reach
    exact ⟨path, [], returns, fun unreachable => absurd reach unreachable, fun _ => leads⟩

theorem path_across_tells :
    (∃ path printed, Returns crossing 1 4 path printed ∧ Tells crossing 1 4 path) ↔
      (1 : Int) ≠ 4 ∧ Reaches (Edge crossing) 1 4 :=
  path_tells_iff (by decide) (by decide) (by decide)

def isolated : Digraph Char := [⟨'-', []⟩, ⟨'A', []⟩, ⟨'B', []⟩]

theorem isolated_not_reached : ¬ Reaches (Edge isolated) 1 2 := by
  intro reach
  obtain ⟨n, walk⟩ := reach
  cases walk with
  | next before edge =>
    obtain ⟨info, read, mem⟩ := edge
    have lonely : ∀ info ∈ isolated, info.adjacencyList = [] := by decide
    rw [lonely info (vertex_info_mem read)] at mem
    simp at mem

/-- The zeros returned for a vertex out of reach are no sign that there is no path. -/
theorem isolated_not_told :
    ¬ ∃ path printed, Returns isolated 1 2 path printed ∧ Tells isolated 1 2 path := by
  intro telling
  obtain ⟨path, printed, returns, tells⟩ := telling
  obtain ⟨zeros, other, nonempty⟩ := @shortest_path_not_reachable _ isolated 1 2 (by decide)
    (by decide) (by decide) (by decide) isolated_not_reached
  have empty := tells.1 isolated_not_reached
  rw [returns_unique returns other] at empty
  exact nonempty empty

end UC.Digraphs
