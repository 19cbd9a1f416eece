import UC.Digraph.Model
import UC.Lib.Ints
import UC.Lib.Streams

/- Digraph<char>::Read on an arbitrary text: on which texts its loop ends. -/
namespace UC.Digraphs
open UC.Ints UC.Streams

/-- The locals of Read that live through its loop, the stream and the member. -/
structure Reader where
  inStream : Stream
  vi : VertexInfo Char
  n : Int
  vertex : Int
  myAdjacencyLists : Digraph Char

/-- The rounds of the for loop: the stream, vertex and adjList after them. -/
def readNeighbours : Nat → Stream → Int → List Int → Stream × Int × List Int
  | 0, inStream, vertex, adjList => (inStream, vertex, adjList)
  | k + 1, inStream, vertex, adjList =>
    let extracted := readInt INT_MIN INT_MAX inStream vertex
    readNeighbours k extracted.2 extracted.1 (adjList ++ [extracted.1])

/-- A round behind its eof test. With n = INT_MAX the condition i <= n never fails and the last
    i++ overflows. -/
def readRecord (data : Char) (reader : Reader) : Option Reader :=
  let count := readInt INT_MIN INT_MAX reader.inStream reader.n
  if count.1 = INT_MAX then none
  else
    let neighbours := readNeighbours count.1.toNat count.2 reader.vertex []
    let vi := { data := data, adjacencyList := neighbours.2.2 }
    some { inStream := neighbours.1, vi := vi, n := count.1, vertex := neighbours.2.1,
           myAdjacencyLists := reader.myAdjacencyLists ++ [vi] }

/-- The fuel bounds the rounds of the endless loop. -/
def readLoop : Nat → Reader → Option (Digraph Char)
  | 0, _ => none
  | fuel + 1, reader => do
    let extracted := readChar reader.inStream reader.vi.data
    if extracted.2.eofbit then some reader.myAdjacencyLists
    else
      let reader ← readRecord extracted.1 { reader with inStream := extracted.2 }
      readLoop fuel reader

/-- vi, n and vertex are what the locals hold before anything is assigned to them. -/
def Read (fuel : Nat) (text : List Char) (vi : VertexInfo Char) (n vertex : Int)
    (myAdjacencyLists : Digraph Char) : Option (Digraph Char) :=
  readLoop fuel { inStream := good text, vi := vi, n := n, vertex := vertex,
                  myAdjacencyLists := myAdjacencyLists ++ [vi] }

/-- What is left of a text when k numbers are read from it: nothing once its end is met, and
    none when a field in front of the end is no number that fits an int. -/
def skipNumbers : Nat → List Char → Option (List Char)
  | 0, text => some text
  | k + 1, text =>
    if skipSpace text = [] then some []
    else
      let field := number INT_MIN INT_MAX (skipSpace text)
      if field.2.2 = [] then some []
      else if field.2.1 then skipNumbers k field.2.2 else none

/-- The texts of records, each a character, a count and that many numbers, that may be cut off
    anywhere: every field in front of the last one is a number that fits, and no count is
    INT_MAX. n is the count before; it is kept where the text ends behind a character. -/
inductive Ends : Int → List Char → Prop where
  | blank {n : Int} {text : List Char} (blank : skipSpace text = []) : Ends n text
  | noCount {n : Int} {text rest : List Char} {d : Char} (data : skipSpace text = d :: rest)
      (blank : skipSpace rest = []) (small : n ≠ INT_MAX) : Ends n text
  | lastCount {n m : Int} {text rest : List Char} {d : Char} {correct : Bool}
      (data : skipSpace text = d :: rest) (nonempty : skipSpace rest ≠ [])
      (count : number INT_MIN INT_MAX (skipSpace rest) = (m, correct, [])) (small : m ≠ INT_MAX) :
      Ends n text
  | record {n m : Int} {text rest behind left : List Char} {d : Char}
      (data : skipSpace text = d :: rest) (nonempty : skipSpace rest ≠ [])
      (count : number INT_MIN INT_MAX (skipSpace rest) = (m, true, behind)) (more : behind ≠ [])
      (small : m ≠ INT_MAX) (vertices : skipNumbers m.toNat behind = some left)
      (later : Ends m left) : Ends n text

theorem neighbours_stuck {s : Stream} (stuck : Stuck s) (k : Nat) (vertex : Int)
    (adjList : List Int) : (readNeighbours k s vertex adjList).1 = s := by
  induction k generalizing vertex adjList with
  | zero => rfl
  | succ k ih =>
    rw [readNeighbours, read_int_stuck stuck]
    exact ih _ _

theorem neighbours_ended {s : Stream} (ended : s.eofbit = true) (k : Nat) (vertex : Int)
    (adjList : List Int) : (readNeighbours k s vertex adjList).1.eofbit = true := by
  induction k generalizing s vertex adjList with
  | zero => exact ended
  | succ k ih => exact ih (read_int_ended ended _ _ _) _ _

theorem neighbours_good {text : List Char} (nonempty : text ≠ []) (k : Nat) (vertex : Int)
    (adjList : List Int) :
    (skipNumbers k text = none ∧ Stuck (readNeighbours k (good text) vertex adjList).1) ∨
      (skipNumbers k text = some [] ∧
        (readNeighbours k (good text) vertex adjList).1.eofbit = true) ∨
      ∃ left, left ≠ [] ∧ skipNumbers k text = some left ∧
        (readNeighbours k (good text) vertex adjList).1 = good left := by
  induction k generalizing text vertex adjList with
  | zero => exact .inr (.inr ⟨text, nonempty, rfl, rfl⟩)
  | succ k ih =>
    rw [skipNumbers, readNeighbours]
    by_cases blank : skipSpace text = []
    · right
      left
      obtain ⟨s, read, ended⟩ := read_int_blank blank INT_MIN INT_MAX vertex
      rw [if_pos blank, read]
      exact ⟨rfl, neighbours_ended ended _ _ _⟩
    · rcases field : number INT_MIN INT_MAX (skipSpace text) with ⟨value, correct, rest⟩
      rw [if_neg blank, read_int_good blank field]
      dsimp only
      by_cases last : rest = []
      · right
        left
        rw [if_pos last]
        exact ⟨rfl, neighbours_ended (by simp [last]) _ _ _⟩
      · have unfinished : rest.isEmpty = false := by simp [last]
        rw [if_neg last]
        cases correct with
        | true =>
          rw [unfinished]
          exact ih last value _
        | false =>
          left
          have stuck : Stuck { text := rest, eofbit := rest.isEmpty, failbit := !false } :=
            ⟨rfl, unfinished⟩
          rw [neighbours_stuck stuck]
          exact ⟨rfl, stuck⟩

theorem read_loop_ended {reader : Reader} (ended : reader.inStream.eofbit = true) (fuel : Nat) :
    readLoop (fuel + 1) reader = some reader.myAdjacencyLists := by
  rw [readLoop, read_char_ended ended]
  rfl

theorem read_loop_blank {reader : Reader} {text : List Char} (stream : reader.inStream = good text)
    (blank : skipSpace text = []) (fuel : Nat) :
    readLoop (fuel + 1) reader = some reader.myAdjacencyLists := by
  rw [readLoop, stream, read_char_blank blank]
  rfl

theorem read_loop_record {reader : Reader} {text rest : List Char} {d : Char}
    (stream : reader.inStream = good text) (data : skipSpace text = d :: rest) (fuel : Nat) :
    readLoop (fuel + 1) reader =
      (readRecord d { reader with inStream := good rest }).bind (readLoop fuel) := by
  rw [readLoop, stream, read_char_good data]
  rfl

/-- A failed extraction in front of the end: no later one finds the end. -/
theorem read_loop_stuck {reader : Reader} (stuck : Stuck reader.inStream) (fuel : Nat) :
    readLoop fuel reader = none := by
  induction fuel generalizing reader with
  | zero => rfl
  | succ fuel ih =>
    rw [readLoop, read_char_stuck stuck]
    simp only [stuck.2, Bool.false_eq_true, if_false, readRecord, read_int_stuck stuck]
    by_cases large : reader.n = INT_MAX
    · simp [large]
    · rw [if_neg large]
      apply ih
      dsimp only
      rw [neighbours_stuck stuck]
      exact stuck

section
variable {reader : Reader} {text rest : List Char} {d : Char} {m : Int} {s : Stream}

theorem read_loop_count (stream : reader.inStream = good text) (data : skipSpace text = d :: rest)
    (count : readInt INT_MIN INT_MAX (good rest) reader.n = (m, s)) (small : m ≠ INT_MAX) :
    ∃ after, (∀ fuel, readLoop (fuel + 1) reader = readLoop fuel after) ∧ after.n = m ∧
      after.inStream = (readNeighbours m.toNat s reader.vertex []).1 := by
  have record := fun fuel => read_loop_record stream data fuel
  simp only [readRecord, count, if_neg small, Option.bind_some] at record
  exact ⟨_, record, rfl, rfl⟩

theorem read_loop_large (stream : reader.inStream = good text)
    (data : skipSpace text = d :: rest)
    (count : readInt INT_MIN INT_MAX (good rest) reader.n = (m, s)) (large : m = INT_MAX)
    (fuel : Nat) : readLoop fuel reader = none := by
  cases fuel with
  | zero => rfl
  | succ fuel => simp [read_loop_record stream data, readRecord, count, large]

theorem read_loop_last_count (stream : reader.inStream = good text)
    (data : skipSpace text = d :: rest)
    (count : readInt INT_MIN INT_MAX (good rest) reader.n = (m, s)) (small : m ≠ INT_MAX)
    (ended : s.eofbit = true) : ∃ fuel result, readLoop fuel reader = some result := by
  obtain ⟨after, step, _, left⟩ := read_loop_count stream data count small
  have finished : after.inStream.eofbit = true := left ▸ neighbours_ended ended _ _ _
  exact ⟨2, _, (step 1).trans (read_loop_ended finished 0)⟩

end

theorem ends_reads {n : Int} {text : List Char} (ends : Ends n text) {reader : Reader}
    (stream : reader.inStream = good text) (kept : reader.n = n) :
    ∃ fuel result, readLoop fuel reader = some result := by
  induction ends generalizing reader with
  | blank blank => exact ⟨1, _, read_loop_blank stream blank 0⟩
  | noCount data blank small =>
    obtain ⟨s, count, ended⟩ := read_int_blank blank INT_MIN INT_MAX reader.n
    exact read_loop_last_count stream data count (kept ▸ small) ended
  | lastCount data nonempty count small =>
    exact read_loop_last_count stream data (read_int_good nonempty count _) small rfl
  | @record n m text rest behind left d data nonempty count more small vertices later ih =>
    have counted := read_int_good nonempty count reader.n
    have unfinished : behind.isEmpty = false := by simp [more]
    rw [unfinished] at counted
    obtain ⟨after, step, same, rest⟩ := read_loop_count stream data counted small
    have outcome := neighbours_good more m.toNat reader.vertex []
    rw [vertices] at outcome
    cases outcome with
    | inl wrong => exact absurd wrong.1 (by simp)
    | inr outcome =>
      cases outcome with
      | inl last =>
        have ended : after.inStream.eofbit = true := rest ▸ last.2
        exact ⟨2, _, (step 1).trans (read_loop_ended ended 0)⟩
      | inr further =>
        obtain ⟨left', _, same', stream'⟩ := further
        rw [Option.some.injEq] at same'
        subst same'
        obtain ⟨fuel, result, run⟩ := ih (rest.trans stream') same
        exact ⟨fuel + 1, result, (step fuel).trans run⟩

theorem reads_ends {fuel : Nat} {reader : Reader} {text : List Char} {result : Digraph Char}
    (stream : reader.inStream = good text) (run : readLoop fuel reader = some result) :
    Ends reader.n text := by
  induction fuel generalizing reader text with
  | zero => simp [readLoop] at run
  | succ fuel ih =>
    cases data : skipSpace text with
    | nil => exact .blank data
    | cons d rest =>
      by_cases blank : skipSpace rest = []
      · apply Ends.noCount data blank
        intro large
        obtain ⟨s, count, _⟩ := read_int_blank blank INT_MIN INT_MAX reader.n
        rw [read_loop_large stream data count large] at run
        simp at run
      · rcases count : number INT_MIN INT_MAX (skipSpace rest) with ⟨m, correct, behind⟩
        have counted := read_int_good blank count reader.n
        have small : m ≠ INT_MAX := by
          intro large
          rw [read_loop_large stream data counted large] at run
          simp at run
        by_cases last : behind = []
        · subst last
          exact .lastCount data blank count small
        · obtain ⟨after, step, same, left⟩ := read_loop_count stream data counted small
          have unfinished : behind.isEmpty = false := by simp [last]
          rw [step] at run
          cases correct with
          | false =>
            have stuck : Stuck { text := behind, eofbit := behind.isEmpty, failbit := !false } :=
              ⟨rfl, unfinished⟩
            rw [neighbours_stuck stuck] at left
            rw [read_loop_stuck (left ▸ stuck)] at run
            simp at run
          | true =>
            rw [unfinished] at left
            cases neighbours_good last m.toNat reader.vertex [] with
            | inl wrong =>
              rw [read_loop_stuck (left ▸ wrong.2)] at run
              simp at run
            | inr outcome =>
              cases outcome with
              | inl ended => exact .record data blank count last small ended.1 (.blank rfl)
              | inr further =>
                obtain ⟨left', _, vertices, stream'⟩ := further
                have later := ih (left.trans stream') run
                rw [same] at later
                exact .record data blank count last small vertices later

/-- The loop of Read ends exactly on the texts of records. -/
theorem read_ends_iff (text : List Char) (vi : VertexInfo Char) (n vertex : Int)
    (myAdjacencyLists : Digraph Char) :
    (∃ fuel result, Read fuel text vi n vertex myAdjacencyLists = some result) ↔ Ends n text := by
  constructor
  · intro reads
    obtain ⟨fuel, result, run⟩ := reads
    exact reads_ends rfl run
  · intro ends
    exact ends_reads ends rfl rfl

/-- A letter where the count should be: it is never read, and the end never met. -/
theorem letter_for_count_never_ends :
    ¬ ∃ fuel result, Read fuel ['A', ' ', 'x'] ⟨'-', []⟩ 0 0 [] = some result := by
  intro reads
  obtain ⟨fuel, result, run⟩ := reads
  cases fuel with
  | zero => simp [Read, readLoop] at run
  | succ fuel =>
    have count : readInt INT_MIN INT_MAX (good [' ', 'x']) 0 = (0, ⟨['x'], false, true⟩) := by
      decide
    obtain ⟨after, step, _, left⟩ := @read_loop_count
      ⟨good ['A', ' ', 'x'], ⟨'-', []⟩, 0, 0, [⟨'-', []⟩]⟩ _ _ 'A' _ _ rfl rfl count (by decide)
    have stuck : Stuck after.inStream := by
      rw [left]
      exact ⟨rfl, rfl⟩
    rw [Read, List.nil_append, step, read_loop_stuck stuck] at run
    simp at run

example : Read 4 ['A', ' ', '2', ' ', '1', ' ', '2', '\n', 'B', '0', ' '] ⟨'-', []⟩ 7 7 [] =
    some [⟨'-', []⟩, ⟨'A', [1, 2]⟩, ⟨'B', []⟩] := by decide

end UC.Digraphs
