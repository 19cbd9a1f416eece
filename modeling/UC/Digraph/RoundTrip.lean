import UC.Digraph.Reading
import UC.Lib.Decimals

/- Digraph<char>::Read gets back the adjacency lists that a text was written from, with any white
   space between its fields. -/
namespace UC.Digraphs
open UC.Decimals UC.Ints UC.Streams

/-- A vertex as it is written, with the white space in front of its fields. -/
structure Layout where
  first : List Char
  data : Char
  middle : List Char
  entries : List (List Char × Int)

namespace Layout

def text (l : Layout) : List Char :=
  l.first ++ l.data :: (l.middle ++ (decimal l.entries.length ++ numbersText l.entries))

def info (l : Layout) : VertexInfo Char := ⟨l.data, l.entries.map Prod.snd⟩

/-- Numbers are apart, are ints, and are fewer than INT_MAX; the data can be read. -/
structure Readable (l : Layout) : Prop where
  first : White l.first
  data : isSpace l.data = false
  middle : White l.middle
  few : l.entries.length < INT_MAX
  gaps : ∀ entry ∈ l.entries, Apart entry
  ints : ∀ entry ∈ l.entries, INT_MIN ≤ entry.2 ∧ entry.2 ≤ INT_MAX

end Layout

def written (layouts : List Layout) (last : List Char) : List Char :=
  layouts.flatMap Layout.text ++ last

theorem behind_written {layouts : List Layout} {last : List Char}
    (readable : ∀ l ∈ layouts, l.Readable) (apart : ∀ l ∈ layouts, l.first ≠ [])
    (white : White last) : Behind (written layouts last) := by
  cases layouts with
  | nil =>
    intro c first
    exact space_not_digit (white c (List.mem_of_mem_head? first))
  | cons l layouts =>
    have member : l ∈ l :: layouts := List.mem_cons_self
    rw [written, List.flatMap_cons, Layout.text, List.append_assoc, List.append_assoc]
    exact behind_gap (readable l member).first (apart l member)

theorem neighbours_written (entries : List (List Char × Int)) {rest : List Char}
    (gaps : ∀ entry ∈ entries, Apart entry)
    (ints : ∀ entry ∈ entries, INT_MIN ≤ entry.2 ∧ entry.2 ≤ INT_MAX) (behind : Behind rest)
    (vertex : Int) (adjList : List Int) :
    ∃ last, readNeighbours entries.length (after (numbersText entries ++ rest)) vertex
      adjList = (after rest, last, adjList ++ entries.map Prod.snd) := by
  induction entries generalizing vertex adjList with
  | nil => exact ⟨vertex, by simp [readNeighbours, numbersText]⟩
  | cons entry entries ih =>
    have gap := gaps entry List.mem_cons_self
    have range := ints entry List.mem_cons_self
    have moreGaps := fun other member => gaps other (List.mem_cons_of_mem entry member)
    have later := behind_numbers moreGaps behind
    have unfinished : after (entry.1 ++ (decimal entry.2 ++ (numbersText entries ++ rest))) =
        good (entry.1 ++ (decimal entry.2 ++ (numbersText entries ++ rest))) := by
      simp [after, good, gap.2]
    obtain ⟨last, read⟩ := ih moreGaps
      (fun other member => ints other (List.mem_cons_of_mem entry member)) entry.2
      (adjList ++ [entry.2])
    refine ⟨last, ?_⟩
    rw [numbers_text_cons, unfinished, List.length_cons, readNeighbours,
      read_int_decimal range.1 range.2 gap.1 later]
    rw [read, List.append_assoc]
    rfl

/-- The loop from a stream on that has a written text before it. -/
theorem read_loop_written (layouts : List Layout) {last : List Char}
    (readable : ∀ l ∈ layouts, l.Readable) (apart : ∀ l ∈ layouts.tail, l.first ≠ [])
    (white : White last) {reader : Reader}
    (stream : reader.inStream = good (written layouts last) ∨
      (written layouts last = [] ∧ reader.inStream.eofbit = true)) :
    readLoop (layouts.length + 1) reader =
      some (reader.myAdjacencyLists ++ layouts.map Layout.info) := by
  induction layouts generalizing reader with
  | nil =>
    rw [List.map_nil, List.append_nil]
    rcases stream with good | ended
    · exact read_loop_blank good (skip_white white) 0
    · exact read_loop_ended ended.2 0
  | cons l layouts ih =>
    obtain ⟨first, data, middle, few, gaps, ints⟩ := readable l List.mem_cons_self
    have others := fun other member => readable other (List.mem_cons_of_mem l member)
    have rest := behind_written others apart white
    have split : written (l :: layouts) last = l.first ++ l.data :: (l.middle ++
        (decimal l.entries.length ++ (numbersText l.entries ++ written layouts last))) := by
      simp [written, Layout.text]
    have opened : reader.inStream = good (written (l :: layouts) last) := by
      rcases stream with good | ended
      · exact good
      · rw [split] at ended
        exact absurd ended.1 (by simp)
    rw [split] at opened
    have least : INT_MIN ≤ (l.entries.length : Int) := by
      have negative : INT_MIN ≤ 0 := by decide
      omega
    have count := read_int_decimal least (Int.le_of_lt few) middle
      (behind_numbers gaps rest) reader.n
    obtain ⟨vertex, neighbours⟩ := neighbours_written l.entries gaps ints rest reader.vertex []
    have small : ¬ (l.entries.length : Int) = INT_MAX := Int.ne_of_lt few
    rw [List.length_cons, read_loop_record opened (skip_gap first data), readRecord]
    simp only [count, if_neg small, Int.toNat_natCast, neighbours, Option.bind_some]
    let next : Reader :=
      { inStream := after (written layouts last), vi := l.info, n := l.entries.length,
        vertex := vertex, myAdjacencyLists := reader.myAdjacencyLists ++ [l.info] }
    have onward : next.inStream = good (written layouts last) ∨
        (written layouts last = [] ∧ next.inStream.eofbit = true) := by
      cases remaining : written layouts last with
      | nil => exact .inr ⟨rfl, by simp [next, after, remaining]⟩
      | cons c rest => exact .inl (by simp [next, after, good, remaining])
    have later := ih others (fun other member => apart other (List.mem_of_mem_tail member)) onward
    rw [List.append_assoc] at later
    exact later

/-- Read appends the vertices that a text was written from, whatever its white space is. -/
theorem read_written (layouts : List Layout) {last : List Char}
    (readable : ∀ l ∈ layouts, l.Readable) (apart : ∀ l ∈ layouts.tail, l.first ≠ [])
    (white : White last) (vi : VertexInfo Char) (n vertex : Int) (myAdjacencyLists : Digraph Char) :
    Read (layouts.length + 1) (written layouts last) vi n vertex myAdjacencyLists =
      some (myAdjacencyLists ++ [vi] ++ layouts.map Layout.info) := by
  rw [Read, read_loop_written layouts readable apart white (.inl rfl)]

/-- Two vertices, the second without neighbours. -/
theorem two_vertices_are_read :
    Read 3 ['A', '\n', '2', ' ', '1', '\n', '2', '\n', 'B', '0', ' '] ⟨'-', []⟩ 7 7 [] =
      some [⟨'-', []⟩, ⟨'A', [1, 2]⟩, ⟨'B', []⟩] := by
  have readable : ∀ l ∈ [(⟨[], 'A', ['\n'], [([' '], 1), (['\n'], 2)]⟩ : Layout),
      ⟨['\n'], 'B', [], []⟩], l.Readable := by
    simp only [List.forall_mem_cons, List.not_mem_nil, false_implies, implies_true, and_true]
    exact ⟨⟨by decide, rfl, by decide, by decide, by decide, by decide⟩,
      ⟨by decide, rfl, by decide, by decide, by decide, by decide⟩⟩
  exact read_written _ readable (by decide) (by decide : White [' ']) ⟨'-', []⟩ 7 7 []

end UC.Digraphs
