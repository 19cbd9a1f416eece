import Mathlib.Data.Fin.Basic
import UC.Lib.Slots
import UC.Trie.Insert

/- What do_travel prints. The words of a trie are listed without a buffer, and the buffer of
   do_travel is shown to hold the path to the node it is at. -/
namespace UC.Trie
open UC.Memory UC.Slots UC.Tails

/-- The words in the nodes of a trie, with the numbers printed for them. -/
def lines : TrieNode → List (Word × Int)
  | .NULL => []
  | .node count pass next =>
    (if count ≠ 0 then [([], count + pass)] else []) ++
      (List.finRange TREE_WIDTH).flatMap fun c =>
        (lines (next c)).map fun line => (c :: line.1, line.2)

section Lines

variable {ws : List Word}

theorem mem_lines_node {count pass : Int} {next : Byte → TrieNode}
    (counts : Counts (.node count pass next) ws)
    (below : ∀ c w n, (w, n) ∈ lines (next c) ↔
      w ∈ tails c ws ∧ n = (tails c ws).countP fun v => w <+: v) (w : Word) (n : Int) :
    (w, n) ∈ lines (.node count pass next) ↔ w ∈ ws ∧ n = ws.countP fun v => w <+: v := by
  have total := counts_total counts
  have ended := counts.1
  cases w with
  | nil =>
    have here : count ≠ 0 ↔ [] ∈ ws := by
      rw [ended, ← List.count_pos_iff]
      omega
    by_cases some : count ≠ 0
    · simp [lines, some, here.mp some, total]
    · simp [lines, some, mt here.mpr some]
  | cons c w =>
    have behind : (c :: w, n) ∈ lines (.node count pass next) ↔ (w, n) ∈ lines (next c) := by
      simp only [lines]
      split <;> simp
    rw [behind, below, mem_tails, count_prefix_tails]

theorem mem_lines {rt : TrieNode} (holds : Holds rt ws) (w : Word) (n : Int) :
    (w, n) ∈ lines rt ↔ w ∈ ws ∧ n = ws.countP fun v => w <+: v := by
  induction holds generalizing w n with
  | NULL => simp [lines]
  | node reached ended passed below ih =>
    exact mem_lines_node ⟨ended, passed, below⟩ ih w n

theorem lines_sorted (rt : TrieNode) : ((lines rt).map Prod.fst).Pairwise (· < ·) := by
  induction rt with
  | NULL => exact List.Pairwise.nil
  | node count pass next ih =>
    have words : ((List.finRange TREE_WIDTH).flatMap fun c =>
        ((lines (next c)).map Prod.fst).map (c :: ·)).Pairwise (· < ·) :=
      pairwise_words (List.pairwise_lt_finRange TREE_WIDTH) fun c _ => ih c
    unfold lines
    rw [List.map_append, List.map_flatMap]
    simp only [List.map_map, Function.comp_def] at words ⊢
    split
    · apply List.pairwise_cons.mpr
      refine ⟨?_, words⟩
      intro w member
      obtain ⟨c, _, member⟩ := List.mem_flatMap.mp member
      obtain ⟨line, _, same⟩ := List.mem_map.mp member
      exact same ▸ List.nil_lt_cons c line.1
    · exact words

end Lines

/-- The bytes of worddump in front of pos. -/
def Travel.path (t : Travel) : Word := slice t.worddump 0 t.pos

/-- The words are below the node that do_travel is at, and worddump has room for them. -/
def Fits (t : Travel) (ws : List Word) : Prop :=
  ∀ w ∈ ws, (t.path ++ w).length ≤ WORDLENMAX ∧ ∀ c ∈ t.path ++ w, c ≠ NUL

/-- All lines of the trie are printed, each behind the path. -/
def Prints (rt : TrieNode) (t : Travel) : Prop :=
  ∃ u, do_travel rt t = some u ∧ u.path = t.path ∧
    u.printed = t.printed ++ (lines rt).map fun line => (t.path ++ line.1, line.2)

section Dump

variable {t u : Travel} {c : Byte}

theorem path_length : t.path.length = t.pos := slice_length _ _ _

theorem dump_room (room : t.pos ≤ WORDLENMAX) (c : Byte) :
    t.dump c = some { t with worddump := store t.worddump t.pos c } :=
  if_pos (Nat.lt_succ_of_le room)

theorem dump_before (m : Mem Byte) (n : Nat) (c : Byte) :
    slice (store m n c) 0 n = slice m 0 n := by
  apply slice_congr
  intro i below
  exact store_other m c (by omega)

theorem path_down : Travel.path { t with worddump := store t.worddump t.pos c, pos := t.pos + 1 } =
    t.path ++ [c] := by
  simp only [Travel.path, slice_succ, dump_before, Nat.zero_add, store_same]

theorem path_up {front : Word} (down : u.path = front ++ [c]) :
    Travel.path { u with pos := u.pos - 1 } = front := by
  have long : u.pos = front.length + 1 := by
    rw [← path_length, down]
    simp
  unfold Travel.path at down ⊢
  rw [long, slice_succ] at down
  rw [long, Nat.add_sub_cancel]
  exact (List.append_inj' down rfl).1

theorem str_path (room : t.pos ≤ WORDLENMAX) (printable : ∀ c ∈ t.path, c ≠ NUL) :
    Travel.str { t with worddump := store t.worddump t.pos NUL } = t.path := by
  have parts : WORDLENMAX + 1 = t.pos + (1 + (WORDLENMAX - t.pos)) := by omega
  unfold Travel.str
  rw [parts, slice_add, slice_add, dump_before]
  have none_zero : ∀ c ∈ slice t.worddump 0 t.pos, decide (c ≠ NUL) = true := by
    intro c member
    exact decide_eq_true (printable c member)
  rw [List.takeWhile_append_of_pos none_zero]
  simp [Travel.path, slice]

end Dump

theorem print_node_prints {count pass : Int} {next : Byte → TrieNode} {ws : List Word}
    (counts : Counts (.node count pass next) ws) (few : ws.length ≤ INT_MAX) {t : Travel}
    (fits : Fits t ws) :
    ∃ u, printNode count pass t = some u ∧ u.pos = t.pos ∧ u.path = t.path ∧
      u.printed = t.printed ++ if count ≠ 0 then [(t.path, count + pass)] else [] := by
  have total := counts_total counts
  by_cases some : count ≠ 0
  · have here : [] ∈ ws := by
      apply List.count_pos_iff.mp
      have ended := counts.1
      omega
    obtain ⟨short, printable⟩ := fits [] here
    rw [List.append_nil] at short printable
    have room : t.pos ≤ WORDLENMAX := path_length ▸ short
    have number : plus count pass = Option.some (count + pass) := plus_some (by omega)
    refine ⟨Travel.printword { t with worddump := store t.worddump t.pos NUL } (count + pass),
      by simp [printNode, some, dump_room room, number], rfl, ?_, ?_⟩
    · exact dump_before t.worddump t.pos NUL
    · rw [if_pos some]
      exact congrArg (fun w => t.printed ++ [(w, count + pass)]) (str_path room printable)
  · exact ⟨t, by simp [printNode, some], rfl, rfl, by simp [some]⟩

def round (next : Byte → TrieNode) (t : Travel) (i : Byte) : Option Travel :=
  (t.dump i).bind fun t =>
    (do_travel (next i) { t with pos := t.pos + 1 }).map fun t => { t with pos := t.pos - 1 }

section Loop

variable {next : Byte → TrieNode} {t : Travel}

theorem round_prints (room : t.pos ≤ WORDLENMAX) (c : Byte)
    (below : ∀ u : Travel, u.path = t.path ++ [c] → Prints (next c) u) :
    ∃ u, round next t c = some u ∧ u.path = t.path ∧
      u.printed = t.printed ++
        (lines (next c)).map fun line => (t.path ++ c :: line.1, line.2) := by
  obtain ⟨u, travelled, path, printed⟩ := below _ (@path_down t c)
  rw [path_down] at path printed
  refine ⟨{ u with pos := u.pos - 1 }, ?_, path_up path, ?_⟩
  · rw [round, dump_room room, Option.bind_some]
    exact congrArg _ travelled
  · simpa using printed

theorem loop_prints (cs : List Byte) (room : t.pos ≤ WORDLENMAX)
    (below : ∀ c (u : Travel), u.path = t.path ++ [c] → Prints (next c) u) :
    ∃ u, cs.foldlM (round next) t = some u ∧ u.path = t.path ∧
      u.printed = t.printed ++ cs.flatMap fun c =>
        (lines (next c)).map fun line => (t.path ++ c :: line.1, line.2) := by
  induction cs generalizing t with
  | nil => exact ⟨t, rfl, rfl, by simp⟩
  | cons c cs ih =>
    obtain ⟨u, first, path, printed⟩ := round_prints room c (below c)
    have same : u.pos = t.pos := by rw [← path_length, path, path_length]
    rw [← path] at below
    obtain ⟨v, rest, last, all⟩ := ih (same ▸ room) below
    refine ⟨v, ?_, last.trans path, ?_⟩
    · rw [List.foldlM_cons]
      exact Option.bind_eq_some_iff.mpr ⟨u, first, rest⟩
    · rw [all, printed, path]
      simp

end Loop

theorem travel_node {count pass : Int} {next : Byte → TrieNode} {ws : List Word} {t : Travel}
    (counts : Counts (.node count pass next) ws) (few : ws.length ≤ INT_MAX)
    (fits : Fits t ws) (room : t.pos ≤ WORDLENMAX)
    (below : ∀ c (u : Travel), u.path = t.path ++ [c] → Prints (next c) u) :
    Prints (.node count pass next) t := by
  obtain ⟨u, node, pos, path, printed⟩ := print_node_prints counts few fits
  rw [← path] at below
  obtain ⟨v, loop, last, all⟩ := loop_prints (List.finRange TREE_WIDTH) (pos ▸ room) below
  refine ⟨v, ?_, last.trans path, ?_⟩
  · unfold do_travel
    exact Option.bind_eq_some_iff.mpr ⟨u, node, loop⟩
  · rw [all, printed, path]
    simp only [lines, List.map_append, List.map_flatMap, List.map_map, Function.comp_def]
    split <;> simp

theorem fits_below {t u : Travel} {ws : List Word} {c : Byte} (fits : Fits t ws)
    (path : u.path = t.path ++ [c]) : Fits u (tails c ws) := by
  intro w member
  have whole := fits (c :: w) (mem_tails.mp member)
  rw [path, List.append_assoc]
  exact whole

theorem travel_prints {rt : TrieNode} {ws : List Word} (holds : Holds rt ws) {t : Travel}
    (few : ws.length ≤ INT_MAX) (fits : Fits t ws) : Prints rt t := by
  induction holds generalizing t with
  | NULL => exact ⟨t, rfl, rfl, by simp [lines]⟩
  | @node count pass next ws reached ended passed below ih =>
    have room : t.pos ≤ WORDLENMAX := by
      obtain ⟨w, member⟩ := List.exists_mem_of_ne_nil ws reached
      have short := (fits w member).1
      rw [List.length_append, path_length] at short
      omega
    apply travel_node ⟨ended, passed, below⟩ few fits room
    intro c u path
    have fewer := @length_tails_le _ _ c ws
    exact ih c (by omega) (fits_below fits path)

/-- Each word of the input once, in order, with how many words of the input it starts. -/
structure Counted (words : List Word) (printed : List (Word × Int)) : Prop where
  sorted : (printed.map Prod.fst).Pairwise (· < ·)
  lines : ∀ w n, (w, n) ∈ printed ↔ w ∈ words ∧ n = words.countP fun v => w <+: v

/-- Whatever the order of the words, as long as an int can count them. -/
theorem words_are_counted (words : List Word) (plain : ∀ w ∈ words, Plain w)
    (few : words.length ≤ INT_MAX) :
    ∃ printed, run words = some printed ∧ Counted words printed := by
  obtain ⟨root, inserted, counts⟩ := insert_all_counts words plain zero_counts (by simpa using few)
  rw [List.nil_append] at counts
  cases root with
  | NULL => exact counts.elim
  | node count pass next =>
    have fits : Fits start words := by
      intro w member
      refine ⟨(plain w member).short, ?_⟩
      intro c inside zero
      have positive := ((plain w member).bytes c inside).1
      simp [zero, NUL] at positive
    have fewer (c : Byte) : (tails c words).length ≤ INT_MAX := by
      have least := @length_tails_le _ _ c words
      omega
    obtain ⟨t, travelled, _, printed⟩ := travel_node counts few fits (Nat.zero_le _)
      fun c u path => travel_prints (counts.2.2 c) (fewer c) (fits_below fits path)
    have all : t.printed = lines (.node count pass next) := by
      rw [printed]
      simp [start, Travel.path, slice]
    refine ⟨lines (.node count pass next), by simp [run, inserted, travelled, all], ?_⟩
    constructor
    · exact lines_sorted _
    · exact mem_lines_node counts fun c w n => mem_lines (counts.2.2 c) w n

theorem words_with_prefix_counted :
    ∃ printed, run [[98], [97, 98], [97], [97]] = some printed ∧
      Counted [[98], [97, 98], [97], [97]] printed :=
  words_are_counted _ (by decide +kernel) (by decide)

example : run [[98], [97, 98], [97], [97]] = some [([97], 3), ([97, 98], 1), ([98], 1)] := by
  decide +kernel

theorem counted_words_are_few {words : List Word} (plain : ∀ w ∈ words, w ≠ [])
    {printed : List (Word × Int)} (ran : run words = some printed) : words.length ≤ INT_MAX := by
  obtain ⟨t, travelled, _⟩ := Option.map_eq_some_iff.mp ran
  obtain ⟨root, inserted, _⟩ := Option.bind_eq_some_iff.mp travelled
  have total := insert_all_few words plain (by decide) inserted
  omega

/-- The word a given so often that root.pass overflows. -/
theorem overflow_is_not_counted :
    (∀ w ∈ List.replicate 2147483648 ([97] : Word), Plain w) ∧
      ¬ ∃ printed, run (List.replicate 2147483648 [97]) = some printed ∧
        Counted (List.replicate 2147483648 [97]) printed := by
  constructor
  · intro w member
    rw [List.eq_of_mem_replicate member]
    decide +kernel
  · rintro ⟨printed, ran, _⟩
    have few := counted_words_are_few (by
      intro w member
      rw [List.eq_of_mem_replicate member]
      exact List.cons_ne_nil _ _) ran
    rw [List.length_replicate] at few
    exact absurd few (by decide)

end UC.Trie
