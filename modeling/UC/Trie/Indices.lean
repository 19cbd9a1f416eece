import UC.Trie.Travel

/- The indices that insert uses into next[] and that do_travel writes of worddump, also when
   they are outside. No index depends on count or pass, which are not bounded here. -/
namespace UC.Trie
open UC.Tails

/-- The characters of spaces, at which main cuts a line. -/
def spaces : List Nat := [32, 9, 10, 47, 46, 34, 39, 40, 41]

/-- A word that main passes to insert. -/
abbrev Passed (word : Word) : Prop := word ≠ [] ∧ ∀ c ∈ word, c ≠ NUL ∧ c.val ∉ spaces

/-- word[i] as an index: a char is signed. -/
def childIndex (c : Byte) : Int := if c.val < 128 then c.val else c.val - TREE_WIDTH

/-- The loop of insert, and the indices it uses. It ends at one that is outside. -/
def enterLoop : Word → TrieNode → TrieNode × List Int
  | _, .NULL => (.NULL, [])
  | [], .node count pass next => (.node (count + 1) pass next, [])
  | c :: rest, .node count pass next =>
    if 0 ≤ childIndex c ∧ childIndex c < TREE_WIDTH then
      let below := enterLoop rest (next c).orNew
      (.node count (pass + 1) (Function.update next c below.1), childIndex c :: below.2)
    else (.node count (pass + 1) next, [childIndex c])

def enter (word : Word) (root : TrieNode) : TrieNode × List Int :=
  if word = [] then (root, []) else enterLoop word root

def enterAll : List Word → TrieNode → TrieNode × List Int
  | [], root => (root, [])
  | word :: rest, root =>
    let entered := enter word root
    let later := enterAll rest entered.1
    (later.1, entered.2 ++ later.2)

/-- The indices of worddump that do_travel writes from a node on. -/
def dumpIndices : TrieNode → Nat → List Nat
  | .NULL, _ => []
  | .node count _ next, pos =>
    (if count ≠ 0 then [pos] else []) ++
      (List.finRange TREE_WIDTH).flatMap fun i => pos :: dumpIndices (next i) (pos + 1)

/-- All indices of the words' insertion and of the travel behind it are inside. -/
def IndicesInside (words : List Word) : Prop :=
  (∀ i ∈ (enterAll words .zero).2, 0 ≤ i ∧ i < TREE_WIDTH) ∧
    ∀ p ∈ dumpIndices (enterAll words .zero).1 0, p ≤ WORDLENMAX

theorem child_index_inside (c : Byte) :
    (0 ≤ childIndex c ∧ childIndex c < TREE_WIDTH) ↔ c.val < 128 := by
  have width := c.isLt
  unfold childIndex
  split
  · omega
  · omega

theorem plus_value {a b n : Int} (added : plus a b = some n) : n = a + b := by
  unfold plus at added
  split at added
  · exact (Option.some.inj added).symm
  · contradiction

theorem insert_loop_enters (word : Word) {rt t : TrieNode} (inserted : insertLoop word rt = some t) :
    (enterLoop word rt).1 = t := by
  induction word generalizing rt t with
  | nil =>
    cases rt with
    | NULL => simp [insertLoop] at inserted
    | node count pass next =>
      obtain ⟨more, counted, same⟩ := Option.map_eq_some_iff.mp inserted
      rw [enterLoop, ← same, plus_value counted]
  | cons c rest ih =>
    cases rt with
    | NULL => simp [insertLoop] at inserted
    | node count pass next =>
      obtain ⟨more, counted, inserted⟩ := Option.bind_eq_some_iff.mp inserted
      obtain ⟨i, found, inserted⟩ := Option.bind_eq_some_iff.mp inserted
      obtain ⟨child, below, same⟩ := Option.map_eq_some_iff.mp inserted
      have inside : c.val < 128 ∧ c = i := by
        unfold index at found
        split at found
        · exact ⟨by assumption, Option.some.inj found⟩
        · contradiction
      rw [← inside.2] at below same
      rw [enterLoop, if_pos ((child_index_inside c).mpr inside.1), ← same, plus_value counted]
      dsimp only
      rw [ih below]

section Travel
variable {t u : Travel}

theorem dump_writes {c : Byte} (dumped : t.dump c = some u) : u.pos = t.pos ∧ t.pos ≤ WORDLENMAX := by
  unfold Travel.dump at dumped
  split at dumped
  · rename_i room
    rw [← Option.some.inj dumped]
    exact ⟨rfl, Nat.le_of_lt_succ room⟩
  · contradiction

theorem print_node_writes {count pass : Int} (printed : printNode count pass t = some u) :
    u.pos = t.pos ∧ ∀ p ∈ (if count ≠ 0 then [t.pos] else []), p ≤ WORDLENMAX := by
  unfold printNode at printed
  split at printed
  · rename_i counted
    obtain ⟨dumped, wrote, printed⟩ := Option.bind_eq_some_iff.mp printed
    obtain ⟨n, _, same⟩ := Option.map_eq_some_iff.mp printed
    have room := dump_writes wrote
    rw [← same, if_pos counted]
    refine ⟨room.1, ?_⟩
    intro p mem
    rw [List.mem_singleton.mp mem]
    exact room.2
  · rename_i counted
    rw [← Option.some.inj printed, if_neg counted]
    simp

theorem rounds_write {next : Byte → TrieNode} (cs : List Byte)
    (below : ∀ c t u, do_travel (next c) t = some u →
      u.pos = t.pos ∧ ∀ p ∈ dumpIndices (next c) t.pos, p ≤ WORDLENMAX)
    (ended : cs.foldlM (round next) t = some u) :
    u.pos = t.pos ∧ ∀ p ∈ cs.flatMap fun i => t.pos :: dumpIndices (next i) (t.pos + 1),
      p ≤ WORDLENMAX := by
  induction cs generalizing t with
  | nil =>
    rw [← Option.some.inj ended]
    simp
  | cons c cs ih =>
    obtain ⟨v, first, later⟩ := Option.bind_eq_some_iff.mp ended
    obtain ⟨dumped, wrote, first⟩ := Option.bind_eq_some_iff.mp first
    obtain ⟨back, deeper, same⟩ := Option.map_eq_some_iff.mp first
    have room := dump_writes wrote
    obtain ⟨pos, inside⟩ := below c _ _ deeper
    dsimp only at pos inside
    have returned : v.pos = t.pos := by
      rw [← same]
      dsimp only
      omega
    obtain ⟨pos', inside'⟩ := ih later
    rw [returned] at pos' inside'
    rw [room.1] at inside
    refine ⟨pos', ?_⟩
    intro p mem
    rw [List.flatMap_cons, List.mem_append, List.mem_cons] at mem
    rcases mem with (here | deeper) | other
    · rw [here]
      exact room.2
    · exact inside p deeper
    · exact inside' p other

theorem travel_writes (rt : TrieNode) (travelled : do_travel rt t = some u) :
    u.pos = t.pos ∧ ∀ p ∈ dumpIndices rt t.pos, p ≤ WORDLENMAX := by
  induction rt generalizing t u with
  | NULL =>
    rw [← Option.some.inj travelled]
    simp [dumpIndices]
  | node count pass next ih =>
    obtain ⟨printed, first, later⟩ := Option.bind_eq_some_iff.mp travelled
    obtain ⟨pos, inside⟩ := print_node_writes first
    obtain ⟨pos', inside'⟩ := rounds_write _ (fun c _ _ deeper => ih c deeper) later
    rw [pos] at pos' inside'
    refine ⟨pos', ?_⟩
    intro p mem
    rw [dumpIndices, List.mem_append] at mem
    rcases mem with here | deeper
    · exact inside p here
    · exact inside' p deeper

end Travel

theorem enter_loop_counts (word : Word) {rt : TrieNode} {ws : List Word} (counts : Counts rt ws)
    (signed : ∀ c ∈ word, c.val < 128) : Counts (enterLoop word rt).1 (ws ++ [word]) := by
  induction word generalizing rt ws with
  | nil =>
    cases rt with
    | NULL => exact counts.elim
    | node count pass next => exact counts_ended counts
  | cons c rest ih =>
    cases rt with
    | NULL => exact counts.elim
    | node count pass next =>
      have inside := (child_index_inside c).mpr (signed c List.mem_cons_self)
      rw [enterLoop, if_pos inside]
      apply counts_passed counts
      exact ih (holds_counts (counts.2.2 c)) fun d mem => signed d (List.mem_cons_of_mem c mem)

/-- The indices are inside exactly if no byte of the word is negative. -/
theorem enter_loop_inside (word : Word) {rt : TrieNode} {ws : List Word} (counts : Counts rt ws) :
    (∀ i ∈ (enterLoop word rt).2, 0 ≤ i ∧ i < TREE_WIDTH) ↔ ∀ c ∈ word, c.val < 128 := by
  induction word generalizing rt ws with
  | nil =>
    cases rt with
    | NULL => exact counts.elim
    | node count pass next => simp [enterLoop]
  | cons c rest ih =>
    cases rt with
    | NULL => exact counts.elim
    | node count pass next =>
      rw [enterLoop, List.forall_mem_cons, ← child_index_inside]
      by_cases inside : 0 ≤ childIndex c ∧ childIndex c < TREE_WIDTH
      · rw [if_pos inside, List.forall_mem_cons, ih (holds_counts (counts.2.2 c))]
      · rw [if_neg inside, List.forall_mem_singleton]
        exact ⟨fun inside' => absurd inside' inside, fun both => absurd both.1 inside⟩

theorem mem_dump_node {count pass : Int} {next : Byte → TrieNode} {pos p : Nat} :
    p ∈ dumpIndices (.node count pass next) pos ↔
      p = pos ∨ ∃ c, p ∈ dumpIndices (next c) (pos + 1) := by
  simp only [dumpIndices, List.mem_append, List.mem_flatMap, List.mem_finRange, true_and,
    List.mem_cons]
  constructor
  · rintro (here | ⟨c, here | deeper⟩)
    · split at here
      · exact Or.inl (List.mem_singleton.mp here)
      · contradiction
    · exact Or.inl here
    · exact Or.inr ⟨c, deeper⟩
  · rintro (here | ⟨c, deeper⟩)
    · exact Or.inr ⟨NUL, Or.inl here⟩
    · exact Or.inr ⟨c, Or.inr deeper⟩

/-- Below a node, do_travel writes up to the end of the longest word that reaches it. -/
theorem mem_dump_indices {rt : TrieNode} {ws : List Word} (holds : Holds rt ws) {pos p : Nat} :
    p ∈ dumpIndices rt pos ↔ ∃ w ∈ ws, pos ≤ p ∧ p ≤ pos + w.length := by
  induction holds generalizing pos with
  | NULL => simp [dumpIndices]
  | @node count pass next ws reached ended passed below ih =>
    rw [mem_dump_node]
    constructor
    · rintro (here | ⟨c, deeper⟩)
      · obtain ⟨w, mem⟩ := List.exists_mem_of_ne_nil ws reached
        exact ⟨w, mem, by omega⟩
      · obtain ⟨w, mem, low, high⟩ := (ih c).mp deeper
        refine ⟨c :: w, mem_tails.mp mem, by omega, ?_⟩
        rw [List.length_cons]
        omega
    · rintro ⟨w, mem, low, high⟩
      by_cases here : p = pos
      · exact Or.inl here
      · cases w with
        | nil =>
          rw [List.length_nil] at high
          omega
        | cons c w =>
          rw [List.length_cons] at high
          exact Or.inr ⟨c, (ih c).mpr ⟨w, mem_tails.mpr mem, by omega, by omega⟩⟩

theorem root_dump_indices {rt : TrieNode} {ws : List Word} (counts : Counts rt ws) {p : Nat} :
    p ∈ dumpIndices rt 0 ↔ p = 0 ∨ ∃ w ∈ ws, p ≤ w.length := by
  by_cases reached : ws = []
  · cases rt with
    | NULL => exact counts.elim
    | node count pass next =>
      have none : ∀ c, p ∉ dumpIndices (next c) (0 + 1) := by
        intro c mem
        obtain ⟨w, mem', _⟩ := (mem_dump_indices (counts.2.2 c)).mp mem
        rw [mem_tails, reached] at mem'
        contradiction
      rw [mem_dump_node, reached]
      simp [none]
  · rw [mem_dump_indices (counts_holds counts reached)]
    simp only [Nat.zero_le, true_and, Nat.zero_add]
    constructor
    · exact Or.inr
    · rintro (here | longer)
      · obtain ⟨w, mem⟩ := List.exists_mem_of_ne_nil ws reached
        exact ⟨w, mem, by omega⟩
      · exact longer

theorem enter_counts (word : Word) {rt : TrieNode} {ws : List Word} (counts : Counts rt ws)
    (signed : ∀ c ∈ word, c.val < 128) :
    Counts (enter word rt).1 (ws ++ [word].filter (· ≠ [])) := by
  cases word with
  | nil => simpa [enter] using counts
  | cons c rest =>
    rw [enter, if_neg (List.cons_ne_nil c rest)]
    exact enter_loop_counts (c :: rest) counts signed

theorem enter_inside (word : Word) {rt : TrieNode} {ws : List Word} (counts : Counts rt ws) :
    (∀ i ∈ (enter word rt).2, 0 ≤ i ∧ i < TREE_WIDTH) ↔ ∀ c ∈ word, c.val < 128 := by
  cases word with
  | nil => simp [enter]
  | cons c rest =>
    rw [enter, if_neg (List.cons_ne_nil c rest)]
    exact enter_loop_inside (c :: rest) counts

theorem enter_all_counts (words : List Word) {rt : TrieNode} {ws : List Word}
    (counts : Counts rt ws) (signed : ∀ w ∈ words, ∀ c ∈ w, c.val < 128) :
    Counts (enterAll words rt).1 (ws ++ words.filter (· ≠ [])) := by
  induction words generalizing rt ws with
  | nil => simpa [enterAll] using counts
  | cons word rest ih =>
    rw [List.forall_mem_cons] at signed
    have later := ih (enter_counts word counts signed.1) signed.2
    rw [List.append_assoc, ← List.filter_append] at later
    exact later

theorem enter_all_inside (words : List Word) {rt : TrieNode} {ws : List Word}
    (counts : Counts rt ws) :
    (∀ i ∈ (enterAll words rt).2, 0 ≤ i ∧ i < TREE_WIDTH) ↔
      ∀ w ∈ words, ∀ c ∈ w, c.val < 128 := by
  induction words generalizing rt ws with
  | nil => simp [enterAll]
  | cons word rest ih =>
    rw [enterAll, List.forall_mem_append, enter_inside word counts, List.forall_mem_cons]
    apply and_congr_right
    intro signed
    exact ih (enter_counts word counts signed)

/-- The indices are inside exactly for words without a byte of 128 or more that worddump has
    room for. -/
theorem indices_inside_iff (words : List Word) :
    IndicesInside words ↔ ∀ w ∈ words, (∀ c ∈ w, c.val < 128) ∧ w.length ≤ WORDLENMAX := by
  have dumped : (∀ w ∈ words, ∀ c ∈ w, c.val < 128) →
      ((∀ p ∈ dumpIndices (enterAll words .zero).1 0, p ≤ WORDLENMAX) ↔
        ∀ w ∈ words, w.length ≤ WORDLENMAX) := by
    intro signed
    have counts := enter_all_counts words zero_counts signed
    rw [List.nil_append] at counts
    constructor
    · intro inside w mem
      by_cases some : w = []
      · rw [some]
        exact Nat.zero_le _
      · apply inside
        apply (root_dump_indices counts).mpr
        exact Or.inr ⟨w, List.mem_filter.mpr ⟨mem, by simpa using some⟩, le_refl _⟩
    · intro short p mem
      rcases (root_dump_indices counts).mp mem with here | ⟨w, mem', le⟩
      · rw [here]
        exact Nat.zero_le _
      · exact le.trans (short w (List.mem_filter.mp mem').1)
  rw [IndicesInside, enter_all_inside words zero_counts]
  constructor
  · rintro ⟨signed, inside⟩ w mem
    exact ⟨signed w mem, (dumped signed).mp inside w mem⟩
  · intro fine
    have signed := fun w mem => (fine w mem).1
    exact ⟨signed, (dumped signed).mpr fun w mem => (fine w mem).2⟩

/-- A letter outside of ASCII in UTF-8, and a word that is one byte too long. -/
theorem passed_words_outside :
    (Passed [195, 169] ∧ ¬ IndicesInside [[195, 169]]) ∧
      Passed (List.replicate 129 97) ∧ ¬ IndicesInside [List.replicate 129 97] := by
  have same : ∀ c ∈ List.replicate 129 (97 : Byte), c = 97 :=
    fun c mem => List.eq_of_mem_replicate mem
  refine ⟨⟨by decide +kernel, ?_⟩, ⟨by simp, ?_⟩, ?_⟩
  · rintro ⟨inside, _⟩
    have small := (enter_all_inside [[195, 169]] zero_counts).mp inside [195, 169] (by simp) 195
      (by simp)
    exact absurd small (by decide)
  · intro c mem
    rw [same c mem]
    decide
  · rintro ⟨_, inside⟩
    have signed : ∀ w ∈ [List.replicate 129 (97 : Byte)], ∀ c ∈ w, c.val < 128 := by
      intro w memW c mem
      rw [List.mem_singleton.mp memW] at mem
      rw [same c mem]
      decide
    have counts := enter_all_counts [List.replicate 129 97] zero_counts signed
    have written : 129 ∈ dumpIndices (enterAll [List.replicate 129 97] .zero).1 0 := by
      apply (root_dump_indices counts).mpr
      exact Or.inr ⟨List.replicate 129 97, by simp, by simp⟩
    exact absurd (inside 129 written) (by decide)

end UC.Trie
