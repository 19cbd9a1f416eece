import UC.Lib.Tails
import UC.Trie.Model

/- What insert leaves in the nodes. count is how many words end at a node, pass how many go
   on behind it; both together are the words that reach it. -/
namespace UC.Trie
open UC.Tails

/-- The trie below a node that just these words reach, each without what led to the node. -/
inductive Holds : TrieNode → List Word → Prop
  | NULL : Holds .NULL []
  | node {count pass : Int} {next : Byte → TrieNode} {ws : List Word} (reached : ws ≠ [])
      (ended : count = ws.count []) (passed : pass = ws.countP fun w => w ≠ [])
      (below : ∀ c, Holds (next c) (tails c ws)) : Holds (.node count pass next) ws

/-- A node as insert meets it; that of root may be reached by none. -/
def Counts : TrieNode → List Word → Prop
  | .NULL, _ => False
  | .node count pass next, ws =>
    count = ws.count [] ∧ pass = (ws.countP fun w => w ≠ []) ∧ ∀ c, Holds (next c) (tails c ws)

variable {rt : TrieNode} {ws : List Word}

theorem zero_counts : Counts .zero [] := ⟨rfl, rfl, fun _ => .NULL⟩

theorem holds_counts (holds : Holds rt ws) : Counts rt.orNew ws := by
  cases holds with
  | NULL => exact zero_counts
  | node reached ended passed below => exact ⟨ended, passed, below⟩

theorem counts_holds (counts : Counts rt ws) (reached : ws ≠ []) : Holds rt ws := by
  cases rt with
  | NULL => exact counts.elim
  | node count pass next => exact .node reached counts.1 counts.2.1 counts.2.2

/-- The number that do_travel prints is that of the words that reach the node. -/
theorem counts_total {count pass : Int} {next : Byte → TrieNode}
    (counts : Counts (.node count pass next) ws) : count + pass = ws.length := by
  have parts := @count_ended _ _ ws
  have ended := counts.1
  have passed := counts.2.1
  omega

theorem plus_some {a b : Int} (small : a + b ≤ INT_MAX) : plus a b = some (a + b) := if_pos small

theorem counts_ended {count pass : Int} {next : Byte → TrieNode}
    (counts : Counts (.node count pass next) ws) :
    Counts (.node (count + 1) pass next) (ws ++ [[]]) := by
  obtain ⟨ended, passed, below⟩ := counts
  refine ⟨?_, ?_, ?_⟩
  · simp [ended]
  · simp [passed]
  · simpa using below

theorem counts_passed {count pass : Int} {next : Byte → TrieNode} {c : Byte} {rest : Word}
    {child : TrieNode} (counts : Counts (.node count pass next) ws)
    (entered : Counts child (tails c ws ++ [rest])) :
    Counts (.node count (pass + 1) (Function.update next c child)) (ws ++ [c :: rest]) := by
  obtain ⟨ended, passed, below⟩ := counts
  refine ⟨?_, ?_, ?_⟩
  · simp [ended]
  · simp [passed]
  · intro d
    by_cases same : d = c
    · subst same
      rw [Function.update_self, tails_append, tails_same]
      exact counts_holds entered (by simp)
    · rw [Function.update_of_ne same, tails_append, tails_other (Ne.symm same)]
      simpa using below d

theorem insert_loop_counts (word : Word) (counts : Counts rt ws)
    (signed : ∀ c ∈ word, c.val < 128) (room : ws.length < INT_MAX) :
    ∃ t, insertLoop word rt = some t ∧ Counts t (ws ++ [word]) := by
  induction word generalizing rt ws with
  | nil =>
    cases rt with
    | NULL => exact counts.elim
    | node count pass next =>
      have total := counts_total counts
      have passed := counts.2.1
      have more : plus count 1 = some (count + 1) := plus_some (by omega)
      exact ⟨.node (count + 1) pass next, by simp [insertLoop, more], counts_ended counts⟩
  | cons c rest ih =>
    cases rt with
    | NULL => exact counts.elim
    | node count pass next =>
      have total := counts_total counts
      have ended := counts.1
      have more : plus pass 1 = some (pass + 1) := plus_some (by omega)
      have here : index c = some c := if_pos (signed c List.mem_cons_self)
      have fewer := @length_tails_le _ _ c ws
      obtain ⟨child, inserted, entered⟩ := ih (holds_counts (counts.2.2 c))
        (fun d member => signed d (List.mem_cons_of_mem c member)) (by omega)
      refine ⟨.node count (pass + 1) (Function.update next c child), ?_, counts_passed counts entered⟩
      simp [insertLoop, more, here, inserted]

/-- Words that worddump has room for, and no byte of which is a NUL or negative. -/
structure Plain (word : Word) : Prop where
  some : word ≠ []
  short : word.length ≤ WORDLENMAX
  bytes : ∀ c ∈ word, 1 ≤ c.val ∧ c.val ≤ 127

instance (word : Word) : Decidable (Plain word) :=
  decidable_of_iff (word ≠ [] ∧ word.length ≤ WORDLENMAX ∧ ∀ c ∈ word, 1 ≤ c.val ∧ c.val ≤ 127)
    ⟨fun parts => ⟨parts.1, parts.2.1, parts.2.2⟩,
      fun plain => ⟨plain.some, plain.short, plain.bytes⟩⟩

theorem insert_all_counts (words : List Word) (plain : ∀ w ∈ words, Plain w)
    (counts : Counts rt ws) (room : ws.length + words.length ≤ INT_MAX) :
    ∃ t, insertAll words rt = some t ∧ Counts t (ws ++ words) := by
  induction words generalizing rt ws with
  | nil => exact ⟨rt, rfl, by simpa using counts⟩
  | cons word rest ih =>
    have first := plain word List.mem_cons_self
    rw [List.length_cons] at room
    obtain ⟨u, inserted, counts⟩ := insert_loop_counts word counts
      (fun c member => Nat.lt_succ_of_le (first.bytes c member).2) (by omega)
    obtain ⟨t, all, counts⟩ := ih
      (fun w member => plain w (List.mem_cons_of_mem word member)) counts
      (by rw [List.length_append, List.length_singleton]; omega)
    refine ⟨t, ?_, by simpa using counts⟩
    simp [insertAll, insert, first.some, inserted, all]

/-- root.pass counts all words, and must not overflow. -/
theorem insert_all_few (words : List Word) (plain : ∀ w ∈ words, w ≠ []) {count pass : Int}
    {next : Byte → TrieNode} {t : TrieNode} (small : pass ≤ INT_MAX)
    (all : insertAll words (.node count pass next) = some t) :
    pass + words.length ≤ INT_MAX := by
  induction words generalizing count pass next with
  | nil => simpa using small
  | cons word rest ih =>
    obtain ⟨u, inserted, later⟩ := Option.bind_eq_some_iff.mp all
    cases word with
    | nil => exact absurd rfl (plain [] List.mem_cons_self)
    | cons c word =>
      have unfolded : insertLoop (c :: word) (.node count pass next) = some u := by
        simpa [insert] using inserted
      obtain ⟨more, counted, unfolded⟩ := Option.bind_eq_some_iff.mp unfolded
      obtain ⟨i, _, unfolded⟩ := Option.bind_eq_some_iff.mp unfolded
      obtain ⟨child, _, same⟩ := Option.map_eq_some_iff.mp unfolded
      subst same
      have bound : pass + 1 ≤ INT_MAX ∧ more = pass + 1 := by
        unfold plus at counted
        split at counted
        · rename_i fits
          exact ⟨fits, (Option.some.inj counted).symm⟩
        · exact absurd counted (by simp)
      have total := ih (fun w member => plain w (List.mem_cons_of_mem _ member))
        (by omega) later
      rw [List.length_cons]
      omega

end UC.Trie
