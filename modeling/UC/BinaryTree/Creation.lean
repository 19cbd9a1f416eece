import UC.BinaryTree.Travel
import UC.Lib.Decimals
import UC.Lib.Ints

/- createBinaryTree of example_binary_tree.cpp and createBiTree of example_binary_tree2.cpp: the
   input is the tree in preorder, with a -1 for every missing child. A number that scanf does not
   find, or that is no int, has no result; malloc does not fail. -/
namespace UC.BinaryTrees
open BinaryTree UC.Decimals UC.Ints UC.Streams UC.TreeOrders

/-- scanf("%d", &value), and what is left of stdin. -/
def scanf (stdin : List Char) : Option (Int × List Char) :=
  match number INT_MIN INT_MAX (skipSpace stdin) with
  | (value, true, rest) => some (value, rest)
  | (_, false, _) => none

/-- The number that a prompt names, and the child it asks for. -/
inductive Prompt where
  | lvalue (n : Int)
  | rvalue (n : Int)
  deriving DecidableEq

/-- Both functions; the one has a getchar behind scanf. The tree, what is left of stdin, and what
    was printed. The depth bounds the recursion. -/
def create (getchar : List Char → List Char) :
    Nat → List Char → Option (BinaryTreeNode × List Char × List Prompt)
  | 0, _ => none
  | depth + 1, stdin =>
    (scanf stdin).bind fun (value, rest) =>
      if value = -1 then some (nil, getchar rest, [])
      else
        (create getchar depth (getchar rest)).bind fun (left, rest, printed) =>
          (create getchar depth rest).map fun (right, rest, later) =>
            (node value left right, rest,
              .lvalue value :: (printed ++ .rvalue value :: later))

def createBinaryTree (depth : Nat) (stdin : List Char) :
    Option (BinaryTreeNode × List Char × List Prompt) := create id depth stdin

/-- temp = getchar(): a character is skipped, if there is one. -/
def createBiTree (depth : Nat) (stdin : List Char) :
    Option (BinaryTreeNode × List Char × List Prompt) := create List.tail depth stdin

def treeDeep : BinaryTreeNode → Int
  | nil => 0
  | node _ left right =>
    let ldeep := treeDeep left
    let rdeep := treeDeep right
    if ldeep > rdeep then ldeep + 1 else rdeep + 1

def treeDeep2 : BinaryTreeNode → Int
  | nil => 0
  | node _ lChild rChlid =>
    let leftdeep := treeDeep2 lChild
    let rightdeep := treeDeep2 rChlid
    if leftdeep ≥ rightdeep then leftdeep + 1 else rightdeep + 1

def marked : BinaryTreeNode → List Int
  | nil => [-1]
  | node value left right => value :: (marked left ++ marked right)

def prompts : BinaryTreeNode → List Prompt
  | nil => []
  | node value left right => .lvalue value :: (prompts left ++ .rvalue value :: prompts right)

/-- So many rounds of scanf and getchar. -/
def scans (getchar : List Char → List Char) : Nat → List Char → Option (List Int × List Char)
  | 0, stdin => some ([], stdin)
  | k + 1, stdin =>
    (scanf stdin).bind fun (value, rest) =>
      (scans getchar k (getchar rest)).map fun (values, rest) => (value :: values, rest)

variable {getchar : List Char → List Char}

theorem scans_append (j k : Nat) (stdin : List Char) :
    scans getchar (j + k) stdin = (scans getchar j stdin).bind fun (values, rest) =>
      (scans getchar k rest).map fun (more, rest) => (values ++ more, rest) := by
  induction j generalizing stdin with
  | zero =>
    rw [Nat.zero_add, scans, Option.bind_some]
    simp
  | succ j ih =>
    rw [Nat.succ_add, scans, scans, Option.bind_assoc]
    congr 1
    funext ⟨value, behind⟩
    dsimp only
    rw [ih]
    cases scans getchar j (getchar behind) with
    | none => rfl
    | some second =>
      dsimp only [Option.bind_some, Option.map_some]
      cases scans getchar k second.2 with
      | none => rfl
      | some third => rfl

theorem scans_length {k : Nat} {stdin rest : List Char} {values : List Int}
    (scanned : scans getchar k stdin = some (values, rest)) : values.length = k := by
  induction k generalizing stdin rest values with
  | zero =>
    cases scanned
    rfl
  | succ k ih =>
    obtain ⟨⟨value, behind⟩, _, scanned⟩ := Option.bind_eq_some_iff.mp scanned
    obtain ⟨⟨later, last⟩, scanned, same⟩ := Option.map_eq_some_iff.mp scanned
    cases same
    rw [List.length_cons, ih scanned]

/-- A tree that was created is what its numbers say. -/
theorem created_scans {depth : Nat} {stdin rest : List Char} {tree : BinaryTreeNode}
    {printed : List Prompt} (created : create getchar depth stdin = some (tree, rest, printed)) :
    scans getchar (marked tree).length stdin = some (marked tree, rest) ∧
      -1 ∉ preorder tree ∧ printed = prompts tree := by
  induction depth generalizing stdin rest tree printed with
  | zero => cases created
  | succ depth ih =>
    obtain ⟨⟨value, behind⟩, found, created⟩ := Option.bind_eq_some_iff.mp created
    dsimp only at created
    split at created
    · rename_i mark
      cases created
      refine ⟨?_, List.not_mem_nil, rfl⟩
      simp [scans, marked, found, mark]
    · rename_i unmarked
      obtain ⟨⟨left, middle, before⟩, first, created⟩ := Option.bind_eq_some_iff.mp created
      obtain ⟨⟨right, last, later⟩, second, same⟩ := Option.map_eq_some_iff.mp created
      cases same
      obtain ⟨leftScans, leftPlain, rfl⟩ := ih first
      obtain ⟨rightScans, rightPlain, rfl⟩ := ih second
      refine ⟨?_, ?_, rfl⟩
      · dsimp only at rightScans ⊢
        rw [marked, List.length_cons, scans, found, Option.bind_some, List.length_append]
        dsimp only
        rw [scans_append, leftScans, Option.bind_some]
        dsimp only
        rw [rightScans]
        rfl
      · rw [preorder, List.mem_cons, List.mem_append]
        rintro (same | inLeft | inRight)
        · exact unmarked same.symm
        · exact leftPlain inLeft
        · exact rightPlain inRight

theorem scans_created {tree : BinaryTreeNode} (plain : -1 ∉ preorder tree) {stdin rest : List Char}
    (scanned : scans getchar (marked tree).length stdin = some (marked tree, rest)) {depth : Nat}
    (deep : (marked tree).length ≤ depth) :
    create getchar depth stdin = some (tree, rest, prompts tree) := by
  induction tree generalizing stdin rest depth with
  | nil =>
    obtain ⟨⟨value, behind⟩, found, scanned⟩ := Option.bind_eq_some_iff.mp scanned
    cases scanned
    cases depth with
    | zero => cases deep
    | succ depth =>
      rw [create, found, Option.bind_some]
      rfl
  | node value left right leftIh rightIh =>
    rw [preorder, List.mem_cons, List.mem_append, not_or, not_or] at plain
    obtain ⟨unmarked, leftPlain, rightPlain⟩ := plain
    rw [marked, List.length_cons, List.length_append] at deep
    cases depth with
    | zero => cases deep
    | succ depth =>
      rw [marked, List.length_cons, scans] at scanned
      obtain ⟨⟨value', behind⟩, found, scanned⟩ := Option.bind_eq_some_iff.mp scanned
      obtain ⟨⟨values, last⟩, scanned, same⟩ := Option.map_eq_some_iff.mp scanned
      cases same
      rw [List.length_append, scans_append] at scanned
      obtain ⟨⟨first, middle⟩, leftScans, scanned⟩ := Option.bind_eq_some_iff.mp scanned
      obtain ⟨⟨second, rest'⟩, rightScans, same⟩ := Option.map_eq_some_iff.mp scanned
      obtain ⟨both, rfl⟩ := Prod.mk.inj same
      obtain ⟨rfl, rfl⟩ := List.append_inj both (scans_length leftScans)
      have leftDeep : (marked left).length ≤ depth := by omega
      have rightDeep : (marked right).length ≤ depth := by omega
      have leftCreated := leftIh leftPlain leftScans leftDeep
      have rightCreated := rightIh rightPlain rightScans rightDeep
      rw [create, found, Option.bind_some]
      dsimp only
      rw [if_neg (Ne.symm unmarked), leftCreated, Option.bind_some]
      dsimp only
      rw [rightCreated]
      rfl

theorem scanf_decimal {n : Int} (least : INT_MIN ≤ n) (most : n ≤ INT_MAX) {gap rest : List Char}
    (white : White gap) (behind : Behind rest) :
    scanf (gap ++ (decimal n ++ rest)) = some (n, rest) := by
  obtain ⟨c, digits, head, other⟩ := decimal_head n
  have skipped : skipSpace (gap ++ (decimal n ++ rest)) = decimal n ++ rest := by
    rw [head]
    exact skip_gap white other
  rw [scanf, skipped, number_decimal least most behind]

/-- Between two numbers a getchar leaves white space. -/
def Skips (getchar : List Char → List Char) : Prop := ∀ gap rest, White gap → gap ≠ [] →
  ∃ gap', White gap' ∧ getchar (gap ++ rest) = gap' ++ rest

theorem skips_id : Skips id := fun gap _ white _ => ⟨gap, white, rfl⟩

theorem skips_tail : Skips List.tail := by
  intro gap rest white apart
  cases gap with
  | nil => exact absurd rfl apart
  | cons c gap => exact ⟨gap, fun d inside => white d (List.mem_cons_of_mem c inside), rfl⟩

theorem scans_numbers (skips : Skips getchar) {gap : List Char} (white : White gap) {n : Int}
    (entries : List (List Char × Int)) (gaps : ∀ entry ∈ entries, Apart entry)
    (ints : ∀ m ∈ n :: entries.map Prod.snd, INT_MIN ≤ m ∧ m ≤ INT_MAX) {rest : List Char}
    (behind : Behind rest) :
    scans getchar (entries.length + 1) (gap ++ (decimal n ++ (numbersText entries ++ rest))) =
      some (n :: entries.map Prod.snd, getchar rest) := by
  induction entries generalizing gap n with
  | nil =>
    have range := ints n List.mem_cons_self
    rw [scans, scanf_decimal range.1 range.2 white (behind_numbers gaps behind)]
    rfl
  | cons entry entries ih =>
    have range := ints n List.mem_cons_self
    have first := gaps entry List.mem_cons_self
    obtain ⟨gap', white', skipped⟩ := skips entry.1
      (decimal entry.2 ++ (numbersText entries ++ rest)) first.1 first.2
    have later := ih white' (fun other member => gaps other (List.mem_cons_of_mem entry member))
      (fun m member => ints m (List.mem_cons_of_mem n member))
    rw [scans, scanf_decimal range.1 range.2 white (behind_numbers gaps behind), Option.bind_some,
      numbers_text_cons]
    dsimp only
    rw [skipped, List.length_cons, later]
    rfl

theorem tree_deep_same (tree : BinaryTreeNode) : treeDeep2 tree = treeDeep tree := by
  induction tree with
  | nil => rfl
  | node value left right leftIh rightIh =>
    simp only [treeDeep, treeDeep2, leftIh, rightIh]
    split <;> split <;> omega

/-- Both programs get a tree back from its numbers, if these are apart, and only from these; they
    prompt for the same children and find the same depth. The one leaves what is behind the last
    number, the other one character less. -/
theorem trees_are_read_back (tree : BinaryTreeNode) (plain : -1 ∉ preorder tree) {gap : List Char}
    (white : White gap) {n : Int} {entries : List (List Char × Int)}
    (gaps : ∀ entry ∈ entries, Apart entry)
    (ints : ∀ m ∈ n :: entries.map Prod.snd, INT_MIN ≤ m ∧ m ≤ INT_MAX) {rest : List Char}
    (behind : Behind rest) {depth : Nat} (deep : (marked tree).length ≤ depth)
    (enough : (marked tree).length = entries.length + 1) :
    let stdin := gap ++ (decimal n ++ (numbersText entries ++ rest))
    (n :: entries.map Prod.snd = marked tree ↔
        createBinaryTree depth stdin = some (tree, rest, prompts tree)) ∧
      (n :: entries.map Prod.snd = marked tree ↔
        createBiTree depth stdin = some (tree, rest.tail, prompts tree)) ∧
      treeDeep2 tree = treeDeep tree := by
  intro stdin
  have iff : ∀ {getchar}, Skips getchar → (n :: entries.map Prod.snd = marked tree ↔
      create getchar depth stdin = some (tree, getchar rest, prompts tree)) := by
    intro getchar skips
    have all := scans_numbers skips white entries gaps ints behind
    rw [← enough] at all
    constructor
    · intro numbers
      rw [numbers] at all
      exact scans_created plain all deep
    · intro created
      have scanned := (created_scans created).1
      rw [all] at scanned
      exact (Prod.mk.inj (Option.some.inj scanned)).1
  exact ⟨iff skips_id, iff skips_tail, tree_deep_same tree⟩

/-- A root with a right child. -/
theorem two_nodes_are_read_back :
    let stdin := ['7', ' ', '-', '1', '\n', '8', ' ', '-', '1', ' ', '-', '1', '\n']
    createBinaryTree 5 stdin = some (node 7 nil (node 8 nil nil), ['\n'],
        [.lvalue 7, .rvalue 7, .lvalue 8, .rvalue 8]) ∧
      createBiTree 5 stdin = some (node 7 nil (node 8 nil nil), [],
        [.lvalue 7, .rvalue 7, .lvalue 8, .rvalue 8]) := by
  have white : White [] := by decide
  have gaps : ∀ entry ∈ [([' '], (-1 : Int)), (['\n'], 8), ([' '], -1), ([' '], -1)],
      Apart entry := by decide
  have behind : Behind ['\n'] := by
    rintro c first
    cases first
    rfl
  have both := trees_are_read_back (node 7 nil (node 8 nil nil)) (by decide) white (n := 7) gaps
    (by decide) behind (Nat.le_refl 5) rfl
  exact ⟨both.1.mp rfl, both.2.1.mp rfl⟩

end UC.BinaryTrees
