import UC.Huffman.Coding
import UC.Lib.Ints

/- CreateHuffman and WeightPathLength in the int of the source: a sum or a product that does not
   fit is none. -/
namespace UC.Huffman
open BTreeNode UC.Ints

/-- A round that joins positions k1 and k2. -/
def joinRound32 (b : Forest) : Option (Forest × BTreeNode) :=
  match firstTwo b (List.range b.length) none with
  | (some k1, some k2) =>
    let (k1, k2) := smallestTwo b (List.range' k2 (b.length - k2)) k1 k2
    (int ((b.at k1).data + (b.at k2).data)).map fun data =>
      let q := .node data (b.at k1) (b.at k2)
      ((b.set k1 q).set k2 .null, q)
  | _ => none

def joinRounds32 : Nat → Forest → Option BTreeNode → Option BTreeNode
  | 0, _, q => q
  | rounds + 1, b, _ =>
    match joinRound32 b with
    | some (b, q) => joinRounds32 rounds b (some q)
    | none => none

def createHuffman32 (a : List Int) : Option BTreeNode :=
  joinRounds32 (a.length - 1) (a.map newLeaf) none

def weightPathLength32 : BTreeNode → Int → Option Int
  | .null, _ => some 0
  | .node d .null .null, len => int (d * len)
  | .node _ l r, len => do
    let deeper ← int (len + 1)
    let left ← weightPathLength32 l deeper
    let right ← weightPathLength32 r deeper
    int (left + right)

theorem int_some {n m : Int} (fits : int n = some m) : m = n ∧ n ≤ INT_MAX := by
  unfold int at fits
  split at fits
  · next inside => exact ⟨(Option.some.inj fits).symm, inside.2⟩
  · cases fits

theorem int_map {β : Type} (n : Int) (f : Int → β) :
    (int n).map f = (int n).map fun _ => f n := by
  unfold int
  split
  · rfl
  · rfl

/-- The round in unbounded integers, where its sum fits. -/
theorem join_round32 (b : Forest) : joinRound32 b =
    (joinRound b).bind fun joined => (int joined.2.data).map fun _ => joined := by
  unfold joinRound32 joinRound
  rcases firstTwo b (List.range b.length) none with ⟨_ | k1, _ | k2⟩
  · rfl
  · rfl
  · rfl
  · dsimp only
    rw [int_map, Option.bind_some, data]

theorem join_rounds32_some {rounds : Nat} {b : Forest} {q : Option BTreeNode} {t : BTreeNode}
    (made : joinRounds32 rounds b q = some t) : joinRounds rounds b q = some t := by
  induction rounds generalizing b q with
  | zero => exact made
  | succ rounds ih =>
    rw [joinRounds32, join_round32] at made
    rw [joinRounds]
    cases joined : joinRound b with
    | none =>
      rw [joined] at made
      cases made
    | some next =>
      rw [joined, Option.bind_some] at made
      cases fits : int next.2.data with
      | none =>
        rw [fits] at made
        cases made
      | some _ =>
        rw [fits] at made
        exact ih made

theorem create_huffman32_some {a : List Int} {t : BTreeNode} (made : createHuffman32 a = some t) :
    createHuffman a = some t := join_rounds32_some made

theorem weight_path_length32_some {t : BTreeNode} {len c : Int}
    (run : weightPathLength32 t len = some c) : c = weightPathLength t len ∧ c ≤ INT_MAX := by
  fun_induction weightPathLength32 t len generalizing c with
  | case1 len =>
    cases run
    exact ⟨rfl, by decide⟩
  | case2 d len =>
    obtain ⟨rfl, small⟩ := int_some run
    exact ⟨rfl, small⟩
  | case3 d left right len inner hl hr =>
    simp only [Option.bind_eq_bind, Option.bind_eq_some_iff] at run
    obtain ⟨deeper, fits, x, runL, y, runR, sum⟩ := run
    obtain ⟨rfl, small⟩ := int_some sum
    obtain ⟨rfl, _⟩ := int_some fits
    have sameL := (hl _ runL).1
    have sameR := (hr _ runR).1
    rw [weightPathLength]
    · exact ⟨by rw [sameL, sameR], small⟩
    · exact inner

theorem path_length_nonneg {t : BTreeNode} (weights : ∀ w ∈ leafValues t, 0 ≤ w) {len : Int}
    (low : 0 ≤ len) : 0 ≤ weightPathLength t len := by
  fun_induction weightPathLength t len with
  | case1 len => exact le_refl _
  | case2 d len => exact Int.mul_nonneg (weights d (Multiset.mem_singleton_self d)) low
  | case3 d left right len inner hl hr =>
    rw [leafValues] at weights
    · have first := hl (fun w mem => weights w (Multiset.mem_add.mpr (.inl mem))) (by omega)
      have second := hr (fun w mem => weights w (Multiset.mem_add.mpr (.inr mem))) (by omega)
      omega
    · exact inner

/-- Where the weights are not negative, no part is larger than the whole. -/
theorem weight_path_length32_fits {t : BTreeNode} (weights : ∀ w ∈ leafValues t, 0 ≤ w) {len : Int}
    (low : 0 ≤ len) (shallow : len + levels t ≤ INT_MAX)
    (small : weightPathLength t len ≤ INT_MAX) :
    weightPathLength32 t len = some (weightPathLength t len) := by
  have above : INT_MIN ≤ 0 := by decide
  fun_induction levels t generalizing len with
  | case1 => rfl
  | case2 d =>
    have positive := path_length_nonneg weights low
    exact int_fits (above.trans positive) small
  | case3 d left right inner hl hr =>
    have positive := path_length_nonneg weights low
    rw [leafValues] at weights
    · have weightsL := fun w mem => weights w (Multiset.mem_add.mpr (.inl mem))
      have weightsR := fun w mem => weights w (Multiset.mem_add.mpr (.inr mem))
      have halves : weightPathLength (.node d left right) len =
          weightPathLength left (len + 1) + weightPathLength right (len + 1) := by
        rw [weightPathLength]
        exact inner
      rw [halves] at small positive ⊢
      have first := path_length_nonneg weightsL (show 0 ≤ len + 1 by omega)
      have second := path_length_nonneg weightsR (show 0 ≤ len + 1 by omega)
      rw [weightPathLength32]
      · rw [int_fits (by omega) (by omega), Option.bind_eq_bind, Option.bind_some,
          hl weightsL (by omega) (by omega) (by omega), Option.bind_some,
          hr weightsR (by omega) (by omega) (by omega), Option.bind_some,
          int_fits (above.trans positive) small]
      · exact inner
    · exact inner

end UC.Huffman
