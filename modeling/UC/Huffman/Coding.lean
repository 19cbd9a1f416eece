import UC.Huffman.Optimal
import UC.Lib.Cells

/- HuffManCoding of example_huffman.cpp. Every call of the recursion uses the same static
   array; an access outside its ten entries is none. -/
namespace UC.Huffman
open BTreeNode UC.Cells UC.WeightedTree

/-- static int a[10]. -/
def codeArray : Arr Int := filled 10 0

/-- The loop that prints a[0] .. a[len - 1]. -/
def readCode (a : Arr Int) : Nat → Option (List Int)
  | 0 => some []
  | i + 1 => do
    let before ← readCode a i
    let bit ← load a i
    some (before ++ [bit])

/-- The array behind the call, and the values and codes that it prints. -/
def huffManCoding : BTreeNode → Arr Int → Nat → Option (Arr Int × List (Int × List Int))
  | .null, a, _ => some (a, [])
  | .node data .null .null, a, len => do
    let code ← readCode a len
    some (a, [(data, code)])
  | .node _ left right, a, len => do
    let a ← save a len 0
    let (a, first) ← huffManCoding left a (len + 1)
    let a ← save a len 1
    let (a, second) ← huffManCoding right a (len + 1)
    some (a, first ++ second)

/-- The way from the root to each leaf. -/
def paths : BTreeNode → List (Int × List Int)
  | .null => []
  | .node data .null .null => [(data, [])]
  | .node _ left right =>
    ((paths left).map fun path => (path.1, 0 :: path.2)) ++
      (paths right).map fun path => (path.1, 1 :: path.2)

/-- The number of edges on the longest way down. -/
def levels : BTreeNode → Nat
  | .null => 0
  | .node _ .null .null => 0
  | .node _ left right => max (levels left) (levels right) + 1

theorem stretch_last_cell (cell : Int → Int) (len : Nat) :
    stretch cell 0 ((len + 1 : Nat) - 1) = stretch cell 0 (len - 1) ++ [cell len] := by
  have last : stretch cell len len = [cell len] := by
    rw [stretch_cons cell (le_refl _), stretch_none cell (by omega)]
  have whole := @stretch_append _ cell 0 len len (by omega) (by omega)
  have here : ((len + 1 : Nat) : Int) - 1 = len := by omega
  rw [here, ← whole, last]

theorem read_code_runs {cell : Int → Int} {len : Nat} (inside : len ≤ 10) :
    readCode ⟨0, 10, cell⟩ len = some (stretch cell 0 (len - 1)) := by
  induction len with
  | zero => rfl
  | succ n ih =>
    have read := @load_inside _ ⟨0, 10, cell⟩ n (by dsimp only; omega) (by dsimp only; omega)
    rw [readCode, ih (by omega), read, stretch_last_cell]
    rfl

theorem save_bit (cell : Int → Int) {len : Nat} (room : len < 10) (bit : Int) :
    save ⟨0, 10, cell⟩ len bit = some ⟨0, 10, set cell len bit⟩ :=
  save_inside (by dsimp only; omega) (by dsimp only; omega) bit

/-- The array when bit is stored behind the first len cells of another. -/
theorem stored_bit {cell now : Int → Int} {len : Nat} (bit : Int)
    (same : ∀ i : Int, i < len → now i = cell i) :
    stretch (set now len bit) 0 ((len + 1 : Nat) - 1) = stretch cell 0 (len - 1) ++ [bit] := by
  have front : stretch (set now len bit) 0 (len - 1) = stretch cell 0 (len - 1) := by
    apply stretch_congr
    intro i _ high
    rw [set_other _ _ (by omega)]
    exact same i (by omega)
  rw [stretch_last_cell, front, set_same]

theorem coding_runs (t : BTreeNode) (full : Full t) {cell : Int → Int} {len : Nat}
    (inside : len + levels t ≤ 10) :
    ∃ behind, huffManCoding t ⟨0, 10, cell⟩ len = some (⟨0, 10, behind⟩,
        (paths t).map fun path => (path.1, stretch cell 0 (len - 1) ++ path.2)) ∧
      ∀ i : Int, i < len → behind i = cell i := by
  fun_induction levels t generalizing cell len with
  | case1 => exact full.elim
  | case2 data =>
    refine ⟨cell, ?_, fun _ _ => rfl⟩
    rw [huffManCoding, read_code_runs (by omega), paths]
    simp
  | case3 data left right inner hl hr =>
    have both : Full left ∧ Full right := by
      rwa [Full] at full
      exact inner
    obtain ⟨one, runL, keptL⟩ := @hl both.1 (set cell len 0) (len + 1) (by omega)
    obtain ⟨two, runR, keptR⟩ := @hr both.2 (set one len 1) (len + 1) (by omega)
    have same : ∀ i, i < (len : Int) → one i = cell i := by
      intro i below
      rw [keptL i (by omega), set_other _ _ (by omega)]
    have room : len < 10 := by omega
    refine ⟨two, ?_, ?_⟩
    · rw [huffManCoding, save_bit cell room]
      · change (huffManCoding left ⟨0, 10, set cell len 0⟩ (len + 1)).bind _ = _
        rw [runL]
        change (save ⟨0, 10, one⟩ len 1).bind _ = _
        rw [save_bit one room]
        change (huffManCoding right ⟨0, 10, set one len 1⟩ (len + 1)).bind _ = _
        rw [runR, stored_bit 0 fun _ _ => rfl, stored_bit 1 same, paths]
        · simp only [Option.bind_some, List.map_append, List.map_map, Function.comp_def,
            List.append_assoc, List.singleton_append]
        · exact inner
      · exact inner
    · intro i below
      rw [keptR i (by omega), set_other _ _ (by omega)]
      exact same i below

/-- A tree with more levels than the array has entries left. -/
theorem coding_overruns (t : BTreeNode) (full : Full t) {cell : Int → Int} {len : Nat}
    (start : len ≤ 10) (deep : 10 < len + levels t) :
    huffManCoding t ⟨0, 10, cell⟩ len = none := by
  fun_induction levels t generalizing cell len with
  | case1 => exact full.elim
  | case2 data => omega
  | case3 data left right inner hl hr =>
    have both : Full left ∧ Full right := by
      rwa [Full] at full
      exact inner
    rw [huffManCoding]
    · by_cases room : len < 10
      · rw [save_bit cell room]
        change (huffManCoding left ⟨0, 10, set cell len 0⟩ (len + 1)).bind _ = _
        by_cases deepL : 10 < len + 1 + levels left
        · rw [hl both.1 (by omega) deepL]
          rfl
        · obtain ⟨one, run, _⟩ := @coding_runs left both.1 (set cell len 0) (len + 1) (by omega)
          rw [run]
          change (save ⟨0, 10, one⟩ len 1).bind _ = _
          rw [save_bit one room]
          change (huffManCoding right ⟨0, 10, set one len 1⟩ (len + 1)).bind _ = _
          rw [hr both.2 (by omega) (by omega)]
          rfl
      · have outside : save ⟨0, 10, cell⟩ len 0 = none := if_neg (by dsimp only; omega)
        rw [outside]
        rfl
    · exact inner

theorem paths_pairs (t : BTreeNode) (full : Full t) (depth : Nat) :
    (((paths t).map fun path => (path.1, depth + path.2.length) : List (Int × ℕ)) :
      Multiset (Int × ℕ)) = pairs (shape t) depth := by
  fun_induction shape t generalizing depth with
  | case1 => exact full.elim
  | case2 data => rfl
  | case3 data left right inner hl hr =>
    have both : Full left ∧ Full right := by
      rwa [Full] at full
      exact inner
    rw [paths, pairs, ← hl both.1 (depth + 1), ← hr both.2 (depth + 1)]
    · have deeper : ∀ (bit : Int) (branch : List (Int × List Int)),
          branch.map ((fun path => (path.1, depth + path.2.length)) ∘
            fun path => (path.1, bit :: path.2)) =
          branch.map fun path => (path.1, depth + 1 + path.2.length) := by
        intro bit branch
        apply List.map_congr_left
        intro path _
        simp only [Function.comp_apply, List.length_cons, Prod.mk.injEq, true_and]
        omega
      rw [List.map_append, List.map_map, List.map_map, ← Multiset.coe_add, deeper, deeper]
    · exact inner

def PrefixFree (codes : List (List Int)) : Prop :=
  codes.Pairwise fun code other => ¬ code <+: other ∧ ¬ other <+: code

theorem prefix_free_pushed {codes : List (List Int)} (apart : PrefixFree codes) (bit : Int) :
    PrefixFree (codes.map (bit :: ·)) := by
  rw [PrefixFree, List.pairwise_map]
  apply apart.imp
  intro code other ne
  simpa only [List.cons_prefix_cons, true_and] using ne

theorem paths_prefix_free (t : BTreeNode) : PrefixFree ((paths t).map Prod.snd) := by
  fun_induction paths t with
  | case1 => simp [PrefixFree]
  | case2 data => simp [PrefixFree]
  | case3 data left right inner hl hr =>
    have cons : ∀ (bit : Int) (branch : List (Int × List Int)),
        (branch.map fun path => (path.1, bit :: path.2)).map Prod.snd =
          (branch.map Prod.snd).map (bit :: ·) := by
      simp
    rw [List.map_append, cons, cons, PrefixFree, List.pairwise_append]
    refine ⟨prefix_free_pushed hl 0, prefix_free_pushed hr 1, ?_⟩
    intro code memL other memR
    obtain ⟨_, _, same⟩ := List.mem_map.mp memL
    obtain ⟨_, _, same'⟩ := List.mem_map.mp memR
    rw [← same, ← same', List.cons_prefix_cons, List.cons_prefix_cons]
    simp

end UC.Huffman
