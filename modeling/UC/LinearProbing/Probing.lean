import Mathlib.Data.Multiset.Replicate
import Mathlib.Data.Nat.Find
import UC.LinearProbing.Model

/- What has been inserted is found. Between the home of a key and its place no cell is empty, and
   as long as fewer than m keys are in the table the way from each home meets an empty cell. -/
namespace UC.LinearProbing
open UC.Cells

structure Placed (m : Int) (elem : Arr Int) (keys : List Int) : Prop where
  spans : Spans elem m
  content : bag elem.cell (indices 0 (m - 1)) =
    (keys : Multiset Int) + Multiset.replicate (m.toNat - keys.length) NULLKEY
  run : ∀ i, 0 ≤ i → i < m → elem.cell i ≠ NULLKEY →
    ∃ d : Nat, (d : Int) < m ∧ probe m (elem.cell i) d = i ∧
      ∀ j < d, elem.cell (probe m (elem.cell i) j) ≠ NULLKEY

theorem key_not_null {x : Int} (nonneg : 0 ≤ x) : x ≠ NULLKEY := by
  rintro rfl
  exact absurd nonneg (by decide)

section
variable {m : Int} {elem : Arr Int} {keys : List Int}

theorem placed_init (pos : 1 ≤ m) : Placed m (Init m).elem [] where
  spans := filled_spans _ _
  content := by
    have cells : (m - 1 + 1 - 0).toNat = m.toNat := by omega
    change bag (fun _ => NULLKEY) (indices 0 (m - 1)) = _
    rw [← stretch_bag, stretch, List.map_const', List.length_range, cells, Multiset.coe_replicate]
    exact (zero_add _).symm
  run _ _ _ some_key := absurd rfl some_key

theorem load_probe (spans : Spans elem m) (pos : 1 ≤ m) (home : Int) (j : Nat) :
    load elem (probe m home j) = some (elem.cell (probe m home j)) := by
  have inside := probe_inside pos home j
  exact load_spans spans inside.1 inside.2

theorem cell_key_iff (placed : Placed m elem keys) {x : Int} (nonneg : 0 ≤ x) :
    (∃ i, (0 ≤ i ∧ i < m) ∧ elem.cell i = x) ↔ x ∈ keys := by
  have there : x ∈ bag elem.cell (indices 0 (m - 1)) ↔ x ∈ keys := by
    rw [placed.content, Multiset.mem_add, Multiset.mem_coe]
    apply or_iff_left
    intro empty
    exact key_not_null nonneg (Multiset.eq_of_mem_replicate empty)
  rw [← there, mem_bag]
  simp only [mem_indices, Int.le_sub_one_iff]

theorem empty_cell (placed : Placed m elem keys) (room : keys.length < m) :
    ∃ i, (0 ≤ i ∧ i < m) ∧ elem.cell i = NULLKEY := by
  have there : NULLKEY ∈ bag elem.cell (indices 0 (m - 1)) := by
    rw [placed.content, Multiset.mem_add]
    apply Or.inr
    rw [Multiset.mem_replicate]
    exact ⟨by omega, rfl⟩
  simpa only [mem_bag, mem_indices, Int.le_sub_one_iff] using there

theorem insert_loop_stops (spans : Spans elem m) (pos : 1 ≤ m) {home : Int} {rounds j d : Nat}
    (before : j ≤ d) (full : ∀ k < d, elem.cell (probe m home k) ≠ NULLKEY)
    (empty : elem.cell (probe m home d) = NULLKEY) (enough : d < j + rounds) :
    insertLoop m elem rounds (probe m home j) = some (probe m home d) := by
  induction rounds generalizing j with
  | zero => omega
  | succ rounds ih =>
    rw [insertLoop, load_probe spans pos, Option.bind_some]
    rcases Nat.lt_or_eq_of_le before with less | rfl
    · rw [if_pos (full j less), next_probe pos]
      exact ih less (by omega)
    · rw [if_neg (not_not.mpr empty)]

theorem first_empty (placed : Placed m elem keys) (pos : 1 ≤ m) (room : keys.length < m)
    (home : Int) :
    ∃ d : Nat, (d : Int) < m ∧ elem.cell (probe m home d) = NULLKEY ∧
      ∀ j < d, elem.cell (probe m home j) ≠ NULLKEY := by
  obtain ⟨i, inside, empty⟩ := empty_cell placed room
  obtain ⟨far, short, here⟩ := probe_reaches pos home inside.1 inside.2
  have some_empty : ∃ d, elem.cell (probe m home d) = NULLKEY := ⟨far, by rw [here, empty]⟩
  have first := Nat.find_min' some_empty (show elem.cell (probe m home far) = NULLKEY by
    rw [here, empty])
  exact ⟨Nat.find some_empty, by omega, Nat.find_spec some_empty,
    fun j less => Nat.find_min some_empty less⟩

theorem put_placed (placed : Placed m elem keys) (pos : 1 ≤ m) (room : keys.length < m)
    {data : Int} {d : Nat} (short : (d : Int) < m)
    (empty : elem.cell (probe m data d) = NULLKEY)
    (full : ∀ j < d, elem.cell (probe m data j) ≠ NULLKEY) :
    Placed m (put elem (probe m data d) data) (keys ++ [data]) := by
  have inside := probe_inside pos data d
  have kept : ∀ i, elem.cell i ≠ NULLKEY → set elem.cell (probe m data d) data i = elem.cell i := by
    intro i other
    apply set_other
    rintro rfl
    exact other empty
  have filled : ∀ i, elem.cell i ≠ NULLKEY → set elem.cell (probe m data d) data i ≠ NULLKEY := by
    intro i other
    rw [kept i other]
    exact other
  refine ⟨put_spans placed.spans _ _, ?_, ?_⟩
  · have bags := bag_set elem.cell (mem_indices.mpr ⟨inside.1, Int.le_sub_one_of_lt inside.2⟩) data
    have cells : m.toNat - keys.length = m.toNat - (keys ++ [data]).length + 1 := by
      rw [List.length_append, List.length_singleton]
      omega
    rw [empty, placed.content, cells, Multiset.replicate_succ] at bags
    rw [put_cell, ← Multiset.coe_add, Multiset.coe_singleton]
    apply add_right_cancel (b := {NULLKEY})
    rw [bags, ← Multiset.singleton_add]
    ac_rfl
  · intro i low high other
    dsimp only [put_cell] at other ⊢
    by_cases here : i = probe m data d
    · rw [here, set_same]
      exact ⟨d, short, rfl, fun j less => filled _ (full j less)⟩
    · rw [set_other _ _ here] at other ⊢
      obtain ⟨e, near, at_i, before⟩ := placed.run i low high other
      exact ⟨e, near, at_i, fun j less => filled _ (before j less)⟩

theorem insert_placed {hashTable : HashTable} (placed : Placed m hashTable.elem keys) (pos : 1 ≤ m)
    (room : keys.length < m) {data : Int} (nonneg : 0 ≤ data) :
    ∃ h, Insert m m.toNat hashTable data = some h ∧ Placed m h.elem (keys ++ [data]) := by
  obtain ⟨d, short, empty, full⟩ := first_empty placed pos room data
  have inside := probe_inside pos data d
  refine ⟨{ hashTable with elem := put hashTable.elem (probe m data d) data }, ?_, ?_⟩
  · have stops := @insert_loop_stops m hashTable.elem placed.spans pos data m.toNat 0 d
      (Nat.zero_le d) full empty (by omega)
    rw [Insert, hash_probe nonneg, stops, Option.bind_some,
      save_spans placed.spans inside.1 inside.2, Option.map_some]
  · exact put_placed placed pos room short empty full

theorem insert_all_placed {hashTable : HashTable} (placed : Placed m hashTable.elem keys)
    (pos : 1 ≤ m) (more : List Int) (room : (keys ++ more).length ≤ m)
    (nonneg : ∀ x ∈ more, 0 ≤ x) :
    ∃ h, insertAll m m.toNat hashTable more = some h ∧ Placed m h.elem (keys ++ more) := by
  induction more generalizing hashTable keys with
  | nil => exact ⟨hashTable, rfl, by rwa [List.append_nil]⟩
  | cons data more ih =>
    rw [List.length_append, List.length_cons] at room
    obtain ⟨h, run, next⟩ :=
      insert_placed placed pos (by omega) (nonneg data List.mem_cons_self)
    obtain ⟨last, runs, all⟩ := ih next
      (by rw [List.length_append, List.length_append, List.length_singleton]; omega)
      (fun x mem => nonneg x (List.mem_cons_of_mem data mem))
    refine ⟨last, ?_, by simpa using all⟩
    rw [insertAll, List.foldlM_cons, run]
    exact runs

theorem search_loop_hit (spans : Spans elem m) (pos : 1 ≤ m) {x : Int} (nonneg : 0 ≤ x)
    {rounds j d : Nat} (before : j ≤ d) (short : (d : Int) < m)
    (full : ∀ k < d, elem.cell (probe m x k) ≠ NULLKEY ∧ elem.cell (probe m x k) ≠ x)
    (here : elem.cell (probe m x d) = x) (enough : d < j + rounds) :
    searchLoop m elem x rounds (probe m x j) = some (probe m x d) := by
  induction rounds generalizing j with
  | zero => omega
  | succ rounds ih =>
    rw [searchLoop, load_probe spans pos, Option.bind_some]
    rcases Nat.lt_or_eq_of_le before with less | rfl
    · have goes_on : ¬ (elem.cell (probe m x (j + 1)) = NULLKEY ∨
          probe m x (j + 1) = Hash m x) := by
        rw [hash_probe nonneg, probe_home_iff x (Nat.succ_pos j) (by omega)]
        rintro (empty | around)
        · rcases Nat.lt_or_eq_of_le (show j + 1 ≤ d from less) with more | last
          · exact (full (j + 1) more).1 empty
          · rw [last, here] at empty
            exact key_not_null nonneg empty
        · omega
      rw [if_pos (full j less).2, next_probe pos, load_probe spans pos, Option.bind_some,
        if_neg goes_on]
      exact ih less (by omega)
    · rw [if_neg (not_not.mpr here)]

/-- A key that is nowhere is given up at the latest when the way is back home. -/
theorem search_loop_miss (spans : Spans elem m) (pos : 1 ≤ m) {x : Int} (nonneg : 0 ≤ x)
    (nowhere : ∀ i, 0 ≤ i → i < m → elem.cell i ≠ x) {rounds j : Nat} (short : (j : Int) < m)
    (enough : m ≤ j + rounds) : searchLoop m elem x rounds (probe m x j) = some (-1) := by
  induction rounds generalizing j with
  | zero => omega
  | succ rounds ih =>
    have inside := probe_inside pos x j
    rw [searchLoop, load_probe spans pos, Option.bind_some,
      if_pos (nowhere _ inside.1 inside.2), next_probe pos, load_probe spans pos, Option.bind_some]
    split
    · rfl
    · rename_i goes_on
      rw [hash_probe nonneg, probe_home_iff x (Nat.succ_pos j) (by omega), not_or] at goes_on
      exact ih (by omega) (by omega)

theorem search_placed {hashTable : HashTable} (placed : Placed m hashTable.elem keys) (pos : 1 ≤ m)
    {x : Int} (nonneg : 0 ≤ x) :
    ∃ i, Search m m.toNat hashTable x = some i ∧
      (x ∈ keys → 0 ≤ i ∧ i < m ∧ hashTable.elem.cell i = x) ∧ (x ∉ keys → i = -1) := by
  rw [Search, hash_probe nonneg, ← cell_key_iff placed nonneg]
  by_cases there : ∃ i, (0 ≤ i ∧ i < m) ∧ hashTable.elem.cell i = x
  · obtain ⟨i, inside, here⟩ := there
    have some_key : hashTable.elem.cell i ≠ NULLKEY := by
      rw [here]
      exact key_not_null nonneg
    obtain ⟨far, short, at_i, full⟩ := placed.run i inside.1 inside.2 some_key
    rw [here] at at_i full
    have some_place : ∃ d, hashTable.elem.cell (probe m x d) = x := ⟨far, by rw [at_i, here]⟩
    have first := Nat.find_min' some_place (show hashTable.elem.cell (probe m x far) = x by
      rw [at_i, here])
    have place := Nat.find_spec some_place
    have hit := @search_loop_hit m hashTable.elem placed.spans pos x nonneg m.toNat 0
      (Nat.find some_place) (Nat.zero_le _) (by omega)
      (fun k less => ⟨full k (by omega), Nat.find_min some_place less⟩) place (by omega)
    have cell := probe_inside pos x (Nat.find some_place)
    exact ⟨_, hit, fun _ => ⟨cell.1, cell.2, place⟩, fun apart => absurd ⟨i, inside, here⟩ apart⟩
  · have nowhere : ∀ i, 0 ≤ i → i < m → hashTable.elem.cell i ≠ x :=
      fun i low high here => there ⟨i, ⟨low, high⟩, here⟩
    have miss := @search_loop_miss m hashTable.elem placed.spans pos x nonneg nowhere m.toNat 0
      (by omega) (by omega)
    exact ⟨-1, miss, fun mem => absurd mem there, fun _ => rfl⟩

/-- Up to m keys may be inserted, and then each search is right. -/
theorem probing_correct (pos : 1 ≤ m) (few : keys.length ≤ m) (nonneg : ∀ x ∈ keys, 0 ≤ x) :
    ∃ rounds hashTable, insertAll m rounds (Init m) keys = some hashTable ∧
      ∀ x, 0 ≤ x → ∃ i, Search m rounds hashTable x = some i ∧
        (x ∈ keys → 0 ≤ i ∧ i < m ∧ hashTable.elem.cell i = x) ∧ (x ∉ keys → i = -1) := by
  obtain ⟨hashTable, run, placed⟩ :=
    insert_all_placed (placed_init pos) pos keys (by simpa using few) nonneg
  exact ⟨m.toNat, hashTable, run, fun x positive => search_placed placed pos positive⟩

end

/-- The keys of main, which fill its table. -/
theorem main_probing_correct :
    ∃ rounds hashTable, insertAll 7 rounds (Init 7) [13, 29, 27, 28, 26, 30, 38] = some hashTable ∧
      ∀ x, 0 ≤ x → ∃ i, Search 7 rounds hashTable x = some i ∧
        (x ∈ [13, 29, 27, 28, 26, 30, 38] → 0 ≤ i ∧ i < 7 ∧ hashTable.elem.cell i = x) ∧
        (x ∉ [13, 29, 27, 28, 26, 30, 38] → i = -1) :=
  probing_correct (by decide) (by decide) (by simp)

end UC.LinearProbing
