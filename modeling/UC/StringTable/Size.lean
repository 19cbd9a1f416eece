import Mathlib.Algebra.BigOperators.Group.Finset.Basic
import UC.StringTable.FiniteMap

/- hash_table_size against the nodes that hang on the buckets. An insert that takes a node counts
   it; no removal lowers the counter, so it is right until the first one that finds its key. -/
namespace UC.StringTable
open UC.Memory UC.Histories

def stored (t : Table) : Nat := ∑ pos ∈ Finset.range 10000, (t.hashTable pos).length

/-- The counter is the number of nodes, and where it keeps a new key out they are that many. -/
def SizeExact (s : State) : Prop :=
  s.table.hash_table_size = stored s.table ∧
    ∀ skey nvalue, hash_table_lookup s.table skey = none →
      hash_table_lookup (hash_table_insert s.table skey nvalue) skey = none →
        HASH_TABLE_MAX_SIZE ≤ stored s.table

/-- A removal does not find its key. -/
def Unfound (s : State) : Call → Prop
  | .remove skey => hash_table_lookup s.table skey = none
  | .insert _ _ | .lookup _ => True

section Chains
variable {skey : CString} {chain : List HashNode}

theorem unlink_absent (absent : scan skey chain = none) : unlink skey chain = chain := by
  induction chain with
  | nil => rfl
  | cons pHead pNext ih =>
    simp only [scan] at absent
    split at absent
    · cases absent
    · rename_i other
      rw [unlink, if_neg (Ne.symm other), ih absent]

theorem unlink_shorter (found : scan skey chain ≠ none) :
    (unlink skey chain).length < chain.length := by
  induction chain with
  | nil => exact absurd rfl found
  | cons pHead pNext ih =>
    rw [unlink]
    split
    · exact Nat.lt_succ_self _
    · rename_i other
      rw [scan, if_neg (Ne.symm other)] at found
      exact Nat.succ_lt_succ (ih found)

end Chains

section Tables
variable {t : Table} {skey : CString}

theorem position_lt (skey : CString) : position skey < 10000 := Nat.mod_lt _ (by decide)

theorem stored_store (t : Table) (chain : List HashNode) (size : Int) (skey : CString) :
    stored ⟨store t.hashTable (position skey) chain, size⟩ +
        (t.hashTable (position skey)).length = stored t + chain.length := by
  have inside := Finset.mem_range.mpr (position_lt skey)
  have others : ∑ pos ∈ (Finset.range 10000).erase (position skey),
        (store t.hashTable (position skey) chain pos).length =
      ∑ pos ∈ (Finset.range 10000).erase (position skey), (t.hashTable pos).length := by
    apply Finset.sum_congr rfl
    intro pos other
    rw [store_other _ _ (Finset.ne_of_mem_erase other)]
  rw [stored, stored, ← Finset.add_sum_erase _ _ inside, ← Finset.add_sum_erase _ _ inside]
  simp only [others, store_same]
  omega

theorem new_key_found (room : t.hash_table_size < HASH_TABLE_MAX_SIZE)
    (absent : hash_table_lookup t skey = none) (nvalue : Int) :
    hash_table_lookup (hash_table_insert t skey nvalue) skey = some ⟨skey, nvalue⟩ := by
  rw [insert_new room absent]
  simp only [hash_table_lookup, store_same, scan, if_true]

theorem remove_unfound (absent : hash_table_lookup t skey = none) :
    hash_table_remove t skey = t := by
  simp only [hash_table_lookup] at absent
  cases chain : t.hashTable (position skey) with
  | nil => simp only [hash_table_remove, chain]
  | cons pHead pNext =>
    rw [chain, scan] at absent
    split at absent
    · cases absent
    · rename_i other
      have same : store t.hashTable (position skey) (pHead :: pNext) = t.hashTable := by
        funext pos
        rw [← chain, store]
        split
        · rename_i here
          rw [here]
        · rfl
      simp only [hash_table_remove, chain, if_neg (Ne.symm other), unlink_absent absent, same]

theorem remove_found (found : hash_table_lookup t skey ≠ none) :
    stored (hash_table_remove t skey) < stored t := by
  simp only [hash_table_lookup] at found
  cases chain : t.hashTable (position skey) with
  | nil =>
    rw [chain] at found
    exact absurd rfl found
  | cons pHead pNext =>
    simp only [hash_table_remove, chain]
    have change := stored_store t
      (if skey = pHead.sKey then [] else pHead :: unlink skey pNext) t.hash_table_size skey
    have shorter : (if skey = pHead.sKey then [] else pHead :: unlink skey pNext).length <
        (pHead :: pNext).length := by
      split
      · exact Nat.succ_pos _
      · rename_i other
        rw [chain, scan, if_neg (Ne.symm other)] at found
        exact Nat.succ_lt_succ (unlink_shorter found)
    rw [chain] at change
    omega

/-- The counter alone decides whether a new key gets in. -/
theorem size_exact_iff (s : State) :
    SizeExact s ↔ s.table.hash_table_size = stored s.table := by
  constructor
  · exact And.left
  · intro exact_now
    refine ⟨exact_now, ?_⟩
    intro skey nvalue absent refused
    rw [← exact_now]
    by_contra room
    rw [new_key_found (Int.not_le.mp room) absent] at refused
    cases refused

end Tables

section Steps

theorem size_exact_start : SizeExact start := by
  rw [size_exact_iff]
  simp [start, hash_table_init, stored]

theorem size_exact_call (s : State) (op : Call) (t : State) (now : SizeExact s)
    (unfound : Unfound s op) (taken : call s op = some t) : SizeExact t := by
  rw [size_exact_iff] at now ⊢
  cases taken
  cases op with
  | insert skey nvalue =>
    dsimp only
    by_cases absent : hash_table_lookup s.table skey = none
    · by_cases room : s.table.hash_table_size < HASH_TABLE_MAX_SIZE
      · have change := stored_store s.table (⟨skey, nvalue⟩ :: s.table.hashTable (position skey))
          (s.table.hash_table_size + 1) skey
        rw [insert_new room absent]
        simp only [List.length_cons] at change ⊢
        omega
      · rw [insert_refused (Int.not_lt.mp room)]
        exact now
    · rw [insert_known absent]
      exact now
  | remove skey =>
    dsimp only
    rw [remove_unfound unfound]
    exact now
  | lookup skey => exact now

theorem size_exact_lost (s : State) (op : Call) (t : State) (now : SizeExact s)
    (found : ¬ Unfound s op) (taken : call s op = some t) : ¬ SizeExact t := by
  rw [size_exact_iff] at now ⊢
  cases taken
  cases op with
  | remove skey =>
    have fewer := remove_found found
    have counter : (hash_table_remove s.table skey).hash_table_size = s.table.hash_table_size := by
      simp only [hash_table_remove]
      split <;> rfl
    dsimp only
    rw [counter, now]
    omega
  | insert _ _ | lookup _ => exact absurd trivial found

end Steps

/-- The counter is right after every call of exactly the histories whose removals find nothing. -/
theorem hash_table_size_exact_iff (history : List Call) :
    Always call SizeExact history start ↔ Lawful call Unfound history start :=
  always_iff_lawful (fun _ now => now) size_exact_call size_exact_lost history size_exact_start
    (calls_possible history start)

/-- A key inserted and removed again, and so on. -/
def rounds (skey : CString) : Nat → List Call
  | 0 => []
  | n + 1 => .insert skey 0 :: .remove skey :: rounds skey n

/-- Every round counts one more entry and leaves none. -/
theorem rounds_count (skey : CString) (n : Nat) (s : State)
    (empty : s.table.hashTable (position skey) = [])
    (room : s.table.hash_table_size + n ≤ HASH_TABLE_MAX_SIZE) :
    ∃ map, play call (rounds skey n) s =
      some ⟨⟨s.table.hashTable, s.table.hash_table_size + n⟩, map⟩ := by
  induction n generalizing s with
  | zero => exact ⟨s.map, by simp [rounds, play]⟩
  | succ n ih =>
    have absent : hash_table_lookup s.table skey = none := by
      rw [hash_table_lookup, empty]
      rfl
    have inserted := insert_new (by omega) absent 0
    have removed : hash_table_remove (hash_table_insert s.table skey 0) skey =
        ⟨s.table.hashTable, s.table.hash_table_size + 1⟩ := by
      simp only [inserted, hash_table_remove, store_same, if_true]
      congr 1
      funext pos
      by_cases here : pos = position skey
      · rw [here, store_same, empty]
      · rw [store_other _ _ here, store_other _ _ here]
    let after : State := ⟨⟨s.table.hashTable, s.table.hash_table_size + 1⟩,
      specify (specify s.map (.insert skey 0)) (.remove skey)⟩
    have round : play call (rounds skey (n + 1)) s = play call (rounds skey n) after := by
      simp only [rounds, play, call, Option.bind_some, removed, after]
    obtain ⟨map, played⟩ := ih after empty (by
      change s.table.hash_table_size + 1 + n ≤ HASH_TABLE_MAX_SIZE
      omega)
    refine ⟨map, ?_⟩
    rw [round, played]
    have sum : s.table.hash_table_size + 1 + (n : Int) = s.table.hash_table_size + (n + 1 : Nat) := by
      omega
    simp only [after, sum]

/-- Behind 10000 rounds with a the table is empty and takes no key. -/
theorem empty_table_refuses :
    ¬ ∀ history s, play call history start = some s → SizeExact s := by
  intro always
  obtain ⟨map, played⟩ := rounds_count ⟨[97], by decide⟩ 10000 start rfl (by decide)
  have counted := (always _ _ played).2 ⟨[98], by decide⟩ 0 rfl rfl
  simp [start, hash_table_init, stored, HASH_TABLE_MAX_SIZE] at counted

end UC.StringTable
