import UC.Lib.Cells

/- The hash table with linear probing of example_hashtable.cpp, for any table length m. none is
   an access outside elem, or a loop that has not come to its end after so many rounds. -/
namespace UC.LinearProbing
open UC.Cells

def NULLKEY : Int := -32768

structure HashTable where
  elem : Arr Int
  count : Int

/-- m is HASHSIZE in the source. -/
def Init (m : Int) : HashTable := ⟨filled m NULLKEY, m⟩

def Hash (m data : Int) : Int := data.tmod m

/-- (++hashAddress)%m. -/
def next (m hashAddress : Int) : Int := (hashAddress + 1).tmod m

def insertLoop (m : Int) (elem : Arr Int) : Nat → Int → Option Int
  | 0, _ => none
  | rounds + 1, hashAddress =>
    (load elem hashAddress).bind fun value =>
      if value ≠ NULLKEY then insertLoop m elem rounds (next m hashAddress) else some hashAddress

def Insert (m : Int) (rounds : Nat) (hashTable : HashTable) (data : Int) : Option HashTable :=
  (insertLoop m hashTable.elem rounds (Hash m data)).bind fun hashAddress =>
    (save hashTable.elem hashAddress data).map fun elem => { hashTable with elem := elem }

def searchLoop (m : Int) (elem : Arr Int) (data : Int) : Nat → Int → Option Int
  | 0, _ => none
  | rounds + 1, hashAddress =>
    (load elem hashAddress).bind fun value =>
      if value ≠ data then
        (load elem (next m hashAddress)).bind fun value =>
          if value = NULLKEY ∨ next m hashAddress = Hash m data then some (-1)
          else searchLoop m elem data rounds (next m hashAddress)
      else some hashAddress

def Search (m : Int) (rounds : Nat) (hashTable : HashTable) (data : Int) : Option Int :=
  searchLoop m hashTable.elem data rounds (Hash m data)

def insertAll (m : Int) (rounds : Nat) (hashTable : HashTable) (keys : List Int) :
    Option HashTable := keys.foldlM (Insert m rounds) hashTable

/-- The address that is j places behind home. -/
def probe (m home : Int) (j : Nat) : Int := (home + j) % m

section
variable {m home : Int}

theorem hash_probe {data : Int} (nonneg : 0 ≤ data) : Hash m data = probe m data 0 := by
  rw [Hash, Int.tmod_eq_emod_of_nonneg nonneg, probe]
  simp

theorem probe_inside (pos : 1 ≤ m) (home : Int) (j : Nat) :
    0 ≤ probe m home j ∧ probe m home j < m :=
  ⟨Int.emod_nonneg _ (by omega), Int.emod_lt_of_pos _ (by omega)⟩

theorem next_probe (pos : 1 ≤ m) (home : Int) (j : Nat) :
    next m (probe m home j) = probe m home (j + 1) := by
  have inside := probe_inside pos home j
  rw [next, Int.tmod_eq_emod_of_nonneg (by omega), probe, Int.emod_add_emod, probe, Int.add_assoc]
  rfl

theorem probe_reaches (pos : 1 ≤ m) (home : Int) {i : Int} (low : 0 ≤ i) (high : i < m) :
    ∃ j : Nat, (j : Int) < m ∧ probe m home j = i := by
  have inside : 0 ≤ (i - home) % m := Int.emod_nonneg _ (by omega)
  refine ⟨((i - home) % m).toNat, ?_, ?_⟩
  · rw [Int.toNat_of_nonneg inside]
    exact Int.emod_lt_of_pos _ (by omega)
  · rw [probe, Int.toNat_of_nonneg inside, Int.add_emod_emod, Int.add_comm home, Int.sub_add_cancel,
      Int.emod_eq_of_lt low high]

/-- The way comes back home behind m places, and not before. -/
theorem probe_home_iff (home : Int) {j : Nat} (some_way : 0 < j) (short : (j : Int) ≤ m) :
    probe m home j = probe m home 0 ↔ (j : Int) = m := by
  have way : home + j - (home + (0 : Nat)) = j := by omega
  rw [probe, probe, Int.emod_eq_emod_iff_emod_sub_eq_zero, way]
  constructor
  · intro around
    by_contra less
    rw [Int.emod_eq_of_lt (by omega) (by omega)] at around
    omega
  · intro all
    rw [all]
    exact Int.emod_self

end

end UC.LinearProbing
