import Mathlib.Data.Int.ModEq
import Mathlib.Tactic.Ring
import UC.HashChains.Model
import UC.Lib.Outcomes

/- hashFn as a polynomial of the signed chars. The remainder of a negative int is negative or
   zero, so a key has a bucket when the int is not negative, or a multiple of HASHSIZE. -/
namespace UC.HashChains
open UC.Cells UC.Outcomes
open UC.StringTable (CString)

/-- The sum of key[i] times 33 to the number of chars behind it. -/
def polynomial : List UInt8 → Int
  | [] => 0
  | ch :: rest => ch.toInt8.toInt * (33 ^ rest.length : Nat) + polynomial rest

/-- The polynomial of the chars that time33 reads, to 32 bits. -/
def lowBits (key : CString) : Int :=
  polynomial (key.bytes.take (toInt key.bytes.length).toNat) % 4294967296

/-- The low bits are not negative as an int, or what they are is a multiple of HASHSIZE. -/
def HasBucket (key : CString) : Prop :=
  lowBits key < 2147483648 ∨ HASHSIZE ∣ 4294967296 - lowBits key

/-- Nothing outside hashTable is accessed. -/
def Inside {α : Type} (run : Except Fault α) : Prop := run ≠ .error .outside

/-- No access hashTable[pos] of the three calls is out of bounds, in any table. -/
def AccessesInside (key : CString) : Prop :=
  ∀ t : Table, Spans t.hashTable HASHSIZE →
    ∀ (room : Nat → Nat) (rounds address : Nat) (value : CString),
    Inside (hashInsert room rounds address t (some key) value) ∧
    Inside (hashDelete rounds t (some key)) ∧ Inside (hashSearch rounds t (some key))

theorem char_value_signed (ch : UInt8) :
    ((charValue ch).toNat : Int) ≡ ch.toInt8.toInt [ZMOD 18446744073709551616] := by
  have wide : ch.toInt8.toInt = Int.bmod (charValue ch).toNat 18446744073709551616 := by
    rw [← Int8.toInt_toInt64, ← Int64.toInt_toBitVec, BitVec.toInt_eq_toNat_bmod,
      Int64.toNat_toBitVec]
    rfl
  rw [wide]
  exact Int.bmod_emod.symm

theorem long_step (hash a : UInt64) :
    ((hash * 33 + a).toNat : Int) ≡ hash.toNat * 33 + a.toNat [ZMOD 18446744073709551616] := by
  have value : (hash * 33 + a).toNat = (hash.toNat * 33 + a.toNat) % 18446744073709551616 := by
    rw [UInt64.toNat_add, UInt64.toNat_mul, Nat.mod_add_mod]
    rfl
  rw [value, Int.natCast_mod, Nat.cast_add, Nat.cast_mul]
  exact Int.mod_modEq _ _

theorem fold_polynomial (key : List UInt8) (hash : UInt64) :
    ((key.foldl (fun hash ch => hash * 33 + charValue ch) hash).toNat : Int) ≡
      hash.toNat * (33 ^ key.length : Nat) + polynomial key [ZMOD 18446744073709551616] := by
  induction key generalizing hash with
  | nil => simp [polynomial]
  | cons ch rest ih =>
    have step := (long_step hash (charValue ch)).trans ((char_value_signed ch).add_left _)
    have later := (ih (hash * 33 + charValue ch)).trans ((step.mul_right _).add_right _)
    have same : (hash.toNat * 33 + ch.toInt8.toInt) * (33 ^ rest.length : Nat) + polynomial rest =
        hash.toNat * (33 ^ (ch :: rest).length : Nat) + polynomial (ch :: rest) := by
      rw [polynomial, List.length_cons, Nat.pow_succ]
      push_cast
      ring
    rw [same] at later
    exact later

theorem to_int_low (n : Int) : Int.bmod n 4294967296 =
    if n % 4294967296 < 2147483648 then n % 4294967296 else n % 4294967296 - 4294967296 := rfl

theorem time33_polynomial (key : List UInt8) (size : Int) :
    time33 key size = Int.bmod (polynomial (key.take size.toNat)) 4294967296 := by
  have folded := fold_polynomial (key.take size.toNat) 0
  have zero : ((0 : UInt64).toNat : Int) * (33 ^ (key.take size.toNat).length : Nat) = 0 :=
    Int.zero_mul _
  rw [zero, Int.zero_add] at folded
  have low := folded.of_dvd (show (4294967296 : Int) ∣ 18446744073709551616 from ⟨4294967296, rfl⟩)
  unfold time33 toInt
  rw [to_int_low, to_int_low (polynomial _), low.eq]

/-- The remainder of an int that is given by its low bits. -/
theorem tmod_inside_iff (n : Int) :
    (0 ≤ (Int.bmod n 4294967296).tmod HASHSIZE ∧ (Int.bmod n 4294967296).tmod HASHSIZE < HASHSIZE) ↔
      n % 4294967296 < 2147483648 ∨ HASHSIZE ∣ 4294967296 - n % 4294967296 := by
  rw [to_int_low]
  unfold HASHSIZE
  by_cases small : n % 4294967296 < 2147483648
  · rw [if_pos small, Int.tmod_eq_emod_of_nonneg (by omega)]
    omega
  · have negative : (n % 4294967296 - 4294967296).tmod 30000 =
        -((4294967296 - n % 4294967296) % 30000) := by
      have rest : (4294967296 - n % 4294967296).tmod 30000 = _ :=
        Int.tmod_eq_emod_of_nonneg (by omega)
      rw [← rest, ← Int.neg_tmod, Int.neg_sub]
    rw [if_neg small, negative]
    omega

theorem position_inside_iff (key : CString) :
    (0 ≤ position key ∧ position key < HASHSIZE) ↔ HasBucket key := by
  rw [position, hashFn, time33_polynomial]
  exact tmod_inside_iff _

theorem deref_avoids (t : Table) (p : Nat) : Avoids .outside (fun _ => True) (deref t p) := by
  unfold deref
  split
  · exact avoids_ok trivial
  · exact avoids_error nofun

theorem search_loop_avoids (key : CString) (pos : Int) (rounds : Nat) (t : Table)
    (p : Option Nat) : Avoids .outside (fun _ => True) (searchLoop key pos rounds t p) := by
  induction rounds generalizing p with
  | zero => exact avoids_error nofun
  | succ rounds ih =>
    cases p with
    | none => exact avoids_ok trivial
    | some pHashNode =>
      apply avoids_bind (deref_avoids t pHashNode)
      intro node _
      split
      · exact avoids_ok trivial
      · exact ih node.pNext

theorem insert_loop_avoids (key : CString) {hashTable : Arr (Option Nat)} (rounds : Nat) {t : Table}
    (same : t.hashTable = hashTable) (p : Option Nat) :
    Avoids .outside (fun u => u.1.hashTable = hashTable) (insertLoop key rounds t p) := by
  induction rounds generalizing t p with
  | zero => exact avoids_error nofun
  | succ rounds ih =>
    cases p with
    | none => exact avoids_ok same
    | some pHashNode =>
      apply avoids_bind (deref_avoids t pHashNode)
      intro node _
      split
      · exact avoids_ok same
      · apply ih
        exact same

theorem strcpy_avoids (size : Nat) (s : CString) :
    Avoids .outside (fun _ => True) (strcpy size s) := by
  unfold strcpy
  split
  · exact avoids_ok trivial
  · exact avoids_error Fault.noConfusion

section
variable {t : Table} {pos : Int}

theorem entry_avoids (spans : Spans t.hashTable HASHSIZE) (low : 0 ≤ pos) (high : pos < HASHSIZE) :
    Avoids .outside (fun _ => True) (entry t pos) := by
  rw [entry_inside spans low high]
  exact avoids_ok trivial

theorem set_entry_avoids (spans : Spans t.hashTable HASHSIZE) (low : 0 ≤ pos)
    (high : pos < HASHSIZE) (p : Option Nat) :
    Avoids .outside (fun u => Spans u.hashTable HASHSIZE) (setEntry t pos p) := by
  rw [set_entry_inside spans low high]
  exact avoids_ok (put_spans spans pos p)

theorem skip_avoids (spans : Spans t.hashTable HASHSIZE) (low : 0 ≤ pos) (high : pos < HASHSIZE)
    (pLast pNext : Option Nat) :
    Avoids .outside (fun u => Spans u.hashTable HASHSIZE) (skip t pos pLast pNext) := by
  cases pLast with
  | none => exact set_entry_avoids spans low high pNext
  | some pLast =>
    apply avoids_bind (deref_avoids t pLast)
    intro last _
    exact avoids_ok spans

theorem delete_loop_avoids (key : CString) (rounds : Nat) (pLast p : Option Nat)
    (spans : Spans t.hashTable HASHSIZE) (low : 0 ≤ pos) (high : pos < HASHSIZE) :
    Avoids .outside (fun u => Spans u.hashTable HASHSIZE) (deleteLoop key pos rounds t pLast p) := by
  induction rounds generalizing t pLast p with
  | zero => exact avoids_error nofun
  | succ rounds ih =>
    cases p with
    | none => exact avoids_ok spans
    | some pHashNode =>
      apply avoids_bind (deref_avoids t pHashNode)
      intro node _
      have removed : Avoids .outside (fun u => Spans u.hashTable HASHSIZE)
          (if node.key = key then
            (skip t pos pLast node.pNext).bind fun t => .ok (setNode t pHashNode none)
          else .ok t) := by
        split
        · apply avoids_bind (skip_avoids spans low high pLast node.pNext)
          intro u kept
          exact avoids_ok kept
        · exact avoids_ok spans
      apply avoids_bind removed
      intro u kept
      apply avoids_bind (deref_avoids u pHashNode)
      intro node _
      exact ih _ _ kept

end

theorem accesses_inside {key : CString} (low : 0 ≤ position key) (high : position key < HASHSIZE) :
    AccessesInside key := by
  intro t spans room rounds address value
  have there := entry_avoids spans low high
  refine ⟨?_, ?_, ?_⟩
  · apply @Avoids.fault _ _ _ fun u => Spans u.hashTable HASHSIZE
    rw [hashInsert]
    apply avoids_bind there
    intro p _
    apply avoids_bind (insert_loop_avoids key rounds rfl p)
    rintro ⟨u, existed⟩ same
    have kept : Spans u.hashTable HASHSIZE := by
      dsimp only at same
      rw [same]
      exact spans
    cases existed with
    | true => exact avoids_ok kept
    | false =>
      dsimp only
      rw [if_neg Bool.false_ne_true]
      apply avoids_bind (strcpy_avoids _ key)
      intro newKey _
      apply avoids_bind (strcpy_avoids _ value)
      intro newValue _
      apply avoids_bind (entry_avoids kept low high)
      intro pNext _
      apply @set_entry_avoids (setNode u address _) _ _ low high
      exact kept
  · apply @Avoids.fault _ _ _ fun u => Spans u.hashTable HASHSIZE
    rw [hashDelete]
    apply avoids_bind there
    intro p _
    exact delete_loop_avoids key rounds none p spans low high
  · apply @Avoids.fault _ _ _ fun _ => True
    rw [hashSearch]
    apply avoids_bind there
    intro p _
    exact search_loop_avoids key _ rounds t p

/-- hashFn yields a bucket, and the accesses with it are in bounds, for exactly these keys. -/
theorem bucket_valid_iff (key : CString) :
    ((0 ≤ position key ∧ position key < HASHSIZE) ↔ HasBucket key) ∧
      (AccessesInside key ↔ HasBucket key) := by
  refine ⟨position_inside_iff key, ?_⟩
  rw [← position_inside_iff]
  constructor
  · intro inside
    by_contra apart
    have spans : Spans (filled HASHSIZE (none : Option Nat)) HASHSIZE := filled_spans _ _
    apply (inside ⟨filled HASHSIZE none, 0, fun _ => none⟩ spans id 0 0 key).2.2
    rw [hashSearch, entry_outside spans apart]
    rfl
  · intro inside
    exact accesses_inside inside.1 inside.2

/-- The key with the one byte 255: its char is -1, and so is the index. -/
theorem last_byte_no_bucket :
    ¬ ∀ key : CString, (0 ≤ position key ∧ position key < HASHSIZE) ∧ AccessesInside key := by
  intro claim
  have inside := (claim ⟨[255], by decide⟩).1.1
  exact absurd inside (by decide)

end UC.HashChains
