import UC.HashShm.FiniteMap

/- The string overloads of CHashShm. A string is only ever seen through hash_time33; strings
   with different hashes, of which that of the string read is not the empty marker, do not
   meet. -/
namespace UC.HashShm

/-- *p as a number: char is signed. -/
def charValue (ch : UInt8) : UInt64 := ch.toInt8.toInt64.toUInt64

/-- for(; *p; p++) hash = hash * 33 + *p; none when it runs past the object. -/
def time33String : List UInt8 → UInt64 → Option UInt64
  | [], _ => none
  | ch :: p, hash => if ch = 0 then some hash else time33String p (hash * 33 + charValue ch)

def TIME33_HASH_MIXED_CH (hash : UInt64) (ch : UInt8) : UInt64 :=
  ((hash <<< 5) + hash) + charValue ch

/-- The loop over eight bytes at a time. -/
def time33Eights : List UInt8 → Nat → UInt64 → Option (List UInt8 × Nat × UInt64)
  | c1 :: c2 :: c3 :: c4 :: c5 :: c6 :: c7 :: c8 :: p, len, hash =>
    if len ≥ 8 then
      time33Eights p (len - 8)
        ([c1, c2, c3, c4, c5, c6, c7, c8].foldl TIME33_HASH_MIXED_CH hash)
    else some (c1 :: c2 :: c3 :: c4 :: c5 :: c6 :: c7 :: c8 :: p, len, hash)
  | p, len, hash => if len ≥ 8 then none else some (p, len, hash)

/-- The switch, where each case falls through to the next smaller one. -/
def time33Switch : Nat → List UInt8 → UInt64 → Option UInt64
  | 0, _, hash => some hash
  | _ + 1, [], _ => none
  | len + 1, ch :: p, hash => time33Switch len p (TIME33_HASH_MIXED_CH hash ch)

/-- str is what lies from the pointer to the end of its object. -/
def hash_time33 (str : List UInt8) (len : Int) : Option UInt64 :=
  if len < 0 then time33String str 5381
  else (time33Eights str len.toNat 5381).bind fun (p, len, hash) => time33Switch len p hash

/-- What the hash of a byte string is, by either loop. -/
def time33 (bytes : List UInt8) : UInt64 := bytes.foldl TIME33_HASH_MIXED_CH 5381

inductive StringKey where
  | chars (skey : List UInt8) (len : Int)
  | string (strkey : List UInt8)

/-- data() has a zero behind the bytes; size() is cut to an int. -/
def StringKey.ulHashKey : StringKey → Option UInt64
  | .chars skey len => hash_time33 skey len
  | .string strkey => hash_time33 (strkey ++ [0]) (Int.bmod strkey.length (2 ^ 32))

theorem mixed_ch_eq (hash : UInt64) (ch : UInt8) :
    TIME33_HASH_MIXED_CH hash ch = hash * 33 + charValue ch := by
  have times : (hash <<< 5) + hash = hash * 33 := by
    apply UInt64.toNat_inj.mp
    simp [Nat.shiftLeft_eq]
    omega
  rw [TIME33_HASH_MIXED_CH, times]

theorem time33_string_eq (bytes rest : List UInt8) (clean : ∀ ch ∈ bytes, ch ≠ 0)
    (hash : UInt64) :
    time33String (bytes ++ 0 :: rest) hash = some (bytes.foldl TIME33_HASH_MIXED_CH hash) := by
  induction bytes generalizing hash with
  | nil => rfl
  | cons ch bytes ih =>
    have here : ch ≠ 0 := clean ch (by simp)
    simp only [List.cons_append, time33String, here, if_false, List.foldl_cons, mixed_ch_eq]
    exact ih (fun other inside => clean other (by simp [inside])) _

theorem time33_switch_eq (str : List UInt8) (len : Nat) (hash : UInt64)
    (room : len ≤ str.length) :
    time33Switch len str hash = some ((str.take len).foldl TIME33_HASH_MIXED_CH hash) := by
  induction str generalizing len hash with
  | nil =>
    have zero : len = 0 := by simpa using room
    rw [zero]
    rfl
  | cons ch p ih =>
    cases len with
    | zero => rfl
    | succ len => exact ih len _ (by simpa using room)

/-- The unrolled loop and the switch behind it. -/
theorem time33_eights_eq (str : List UInt8) (len : Nat) (hash : UInt64)
    (room : len ≤ str.length) :
    ((time33Eights str len hash).bind fun (p, len, hash) => time33Switch len p hash) =
      some ((str.take len).foldl TIME33_HASH_MIXED_CH hash) := by
  induction str, len, hash using time33Eights.induct with
  | case1 c1 c2 c3 c4 c5 c6 c7 c8 p len hash many ih =>
    have inside : len - 8 ≤ p.length := by
      simp only [List.length_cons] at room
      omega
    have front : (c1 :: c2 :: c3 :: c4 :: c5 :: c6 :: c7 :: c8 :: p).take len =
        [c1, c2, c3, c4, c5, c6, c7, c8] ++ p.take (len - 8) := by
      obtain ⟨more, rfl⟩ := Nat.exists_eq_add_of_le' many
      rfl
    simp only [time33Eights, many, if_true]
    rw [ih inside, front, List.foldl_append]
  | case2 c1 c2 c3 c4 c5 c6 c7 c8 p len hash few =>
    simp only [time33Eights, few, if_false, Option.bind_some]
    exact time33_switch_eq _ len hash room
  | case3 str len hash short many =>
    exfalso
    match str, short with
    | c1 :: c2 :: c3 :: c4 :: c5 :: c6 :: c7 :: c8 :: p, short =>
      exact short _ _ _ _ _ _ _ _ _ rfl
    | [], _ | [_], _ | [_, _], _ | [_, _, _], _ | [_, _, _, _], _ | [_, _, _, _, _], _
    | [_, _, _, _, _, _], _ | [_, _, _, _, _, _, _], _ =>
      simp only [List.length_cons, List.length_nil] at room
      omega
  | case4 str len hash short few =>
    rw [time33Eights]
    · simp only [few, if_false, Option.bind_some]
      exact time33_switch_eq _ len hash room
    · exact short

theorem hash_time33_bytes (str : List UInt8) (len : Nat) (room : len ≤ str.length) :
    hash_time33 str len = some (time33 (str.take len)) := by
  have forward : ¬ (len : Int) < 0 := by omega
  simp only [hash_time33, forward, if_false, Int.toNat_natCast]
  exact time33_eights_eq str len 5381 room

theorem hash_time33_c_string (bytes rest : List UInt8) (clean : ∀ ch ∈ bytes, ch ≠ 0) (len : Int)
    (default : len < 0) : hash_time33 (bytes ++ 0 :: rest) len = some (time33 bytes) := by
  simp only [hash_time33, default, if_true]
  exact time33_string_eq bytes rest clean 5381

/-- Both loops are the left fold of 33 * hash + *p. strlen is converted to an int. -/
theorem hash_loops_agree (bytes rest : List UInt8) (clean : ∀ ch ∈ bytes, ch ≠ 0)
    (short : bytes.length < 2147483648) :
    hash_time33 (bytes ++ 0 :: rest) (Int.bmod bytes.length 4294967296) =
        hash_time33 (bytes ++ 0 :: rest) (-1) ∧
      hash_time33 (bytes ++ 0 :: rest) (-1) =
        some (bytes.foldl (fun hash ch => 33 * hash + charValue ch) 5381) := by
  have length : Int.bmod bytes.length 4294967296 = bytes.length := by
    apply Int.bmod_eq_of_le
    · omega
    · omega
  have unrolled := hash_time33_bytes (bytes ++ 0 :: rest) bytes.length (by simp)
  rw [List.take_left] at unrolled
  have plain := hash_time33_c_string bytes rest clean (-1) (by decide)
  have fold : time33 bytes = bytes.foldl (fun hash ch => 33 * hash + charValue ch) 5381 := by
    have step : TIME33_HASH_MIXED_CH = fun hash ch => 33 * hash + charValue ch := by
      funext hash ch
      rw [mixed_ch_eq, UInt64.mul_comm]
    rw [time33, step]
  rw [length, unrolled, plain, fold]
  exact ⟨rfl, rfl⟩

/-- Nine bytes: once around the unrolled loop, and one case of the switch. -/
theorem nine_bytes_agree :
    hash_time33 ([99, 111, 108, 97, 108, 105, 97, 110, 255] ++ 0 :: [])
          (Int.bmod [99, 111, 108, 97, 108, 105, 97, 110, 255].length 4294967296) =
        hash_time33 ([99, 111, 108, 97, 108, 105, 97, 110, 255] ++ 0 :: []) (-1) ∧
      hash_time33 ([99, 111, 108, 97, 108, 105, 97, 110, 255] ++ 0 :: []) (-1) =
        some ([99, 111, 108, 97, 108, 105, 97, 110, 255].foldl
          (fun hash ch => 33 * hash + charValue ch) 5381) :=
  hash_loops_agree [99, 111, 108, 97, 108, 105, 97, 110, 255] [] (by simp) (by decide)

end UC.HashShm

namespace UC.CHashShm
open UC.Memory UC.HashShm

variable {V : Type} {lines : Nat}

inductive StringOp (V : Type) where
  | set (skey : StringKey) (value : V)
  | replace (skey : StringKey) (value : V)
  | remove (skey : StringKey)

def StringOp.skey : StringOp V → StringKey
  | .set skey _ | .replace skey _ | .remove skey => skey

/-- Set, Replace and Remove of a string. -/
def execString (t : CHashShm V lines) (op : StringOp V) : Option (CHashShm V lines × Code) :=
  op.skey.ulHashKey.map fun ulHashKey =>
    match op with
    | .set _ value => t.set ulHashKey value
    | .replace _ value => t.replace ulHashKey value
    | .remove _ => t.remove ulHashKey

def getString (t : CHashShm V lines) (skey : StringKey) (value : V) :
    Option (CHashShm V lines × Code × V) :=
  skey.ulHashKey.map fun ulHashKey => t.get ulHashKey value

/-- The call does not change what Get of the string answers, its code and its value. -/
def Independent (t : CHashShm V lines) (op : StringOp V) (skey : StringKey) : Prop :=
  ∀ after code value, t.execString op = some (after, code) →
    (after.getString skey value).map Prod.snd = (t.getString skey value).map Prod.snd

/-- A lookup of the key reads the same in both tables. -/
structure SameFor (key : UInt64) (t t' : CHashShm V lines) : Prop where
  size : t'.maxSize = t.maxSize
  keys : ∀ p, t'.keyAt p = key ↔ t.keyAt p = key
  nodes : ∀ p, t.keyAt p = key → t'.shm.nodes p = t.shm.nodes p

section Same
variable {t t' : CHashShm V lines} {key : UInt64}

theorem same_refl (t : CHashShm V lines) : SameFor key t t :=
  ⟨rfl, fun _ => Iff.rfl, fun _ _ => rfl⟩

theorem same_moved (t : CHashShm V lines) (p : Nat) :
    SameFor key t ({ t with lastFound := p } : CHashShm V lines) :=
  ⟨rfl, fun _ => Iff.rfl, fun _ _ => rfl⟩

theorem same_trans {t'' : CHashShm V lines} (first : SameFor key t t')
    (last : SameFor key t' t'') : SameFor key t t'' := by
  refine ⟨last.size.trans first.size, fun p => (last.keys p).trans (first.keys p), ?_⟩
  intro p holds
  exact (last.nodes p ((first.keys p).mpr holds)).trans (first.nodes p holds)

theorem same_write (t : CHashShm V lines) {pH : Nat} {node : HashNode V} (size : UInt64)
    (before : t.keyAt pH ≠ key) (after : node.key ≠ key) :
    SameFor key t (t.writeNode pH node size) := by
  refine ⟨rfl, ?_, ?_⟩
  · intro p
    rw [write_key_at]
    split
    · rename_i here
      rw [here]
      exact ⟨fun holds => absurd holds after, fun holds => absurd holds before⟩
    · exact Iff.rfl
  · intro p holds
    rw [write_node_at]
    split
    · rename_i here
      rw [here] at holds
      exact absurd holds before
    · rfl

theorem find_rows_same (same : SameFor key t t') (is : List Nat) :
    t'.findRows key is = t.findRows key is := by
  induction is with
  | nil => rfl
  | cons i is ih =>
    have position : t'.getPos i (hash lines key i) = t.getPos i (hash lines key i) := by
      simp only [getPos, same.size]
    simp only [findRows, position, ih]
    cases t.getPos i (hash lines key i) with
    | none => rfl
    | some pH => exact if_congr (same.keys pH) rfl rfl

theorem find_rows_holds {is : List Nat} {p : Nat} (found : t.findRows key is = some p) :
    t.keyAt p = key := by
  induction is with
  | nil => cases found
  | cons i is ih =>
    simp only [findRows] at found
    split at found
    · cases found
    · split at found
      · rename_i holds
        exact Option.some.inj found ▸ holds
      · exact ih found

/-- find moves lastFound to a node with the key, or answers NOTFOUND. -/
theorem find_outcome (t : CHashShm V lines) (key : UInt64) :
    (∃ p, t.keyAt p = key ∧ t.findRows key (List.range lines) = some p ∧
      t.find key = ({ t with lastFound := p }, .OK)) ∨
    (t.findRows key (List.range lines) = none ∧ t.find key = (t, .NOTFOUND)) := by
  cases found : t.findRows key (List.range lines) with
  | none => exact .inr ⟨rfl, by simp only [find, found]⟩
  | some p => exact .inl ⟨p, find_rows_holds found, rfl, by simp only [find, found]⟩

theorem get_same (same : SameFor key t t') (value : V) :
    (t'.get key value).2 = (t.get key value).2 := by
  have rows := find_rows_same same (List.range lines)
  rcases find_outcome t key with ⟨p, holds, found, answer⟩ | ⟨found, answer⟩
  · simp only [get, find, rows, found, same.nodes p holds]
  · simp only [get, find, rows, found]

variable {other : UInt64}

theorem insert_rows_same (t : CHashShm V lines) (differ : other ≠ key) (marked : key ≠ 0)
    (value : V) (is : List Nat) : SameFor key t (t.insertRows other value is).1 := by
  induction is with
  | nil => exact same_refl t
  | cons i is ih =>
    simp only [insertRows]
    split
    · exact same_refl t
    · split
      · rename_i pH _ free
        apply same_write t
        · change (t.shm.nodes pH).key ≠ key
          rw [free]
          exact marked.symm
        · exact differ
      · exact ih

theorem set_same (t : CHashShm V lines) (differ : other ≠ key) (marked : key ≠ 0) (value : V) :
    SameFor key t (t.set other value).1 := by
  rcases find_outcome t other with ⟨p, _, _, answer⟩ | ⟨_, answer⟩
  · simp only [set, answer]
    exact same_moved t p
  · simp only [set, answer]
    exact insert_rows_same t differ marked value _

theorem replace_same (t : CHashShm V lines) (differ : other ≠ key) (marked : key ≠ 0)
    (value : V) : SameFor key t (t.replace other value).1 := by
  rcases find_outcome t other with ⟨p, holds, _, answer⟩ | ⟨_, answer⟩
  · simp only [replace, answer]
    apply same_trans (same_moved t p)
    apply same_write
    · change t.keyAt p ≠ key
      rw [holds]
      exact differ
    · change t.keyAt p ≠ key
      rw [holds]
      exact differ
  · simp only [replace, answer]
    exact insert_rows_same t differ marked value _

theorem remove_same (t : CHashShm V lines) (differ : other ≠ key) (marked : key ≠ 0) :
    SameFor key t (t.remove other).1 := by
  rcases find_outcome t other with ⟨p, holds, _, answer⟩ | ⟨_, answer⟩
  · simp only [remove, answer]
    apply same_trans (same_moved t p)
    apply same_write
    · change t.keyAt p ≠ key
      rw [holds]
      exact differ
    · exact marked.symm
  · simp only [remove, answer]
    exact same_refl t

end Same

/-- In every table, reachable or not. -/
theorem other_hashes_independent (t : CHashShm V lines) (op : StringOp V) (skey : StringKey)
    (differ : op.skey.ulHashKey ≠ skey.ulHashKey) (marked : skey.ulHashKey ≠ some 0) :
    Independent t op skey := by
  intro after code value ran
  cases read : skey.ulHashKey with
  | none => simp [getString, read]
  | some key =>
    obtain ⟨other, written, call⟩ := Option.map_eq_some_iff.mp ran
    have apart : other ≠ key := by
      rintro rfl
      exact differ (written.trans read.symm)
    have nonzero : key ≠ 0 := by
      rintro rfl
      exact marked read
    have same : SameFor key t after := by
      have table := congrArg Prod.fst call
      cases op with
      | set _ stored =>
        dsimp only at table
        rw [← table]
        exact set_same t apart nonzero stored
      | replace _ stored =>
        dsimp only at table
        rw [← table]
        exact replace_same t apart nonzero stored
      | remove _ =>
        dsimp only at table
        rw [← table]
        exact remove_same t apart nonzero
    simp only [getString, read, Option.map_some, get_same same]

def emptyTable : CHashShm Nat 1 := ⟨⟨⟨0, 1⟩, fun _ => ⟨0, 0⟩⟩, 1511, 0⟩

theorem ab_ba_independent :
    init none = some emptyTable ∧
      Independent emptyTable (.set (.string [97, 98]) 7) (.chars [98, 97, 0] (-1)) :=
  ⟨rfl, other_hashes_independent emptyTable _ _ (by decide) (by decide)⟩

/-- aB and b! have one hash; $H takes the node at which a string with hash 0 is found. -/
theorem equal_hashes_meet :
    init none = some emptyTable ∧
      ¬ Independent emptyTable (.set (.string [97, 66]) 7) (.string [98, 33]) ∧
      ¬ Independent emptyTable (.set (.string [36, 72]) 7)
        (.string [69, 84, 81, 94, 96, 94, 74, 80, 90, 86, 73, 75, 87]) ∧
      hash_time33 [36, 72] 2 ≠
        hash_time33 [69, 84, 81, 94, 96, 94, 74, 80, 90, 86, 73, 75, 87] 13 := by
  refine ⟨rfl, ?_, ?_, by decide⟩
  · intro independent
    have same := independent _ _ 0 rfl
    revert same
    decide
  · intro independent
    have same := independent _ _ 0 rfl
    revert same
    decide

end UC.CHashShm
