import Mathlib.Algebra.GroupWithZero.Nat
import UC.HashShm.Model

/- The table as a finite map on non-zero keys. A key is only ever stored in one of its
   candidate nodes, and in one of them at most, so find and the map agree. -/
namespace UC.CHashShm
open UC.Memory UC.HashShm

variable {V : Type} {lines : Nat}

def candidate (lines : Nat) (key : UInt64) (i : Nat) : Nat :=
  PRIMER_TABLE_TATAL i + hash lines key i

def keyAt (t : CHashShm V lines) (p : Nat) : UInt64 := (t.shm.nodes p).key

inductive Op (V : Type) where
  | set (key : UInt64) (value : V)
  | replace (key : UInt64) (value : V)
  | remove (key : UInt64)
  | get (key : UInt64) (value : V)
  | clear

def Op.NonZero : Op V → Prop
  | .set key _ | .replace key _ | .remove key | .get key _ => key ≠ 0
  | .clear => True

def exec [Zero V] (t : CHashShm V lines) : Op V → CHashShm V lines × Code
  | .set key value => t.set key value
  | .replace key value => t.replace key value
  | .remove key => t.remove key
  | .get key value => ((t.get key value).1, (t.get key value).2.1)
  | .clear => (t.clear, .OK)

/-- Calls with their return codes, the latest first. -/
abbrev History (V : Type) := List (Op V × Code)

def execAll [Zero V] (t : CHashShm V lines) : List (Op V) → CHashShm V lines × History V
  | [] => (t, [])
  | op :: ops =>
    let (t, history) := execAll t ops
    let (t, code) := t.exec op
    (t, (op, code) :: history)

/-- The value of the last successful Set or Replace of a key that no Remove of the key
    and no Clear follows. -/
def lastValue (key : UInt64) : History V → Option V
  | [] => none
  | (.set k v, .OK) :: history | (.replace k v, .OK) :: history =>
    if k = key then some v else lastValue key history
  | (.remove k, _) :: history => if k = key then none else lastValue key history
  | (.clear, _) :: _ => none
  | _ :: history => lastValue key history

structure Inv (t : CHashShm V lines) (map : UInt64 → Option V) : Prop where
  rows : lines ≤ PRIMER_TABLE_LEN
  size : t.maxSize = PRIMER_TABLE_TATAL lines
  placed : ∀ p < t.maxSize, t.keyAt p ≠ 0 → ∃ i < lines, p = candidate lines (t.keyAt p) i
  unique : ∀ p < t.maxSize, ∀ q < t.maxSize, t.keyAt p ≠ 0 → t.keyAt p = t.keyAt q → p = q
  agrees : ∀ key, key ≠ 0 → ∀ v, map key = some v ↔
    ∃ i < lines, t.keyAt (candidate lines key i) = key ∧
      (t.shm.nodes (candidate lines key i)).value = v

theorem primer_positive : ∀ i < PRIMER_TABLE_LEN, 0 < primer i := by decide

theorem total_mono {i j : Nat} (h : i ≤ j) : PRIMER_TABLE_TATAL i ≤ PRIMER_TABLE_TATAL j := by
  induction h with
  | refl => exact Nat.le_refl _
  | step _ ih => exact Nat.le_trans ih (Nat.le_add_right _ _)

/-- Candidates lie inside the segment, so getPos never answers NULL on them. -/
theorem candidate_lt {i : Nat} (rows : lines ≤ PRIMER_TABLE_LEN) (hi : i < lines)
    (key : UInt64) : candidate lines key i < PRIMER_TABLE_TATAL lines := by
  have column : hash lines key i < primer i :=
    Nat.mod_lt _ (primer_positive i (by omega))
  have next : PRIMER_TABLE_TATAL (i + 1) ≤ PRIMER_TABLE_TATAL lines := total_mono hi
  simp only [PRIMER_TABLE_TATAL] at next
  rw [candidate]
  omega

section Loops
variable {t : CHashShm V lines} (rows : lines ≤ PRIMER_TABLE_LEN)
  (size : t.maxSize = PRIMER_TABLE_TATAL lines)
include rows size

theorem get_pos_candidate {i : Nat} (hi : i < lines) (key : UInt64) :
    t.getPos i (hash lines key i) = some (candidate lines key i) := by
  have inside := candidate_lt rows hi key
  rw [candidate] at inside
  simp only [getPos, candidate, size]
  rw [if_neg (by omega)]

theorem find_rows_cases (key : UInt64) (is : List Nat) (bound : ∀ i ∈ is, i < lines) :
    (∃ i ∈ is, t.keyAt (candidate lines key i) = key ∧
      t.findRows key is = some (candidate lines key i)) ∨
    ((∀ i ∈ is, t.keyAt (candidate lines key i) ≠ key) ∧ t.findRows key is = none) := by
  induction is with
  | nil => exact .inr ⟨by simp, rfl⟩
  | cons i is ih =>
    have head := get_pos_candidate rows size (bound i (by simp)) key
    simp only [findRows, head]
    by_cases hit : (t.shm.nodes (candidate lines key i)).key = key
    · exact .inl ⟨i, by simp, hit, by rw [if_pos hit]⟩
    · rw [if_neg hit]
      rcases ih (fun j hj => bound j (by simp [hj])) with ⟨j, hj, same, found⟩ | ⟨all, found⟩
      · exact .inl ⟨j, by simp [hj], same, found⟩
      · refine .inr ⟨?_, found⟩
        intro j hj
        rcases List.mem_cons.mp hj with rfl | hj
        · exact hit
        · exact all j hj

theorem find_cases (key : UInt64) :
    (∃ i < lines, t.keyAt (candidate lines key i) = key ∧
      t.find key = ({ t with lastFound := candidate lines key i }, .OK)) ∨
    ((∀ i < lines, t.keyAt (candidate lines key i) ≠ key) ∧ t.find key = (t, .NOTFOUND)) := by
  rcases find_rows_cases rows size key (List.range lines) (fun i hi => List.mem_range.mp hi) with
    ⟨i, hi, same, found⟩ | ⟨all, found⟩
  · exact .inl ⟨i, List.mem_range.mp hi, same, by rw [find, found]⟩
  · exact .inr ⟨fun i hi => all i (List.mem_range.mpr hi), by rw [find, found]⟩

theorem insert_rows_cases (key : UInt64) (value : V) (is : List Nat)
    (bound : ∀ i ∈ is, i < lines) :
    (∃ i ∈ is, t.keyAt (candidate lines key i) = 0 ∧
      t.insertRows key value is =
        (t.writeNode (candidate lines key i) ⟨key, value⟩ (t.shm.head.currentSize + 1), .OK)) ∨
    ((∀ i ∈ is, t.keyAt (candidate lines key i) ≠ 0) ∧
      t.insertRows key value is = (t, .ERROR)) := by
  induction is with
  | nil => exact .inr ⟨by simp, rfl⟩
  | cons i is ih =>
    have head := get_pos_candidate rows size (bound i (by simp)) key
    simp only [insertRows, head]
    by_cases empty : (t.shm.nodes (candidate lines key i)).key = 0
    · exact .inl ⟨i, by simp, empty, by rw [if_pos empty]⟩
    · rw [if_neg empty]
      rcases ih (fun j hj => bound j (by simp [hj])) with ⟨j, hj, free, done⟩ | ⟨all, done⟩
      · exact .inl ⟨j, by simp [hj], free, done⟩
      · refine .inr ⟨?_, done⟩
        intro j hj
        rcases List.mem_cons.mp hj with rfl | hj
        · exact empty
        · exact all j hj

theorem insert_cases (key : UInt64) (value : V) :
    (∃ i < lines, t.keyAt (candidate lines key i) = 0 ∧
      t.insertRows key value (List.range lines) =
        (t.writeNode (candidate lines key i) ⟨key, value⟩ (t.shm.head.currentSize + 1), .OK)) ∨
    ((∀ i < lines, t.keyAt (candidate lines key i) ≠ 0) ∧
      t.insertRows key value (List.range lines) = (t, .ERROR)) := by
  rcases insert_rows_cases rows size key value (List.range lines)
    (fun i hi => List.mem_range.mp hi) with ⟨i, hi, free, done⟩ | ⟨all, done⟩
  · exact .inl ⟨i, List.mem_range.mp hi, free, done⟩
  · exact .inr ⟨fun i hi => all i (List.mem_range.mpr hi), done⟩

end Loops

theorem write_node_at (t : CHashShm V lines) (pH : Nat) (node : HashNode V) (size : UInt64)
    (p : Nat) : (t.writeNode pH node size).shm.nodes p = if p = pH then node else t.shm.nodes p :=
  rfl

theorem write_key_at (t : CHashShm V lines) (pH : Nat) (node : HashNode V) (size : UInt64)
    (p : Nat) : (t.writeNode pH node size).keyAt p = if p = pH then node.key else t.keyAt p := by
  simp only [keyAt, write_node_at]
  split <;> rfl

section Steps
variable {t : CHashShm V lines} {map : UInt64 → Option V}

theorem absent_iff (inv : Inv t map) {key : UInt64} (ne : key ≠ 0) :
    map key = none ↔ ∀ i < lines, t.keyAt (candidate lines key i) ≠ key := by
  constructor
  · intro absent i hi same
    have present := (inv.agrees key ne _).mpr ⟨i, hi, same, rfl⟩
    rw [absent] at present
    cases present
  · intro all
    cases value : map key with
    | none => rfl
    | some v =>
      obtain ⟨i, hi, same, _⟩ := (inv.agrees key ne v).mp value
      exact absurd same (all i hi)

theorem absent_everywhere (inv : Inv t map) {key : UInt64} (ne : key ≠ 0)
    (absent : ∀ i < lines, t.keyAt (candidate lines key i) ≠ key) :
    ∀ p < t.maxSize, t.keyAt p ≠ key := by
  rintro p hp rfl
  obtain ⟨i, hi, same⟩ := inv.placed p hp ne
  exact absent i hi (congrArg t.keyAt same.symm)

theorem one_holder (inv : Inv t map) {key : UInt64} (ne : key ≠ 0) {i j : Nat} (hi : i < lines)
    (hj : j < lines) (at_i : t.keyAt (candidate lines key i) = key)
    (at_j : t.keyAt (candidate lines key j) = key) :
    candidate lines key i = candidate lines key j := by
  have inside : ∀ i < lines, candidate lines key i < t.maxSize := by
    intro i hi
    rw [inv.size]
    exact candidate_lt inv.rows hi key
  apply inv.unique _ (inside i hi) _ (inside j hj)
  · rw [at_i]
    exact ne
  · exact at_i.trans at_j.symm

theorem holders_apart {p q : Nat} {key k : UInt64} (differ : k ≠ key) (at_p : t.keyAt p = key)
    (at_q : t.keyAt q = k) : q ≠ p := by
  rintro rfl
  exact differ (at_q.symm.trans at_p)

theorem inv_moved (inv : Inv t map) (p : Nat) :
    Inv ({ t with lastFound := p } : CHashShm V lines) map :=
  ⟨inv.rows, inv.size, inv.placed, inv.unique, inv.agrees⟩

theorem inv_insert (inv : Inv t map) {key : UInt64} {value : V} {size : UInt64} (ne : key ≠ 0)
    (absent : ∀ i < lines, t.keyAt (candidate lines key i) ≠ key) {row : Nat} (hr : row < lines)
    (free : t.keyAt (candidate lines key row) = 0) :
    Inv (t.writeNode (candidate lines key row) ⟨key, value⟩ size)
      (fun k => if k = key then some value else map k) := by
  have nowhere := absent_everywhere inv ne absent
  refine ⟨inv.rows, inv.size, ?_, ?_, ?_⟩
  · intro p hp
    rw [write_key_at]
    split
    · rename_i here
      intro _
      exact ⟨row, hr, here⟩
    · exact inv.placed p hp
  · intro p hp q hq
    rw [write_key_at, write_key_at]
    split <;> split
    · rename_i hp' hq'
      exact fun _ _ => hp'.trans hq'.symm
    · exact fun _ same => absurd same.symm (nowhere q hq)
    · exact fun _ same => absurd same (nowhere p hp)
    · exact inv.unique p hp q hq
  · intro k hk v
    by_cases same : k = key
    · subst same
      simp only [if_true, Option.some.injEq, write_key_at, write_node_at]
      constructor
      · intro eq
        exact ⟨row, hr, by rw [if_pos rfl], by rw [if_pos rfl]; exact eq⟩
      · rintro ⟨i, hi, holds, stored⟩
        split at holds
        · rename_i here
          rwa [if_pos here] at stored
        · exact absurd holds (absent i hi)
    · simp only [if_neg same, inv.agrees k hk, write_key_at, write_node_at]
      constructor
      · rintro ⟨i, hi, holds, stored⟩
        have elsewhere := holders_apart hk free holds
        exact ⟨i, hi, by rw [if_neg elsewhere]; exact holds, by rw [if_neg elsewhere]; exact stored⟩
      · rintro ⟨i, hi, holds, stored⟩
        split at holds
        · exact absurd holds.symm same
        · rename_i elsewhere
          rw [if_neg elsewhere] at stored
          exact ⟨i, hi, holds, stored⟩

theorem inv_overwrite (inv : Inv t map) {key : UInt64} {value : V} {size : UInt64} (ne : key ≠ 0)
    {row : Nat} (hr : row < lines) (holds : t.keyAt (candidate lines key row) = key) :
    Inv (t.writeNode (candidate lines key row)
        { t.shm.nodes (candidate lines key row) with value := value } size)
      (fun k => if k = key then some value else map k) := by
  have keys : ∀ p, (t.writeNode (candidate lines key row)
      { t.shm.nodes (candidate lines key row) with value := value } size).keyAt p =
        t.keyAt p := by
    intro p
    rw [write_key_at]
    split
    · rename_i here
      rw [here]
      rfl
    · rfl
  refine ⟨inv.rows, inv.size, ?_, ?_, ?_⟩
  · intro p hp
    rw [keys]
    exact inv.placed p hp
  · intro p hp q hq
    rw [keys, keys]
    exact inv.unique p hp q hq
  · intro k hk v
    by_cases same : k = key
    · subst same
      simp only [if_true, Option.some.injEq, keys, write_node_at]
      constructor
      · intro eq
        exact ⟨row, hr, holds, by rw [if_pos rfl]; exact eq⟩
      · rintro ⟨i, hi, at_i, stored⟩
        rwa [if_pos (one_holder inv ne hi hr at_i holds)] at stored
    · simp only [if_neg same, inv.agrees k hk, keys, write_node_at]
      constructor
      · rintro ⟨i, hi, at_i, stored⟩
        have elsewhere := holders_apart same holds at_i
        exact ⟨i, hi, at_i, by rw [if_neg elsewhere]; exact stored⟩
      · rintro ⟨i, hi, at_i, stored⟩
        rw [if_neg (holders_apart same holds at_i)] at stored
        exact ⟨i, hi, at_i, stored⟩

theorem inv_remove (inv : Inv t map) {key : UInt64} {size : UInt64} (ne : key ≠ 0)
    {row : Nat} (hr : row < lines) (holds : t.keyAt (candidate lines key row) = key) :
    Inv (t.writeNode (candidate lines key row)
        { t.shm.nodes (candidate lines key row) with key := 0 } size)
      (fun k => if k = key then none else map k) := by
  refine ⟨inv.rows, inv.size, ?_, ?_, ?_⟩
  · intro p hp
    rw [write_key_at]
    split
    · exact fun h => absurd rfl h
    · exact inv.placed p hp
  · intro p hp q hq
    rw [write_key_at, write_key_at]
    split <;> split
    · rename_i hp' hq'
      exact fun _ _ => hp'.trans hq'.symm
    · exact fun h => absurd rfl h
    · exact fun h same => absurd same h
    · exact inv.unique p hp q hq
  · intro k hk v
    simp only [write_key_at, write_node_at]
    by_cases same : k = key
    · subst same
      simp only [if_true, reduceCtorEq, false_iff, not_exists, not_and]
      intro i hi at_i
      split at at_i
      · exact absurd at_i.symm ne
      · rename_i elsewhere
        exact absurd (one_holder inv ne hi hr at_i holds) elsewhere
    · simp only [if_neg same, inv.agrees k hk]
      constructor
      · rintro ⟨i, hi, at_i, stored⟩
        have elsewhere := holders_apart same holds at_i
        exact ⟨i, hi, by rw [if_neg elsewhere]; exact at_i, by rw [if_neg elsewhere]; exact stored⟩
      · rintro ⟨i, hi, at_i, stored⟩
        split at at_i
        · exact absurd at_i.symm hk
        · rename_i elsewhere
          rw [if_neg elsewhere] at stored
          exact ⟨i, hi, at_i, stored⟩

theorem inv_clear [Zero V] (inv : Inv t map) : Inv t.clear fun _ => none := by
  refine ⟨inv.rows, inv.size, ?_, ?_, ?_⟩
  · exact fun p _ h => absurd rfl h
  · exact fun p _ q _ h => absurd rfl h
  · intro k hk v
    simp only [reduceCtorEq, false_iff, not_exists, not_and]
    intro i hi at_i
    exact absurd at_i.symm hk

/-- All candidates of the key are taken, by other keys if it is absent. -/
def Occupied (t : CHashShm V lines) (key : UInt64) : Prop :=
  ∀ i < lines, t.keyAt (candidate lines key i) ≠ 0

/-- What Set and Replace do with an absent key: fail, changing nothing, exactly when no
    candidate is free. -/
def FailsOnlyFull (t : CHashShm V lines) (key : UInt64) (r : CHashShm V lines × Code) : Prop :=
  (r.2 = .ERROR ↔ Occupied t key) ∧ (r.2 = .ERROR → r.1.shm = t.shm) ∧ (r.2 ≠ .ERROR → r.2 = .OK)

theorem set_cases (inv : Inv t map) {key : UInt64} (ne : key ≠ 0) (value : V) :
    (map key ≠ none ∧ (t.set key value).2 = .KEYEXIST ∧ (t.set key value).1.shm = t.shm ∧
      Inv (t.set key value).1 map) ∨
    (map key = none ∧ ¬ Occupied t key ∧ (t.set key value).2 = .OK ∧
      Inv (t.set key value).1 fun k => if k = key then some value else map k) ∨
    (map key = none ∧ Occupied t key ∧ t.set key value = (t, .ERROR)) := by
  rcases find_cases inv.rows inv.size key with ⟨row, hr, holds, found⟩ | ⟨absent, found⟩
  · refine .inl ⟨?_, ?_⟩
    · rw [ne_eq, absent_iff inv ne]
      exact fun all => all row hr holds
    · simp only [set, found]
      exact ⟨trivial, trivial, inv_moved inv _⟩
  · have vacant := (absent_iff inv ne).mpr absent
    rcases insert_cases inv.rows inv.size key value with ⟨row, hr, free, done⟩ | ⟨full, done⟩
    · refine .inr (.inl ⟨vacant, fun full => full row hr free, ?_⟩)
      simp only [set, found, done]
      exact ⟨trivial, inv_insert inv ne absent hr free⟩
    · exact .inr (.inr ⟨vacant, full, by simp only [set, found, done]⟩)

theorem replace_cases (inv : Inv t map) {key : UInt64} (ne : key ≠ 0) (value : V) :
    (¬ (map key = none ∧ Occupied t key) ∧ (t.replace key value).2 = .OK ∧
      Inv (t.replace key value).1 fun k => if k = key then some value else map k) ∨
    (map key = none ∧ Occupied t key ∧ t.replace key value = (t, .ERROR)) := by
  rcases find_cases inv.rows inv.size key with ⟨row, hr, holds, found⟩ | ⟨absent, found⟩
  · refine .inl ⟨?_, ?_⟩
    · rw [absent_iff inv ne]
      exact fun h => h.1 row hr holds
    · simp only [replace, found]
      exact ⟨trivial, inv_overwrite (inv_moved inv _) ne hr holds⟩
  · have vacant := (absent_iff inv ne).mpr absent
    rcases insert_cases inv.rows inv.size key value with ⟨row, hr, free, done⟩ | ⟨full, done⟩
    · refine .inl ⟨fun h => h.2 row hr free, ?_⟩
      simp only [replace, found, done]
      exact ⟨trivial, inv_insert inv ne absent hr free⟩
    · exact .inr ⟨vacant, full, by simp only [replace, found, done]⟩

theorem remove_cases (inv : Inv t map) {key : UInt64} (ne : key ≠ 0) :
    Inv (t.remove key).1 fun k => if k = key then none else map k := by
  rcases find_cases inv.rows inv.size key with ⟨row, hr, holds, found⟩ | ⟨absent, found⟩
  · simp only [remove, found]
    exact inv_remove (inv_moved inv _) ne hr holds
  · have vacant := (absent_iff inv ne).mpr absent
    have same : (fun k => if k = key then none else map k) = map := by
      funext k
      split
      · rename_i here
        rw [here, vacant]
      · rfl
    simp only [remove, found, same]
    exact inv

theorem get_cases (inv : Inv t map) {key : UInt64} (ne : key ≠ 0) (value : V) :
    (t.get key value).2 = (match map key with
      | some v => (.OK, v)
      | none => (.NOTFOUND, value)) ∧
    (t.get key value).1.shm = t.shm ∧ Inv (t.get key value).1 map := by
  rcases find_cases inv.rows inv.size key with ⟨row, hr, holds, found⟩ | ⟨absent, found⟩
  · have stored := (inv.agrees key ne _).mpr ⟨row, hr, holds, rfl⟩
    simp only [get, found, stored]
    exact ⟨trivial, trivial, inv_moved inv _⟩
  · simp only [get, found, (absent_iff inv ne).mpr absent]
    exact ⟨trivial, trivial, inv⟩

def after (map : UInt64 → Option V) : Op V → Code → UInt64 → Option V
  | .set key value, .OK | .replace key value, .OK => fun k => if k = key then some value else map k
  | .remove key, _ => fun k => if k = key then none else map k
  | .clear, _ => fun _ => none
  | _, _ => map

theorem inv_after [Zero V] (inv : Inv t map) (op : Op V) (nonzero : op.NonZero) :
    Inv (t.exec op).1 (after map op (t.exec op).2) := by
  cases op with
  | set key value =>
    rcases set_cases inv nonzero value with ⟨_, code, _, kept⟩ | ⟨_, _, code, stored⟩ | ⟨_, _, same⟩
    · simp only [exec, code, after]
      exact kept
    · simp only [exec, code, after]
      exact stored
    · simp only [exec, same, after]
      exact inv
  | replace key value =>
    rcases replace_cases inv nonzero value with ⟨_, code, stored⟩ | ⟨_, _, same⟩
    · simp only [exec, code, after]
      exact stored
    · simp only [exec, same, after]
      exact inv
  | remove key => exact remove_cases inv nonzero
  | get key value => exact (get_cases inv nonzero value).2.2
  | clear => exact inv_clear inv

theorem inv_exec [Zero V] {history : History V}
    (inv : Inv t fun key => lastValue key history) (op : Op V) (nonzero : op.NonZero) :
    Inv (t.exec op).1 fun key => lastValue key ((op, (t.exec op).2) :: history) := by
  have moved := inv_after inv op nonzero
  have same : after (fun key => lastValue key history) op (t.exec op).2 =
      fun key => lastValue key ((op, (t.exec op).2) :: history) := by
    funext k
    cases op <;> cases (t.exec _).2 <;> simp only [after, lastValue, eq_comm]
  rw [← same]
  exact moved

end Steps

variable [Zero V]

theorem inv_zeroed (rows : lines ≤ PRIMER_TABLE_LEN) {t : CHashShm V lines}
    (made : init none = some t) : Inv t fun key => lastValue key [] := by
  unfold init at made
  rw [if_neg (by omega)] at made
  cases made
  refine ⟨rows, rfl, ?_, ?_, ?_⟩
  · exact fun p _ h => absurd rfl h
  · exact fun p _ q _ h => absurd rfl h
  · intro k hk v
    simp only [lastValue, reduceCtorEq, false_iff, not_exists, not_and]
    intro i hi at_i
    exact absurd at_i.symm hk

theorem inv_exec_all {t : CHashShm V lines} (inv : Inv t fun key => lastValue key [])
    (ops : List (Op V)) (nonzero : ∀ op ∈ ops, op.NonZero) :
    Inv (t.execAll ops).1 fun key => lastValue key (t.execAll ops).2 := by
  induction ops with
  | nil => exact inv
  | cons op ops ih =>
    exact inv_exec (ih fun o h => nonzero o (by simp [h])) op (nonzero op (by simp))

theorem init_succeeds (rows : lines ≤ PRIMER_TABLE_LEN) :
    ∃ t : CHashShm V lines, init none = some t := by
  unfold init
  rw [if_neg (by omega)]
  exact ⟨_, rfl⟩

/-- After any calls on non-zero keys the table is the finite map of its own history. -/
theorem table_is_finite_map (V : Type) [Zero V] (lines : Nat) (rows : lines ≤ PRIMER_TABLE_LEN)
    (ops : List (Op V)) (nonzero : ∀ op ∈ ops, op.NonZero) :
    ∃ t₀ : CHashShm V lines, init none = some t₀ ∧
    let t := (t₀.execAll ops).1
    let map := fun key => lastValue key (t₀.execAll ops).2
    (∀ key, key ≠ 0 → ∀ old, (t.get key old).2 = match map key with
      | some v => (.OK, v)
      | none => (.NOTFOUND, old)) ∧
    (∀ key, key ≠ 0 → map key ≠ none → ∀ v,
      (t.set key v).2 = .KEYEXIST ∧ (t.set key v).1.shm = t.shm) ∧
    (∀ key, key ≠ 0 → map key = none → ∀ v,
      FailsOnlyFull t key (t.set key v) ∧ FailsOnlyFull t key (t.replace key v)) ∧
    (∀ key, key ≠ 0 → map key ≠ none → ∀ v, (t.replace key v).2 = .OK) ∧
    ∀ p < t.maxSize, ∀ q < t.maxSize, t.keyAt p ≠ 0 → t.keyAt p = t.keyAt q → p = q := by
  obtain ⟨t₀, made⟩ := init_succeeds (V := V) rows
  refine ⟨t₀, made, ?_⟩
  have inv := inv_exec_all (inv_zeroed rows made) ops nonzero
  refine ⟨fun key ne old => (get_cases inv ne old).1, ?_, ?_, ?_, inv.unique⟩
  · intro key ne present v
    rcases set_cases inv ne v with ⟨_, code, kept, _⟩ | ⟨absent, _⟩ | ⟨absent, _⟩
    · exact ⟨code, kept⟩
    · exact absurd absent present
    · exact absurd absent present
  · intro key ne absent v
    constructor
    · rcases set_cases inv ne v with ⟨present, _⟩ | ⟨_, room, code, _⟩ | ⟨_, full, same⟩
      · exact absurd absent present
      · simp [FailsOnlyFull, code, room]
      · simp [FailsOnlyFull, same, full]
    · rcases replace_cases inv ne v with ⟨room, code, _⟩ | ⟨_, full, same⟩
      · have room : ¬ Occupied _ key := fun full => room ⟨absent, full⟩
        simp [FailsOnlyFull, code, room]
      · simp [FailsOnlyFull, same, full]
  · intro key ne present v
    rcases replace_cases inv ne v with ⟨_, code, _⟩ | ⟨absent, _⟩
    · exact code
    · exact absurd absent present

theorem two_rows_after_set_and_remove :
    ∃ t₀ : CHashShm Nat 2, init none = some t₀ ∧
      ((t₀.execAll [.remove 7, .set 8 5, .set 7 4]).1.get 8 0).2 = (.OK, 5) := by
  obtain ⟨t₀, made, got, _⟩ := table_is_finite_map Nat 2 (by decide)
    [.remove 7, .set 8 5, .set 7 4] (by simp [Op.NonZero])
  refine ⟨t₀, made, ?_⟩
  cases made
  exact (got 8 (by decide) 0).trans (by decide)

end UC.CHashShm
