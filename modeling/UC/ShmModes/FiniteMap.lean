import Mathlib.Data.Set.Card
import UC.Lib.Candidates
import UC.ShmModes.Largest
import UC.ShmModes.Table

/- hash_shm as a finite map on non-zero keys, over every run of calls with any keys and of
   further processes on the segment. A call with key 0 meets the empty nodes: insert never
   stores such a key, and remove counts an empty node as removed. -/
namespace UC.ShmModes
open UC.Memory UC.Candidates

section Modes
variable {maxLine lines : Nat}

/-- What every entry of modTable adds to keeps. -/
structure Modes (lines : Nat) (modTable : List Nat) : Prop where
  short : modTable.length ≤ lines
  positive : ∀ mode ∈ modTable, 0 < mode

theorem record_keeps {flag full : Bool} {value : Nat} {modTable next : List Nat}
    (modes : Modes lines modTable) (positive : flag = true → 0 < value)
    (run : record lines flag value modTable = some (next, full)) :
    Modes lines next ∧ (full = true → next.length = lines) := by
  rw [record] at run
  split at run
  · rename_i flagged
    split at run
    · rename_i room
      cases run
      have longer : (modTable ++ [value]).length = modTable.length + 1 := by simp
      refine ⟨⟨by omega, ?_⟩, ?_⟩
      · intro mode member
        rcases List.mem_append.mp member with old | new
        · exact modes.positive mode old
        · rw [List.mem_singleton.mp new]
          exact positive flagged
      · intro ended
        have enough := of_decide_eq_true ended
        omega
    · cases run
  · cases run
    refine ⟨modes, ?_⟩
    intro ended
    cases ended

/-- The unsigned -1 of the last round is not recorded. -/
theorem last_round_below : (flags 0).1 = false := by
  simp [flags, trial]

theorem mode_round_keeps {t : Nat} {full : Bool} {modTable next : List Nat}
    (modes : Modes lines modTable) (run : modeRound lines t modTable = some (next, full)) :
    Modes lines next ∧ (full = true → next.length = lines) := by
  obtain ⟨⟨first, ended⟩, above, rest⟩ := Option.bind_eq_some_iff.mp run
  have kept := record_keeps modes (fun _ => by omega) above
  change (if ended then some (first, true) else record lines _ _ first) = _ at rest
  split at rest
  · rename_i enough
    cases rest
    exact ⟨kept.1, fun _ => kept.2 enough⟩
  · refine record_keeps kept.1 ?_ rest
    intro flagged
    cases t with
    | zero =>
      rw [last_round_below] at flagged
      cases flagged
    | succ t => omega

theorem mode_loop_keeps {t : Nat} {modTable last : List Nat} (modes : Modes lines modTable)
    (run : modeLoop lines t modTable = some last) : Modes lines last ∧ last.length = lines := by
  induction t generalizing modTable with
  | zero =>
    rw [modeLoop] at run
    split at run
    · obtain ⟨⟨next, full⟩, round, ended⟩ := Option.bind_eq_some_iff.mp run
      have kept := mode_round_keeps modes round
      change (if full then some next else none) = some last at ended
      split at ended
      · rename_i enough
        cases ended
        exact ⟨kept.1, kept.2 enough⟩
      · cases ended
    · cases run
      have short := modes.short
      exact ⟨modes, by omega⟩
  | succ t ih =>
    rw [modeLoop] at run
    split at run
    · obtain ⟨⟨next, full⟩, round, later⟩ := Option.bind_eq_some_iff.mp run
      have kept := mode_round_keeps modes round
      change (if full then some next else modeLoop lines t next) = some last at later
      split at later
      · rename_i enough
        cases later
        exact ⟨kept.1, kept.2 enough⟩
      · exact ih kept.1 later
    · cases run
      have short := modes.short
      exact ⟨modes, by omega⟩

theorem get_mode_fills {modTable : List Nat} (made : getMode maxLine lines = some modTable) :
    Modes lines modTable ∧ modTable.length = lines := by
  rw [getMode] at made
  split at made
  · cases made
  · refine mode_loop_keeps ⟨Nat.zero_le _, ?_⟩ made
    intro mode member
    cases member

end Modes

namespace HashShm
variable {V : Type} {nodeSize maxLine lines : Nat}

def entries (nodes : Mem (HashNode V)) : Mem (Option (UInt64 × V)) := fun p =>
  if (nodes p).key = 0 then none else some ((nodes p).key, (nodes p).value)

def slots (t : HashShm V nodeSize maxLine lines) (key : UInt64) : List Nat :=
  (List.range lines).filterMap (t.position key)

theorem entries_store (nodes : Mem (HashNode V)) (pH : Nat) (node : HashNode V) :
    entries (store nodes pH node) =
      store (entries nodes) pH (if node.key = 0 then none else some (node.key, node.value)) := by
  funext p
  by_cases here : p = pH
  · subst here
    rw [entries, store_same, store_same]
  · rw [entries, store_other _ _ here, store_other _ _ here, entries]

theorem entry_at {nodes : Mem (HashNode V)} {p : Nat} {key : UInt64} {value : V} :
    entries nodes p = some (key, value) ↔
      key ≠ 0 ∧ (nodes p).key = key ∧ (nodes p).value = value := by
  rw [entries]
  split
  · rename_i empty
    constructor
    · intro none
      cases none
    · rintro ⟨nonzero, here, _⟩
      exact absurd (here.symm.trans empty) nonzero
  · rename_i full
    constructor
    · rintro ⟨⟩
      exact ⟨full, rfl, rfl⟩
    · rintro ⟨_, rfl, rfl⟩
      rfl

theorem entry_none {nodes : Mem (HashNode V)} {p : Nat} :
    entries nodes p = none ↔ (nodes p).key = 0 := by
  rw [entries]
  split <;> simp_all

/-- What a process has that has built its table. -/
structure Built (t : HashShm V nodeSize maxLine lines) : Prop where
  modes : getMode maxLine lines = some t.modTable
  size : t.maxSize = t.modTable.sum
  memSize : t.memSize = nodeSize * t.maxSize
  spare : t.memSize + 8 ≤ t.mem.bytes

theorem Built.same {t u : HashShm V nodeSize maxLine lines} (built : Built t)
    (modes : u.modTable = t.modTable) (size : u.maxSize = t.maxSize)
    (memSize : u.memSize = t.memSize) (bytes : u.mem.bytes = t.mem.bytes) : Built u := by
  constructor
  · rw [modes]
    exact built.modes
  · rw [size, modes]
    exact built.size
  · rw [memSize, size]
    exact built.memSize
  · rw [memSize, bytes]
    exact built.spare

def made (shm : Segment V) (modTable : List Nat) : HashShm V nodeSize maxLine lines :=
  ⟨shm, nodeSize * modTable.sum, modTable, modTable.sum, none⟩

theorem made_built {shm : Segment V} {modTable : List Nat}
    (modes : getMode maxLine lines = some modTable)
    (spare : nodeSize * modTable.sum + 8 ≤ shm.bytes) :
    Built (made shm modTable : HashShm V nodeSize maxLine lines) := ⟨modes, rfl, rfl, spare⟩

/-- The constructor reads the counter, and needs eight bytes behind those of the nodes. -/
theorem construct_eq {shm : Segment V} {modTable : List Nat}
    (modes : getMode maxLine lines = some modTable) :
    (construct shm : Option (HashShm V nodeSize maxLine lines)) =
      if nodeSize * modTable.sum + 8 ≤ shm.bytes then some (made shm modTable) else none := by
  rw [construct, modes, Option.bind_some]
  dsimp only
  rw [counter]
  split <;> rfl

section Counter
variable {t : HashShm V nodeSize maxLine lines}

theorem counter_spare (spare : t.memSize + 8 ≤ t.mem.bytes) : t.counter = some t.mem.currentSize :=
  if_pos spare

theorem set_counter_spare (spare : t.memSize + 8 ≤ t.mem.bytes) (n : UInt64) :
    t.setCounter n = some { t with mem := { t.mem with currentSize := n } } := if_pos spare

theorem count_spare (spare : t.memSize + 8 ≤ t.mem.bytes) (f : UInt64 → UInt64) :
    (t.counter.bind fun n => (t.setCounter (f n)).map fun t => (t, (0 : Int))) =
      some ({ t with mem := { t.mem with currentSize := f t.mem.currentSize } }, 0) := by
  rw [counter_spare spare, Option.bind_some, set_counter_spare spare]
  rfl

end Counter

theorem position_inside {t : HashShm V nodeSize maxLine lines} (built : Built t) (key : UInt64)
    {i : Nat} (row : i < lines) : ∃ p, t.position key i = some p ∧ p < t.maxSize := by
  obtain ⟨modes, filled⟩ := get_mode_fills built.modes
  have inside : i < t.modTable.length := by omega
  have positive := modes.positive _ (List.getElem_mem inside)
  have column := Nat.mod_lt (key + maxLine.toUInt64).toNat positive
  have parts := congrArg List.sum (List.take_append_drop (i + 1) t.modTable)
  rw [List.sum_append, List.take_add_one, List.getElem?_eq_getElem inside, Option.toList_some,
    List.sum_append, List.sum_singleton, ← built.size] at parts
  refine ⟨(t.modTable.take i).sum + (key + maxLine.toUInt64).toNat % t.modTable[i], ?_, by omega⟩
  rw [position, hash, List.getElem?_eq_getElem inside, Option.bind_some,
    if_neg (Nat.ne_of_gt positive), Option.bind_some, getPos]
  exact if_neg (by omega)

theorem mem_slots {t : HashShm V nodeSize maxLine lines} {key : UInt64} {p : Nat} :
    p ∈ t.slots key ↔ ∃ i < lines, t.position key i = some p := by
  simp [slots]

theorem slot_inside {t : HashShm V nodeSize maxLine lines} (built : Built t) {key : UInt64} {p : Nat}
    (slot : p ∈ t.slots key) : p < t.maxSize := by
  obtain ⟨i, row, named⟩ := mem_slots.mp slot
  obtain ⟨q, named', inside⟩ := position_inside built key row
  rw [named] at named'
  cases named'
  exact inside

section Loops
variable {t : HashShm V nodeSize maxLine lines} (built : Built t) (key : UInt64)
include built

theorem find_rows_cases (rows : List Nat) (bound : ∀ i ∈ rows, i < lines) :
    (∃ p ∈ rows.filterMap (t.position key), (t.mem.nodes p).key = key ∧
      t.findRows key rows = some ({ t with lastFound := some p }, 0)) ∨
    ((∀ p ∈ rows.filterMap (t.position key), (t.mem.nodes p).key ≠ key) ∧
      t.findRows key rows = some (t, -1)) := by
  induction rows with
  | nil => exact .inr ⟨by simp, rfl⟩
  | cons i rows ih =>
    obtain ⟨p, named, _⟩ := position_inside built key (bound i (by simp))
    rw [List.filterMap_cons_some named, findRows, named, Option.bind_some]
    by_cases hit : (t.mem.nodes p).key = key
    · exact .inl ⟨p, by simp, hit, if_pos hit⟩
    · rw [if_neg hit]
      rcases ih fun j member => bound j (by simp [member]) with ⟨q, later, same, found⟩ |
        ⟨nowhere, found⟩
      · exact .inl ⟨q, by simp [later], same, found⟩
      · exact .inr ⟨List.forall_mem_cons.mpr ⟨hit, nowhere⟩, found⟩

theorem find_cases :
    (∃ p ∈ t.slots key, (t.mem.nodes p).key = key ∧
      t.find key = some ({ t with lastFound := some p }, 0)) ∨
    ((∀ p ∈ t.slots key, (t.mem.nodes p).key ≠ key) ∧ t.find key = some (t, -1)) :=
  find_rows_cases built key (List.range lines) fun _ row => List.mem_range.mp row

theorem insert_rows_cases (value : V) (rows : List Nat) (bound : ∀ i ∈ rows, i < lines) :
    (∃ p ∈ rows.filterMap (t.position key), (t.mem.nodes p).key = 0 ∧
      t.insertRows key value rows = some ({ t with
        mem := ⟨store t.mem.nodes p ⟨key, value⟩, t.mem.currentSize + 1, t.mem.bytes⟩ }, 0)) ∨
    ((∀ p ∈ rows.filterMap (t.position key), (t.mem.nodes p).key ≠ 0) ∧
      t.insertRows key value rows = some (t, -1)) := by
  induction rows with
  | nil => exact .inr ⟨by simp, rfl⟩
  | cons i rows ih =>
    obtain ⟨p, named, _⟩ := position_inside built key (bound i (by simp))
    rw [List.filterMap_cons_some named, insertRows, named, Option.bind_some]
    by_cases free : (t.mem.nodes p).key = 0
    · rw [if_pos free]
      refine .inl ⟨p, by simp, free, ?_⟩
      exact @count_spare _ _ _ _ ⟨⟨store t.mem.nodes p ⟨key, value⟩, _, _⟩, _, _, _, _⟩
        built.spare fun n => n + 1
    · rw [if_neg free]
      rcases ih fun j member => bound j (by simp [member]) with ⟨q, later, empty, done⟩ |
        ⟨full, done⟩
      · exact .inl ⟨q, by simp [later], empty, done⟩
      · exact .inr ⟨List.forall_mem_cons.mpr ⟨free, full⟩, done⟩

theorem insert_cases (value : V) :
    (∃ p ∈ t.slots key, (t.mem.nodes p).key = 0 ∧
      t.insertRows key value (List.range lines) = some ({ t with
        mem := ⟨store t.mem.nodes p ⟨key, value⟩, t.mem.currentSize + 1, t.mem.bytes⟩ }, 0)) ∨
    ((∀ p ∈ t.slots key, (t.mem.nodes p).key ≠ 0) ∧
      t.insertRows key value (List.range lines) = some (t, -1)) :=
  insert_rows_cases built key value (List.range lines) fun _ row => List.mem_range.mp row

end Loops

/-- What the table is for: a map, and the number of calls that removed key 0 since the last
    clear. -/
structure Ledger (V : Type) where
  map : UInt64 → Option V
  zeros : Nat

namespace Ledger

def start : Ledger V := ⟨fun _ => none, 0⟩

def after (s : Ledger V) : Op V × Int → Ledger V
  | (.insert key value, code) =>
    if code = 0 then { s with map := Function.update s.map key (some value) } else s
  | (.remove key, code) =>
    if key = 0 then (if code = 0 then { s with zeros := s.zeros + 1 } else s)
    else { s with map := Function.update s.map key none }
  | (.clear, _) => start
  | _ => s

end Ledger

def Vacant (t : HashShm V nodeSize maxLine lines) (key : UInt64) : Prop :=
  ∃ p ∈ t.slots key, (t.mem.nodes p).key = 0

instance (t : HashShm V nodeSize maxLine lines) (key : UInt64) : Decidable (Vacant t key) :=
  inferInstanceAs (Decidable (∃ p ∈ _, _))

def Found (t : HashShm V nodeSize maxLine lines) (s : Ledger V) (key : UInt64) : Prop :=
  if key = 0 then Vacant t 0 else (s.map key).isSome

instance (t : HashShm V nodeSize maxLine lines) (s : Ledger V) (key : UInt64) :
    Decidable (Found t s key) := by
  unfold Found
  infer_instance

def answer (t : HashShm V nodeSize maxLine lines) (s : Ledger V) : Op V → Int
  | .find key | .remove key => if Found t s key then 0 else -1
  | .insert key _ => if Found t s key then 1 else if Vacant t key then 0 else -1
  | .clear | .construct => 0

structure Inv (t : HashShm V nodeSize maxLine lines) (s : Ledger V) : Prop where
  built : Built t
  holds : Holds t.slots (entries t.mem.nodes) s.map
  counter : t.mem.currentSize + s.zeros.toUInt64 =
    (occupied (entries t.mem.nodes) t.maxSize).toUInt64

section Steps
variable {t : HashShm V nodeSize maxLine lines} {s : Ledger V}

theorem found_iff (inv : Inv t s) (key : UInt64) :
    Found t s key ↔ ∃ p ∈ t.slots key, (t.mem.nodes p).key = key := by
  rw [Found]
  split
  · rename_i zero
    rw [zero, Vacant]
  · rename_i nonzero
    rw [Option.isSome_iff_ne_none, ne_eq, absent_iff inv.holds]
    constructor
    · intro somewhere
      by_contra nowhere
      apply somewhere
      intro p slot value held
      exact nowhere ⟨p, slot, (entry_at.mp held).2.1⟩
    · rintro ⟨p, slot, here⟩ nowhere
      exact nowhere p slot _ (entry_at.mpr ⟨nonzero, here, rfl⟩)

theorem find_answers (inv : Inv t s) (key : UInt64) :
    (Found t s key ∧ ∃ p ∈ t.slots key, (t.mem.nodes p).key = key ∧
      t.find key = some ({ t with lastFound := some p }, 0)) ∨
    (¬ Found t s key ∧ t.find key = some (t, -1)) := by
  rw [found_iff inv]
  rcases find_cases inv.built key with ⟨p, slot, here, found⟩ | ⟨nowhere, found⟩
  · exact .inl ⟨⟨p, slot, here⟩, p, slot, here, found⟩
  · refine .inr ⟨?_, found⟩
    rintro ⟨p, slot, here⟩
    exact nowhere p slot here

theorem inv_moved (inv : Inv t s) (p : Option Nat) :
    Inv ({ t with lastFound := p } : HashShm V nodeSize maxLine lines) s :=
  ⟨inv.built.same rfl rfl rfl rfl, inv.holds, inv.counter⟩

theorem inv_inserted (inv : Inv t s) {key : UInt64} (nonzero : key ≠ 0) (absent : s.map key = none)
    {p : Nat} (slot : p ∈ t.slots key) (free : (t.mem.nodes p).key = 0) (value : V) :
    Inv ({ t with mem := ⟨store t.mem.nodes p ⟨key, value⟩, t.mem.currentSize + 1, t.mem.bytes⟩ } :
        HashShm V nodeSize maxLine lines)
      { s with map := Function.update s.map key (some value) } := by
  have empty := entry_none.mpr free
  have stored : entries (store t.mem.nodes p ⟨key, value⟩) =
      store (entries t.mem.nodes) p (some (key, value)) := by
    rw [entries_store, if_neg nonzero]
  refine ⟨inv.built.same rfl rfl rfl rfl, ?_, ?_⟩
  · rw [stored]
    exact holds_insert inv.holds absent slot empty value
  · have change := occupied_store (entries t.mem.nodes) (slot_inside inv.built slot)
      (some (key, value))
    rw [empty] at change
    have more : occupied (store (entries t.mem.nodes) p (some (key, value))) t.maxSize =
        occupied (entries t.mem.nodes) t.maxSize + 1 := change
    have counter := inv.counter
    simp only [stored, more, Nat.toUInt64_eq, UInt64.ofNat_add] at counter ⊢
    grind

theorem inv_removed (inv : Inv t s) {key : UInt64} (nonzero : key ≠ 0) {p : Nat}
    (slot : p ∈ t.slots key) (here : (t.mem.nodes p).key = key) :
    Inv ({ t with mem := ⟨store t.mem.nodes p { t.mem.nodes p with key := 0 },
        t.mem.currentSize - 1, t.mem.bytes⟩ } : HashShm V nodeSize maxLine lines)
      { s with map := Function.update s.map key none } := by
  have held : entries t.mem.nodes p = some (key, (t.mem.nodes p).value) :=
    entry_at.mpr ⟨nonzero, here, rfl⟩
  have stored : entries (store t.mem.nodes p { t.mem.nodes p with key := 0 }) =
      store (entries t.mem.nodes) p none := by
    rw [entries_store, if_pos rfl]
  refine ⟨inv.built.same rfl rfl rfl rfl, ?_, ?_⟩
  · rw [stored]
    exact holds_erase inv.holds held
  · have change := occupied_store (entries t.mem.nodes) (slot_inside inv.built slot) none
    rw [held] at change
    have less : occupied (store (entries t.mem.nodes) p none) t.maxSize + 1 =
        occupied (entries t.mem.nodes) t.maxSize := change
    have counter := inv.counter
    simp only [stored, ← less, Nat.toUInt64_eq, UInt64.ofNat_add] at counter ⊢
    grind

/-- An empty node with key 0 in it is what it was. -/
theorem inv_zero_removed (inv : Inv t s) {p : Nat} (empty : (t.mem.nodes p).key = 0) :
    Inv ({ t with mem := ⟨store t.mem.nodes p { t.mem.nodes p with key := 0 },
        t.mem.currentSize - 1, t.mem.bytes⟩ } : HashShm V nodeSize maxLine lines)
      { s with zeros := s.zeros + 1 } := by
  have same : store t.mem.nodes p { t.mem.nodes p with key := 0 } = t.mem.nodes := by
    funext q
    by_cases here : q = p
    · subst here
      rw [store_same, ← empty]
    · rw [store_other _ _ here]
  refine ⟨inv.built.same rfl rfl rfl rfl, ?_, ?_⟩
  · rw [same]
    exact inv.holds
  · have counter := inv.counter
    simp only [same, Nat.toUInt64_eq, UInt64.ofNat_add] at counter ⊢
    grind

theorem inv_empty {t : HashShm V nodeSize maxLine lines} (built : Built t)
    (empty : ∀ p, (t.mem.nodes p).key = 0) (zero : t.mem.currentSize = 0) :
    Inv t Ledger.start := by
  have no_entry : entries t.mem.nodes = fun _ => none := by
    funext p
    exact entry_none.mpr (empty p)
  refine ⟨built, ?_, ?_⟩
  · rw [no_entry]
    exact holds_empty
  · rw [no_entry, zero]
    simp [occupied, Ledger.start]

def cleared [Zero V] (t : HashShm V nodeSize maxLine lines) : HashShm V nodeSize maxLine lines :=
  { t with mem := ⟨fun p => if p < t.maxSize then ⟨0, 0⟩ else t.mem.nodes p, 0, t.mem.bytes⟩ }

theorem clear_eq [Zero V] (built : Built t) : t.clear = some (cleared t) :=
  @set_counter_spare _ _ _ _
    ⟨⟨fun p => if p < t.maxSize then ⟨0, 0⟩ else t.mem.nodes p, _, _⟩, _, _, _, _⟩ built.spare 0

theorem inv_clear [Zero V] (inv : Inv t s) : Inv (cleared t) Ledger.start := by
  apply inv_empty (t := cleared t) (inv.built.same rfl rfl rfl rfl)
  · intro p
    by_cases inside : p < t.maxSize
    · simp only [cleared, if_pos inside]
    · simp only [cleared, if_neg inside]
      -- an entry behind the nodes would be in a slot of its key
      by_contra full
      have held := entry_at.mpr ⟨full, rfl, rfl⟩
      exact inside (slot_inside inv.built (inv.holds.placed p _ _ held))
  · rfl

theorem construct_again (inv : Inv t s) :
    construct t.mem = some ({ t with lastFound := none } : HashShm V nodeSize maxLine lines) := by
  have built := inv.built
  have spare := built.spare
  rw [built.memSize, built.size] at spare
  rw [construct_eq built.modes, if_pos spare, made, ← built.size, ← built.memSize]

theorem insert_found {key : UInt64} {t' : HashShm V nodeSize maxLine lines}
    (run : t.find key = some (t', 0)) (value : V) : t.insert key value = some (t', 1) := by
  simp [insert, run]

theorem insert_missing {key : UInt64} (run : t.find key = some (t, -1)) (value : V) :
    t.insert key value = t.insertRows key value (List.range lines) := by
  simp [insert, run]

theorem remove_found (built : Built t) {key : UInt64} {p : Nat}
    (run : t.find key = some ({ t with lastFound := some p }, 0)) :
    t.remove key = some ({ t with
      mem := ⟨store t.mem.nodes p { t.mem.nodes p with key := 0 }, t.mem.currentSize - 1,
        t.mem.bytes⟩
      lastFound := some p }, 0) := by
  rw [remove, run]
  exact @count_spare _ _ _ _
    ⟨⟨store t.mem.nodes p { t.mem.nodes p with key := 0 }, _, _⟩, _, _, _, some p⟩
    built.spare fun n => n - 1

theorem remove_missing {key : UInt64} (run : t.find key = some (t, -1)) :
    t.remove key = some (t, -1) := by
  simp [remove, run]

theorem insert_answers (inv : Inv t s) (key : UInt64) (value : V) :
    ∃ t', t.insert key value = some (t', answer t s (.insert key value)) ∧
      (answer t s (.insert key value) ≠ 0 → t'.mem = t.mem) ∧
      Inv t' (s.after (.insert key value, answer t s (.insert key value))) := by
  rcases find_answers inv key with ⟨found, p, _, _, run⟩ | ⟨missing, run⟩
  · have code : answer t s (.insert key value) = 1 := if_pos found
    rw [code]
    exact ⟨_, insert_found run value, fun _ => rfl, inv_moved inv _⟩
  · rcases insert_cases inv.built key value with ⟨p, slot, free, done⟩ | ⟨full, done⟩
    · have vacant : Vacant t key := ⟨p, slot, free⟩
      have code : answer t s (.insert key value) = 0 := by
        rw [answer, if_neg missing, if_pos vacant]
      have nonzero : key ≠ 0 := by
        rintro rfl
        exact missing ((if_pos rfl).mpr vacant)
      have absent : s.map key = none := by
        rw [Found, if_neg nonzero] at missing
        simpa using missing
      rw [code]
      exact ⟨_, (insert_missing run value).trans done, fun other => absurd rfl other,
        inv_inserted inv nonzero absent slot free value⟩
    · have none_vacant : ¬ Vacant t key := by
        rintro ⟨p, slot, free⟩
        exact full p slot free
      have code : answer t s (.insert key value) = -1 := by
        rw [answer, if_neg missing, if_neg none_vacant]
      rw [code]
      exact ⟨t, (insert_missing run value).trans done, fun _ => rfl, inv⟩

theorem remove_answers (inv : Inv t s) (key : UInt64) :
    ∃ t', t.remove key = some (t', answer t s (.remove key)) ∧
      (answer t s (.remove key) ≠ 0 → t'.mem = t.mem) ∧
      Inv t' (s.after (.remove key, answer t s (.remove key))) := by
  rcases find_answers inv key with ⟨found, p, slot, here, run⟩ | ⟨missing, run⟩
  · have code : answer t s (.remove key) = 0 := if_pos found
    rw [code]
    refine ⟨_, remove_found inv.built run, fun other => absurd rfl other, ?_⟩
    have moved := inv_moved inv (some p)
    by_cases zero : key = 0
    · subst zero
      simp only [Ledger.after, if_true]
      exact inv_zero_removed moved here
    · simp only [Ledger.after, if_neg zero]
      exact inv_removed moved zero slot here
  · have code : answer t s (.remove key) = -1 := if_neg missing
    rw [code]
    refine ⟨t, remove_missing run, fun _ => rfl, ?_⟩
    by_cases zero : key = 0
    · subst zero
      exact inv
    · rw [Found, if_neg zero] at missing
      have absent : s.map key = none := by simpa using missing
      simp only [Ledger.after, if_neg zero, ← absent, Function.update_eq_self]
      exact inv

theorem exec_answers [Zero V] (inv : Inv t s) (op : Op V) :
    ∃ t', t.exec op = some (t', answer t s op) ∧ (answer t s op ≠ 0 → t'.mem = t.mem) ∧
      Inv t' (s.after (op, answer t s op)) := by
  cases op with
  | find key =>
    rcases find_answers inv key with ⟨found, p, _, _, run⟩ | ⟨missing, run⟩
    · have code : answer t s (.find key) = 0 := if_pos found
      rw [code]
      exact ⟨_, run, fun _ => rfl, inv_moved inv _⟩
    · have code : answer t s (.find key) = -1 := if_neg missing
      rw [code]
      exact ⟨t, run, fun _ => rfl, inv⟩
  | insert key value => exact insert_answers inv key value
  | remove key => exact remove_answers inv key
  | clear =>
    refine ⟨cleared t, ?_, fun other => absurd rfl other, inv_clear inv⟩
    rw [exec, clear_eq inv.built]
    rfl
  | construct =>
    refine ⟨{ t with lastFound := none }, ?_, fun _ => rfl, inv_moved inv none⟩
    rw [exec, construct_again inv]
    rfl

end Steps

theorem run_answers [Zero V] {t : HashShm V nodeSize maxLine lines} {s : Ledger V} (inv : Inv t s)
    (ops : List (Op V)) :
    ∃ t' calls, t.execAll ops = some (t', calls) ∧ Inv t' (calls.foldl Ledger.after s) := by
  induction ops generalizing t s with
  | nil => exact ⟨t, [], rfl, inv⟩
  | cons op ops ih =>
    obtain ⟨t₁, first, _, inv₁⟩ := exec_answers inv op
    obtain ⟨t₂, calls, rest, inv₂⟩ := ih inv₁
    refine ⟨t₂, (op, answer t s op) :: calls, ?_, inv₂⟩
    simp [execAll, first, rest]

/-- On a new segment with eight bytes to spare behind those of the nodes, after any calls of any
    processes, each call returns what the map of the earlier ones says and changes nothing where
    it fails; find leads to the stored node, and the counter is the number of stored keys less
    the removals of key 0. -/
theorem hash_shm_is_finite_map [Zero V] {modTable : List Nat} {bytes : Nat}
    (modes : getMode maxLine lines = some modTable)
    (spare : nodeSize * modTable.sum + 8 ≤ bytes) (ops : List (Op V)) :
    ∃ t₀ : HashShm V nodeSize maxLine lines, construct (zeroed bytes) = some t₀ ∧
    ∃ t calls, t₀.execAll ops = some (t, calls) ∧
    let s := calls.foldl Ledger.after Ledger.start
    (∀ op, ∃ t', t.exec op = some (t', answer t s op) ∧ (answer t s op ≠ 0 → t'.mem = t.mem)) ∧
    (∀ key value, s.map key = some value → key ≠ 0 ∧ ∃ t' p, t.find key = some (t', 0) ∧
      t'.lastFound = some p ∧ p < t.maxSize ∧ t.mem.nodes p = ⟨key, value⟩) ∧
    t.mem.currentSize + s.zeros.toUInt64 = {key | s.map key ≠ none}.ncard.toUInt64 ∧
    {key | s.map key ≠ none}.ncard ≤ t.maxSize := by
  have built : Built (made (zeroed bytes) modTable : HashShm V nodeSize maxLine lines) :=
    made_built modes spare
  have start : Inv (made (zeroed bytes) modTable : HashShm V nodeSize maxLine lines)
      Ledger.start := inv_empty built (fun _ => rfl) rfl
  refine ⟨made (zeroed bytes) modTable, (construct_eq modes).trans (if_pos spare), ?_⟩
  obtain ⟨t, calls, run, inv⟩ := run_answers start ops
  have size := occupied_eq_ncard inv.holds fun key p slot => slot_inside inv.built slot
  refine ⟨t, calls, run, ?_, ?_, ?_, ?_⟩
  · intro op
    obtain ⟨t', done, same, _⟩ := exec_answers inv op
    exact ⟨t', done, same⟩
  · intro key value bound
    obtain ⟨q, held⟩ := (inv.holds.agrees key value).mp bound
    have nonzero := (entry_at.mp held).1
    refine ⟨nonzero, ?_⟩
    rcases find_answers inv key with ⟨_, p, slot, here, found⟩ | ⟨missing, _⟩
    · have other : entries t.mem.nodes p = some (key, (t.mem.nodes p).value) :=
        entry_at.mpr ⟨nonzero, here, rfl⟩
      have same := inv.holds.unique p q key _ value other held
      subst same
      obtain ⟨_, sameKey, sameValue⟩ := entry_at.mp held
      refine ⟨_, p, found, rfl, slot_inside inv.built slot, ?_⟩
      rw [← sameKey, ← sameValue]
    · rw [Found, if_neg nonzero, bound] at missing
      exact absurd rfl missing
  · rw [← size]
    exact inv.counter
  · rw [← size]
    exact occupied_le _ _

/-- Without the eight bytes the constructor already reads behind the segment. -/
theorem construct_without_spare [Zero V] {modTable : List Nat} {bytes : Nat}
    (modes : getMode maxLine lines = some modTable)
    (short : bytes < nodeSize * modTable.sum + 8) :
    (construct (zeroed bytes) : Option (HashShm V nodeSize maxLine lines)) = none :=
  (construct_eq modes).trans (if_neg (Nat.not_le.mpr short))

/-- Rows of 23 and 19 nodes of 16 bytes in one page, which 1 and 438 share; key 0 is found in an
    empty node. -/
theorem two_keys_share_their_nodes :
    ∃ t₀ : HashShm Nat 16 25 2, construct (zeroed 4096) = some t₀ ∧
    ∃ t calls, t₀.execAll [.insert 1 7, .insert 438 9, .insert 875 3, .remove 0] =
      some (t, calls) ∧ {key | (calls.foldl Ledger.after Ledger.start).map key ≠ none}.ncard ≤
        t.maxSize := by
  have modes : getMode 25 2 = some [23, 19] := by
    rw [getMode, if_neg (by decide), mode_loop_takes (by decide) (by decide +kernel)]
    decide +kernel
  obtain ⟨t₀, made, t, calls, run, _, _, _, bound⟩ :=
    @hash_shm_is_finite_map Nat 16 25 2 _ [23, 19] 4096 modes (by decide)
      [.insert 1 7, .insert 438 9, .insert 875 3, .remove 0]
  exact ⟨t₀, made, t, calls, run, bound⟩

end HashShm

end UC.ShmModes
