import Mathlib.Data.List.Nodup
import UC.StringTable.Model

/- The table is the finite map of its calls in exactly the histories in which no head of a
   longer chain is removed and hash_table_size, which no removal lowers, leaves room. -/
namespace UC.StringTable
open UC.Memory UC.Histories

def keys (chain : List HashNode) : List CString := chain.map HashNode.sKey

def value (skey : CString) (chain : List HashNode) : Option Int :=
  (scan skey chain).map HashNode.nValue

structure Inv (s : State) : Prop where
  placed : ∀ pos, ∀ node ∈ s.table.hashTable pos, position node.sKey = pos
  distinct : ∀ pos, (keys (s.table.hashTable pos)).Nodup
  agrees : Agrees s

section Chains
variable {skey key : CString} {node : HashNode} {chain : List HashNode}

@[simp] theorem value_nil : value skey [] = none := rfl

theorem value_cons : value skey (node :: chain) =
    if node.sKey = skey then some node.nValue else value skey chain := by
  simp only [value, scan]
  split <;> rfl

theorem value_absent (absent : skey ∉ keys chain) : value skey chain = none := by
  induction chain with
  | nil => rfl
  | cons node chain ih =>
    simp only [keys, List.map_cons, List.mem_cons, not_or] at absent
    rw [value_cons, if_neg (Ne.symm absent.1)]
    exact ih absent.2

theorem value_present (present : skey ∈ keys chain) : value skey chain ≠ none := by
  induction chain with
  | nil => simp [keys] at present
  | cons node chain ih =>
    rw [value_cons]
    split
    · simp
    · rename_i other
      simp only [keys, List.map_cons, List.mem_cons] at present
      exact ih (present.resolve_left (Ne.symm other))

theorem scan_none_iff : scan skey chain = none ↔ value skey chain = none := by
  simp [value]

theorem scan_absent (none_found : scan skey chain = none) : skey ∉ keys chain :=
  fun present => value_present present (scan_none_iff.mp none_found)

theorem unlink_sublist (skey : CString) (chain : List HashNode) :
    (unlink skey chain).Sublist chain := by
  induction chain with
  | nil => exact .slnil
  | cons node chain ih =>
    simp only [unlink]
    split
    · exact List.sublist_cons_self _ _
    · exact ih.cons_cons _

theorem value_unlink (distinct : (keys chain).Nodup) :
    value key (unlink skey chain) = if key = skey then none else value key chain := by
  induction chain with
  | nil => simp [unlink]
  | cons node chain ih =>
    have parts := List.nodup_cons.mp distinct
    simp only [unlink]
    by_cases here : skey = node.sKey
    · subst here
      rw [if_pos rfl, value_cons]
      by_cases same : key = node.sKey
      · subst same
        rw [if_pos rfl]
        exact value_absent parts.1
      · rw [if_neg same, if_neg (Ne.symm same)]
    · rw [if_neg here, value_cons, value_cons, ih parts.2]
      by_cases same : node.sKey = key
      · have other : key ≠ skey := fun equal => here (equal.symm.trans same.symm)
        rw [if_pos same, if_neg other]
        exact (if_pos same).symm
      · rw [if_neg same, if_neg same]

end Chains

section Tables
variable {t : Table} {skey : CString}

theorem insert_refused (full : t.hash_table_size ≥ HASH_TABLE_MAX_SIZE) (nvalue : Int) :
    hash_table_insert t skey nvalue = t := by
  rw [hash_table_insert, if_pos full]

theorem insert_known (found : hash_table_lookup t skey ≠ none) (nvalue : Int) :
    hash_table_insert t skey nvalue = t := by
  obtain ⟨node, scanned⟩ := Option.ne_none_iff_exists'.mp found
  simp only [hash_table_lookup] at scanned
  simp only [hash_table_insert, scanned, ite_self]

theorem insert_new (room : t.hash_table_size < HASH_TABLE_MAX_SIZE)
    (absent : hash_table_lookup t skey = none) (nvalue : Int) :
    hash_table_insert t skey nvalue =
      ⟨store t.hashTable (position skey) (⟨skey, nvalue⟩ :: t.hashTable (position skey)),
        t.hash_table_size + 1⟩ := by
  simp only [hash_table_lookup] at absent
  simp only [hash_table_insert, absent, if_neg (Int.not_le.mpr room)]

end Tables

section Steps
variable {s : State} {skey key : CString}

theorem lookup_value (t : Table) (skey : CString) :
    (hash_table_lookup t skey).map HashNode.nValue = value skey (t.hashTable (position skey)) :=
  rfl

theorem agrees_iff : Agrees s ↔
    ∀ key, value key (s.table.hashTable (position key)) = s.map key := Iff.rfl

theorem inv_start : Inv start := by
  refine ⟨?_, fun _ => List.nodup_nil, fun _ => rfl⟩
  intro pos node inside
  cases inside

theorem inv_store (inv : Inv s) {chain : List HashNode} {size : Int} {map : Map}
    (placed : ∀ node ∈ chain, position node.sKey = position skey) (distinct : (keys chain).Nodup)
    (here : ∀ key, position key = position skey → value key chain = map key)
    (elsewhere : ∀ key, position key ≠ position skey → map key = s.map key) :
    Inv ⟨⟨store s.table.hashTable (position skey) chain, size⟩, map⟩ := by
  refine ⟨?_, ?_, ?_⟩
  · intro pos node inside
    simp only [store] at inside
    split at inside
    · rename_i same
      rw [same]
      exact placed node inside
    · exact inv.placed pos node inside
  · intro pos
    simp only [store]
    split
    · exact distinct
    · exact inv.distinct pos
  · intro key
    rw [lookup_value]
    simp only [store]
    split
    · rename_i same
      exact here key same
    · rename_i other
      rw [elsewhere key other]
      exact inv.agrees key

theorem inv_insert (inv : Inv s) (nvalue : Int) (careful : Careful s (.insert skey nvalue)) :
    Inv ⟨hash_table_insert s.table skey nvalue, specify s.map (.insert skey nvalue)⟩ := by
  have now := agrees_iff.mp inv.agrees
  cases found : hash_table_lookup s.table skey with
  | some node =>
    -- the map does not change either
    have value_now : s.map skey = some node.nValue := by rw [← inv.agrees skey, found]; rfl
    have same_map : specify s.map (.insert skey nvalue) = s.map := by
      funext key
      simp only [specify]
      split
      · rename_i equal
        rw [equal, value_now]
        rfl
      · rfl
    have same_table : hash_table_insert s.table skey nvalue = s.table :=
      insert_known (by simp [found]) nvalue
    rw [same_map, same_table]
    exact inv
  | none =>
    have scanned : scan skey (s.table.hashTable (position skey)) = none := found
    have absent : s.map skey = none := by rw [← inv.agrees skey, found]; rfl
    rw [insert_new (careful found) found]
    apply inv_store inv
    · intro node inside
      rcases List.mem_cons.mp inside with rfl | inside
      · rfl
      · exact inv.placed _ node inside
    · exact List.nodup_cons.mpr ⟨scan_absent scanned, inv.distinct _⟩
    · intro key same
      rw [value_cons, ← same, now key]
      simp only [specify]
      by_cases equal : key = skey
      · subst equal
        simp [absent]
      · rw [if_neg (Ne.symm equal), if_neg equal]
    · intro key other
      have differ : key ≠ skey := fun equal => other (congrArg position equal)
      simp only [specify, if_neg differ]

theorem inv_remove (inv : Inv s) (careful : Careful s (.remove skey)) :
    Inv ⟨hash_table_remove s.table skey, specify s.map (.remove skey)⟩ := by
  have now := agrees_iff.mp inv.agrees
  cases chain : s.table.hashTable (position skey) with
  | nil =>
    have same_map : specify s.map (.remove skey) = s.map := by
      funext key
      simp only [specify]
      split
      · rename_i equal
        rw [equal, ← now skey, chain]
        rfl
      · rfl
    simp only [hash_table_remove, chain, same_map]
    exact inv
  | cons pHead pNext =>
    have distinct := inv.distinct (position skey)
    rw [chain] at distinct
    have left : (if skey = pHead.sKey then [] else pHead :: unlink skey pNext) =
        unlink skey (pHead :: pNext) := by
      simp only [unlink]
      split
      · rename_i equal
        exact (careful pHead pNext chain equal.symm).symm
      · rfl
    simp only [hash_table_remove, chain, left]
    have less := unlink_sublist skey (pHead :: pNext)
    apply inv_store inv
    · intro node inside
      apply inv.placed
      rw [chain]
      exact less.subset inside
    · exact distinct.sublist (less.map _)
    · intro key same
      rw [value_unlink distinct, ← chain, ← same, now key]
      rfl
    · intro key other
      have differ : key ≠ skey := fun equal => other (congrArg position equal)
      simp only [specify, if_neg differ]

theorem inv_call (s : State) (op : Call) (t : State) (inv : Inv s) (careful : Careful s op)
    (taken : call s op = some t) : Inv t := by
  cases taken
  cases op with
  | insert skey nvalue => exact inv_insert inv nvalue careful
  | remove skey => exact inv_remove inv careful
  | lookup skey => exact inv

/-- A new key that hash_table_size keeps out is not found. -/
theorem full_table_loses {nvalue : Int} (careless : ¬ Careful s (.insert skey nvalue)) :
    ¬ Agrees ⟨hash_table_insert s.table skey nvalue, specify s.map (.insert skey nvalue)⟩ := by
  intro agrees
  simp only [Careful, not_forall] at careless
  obtain ⟨absent, full⟩ := careless
  have size : s.table.hash_table_size ≥ HASH_TABLE_MAX_SIZE := Int.not_lt.mp full
  have after := agrees skey
  simp only [insert_refused size, if_true, absent, specify, Option.map_none] at after
  cases after

/-- The second node of a chain whose head is removed is lost. -/
theorem head_removal_loses (inv : Inv s) (careless : ¬ Careful s (.remove skey)) :
    ¬ Agrees ⟨hash_table_remove s.table skey, specify s.map (.remove skey)⟩ := by
  intro agrees
  simp only [Careful, not_forall] at careless
  obtain ⟨pHead, pNext, chain, rfl, more⟩ := careless
  cases pNext with
  | nil => exact more rfl
  | cons second rest =>
    have distinct := inv.distinct (position pHead.sKey)
    rw [chain] at distinct
    have differ : second.sKey ≠ pHead.sKey := by
      intro same
      exact (List.nodup_cons.mp distinct).1 (by simp [same])
    have inside : position second.sKey = position pHead.sKey :=
      inv.placed _ second (by simp [chain])
    have before : value second.sKey (pHead :: second :: rest) = s.map second.sKey := by
      rw [← chain, ← inside]
      exact agrees_iff.mp inv.agrees second.sKey
    rw [value_cons, if_neg (Ne.symm differ), value_cons, if_pos rfl] at before
    have emptied : hash_table_remove s.table pHead.sKey =
        { s.table with hashTable := store s.table.hashTable (position pHead.sKey) [] } := by
      simp only [hash_table_remove, chain, if_true]
    have after := agrees_iff.mp agrees second.sKey
    simp only [emptied, inside, store_same, value_nil, specify, if_neg differ, ← before] at after
    cases after

theorem careless_loses (s : State) (op : Call) (t : State) (inv : Inv s)
    (careless : ¬ Careful s op) (taken : call s op = some t) : ¬ Agrees t := by
  cases taken
  cases op with
  | insert skey nvalue => exact full_table_loses careless
  | remove skey => exact head_removal_loses inv careless
  | lookup skey => exact absurd trivial careless

theorem calls_possible (history : List Call) (s : State) : (play call history s).isSome := by
  induction history generalizing s with
  | nil => rfl
  | cons op history ih => exact ih _

end Steps

/-- The table is the map after every call of exactly the careful histories. -/
theorem string_table_iff (history : List Call) :
    Always call Agrees history start ↔ Lawful call Careful history start :=
  always_iff_lawful (fun _ => Inv.agrees) inv_call careless_loses history inv_start
    (calls_possible history start)

/-- b! and a@ share a bucket; removing the newer one drops both. -/
theorem colliding_key_lost :
    ¬ ∀ history s, play call history start = some s → Agrees s := by
  intro always
  have agrees := always [.insert ⟨[98, 33], by decide⟩ 1, .insert ⟨[97, 64], by decide⟩ 2,
    .remove ⟨[97, 64], by decide⟩] _ rfl
  have after := agrees ⟨[98, 33], by decide⟩
  revert after
  decide

end UC.StringTable
