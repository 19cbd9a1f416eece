import UC.BPlusTree.TwoLeaves
import UC.Lib.Bindings

/- Runs of insert, remove and update against a finite map. They agree as long as all keys
   fit into one leaf: behind the split of the root every key above the root's key is
   hidden. -/
namespace UC.BPlusTree
open UC.Memory UC.Slots UC.Chains UC.Bindings UC.BPlusTree.Tree

variable {K : Type} [LinearOrder K]

section Hidden

variable {t : CBPlusTree K} {d : Nat}

omit [LinearOrder K] in
theorem kids_entries {count : Nat} {kids : List (Tree K d)}
    (each : ∀ kid ∈ kids, count ≤ (entries d kid).length) :
    kids.length * count ≤ (kids.flatMap (entries d)).length := by
  induction kids with
  | nil => exact Nat.le_of_eq (Nat.zero_mul _)
  | cons kid rest ih =>
    have here := each kid List.mem_cons_self
    have later := ih fun kid mem => each kid (List.mem_cons_of_mem _ mem)
    rw [List.length_cons, List.flatMap_cons, List.length_append, Nat.succ_mul]
    omega

theorem min_entries {T : Tree K d} (within : Within MINNUM_KEY d T) :
    MINNUM_KEY ≤ (entries d T).length := by
  induction d with
  | zero => exact within.1
  | succ d ih =>
    obtain ⟨lower, _, kids⟩ := within
    have all := kids_entries fun kid mem => ih (kids kid mem)
    have some_kid : 1 ≤ (Inner.kids T).length := by omega
    exact Nat.le_trans (by simpa using Nat.mul_le_mul_right MINNUM_KEY some_kid) all

/-- A root above inner nodes has many more than fourteen entries below it. -/
theorem deep_entries {T : Tree K (d + 2)} (within : Within 1 (d + 2) T) :
    2 * ((MINNUM_KEY + 1) * MINNUM_KEY) ≤ (entries (d + 2) T).length := by
  obtain ⟨lower, _, kids⟩ := within
  have each : ∀ kid ∈ Inner.kids T,
      (MINNUM_KEY + 1) * MINNUM_KEY ≤ (entries (d + 1) kid).length := by
    intro kid mem
    obtain ⟨lower, _, leaves⟩ := kids kid mem
    have all := kids_entries fun leaf mem => min_entries (leaves leaf mem)
    exact Nat.le_trans (Nat.mul_le_mul_right _ lower) all
  exact Nat.le_trans (Nat.mul_le_mul_right _ lower) (kids_entries each)

/-- A root with one key: a key other than this one is only looked for on the left. -/
theorem search_goes_left {T : Tree K 1} {left right : Tree K 0} (shape : Shape t 1 1 T)
    (kids : Inner.kids T = [left, right]) :
    ∃ sep, ∀ key, key ≠ sep → t.search key = some (decide (key ∈ leafKeys left)) := by
  obtain ⟨n, cell, _⟩ := shape.repr
  have same : T = node (Inner.ptr T) [left, right] := by
    rw [← kids]
    rfl
  rw [same] at shape
  have two : TwoLeaves t (Inner.ptr T) left right (n.m_KeyValues 0) := ⟨shape, n, cell, rfl⟩
  exact ⟨_, fun key other => two.search_other other⟩

theorem two_leaves {T : Tree K 1} (within : Within 1 1 T)
    (split : (entries 1 T).length = MAXNUM_KEY + 1) :
    ∃ left right, Inner.kids T = [left, right] ∧ 2 ≤ (leafKeys right).length := by
  obtain ⟨lower, _, leaves⟩ := within
  have few := kids_entries fun leaf mem => min_entries (leaves leaf mem)
  change _ ≤ (entries 1 T).length at few
  rw [split] at few
  have two : (Inner.kids T).length = 2 := by
    change (Inner.kids T).length * 6 ≤ 14 at few
    omega
  obtain ⟨left, right, kids⟩ := List.length_eq_two.mp two
  have mem : right ∈ Inner.kids T := by
    rw [kids]
    exact List.mem_cons_of_mem _ List.mem_cons_self
  refine ⟨left, right, kids, ?_⟩
  unfold leafKeys
  rw [List.length_map]
  exact Nat.le_trans (by decide) (min_entries (leaves right mem))

theorem hidden_right {T : Tree K 1} (shape : Shape t 1 1 T)
    (split : (entries 1 T).length = MAXNUM_KEY + 1)
    (distinct : ((entries 1 T).map Prod.fst).Nodup) :
    ∃ key ∈ (entries 1 T).map Prod.fst, t.search key = some false := by
  obtain ⟨left, right, kids, several⟩ := two_leaves shape.within split
  obtain ⟨sep, search⟩ := search_goes_left shape kids
  have all : (entries 1 T).map Prod.fst = leafKeys left ++ leafKeys right := by
    change ((Inner.kids T).flatMap (entries 0)).map Prod.fst = _
    rw [kids, List.flatMap_cons, List.flatMap_singleton, List.map_append]
    rfl
  rw [all] at distinct ⊢
  obtain ⟨_, distinct_right, apart⟩ := List.nodup_append.mp distinct
  have unlike : ∃ key ∈ leafKeys right, key ≠ sep := by
    have not_single : leafKeys right ≠ [sep] := by
      intro single
      rw [single] at several
      exact Nat.not_succ_le_self 1 several
    rcases (List.Nodup.ne_singleton_iff distinct_right sep).mp not_single with none | unlike
    · rw [none] at several
      exact absurd several (Nat.not_succ_le_zero 1)
    · exact unlike
  obtain ⟨key, mem, other⟩ := unlike
  refine ⟨key, List.mem_append_right _ mem, ?_⟩
  rw [search key other, decide_eq_false]
  intro mem_left
  exact apart key mem_left key mem rfl

theorem hidden_key {T : Tree K d} (shape : Shape t 1 d T)
    (split : (entries d T).length = MAXNUM_KEY + 1)
    (distinct : ((entries d T).map Prod.fst).Nodup) :
    ∃ key ∈ (entries d T).map Prod.fst, t.search key = some false := by
  match d with
  | 0 =>
    have upper := (num_bounds shape.within).2
    change (entries 0 T).length ≤ _ at upper
    rw [split] at upper
    exact absurd upper (by decide)
  | 1 => exact hidden_right shape split distinct
  | d + 2 =>
    have many := deep_entries shape.within
    rw [split] at many
    exact absurd many (by decide)

end Hidden

inductive Op (K : Type) where
  | insert (key : K) (data : Int)
  | remove (key : K)
  | update (oldKey newKey : K)

def exec (t : CBPlusTree K) : Op K → Option (CBPlusTree K × Bool)
  | .insert key data => t.insert key data
  | .remove key => t.remove key
  | .update oldKey newKey => t.update oldKey newKey

def execAll (t : CBPlusTree K) : List (Op K) → Option (CBPlusTree K × List Bool)
  | [] => some (t, [])
  | op :: ops => do
    let (t, result) ← exec t op
    let (t, results) ← execAll t ops
    some (t, result :: results)

/-- The calls on the reference map. -/
def apply (m : Map K Int) : Op K → Map K Int × Bool
  | .insert key data => if key ∈ m then (m, false) else (m.insert key data, true)
  | .remove key => if key ∈ m then (m.erase key, true) else (m, false)
  | .update oldKey newKey =>
    if newKey ∈ m then (m, false)
    else
      match m.lookup oldKey with
      | none => (m, false)
      | some data => ((m.erase oldKey).insert newKey data, true)

def applyAll (m : Map K Int) : List (Op K) → Map K Int × List Bool
  | [] => (m, [])
  | op :: ops =>
    let (m, result) := apply m op
    let (m, results) := applyAll m ops
    (m, result :: results)

/-- After the calls: the same results, and search finds the keys of the map. -/
def AgreesAfter (t : CBPlusTree K) (m : Map K Int) (ops : List (Op K)) : Prop :=
  ∃ t', execAll t ops = some (t', (applyAll m ops).2) ∧
    ∀ key, t'.search key = some (decide (key ∈ (applyAll m ops).1))

/-- A new key meets a leaf with room, and no moved data is INVALID_INDEX. -/
def Fits (m : Map K Int) : Op K → Prop
  | .insert key _ => key ∈ m ∨ m.keys.card < MAXNUM_KEY
  | .remove _ => True
  | .update oldKey newKey => newKey ∈ m ∨ m.lookup oldKey ≠ some INVALID_INDEX

def AllFit (m : Map K Int) : List (Op K) → Prop
  | [] => True
  | op :: ops => Fits m op ∧ AllFit (apply m op).1 ops

/-- The tree holds the map in at most one leaf. -/
def Stands (t : CBPlusTree K) (m : Map K Int) : Prop := ∃ l, Holds t l ∧ Lists m l

section Step

variable {t : CBPlusTree K} {m : Map K Int}

theorem stands_search (stands : Stands t m) (key : K) :
    t.search key = some (decide (key ∈ m)) := by
  obtain ⟨l, holds, lists⟩ := stands
  rw [holds.search_spec]
  exact congrArg some (decide_eq_decide.mpr (mem_iff lists key).symm)

theorem stands_insert (stands : Stands t m) {key : K} (data : Int)
    (fits : Fits m (.insert key data)) :
    ∃ t', t.insert key data = some (t', (apply m (.insert key data)).2) ∧
      Stands t' (apply m (.insert key data)).1 := by
  by_cases present : key ∈ m
  · rw [apply, if_pos present]
    have search := stands_search stands key
    rw [decide_eq_true present] at search
    exact ⟨t, Shape.insert_found search data, stands⟩
  · rw [apply, if_neg present]
    obtain ⟨l, holds, lists⟩ := stands
    have room : l.length < MAXNUM_KEY := by
      rw [← card_keys lists]
      exact fits.resolve_left present
    have absent : key ∉ l.map Prod.fst := fun mem => present ((mem_iff lists key).mpr mem)
    obtain ⟨t', l', run, holds', more⟩ := holds.insert_spec absent room data
    exact ⟨t', run, l', holds', lists_insert lists present more⟩

theorem stands_remove_absent (stands : Stands t m) {key : K} (absent : m.lookup key = none) :
    t.removeData key = some (t, false, INVALID_INDEX) := by
  obtain ⟨l, holds, lists⟩ := stands
  apply holds.remove_absent
  rw [← mem_iff lists]
  exact Finmap.lookup_eq_none.mp absent

theorem stands_remove_present (stands : Stands t m) {key : K} {data : Int}
    (present : m.lookup key = some data) :
    ∃ t', t.removeData key = some (t', true, data) ∧ Stands t' (m.erase key) := by
  obtain ⟨l, holds, lists⟩ := stands
  have mem := (mem_iff lists key).mp (Finmap.mem_of_lookup_eq_some present)
  obtain ⟨t', data', l', run, holds', less⟩ := holds.remove_spec mem
  have same := (lists.lookup key data').mpr (less.mem_iff.mpr List.mem_cons_self)
  cases present.symm.trans same
  exact ⟨t', run, l', holds', lists_erase lists less⟩

theorem card_le (stands : Stands t m) : m.keys.card ≤ MAXNUM_KEY := by
  obtain ⟨l, holds, lists⟩ := stands
  rw [card_keys lists]
  cases holds with
  | empty => exact Nat.zero_le _
  | leaf shape => exact (num_bounds shape.within).2

theorem stands_remove (stands : Stands t m) (key : K) :
    ∃ t', t.remove key = some (t', (apply m (.remove key)).2) ∧
      Stands t' (apply m (.remove key)).1 := by
  unfold CBPlusTree.remove
  cases stored : m.lookup key with
  | none =>
    rw [stands_remove_absent stands stored, apply, if_neg (Finmap.lookup_eq_none.mp stored)]
    exact ⟨t, rfl, stands⟩
  | some data =>
    obtain ⟨t', run, stands'⟩ := stands_remove_present stands stored
    rw [run, apply, if_pos (Finmap.mem_of_lookup_eq_some stored)]
    exact ⟨t', rfl, stands'⟩

theorem update_found (stands : Stands t m) {oldKey newKey : K} {data : Int} (free : newKey ∉ m)
    (stored : m.lookup oldKey = some data) :
    ∃ t', Stands t' (m.erase oldKey) ∧ t.update oldKey newKey =
      if data = INVALID_INDEX then some (t', false) else t'.insert newKey data := by
  have search := stands_search stands newKey
  rw [decide_eq_false free] at search
  obtain ⟨t', run, stands'⟩ := stands_remove_present stands stored
  refine ⟨t', stands', ?_⟩
  unfold CBPlusTree.update
  simp only [search, run, Option.bind_eq_bind, Option.bind_some, Bool.false_eq_true, ↓reduceIte]

theorem stands_update (stands : Stands t m) (oldKey newKey : K)
    (fits : Fits m (.update oldKey newKey)) :
    ∃ t', t.update oldKey newKey = some (t', (apply m (.update oldKey newKey)).2) ∧
      Stands t' (apply m (.update oldKey newKey)).1 := by
  by_cases taken : newKey ∈ m
  · have search := stands_search stands newKey
    rw [decide_eq_true taken] at search
    rw [apply, if_pos taken]
    unfold CBPlusTree.update
    rw [search]
    exact ⟨t, rfl, stands⟩
  · rw [apply, if_neg taken]
    cases stored : m.lookup oldKey with
    | none =>
      have search := stands_search stands newKey
      rw [decide_eq_false taken] at search
      unfold CBPlusTree.update
      simp only [search, stands_remove_absent stands stored, Option.bind_eq_bind,
        Option.bind_some, Bool.false_eq_true, ↓reduceIte]
      exact ⟨t, rfl, stands⟩
    | some data =>
      obtain ⟨t', stands', run⟩ := update_found stands taken stored
      have valid : data ≠ INVALID_INDEX := by
        intro eq
        exact fits.resolve_left taken (eq ▸ stored)
      have fits' : Fits (m.erase oldKey) (.insert newKey data) := by
        right
        have mem := Finmap.mem_keys.mpr (Finmap.mem_of_lookup_eq_some stored)
        have le := card_le stands
        have pos := Finset.card_pos.mpr ⟨oldKey, mem⟩
        rw [Finmap.keys_erase, Finset.card_erase_of_mem mem]
        omega
      have absent : newKey ∉ m.erase oldKey := fun mem => taken (Finmap.mem_erase.mp mem).2
      obtain ⟨t'', run', stands''⟩ := stands_insert stands' data fits'
      rw [apply, if_neg absent] at run' stands''
      rw [run, if_neg valid, run']
      exact ⟨t'', rfl, stands''⟩

theorem step_agrees (stands : Stands t m) (op : Op K) (fits : Fits m op) :
    ∃ t', exec t op = some (t', (apply m op).2) ∧ Stands t' (apply m op).1 := by
  cases op with
  | insert key data => exact stands_insert stands data fits
  | remove key => exact stands_remove stands key
  | update oldKey newKey => exact stands_update stands oldKey newKey fits

theorem insert_overflow (stands : Stands t m) {key : K} (absent : key ∉ m)
    (full : MAXNUM_KEY ≤ m.keys.card) (data : Int) :
    ∃ t', t.insert key data = some (t', true) ∧
      ∃ hidden ∈ m.insert key data, t'.search hidden = some false := by
  have search := stands_search stands key
  rw [decide_eq_false absent] at search
  have exact_full := Nat.le_antisymm (card_le stands) full
  obtain ⟨l, holds, lists⟩ := stands
  rw [card_keys lists] at exact_full
  cases holds with
  | empty => exact absurd exact_full (Nat.zero_ne_add_one _)
  | leaf shape =>
    obtain ⟨t', d', T', run, shape', more, _⟩ := shape.insert_new search data
    have lists' := lists_insert lists absent more
    have size := more.length_eq
    rw [List.length_cons, exact_full] at size
    obtain ⟨hidden, mem, lost⟩ := hidden_key shape' size lists'.distinct
    exact ⟨t', run, hidden, (mem_iff lists' hidden).mpr mem, lost⟩

theorem agrees_after_none : AgreesAfter t m [] ↔ ∀ key, t.search key = some (decide (key ∈ m)) := by
  constructor
  · rintro ⟨t', run, found⟩
    cases run
    exact found
  · intro found
    exact ⟨t, rfl, found⟩

theorem exec_all_cons {t' : CBPlusTree K} {op : Op K} {result : Bool} (ops : List (Op K))
    (step : exec t op = some (t', result)) :
    execAll t (op :: ops) = (execAll t' ops).map fun last => (last.1, result :: last.2) := by
  rw [execAll, step]
  simp only [Option.bind_eq_bind, Option.bind_some]
  cases execAll t' ops <;> rfl

theorem agrees_after_step {t' : CBPlusTree K} {op : Op K} {ops : List (Op K)}
    (step : exec t op = some (t', (apply m op).2)) :
    AgreesAfter t m (op :: ops) ↔ AgreesAfter t' (apply m op).1 ops := by
  unfold AgreesAfter
  rw [exec_all_cons ops step]
  constructor
  · rintro ⟨t'', run, found⟩
    obtain ⟨⟨last, results⟩, run', eq⟩ := Option.map_eq_some_iff.mp run
    obtain ⟨rfl, same⟩ := Prod.mk.inj eq
    obtain ⟨_, rfl⟩ := List.cons.inj same
    exact ⟨last, run', found⟩
  · rintro ⟨t'', run, found⟩
    rw [run]
    exact ⟨t'', rfl, found⟩

theorem first_result_agrees {op : Op K} {ops : List (Op K)} (agrees : AgreesAfter t m (op :: ops)) :
    ∃ t', exec t op = some (t', (apply m op).2) := by
  obtain ⟨t'', run, _⟩ := agrees
  cases step : exec t op with
  | none =>
    rw [execAll, step] at run
    cases run
  | some first =>
    rw [exec_all_cons ops step] at run
    obtain ⟨last, _, eq⟩ := Option.map_eq_some_iff.mp run
    obtain ⟨_, same⟩ := Prod.mk.inj eq
    obtain ⟨result, _⟩ := List.cons.inj same
    exact ⟨first.1, congrArg some (Prod.ext rfl result)⟩

theorem step_disagrees (stands : Stands t m) {op : Op K} (misfit : ¬ Fits m op) :
    ¬ AgreesAfter t m [op] := by
  intro agrees
  cases op with
  | insert key data =>
    obtain ⟨absent, full⟩ := not_or.mp misfit
    obtain ⟨t', run, hidden, mem, lost⟩ :=
      insert_overflow stands absent (Nat.le_of_not_lt full) data
    have step : exec t (.insert key data) = some (t', (apply m (.insert key data)).2) := by
      rw [apply, if_neg absent]
      exact run
    rw [agrees_after_step step, agrees_after_none, apply, if_neg absent] at agrees
    have found := agrees hidden
    rw [decide_eq_true mem, lost] at found
    cases found
  | remove key => exact misfit trivial
  | update oldKey newKey =>
    obtain ⟨free, moved⟩ := not_or.mp misfit
    have stored := not_not.mp moved
    obtain ⟨t', _, run⟩ := update_found stands free stored
    obtain ⟨t'', step⟩ := first_result_agrees agrees
    rw [apply, if_neg free, stored] at step
    cases step.symm.trans run

/-- In every run tree and map agree after every call exactly as long as all calls fit. -/
theorem run_agrees_iff (stands : Stands t m) (ops : List (Op K)) :
    (∀ done, done <+: ops → AgreesAfter t m done) ↔ AllFit m ops := by
  induction ops generalizing t m with
  | nil =>
    constructor
    · intro _
      trivial
    · intro _ done first
      cases List.prefix_nil.mp first
      exact agrees_after_none.mpr (stands_search stands)
  | cons op ops ih =>
    constructor
    · intro agrees
      have fits : Fits m op := by
        by_contra misfit
        exact step_disagrees stands misfit
          (agrees [op] (List.cons_prefix_cons.mpr ⟨rfl, List.nil_prefix⟩))
      obtain ⟨t', step, stands'⟩ := step_agrees stands op fits
      refine ⟨fits, (ih stands').mp ?_⟩
      intro done first
      exact (agrees_after_step step).mp (agrees _ (List.cons_prefix_cons.mpr ⟨rfl, first⟩))
    · rintro ⟨fits, rest⟩ done first
      obtain ⟨t', step, stands'⟩ := step_agrees stands op fits
      cases done with
      | nil => exact agrees_after_none.mpr (stands_search stands)
      | cons op' done =>
        obtain ⟨rfl, later⟩ := List.cons_prefix_cons.mp first
        exact (agrees_after_step step).mpr ((ih stands').mpr rest done later)

end Step

/-- From the empty tree on, search and the returned values are those of the map exactly as
    long as every inserted new key finds fewer than MAXNUM_KEY stored, and no update moves
    the data INVALID_INDEX. -/
theorem lookups_refine_map_iff_all_fit (raw : Ptr → CNode K) (m_MaxKey : K) (ops : List (Op K)) :
    (∀ done, done <+: ops → AgreesAfter (CBPlusTree.empty raw m_MaxKey) ∅ done) ↔
      AllFit ∅ ops :=
  run_agrees_iff ⟨[], .empty rfl, lists_empty⟩ ops

/-- Fourteen keys in increasing order: 9 is inserted and then not found. -/
def increasing : List (Op Int) := (List.range 14).map fun key => .insert (Int.ofNat key) 0

theorem fourteen_keys_hide_one :
    ¬ AgreesAfter (CBPlusTree.empty (fun _ => zeroed) 0) ∅ increasing := by
  rintro ⟨t, run, found⟩
  have stored : (9 : Int) ∈ (applyAll ∅ increasing).1 := by decide +kernel
  have lost : ((execAll (CBPlusTree.empty (fun _ => zeroed) 0) increasing).bind fun last =>
      last.1.search 9) = some false := by
    decide +kernel
  have searched := found 9
  rw [decide_eq_true stored] at searched
  rw [run, Option.bind_some, searched] at lost
  cases lost

end UC.BPlusTree
