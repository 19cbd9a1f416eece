import UC.Lib.Ints
import UC.Lib.Sorting

/- The bucketsort of example_sort.cpp. The key of a header node counts the nodes behind it.
   An index outside keys or bucket_table, an overflow and a NULL that is followed are none. -/
namespace UC.BucketSort
open UC.Cells UC.Ints UC.Sorting

/-- What a KeyNode pointer points to: NULL, or a node with all behind it. -/
inductive KeyNode where
  | NULL
  | node (key : Int) (next : KeyNode)
deriving DecidableEq, Repr
open KeyNode

/-- The loop that makes the headers. -/
def initBuckets (bucket_size : Int) (bucket_table : Arr KeyNode) (i : Int) :
    Option (Arr KeyNode) :=
  if _more : i < bucket_size then do
    let bucket_table ← save bucket_table i (node 0 NULL)
    let _ ← int (i + 1)
    initBuckets bucket_size bucket_table (i + 1)
  else some bucket_table
termination_by (bucket_size - i).toNat

/-- The while loop from p on, and node->next = p->next, p->next = node behind it. -/
def link (key : Int) : KeyNode → Option KeyNode
  | NULL => none
  | node k NULL => some (node k (node key NULL))
  | node k (node k' next) =>
    if k' ≤ key then do
      let behind ← link key (node k' next)
      some (node k behind)
    else some (node k (node key (node k' next)))

/-- (bucket_table[index]->key)++. -/
def count : KeyNode → Option KeyNode
  | NULL => none
  | node key next => do
    let key ← int (key + 1)
    some (node key next)

/-- The two branches with p at the header. -/
def enter (key counter : Int) (next : KeyNode) : Option KeyNode :=
  if counter = 0 then some (node counter (node key NULL)) else link key (node counter next)

/-- The body of the loop over j. -/
def place (bucket_table : Arr KeyNode) (key : Int) : Option (Arr KeyNode) := do
  let index := key.tdiv 10
  let p ← load bucket_table index
  match p with
  | NULL => none
  | node counter next => do
    let linked ← enter key counter next
    let counted ← count linked
    save bucket_table index counted

/-- The loop over j. -/
def placeAll (keys : Arr Int) (size : Int) (bucket_table : Arr KeyNode) (j : Int) :
    Option (Arr KeyNode) :=
  if _more : j < size then do
    let key ← load keys j
    let bucket_table ← place bucket_table key
    let _ ← int (j + 1)
    placeAll keys size bucket_table (j + 1)
  else some bucket_table
termination_by (size - j).toNat

/-- The loop over k: keys and tmp behind it. -/
def copyChain : KeyNode → Arr Int → Int → Option (Arr Int × Int)
  | NULL, keys, tmp => some (keys, tmp)
  | node key next, keys, tmp => do
    let keys ← save keys tmp key
    let tmp ← int (tmp + 1)
    copyChain next keys tmp

/-- The last loop over i. -/
def copyBuckets (bucket_size : Int) (bucket_table : Arr KeyNode) (keys : Arr Int) (tmp i : Int) :
    Option (Arr Int) :=
  if _more : i < bucket_size then do
    let bucket ← load bucket_table i
    match bucket with
    | NULL => none
    | node _ next => do
      let (keys, tmp) ← copyChain next keys tmp
      let _ ← int (i + 1)
      copyBuckets bucket_size bucket_table keys tmp (i + 1)
  else some keys
termination_by (bucket_size - i).toNat

/-- malloc leaves bucket_table without any node. -/
def bucketsort (keys : Arr Int) (size bucket_size : Int) : Option (Arr Int) := do
  let bucket_table ← initBuckets bucket_size (filled bucket_size NULL) 0
  let bucket_table ← placeAll keys size bucket_table 0
  copyBuckets bucket_size bucket_table keys 0 0

def chain : KeyNode → List Int
  | NULL => []
  | node key next => key :: chain next

def held : KeyNode → List Int
  | NULL => []
  | node _ next => chain next

theorem link_puts_in_order (key counter : Int) (next : KeyNode) :
    ∃ linked, link key (node counter next) = some (node counter linked) ∧
      (chain linked).Perm (key :: chain next) ∧
      ((chain next).Pairwise (· ≤ ·) → (chain linked).Pairwise (· ≤ ·)) := by
  induction next generalizing counter with
  | NULL => exact ⟨node key NULL, by simp [link, chain]⟩
  | node k next ih =>
    by_cases small : k ≤ key
    · obtain ⟨linked, run, kept, ordered⟩ := ih k
      refine ⟨node k linked, ?_, ?_, ?_⟩
      · rw [link, if_pos small, run]
        rfl
      · exact (kept.cons k).trans (List.Perm.swap key k (chain next))
      · intro before
        have first := List.pairwise_cons.mp before
        apply List.pairwise_cons.mpr
        constructor
        · intro v mem
          rcases List.mem_cons.mp (kept.mem_iff.mp mem) with new | old
          · rw [new]
            exact small
          · exact first.1 v old
        · exact ordered first.2
    · refine ⟨node key (node k next), ?_, List.Perm.refl _, ?_⟩
      · rw [link, if_neg small]
      · intro before
        have first := List.pairwise_cons.mp before
        apply List.pairwise_cons.mpr
        constructor
        · intro v mem
          rcases List.mem_cons.mp mem with new | old
          · rw [new]
            exact le_of_not_ge small
          · exact (le_of_not_ge small).trans (first.1 v old)
        · exact before

structure Bucket (placed : List Int) (index : Int) (bucket : KeyNode) : Prop where
  header : ∃ next, bucket = node (chain next).length next
  ordered : (held bucket).Pairwise (· ≤ ·)
  kept : (held bucket).Perm (placed.filter (fun key => key / 10 = index))

/-- The table when the keys of a list are placed. -/
structure Placed (bucket_size : Int) (placed : List Int) (bucket_table : Arr KeyNode) : Prop where
  spans : Spans bucket_table bucket_size
  bucket : ∀ i, 0 ≤ i → i < bucket_size → Bucket placed i (bucket_table.cell i)

theorem init_continues {bucket_size i : Int} {bucket_table : Arr KeyNode}
    (spans : Spans bucket_table bucket_size) (nonneg : 0 ≤ i) (fits : bucket_size ≤ INT_MAX)
    (made : ∀ x, 0 ≤ x → x < i → bucket_table.cell x = node 0 NULL) :
    ∃ table, initBuckets bucket_size bucket_table i = some table ∧
      Spans table bucket_size ∧ ∀ x, 0 ≤ x → x < bucket_size → table.cell x = node 0 NULL := by
  induction distance : (bucket_size - i).toNat generalizing bucket_table i with
  | zero =>
    refine ⟨bucket_table, ?_, spans, fun x low high => made x low (by omega)⟩
    rw [initBuckets, dif_neg (by omega)]
  | succ d ih =>
    have made' : ∀ x, 0 ≤ x → x < i + 1 →
        (put bucket_table i (node 0 NULL)).cell x = node 0 NULL := by
      intro x low high
      rw [put_cell]
      by_cases here : x = i
      · rw [here, set_same]
      · rw [set_other _ _ here]
        exact made x low (by omega)
    obtain ⟨table, run, final⟩ :=
      ih (put_spans spans i (node 0 NULL)) (by omega) made' (by omega)
    refine ⟨table, ?_, final⟩
    rw [initBuckets, dif_pos (by omega), save_spans spans nonneg (by omega), Option.bind_eq_bind,
      Option.bind_some, int_index (by omega) (by omega)]
    exact run

theorem init_places_none {bucket_size : Int} (fits : bucket_size ≤ INT_MAX) :
    ∃ table, initBuckets bucket_size (filled bucket_size NULL) 0 = some table ∧
      Placed bucket_size [] table := by
  obtain ⟨table, run, spans, empty⟩ :=
    init_continues (filled_spans bucket_size NULL) (le_refl 0) fits (by omega)
  refine ⟨table, run, spans, ?_⟩
  intro i low high
  rw [empty i low high]
  exact ⟨⟨NULL, rfl⟩, List.Pairwise.nil, List.Perm.refl _⟩

/-- The bucket of a new key. The counter is 0 for an empty bucket only. -/
theorem bucket_takes {placed : List Int} {index key : Int} {bucket : KeyNode}
    (state : Bucket placed index bucket) (room : placed.length < INT_MAX)
    (number : key / 10 = index) :
    ∃ counter next linked counted, bucket = node counter next ∧
      enter key counter next = some linked ∧ count linked = some counted ∧
      Bucket (placed ++ [key]) index counted := by
  obtain ⟨⟨next, shape⟩, ordered, kept⟩ := state
  subst shape
  have short : (chain next).length ≤ placed.length :=
    kept.length_eq.le.trans (List.length_filter_le _ _)
  have more : (placed ++ [key]).filter (fun k => k / 10 = index) =
      placed.filter (fun k => k / 10 = index) ++ [key] := by
    simp [List.filter_append, number]
  obtain ⟨linked, run, kept', ordered'⟩ := link_puts_in_order key (chain next).length next
  have fits := @int_index ((chain next).length + 1) (by omega) (by omega)
  have enters : enter key (chain next).length next = some (node (chain next).length linked) := by
    rw [enter, ← run]
    cases next with
    | NULL => rfl
    | node k next =>
      have nonzero : ((chain (node k next)).length : Int) ≠ 0 := by
        rw [chain, List.length_cons]
        omega
      rw [if_neg nonzero]
  refine ⟨(chain next).length, next, node (chain next).length linked,
    node ((chain next).length + 1) linked, rfl, enters, ?_, ?_, ordered' ordered, ?_⟩
  · rw [count, fits]
    rfl
  · refine ⟨linked, ?_⟩
    rw [kept'.length_eq]
    rfl
  · rw [more]
    exact kept'.trans ((kept.cons key).trans (List.perm_append_singleton key _).symm)

theorem bucket_of_other {placed : List Int} {index key : Int} {bucket : KeyNode}
    (state : Bucket placed index bucket) (other : key / 10 ≠ index) :
    Bucket (placed ++ [key]) index bucket := by
  obtain ⟨header, ordered, kept⟩ := state
  refine ⟨header, ordered, ?_⟩
  simpa [List.filter_append, other] using kept

theorem place_step {bucket_size key : Int} {placed : List Int} {bucket_table : Arr KeyNode}
    (state : Placed bucket_size placed bucket_table) (room : placed.length < INT_MAX)
    (low : 0 ≤ key) (high : key < 10 * bucket_size) :
    ∃ table, place bucket_table key = some table ∧
      Placed bucket_size (placed ++ [key]) table := by
  have index : key.tdiv 10 = key / 10 := Int.tdiv_eq_ediv_of_nonneg low
  obtain ⟨counter, next, linked, counted, shape, linking, counting, bucket⟩ :=
    bucket_takes (state.bucket (key / 10) (by omega) (by omega)) room rfl
  refine ⟨put bucket_table (key / 10) counted, ?_, put_spans state.spans _ _, ?_⟩
  · rw [place, index, load_spans state.spans (by omega) (by omega), shape, Option.bind_eq_bind,
      Option.bind_some]
    dsimp only
    rw [linking, Option.bind_some, counting, Option.bind_some,
      save_spans state.spans (by omega) (by omega)]
  · intro i low' high'
    rw [put_cell]
    by_cases here : i = key / 10
    · rw [here, set_same]
      exact bucket
    · rw [set_other _ _ here]
      exact bucket_of_other (state.bucket i low' high') (Ne.symm here)

theorem place_all_continues {bucket_size size j : Int} {keys : Int → Int}
    {bucket_table : Arr KeyNode} (fits : size ≤ INT_MAX)
    (inside : ∀ x, 0 ≤ x → x < size → 0 ≤ keys x ∧ keys x < 10 * bucket_size)
    (nonneg : 0 ≤ j) (before : j ≤ size ∨ j = 0)
    (state : Placed bucket_size (stretch keys 0 (j - 1)) bucket_table) :
    ∃ table, (∀ lo hi, lo ≤ 0 → size ≤ hi →
        placeAll ⟨lo, hi, keys⟩ size bucket_table j = some table) ∧
      Placed bucket_size (stretch keys 0 (size - 1)) table := by
  induction distance : (size - j).toNat generalizing bucket_table j with
  | zero =>
    have same : stretch keys 0 (size - 1) = stretch keys 0 (j - 1) := by
      rcases before with le | start
      · have done : j = size := by omega
        rw [done]
      · rw [stretch_none keys (by omega), stretch_none keys (by omega)]
    refine ⟨bucket_table, ?_, same ▸ state⟩
    intro lo hi _ _
    rw [placeAll, dif_neg (by omega)]
  | succ d ih =>
    have length := stretch_length keys 0 (j - 1)
    have key := inside j nonneg (by omega)
    obtain ⟨table, run, state'⟩ := place_step state (by omega) key.1 key.2
    have grown : stretch keys 0 (j - 1) ++ [keys j] = stretch keys 0 (j + 1 - 1) := by
      have alone : stretch keys j j = [keys j] := by
        rw [stretch_cons keys (le_refl j), stretch_none keys (by omega)]
      rw [Int.add_sub_cancel, ← alone, stretch_append keys nonneg (by omega)]
    rw [grown] at state'
    obtain ⟨final, run', state''⟩ := ih (by omega) (by omega) state' (by omega)
    refine ⟨final, ?_, state''⟩
    intro lo hi low high
    have read := @load_inside _ ⟨lo, hi, keys⟩ j (by dsimp only; omega) (by dsimp only; omega)
    rw [placeAll, dif_pos (by omega), read, Option.bind_eq_bind, Option.bind_some, run]
    change (int (j + 1)).bind _ = _
    rw [int_index (by omega) (by omega)]
    exact run' lo hi low high

theorem copy_chain_runs {next : KeyNode} {tmp : Int} {cell : Int → Int} (nonneg : 0 ≤ tmp)
    (room : tmp + (chain next).length ≤ INT_MAX) :
    ∃ copied, (∀ lo hi, lo ≤ tmp → tmp + (chain next).length ≤ hi →
        copyChain next ⟨lo, hi, cell⟩ tmp =
          some (⟨lo, hi, copied⟩, tmp + (chain next).length)) ∧
      (∀ i, i < tmp ∨ tmp + (chain next).length - 1 < i → copied i = cell i) ∧
      stretch copied tmp (tmp + (chain next).length - 1) = chain next := by
  induction next generalizing tmp cell with
  | NULL =>
    refine ⟨cell, ?_, fun _ _ => rfl, ?_⟩
    · intro lo hi _ _
      simp [copyChain, chain]
    · apply stretch_none
      simp only [chain, List.length_nil]
      omega
  | node key next ih =>
    rw [chain, List.length_cons, Int.natCast_succ] at room ⊢
    obtain ⟨copied, run, outside, content⟩ :=
      @ih (tmp + 1) (set cell tmp key) (by omega) (by omega)
    have behind : tmp + 1 + ((chain next).length : Int) = tmp + ((chain next).length + 1) := by
      omega
    rw [behind] at run outside content
    obtain ⟨begins, frame⟩ := stretch_filled (by omega) outside
    refine ⟨copied, ?_, frame, ?_⟩
    · intro lo hi low high
      have write := @save_inside _ ⟨lo, hi, cell⟩ tmp low (by dsimp only; omega) key
      rw [copyChain, write, Option.bind_eq_bind, Option.bind_some, int_index (by omega) (by omega)]
      exact run lo hi (by omega) high
    · rw [begins, content]

def rest (bucket_table : Arr KeyNode) (i bucket_size : Int) : List Int :=
  (stretch bucket_table.cell i (bucket_size - 1)).flatMap held

theorem copy_buckets_runs {bucket_size tmp i : Int} {placed : List Int}
    {bucket_table : Arr KeyNode} {cell : Int → Int}
    (state : Placed bucket_size placed bucket_table) (fits : bucket_size ≤ INT_MAX)
    (nonneg : 0 ≤ tmp) (first : 0 ≤ i)
    (room : tmp + (rest bucket_table i bucket_size).length ≤ INT_MAX) :
    ∃ copied, (∀ lo hi, lo ≤ tmp → tmp + (rest bucket_table i bucket_size).length ≤ hi →
        copyBuckets bucket_size bucket_table ⟨lo, hi, cell⟩ tmp i = some ⟨lo, hi, copied⟩) ∧
      (∀ x, x < tmp ∨ tmp + (rest bucket_table i bucket_size).length - 1 < x →
        copied x = cell x) ∧
      stretch copied tmp (tmp + (rest bucket_table i bucket_size).length - 1) =
        rest bucket_table i bucket_size := by
  induction distance : (bucket_size - i).toNat generalizing tmp i cell with
  | zero =>
    have none : rest bucket_table i bucket_size = [] := by
      rw [rest, stretch_none _ (by omega), List.flatMap_nil]
    refine ⟨cell, ?_, fun _ _ => rfl, ?_⟩
    · intro lo hi _ _
      rw [copyBuckets, dif_neg (by omega)]
    · rw [none]
      apply stretch_none
      simp only [List.length_nil]
      omega
  | succ d ih =>
    obtain ⟨next, shape⟩ := (state.bucket i first (by omega)).header
    have parts : rest bucket_table i bucket_size =
        chain next ++ rest bucket_table (i + 1) bucket_size := by
      rw [rest, stretch_cons _ (by omega), List.flatMap_cons, shape]
      rfl
    have lengths : ((rest bucket_table i bucket_size).length : Int) =
        (chain next).length + (rest bucket_table (i + 1) bucket_size).length := by
      rw [parts, List.length_append, Int.natCast_add]
    rw [lengths] at room ⊢
    obtain ⟨one, run, outside, content⟩ :=
      @copy_chain_runs next tmp cell nonneg (by omega)
    obtain ⟨copied, run', outside', content'⟩ :=
      @ih (tmp + (chain next).length) (i + 1) one (by omega) (by omega) (by omega) (by omega)
    refine ⟨copied, ?_, ?_, ?_⟩
    · intro lo hi low high
      rw [copyBuckets, dif_pos (by omega), load_spans state.spans first (by omega), shape,
        Option.bind_eq_bind, Option.bind_some]
      dsimp only
      rw [run lo hi low (by omega)]
      change (int (i + 1)).bind _ = _
      rw [int_index (by omega) (by omega)]
      exact run' lo hi (by omega) (by omega)
    · intro x apart
      rw [outside' x (by omega)]
      exact outside x (by omega)
    · have still : stretch copied tmp (tmp + (chain next).length - 1) =
          stretch one tmp (tmp + (chain next).length - 1) :=
        stretch_congr fun x _ high => outside' x (by omega)
      have whole := @stretch_append _ copied tmp (tmp + (chain next).length)
        (tmp + (chain next).length + (rest bucket_table (i + 1) bucket_size).length - 1)
        (by omega) (by omega)
      rw [still, content, content'] at whole
      rw [parts, ← Int.add_assoc]
      exact whole.symm

theorem rest_sorts {bucket_size : Int} {placed : List Int} {bucket_table : Arr KeyNode}
    (state : Placed bucket_size placed bucket_table)
    (inside : ∀ key ∈ placed, 0 ≤ key ∧ key < 10 * bucket_size) :
    (rest bucket_table 0 bucket_size).Pairwise (· ≤ ·) ∧
      (rest bucket_table 0 bucket_size).Perm placed := by
  have parts : rest bucket_table 0 bucket_size =
      (List.range bucket_size.toNat).flatMap fun k : Nat => held (bucket_table.cell k) := by
    have all : bucket_size - 1 + 1 - 0 = bucket_size := by omega
    rw [rest, stretch, List.flatMap_map, all]
    simp
  have bucket : ∀ k < bucket_size.toNat, Bucket placed k (bucket_table.cell k) :=
    fun k less => state.bucket k (by omega) (by omega)
  have member : ∀ k < bucket_size.toNat, ∀ key ∈ held (bucket_table.cell k),
      0 ≤ key ∧ key / 10 = k := by
    intro k less key mem
    have found := (bucket k less).kept.mem_iff.mp mem
    rw [List.mem_filter, decide_eq_true_eq] at found
    exact ⟨(inside key found.1).1, found.2⟩
  rw [parts]
  constructor
  · apply parts_ordered fun key : Int => (key / 10).toNat
    · intro x y less
      omega
    · exact fun k less => (bucket k less).ordered
    · intro k less key mem
      have number := member k less key mem
      omega
  · have pieces : ∀ k ∈ List.range bucket_size.toNat, (held (bucket_table.cell (k : Nat))).Perm
        (placed.filter fun key => (key / 10).toNat = k) := by
      intro k mem
      have same : (placed.filter fun key => key / 10 = (k : Int)) =
          placed.filter fun key => (key / 10).toNat = k := by
        apply List.filter_congr
        intro key memKey
        have nonneg := (inside key memKey).1
        rw [decide_eq_decide]
        omega
      rw [← same]
      exact (bucket k (List.mem_range.mp mem)).kept
    have all : placed.filter (fun key => (key / 10).toNat < bucket_size.toNat) = placed := by
      rw [List.filter_eq_self]
      intro key mem
      have bounds := inside key mem
      rw [decide_eq_true_eq]
      omega
    have joined := parts_join (fun key : Int => (key / 10).toNat) bucket_size.toNat placed
    rw [all] at joined
    exact (List.Perm.flatMap_left _ pieces).trans joined

/-- Keys that all have a bucket are put in order, and bucket_table is used inside only. -/
theorem bucketsort_sorts (keys : Int → Int) {size bucket_size : Int} (nonneg : 0 ≤ size)
    (fits : size ≤ INT_MAX) (table_fits : bucket_size ≤ INT_MAX)
    (inside : ∀ j, 0 ≤ j → j < size → 0 ≤ keys j ∧ keys j < 10 * bucket_size) :
    ∃ sorted, (∀ lo hi, lo ≤ 0 → size ≤ hi →
        bucketsort ⟨lo, hi, keys⟩ size bucket_size = some ⟨lo, hi, sorted⟩) ∧
      (∀ i, i < 0 ∨ size ≤ i → sorted i = keys i) ∧
      (stretch sorted 0 (size - 1)).Pairwise (· ≤ ·) ∧
      (stretch sorted 0 (size - 1)).Perm (stretch keys 0 (size - 1)) := by
  obtain ⟨empty, init, state⟩ := init_places_none table_fits
  have start : stretch keys 0 (0 - 1) = [] := stretch_none keys (by omega)
  rw [← start] at state
  obtain ⟨table, placing, placed⟩ := place_all_continues fits inside (le_refl 0) (Or.inr rfl) state
  have bounds : ∀ key ∈ stretch keys 0 (size - 1), 0 ≤ key ∧ key < 10 * bucket_size := by
    intro key mem
    obtain ⟨j, window, same⟩ := mem_stretch.mp mem
    rw [← same]
    exact inside j window.1 (by omega)
  have sorts := rest_sorts placed bounds
  have length : (rest table 0 bucket_size).length = (size - 1 + 1 - 0).toNat := by
    rw [sorts.2.length_eq, stretch_length]
  obtain ⟨sorted, run, outside, content⟩ :=
    @copy_buckets_runs bucket_size 0 0 _ table keys placed table_fits (le_refl 0) (le_refl 0)
      (by omega)
  rw [length] at run outside content
  have same : stretch sorted 0 (size - 1) = rest table 0 bucket_size := by
    rw [← content]
    congr 1
    omega
  refine ⟨sorted, ?_, fun i apart => outside i (by omega), ?_⟩
  · intro lo hi low high
    rw [bucketsort, init, Option.bind_eq_bind, Option.bind_some, placing lo hi low high]
    exact run lo hi low (by omega)
  · rw [same]
    exact sorts

def mainKeys (i : Int) : Int :=
  [81, 94, 11, 96, 12, 35, 17, 95, 28, 58, 41, 75, 15].getD i.toNat 0

theorem main_keys_sorted :
    ∃ sorted, (∀ lo hi, lo ≤ 0 → 13 ≤ hi →
        bucketsort ⟨lo, hi, mainKeys⟩ 13 10 = some ⟨lo, hi, sorted⟩) ∧
      (∀ i, i < 0 ∨ 13 ≤ i → sorted i = mainKeys i) ∧
      (stretch sorted 0 (13 - 1)).Pairwise (· ≤ ·) ∧
      (stretch sorted 0 (13 - 1)).Perm (stretch mainKeys 0 (13 - 1)) := by
  apply bucketsort_sorts mainKeys (by decide) (by decide) (by decide)
  intro j low high
  have bounds : ∀ k : Fin 13, 0 ≤ mainKeys k ∧ mainKeys k < 10 * 10 := by decide
  have here := bounds ⟨j.toNat, by omega⟩
  rwa [Int.toNat_of_nonneg low] at here

end UC.BucketSort
