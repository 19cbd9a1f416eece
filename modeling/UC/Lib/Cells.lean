import Mathlib.Algebra.Order.Group.Multiset
import Mathlib.Data.Finset.SDiff
import Mathlib.Data.List.Chain
import Mathlib.Data.Multiset.MapFold

/- Arrays with int indices. The cells that may be used are lo .. hi - 1, and every other
   index is an error; the content as a multiset over a set of indices, and as a list. -/
namespace UC.Cells

variable {ι α : Type*}

def bag (cell : ι → α) (indices : Finset ι) : Multiset α := indices.val.map cell

theorem mem_bag {cell : ι → α} {indices : Finset ι} {v : α} :
    v ∈ bag cell indices ↔ ∃ i ∈ indices, cell i = v := by
  simp [bag]

theorem bag_congr {cell cell' : ι → α} {indices : Finset ι}
    (same : ∀ i ∈ indices, cell i = cell' i) : bag cell indices = bag cell' indices :=
  Multiset.map_congr rfl same

theorem bag_singleton (cell : ι → α) (i : ι) : bag cell {i} = {cell i} := by
  simp [bag]

section
variable [DecidableEq ι]

def set (cell : ι → α) (i : ι) (v : α) : ι → α := fun j => if j = i then v else cell j

@[simp] theorem set_same (cell : ι → α) (i : ι) (v : α) : set cell i v i = v := if_pos rfl

theorem set_other (cell : ι → α) {i j : ι} (v : α) (ne : j ≠ i) : set cell i v j = cell j :=
  if_neg ne

theorem bag_split {part indices : Finset ι} (cell : ι → α) (sub : part ⊆ indices) :
    bag cell indices = bag cell (indices \ part) + bag cell part := by
  have parts : (indices \ part).val + part.val = indices.val := by
    rw [Finset.sdiff_val]
    exact Multiset.sub_add_cancel (Finset.val_le_iff.mpr sub)
  simp only [bag, ← Multiset.map_add, parts]

theorem bag_frame {part indices : Finset ι} {cell cell' : ι → α} (sub : part ⊆ indices)
    (kept : bag cell' part = bag cell part)
    (outside : ∀ i ∈ indices, i ∉ part → cell' i = cell i) :
    bag cell' indices = bag cell indices := by
  have around : bag cell' (indices \ part) = bag cell (indices \ part) := by
    apply bag_congr
    intro i mem
    have apart := Finset.mem_sdiff.mp mem
    exact outside i apart.1 apart.2
  rw [bag_split cell' sub, bag_split cell sub, around, kept]

theorem bag_set (cell : ι → α) {indices : Finset ι} {i : ι} (mem : i ∈ indices) (v : α) :
    bag (set cell i v) indices + {cell i} = bag cell indices + {v} := by
  have sub : {i} ⊆ indices := Finset.singleton_subset_iff.mpr mem
  have around : bag (set cell i v) (indices \ {i}) = bag cell (indices \ {i}) := by
    apply bag_congr
    intro j apart
    have ne : j ≠ i := fun same => (Finset.mem_sdiff.mp apart).2 (Finset.mem_singleton.mpr same)
    exact set_other cell v ne
  rw [bag_split _ sub, bag_split cell sub, around, bag_singleton, bag_singleton, set_same]
  exact add_right_comm _ _ _

/-- The hole goes from i to j: the element of j moves to i. -/
theorem bag_move (cell : ι → α) {indices : Finset ι} {i j : ι} (hi : i ∈ indices)
    (hj : j ∈ indices) (v : α) :
    bag (set (set cell i (cell j)) j v) indices = bag (set cell i v) indices := by
  by_cases same : j = i
  · subst same
    apply bag_congr
    intro k _
    by_cases here : k = j
    · rw [here, set_same, set_same]
    · rw [set_other _ _ here, set_other _ _ here, set_other _ _ here]
  · have atJ := bag_set (set cell i (cell j)) hj v
    rw [set_other cell _ same] at atJ
    have atI := bag_set cell hi (cell j)
    have direct := bag_set cell hi v
    have both : bag (set (set cell i (cell j)) j v) indices + {cell j} + {cell i} =
        bag (set cell i v) indices + {cell j} + {cell i} := by
      rw [atJ, add_right_comm, atI, add_right_comm, ← direct, add_right_comm]
    simpa using both

end

def indices (l r : Int) : Finset Int where
  val := ((List.range (r + 1 - l).toNat).map fun k : Nat => l + k : List Int)
  nodup := by
    apply Multiset.coe_nodup.mpr
    apply List.Nodup.map _ List.nodup_range
    intro a b same
    dsimp only at same
    omega

@[simp] theorem mem_indices {l r i : Int} : i ∈ indices l r ↔ l ≤ i ∧ i ≤ r := by
  change i ∈ (List.range (r + 1 - l).toNat).map (fun k : Nat => l + (k : Int)) ↔ _
  rw [List.mem_map]
  constructor
  · rintro ⟨k, inside, rfl⟩
    rw [List.mem_range] at inside
    omega
  · rintro ⟨low, high⟩
    exact ⟨(i - l).toNat, List.mem_range.mpr (by omega), by omega⟩

theorem indices_subset {l r l' r' : Int} (low : l ≤ l') (high : r' ≤ r) :
    indices l' r' ⊆ indices l r := by
  intro i mem
  rw [mem_indices] at mem ⊢
  omega

/-- The cells l .. r in order. -/
def stretch (cell : Int → α) (l r : Int) : List α :=
  (List.range (r + 1 - l).toNat).map fun k : Nat => cell (l + k)

theorem stretch_bag (cell : Int → α) (l r : Int) :
    (stretch cell l r : Multiset α) = bag cell (indices l r) := by
  rw [bag, indices, Multiset.map_coe, List.map_map]
  rfl

theorem mem_stretch {cell : Int → α} {l r : Int} {v : α} :
    v ∈ stretch cell l r ↔ ∃ i, (l ≤ i ∧ i ≤ r) ∧ cell i = v := by
  rw [← Multiset.mem_coe, stretch_bag, mem_bag]
  simp only [mem_indices]

theorem stretch_none (cell : Int → α) {l r : Int} (none : r < l) : stretch cell l r = [] := by
  have empty : (r + 1 - l).toNat = 0 := by omega
  rw [stretch, empty]
  rfl

theorem stretch_head (cell : Int → α) {l r : Int} (nonempty : l ≤ r) :
    (stretch cell l r).head? = some (cell l) := by
  have pos : (r + 1 - l).toNat ≠ 0 := by omega
  simp [stretch, List.head?_range, pos]

theorem stretch_last (cell : Int → α) {l r : Int} (nonempty : l ≤ r) :
    (stretch cell l r).getLast? = some (cell r) := by
  have pos : (r + 1 - l).toNat ≠ 0 := by omega
  have last : l + ((r + 1 - l).toNat - 1 : Nat) = r := by omega
  simp [stretch, List.getLast?_range, pos, last]

theorem stretch_length (cell : Int → α) (l r : Int) :
    (stretch cell l r).length = (r + 1 - l).toNat := by
  simp [stretch]

theorem stretch_cons (cell : Int → α) {l r : Int} (nonempty : l ≤ r) :
    stretch cell l r = cell l :: stretch cell (l + 1) r := by
  have size : (r + 1 - l).toNat = (r + 1 - (l + 1)).toNat + 1 := by omega
  rw [stretch, size, List.range_succ_eq_map, List.map_cons, List.map_map, stretch]
  congr 1
  · simp
  · apply List.map_congr_left
    intro k _
    change cell (l + (k + 1 : Nat)) = _
    congr 1
    omega

theorem stretch_append (cell : Int → α) {l m r : Int} (low : l ≤ m) (high : m ≤ r + 1) :
    stretch cell l (m - 1) ++ stretch cell m r = stretch cell l r := by
  induction distance : (m - l).toNat generalizing l with
  | zero =>
    have same : l = m := by omega
    rw [same, stretch_none cell (by omega), List.nil_append]
  | succ d ih =>
    rw [stretch_cons cell (by omega), List.cons_append, ih (by omega) (by omega),
      ← stretch_cons cell (by omega)]

theorem stretch_congr {cell cell' : Int → α} {l r : Int}
    (same : ∀ i, l ≤ i → i ≤ r → cell i = cell' i) : stretch cell l r = stretch cell' l r := by
  apply List.map_congr_left
  intro k inside
  rw [List.mem_range] at inside
  exact same _ (by omega) (by omega)

theorem cells_of_stretch {cell cell' : Int → α} {l r i : Int}
    (same : stretch cell l r = stretch cell' l r) (low : l ≤ i) (high : i ≤ r) :
    cell i = cell' i := by
  have here : l + ((i - l).toNat : Int) = i := by omega
  have atI := List.map_inj_left.mp same (i - l).toNat (List.mem_range.mpr (by omega))
  rwa [here] at atI

/-- v is put into cell l first, and then nothing changes but cells behind it up to r. -/
theorem stretch_filled {filled cell : Int → α} {l r : Int} {v : α} (nonempty : l ≤ r)
    (outside : ∀ i, i < l + 1 ∨ r < i → filled i = set cell l v i) :
    stretch filled l r = v :: stretch filled (l + 1) r ∧
      ∀ i, i < l ∨ r < i → filled i = cell i := by
  constructor
  · have here : filled l = v := by
      rw [outside l (by omega), set_same]
    rw [stretch_cons filled nonempty, here]
  · intro i apart
    rw [outside i (by omega), set_other _ _ (by omega)]

theorem stretch_chain {R : α → α → Prop} {cell : Int → α} {l r : Int}
    (step : ∀ i, l ≤ i → i < r → R (cell i) (cell (i + 1))) : (stretch cell l r).IsChain R := by
  rw [List.isChain_iff_getElem]
  intro k inside
  rw [stretch_length] at inside
  have next : l + ((k + 1 : Nat) : Int) = l + k + 1 := by omega
  simp only [stretch, List.getElem_map, List.getElem_range, next]
  exact step (l + k) (by omega) (by omega)

/-- An array that may be used from cell lo to cell hi - 1. -/
structure Arr (α : Type*) where
  lo : Int
  hi : Int
  cell : Int → α

def load (a : Arr α) (i : Int) : Option α :=
  if a.lo ≤ i ∧ i < a.hi then some (a.cell i) else none

def put (a : Arr α) (i : Int) (v : α) : Arr α := { a with cell := set a.cell i v }

def save (a : Arr α) (i : Int) (v : α) : Option (Arr α) :=
  if a.lo ≤ i ∧ i < a.hi then some (put a i v) else none

def filled (n : Int) (v : α) : Arr α := { lo := 0, hi := n, cell := fun _ => v }

def pushBack (a : Arr α) (v : α) : Arr α := { a with hi := a.hi + 1, cell := set a.cell a.hi v }

theorem load_inside {a : Arr α} {i : Int} (low : a.lo ≤ i) (high : i < a.hi) :
    load a i = some (a.cell i) := if_pos ⟨low, high⟩

theorem load_some {a : Arr α} {i : Int} {v : α} (loaded : load a i = some v) :
    a.lo ≤ i ∧ i < a.hi ∧ a.cell i = v := by
  unfold load at loaded
  split at loaded
  · rename_i inside
    exact ⟨inside.1, inside.2, Option.some.inj loaded⟩
  · cases loaded

theorem save_inside {a : Arr α} {i : Int} (low : a.lo ≤ i) (high : i < a.hi) (v : α) :
    save a i v = some (put a i v) := if_pos ⟨low, high⟩

@[simp] theorem put_cell (a : Arr α) (i : Int) (v : α) :
    (put a i v).cell = set a.cell i v := rfl

/-- An array whose cells are 0 .. n - 1. -/
structure Spans (a : Arr α) (n : Int) : Prop where
  lo : a.lo = 0
  hi : a.hi = n

theorem filled_spans (n : Int) (v : α) : Spans (filled n v) n := ⟨rfl, rfl⟩

theorem put_spans {a : Arr α} {n : Int} (spans : Spans a n) (i : Int) (v : α) :
    Spans (put a i v) n := ⟨spans.lo, spans.hi⟩

theorem push_spans {a : Arr α} {n : Int} (spans : Spans a n) (v : α) :
    Spans (pushBack a v) (n + 1) := ⟨spans.lo, by rw [← spans.hi]; rfl⟩

theorem load_spans {a : Arr α} {n i : Int} (spans : Spans a n) (low : 0 ≤ i) (high : i < n) :
    load a i = some (a.cell i) :=
  load_inside (spans.lo ▸ low) (spans.hi ▸ high)

theorem save_spans {a : Arr α} {n i : Int} (spans : Spans a n) (low : 0 ≤ i) (high : i < n)
    (v : α) : save a i v = some (put a i v) :=
  save_inside (spans.lo ▸ low) (spans.hi ▸ high) v

end UC.Cells
