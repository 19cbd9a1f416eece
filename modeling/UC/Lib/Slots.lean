import Mathlib.Order.Lattice
import UC.Lib.Loops
import UC.Lib.Memory

/- Arrays of slots of which the first n are in use: the shifting loops that make room for
   an element or close the gap it leaves. -/
namespace UC.Slots
open UC.Memory UC.Loops

variable {α : Type*}

/-- Slots i .. n - 1 moved up by one; slot i keeps its value. -/
def shiftUp (m : Mem α) (i n : Nat) : Mem α := fun x => if i < x ∧ x ≤ n then m (x - 1) else m x

/-- Element v put into slot i of n used ones. -/
def insertAt (m : Mem α) (i n : Nat) (v : α) : Mem α := store (shiftUp m i n) i v

/-- Slots i + 1 .. n moved down by one. -/
def shiftDown (m : Mem α) (i n : Nat) : Mem α := fun x => if i ≤ x ∧ x < n then m (x + 1) else m x

theorem shift_up_none (m : Mem α) (n : Nat) : shiftUp m n n = m := by
  funext x
  exact if_neg (by omega)

theorem shift_up_below (m : Mem α) {i n x : Nat} (h : x ≤ i) : shiftUp m i n x = m x :=
  if_neg (by omega)

theorem shift_up_step (m : Mem α) {i n : Nat} (h : i < n) :
    store (shiftUp m (i + 1) n) (i + 1) (m i) = shiftUp m i n := by
  funext x
  by_cases here : x = i + 1
  · subst here
    rw [store_same, shiftUp, if_pos (by omega), Nat.add_sub_cancel]
  · rw [store_other _ _ here, shiftUp, shiftUp]
    split <;> split <;> first | rfl | omega

theorem insert_here (m : Mem α) (i n : Nat) (v : α) : insertAt m i n v i = v := store_same _ _ _

theorem insert_before (m : Mem α) {i x : Nat} (n : Nat) (v : α) (h : x < i) :
    insertAt m i n v x = m x := by
  rw [insertAt, store_other _ _ (by omega), shift_up_below m (by omega)]

theorem insert_behind (m : Mem α) {i n x : Nat} (v : α) (h : i ≤ x) (used : x < n) :
    insertAt m i n v (x + 1) = m x := by
  rw [insertAt, store_other _ _ (by omega), shiftUp, if_pos (by omega), Nat.add_sub_cancel]

theorem shift_down_none (m : Mem α) (i : Nat) : shiftDown m i i = m := by
  funext x
  exact if_neg (by omega)

theorem shift_down_at (m : Mem α) {i n x : Nat} (h : i ≤ x) (used : x < n) :
    shiftDown m i n x = m (x + 1) := if_pos ⟨h, used⟩

theorem shift_down_above (m : Mem α) {i n x : Nat} (h : n ≤ x) : shiftDown m i n x = m x :=
  if_neg (by omega)

theorem shift_down_step (m : Mem α) {i n : Nat} (h : i ≤ n) :
    store (shiftDown m i n) n (m (n + 1)) = shiftDown m i (n + 1) := by
  funext x
  by_cases here : x = n
  · subst here
    rw [store_same, shiftDown, if_pos (by omega)]
  · rw [store_other _ _ here, shiftDown, shiftDown]
    split <;> split <;> first | rfl | omega

theorem copy_none (dst src : Mem α) (s : Nat) : memcpy dst 0 src s 0 = dst := by
  funext x
  exact if_neg (by omega)

theorem copy_step (dst src : Mem α) (s n : Nat) :
    store (memcpy dst 0 src s n) n (src (n + s)) = memcpy dst 0 src s (n + 1) := by
  funext x
  by_cases here : x = n
  · subst here
    have inside := @memcpy_inside α dst src 0 s (x + 1) x (by omega)
    rw [Nat.zero_add] at inside
    rw [store_same, inside, Nat.add_comm]
  · rw [store_other _ _ here, memcpy, memcpy]
    split <;> split <;> first | rfl | omega

/-- A loop that copies slot by slot into one part of the state. -/
theorem for_loop_copies {σ : Type*} {body : Nat → σ → Option σ} {put : Mem α → σ}
    {src : Mem α} {s count : Nat}
    (step : ∀ i < count, ∀ m, body i (put m) = some (put (store m i (src (i + s)))))
    (dst : Mem α) :
    forLoop body count (put dst) = some (put (memcpy dst 0 src s count)) := by
  induction count with
  | zero => rw [copy_none, forLoop]
  | succ n ih =>
    rw [forLoop, ih fun i hi => step i (Nat.lt_succ_of_lt hi), Option.bind_some,
      step n (Nat.lt_succ_self n), copy_step]

theorem slice_zero (m : Mem α) (a : Nat) : slice m a 0 = [] := rfl

theorem slice_cons (m : Mem α) (a n : Nat) : slice m a (n + 1) = m a :: slice m (a + 1) n := by
  rw [Nat.add_comm n 1, slice_add]
  simp [slice]

theorem slice_split (m : Mem α) {i n : Nat} (h : i ≤ n) :
    slice m 0 n = slice m 0 i ++ slice m i (n - i) := by
  obtain ⟨r, rfl⟩ := Nat.exists_eq_add_of_le h
  rw [slice_add, Nat.add_sub_cancel_left, Nat.zero_add]

theorem slice_drop (m : Mem α) {i n : Nat} (h : i ≤ n) :
    (slice m 0 n).drop i = slice m i (n - i) := by
  rw [slice_split m h, List.drop_left' (slice_length m 0 i)]

theorem slice_succ (m : Mem α) (a n : Nat) : slice m a (n + 1) = slice m a n ++ [m (a + n)] := by
  rw [slice_add, slice_cons, slice_zero]

theorem mem_slice {m : Mem α} {a n : Nat} {v : α} : v ∈ slice m a n ↔ ∃ i < n, m (a + i) = v := by
  simp only [slice, List.mem_map, List.mem_range]

theorem pairwise_slice {R : α → α → Prop} {m : Mem α} {n : Nat} :
    (slice m 0 n).Pairwise R ↔ ∀ i j, i < j → j < n → R (m i) (m j) := by
  unfold slice
  rw [List.pairwise_map, List.pairwise_iff_getElem]
  simp only [List.length_range, List.getElem_range, Nat.zero_add]
  constructor
  · intro all i j less inside
    exact all i j (Nat.lt_trans less inside) inside less
  · intro all i j _ inside less
    exact all i j less inside

/-- Used slots in order stay in order when an element is put behind the last that is not
    above it. -/
theorem insert_sorted [LinearOrder α] {m : Mem α} {i n : Nat} {v : α} (le : i ≤ n)
    (sorted : (slice m 0 n).Pairwise (· ≤ ·)) (above : ∀ j, i ≤ j → j < n → v < m j)
    (below : ∀ j, j + 1 = i → m j ≤ v) :
    ((slice m 0 n).take i ++ v :: (slice m 0 n).drop i).Pairwise (· ≤ ·) := by
  have mono := pairwise_slice.mp sorted
  have before : ∀ x ∈ (slice m 0 n).take i, x ≤ v := by
    intro x mem
    rw [slice_take, Nat.min_eq_right le] at mem
    obtain ⟨j, hj, rfl⟩ := mem_slice.mp mem
    rw [Nat.zero_add]
    obtain ⟨l, rfl⟩ := Nat.exists_eq_succ_of_ne_zero (Nat.ne_of_gt (Nat.zero_lt_of_lt hj))
    rcases Nat.eq_or_lt_of_le (Nat.le_of_lt_succ hj) with rfl | less
    · exact below j rfl
    · exact le_trans (mono j l less le) (below l rfl)
  have behind : ∀ x ∈ (slice m 0 n).drop i, v < x := by
    intro x mem
    rw [slice_drop m le] at mem
    obtain ⟨j, hj, rfl⟩ := mem_slice.mp mem
    exact above (i + j) (Nat.le_add_right i j) (by omega)
  rw [List.pairwise_append, List.pairwise_cons]
  refine ⟨sorted.sublist (List.take_sublist _ _), ⟨?_, sorted.sublist (List.drop_sublist _ _)⟩, ?_⟩
  · intro x mem
    exact le_of_lt (behind x mem)
  · intro x mem y mem'
    rcases List.mem_cons.mp mem' with rfl | mem'
    · exact before x mem
    · exact le_trans (before x mem) (le_of_lt (behind y mem'))

theorem parts_at {l : List α} {i : Nat} (inside : i < l.length) :
    ∃ pre a post, l = pre ++ a :: post ∧ pre.length = i := by
  refine ⟨l.take i, l[i], l.drop (i + 1), ?_, ?_⟩
  · rw [List.getElem_cons_drop, List.take_append_drop]
  · rw [List.length_take]
    omega

theorem slice_parts {m : Mem α} {n : Nat} {l r : List α} {v : α}
    (used : slice m 0 n = l ++ v :: r) :
    n = l.length + (r.length + 1) ∧ slice m 0 l.length = l ∧ m l.length = v ∧
      slice m (l.length + 1) r.length = r := by
  have count := congrArg List.length used
  rw [slice_length, List.length_append, List.length_cons] at count
  rw [count, slice_add, slice_cons, Nat.zero_add] at used
  obtain ⟨before, behind⟩ := List.append_inj used (slice_length m 0 l.length)
  obtain ⟨here, after⟩ := List.cons.inj behind
  exact ⟨count, before, here, after⟩

theorem slice_insert (m : Mem α) {i n : Nat} (v : α) (h : i ≤ n) :
    slice (insertAt m i n v) 0 (n + 1) = (slice m 0 n).take i ++ v :: (slice m 0 n).drop i := by
  have below : slice (insertAt m i n v) 0 i = slice m 0 i := by
    apply slice_congr
    intro x hx
    rw [insertAt, store_other _ _ (by omega), shift_up_below m (by omega)]
  have above : slice (insertAt m i n v) (i + 1) (n - i) = slice m i (n - i) := by
    apply slice_congr
    intro x hx
    rw [insertAt, store_other _ _ (by omega), shiftUp, if_pos (by omega)]
    congr 1
    omega
  rw [slice_split _ (show i ≤ n + 1 by omega), below, show n + 1 - i = n - i + 1 by omega,
    slice_cons, above, insertAt, store_same, slice_take, slice_drop m h, Nat.min_eq_right h]

theorem slice_remove (m : Mem α) {i n : Nat} (h : i ≤ n) :
    slice (shiftDown m i n) 0 n = slice m 0 i ++ slice m (i + 1) (n - i) := by
  have below : slice (shiftDown m i n) 0 i = slice m 0 i := by
    apply slice_congr
    intro x hx
    exact if_neg (by omega)
  have above : slice (shiftDown m i n) i (n - i) = slice m (i + 1) (n - i) := by
    apply slice_congr
    intro x hx
    rw [shiftDown, if_pos (by omega)]
    congr 1
    omega
  rw [slice_split _ h, below, above]

theorem slice_erase (m : Mem α) {i n : Nat} (used : i < n) :
    slice (shiftDown m i (n - 1)) 0 (n - 1) = (slice m 0 n).eraseIdx i := by
  rw [slice_remove m (show i ≤ n - 1 by omega), List.eraseIdx_eq_take_drop_succ, slice_take,
    slice_drop m (show i + 1 ≤ n by omega), Nat.min_eq_right (Nat.le_of_lt used),
    show n - 1 - i = n - (i + 1) by omega]

theorem slice_remove_parts {m : Mem α} {n : Nat} {l r : List α} {v : α}
    (used : slice m 0 n = l ++ v :: r) :
    slice (shiftDown m l.length (n - 1)) 0 (n - 1) = l ++ r := by
  obtain ⟨rfl, before, _, behind⟩ := slice_parts used
  rw [← Nat.add_assoc, Nat.add_sub_cancel, slice_remove _ (Nat.le_add_right _ _),
    Nat.add_sub_cancel_left, before, behind]

end UC.Slots
