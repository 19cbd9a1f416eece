import Mathlib.Data.List.Basic

/- Places in a list before which a property holds of no element and behind which it holds
   of all. -/
namespace UC.Cuts

variable {α : Type*}

structure Cut (p : α → Prop) (l : List α) (i : Nat) : Prop where
  before : ∀ a ∈ l.take i, ¬ p a
  behind : ∀ a ∈ l.drop i, p a

variable {p q : α → Prop} {l : List α} {i j : Nat}

/-- Nothing is left between the cut of a property and that of a weaker one when they come
    in the wrong order. -/
theorem cut_meets (imp : ∀ a, q a → p a) (low : Cut p l i) (high : Cut q l j) (less : j < i) :
    l.length ≤ j := by
  by_contra more
  have inside : j < l.length := Nat.lt_of_not_le more
  have taken : l[j] ∈ l.take i := List.mem_take_iff_getElem.mpr ⟨j, by omega, rfl⟩
  have dropped : l[j] ∈ l.drop j := by
    rw [List.drop_eq_getElem_cons inside]
    exact List.mem_cons_self
  exact low.before _ taken (imp _ (high.behind _ dropped))

/-- What has the weaker property is what has it up to the cut of the stronger one, and
    behind that all the rest. -/
theorem cut_between (imp : ∀ a, q a → p a) (low : Cut p l i) (high : Cut q l j) :
    l.drop i = (l.take j).drop i ++ l.drop j := by
  rcases Nat.lt_or_ge j i with less | le
  · have short := cut_meets imp low high less
    rw [List.take_of_length_le short, List.drop_of_length_le short, List.append_nil]
  · conv_lhs => rw [← List.take_append_drop j l]
    rw [List.drop_append, List.length_take]
    rcases Nat.le_total j l.length with inside | short
    · rw [Nat.min_eq_left inside, Nat.sub_eq_zero_of_le le, List.drop_zero]
    · rw [List.drop_of_length_le short, List.drop_nil, List.append_nil]

theorem cut_unique (one : Cut p l i) (other : Cut p l j) : l.drop i = l.drop j := by
  rcases Nat.lt_trichotomy i j with less | rfl | more
  · have short := cut_meets (fun _ => id) other one less
    rw [List.drop_of_length_le short, List.drop_of_length_le (Nat.le_trans short (Nat.le_of_lt less))]
  · rfl
  · have short := cut_meets (fun _ => id) one other more
    rw [List.drop_of_length_le short, List.drop_of_length_le (Nat.le_trans short (Nat.le_of_lt more))]

theorem cut_none (none : ∀ a ∈ l, ¬ p a) : Cut p l l.length := by
  constructor
  · rw [List.take_length]
    exact none
  · intro a mem
    rw [List.drop_length] at mem
    cases mem

theorem cut_all (all : ∀ a ∈ l, p a) : Cut p l 0 := by
  constructor
  · intro a mem
    cases mem
  · exact all

theorem cut_parts {pre post : List α} {e : α} [Decidable (p e)] (low : ∀ a ∈ pre, ¬ p a)
    (high : ∀ a ∈ post, p a) :
    Cut p (pre ++ e :: post) (if p e then pre.length else pre.length + 1) := by
  split
  · next holds =>
    constructor
    · rw [List.take_left' rfl]
      exact low
    · rw [List.drop_left' rfl]
      intro a mem
      rcases List.mem_cons.mp mem with rfl | mem
      · exact holds
      · exact high a mem
  · next fails =>
    have joined : pre ++ e :: post = (pre ++ [e]) ++ post := by
      rw [List.append_assoc, List.singleton_append]
    have count : pre.length + 1 = (pre ++ [e]).length := by
      rw [List.length_append, List.length_singleton]
    rw [joined, count]
    constructor
    · rw [List.take_left' rfl]
      intro a mem
      rcases List.mem_append.mp mem with mem | mem
      · exact low a mem
      · cases List.mem_singleton.mp mem
        exact fails
    · rw [List.drop_left' rfl]
      exact high

end UC.Cuts
