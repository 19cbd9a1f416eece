import Mathlib.Data.List.Basic
import Mathlib.Data.List.Count
import Mathlib.Order.Basic

/- Lists of words over an alphabet, cut by their first letter: what is behind a letter, and
   the words of all letters put together again in lexicographic order. -/
namespace UC.Tails

variable {α : Type*}

section Cut

variable [DecidableEq α]

def tail (c : α) : List α → Option (List α)
  | [] => none
  | d :: rest => if d = c then some rest else none

def tails (c : α) (ws : List (List α)) : List (List α) := ws.filterMap (tail c)

variable {c d : α} {w rest : List α} {ws vs : List (List α)}

@[simp] theorem tail_iff : tail c rest = some w ↔ rest = c :: w := by
  cases rest with
  | nil => simp [tail]
  | cons d rest => by_cases same : d = c <;> simp [tail, same]

@[simp] theorem tails_nil : tails c [] = [] := rfl

@[simp] theorem tails_append : tails c (ws ++ vs) = tails c ws ++ tails c vs := by simp [tails]

@[simp] theorem tails_ended : tails c ([] :: ws) = tails c ws := rfl

@[simp] theorem tails_same : tails c ((c :: w) :: ws) = w :: tails c ws := by
  simp [tails, tail]

theorem tails_other (other : d ≠ c) : tails c ((d :: w) :: ws) = tails c ws := by
  simp [tails, tail, other]

theorem mem_tails : w ∈ tails c ws ↔ c :: w ∈ ws := by simp [tails]

theorem length_tails_le : (tails c ws).length ≤ ws.length := List.length_filterMap_le _ _

theorem count_prefix_tails :
    (tails c ws).countP (fun v => w <+: v) = ws.countP fun v => c :: w <+: v := by
  induction ws with
  | nil => rfl
  | cons v ws ih =>
    cases v with
    | nil => simpa using ih
    | cons d v =>
      by_cases same : d = c
      · subst same
        simpa [List.countP_cons] using ih
      · have other : ¬ c = d := fun h => same h.symm
        simpa [tails_other same, List.countP_cons, other] using ih

theorem count_ended : ws.count [] + ws.countP (fun v => v ≠ []) = ws.length := by
  induction ws with
  | nil => rfl
  | cons v ws ih =>
    cases v with
    | nil =>
      simp only [List.count_cons_self, ne_eq, not_true_eq_false, decide_false,
        Bool.false_eq_true, not_false_eq_true, List.countP_cons_of_neg, List.length_cons] at ih ⊢
      omega
    | cons d v =>
      simp only [ne_eq, reduceCtorEq, not_false_eq_true, List.count_cons_of_ne, decide_true,
        List.countP_cons_of_pos, List.length_cons] at ih ⊢
      omega

end Cut

variable [LT α] {letters : List α} {behind : α → List (List α)}

theorem pairwise_words (sorted : letters.Pairwise (· < ·))
    (each : ∀ c ∈ letters, (behind c).Pairwise (· < ·)) :
    (letters.flatMap fun c => (behind c).map (c :: ·)).Pairwise (· < ·) := by
  apply List.pairwise_flatMap.mpr
  constructor
  · intro c member
    apply List.pairwise_map.mpr
    exact (each c member).imp fun less => List.cons_lt_cons_iff.mpr (.inr ⟨rfl, less⟩)
  · apply sorted.imp
    intro c d less v first w second
    obtain ⟨v, _, here⟩ := List.mem_map.mp first
    obtain ⟨w, _, there⟩ := List.mem_map.mp second
    rw [← here, ← there]
    exact List.cons_lt_cons_iff.mpr (.inl less)

end UC.Tails
