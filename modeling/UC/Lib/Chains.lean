import Mathlib.Data.List.Basic

/- Sequences whose parts are linked: each part ends in a pointer to the beginning of the
   next, the last one in a given tail. -/
namespace UC.Chains

variable {α β P : Type*}

/-- Where the first part begins; the tail when there is none. -/
def headOr (first : α → P) : List α → Option P → Option P
  | [], tail => tail
  | a :: _, _ => some (first a)

/-- R a e says that part a ends in the pointer e. -/
def Linked (R : α → Option P → Prop) (first : α → P) : List α → Option P → Prop
  | [], _ => True
  | a :: rest, tail => R a (headOr first rest tail) ∧ Linked R first rest tail

variable {R S : α → Option P → Prop} {first : α → P}

theorem head_or_cons (a : α) (xs : List α) (tail : Option P) :
    headOr first (a :: xs) tail = some (first a) := rfl

theorem head_or_append (xs ys : List α) (tail : Option P) :
    headOr first (xs ++ ys) tail = headOr first xs (headOr first ys tail) := by
  cases xs <;> rfl

theorem linked_append (xs ys : List α) (tail : Option P) :
    Linked R first (xs ++ ys) tail ↔
      Linked R first xs (headOr first ys tail) ∧ Linked R first ys tail := by
  induction xs with
  | nil => exact (and_iff_right trivial).symm
  | cons a xs ih =>
    simp only [List.cons_append, Linked, head_or_append, ih]
    exact and_assoc.symm

theorem linked_middle (xs ys : List α) (a : α) (tail : Option P) :
    Linked R first (xs ++ a :: ys) tail ↔
      Linked R first xs (some (first a)) ∧ R a (headOr first ys tail) ∧
        Linked R first ys tail := by
  rw [linked_append]
  exact Iff.rfl

theorem linked_imp {xs : List α} {tail : Option P} (imp : ∀ a ∈ xs, ∀ e, R a e → S a e)
    (linked : Linked R first xs tail) : Linked S first xs tail := by
  induction xs with
  | nil => trivial
  | cons a xs ih =>
    obtain ⟨here, later⟩ := linked
    constructor
    · exact imp a List.mem_cons_self _ here
    · exact ih (fun b mem => imp b (List.mem_cons_of_mem a mem)) later

theorem linked_mem {xs : List α} {tail : Option P} (linked : Linked R first xs tail) {a : α}
    (mem : a ∈ xs) : ∃ e, R a e := by
  obtain ⟨before, behind, rfl⟩ := List.append_of_mem mem
  exact ⟨_, ((linked_middle before behind a tail).mp linked).2.1⟩

theorem linked_flat_map {first' : β → P} {S : β → Option P → Prop} {f : α → List β} {xs : List α}
    {tail : Option P}
    (each : ∀ a ∈ xs, ∀ e, R a e →
      Linked S first' (f a) e ∧ headOr first' (f a) e = some (first a))
    (linked : Linked R first xs tail) :
    Linked S first' (xs.flatMap f) tail ∧
      headOr first' (xs.flatMap f) tail = headOr first xs tail := by
  induction xs with
  | nil => exact ⟨trivial, rfl⟩
  | cons a rest ih =>
    obtain ⟨here, later⟩ := linked
    obtain ⟨chained, start⟩ := ih (fun b mem => each b (List.mem_cons_of_mem _ mem)) later
    rw [← start] at here
    obtain ⟨front, front_start⟩ := each a List.mem_cons_self _ here
    rw [List.flatMap_cons, linked_append, head_or_append]
    exact ⟨⟨front, chained⟩, front_start⟩

end UC.Chains
