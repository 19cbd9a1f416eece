import UC.Lib.Chains

/- Doubly linked lists: forward by next to a given end, backward by prev to a given front.
   Changing the last next or the first prev pointer re-joins a part to other neighbours. -/
namespace UC.DoublyLinked
open UC.Chains

variable {α : Type*}

/-- next leads from each part to the one behind it and from the last one to tail. -/
def Forward (next : α → Option α) (l : List α) (tail : Option α) : Prop :=
  Linked (fun a e => next a = e) id l tail

/-- prev leads from each part to the one before it and from the first one to front. -/
def Backward (prev : α → Option α) : Option α → List α → Prop
  | _, [] => True
  | front, a :: l => prev a = front ∧ Backward prev (some a) l

/-- The last part; front when there is none. -/
def lastOr : Option α → List α → Option α
  | front, [] => front
  | _, a :: l => lastOr (some a) l

variable {next next' prev prev' : α → Option α} {front front' tail tail' : Option α}
  {a b : α} {xs ys : List α}

theorem last_or_append (front : Option α) (xs ys : List α) :
    lastOr front (xs ++ ys) = lastOr (lastOr front xs) ys := by
  induction xs generalizing front with
  | nil => rfl
  | cons a xs ih => exact ih (some a)

theorem last_or_concat (front : Option α) (xs : List α) (a : α) :
    lastOr front (xs ++ [a]) = some a := by
  rw [last_or_append]
  rfl

theorem last_or_none (none_last : lastOr front xs = none) : xs = [] := by
  induction xs generalizing front with
  | nil => rfl
  | cons a xs ih =>
    have empty := ih none_last
    rw [empty] at none_last
    cases none_last

/-- The front counts for the empty list only. -/
theorem last_or_front (front front' : Option α) (some_part : xs ≠ []) :
    lastOr front xs = lastOr front' xs := by
  cases xs with
  | nil => exact absurd rfl some_part
  | cons a xs => rfl

theorem forward_append : Forward next (xs ++ ys) tail ↔
    Forward next xs (headOr id ys tail) ∧ Forward next ys tail :=
  linked_append xs ys tail

theorem forward_same (agree : ∀ x ∈ xs, next' x = next x) (forward : Forward next xs tail) :
    Forward next' xs tail :=
  linked_imp (fun x inside _ there => (agree x inside).trans there) forward

theorem forward_redirect (agree : ∀ x ∈ xs, next' x = next x) (last : next' a = tail')
    (forward : Forward next (xs ++ [a]) tail) : Forward next' (xs ++ [a]) tail' := by
  have parts := forward_append.mp forward
  exact forward_append.mpr ⟨forward_same agree parts.1, last, trivial⟩

theorem forward_concat (agree : ∀ x ∈ xs, next' x = next x) (joined : next' a = some b)
    (last : next' b = tail) (forward : Forward next (xs ++ [a]) tail') :
    Forward next' (xs ++ [a] ++ [b]) tail :=
  forward_append.mpr ⟨forward_redirect agree joined forward, last, trivial⟩

theorem forward_remove (agree : ∀ x ∈ xs ++ ys, next' x = next x)
    (joined : next' a = headOr id ys tail) (forward : Forward next (xs ++ [a] ++ b :: ys) tail) :
    Forward next' (xs ++ [a] ++ ys) tail := by
  have parts := forward_append.mp forward
  apply forward_append.mpr
  constructor
  · exact forward_redirect (fun x inside => agree x (List.mem_append_left _ inside)) joined parts.1
  · exact forward_same (fun x inside => agree x (List.mem_append_right _ inside)) parts.2.2

theorem backward_append : Backward prev front (xs ++ ys) ↔
    Backward prev front xs ∧ Backward prev (lastOr front xs) ys := by
  induction xs generalizing front with
  | nil => exact (and_iff_right trivial).symm
  | cons a xs ih =>
    simp only [List.cons_append, Backward, ih, lastOr]
    exact and_assoc.symm

theorem backward_same (agree : ∀ x ∈ xs, prev' x = prev x) (backward : Backward prev front xs) :
    Backward prev' front xs := by
  induction xs generalizing front with
  | nil => trivial
  | cons a xs ih =>
    constructor
    · exact (agree a List.mem_cons_self).trans backward.1
    · exact ih (fun x inside => agree x (List.mem_cons_of_mem _ inside)) backward.2

theorem backward_redirect (agree : ∀ x ∈ xs, prev' x = prev x) (first : prev' a = front')
    (backward : Backward prev front (a :: xs)) : Backward prev' front' (a :: xs) :=
  ⟨first, backward_same agree backward.2⟩

theorem backward_remove (agree : ∀ x ∈ xs ++ ys, prev' x = prev x)
    (joined : prev' a = lastOr front xs) (backward : Backward prev front (xs ++ b :: a :: ys)) :
    Backward prev' front (xs ++ a :: ys) := by
  have parts := backward_append.mp backward
  apply backward_append.mpr
  constructor
  · exact backward_same (fun x inside => agree x (List.mem_append_left _ inside)) parts.1
  · exact backward_redirect (fun x inside => agree x (List.mem_append_right _ inside)) joined
      parts.2.2

theorem backward_concat (agree : ∀ x ∈ xs, prev' x = prev x) (last : prev' b = lastOr front xs)
    (backward : Backward prev front xs) : Backward prev' front (xs ++ [b]) :=
  backward_append.mpr ⟨backward_same agree backward, last, trivial⟩

theorem head_or_behind (xs : List α) (a : α) (ys zs : List α) (tail : Option α) :
    headOr id (xs ++ [a] ++ ys) tail = headOr id (xs ++ [a] ++ zs) tail := by
  cases xs <;> rfl

theorem head_or_some (joined : headOr id xs none = some a) : ∃ ys, xs = a :: ys := by
  cases xs with
  | nil => cases joined
  | cons x ys => exact ⟨ys, congrArg (· :: ys) (Option.some.inj joined)⟩

theorem head_or_none (joined : headOr id xs none = none) : xs = [] := by
  cases xs with
  | nil => rfl
  | cons x ys => cases joined

end UC.DoublyLinked
