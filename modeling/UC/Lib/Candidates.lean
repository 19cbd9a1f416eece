import Mathlib.Algebra.GroupWithZero.Nat
import Mathlib.Data.Nat.Count
import Mathlib.Data.Set.Card
import UC.Lib.Memory

/- Tables that keep the entry of a key in one of the slots the key names. As long as no key
   has two slots, the entries are a map, and looking through the slots of a key reads it. -/
namespace UC.Candidates
open UC.Memory

variable {κ β : Type*}

/-- The map of the entries; slots are the slots that a key names. -/
structure Holds (slots : κ → List Nat) (entries : Mem (Option (κ × β))) (map : κ → Option β) :
    Prop where
  placed : ∀ p key value, entries p = some (key, value) → p ∈ slots key
  unique : ∀ p q key value other,
    entries p = some (key, value) → entries q = some (key, other) → p = q
  agrees : ∀ key value, map key = some value ↔ ∃ p, entries p = some (key, value)

variable {slots : κ → List Nat} {entries : Mem (Option (κ × β))} {map : κ → Option β}

theorem holds_empty : Holds slots (fun _ => none : Mem (Option (κ × β))) fun _ => none := by
  constructor
  · intro p key value held
    cases held
  · intro p q key value other held
    cases held
  · intro key value
    simp

theorem absent_iff (holds : Holds slots entries map) (key : κ) :
    map key = none ↔ ∀ p ∈ slots key, ∀ value, entries p ≠ some (key, value) := by
  constructor
  · intro absent p _ value held
    have present := (holds.agrees key value).mpr ⟨p, held⟩
    rw [absent] at present
    cases present
  · intro nowhere
    cases bound : map key with
    | none => rfl
    | some value =>
      obtain ⟨p, held⟩ := (holds.agrees key value).mp bound
      exact absurd held (nowhere p (holds.placed p key value held) value)

theorem store_held {p q : Nat} {entry : Option (κ × β)} {key : κ} {value : β}
    (held : store entries p entry q = some (key, value)) :
    q = p ∧ entry = some (key, value) ∨ q ≠ p ∧ entries q = some (key, value) := by
  by_cases here : q = p
  · subst here
    rw [store_same] at held
    exact .inl ⟨rfl, held⟩
  · rw [store_other entries entry here] at held
    exact .inr ⟨here, held⟩

section Update
variable [DecidableEq κ]

theorem holds_insert (holds : Holds slots entries map) {key : κ} {p : Nat} (absent : map key = none)
    (candidate : p ∈ slots key) (free : entries p = none) (value : β) :
    Holds slots (store entries p (some (key, value))) (Function.update map key (some value)) := by
  have nowhere : ∀ q v, entries q ≠ some (key, v) := by
    intro q v held
    have present := (holds.agrees key v).mpr ⟨q, held⟩
    rw [absent] at present
    cases present
  constructor
  · intro q k v held
    rcases store_held held with ⟨rfl, same⟩ | ⟨_, held⟩
    · cases same
      exact candidate
    · exact holds.placed q k v held
  · intro q r k v w first second
    rcases store_held first with ⟨rfl, new⟩ | ⟨_, at_q⟩
    · cases new
      rcases store_held second with ⟨rfl, _⟩ | ⟨_, at_r⟩
      · rfl
      · exact absurd at_r (nowhere r w)
    · rcases store_held second with ⟨_, new⟩ | ⟨_, at_r⟩
      · cases new
        exact absurd at_q (nowhere q v)
      · exact holds.unique q r k v w at_q at_r
  · intro k v
    by_cases same : k = key
    · subst same
      rw [Function.update_self]
      constructor
      · rintro ⟨⟩
        exact ⟨p, store_same _ _ _⟩
      · rintro ⟨q, held⟩
        rcases store_held held with ⟨_, stored⟩ | ⟨_, held⟩
        · cases stored
          rfl
        · exact absurd held (nowhere q v)
    · rw [Function.update_of_ne same, holds.agrees]
      constructor
      · rintro ⟨q, held⟩
        have elsewhere : q ≠ p := by
          rintro rfl
          rw [free] at held
          cases held
        exact ⟨q, by rw [store_other _ _ elsewhere]; exact held⟩
      · rintro ⟨q, held⟩
        rcases store_held held with ⟨_, stored⟩ | ⟨_, held⟩
        · cases stored
          exact absurd rfl same
        · exact ⟨q, held⟩

theorem holds_erase (holds : Holds slots entries map) {key : κ} {p : Nat} {value : β}
    (held : entries p = some (key, value)) :
    Holds slots (store entries p none) (Function.update map key none) := by
  have kept : ∀ q k v, store entries p none q = some (k, v) → q ≠ p ∧ entries q = some (k, v) := by
    intro q k v after
    rcases store_held after with ⟨_, gone⟩ | before
    · cases gone
    · exact before
  constructor
  · intro q k v after
    exact holds.placed q k v (kept q k v after).2
  · intro q r k v w first second
    exact holds.unique q r k v w (kept q k v first).2 (kept r k w second).2
  · intro k v
    by_cases same : k = key
    · subst same
      rw [Function.update_self]
      constructor
      · rintro ⟨⟩
      · rintro ⟨q, after⟩
        have before := kept q k v after
        exact absurd (holds.unique q p k v value before.2 held) before.1
    · rw [Function.update_of_ne same, holds.agrees]
      constructor
      · rintro ⟨q, before⟩
        have elsewhere : q ≠ p := by
          rintro rfl
          rw [held] at before
          cases before
          exact same rfl
        exact ⟨q, by rw [store_other _ _ elsewhere]; exact before⟩
      · rintro ⟨q, after⟩
        exact ⟨q, (kept q k v after).2⟩

end Update

def occupied (entries : Mem (Option (κ × β))) (size : Nat) : Nat :=
  Nat.count (fun p => (entries p).isSome) size

theorem occupied_store (entries : Mem (Option (κ × β))) {p size : Nat} (inside : p < size)
    (entry : Option (κ × β)) :
    occupied (store entries p entry) size + (if (entries p).isSome then 1 else 0) =
      occupied entries size + (if entry.isSome then 1 else 0) := by
  induction size with
  | zero => omega
  | succ size ih =>
    rw [occupied, occupied, Nat.count_succ, Nat.count_succ]
    by_cases last : p = size
    · subst last
      have below : Nat.count (fun q => (store entries p entry q).isSome) p =
          Nat.count (fun q => (entries q).isSome) p := by
        simp only [Nat.count_eq_card_filter_range]
        congr 1
        apply Finset.filter_congr
        intro q low
        rw [store_other _ _ (Nat.ne_of_lt (Finset.mem_range.mp low))]
      rw [below, store_same]
      omega
    · have step := ih (by omega)
      rw [occupied, occupied] at step
      rw [store_other _ _ (Ne.symm last)]
      omega

theorem occupied_le (entries : Mem (Option (κ × β))) (size : Nat) : occupied entries size ≤ size :=
  Nat.count_le _

theorem occupied_eq_ncard (holds : Holds slots entries map) {size : Nat}
    (inside : ∀ key, ∀ p ∈ slots key, p < size) :
    occupied entries size = {key | map key ≠ none}.ncard := by
  have counted : occupied entries size = {p | p < size ∧ (entries p).isSome}.ncard := by
    rw [occupied, Nat.count_eq_card_filter_range, ← Set.ncard_coe_finset]
    congr 1
    ext p
    simp
  rw [counted]
  apply Set.ncard_congr fun p held => ((entries p).get held.2).1
  · intro p held absent
    have bound := (holds.agrees _ ((entries p).get held.2).2).mpr ⟨p, (Option.some_get held.2).symm⟩
    cases absent.symm.trans bound
  · intro p q heldP heldQ same
    apply holds.unique p q ((entries p).get heldP.2).1 ((entries p).get heldP.2).2
      ((entries q).get heldQ.2).2
    · exact (Option.some_get heldP.2).symm
    · rw [same]
      exact (Option.some_get heldQ.2).symm
  · intro key present
    obtain ⟨value, bound⟩ := Option.ne_none_iff_exists'.mp present
    obtain ⟨p, held⟩ := (holds.agrees key value).mp bound
    refine ⟨p, ⟨inside key p (holds.placed p key value held), by rw [held]; rfl⟩, ?_⟩
    simp [held]

end UC.Candidates
