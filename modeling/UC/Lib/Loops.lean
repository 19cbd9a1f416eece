import Mathlib.Data.Option.Basic

/- Counting loops whose body may fail, and their invariant rule. -/
namespace UC.Loops

variable {σ : Type*}

/-- for (i = 0; i < n; ++i) body. -/
def forLoop (body : Nat → σ → Option σ) : Nat → σ → Option σ
  | 0, s => some s
  | n + 1, s => (forLoop body n s).bind (body n)

/-- for (; i < bound; ++i) body, with the bound read again in every round. -/
def forWhile (bound : σ → Option Nat) (body : Nat → σ → Option σ) : Nat → Nat → σ → Option σ
  | 0, _, _ => none
  | fuel + 1, i, s =>
    (bound s).bind fun n =>
      if i < n then (body i s).bind (forWhile bound body fuel (i + 1)) else some s

theorem for_loop_invariant {body : Nat → σ → Option σ} {n : Nat} (P : Nat → σ → Prop) {s : σ}
    (start : P 0 s) (step : ∀ i < n, ∀ s, P i s → ∃ s', body i s = some s' ∧ P (i + 1) s') :
    ∃ s', forLoop body n s = some s' ∧ P n s' := by
  induction n with
  | zero => exact ⟨s, rfl, start⟩
  | succ n ih =>
    obtain ⟨s', run, holds⟩ := ih (fun i hi => step i (by omega))
    obtain ⟨s'', last, holds⟩ := step n (by omega) s' holds
    refine ⟨s'', ?_, holds⟩
    rw [forLoop, run]
    exact last

theorem for_while_invariant {bound : σ → Option Nat} {body : Nat → σ → Option σ} {n fuel i : Nat}
    (P : Nat → σ → Prop) {s : σ} (start : P i s) (le : i ≤ n) (enough : n < i + fuel)
    (limit : ∀ i s, P i s → bound s = some n)
    (step : ∀ i < n, ∀ s, P i s → ∃ s', body i s = some s' ∧ P (i + 1) s') :
    ∃ s', forWhile bound body fuel i s = some s' ∧ P n s' := by
  induction fuel generalizing i s with
  | zero => omega
  | succ fuel ih =>
    rw [forWhile, limit i s start, Option.bind_some]
    rcases Nat.eq_or_lt_of_le le with rfl | less
    · rw [if_neg (Nat.lt_irrefl i)]
      exact ⟨s, rfl, start⟩
    · obtain ⟨s₁, run, holds⟩ := step i less s start
      rw [if_pos less, run, Option.bind_some]
      exact ih holds less (by omega)

theorem for_loop_keeps {body : Nat → σ → Option σ} {n : Nat} {P : σ → Prop} {s s' : σ}
    (step : ∀ i s s', P s → body i s = some s' → P s') (start : P s)
    (run : forLoop body n s = some s') : P s' := by
  induction n generalizing s' with
  | zero =>
    cases run
    exact start
  | succ n ih =>
    obtain ⟨s₁, first, last⟩ := Option.bind_eq_some_iff.mp run
    exact step n s₁ s' (ih first) last

end UC.Loops
