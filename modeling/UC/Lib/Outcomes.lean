import Mathlib.Logic.Basic

/- Runs that return a value or fail, and the rule for a fault that is avoided: what a run returns
   is as its postcondition says, and any other fault may happen. -/
namespace UC.Outcomes

variable {ε α β : Type*}

theorem ok_bind (a : α) (next : α → Except ε β) : (Except.ok a).bind next = next a := rfl

theorem error_bind (fault : ε) (next : α → Except ε β) :
    (Except.error fault).bind next = .error fault := rfl

/-- The run does not fail with this fault, and what it returns is as post says. -/
structure Avoids (bad : ε) (post : α → Prop) (run : Except ε α) : Prop where
  fault : run ≠ .error bad
  returns : ∀ a, run = .ok a → post a

variable {bad : ε} {mid : α → Prop}

theorem avoids_ok {a : α} (holds : mid a) : Avoids bad mid (.ok a) where
  fault := nofun
  returns := by
    rintro _ ⟨⟩
    exact holds

theorem avoids_error {fault : ε} (other : fault ≠ bad) : Avoids bad mid (.error fault) where
  fault := fun same => other (Except.error.inj same)
  returns := nofun

theorem avoids_bind {post : β → Prop} {run : Except ε α} {next : α → Except ε β}
    (first : Avoids bad mid run) (later : ∀ a, mid a → Avoids bad post (next a)) :
    Avoids bad post (run.bind next) := by
  cases run with
  | error fault =>
    rw [error_bind]
    apply avoids_error
    rintro rfl
    exact first.fault rfl
  | ok a => exact later a (first.returns a rfl)

end UC.Outcomes
