import Mathlib.Logic.Relation

/- Runs of a step relation, and the invariant rule that every safety result of
   this development is an instance of. -/
namespace UC.Runs

variable {σ : Type*} {step : σ → σ → Prop}

def Reachable (step : σ → σ → Prop) (start s : σ) : Prop :=
  Relation.ReflTransGen step start s

theorem reachable_start (start : σ) : Reachable step start start := .refl

theorem reachable_step {start s t : σ} (run : Reachable step start s) (next : step s t) :
    Reachable step start t := run.tail next

theorem invariant_reachable {Inv : σ → Prop} {start s : σ} (base : Inv start)
    (keep : ∀ a b, Inv a → step a b → Inv b) (run : Reachable step start s) : Inv s := by
  induction run with
  | refl => exact base
  | tail _ next ih => exact keep _ _ ih next

end UC.Runs
