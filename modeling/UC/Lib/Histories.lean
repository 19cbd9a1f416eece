import Mathlib.Data.List.Infix
import UC.Lib.Runs

/- Histories: lists of events played on a step that may refuse an event. A property that an
   invariant implies, that legal events keep and that any other event breaks holds all along
   exactly the histories of legal events. -/
namespace UC.Histories
open UC.Runs

variable {σ ε : Type*} (step : σ → ε → Option σ)

def play : List ε → σ → Option σ
  | [], s => some s
  | ev :: rest, s => (step s ev).bind (play rest)

/-- In every state the history goes through, the first one included. -/
def Always (P : σ → Prop) (history : List ε) (start : σ) : Prop :=
  ∀ earlier s, earlier <+: history → play step earlier start = some s → P s

/-- Every event of the history is legal in the state it meets. -/
def Lawful (legal : σ → ε → Prop) (history : List ε) (start : σ) : Prop :=
  ∀ earlier ev s, earlier ++ [ev] <+: history → play step earlier start = some s → legal s ev

/-- One event of those that are legal. -/
def Taken (legal : σ → ε → Prop) (s t : σ) : Prop := ∃ ev, legal s ev ∧ step s ev = some t

variable {step}

theorem play_cons {ev : ε} {rest : List ε} {s t : σ} (taken : step s ev = some t) :
    play step (ev :: rest) s = play step rest t := by simp [play, taken]

theorem always_nil {P : σ → Prop} {s : σ} : Always step P [] s ↔ P s := by
  constructor
  · intro always
    exact always [] s (List.prefix_refl _) rfl
  · intro holds earlier t inside played
    have empty : earlier = [] := List.prefix_nil.mp inside
    subst empty
    exact Option.some.inj played ▸ holds

theorem always_cons {P : σ → Prop} {ev : ε} {rest : List ε} {s t : σ}
    (taken : step s ev = some t) :
    Always step P (ev :: rest) s ↔ P s ∧ Always step P rest t := by
  constructor
  · intro always
    constructor
    · exact always [] s (List.nil_prefix) rfl
    · intro earlier u inside played
      apply always (ev :: earlier) u
      · exact List.cons_prefix_cons.mpr ⟨rfl, inside⟩
      · rw [play_cons taken]
        exact played
  · rintro ⟨now, later⟩ earlier u inside played
    cases earlier with
    | nil => exact Option.some.inj played ▸ now
    | cons other earlier =>
      have same := List.cons_prefix_cons.mp inside
      rw [same.1, play_cons taken] at played
      exact later earlier u same.2 played

theorem lawful_nil {legal : σ → ε → Prop} {s : σ} : Lawful step legal [] s := by
  intro earlier ev t inside
  simp at inside

theorem lawful_cons {legal : σ → ε → Prop} {ev : ε} {rest : List ε} {s t : σ}
    (taken : step s ev = some t) :
    Lawful step legal (ev :: rest) s ↔ legal s ev ∧ Lawful step legal rest t := by
  constructor
  · intro lawful
    constructor
    · exact lawful [] ev s (List.prefix_iff_eq_append.mpr rfl) rfl
    · intro earlier last u inside played
      apply lawful (ev :: earlier) last u
      · exact List.cons_prefix_cons.mpr ⟨rfl, inside⟩
      · rw [play_cons taken]
        exact played
  · rintro ⟨now, later⟩ earlier last u inside played
    cases earlier with
    | nil =>
      have same := List.cons_prefix_cons.mp inside
      rw [same.1]
      exact Option.some.inj played ▸ now
    | cons other earlier =>
      have same := List.cons_prefix_cons.mp inside
      rw [same.1, play_cons taken] at played
      exact later earlier last u same.2 played

theorem lawful_refused {legal : σ → ε → Prop} {ev : ε} {rest : List ε} {s : σ}
    (refused : step s ev = none) : Lawful step legal (ev :: rest) s ↔ legal s ev := by
  constructor
  · intro lawful
    exact lawful [] ev s (List.prefix_iff_eq_append.mpr rfl) rfl
  · intro now earlier last u inside played
    cases earlier with
    | nil =>
      have same := List.cons_prefix_cons.mp inside
      rw [same.1]
      exact Option.some.inj played ▸ now
    | cons other earlier =>
      have same := List.cons_prefix_cons.mp inside
      rw [same.1] at played
      simp [play, refused] at played

instance lawfulDecidable {legal : σ → ε → Prop} [∀ s ev, Decidable (legal s ev)] :
    (history : List ε) → (s : σ) → Decidable (Lawful step legal history s)
  | [], _ => .isTrue lawful_nil
  | ev :: rest, s =>
    match taken : step s ev with
    | none => decidable_of_iff _ (lawful_refused taken).symm
    | some t =>
      have : Decidable (Lawful step legal rest t) := lawfulDecidable rest t
      decidable_of_iff _ (lawful_cons taken).symm

theorem always_invariant {Inv P : σ → Prop} (holds : ∀ s, Inv s → P s)
    (keep : ∀ s ev t, Inv s → step s ev = some t → Inv t) (history : List ε) {s : σ}
    (base : Inv s) : Always step P history s := by
  intro earlier t inside played
  clear inside
  induction earlier generalizing s with
  | nil => exact Option.some.inj played ▸ holds s base
  | cons ev rest ih =>
    obtain ⟨u, taken, later⟩ := Option.bind_eq_some_iff.mp played
    exact ih (keep s ev u base taken) later

/-- The exact condition for a property to hold all along a history. -/
theorem always_iff_lawful {Inv P : σ → Prop} {legal : σ → ε → Prop}
    (holds : ∀ s, Inv s → P s)
    (keep : ∀ s ev t, Inv s → legal s ev → step s ev = some t → Inv t)
    (lose : ∀ s ev t, Inv s → ¬ legal s ev → step s ev = some t → ¬ P t)
    (history : List ε) {s : σ} (base : Inv s) (possible : (play step history s).isSome) :
    Always step P history s ↔ Lawful step legal history s := by
  induction history generalizing s with
  | nil =>
    rw [always_nil]
    exact ⟨fun _ => lawful_nil, fun _ => holds s base⟩
  | cons ev rest ih =>
    cases taken : step s ev with
    | none => simp [play, taken] at possible
    | some t =>
      rw [play_cons taken] at possible
      rw [always_cons taken, lawful_cons taken]
      constructor
      · rintro ⟨_, later⟩
        have now : legal s ev := by
          by_contra illegal
          exact lose s ev t base illegal taken
            (later [] t List.nil_prefix rfl)
        exact ⟨now, (ih (keep s ev t base now taken) possible).mp later⟩
      · rintro ⟨now, later⟩
        exact ⟨holds s base, (ih (keep s ev t base now taken) possible).mpr later⟩

theorem lawful_reachable {legal : σ → ε → Prop} (history : List ε) {s t : σ}
    (lawful : Lawful step legal history s) (played : play step history s = some t) :
    Reachable (Taken step legal) s t := by
  induction history generalizing s with
  | nil => exact Option.some.inj played ▸ reachable_start s
  | cons ev rest ih =>
    cases taken : step s ev with
    | none => simp [play, taken] at played
    | some u =>
      rw [play_cons taken] at played
      have parts := (lawful_cons taken).mp lawful
      exact Relation.ReflTransGen.head ⟨ev, parts.1, taken⟩ (ih parts.2 played)

end UC.Histories
