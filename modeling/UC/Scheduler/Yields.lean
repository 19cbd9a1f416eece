import UC.Scheduler.Model

/- Code of a coroutine runs with its own index in running_coroutine in exactly the histories in
   which no suspended coroutine is resumed and no coroutine goes back into another one. -/
namespace UC.Scheduler
open UC.Memory UC.Histories

/-- A coroutine that executes. back is the way out of it. -/
structure Body (s : State) (id : Nat) : Prop where
  running : s.schedule.running_coroutine = id
  index : id < s.schedule.max_index
  active : (s.schedule.coroutines id).state = .RUNNABLE ∨
    (s.schedule.coroutines id).state = .RUNNING
  back : s.spinning = false → ∃ ctx, s.schedule.main = some ctx ∧
    ctx.flow ≠ .coroutine id ∧ s.parked ctx.flow = some ctx.save

structure Inv (s : State) : Prop where
  idle : s.executing = .program → s.spinning = false → s.schedule.running_coroutine = -1
  body : ∀ id, s.executing = .coroutine id → Body s id
  suspended : ∀ id, (s.schedule.coroutines id).state = .SUSPEND →
    ∃ save, (s.schedule.coroutines id).ctx = some ⟨.coroutine id, save⟩

section Steps
variable {s t : State}

theorem setcontext_eq {target : Option Context} (gone : setcontext s target = some t) :
    ∃ ctx, target = some ctx ∧ t = { s with
      executing := ctx.flow, parked := Function.update s.parked ctx.flow none } := by
  cases target with
  | none => cases gone
  | some ctx =>
    simp only [setcontext] at gone
    split at gone
    · exact ⟨ctx, rfl, (Option.some.inj gone).symm⟩
    · cases gone

theorem setcontext_parked {ctx : Context} (parked : s.parked ctx.flow = some ctx.save) :
    setcontext s (some ctx) = some { s with
      executing := ctx.flow, parked := Function.update s.parked ctx.flow none } := by
  simp [setcontext, parked]

theorem free_index_fresh {id : Nat} (index : id < s.schedule.max_index)
    (used : (s.schedule.coroutines id).state ≠ .FREE) : freeIndex s.schedule ≠ id := by
  intro same
  simp only [freeIndex] at same
  cases found : (List.range s.schedule.max_index).find? fun id =>
      (s.schedule.coroutines id).state = .FREE with
  | none =>
    rw [found] at same
    change s.schedule.max_index = id at same
    omega
  | some slot =>
    rw [found] at same
    change slot = id at same
    have free := List.find?_some found
    rw [same] at free
    exact used (of_decide_eq_true free)

theorem free_index_le (schedule : Schedule_t) : freeIndex schedule ≤ schedule.max_index := by
  simp only [freeIndex]
  cases found : (List.range schedule.max_index).find? fun id =>
      (schedule.coroutines id).state = .FREE with
  | none => exact Nat.le_refl _
  | some slot =>
    have inside := List.mem_range.mp (List.mem_of_find?_eq_some found)
    exact Nat.le_of_lt inside

theorem active_used {id : Nat} (body : Body s id) :
    (s.schedule.coroutines id).state ≠ .FREE ∧ (s.schedule.coroutines id).state ≠ .SUSPEND := by
  rcases body.active with active | active
  · simp [active]
  · simp [active]

theorem inv_start : Inv start := by
  refine ⟨fun _ _ => rfl, ?_, ?_⟩
  · intro id never
    cases never
  · intro id never
    cases never

theorem inv_create (inv : Inv s) (taken : coroutine_create s = some t) : Inv t := by
  simp only [coroutine_create] at taken
  split at taken
  · cases taken
    refine ⟨?_, ?_, ?_⟩
    · intro never
      cases never
    · rintro id ⟨⟩
      have bound := free_index_le s.schedule
      refine ⟨rfl, ?_, ?_, fun _ => ⟨s.here, rfl, ?_, ?_⟩⟩
      · simp only
        split <;> omega
      · simp
      · -- the flow that creates is not the one created
        intro same
        change s.executing = _ at same
        have body := inv.body _ same
        exact free_index_fresh body.index (active_used body).1 rfl
      · simp [State.here, State.park]
    · intro id waits
      by_cases new : id = freeIndex s.schedule
      · subst new
        simp at waits
      · simp only [store_other _ _ new] at waits ⊢
        exact inv.suspended id waits
  · cases taken

theorem yield_eq {id : Nat} (running : s.schedule.running_coroutine = id) :
    coroutine_yield s = setcontext { s.park with
      schedule := { s.schedule with
        running_coroutine := -1
        coroutines := store s.schedule.coroutines id ⟨.SUSPEND, some s.here⟩ } }
      s.schedule.main := by
  have some_index : ¬ (id : Int) = -1 := by omega
  simp only [coroutine_yield, running, some_index, ne_eq, not_false_eq_true, if_true,
    Int.toNat_natCast]

theorem inv_outside (outside : t.executing = .program) (none_runs : t.schedule.running_coroutine = -1)
    (suspended : ∀ id, (t.schedule.coroutines id).state = .SUSPEND →
      ∃ save, (t.schedule.coroutines id).ctx = some ⟨.coroutine id, save⟩) : Inv t := by
  refine ⟨fun _ _ => none_runs, ?_, suspended⟩
  intro id inside
  rw [outside] at inside
  cases inside

theorem inv_yield (inv : Inv s) (quiet : s.spinning = false) (careful : Careful s .yield)
    (taken : coroutine_yield s = some t) : Inv t := by
  cases here : s.executing with
  | program =>
    simp only [coroutine_yield, inv.idle here quiet, ne_eq, not_true_eq_false, if_false] at taken
    cases taken
    exact inv
  | coroutine id =>
    have running := (inv.body id here).running
    rw [yield_eq running] at taken
    obtain ⟨ctx, main, rfl⟩ := setcontext_eq taken
    apply inv_outside
    · exact careful (by omega) ctx main
    · rfl
    · intro other waits
      by_cases same : other = id
      · subst same
        exact ⟨s.saves, by simp [State.here, here]⟩
      · simp only [store_other _ _ same] at waits ⊢
        exact inv.suspended other waits

theorem inv_exit (inv : Inv s) (careful : Careful s .exit) (taken : coroute_body_exit s = some t) :
    Inv t := by
  cases here : s.executing with
  | program => simp [coroute_body_exit, here] at taken
  | coroutine id =>
    simp only [coroute_body_exit, here] at taken
    obtain ⟨ctx, main, rfl⟩ := setcontext_eq taken
    apply inv_outside
    · exact careful ctx main
    · rfl
    · intro other waits
      by_cases same : other = id
      · subst same
        simp at waits
      · simp only [store_other _ _ same] at waits ⊢
        exact inv.suspended other waits

theorem inv_resume (inv : Inv s) {id : Int} (careful : Careful s (.resume id))
    (taken : coroutine_resume s id = some t) : Inv t := by
  simp only [coroutine_resume] at taken
  split at taken
  · cases taken
    exact inv
  · rename_i inside
    have low : 0 ≤ id := by omega
    have rule := careful low (by omega)
    obtain ⟨slot, rfl⟩ := Int.eq_ofNat_of_zero_le low
    simp only [Int.toNat_natCast] at taken rule
    split at taken
    · rename_i runnable
      cases taken
      refine ⟨?_, ?_, ?_⟩
      · intro _ never
        cases never
      · intro other there
        have body := inv.body other there
        have same : other = slot := by
          rcases rule.2 runnable with program | itself
          · rw [there] at program
            cases program
          · rw [there] at itself
            exact Flow.coroutine.inj itself
        subst same
        exact ⟨rfl, body.index, .inr (by simp), fun never => nomatch never⟩
      · intro other waits
        by_cases same : other = slot
        · subst same
          simp at waits
        · simp only [store_other _ _ same] at waits ⊢
          exact inv.suspended other waits
    · rename_i suspend
      exact absurd suspend rule.1
    · cases taken
      exact inv

theorem inv_step (s : State) (ev : Event) (t : State) (inv : Inv s) (careful : Careful s ev)
    (taken : step s ev = some t) : Inv t := by
  simp only [step] at taken
  split at taken
  · cases taken
  · rename_i quiet
    have still : s.spinning = false := by simpa using quiet
    cases ev with
    | create => exact inv_create inv taken
    | yield => exact inv_yield inv still careful taken
    | resume id => exact inv_resume inv careful taken
    | exit => exact inv_exit inv careful taken

theorem inv_obeys (s : State) (inv : Inv s) : Obeys s := by
  intro id here
  have body := inv.body id here
  refine ⟨body.running, ?_⟩
  intro quiet
  obtain ⟨ctx, main, other, parked⟩ := body.back quiet
  have elsewhere : ctx.flow ≠ s.executing := by
    rw [here]
    exact other
  have back : s.park.parked ctx.flow = some ctx.save := by
    simp only [State.park, Function.update_of_ne elsewhere, parked]
  have stepped : step s .yield = coroutine_yield s := by simp [step, quiet]
  have left := yield_eq body.running
  rw [main] at left
  refine ⟨_, (stepped.trans left).trans (setcontext_parked back), ?_, ?_⟩
  · simp
  · simp [main]

/-- Code of a coroutine runs and running_coroutine is something else. -/
theorem strays {id : Nat} (executing : t.executing = .coroutine id)
    (other : t.schedule.running_coroutine ≠ id) : ¬ Obeys t :=
  fun obeys => other (obeys id executing).1

/-- A yield or an exit into a coroutine. -/
theorem inner_strays {ctx : Context} (inner : ctx.flow ≠ .program)
    (executing : t.executing = ctx.flow) (none_runs : t.schedule.running_coroutine = -1) :
    ¬ Obeys t := by
  cases into : ctx.flow with
  | program => exact absurd into inner
  | coroutine id =>
    apply strays (executing.trans into)
    omega

theorem resume_strays (inv : Inv s) (quiet : s.spinning = false) {id : Int}
    (careless : ¬ Careful s (.resume id)) (taken : coroutine_resume s id = some t) :
    ¬ Obeys t := by
  simp only [Careful, not_forall] at careless
  obtain ⟨low, high, careless⟩ := careless
  obtain ⟨slot, rfl⟩ := Int.eq_ofNat_of_zero_le low
  simp only [Int.toNat_natCast] at careless
  have inside : ¬ ((slot : Int) < 0 ∨ (slot : Int) ≥ s.schedule.max_index) := by omega
  simp only [coroutine_resume, inside, if_false, Int.toNat_natCast] at taken
  split at taken
  · rename_i runnable
    simp only [runnable, ne_eq, reduceCtorEq, not_false_eq_true, forall_const, true_and,
      not_or] at careless
    cases here : s.executing with
    | program => exact absurd here careless.1
    | coroutine k =>
      cases taken
      have outside : (slot : Int) ≠ k := by
        intro same
        have equal : slot = k := Int.ofNat.inj same
        rw [equal] at careless
        exact careless.2 here
      exact fun obeys => outside (obeys k here).1
  · rename_i suspend
    obtain ⟨save, ctx⟩ := inv.suspended slot suspend
    rw [ctx] at taken
    obtain ⟨ctx, same, rfl⟩ := setcontext_eq taken
    cases same
    apply @strays _ slot rfl
    change s.schedule.running_coroutine ≠ slot
    cases here : s.executing with
    | program =>
      rw [inv.idle here quiet]
      omega
    | coroutine k =>
      have body := inv.body k here
      rw [body.running]
      intro equal
      have one : k = slot := Int.ofNat.inj equal
      subst one
      exact (active_used body).2 suspend
  · rename_i runnable suspend
    exact absurd ⟨suspend, fun state => absurd state runnable⟩ careless

theorem careless_strays (s : State) (ev : Event) (t : State) (inv : Inv s)
    (careless : ¬ Careful s ev) (taken : step s ev = some t) : ¬ Obeys t := by
  simp only [step] at taken
  split at taken
  · cases taken
  · rename_i quiet
    have still : s.spinning = false := by simpa using quiet
    cases ev with
    | create => exact absurd trivial careless
    | resume id => exact resume_strays inv still careless taken
    | yield =>
      simp only [Careful, Outer, not_forall] at careless
      obtain ⟨runs, ctx, main, inner⟩ := careless
      cases here : s.executing with
      | program => exact absurd (inv.idle here still) runs
      | coroutine id =>
        rw [yield_eq (inv.body id here).running] at taken
        obtain ⟨other, same, rfl⟩ := setcontext_eq taken
        rw [main] at same
        cases same
        exact inner_strays inner rfl rfl
    | exit =>
      simp only [Careful, Outer, not_forall] at careless
      obtain ⟨ctx, main, inner⟩ := careless
      cases here : s.executing with
      | program => simp [coroute_body_exit, here] at taken
      | coroutine id =>
        simp only [coroute_body_exit, here] at taken
        obtain ⟨other, same, rfl⟩ := setcontext_eq taken
        rw [main] at same
        cases same
        exact inner_strays inner rfl rfl

end Steps

/-- Exactly the careful histories keep every yield on its way to schedule.main. -/
theorem yields_obey_iff (history : List Event) (possible : (play step history start).isSome) :
    Always step Obeys history start ↔ Lawful step Careful history start :=
  always_iff_lawful inv_obeys inv_step careless_strays history inv_start possible

instance (s : State) : Decidable (Outer s) :=
  match main : s.schedule.main with
  | none => .isTrue (by simp [Outer, main])
  | some ctx => decidable_of_iff (ctx.flow = .program) (by simp [Outer, main])

instance (s : State) : (ev : Event) → Decidable (Careful s ev)
  | .create => .isTrue trivial
  | .yield => inferInstanceAs (Decidable (_ → _))
  | .exit => inferInstanceAs (Decidable (Outer s))
  | .resume _ => inferInstanceAs (Decidable (_ → _))

/-- Two coroutines, of which one ends and leaves its slot to a third. -/
theorem three_coroutines_obey : Always step Obeys
    [.create, .yield, .create, .exit, .resume 1, .create, .yield, .yield] start :=
  (yields_obey_iff _ rfl).mpr (by decide)

/-- The second part of a coroutine runs with running_coroutine = -1. -/
theorem resumed_coroutine_strays :
    ¬ ∀ history s, play step history start = some s → Obeys s := by
  intro always
  have obeys := always [.create, .yield, .resume 0] _ rfl
  have running := (obeys 0 rfl).1
  revert running
  decide

end UC.Scheduler
