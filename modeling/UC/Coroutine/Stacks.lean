import UC.Coroutine.Slots

/- The private stack copies: what a coroutine left on the shared stack when it
   yielded is what it finds there when it is resumed. -/
namespace UC.Coroutines
open UC.Memory UC.Runs

/-- The record keeps its size within its buffer, and a suspended one the bytes of its yield. -/
structure Kept (C : Coroutine) (yielded : List UInt8) : Prop where
  fits : C.size ≤ C.cap
  copy : C.status = .SUSPEND → slice C.stack 0 C.size = yielded

def StackInv (m : Machine) : Prop :=
  ∀ id C, m.S.slot id = some C → Kept C (m.yielded id)

theorem kept_new (stack : Mem UInt8) (yielded : List UInt8) : Kept (coNew stack) yielded :=
  ⟨Nat.le_refl 0, fun h => by cases h⟩

/-- Growing only ever raises cap, so the old size still fits before the new one is set. -/
theorem grow_fits {C : Coroutine} (fits : C.size ≤ C.cap) (depth : Nat) (fresh : Mem UInt8) :
    (growStack C depth fresh).size ≤ (growStack C depth fresh).cap ∧
      depth ≤ (growStack C depth fresh).cap := by
  unfold growStack
  split
  · exact ⟨by dsimp only; omega, Nat.le_refl depth⟩
  · exact ⟨fits, by omega⟩

theorem kept_save {C : Coroutine} (fits : C.size ≤ C.cap) (stack : Mem UInt8) (depth : Nat)
    (fresh : Mem UInt8) (ctx : Option Frame) :
    Kept { saveStack C stack depth fresh with status := .SUSPEND, ctx := ctx }
      (slice stack (STACK_SIZE - depth) depth) where
  fits := (grow_fits fits depth fresh).2
  copy _ := slice_memcpy (growStack C depth fresh).stack stack 0 (STACK_SIZE - depth) depth

/-- A table update keeps the copies when the new record does and the history of the
    other slots is untouched. -/
theorem stack_inv_set {m m' : Machine} (inv : StackInv m) {id : Nat} {x : Option Coroutine}
    (inside : id < m.S.co.length) (table : m'.S.co = m.S.co.set id x)
    (here : ∀ C, x = some C → Kept C (m'.yielded id))
    (others : ∀ j, j ≠ id → m'.yielded j = m.yielded j) : StackInv m' := by
  intro j D at_j
  rw [Schedule.slot, table, join_set _ _ inside] at at_j
  split at at_j
  · rename_i same
    rw [same]
    exact here D at_j
  · rename_i ne
    rw [others j ne]
    exact inv j D at_j

theorem stack_inv_start (stack : Mem UInt8) : StackInv (start stack) := by
  intro id C at_id
  simp only [start, coroutineOpen, Schedule.slot, List.getElem?_replicate] at at_id
  split at at_id <;> cases at_id

theorem stack_inv_resume {m m' : Machine} (inv : StackInv m) {id : Nat}
    (resumed : coroutineResume m id = some m') : StackInv m' := by
  rcases resume_cases resumed with ⟨_, rfl⟩ | ⟨C, old, _, rfl⟩ | ⟨C, old, _, rfl⟩
  · exact inv
  · refine stack_inv_set inv (slot_lt old) rfl ?_ (fun _ _ => rfl)
    rintro _ ⟨⟩
    exact ⟨(inv id C old).fits, fun h => by cases h⟩
  · refine stack_inv_set inv (slot_lt old) rfl ?_ (fun _ _ => rfl)
    rintro _ ⟨⟩
    exact ⟨(inv id C old).fits, fun h => by cases h⟩

theorem stack_inv_yield {m m' : Machine} (inv : StackInv m) {depth : Nat} {fresh : Mem UInt8}
    (yielded : coroutineYield m depth fresh = some m') : StackInv m' := by
  obtain ⟨C, old, rfl⟩ := yield_cases yielded
  refine stack_inv_set inv (slot_lt old) rfl ?_ (fun j ne => if_neg ne)
  rintro _ ⟨⟩
  dsimp only
  rw [if_pos rfl]
  exact kept_save (inv _ C old).fits m.S.stack depth fresh m.cur

theorem stack_inv_step {m m' : Machine} (slots : SlotInv m) (inv : StackInv m)
    (next : Step m m') : StackInv m' := by
  cases next with
  | @new S id stack made =>
    obtain ⟨_, filled, others⟩ := new_slots slots.table slots.nonempty made
    intro j D at_j
    dsimp only at at_j
    by_cases same : j = id
    · rw [same, filled] at at_j
      cases at_j
      exact kept_new stack _
    · rw [others j same] at at_j
      exact inv j D at_j
  | resume id idle range resumed => exact stack_inv_resume inv resumed
  | write bytes inside => exact inv
  | yield depth fresh inside shallow yielded => exact stack_inv_yield inv yielded
  | @ret frame inside =>
    obtain ⟨r, control⟩ := slots.control
    obtain ⟨id, C, _, _, context, old, _⟩ := control_inside control (by simp [inside])
    rw [inside] at context
    cases context
    exact stack_inv_set inv (slot_lt old) rfl (fun _ h => by cases h) (fun _ _ => rfl)

theorem stack_inv_reachable {stack : Mem UInt8} {m : Machine}
    (run : Reachable Step (start stack) m) : SlotInv m ∧ StackInv m := by
  induction run with
  | refl => exact ⟨inv_start stack, stack_inv_start stack⟩
  | tail _ next ih => exact ⟨inv_step ih.1 next, stack_inv_step ih.1 ih.2 next⟩

/-- Resuming a suspended coroutine puts the bytes of its last yield back in place; no
    record ever claims more bytes than its buffer has, also inside _save_stack. -/
theorem resume_restores_stack (stack : Mem UInt8) (m : Machine)
    (run : Reachable Step (start stack) m) :
    (∀ id C m', m.S.slot id = some C → C.status = .SUSPEND → coroutineResume m id = some m' →
      slice m'.S.stack (STACK_SIZE - C.size) C.size = m.yielded id) ∧
    ∀ id C, m.S.slot id = some C → C.size ≤ C.cap ∧
      ∀ depth fresh, (growStack C depth fresh).size ≤ (growStack C depth fresh).cap := by
  obtain ⟨_, copies⟩ := stack_inv_reachable run
  constructor
  · intro id C m' present suspended resumed
    rcases resume_cases resumed with ⟨null, _⟩ | ⟨D, old, ready, _⟩ | ⟨D, old, _, rfl⟩
    · rw [present] at null
      cases null
    · cases present.symm.trans old
      rw [suspended] at ready
      cases ready
    · cases present.symm.trans old
      rw [← (copies id C present).copy suspended]
      exact slice_memcpy m.S.stack C.stack (STACK_SIZE - C.size) 0 C.size
  · intro id C present
    have fits := (copies id C present).fits
    exact ⟨fits, fun depth fresh => (grow_fits fits depth fresh).1⟩

theorem resume_after_yield_at_depth_two :
    ∃ m m', Reachable Step (start fun _ => 0) m ∧ coroutineResume m 0 = some m' ∧
      m.yielded 0 = slice Nat.toUInt8 (STACK_SIZE - 2) 2 ∧
      slice m'.S.stack (STACK_SIZE - 2) 2 = m.yielded 0 := by
  let zeros : Mem UInt8 := fun _ => 0
  have made : coroutineNew (start zeros).S zeros =
    some (⟨zeros, 1, 16, -1, some (coNew zeros) :: List.replicate 15 none⟩, 0) := rfl
  have run₁ := reachable_step (reachable_start _) (Step.new zeros made)
  have run₂ := reachable_step run₁ (Step.resume 0 rfl (by decide) rfl)
  have run₃ := reachable_step run₂ (Step.write Nat.toUInt8 (by simp))
  have run₄ := reachable_step run₃ (Step.yield 2 zeros (by simp) (by decide) rfl)
  exact ⟨_, _, run₄, rfl, rfl, (resume_restores_stack zeros _ run₄).1 0 _ _ rfl rfl rfl⟩

end UC.Coroutines
