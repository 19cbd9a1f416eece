import Mathlib.Data.List.Basic
import UC.Coroutine.Model
import UC.Lib.Ints

/- The slot table and the single running coroutine, over every history. -/
namespace UC.Coroutines
open UC.Memory UC.Runs UC.Ints

def live (co : List (Option Coroutine)) : Nat := co.countP Option.isSome

/-- Who runs, in the three places that say so: S->running, the executing context and
    the status fields. -/
structure Control (m : Machine) (r : Option Nat) : Prop where
  running : m.S.running = r.elim (-1) (fun id => (id : Int))
  context : m.cur = r.map Frame.mk
  present : ∀ id, r = some id → m.S.slot id ≠ none
  status : ∀ id C, m.S.slot id = some C → (C.status = .RUNNING ↔ r = some id)

structure SlotInv (m : Machine) : Prop where
  table : m.S.co.length = m.S.cap
  nonempty : 0 < m.S.cap
  count : m.S.nco = live m.S.co
  alive : ∀ id C, m.S.slot id = some C → C.status ≠ .DEAD
  /-- A suspended coroutine resumes into the frame that knows its own slot. -/
  parked : ∀ id C, m.S.slot id = some C → C.status = .SUSPEND → C.ctx = some ⟨id⟩
  control : ∃ r, Control m r

theorem slot_some {S : Schedule} {id : Nat} {C : Coroutine} (h : S.slot id = some C) :
    S.co[id]? = some (some C) := Option.join_eq_some_iff.mp h

theorem slot_lt {S : Schedule} {id : Nat} {C : Coroutine} (h : S.slot id = some C) :
    id < S.co.length :=
  (List.getElem?_eq_some_iff.mp (slot_some h)).1

theorem join_set (co : List (Option Coroutine)) {id : Nat} (x : Option Coroutine)
    (inside : id < co.length) (j : Nat) :
    ((co.set id x)[j]?).join = if j = id then x else (co[j]?).join := by
  rw [List.getElem?_set]
  by_cases same : id = j
  · subst same
    simp [inside]
  · simp [same, Ne.symm same]

theorem live_set_some {co : List (Option Coroutine)} {id : Nat} {C : Coroutine}
    (x : Option Coroutine) (old : co[id]? = some (some C)) :
    live (co.set id x) + 1 = live co + (if x.isSome then 1 else 0) := by
  obtain ⟨inside, value⟩ := List.getElem?_eq_some_iff.mp old
  have pos : 0 < live co :=
    List.countP_pos_iff.mpr ⟨some C, List.mem_of_getElem? old, rfl⟩
  rw [live, List.countP_set inside, value]
  simp only [live, Option.isSome_some, if_true] at pos ⊢
  omega

theorem live_set_none {co : List (Option Coroutine)} {id : Nat} (C : Coroutine)
    (old : co[id]? = some none) : live (co.set id (some C)) = live co + 1 := by
  obtain ⟨inside, value⟩ := List.getElem?_eq_some_iff.mp old
  rw [live, List.countP_set inside, value]
  simp [live]

theorem live_append_null (co : List (Option Coroutine)) (n : Nat) :
    live (co ++ List.replicate n none) = live co := by
  simp [live, List.countP_replicate]

theorem null_slot_exists {co : List (Option Coroutine)} (room : live co < co.length) :
    ∃ id, id < co.length ∧ co[id]? = some none := by
  by_contra full
  have all : ∀ x ∈ co, x.isSome = true := by
    intro x mem
    obtain ⟨id, inside, value⟩ := List.getElem_of_mem mem
    cases x with
    | some C => rfl
    | none => exact absurd ⟨id, inside, List.getElem?_eq_some_iff.mpr ⟨inside, value⟩⟩ full
  have := List.countP_eq_length.mpr all
  rw [live] at room
  omega

theorem find_slot_null {S : Schedule} {id : Nat} (found : findSlot S = some id) :
    S.co[id]? = some none := by
  obtain ⟨i, _, hit⟩ := List.exists_of_findSome?_eq_some found
  dsimp only at hit
  split at hit
  · rename_i null
    cases hit
    exact null
  · cases hit

/-- The rotating search visits every slot, so it only fails on a full table. -/
theorem find_slot_succeeds {S : Schedule} (table : S.co.length = S.cap)
    (count : S.nco = live S.co) (room : S.nco < S.cap) : ∃ id, findSlot S = some id := by
  obtain ⟨id, inside, null⟩ := @null_slot_exists S.co (by omega)
  rw [← Option.isSome_iff_exists, findSlot, List.findSome?_isSome_iff]
  have turn : ((id + S.cap - S.nco) % S.cap + S.nco) % S.cap = id := by
    rw [Nat.add_mod, Nat.mod_mod, ← Nat.add_mod,
      show id + S.cap - S.nco + S.nco = id + S.cap by omega,
      Nat.add_mod_right, Nat.mod_eq_of_lt (by omega)]
  refine ⟨(id + S.cap - S.nco) % S.cap, List.mem_range.mpr (Nat.mod_lt _ (by omega)), ?_⟩
  simp only [turn, null]
  rfl

/-- coroutine_new fills one slot that was NULL, or the first slot of a doubled table. -/
theorem new_cases {S S' : Schedule} {id : Nat} {stack : Mem UInt8}
    (made : coroutineNew S stack = some (S', id)) :
    (S.cap ≤ S.nco ∧ id = S.cap ∧
      S' = { S with
        co := (S.co ++ List.replicate S.cap none).set S.cap (some (coNew stack))
        cap := S.cap * 2
        nco := S.nco + 1 }) ∨
    (S.nco < S.cap ∧ S.co[id]? = some none ∧
      S' = { S with co := S.co.set id (some (coNew stack)), nco := S.nco + 1 }) := by
  unfold coroutineNew at made
  split at made
  · rename_i full
    cases made
    exact .inl ⟨full, rfl, rfl⟩
  · rename_i room
    cases found : findSlot S with
    | none => simp [found] at made
    | some slot =>
      rw [found] at made
      cases made
      exact .inr ⟨by omega, find_slot_null found, rfl⟩

theorem new_slots {S S' : Schedule} {id : Nat} {stack : Mem UInt8}
    (table : S.co.length = S.cap) (nonempty : 0 < S.cap)
    (made : coroutineNew S stack = some (S', id)) :
    S.slot id = none ∧ S'.slot id = some (coNew stack) ∧ ∀ j, j ≠ id → S'.slot j = S.slot j := by
  rcases new_cases made with ⟨_, rfl, rfl⟩ | ⟨_, null, rfl⟩
  · have inside : S.cap < (S.co ++ List.replicate S.cap none).length := by
      rw [List.length_append, List.length_replicate, table]
      omega
    simp only [Schedule.slot, join_set _ _ inside]
    refine ⟨by simp [← table], by simp, fun j ne => ?_⟩
    rw [if_neg ne, List.getElem?_append]
    split
    · rfl
    · rename_i beyond
      rw [List.getElem?_eq_none (Nat.not_lt.mp beyond), List.getElem?_replicate]
      split <;> rfl
  · have inside := (List.getElem?_eq_some_iff.mp null).1
    simp only [Schedule.slot, join_set _ _ inside]
    exact ⟨by simp [null], by simp, fun j ne => by rw [if_neg ne]⟩

theorem resume_cases {m m' : Machine} {id : Nat} (resumed : coroutineResume m id = some m') :
    (m.S.slot id = none ∧ m' = m) ∨
    (∃ C, m.S.slot id = some C ∧ C.status = .READY ∧
      m' = ⟨⟨m.S.stack, m.S.nco, m.S.cap, id,
        m.S.co.set id (some { C with status := .RUNNING })⟩, some ⟨id⟩, m.yielded⟩) ∨
    (∃ C, m.S.slot id = some C ∧ C.status = .SUSPEND ∧
      m' = ⟨⟨memcpy m.S.stack (STACK_SIZE - C.size) C.stack 0 C.size, m.S.nco, m.S.cap, id,
        m.S.co.set id (some { C with status := .RUNNING })⟩, C.ctx, m.yielded⟩) := by
  unfold coroutineResume at resumed
  split at resumed
  · split at resumed
    · rename_i null
      cases resumed
      exact .inl ⟨null, rfl⟩
    · rename_i C present
      split at resumed
      · rename_i ready
        cases resumed
        exact .inr (.inl ⟨C, present, ready, rfl⟩)
      · rename_i suspended
        cases resumed
        exact .inr (.inr ⟨C, present, suspended, rfl⟩)
      · cases resumed
  · cases resumed

theorem yield_cases {m m' : Machine} {depth : Nat} {fresh : Mem UInt8}
    (yielded : coroutineYield m depth fresh = some m') :
    ∃ C, m.S.slot m.S.running.toNat = some C ∧
      m' = ⟨⟨m.S.stack, m.S.nco, m.S.cap, -1, m.S.co.set m.S.running.toNat
          (some { saveStack C m.S.stack depth fresh with status := .SUSPEND, ctx := m.cur })⟩,
        none, fun i => if i = m.S.running.toNat
          then slice m.S.stack (STACK_SIZE - depth) depth else m.yielded i⟩ := by
  unfold coroutineYield at yielded
  split at yielded
  · dsimp only at yielded
    split at yielded
    · cases yielded
    · rename_i C present
      cases yielded
      exact ⟨C, present, rfl⟩
  · cases yielded

theorem control_idle {m : Machine} {r : Option Nat} (control : Control m r)
    (idle : m.cur = none) : r = none := by
  have context := control.context
  cases r with
  | none => rfl
  | some id => rw [idle] at context; cases context

theorem control_inside {m : Machine} {r : Option Nat} (control : Control m r)
    (inside : m.cur ≠ none) :
    ∃ id C, r = some id ∧ m.S.running = id ∧ m.cur = some ⟨id⟩ ∧
      m.S.slot id = some C ∧ C.status = .RUNNING := by
  cases r with
  | none => exact absurd control.context inside
  | some id =>
    obtain ⟨C, present⟩ := Option.ne_none_iff_exists'.mp (control.present id rfl)
    exact ⟨id, C, rfl, control.running, control.context, present,
      (control.status id C present).mpr rfl⟩

theorem slot_inv_replace {m : Machine} (inv : SlotInv m) {id : Nat} {C C' : Coroutine}
    (old : m.S.slot id = some C) (alive : C'.status ≠ .DEAD)
    (parked : C'.status = .SUSPEND → C'.ctx = some ⟨id⟩)
    (stack : Mem UInt8) (running : Int) (cur : Option Frame) (yielded : Nat → List UInt8)
    (r : Option Nat)
    (control : Control ⟨⟨stack, m.S.nco, m.S.cap, running, m.S.co.set id (some C')⟩,
      cur, yielded⟩ r) :
    SlotInv ⟨⟨stack, m.S.nco, m.S.cap, running, m.S.co.set id (some C')⟩, cur, yielded⟩ := by
  have inside := slot_lt old
  refine ⟨?_, inv.nonempty, ?_, ?_, ?_, r, control⟩
  · rw [List.length_set]
    exact inv.table
  · have kept := live_set_some (some C') (slot_some old)
    rw [Option.isSome_some, if_pos rfl] at kept
    have count := inv.count
    dsimp only
    omega
  · intro j D at_j
    simp only [Schedule.slot, join_set _ _ inside] at at_j
    split at at_j
    · cases at_j
      exact alive
    · exact inv.alive j D at_j
  · intro j D at_j suspended
    simp only [Schedule.slot, join_set _ _ inside] at at_j
    split at at_j
    · rename_i same
      cases at_j
      rw [same]
      exact parked suspended
    · exact inv.parked j D at_j suspended

theorem control_start {m : Machine} (control : Control m none) {id : Nat} {C : Coroutine}
    (old : m.S.slot id = some C) (stack : Mem UInt8) :
    Control ⟨⟨stack, m.S.nco, m.S.cap, id,
      m.S.co.set id (some { C with status := .RUNNING })⟩, some ⟨id⟩, m.yielded⟩ (some id) where
  running := rfl
  context := rfl
  present j h := by
    cases h
    simp [Schedule.slot, join_set _ _ (slot_lt old)]
  status j D at_j := by
    simp only [Schedule.slot, join_set _ _ (slot_lt old)] at at_j
    split at at_j
    · rename_i same
      cases at_j
      simp [same]
    · rename_i ne
      have free := control.status j D at_j
      simp only [reduceCtorEq, iff_false] at free
      simp [free, Ne.symm ne]

theorem control_stop {m : Machine} {id : Nat} (control : Control m (some id))
    (x : Option Coroutine) (halted : ∀ C, x = some C → C.status ≠ .RUNNING)
    (inside : id < m.S.co.length) (nco : Nat) (yielded : Nat → List UInt8) :
    Control ⟨⟨m.S.stack, nco, m.S.cap, -1, m.S.co.set id x⟩, none, yielded⟩ none where
  running := rfl
  context := rfl
  present j h := by cases h
  status j D at_j := by
    simp only [Schedule.slot, join_set _ _ inside] at at_j
    split at at_j
    · simp [halted D at_j]
    · rename_i ne
      have other := control.status j D at_j
      simp only [Option.some.injEq] at other
      simp [other, Ne.symm ne]

theorem control_new {m : Machine} {r : Option Nat} (control : Control m r) {S : Schedule}
    {id : Nat} {stack : Mem UInt8} (vacant : m.S.slot id = none)
    (filled : S.slot id = some (coNew stack)) (others : ∀ j, j ≠ id → S.slot j = m.S.slot j)
    (running : S.running = m.S.running) : Control ⟨S, m.cur, m.yielded⟩ r where
  running := by rw [← control.running]; exact running
  context := control.context
  present j h := by
    have ne : j ≠ id := by
      rintro rfl
      exact control.present j h vacant
    dsimp only
    rw [others j ne]
    exact control.present j h
  status j D at_j := by
    dsimp only at at_j
    by_cases same : j = id
    · subst same
      rw [filled] at at_j
      cases at_j
      constructor
      · intro h
        cases h
      · intro h
        exact absurd vacant (control.present j h)
    · rw [others j same] at at_j
      exact control.status j D at_j

theorem inv_start (stack : Mem UInt8) : SlotInv (start stack) := by
  have null : ∀ id, (start stack).S.slot id = none := by
    intro id
    simp only [start, coroutineOpen, Schedule.slot, List.getElem?_replicate]
    split <;> rfl
  refine ⟨rfl, Nat.succ_pos 15, rfl, ?_, ?_, none, rfl, rfl, ?_, ?_⟩
  · intro id C h; rw [null] at h; cases h
  · intro id C h; rw [null] at h; cases h
  · intro id h; cases h
  · intro id C h; rw [null] at h; cases h

theorem inv_new {m : Machine} (inv : SlotInv m) {S : Schedule} {id : Nat} {stack : Mem UInt8}
    (made : coroutineNew m.S stack = some (S, id)) : SlotInv { m with S := S } := by
  obtain ⟨vacant, filled, others⟩ := new_slots inv.table inv.nonempty made
  obtain ⟨r, control⟩ := inv.control
  have count := inv.count
  have table := inv.table
  have nonempty := inv.nonempty
  have shape : S.co.length = S.cap ∧ 0 < S.cap ∧ S.nco = live S.co ∧ S.running = m.S.running := by
    rcases new_cases made with ⟨_, rfl, rfl⟩ | ⟨_, null, rfl⟩
    · have null : (m.S.co ++ List.replicate m.S.cap none)[m.S.cap]? = some none := by
        rw [List.getElem?_append_right (by omega), table, Nat.sub_self, List.getElem?_replicate,
          if_pos nonempty]
      refine ⟨?_, ?_, ?_, rfl⟩
      · rw [List.length_set, List.length_append, List.length_replicate, table]
        dsimp only
        omega
      · dsimp only
        omega
      · rw [live_set_none _ null, live_append_null, ← count]
    · refine ⟨?_, nonempty, ?_, rfl⟩
      · rw [List.length_set, table]
      · rw [live_set_none _ null, ← count]
  refine ⟨shape.1, shape.2.1, shape.2.2.1, ?_, ?_, r,
    control_new control vacant filled others shape.2.2.2⟩
  · intro j D at_j
    dsimp only at at_j
    by_cases same : j = id
    · subst same
      rw [filled] at at_j
      cases at_j
      intro h
      cases h
    · rw [others j same] at at_j
      exact inv.alive j D at_j
  · intro j D at_j suspended
    dsimp only at at_j
    by_cases same : j = id
    · subst same
      rw [filled] at at_j
      cases at_j
      cases suspended
    · rw [others j same] at at_j
      exact inv.parked j D at_j suspended

theorem inv_resume {m m' : Machine} (inv : SlotInv m) {id : Nat} (idle : m.cur = none)
    (resumed : coroutineResume m id = some m') : SlotInv m' := by
  obtain ⟨r, control⟩ := inv.control
  cases control_idle control idle
  rcases resume_cases resumed with ⟨_, rfl⟩ | ⟨C, old, _, rfl⟩ | ⟨C, old, suspended, rfl⟩
  · exact inv
  · exact slot_inv_replace inv old (by simp) (by simp) _ _ _ _ _ (control_start control old _)
  · have started := control_start control old
      (memcpy m.S.stack (STACK_SIZE - C.size) C.stack 0 C.size)
    rw [← inv.parked id C old suspended] at started
    exact slot_inv_replace inv old (by simp) (by simp) _ _ _ _ _ started

theorem inv_yield {m m' : Machine} (inv : SlotInv m) {depth : Nat} {fresh : Mem UInt8}
    (inside : m.cur ≠ none) (yielded : coroutineYield m depth fresh = some m') : SlotInv m' := by
  obtain ⟨r, control⟩ := inv.control
  obtain ⟨id, _, rfl, running, context, _, _⟩ := control_inside control inside
  obtain ⟨C, old, rfl⟩ := yield_cases yielded
  have here : m.S.running.toNat = id := by rw [running]; rfl
  rw [here] at old ⊢
  refine slot_inv_replace inv old (by simp) (fun _ => context) _ _ _ _ none ?_
  exact control_stop control _ (by rintro _ ⟨⟩; simp) (slot_lt old) _ _

theorem inv_return {m : Machine} (inv : SlotInv m) {frame : Frame} (inside : m.cur = some frame) :
    SlotInv (mainfuncReturn m frame) := by
  obtain ⟨r, control⟩ := inv.control
  obtain ⟨id, C, rfl, running, context, old, _⟩ := control_inside control (by simp [inside])
  rw [inside] at context
  cases context
  have bound := slot_lt old
  have removed := live_set_some none (slot_some old)
  rw [Option.isSome_none, if_neg (by simp)] at removed
  have count := inv.count
  refine ⟨?_, inv.nonempty, ?_, ?_, ?_, none, control_stop control none (by simp) bound _ _⟩
  · simp only [mainfuncReturn, List.length_set]
    exact inv.table
  · simp only [mainfuncReturn]
    omega
  · intro j D at_j
    simp only [mainfuncReturn, Schedule.slot, join_set _ _ bound] at at_j
    split at at_j
    · cases at_j
    · exact inv.alive j D at_j
  · intro j D at_j suspended
    simp only [mainfuncReturn, Schedule.slot, join_set _ _ bound] at at_j
    split at at_j
    · cases at_j
    · exact inv.parked j D at_j suspended

theorem inv_step {m m' : Machine} (inv : SlotInv m) (next : Step m m') : SlotInv m' := by
  cases next with
  | new stack made => exact inv_new inv made
  | resume id idle range resumed => exact inv_resume inv idle resumed
  | write bytes inside =>
    obtain ⟨r, control⟩ := inv.control
    exact ⟨inv.table, inv.nonempty, inv.count, inv.alive, inv.parked, r,
      control.running, control.context, control.present, control.status⟩
  | yield depth fresh inside shallow yielded => exact inv_yield inv inside yielded
  | ret inside => exact inv_return inv inside

theorem inv_reachable {stack : Mem UInt8} {m : Machine}
    (run : Reachable Step (start stack) m) : SlotInv m :=
  invariant_reachable (inv_start stack) (fun _ _ => inv_step) run

theorem step_counters {m m' : Machine} (next : Step m m') :
    m'.S.cap = m.S.cap ∨
      (m.S.cap ≤ m.S.nco ∧ m'.S.cap = m.S.cap * 2 ∧ m'.S.nco = m.S.nco + 1) := by
  cases next with
  | new stack made =>
    rcases new_cases made with ⟨full, _, rfl⟩ | ⟨_, _, rfl⟩
    · exact .inr ⟨full, rfl, rfl⟩
    · exact .inl rfl
  | resume id idle range resumed =>
    rcases resume_cases resumed with ⟨_, rfl⟩ | ⟨_, _, _, rfl⟩ | ⟨_, _, _, rfl⟩ <;> exact .inl rfl
  | write bytes inside => exact .inl rfl
  | yield depth fresh inside shallow yielded =>
    obtain ⟨_, _, rfl⟩ := yield_cases yielded
    exact .inl rfl
  | ret inside => exact .inl rfl

/-- The counters of the source are ints: with at most 2^30 coroutines alive they do not
    overflow, as cap is only doubled when all its slots are taken. -/
theorem counters_fit_int {stack : Mem UInt8} {m : Machine}
    (run : Reachable (fun m m' => Step m m' ∧ 2 * (m'.S.nco : Int) ≤ INT_MAX + 1) (start stack) m) :
    (m.S.nco : Int) ≤ INT_MAX ∧ (m.S.cap : Int) ≤ INT_MAX := by
  have few_slots : (DEFAULT_COROUTINE : Int) ≤ INT_MAX := by decide
  have none_alive : ((0 : Nat) : Int) ≤ INT_MAX := by decide
  refine @invariant_reachable _ _
    (fun m : Machine => (m.S.nco : Int) ≤ INT_MAX ∧ (m.S.cap : Int) ≤ INT_MAX)
    _ _ ⟨none_alive, few_slots⟩ ?_ run
  rintro m m' ⟨_, cap⟩ ⟨next, few⟩
  refine ⟨by unfold INT_MAX at *; omega, ?_⟩
  rcases step_counters next with same | ⟨full, doubled, more⟩
  · rw [same]
    exact cap
  · unfold INT_MAX at *
    omega

theorem live_le_cap {m : Machine} (inv : SlotInv m) : m.S.nco ≤ m.S.cap := by
  rw [inv.count, ← inv.table]
  exact List.countP_le_length

theorem new_never_asserts {m : Machine} (inv : SlotInv m) (stack : Mem UInt8) :
    ∃ S id, coroutineNew m.S stack = some (S, id) := by
  unfold coroutineNew
  split
  · exact ⟨_, _, rfl⟩
  · rename_i room
    obtain ⟨id, found⟩ := find_slot_succeeds inv.table inv.count (by omega)
    exact ⟨_, _, by rw [found]; rfl⟩

/-- None of the assertions of coroutine_resume and coroutine_yield fails in a history. -/
theorem resume_and_yield_never_assert {stack : Mem UInt8} {m : Machine}
    (run : Reachable Step (start stack) m) :
    (∀ id, m.cur = none → id < m.S.cap → (coroutineResume m id).isSome) ∧
    (∀ depth fresh, m.cur ≠ none → depth ≤ STACK_SIZE →
      (coroutineYield m depth fresh).isSome) := by
  have inv := inv_reachable run
  obtain ⟨r, control⟩ := inv.control
  constructor
  · intro id idle range
    cases control_idle control idle
    unfold coroutineResume
    rw [if_pos ⟨control.running, range⟩]
    split
    · rfl
    · rename_i C present
      have alive := inv.alive id C present
      have halted := control.status id C present
      cases status : C.status with
      | READY | SUSPEND => rfl
      | DEAD => exact absurd status alive
      | RUNNING => simp [status] at halted
  · intro depth fresh inside shallow
    obtain ⟨id, C, _, running, _, present, _⟩ := control_inside control inside
    unfold coroutineYield
    rw [if_pos ⟨by omega, shallow⟩]
    simp [running, present]

/-- The slot table over every history: the count, the running coroutine, and what
    coroutine_new does next. -/
theorem scheduler_slots (stack : Mem UInt8) (m : Machine)
    (run : Reachable Step (start stack) m) :
    m.S.co.length = m.S.cap ∧ m.S.nco = live m.S.co ∧ m.S.nco ≤ m.S.cap ∧
    ((m.S.running = -1 ∧ ∀ id C, m.S.slot id = some C → C.status ≠ .RUNNING) ∨
      ∃ (id : Nat) (C : Coroutine), m.S.running = id ∧ m.S.slot id = some C ∧
        C.status = .RUNNING ∧
        ∀ j D, j ≠ id → m.S.slot j = some D → D.status ≠ .RUNNING) ∧
    ∀ fresh, ∃ S id, coroutineNew m.S fresh = some (S, id) ∧
      (m.S.co[id]? = some none ∨ m.S.cap ≤ m.S.nco ∧ id = m.S.cap) ∧
      S.slot id = some (coNew fresh) ∧ ∀ j, j ≠ id → S.slot j = m.S.slot j := by
  have inv := inv_reachable run
  refine ⟨inv.table, inv.count, live_le_cap inv, ?_, ?_⟩
  · obtain ⟨r, control⟩ := inv.control
    cases r with
    | none =>
      refine .inl ⟨control.running, fun id C present => ?_⟩
      have halted := control.status id C present
      simpa using halted
    | some id =>
      obtain ⟨C, present⟩ := Option.ne_none_iff_exists'.mp (control.present id rfl)
      refine .inr ⟨id, C, control.running, present, (control.status id C present).mpr rfl, ?_⟩
      intro j D ne at_j running
      cases (control.status j D at_j).mp running
      exact ne rfl
  · intro fresh
    obtain ⟨S, id, made⟩ := new_never_asserts inv fresh
    obtain ⟨_, filled, others⟩ := new_slots inv.table inv.nonempty made
    refine ⟨S, id, made, ?_, filled, others⟩
    rcases new_cases made with ⟨full, rfl, _⟩ | ⟨_, null, _⟩
    · exact .inr ⟨full, rfl⟩
    · exact .inl null

/-- The first coroutine yields, the second returns. -/
theorem scheduler_slots_after_new :
    ∃ m, Reachable Step (start fun _ => 0) m ∧ m.S.nco = 1 ∧ m.S.nco = live m.S.co ∧
      (m.S.slot 0).map Coroutine.status = some .SUSPEND ∧ (m.S.slot 1).isNone := by
  let blank : Mem UInt8 := fun _ => 0
  have run : Reachable Step (start blank) (start blank) := reachable_start _
  have run := reachable_step run (.new blank rfl)
  have run := reachable_step run (.resume 0 rfl (by decide) rfl)
  have run := reachable_step run (.new blank rfl)
  have run := reachable_step run (.yield 1 blank (Option.some_ne_none _) (by decide) rfl)
  have run := reachable_step run (.resume 1 rfl (by decide) rfl)
  have run := reachable_step run (.ret rfl)
  exact ⟨_, run, rfl, (scheduler_slots blank _ run).2.1, rfl, rfl⟩

end UC.Coroutines
