import UC.Coroutine.Slots
import UC.Lib.Heaps
import UC.Lib.Histories

/- The scheduler with its pointers: the schedule, the slot table, the coroutines and the saved
   stacks are blocks that malloc, realloc and free handle. It does what the scheduler without
   pointers does, and every block is freed once. -/
namespace UC.Coroutines
open UC.Memory UC.Heaps

/-- What mainfunc keeps in its frame while the body runs: id and C. -/
structure MainFrame where
  id : Nat
  C : Nat

/-- struct coroutine; none is the pointer NULL. -/
structure Task where
  ctx : Option MainFrame
  cap : Nat
  size : Nat
  status : Status
  stack : Option Nat

/-- struct schedule -/
structure Scheduler where
  stack : Mem UInt8
  nco : Nat
  cap : Nat
  running : Int
  co : Option Nat

inductive Block where
  | schedule (S : Scheduler)
  | table (slots : List (Option Nat))
  | coroutine (C : Task)
  | bytes (length : Nat) (data : Mem UInt8)

abbrev Blocks := Heap Block

namespace Blocks

def schedule (h : Blocks) (a : Nat) : Option Scheduler :=
  match h.cells a with
  | some (.schedule S) => some S
  | _ => none

def table (h : Blocks) (a : Nat) : Option (List (Option Nat)) :=
  match h.cells a with
  | some (.table slots) => some slots
  | _ => none

def task (h : Blocks) (a : Nat) : Option Task :=
  match h.cells a with
  | some (.coroutine C) => some C
  | _ => none

/-- The first n bytes of a block that has as many. -/
def read (h : Blocks) (a n : Nat) : Option (Mem UInt8) :=
  match h.cells a with
  | some (.bytes length data) => if n ≤ length then some data else none
  | _ => none

/-- memcpy of n bytes to the begin of a block that has as many. -/
def copyTo (h : Blocks) (a : Nat) (src : Mem UInt8) (s n : Nat) : Option Blocks :=
  match h.cells a with
  | some (.bytes length data) =>
    if n ≤ length then h.write a (.bytes length (memcpy data 0 src s n)) else none
  | _ => none

/-- free, also of NULL. -/
def release (h : Blocks) : Option Nat → Option Blocks
  | none => some h
  | some a => h.free a

/-- S->co[id] -/
def slot (h : Blocks) (S : Scheduler) (id : Nat) : Option (Option Nat) := do
  let t ← S.co
  let slots ← h.table t
  slots[id]?

/-- S->co[id] = co -/
def setSlot (h : Blocks) (S : Scheduler) (id : Nat) (co : Option Nat) : Option Blocks := do
  let t ← S.co
  let slots ← h.table t
  if id < slots.length then h.write t (.table (slots.set id co)) else none

def coNew (h : Blocks) : Nat × Blocks := h.malloc (.coroutine ⟨none, 0, 0, .READY, none⟩)

def coDelete (h : Blocks) (co : Nat) : Option Blocks := do
  let C ← h.task co
  let h ← h.release C.stack
  h.free co

/-- The realloc of S->co to a block of twice the size, and the memset behind it. -/
def growTable (h : Blocks) (S : Scheduler) : Option (Nat × Blocks) := do
  let t ← S.co
  let slots ← h.table t
  let (co, h) := h.malloc (.table (slots ++ List.replicate S.cap none))
  let h ← h.free t
  some (co, h)

def findSlot (h : Blocks) (S : Scheduler) : Option Nat :=
  (List.range S.cap).findSome? fun i =>
    let id := (i + S.nco) % S.cap
    match h.slot S id with
    | some none => some id
    | _ => none

/-- _save_stack, at depth top - &dummy. -/
def saveStack (h : Blocks) (co : Nat) (stack : Mem UInt8) (depth : Nat) (fresh : Mem UInt8) :
    Option Blocks := do
  let C ← h.task co
  let (C, h) ←
    if C.cap < depth then do
      let h ← h.release C.stack
      let (buffer, h) := h.malloc (.bytes depth fresh)
      some ({ C with cap := depth, stack := some buffer }, h)
    else some (C, h)
  let h : Blocks ← h.write co (.coroutine { C with size := depth })
  let buffer ← C.stack
  h.copyTo buffer stack (STACK_SIZE - depth) depth

end Blocks

/-- The memory, the pointer to the schedule, and who executes: mainfunc or, with none, main. -/
structure Program where
  heap : Blocks
  S : Nat
  cur : Option MainFrame

namespace Program

/-- coroutine_open -/
def start (stack : Mem UInt8) : Program :=
  let (S, h) := (⟨0, fun _ => none, 0, []⟩ : Blocks).malloc
    (.schedule ⟨stack, 0, DEFAULT_COROUTINE, -1, none⟩)
  let (co, h) := h.malloc (.table (List.replicate DEFAULT_COROUTINE none))
  ⟨h.put S (.schedule ⟨stack, 0, DEFAULT_COROUTINE, -1, some co⟩), S, none⟩

/-- coroutine_new; none behind the search loop is its assert(0). -/
def new (p : Program) : Option (Program × Nat) := do
  let (co, h) := p.heap.coNew
  let S ← h.schedule p.S
  if S.nco ≥ S.cap then
    let (t, h) ← h.growTable S
    let h ← h.setSlot { S with co := some t } S.cap (some co)
    let h ← h.write p.S (.schedule { S with co := some t, cap := S.cap * 2, nco := S.nco + 1 })
    some ({ p with heap := h }, S.cap)
  else
    let id ← h.findSlot S
    let h ← h.setSlot S id (some co)
    let h ← h.write p.S (.schedule { S with nco := S.nco + 1 })
    some ({ p with heap := h }, id)

/-- The begin of mainfunc on the new context. -/
def mainfunc (p : Program) : Option Program := do
  let S ← p.heap.schedule p.S
  let id := S.running.toNat
  let C ← (← p.heap.slot S id)
  some { p with cur := some ⟨id, C⟩ }

/-- coroutine_resume; none is a failing assertion. -/
def resume (p : Program) (id : Nat) : Option Program := do
  let S ← p.heap.schedule p.S
  if S.running = -1 ∧ id < S.cap then
    match ← p.heap.slot S id with
    | none => some p
    | some co =>
      let C ← p.heap.task co
      match C.status with
      | .READY =>
        let h ← p.heap.write p.S (.schedule { S with running := id })
        let h ← h.write co (.coroutine { C with status := .RUNNING })
        mainfunc { p with heap := h }
      | .SUSPEND =>
        let stack ← C.stack
        let saved ← p.heap.read stack C.size
        if C.size ≤ STACK_SIZE then
          let h ← p.heap.write p.S (.schedule { S with
            stack := memcpy S.stack (STACK_SIZE - C.size) saved 0 C.size
            running := id })
          let h ← h.write co (.coroutine { C with status := .RUNNING })
          some { p with heap := h, cur := C.ctx }
        else none
      | _ => none
  else none

/-- What the body does on the stack it runs on. -/
def scribble (p : Program) (bytes : Mem UInt8) : Option Program := do
  let S ← p.heap.schedule p.S
  let h ← p.heap.write p.S (.schedule { S with stack := bytes })
  some { p with heap := h }

/-- coroutine_yield, called with depth bytes of the stack in use. -/
def yield (p : Program) (depth : Nat) (fresh : Mem UInt8) : Option Program := do
  let S ← p.heap.schedule p.S
  if S.running ≥ 0 ∧ depth ≤ STACK_SIZE then
    let co ← (← p.heap.slot S S.running.toNat)
    let h ← p.heap.saveStack co S.stack depth fresh
    let C ← h.task co
    let h ← h.write co (.coroutine { C with status := .SUSPEND, ctx := p.cur })
    let h ← h.write p.S (.schedule { S with running := -1 })
    some { p with heap := h, cur := none }
  else none

/-- The end of mainfunc, when the body has returned. -/
def finish (p : Program) : Option Program := do
  let frame ← p.cur
  let h ← p.heap.coDelete frame.C
  let S ← h.schedule p.S
  let h ← h.setSlot S frame.id none
  let h ← h.write p.S (.schedule { S with nco := S.nco - 1, running := -1 })
  some { p with heap := h, cur := none }

/-- The body of the loop of coroutine_close. -/
def closeSlot (S : Scheduler) (h : Blocks) (i : Nat) : Option Blocks := do
  match ← h.slot S i with
  | none => some h
  | some co => h.coDelete co

/-- coroutine_close: the memory that is left. -/
def close (p : Program) : Option Blocks := do
  let S ← p.heap.schedule p.S
  let h ← (List.range S.cap).foldlM (closeSlot S) p.heap
  let h ← h.release S.co
  let h ← h.write p.S (.schedule { S with co := none })
  h.free p.S

def status (p : Program) (id : Nat) : Option Status := do
  let S ← p.heap.schedule p.S
  if id < S.cap then
    match ← p.heap.slot S id with
    | none => some .DEAD
    | some co => (p.heap.task co).map Task.status
  else none

def running (p : Program) : Option Int := (p.heap.schedule p.S).map Scheduler.running

end Program

inductive Event where
  | new
  | resume (id : Nat)
  | write (bytes : Mem UInt8)
  | yield (depth : Nat) (fresh : Mem UInt8)
  | ret

def perform (p : Program) : Event → Option Program
  | .new => p.new.map Prod.fst
  | .resume id => p.resume id
  | .write bytes => p.scribble bytes
  | .yield depth fresh => p.yield depth fresh
  | .ret => p.finish

/-- The scheduler without pointers on the same event; what stands behind the NULL of a new
    coroutine does not matter. -/
def react (m : Machine) : Event → Option Machine
  | .new => (coroutineNew m.S fun _ => 0).map fun (S, _) => { m with S := S }
  | .resume id => coroutineResume m id
  | .write bytes => some { m with S := { m.S with stack := bytes } }
  | .yield depth fresh => coroutineYield m depth fresh
  | .ret => m.cur.map (mainfuncReturn m)

/-- Only main resumes, with an id in the table, and only a body writes, yields, with its own
    frames on the stack, or returns. -/
def Event.Legal (p : Program) : Event → Prop
  | .new => True
  | .resume id => p.cur = none ∧ ∃ S, p.heap.schedule p.S = some S ∧ id < S.cap
  | .write _ => p.cur ≠ none
  | .yield depth _ => p.cur ≠ none ∧ 0 < depth ∧ depth ≤ STACK_SIZE
  | .ret => p.cur ≠ none

instance (p : Program) : (ev : Event) → Decidable (ev.Legal p)
  | .new => inferInstanceAs (Decidable True)
  | .resume id =>
    decidable_of_iff (p.cur = none ∧ (p.heap.schedule p.S).any (fun S => id < S.cap) = true)
      (by simp [Event.Legal, Option.any_eq_true])
  | .write _ => inferInstanceAs (Decidable (¬ p.cur = none))
  | .yield .. => inferInstanceAs (Decidable (¬ p.cur = none ∧ _ ∧ _))
  | .ret => inferInstanceAs (Decidable (¬ p.cur = none))

section Seats

def Small (h : Blocks) (a : Nat) : Prop :=
  (∃ C, h.cells a = some (.coroutine C)) ∨ ∃ n data, h.cells a = some (.bytes n data)

def Owned (h : Blocks) (co a : Nat) : Prop :=
  a = co ∨ ∃ C, h.cells co = some (.coroutine C) ∧ C.stack = some a

def Saved (h : Blocks) (owner : Nat → Option Nat) (i : Nat) (C : Coroutine) : Option Nat → Prop
  | none => C.cap = 0 ∧ C.status ≠ .SUSPEND
  | some buffer => owner buffer = some i ∧ h.cells buffer = some (.bytes C.cap C.stack)

def taskOf (C : Coroutine) (co : Nat) (stack : Option Nat) : Task :=
  ⟨C.ctx.map fun frame => ⟨frame.id, co⟩, C.cap, C.size, C.status, stack⟩

structure Mirrors (h : Blocks) (owner : Nat → Option Nat) (i : Nat) (C : Coroutine) (co : Nat) :
    Prop where
  mine : owner co = some i
  fits : C.size ≤ C.cap
  inside : C.size ≤ STACK_SIZE
  task : ∃ stack, h.cells co = some (.coroutine (taskOf C co stack)) ∧ Saved h owner i C stack

/-- The table entries with the blocks below them. No two slots share a block, and no block is
    without a slot. -/
structure Seats (h : Blocks) (slot : Nat → Option Coroutine) (seat : Nat → Option Nat)
    (owner : Nat → Option Nat) : Prop where
  vacant : ∀ i, seat i = none ↔ slot i = none
  mirror : ∀ i co C, seat i = some co → slot i = some C → Mirrors h owner i C co
  owned : ∀ a, Small h a → ∃ i co, owner a = some i ∧ seat i = some co ∧ Owned h co a

/-- Untouched blocks of coroutines are the same in both heaps. -/
def Same (h h' : Blocks) (touched : Nat → Prop) : Prop :=
  ∀ a, ¬ touched a → h'.cells a = h.cells a ∨ ¬ Small h a ∧ ¬ Small h' a

variable {h h' : Blocks} {slot slot' : Nat → Option Coroutine} {seat seat' : Nat → Option Nat}
  {owner owner' : Nat → Option Nat} {touched : Nat → Prop}

theorem small_cells {a : Nat} (cells : h'.cells a = h.cells a) : Small h' a ↔ Small h a := by
  unfold Small
  rw [cells]

theorem same_small (same : Same h h' touched) {a : Nat} (free : ¬ touched a) (small : Small h a) :
    h'.cells a = h.cells a := by
  rcases same a free with cells | ⟨large, _⟩
  · exact cells
  · exact absurd small large

theorem same_small' (same : Same h h' touched) {a : Nat} (free : ¬ touched a)
    (small : Small h' a) : Small h a ∧ h'.cells a = h.cells a := by
  rcases same a free with cells | ⟨_, large⟩
  · exact ⟨(small_cells cells).mp small, cells⟩
  · exact absurd small large

theorem seat_filled (seats : Seats h slot seat owner) {i co : Nat} (at_i : seat i = some co) :
    ∃ C, slot i = some C ∧ Mirrors h owner i C co := by
  have present : slot i ≠ none := by
    intro gone
    rw [(seats.vacant i).mpr gone] at at_i
    cases at_i
  obtain ⟨C, here⟩ := Option.ne_none_iff_exists'.mp present
  exact ⟨C, here, seats.mirror i co C at_i here⟩

/-- The blocks of the slots in changed are replaced, those of the others stay. -/
theorem seats_change (changed : Nat → Prop) (seats : Seats h slot seat owner)
    (same : Same h h' touched)
    (off : ∀ j, ¬ changed j → slot' j = slot j ∧ seat' j = seat j)
    (cover : ∀ a i, Small h a → owner a = some i → (touched a ↔ changed i))
    (keep : ∀ a, ¬ touched a → owner' a = owner a)
    (vacant : ∀ i, changed i → (seat' i = none ↔ slot' i = none))
    (mirror : ∀ i co C, changed i → seat' i = some co → slot' i = some C →
      Mirrors h' owner' i C co)
    (owned : ∀ a, touched a → Small h' a →
      ∃ i co, changed i ∧ owner' a = some i ∧ seat' i = some co ∧ Owned h' co a) :
    Seats h' slot' seat' owner' := by
  have kept : ∀ {a i}, Small h a → owner a = some i → ¬ changed i →
      h'.cells a = h.cells a ∧ owner' a = some i := by
    intro a i small mine still
    have free : ¬ touched a := fun hit => still ((cover a i small mine).mp hit)
    exact ⟨same_small same free small, (keep a free).trans mine⟩
  constructor
  · intro i
    by_cases hit : changed i
    · exact vacant i hit
    · obtain ⟨slots, seats'⟩ := off i hit
      rw [slots, seats']
      exact seats.vacant i
  · intro i co C at_i here
    by_cases hit : changed i
    · exact mirror i co C hit at_i here
    · obtain ⟨slots, seats'⟩ := off i hit
      rw [slots] at here
      rw [seats'] at at_i
      obtain ⟨mine, fits, inside, stack, cell, saved⟩ := seats.mirror i co C at_i here
      obtain ⟨cell', mine'⟩ := kept (.inl ⟨_, cell⟩) mine hit
      refine ⟨mine', fits, inside, stack, cell'.trans cell, ?_⟩
      cases stack with
      | none => exact saved
      | some buffer =>
        obtain ⟨bytes', mine'⟩ := kept (.inr ⟨_, _, saved.2⟩) saved.1 hit
        exact ⟨mine', bytes'.trans saved.2⟩
  · intro a small
    by_cases hit : touched a
    · obtain ⟨i, co, _, mine, at_i, below⟩ := owned a hit small
      exact ⟨i, co, mine, at_i, below⟩
    · obtain ⟨before, _⟩ := same_small' same hit small
      obtain ⟨i, co, mine, at_i, below⟩ := seats.owned a before
      have still : ¬ changed i := fun moved => hit ((cover a i before mine).mpr moved)
      obtain ⟨C, _, mirrors⟩ := seat_filled seats at_i
      obtain ⟨stack, cell, _⟩ := mirrors.task
      obtain ⟨cell', _⟩ := kept (.inl ⟨_, cell⟩) mirrors.mine still
      refine ⟨i, co, (keep a hit).trans mine, (off i still).2.trans at_i, ?_⟩
      unfold Owned
      rw [cell']
      exact below

theorem seats_same (seats : Seats h slot seat owner) (same : Same h h' fun _ => False) :
    Seats h' slot seat owner := by
  apply seats_change (fun _ => False) seats same
  · exact fun j _ => ⟨rfl, rfl⟩
  · exact fun a i _ _ => Iff.rfl
  · exact fun a _ => rfl
  · exact fun i hit => hit.elim
  · exact fun i co C hit => hit.elim
  · exact fun a hit => hit.elim

theorem small_live {a : Nat} (small : Small h a) : h.cells a ≠ none := by
  rcases small with ⟨C, cell⟩ | ⟨n, data, cell⟩ <;> simp [cell]

theorem owned_here (seats : Seats h slot seat owner) {i co a : Nat} {C : Coroutine}
    {stack : Option Nat} (at_i : seat i = some co)
    (cell : h.cells co = some (.coroutine (taskOf C co stack))) (small : Small h a)
    (mine : owner a = some i) : a = co ∨ stack = some a := by
  obtain ⟨j, co', mine', at_j, below⟩ := seats.owned a small
  cases mine.symm.trans mine'
  cases at_i.symm.trans at_j
  rcases below with here | ⟨D, cell', saved⟩
  · exact .inl here
  · cases cell.symm.trans cell'
    exact .inr saved

theorem seats_replace (seats : Seats h slot seat owner) {i co : Nat} {C C' : Coroutine}
    {stack stack' : Option Nat} (at_i : seat i = some co) (mine : owner co = some i)
    (cell : h.cells co = some (.coroutine (taskOf C co stack))) (saved : Saved h owner i C stack)
    (same : Same h h' fun a => a = co ∨ stack = some a ∨ stack' = some a)
    (cell' : h'.cells co = some (.coroutine (taskOf C' co stack')))
    (fits : C'.size ≤ C'.cap) (inside : C'.size ≤ STACK_SIZE)
    (bare : stack' = none → C'.cap = 0 ∧ C'.status ≠ .SUSPEND)
    (fresh : ∀ b, stack' = some b → (stack = some b ∨ h.cells b = none) ∧ b ≠ co ∧
      h'.cells b = some (.bytes C'.cap C'.stack))
    (gone : ∀ b, stack = some b → stack' ≠ some b → h'.cells b = none) :
    Seats h' (Function.update slot i (some C')) seat
      fun a => if stack' = some a then some i else owner a := by
  have mine' : (if stack' = some co then some i else owner co) = some i := by
    split
    · rfl
    · exact mine
  apply seats_change (· = i) seats same
  · intro j other
    exact ⟨Function.update_of_ne other _ _, rfl⟩
  · intro a j small owns
    constructor
    · rintro (rfl | old | new)
      · exact Option.some.inj (owns.symm.trans mine)
      · rw [old] at saved
        exact Option.some.inj (owns.symm.trans saved.1)
      · rcases (fresh a new).1 with old | free
        · rw [old] at saved
          exact Option.some.inj (owns.symm.trans saved.1)
        · exact absurd free (small_live small)
    · rintro rfl
      exact (owned_here seats at_i cell small owns).imp_right .inl
  · intro a free
    exact if_neg fun new => free (.inr (.inr new))
  · rintro j rfl
    rw [at_i, Function.update_self]
    exact iff_of_false (Option.some_ne_none co) (Option.some_ne_none C')
  · rintro j co' D rfl at_j here
    cases at_i.symm.trans at_j
    rw [Function.update_self] at here
    cases here
    refine ⟨mine', fits, inside, stack', cell', ?_⟩
    cases stack' with
    | none => exact bare rfl
    | some b => exact ⟨if_pos rfl, (fresh b rfl).2.2⟩
  · intro a touch small
    by_cases new : stack' = some a
    · exact ⟨i, co, rfl, if_pos new, at_i, .inr ⟨_, cell', new⟩⟩
    · rcases touch with rfl | old | new'
      · exact ⟨i, a, rfl, mine', at_i, .inl rfl⟩
      · exact absurd (gone a old new) (small_live small)
      · exact absurd new' new

theorem seats_clear (seats : Seats h slot seat owner) {i co : Nat} {C : Coroutine}
    {stack : Option Nat} (at_i : seat i = some co) (mine : owner co = some i)
    (cell : h.cells co = some (.coroutine (taskOf C co stack))) (saved : Saved h owner i C stack)
    (same : Same h h' fun a => a = co ∨ stack = some a) (gone : h'.cells co = none)
    (gone' : ∀ b, stack = some b → h'.cells b = none) :
    Seats h' (Function.update slot i none) (Function.update seat i none) owner := by
  apply seats_change (· = i) seats same
  · intro j other
    exact ⟨Function.update_of_ne other _ _, Function.update_of_ne other _ _⟩
  · intro a j small owns
    constructor
    · rintro (rfl | old)
      · exact Option.some.inj (owns.symm.trans mine)
      · rw [old] at saved
        exact Option.some.inj (owns.symm.trans saved.1)
    · rintro rfl
      exact owned_here seats at_i cell small owns
  · exact fun a _ => rfl
  · rintro j rfl
    rw [Function.update_self, Function.update_self]
    exact iff_of_true rfl rfl
  · rintro j co' D rfl at_j
    rw [Function.update_self] at at_j
    cases at_j
  · intro a touch small
    have dead : h'.cells a = none := by
      rcases touch with rfl | old
      · exact gone
      · exact gone' a old
    exact absurd dead (small_live small)

theorem seats_add (seats : Seats h slot seat owner) {i co : Nat} {data : Mem UInt8}
    (vacant : slot i = none) (free : h.cells co = none) (same : Same h h' fun a => a = co)
    (cell : h'.cells co = some (.coroutine ⟨none, 0, 0, .READY, none⟩)) :
    Seats h' (Function.update slot i (some (coNew data))) (Function.update seat i (some co))
      (Function.update owner co (some i)) := by
  apply seats_change (· = i) seats same
  · intro j other
    exact ⟨Function.update_of_ne other _ _, Function.update_of_ne other _ _⟩
  · intro a j small owns
    constructor
    · rintro rfl
      exact absurd free (small_live small)
    · rintro rfl
      obtain ⟨i, co', mine, at_i, _⟩ := seats.owned a small
      cases owns.symm.trans mine
      rw [(seats.vacant j).mpr vacant] at at_i
      cases at_i
  · exact fun a other => Function.update_of_ne other _ _
  · rintro j rfl
    rw [Function.update_self, Function.update_self]
    exact iff_of_false (Option.some_ne_none _) (Option.some_ne_none _)
  · rintro j co' D rfl at_j here
    rw [Function.update_self] at at_j here
    cases at_j
    cases here
    exact ⟨Function.update_self _ _ _, Nat.le_refl 0, Nat.zero_le _, none, cell, rfl,
      fun suspended => by cases suspended⟩
  · rintro a rfl _
    exact ⟨i, a, rfl, Function.update_self _ _ _, Function.update_self _ _ _, .inl rfl⟩

end Seats

section Housed

/-- The memory of a scheduler: the schedule at a, the table at t, and the coroutines. -/
structure Housed (h : Blocks) (a : Nat) (S : Scheduler) (t : Nat) (slots : List (Option Nat))
    (slot : Nat → Option Coroutine) (owner : Nat → Option Nat) : Prop where
  sound : h.Sound
  base : h.base = 0
  schedule : h.cells a = some (.schedule S)
  co : S.co = some t
  table : h.cells t = some (.table slots)
  seats : Seats h slot (fun i => (slots[i]?).join) owner
  only : ∀ x, h.cells x ≠ none → x = a ∨ x = t ∨ Small h x

variable {h : Blocks} {a t : Nat} {S : Scheduler} {slots : List (Option Nat)}
  {slot : Nat → Option Coroutine} {owner : Nat → Option Nat}

theorem schedule_at (cell : h.cells a = some (.schedule S)) : h.schedule a = some S := by
  unfold Blocks.schedule
  rw [cell]

theorem table_at (cell : h.cells t = some (.table slots)) : h.table t = some slots := by
  unfold Blocks.table
  rw [cell]

theorem task_at {co : Nat} {C : Task} (cell : h.cells co = some (.coroutine C)) :
    h.task co = some C := by
  unfold Blocks.task
  rw [cell]

theorem slot_at (co : S.co = some t) (cell : h.cells t = some (.table slots)) (i : Nat) :
    h.slot S i = slots[i]? := by
  unfold Blocks.slot
  rw [co]
  exact congrArg (Option.bind · fun slots => slots[i]?) (table_at cell)

theorem set_slot_at (co : S.co = some t) (cell : h.cells t = some (.table slots)) {i : Nat}
    (inside : i < slots.length) (x : Option Nat) :
    h.setSlot S i x = some (h.put t (.table (slots.set i x))) := by
  unfold Blocks.setSlot
  rw [co]
  simp only [Option.bind_eq_bind, Option.bind_some, table_at cell, if_pos inside]
  exact Heap.write_live cell _

theorem free_at {b : Nat} {block : Block} (base : h.base = 0) (cell : h.cells b = some block) :
    h.free b = some (h.drop b) :=
  Heap.free_live cell (base ▸ Nat.zero_le b)

theorem same_put {b : Nat} {block : Block} (large : ¬ Small h b)
    (large' : ¬ Small (h.put b block) b) : Same h (h.put b block) fun _ => False := by
  intro x _
  by_cases here : x = b
  · subst here
    exact .inr ⟨large, large'⟩
  · exact .inl (h.put_other block here)

theorem schedule_large (cell : h.cells a = some (.schedule S)) : ¬ Small h a := by
  rintro (⟨C, other⟩ | ⟨n, data, other⟩) <;> cases cell.symm.trans other

theorem table_large (cell : h.cells t = some (.table slots)) : ¬ Small h t := by
  rintro (⟨C, other⟩ | ⟨n, data, other⟩) <;> cases cell.symm.trans other

theorem housed_apart (housed : Housed h a S t slots slot owner) : a ≠ t := by
  rintro rfl
  cases housed.schedule.symm.trans housed.table

theorem housed_schedule (housed : Housed h a S t slots slot owner) (S' : Scheduler)
    (co : S'.co = some t) : Housed (h.put a (.schedule S')) a S' t slots slot owner := by
  have here := h.put_same a (.schedule S')
  have same := same_put (schedule_large housed.schedule) (schedule_large here)
  refine ⟨Heap.sound_put housed.sound housed.schedule _, housed.base, here, co, ?_,
    seats_same housed.seats same, ?_⟩
  · rw [h.put_other _ (housed_apart housed).symm]
    exact housed.table
  · intro x live
    by_cases at_a : x = a
    · exact .inl at_a
    · have cells := h.put_other (.schedule S') at_a
      rw [cells] at live
      exact (housed.only x live).imp_right (Or.imp_right (small_cells cells).mpr)

theorem join_set_seat {slots : List (Option Nat)} {i : Nat} (x : Option Nat)
    (inside : i < slots.length) :
    (fun j => ((slots.set i x)[j]?).join) =
      Function.update (fun j => (slots[j]?).join) i x := by
  funext j
  rw [List.getElem?_set]
  by_cases here : j = i
  · subst here
    simp [inside]
  · rw [Function.update_of_ne here, if_neg (Ne.symm here)]

/-- Only blocks of coroutines are written, taken or freed. -/
theorem housed_small (touched : Nat → Prop) (housed : Housed h a S t slots slot owner)
    {h' : Blocks} {slot' : Nat → Option Coroutine} {owner' : Nat → Option Nat}
    (sound : h'.Sound) (base : h'.base = 0)
    (others : ∀ x, ¬ touched x → h'.cells x = h.cells x)
    (away : ∀ x, touched x → ¬ ∃ block, h.cells x = some block ∧ ¬ Small h x)
    (small : ∀ x, touched x → h'.cells x = none ∨ Small h' x)
    (seats : Seats h' slot' (fun i => (slots[i]?).join) owner') :
    Housed h' a S t slots slot' owner' := by
  have free : ¬ touched a := fun hit =>
    away a hit ⟨_, housed.schedule, schedule_large housed.schedule⟩
  have free' : ¬ touched t := fun hit => away t hit ⟨_, housed.table, table_large housed.table⟩
  refine ⟨sound, base, (others a free).trans housed.schedule, housed.co,
    (others t free').trans housed.table, seats, ?_⟩
  intro x live
  by_cases hit : touched x
  · exact .inr (.inr ((small x hit).resolve_left live))
  · have cells := others x hit
    rw [cells] at live
    exact (housed.only x live).imp_right (Or.imp_right (small_cells cells).mpr)

theorem small_here {x : Nat} (small : Small h x) :
    ¬ ∃ block, h.cells x = some block ∧ ¬ Small h x := by
  rintro ⟨_, _, large⟩
  exact large small

theorem free_here {x : Nat} (free : h.cells x = none) :
    ¬ ∃ block, h.cells x = some block ∧ ¬ Small h x := by
  rintro ⟨_, cell, _⟩
  rw [free] at cell
  cases cell

theorem housed_status (housed : Housed h a S t slots slot owner) {i co : Nat}
    {C : Coroutine} {stack : Option Nat} (at_i : (slots[i]?).join = some co) (C' : Coroutine)
    (mine : owner co = some i) (cell : h.cells co = some (.coroutine (taskOf C co stack)))
    (saved : Saved h owner i C stack) (cap : C'.cap = C.cap) (data : C'.stack = C.stack)
    (fits : C'.size ≤ C'.cap) (inside : C'.size ≤ STACK_SIZE)
    (bare : stack = none → C'.status ≠ .SUSPEND) :
    ∃ owner', Housed (h.put co (.coroutine (taskOf C' co stack))) a S t slots
      (Function.update slot i (some C')) owner' := by
  have here := h.put_same co (.coroutine (taskOf C' co stack))
  have others : ∀ x, ¬ x = co →
      (h.put co (.coroutine (taskOf C' co stack))).cells x = h.cells x :=
    fun x other => h.put_other _ other
  refine ⟨_, housed_small (· = co) housed (Heap.sound_put housed.sound cell _)
    housed.base others ?_ ?_
    (seats_replace housed.seats at_i mine cell saved ?_ here fits inside ?_ ?_ ?_)⟩
  · rintro x rfl
    exact small_here (.inl ⟨_, cell⟩)
  · rintro x rfl
    exact .inr (.inl ⟨_, here⟩)
  · intro x free
    exact .inl (others x fun equal => free (.inl equal))
  · rintro rfl
    exact ⟨cap.trans saved.1, bare rfl⟩
  · rintro b rfl
    have apart : b ≠ co := by
      rintro rfl
      cases cell.symm.trans saved.2
    refine ⟨.inl rfl, apart, ?_⟩
    rw [others b apart, cap, data]
    exact saved.2
  · intro b old new
    exact absurd old new

structure Released (h h' : Blocks) (stack : Option Nat) : Prop where
  sound : h'.Sound
  base : h'.base = 0
  fresh : h'.fresh = h.fresh
  gone : ∀ b, stack = some b → h'.cells b = none
  kept : ∀ x, stack ≠ some x → h'.cells x = h.cells x

theorem release_at (sound : h.Sound) (base : h.base = 0) {i : Nat} {C : Coroutine}
    {stack : Option Nat} (saved : Saved h owner i C stack) :
    ∃ h', h.release stack = some h' ∧ Released h h' stack := by
  cases stack with
  | none => exact ⟨h, rfl, sound, base, rfl, fun b equal => (by cases equal), fun _ _ => rfl⟩
  | some b =>
    refine ⟨h.drop b, free_at base saved.2, Heap.sound_drop sound saved.2 (base ▸ Nat.zero_le b),
      base, rfl, ?_, ?_⟩
    · rintro x ⟨⟩
      exact h.drop_same b
    · intro x other
      exact h.drop_other fun equal => other (congrArg some equal.symm)

theorem fresh_free (sound : h.Sound) : h.cells h.fresh = none := by
  have dead := (sound.live h.fresh).not.mpr fun both => Nat.lt_irrefl _ both.1
  simpa using dead

theorem save_larger {C : Coroutine} {depth : Nat} (larger : C.cap < depth)
    (shared fresh : Mem UInt8) :
    saveStack C shared depth fresh = ⟨C.ctx, depth, depth, C.status,
      memcpy fresh 0 shared (STACK_SIZE - depth) depth⟩ := by
  simp only [saveStack, growStack, if_pos larger]

theorem save_fitting {C : Coroutine} {depth : Nat} (fits : ¬ C.cap < depth)
    (shared fresh : Mem UInt8) :
    saveStack C shared depth fresh = ⟨C.ctx, C.cap, depth, C.status,
      memcpy C.stack 0 shared (STACK_SIZE - depth) depth⟩ := by
  simp only [saveStack, growStack, if_neg fits]

/-- With a buffer from malloc in place of the one that was freed. -/
def regrown (h : Blocks) (co depth : Nat) (fresh : Mem UInt8) (C : Coroutine) : Blocks :=
  ((h.malloc (.bytes depth fresh)).2.put co (.coroutine (taskOf C co (some h.fresh)))).put h.fresh
    (.bytes C.cap C.stack)

theorem save_runs {h₁ : Blocks} {co : Nat} {C : Coroutine} {stack : Option Nat}
    (cell : h.cells co = some (.coroutine (taskOf C co stack)))
    (freed : h.release stack = some h₁)
    (cell₁ : h₁.cells co = some (.coroutine (taskOf C co stack))) (other : co ≠ h₁.fresh)
    (shared fresh : Mem UInt8) {depth : Nat} (larger : C.cap < depth) :
    h.saveStack co shared depth fresh =
      some (regrown h₁ co depth fresh (saveStack C shared depth fresh)) := by
  have longer : (taskOf C co stack).cap < depth := larger
  have freed' : h.release (taskOf C co stack).stack = some h₁ := freed
  have cell₂ := (h₁.malloc_other (.bytes depth fresh) other).trans cell₁
  let made : Task := { taskOf C co stack with cap := depth, size := depth, stack := some h₁.fresh }
  have buffer₃ : ((h₁.malloc (.bytes depth fresh)).2.put co (.coroutine made)).cells h₁.fresh =
      some (.bytes depth fresh) := ((h₁.malloc _).2.put_other _ other.symm).trans (h₁.malloc_new _)
  have copied : Blocks.copyTo ((h₁.malloc (.bytes depth fresh)).2.put co (.coroutine made)) h₁.fresh
      shared (STACK_SIZE - depth) depth =
        some (regrown h₁ co depth fresh (saveStack C shared depth fresh)) := by
    unfold Blocks.copyTo
    rw [buffer₃]
    dsimp only
    rw [if_pos (Nat.le_refl depth), Heap.write_live buffer₃, save_larger larger]
    rfl
  unfold Blocks.saveStack
  simp only [task_at cell, Option.bind_eq_bind, Option.bind_some, if_pos longer, freed']
  rw [Heap.write_live cell₂, Option.bind_some]
  exact copied

theorem regrown_cells (h : Blocks) {co depth x : Nat} {fresh : Mem UInt8} {C : Coroutine}
    (not_co : x ≠ co) (not_new : x ≠ h.fresh) :
    (regrown h co depth fresh C).cells x = h.cells x :=
  (Heap.put_other _ _ not_new).trans
    ((Heap.put_other _ _ not_co).trans (h.malloc_other _ not_new))

theorem housed_grow (housed : Housed h a S t slots slot owner) {i co : Nat} {C : Coroutine}
    {stack : Option Nat} (at_i : (slots[i]?).join = some co) (mine : owner co = some i)
    (cell : h.cells co = some (.coroutine (taskOf C co stack))) (saved : Saved h owner i C stack)
    (shared fresh : Mem UInt8) {depth : Nat} (larger : C.cap < depth)
    (shallow : depth ≤ STACK_SIZE) :
    ∃ h' owner', h.saveStack co shared depth fresh = some h' ∧
      Housed h' a S t slots
        (Function.update slot i (some (saveStack C shared depth fresh))) owner' := by
  obtain ⟨h₁, freed, released⟩ := release_at housed.sound housed.base saved
  have apart : stack ≠ some co := by
    rintro rfl
    cases cell.symm.trans saved.2
  have cell₁ := (released.kept co apart).trans cell
  have free₁ := fresh_free released.sound
  have free : h.cells h₁.fresh = none := released.fresh ▸ fresh_free housed.sound
  have other : co ≠ h₁.fresh := by
    intro equal
    rw [← equal, cell] at free
    cases free
  have old_other : ∀ b, stack = some b → b ≠ h₁.fresh := by
    rintro b rfl equal
    rw [← equal, saved.2] at free
    cases free
  have made := save_larger larger shared fresh
  let C' := saveStack C shared depth fresh
  let h' := regrown h₁ co depth fresh C'
  have cell' : h'.cells co = some (.coroutine (taskOf C' co (some h₁.fresh))) :=
    (Heap.put_other _ _ other).trans (Heap.put_same _ _ _)
  have buffer' : h'.cells h₁.fresh = some (.bytes C'.cap C'.stack) := Heap.put_same _ _ _
  have gone : ∀ b, stack = some b → h'.cells b = none := by
    intro b old
    have not_co : b ≠ co := fun equal => apart (equal ▸ old)
    exact (regrown_cells h₁ not_co (old_other b old)).trans (released.gone b old)
  have others : ∀ x, ¬ (x = co ∨ stack = some x ∨ some h₁.fresh = some x) →
      h'.cells x = h.cells x := by
    intro x free
    rw [not_or, not_or, Option.some.injEq] at free
    exact (regrown_cells h₁ free.1 (Ne.symm free.2.2)).trans (released.kept x free.2.1)
  have sound' : h'.Sound := by
    have cell₂ := (h₁.malloc_other (.bytes depth fresh) other).trans cell₁
    have buffer₃ := ((h₁.malloc (.bytes depth fresh)).2.put_other
      (.coroutine (taskOf C' co (some h₁.fresh))) other.symm).trans (h₁.malloc_new _)
    exact Heap.sound_put (Heap.sound_put (Heap.sound_malloc released.sound _) cell₂ _) buffer₃ _
  have fits : C'.size ≤ C'.cap ∧ C'.size ≤ STACK_SIZE := by
    simp only [C', made]
    exact ⟨Nat.le_refl depth, shallow⟩
  refine ⟨h', _, save_runs cell freed cell₁ other shared fresh larger,
    housed_small _ housed sound' released.base others ?_ ?_
      (seats_replace housed.seats at_i mine cell saved (fun x free => .inl (others x free)) cell'
        fits.1 fits.2 (fun none => by cases none) ?_ fun b old _ => gone b old)⟩
  · rintro x (rfl | old | new)
    · exact small_here (.inl ⟨_, cell⟩)
    · rw [old] at saved
      exact small_here (.inr ⟨_, _, saved.2⟩)
    · exact free_here (Option.some.inj new ▸ free)
  · rintro x (rfl | old | new)
    · exact .inr (.inl ⟨_, cell'⟩)
    · exact .inl (gone x old)
    · exact .inr (.inr ⟨_, _, Option.some.inj new ▸ buffer'⟩)
  · rintro b new
    cases new
    exact ⟨.inr free, other.symm, buffer'⟩

theorem housed_refill (housed : Housed h a S t slots slot owner) {i co b : Nat} {C : Coroutine}
    (at_i : (slots[i]?).join = some co) (mine : owner co = some i)
    (cell : h.cells co = some (.coroutine (taskOf C co (some b))))
    (saved : Saved h owner i C (some b)) (shared fresh : Mem UInt8) {depth : Nat}
    (room : ¬ C.cap < depth) (shallow : depth ≤ STACK_SIZE) :
    ∃ h' owner', h.saveStack co shared depth fresh = some h' ∧
      Housed h' a S t slots
        (Function.update slot i (some (saveStack C shared depth fresh))) owner' := by
  have made := save_fitting room shared fresh
  let C' := saveStack C shared depth fresh
  have apart : b ≠ co := by
    rintro rfl
    cases cell.symm.trans saved.2
  let h₁ : Blocks := h.put co (.coroutine (taskOf C' co (some b)))
  have bytes₁ : h₁.cells b = some (.bytes C.cap C.stack) := (h.put_other _ apart).trans saved.2
  let h' : Blocks := h₁.put b (.bytes C'.cap C'.stack)
  have cell' : h'.cells co = some (.coroutine (taskOf C' co (some b))) :=
    (h₁.put_other _ apart.symm).trans (h.put_same _ _)
  have bytes' : h'.cells b = some (.bytes C'.cap C'.stack) := h₁.put_same _ _
  have others : ∀ x, ¬ (x = co ∨ some b = some x ∨ some b = some x) →
      h'.cells x = h.cells x := by
    intro x free
    rw [not_or, not_or, Option.some.injEq] at free
    exact (h₁.put_other _ (Ne.symm free.2.1)).trans (h.put_other _ free.1)
  have sound' : h'.Sound := Heap.sound_put (Heap.sound_put housed.sound cell _) bytes₁ _
  have fits : C'.size ≤ C'.cap ∧ C'.size ≤ STACK_SIZE := by
    simp only [C', made]
    exact ⟨by omega, shallow⟩
  have runs : h.saveStack co shared depth fresh = some h' := by
    have shorter : ¬ (taskOf C co (some b)).cap < depth := room
    have written : h.write co (.coroutine { taskOf C co (some b) with size := depth }) =
        some h₁ := by
      rw [Heap.write_live cell]
      simp only [h₁, C', made, taskOf]
    have copied : h₁.copyTo b shared (STACK_SIZE - depth) depth = some h' := by
      unfold Blocks.copyTo
      rw [bytes₁]
      dsimp only
      rw [if_pos (Nat.not_lt.mp room), Heap.write_live bytes₁]
      simp only [h', C', made]
    unfold Blocks.saveStack
    simp only [task_at cell, Option.bind_eq_bind, Option.bind_some, if_neg shorter, written]
    exact copied
  refine ⟨h', _, runs, housed_small _ housed sound' housed.base others ?_ ?_
    (seats_replace housed.seats at_i mine cell saved (fun x free => .inl (others x free)) cell'
      fits.1 fits.2 (fun none => by cases none) ?_ fun b' old new => absurd old new)⟩
  · rintro x (rfl | here | here)
    · exact small_here (.inl ⟨_, cell⟩)
    · exact small_here (.inr ⟨_, _, Option.some.inj here ▸ saved.2⟩)
    · exact small_here (.inr ⟨_, _, Option.some.inj here ▸ saved.2⟩)
  · rintro x (rfl | here | here)
    · exact .inr (.inl ⟨_, cell'⟩)
    · exact .inr (.inr ⟨_, _, Option.some.inj here ▸ bytes'⟩)
    · exact .inr (.inr ⟨_, _, Option.some.inj here ▸ bytes'⟩)
  · rintro b' here
    cases here
    exact ⟨.inl rfl, apart, bytes'⟩

theorem housed_save (housed : Housed h a S t slots slot owner) {i co : Nat} {C : Coroutine}
    (at_i : (slots[i]?).join = some co) (here : slot i = some C) (shared fresh : Mem UInt8)
    {depth : Nat} (positive : 0 < depth) (shallow : depth ≤ STACK_SIZE) :
    ∃ h' owner', h.saveStack co shared depth fresh = some h' ∧
      Housed h' a S t slots
        (Function.update slot i (some (saveStack C shared depth fresh))) owner' := by
  obtain ⟨mine, _, _, stack, cell, saved⟩ := housed.seats.mirror i co C at_i here
  by_cases larger : C.cap < depth
  · exact housed_grow housed at_i mine cell saved shared fresh larger shallow
  · cases stack with
    | none =>
      have empty := saved.1
      omega
    | some b => exact housed_refill housed at_i mine cell saved shared fresh larger shallow

/-- The memory behind _co_delete: nothing else has changed. -/
structure Deleted (h h₁ : Blocks) : Prop where
  sound : h₁.Sound
  base : h₁.base = 0
  large : ∀ x, ¬ Small h x → h₁.cells x = h.cells x
  left : ∀ x, h₁.cells x ≠ none → h₁.cells x = h.cells x

theorem delete_at {seat : Nat → Option Nat} (sound : h.Sound) (base : h.base = 0)
    (seats : Seats h slot seat owner) {i co : Nat} {C : Coroutine} (at_i : seat i = some co)
    (here : slot i = some C) :
    ∃ h₁, h.coDelete co = some h₁ ∧ Deleted h h₁ ∧
      Seats h₁ (Function.update slot i none) (Function.update seat i none) owner := by
  obtain ⟨mine, _, _, stack, cell, saved⟩ := seats.mirror i co C at_i here
  obtain ⟨h₀, freed, released⟩ := release_at sound base saved
  have apart : stack ≠ some co := by
    rintro rfl
    cases cell.symm.trans saved.2
  have cell₀ := (released.kept co apart).trans cell
  let h₁ : Blocks := h₀.drop co
  have deleted : h.coDelete co = some h₁ := by
    have freed' : h.release (taskOf C co stack).stack = some h₀ := freed
    unfold Blocks.coDelete
    simp only [task_at cell, Option.bind_eq_bind, Option.bind_some, freed']
    exact free_at released.base cell₀
  have others : ∀ x, ¬ (x = co ∨ stack = some x) → h₁.cells x = h.cells x := by
    intro x free
    rw [not_or] at free
    exact (h₀.drop_other free.1).trans (released.kept x free.2)
  have gone : ∀ x, x = co ∨ stack = some x → h₁.cells x = none := by
    rintro x (rfl | old)
    · exact h₀.drop_same x
    · have not_co : x ≠ co := fun equal => apart (equal ▸ old)
      exact (h₀.drop_other not_co).trans (released.gone x old)
  have small : ∀ x, x = co ∨ stack = some x → Small h x := by
    rintro x (rfl | old)
    · exact .inl ⟨_, cell⟩
    · rw [old] at saved
      exact .inr ⟨_, _, saved.2⟩
  refine ⟨h₁, deleted, ⟨?_, released.base, ?_, ?_⟩, ?_⟩
  · exact Heap.sound_drop released.sound cell₀ (released.base ▸ Nat.zero_le co)
  · exact fun x big => others x fun hit => big (small x hit)
  · exact fun x live => others x fun hit => live (gone x hit)
  · exact seats_clear seats at_i mine cell saved (fun x free => .inl (others x free))
      (gone co (.inl rfl)) fun b old => gone b (.inr old)

theorem housed_delete (housed : Housed h a S t slots slot owner) {i co : Nat} {C : Coroutine}
    (at_i : (slots[i]?).join = some co) (here : slot i = some C) :
    ∃ h₁ h₂, h.coDelete co = some h₁ ∧ h₁.cells a = some (.schedule S) ∧
      h₁.setSlot S i none = some h₂ ∧
      Housed h₂ a S t (slots.set i none) (Function.update slot i none) owner := by
  have inside : i < slots.length :=
    (List.getElem?_eq_some_iff.mp (Option.join_eq_some_iff.mp at_i)).1
  obtain ⟨h₁, runs, deleted, seats⟩ := delete_at housed.sound housed.base housed.seats at_i here
  have schedule₁ := (deleted.large a (schedule_large housed.schedule)).trans housed.schedule
  have table₁ := (deleted.large t (table_large housed.table)).trans housed.table
  let h₂ : Blocks := h₁.put t (.table (slots.set i none))
  have table₂ : h₂.cells t = some (.table (slots.set i none)) := h₁.put_same _ _
  have off : ∀ x, x ≠ t → h₂.cells x = h₁.cells x := fun x other => h₁.put_other _ other
  rw [← join_set_seat none inside] at seats
  refine ⟨h₁, h₂, runs, schedule₁, set_slot_at housed.co table₁ inside none,
    Heap.sound_put deleted.sound table₁ _, deleted.base, ?_, housed.co, table₂,
    seats_same seats (same_put (table_large table₁) (table_large table₂)), ?_⟩
  · exact (off a (housed_apart housed)).trans schedule₁
  · intro x live
    by_cases at_t : x = t
    · exact .inr (.inl at_t)
    · rw [off x at_t] at live
      have cells := deleted.left x live
      rw [cells] at live
      exact (housed.only x live).imp_right
        (Or.imp_right fun small => (small_cells ((off x at_t).trans cells)).mpr small)

theorem housed_new (housed : Housed h a S t slots slot owner) {h' : Blocks} {S' : Scheduler}
    {i co t' : Nat} {slots' : List (Option Nat)} (data : Mem UInt8) (vacant : slot i = none)
    (sound : h'.Sound) (base : h'.base = 0) (free : h.cells co = none)
    (cell : h'.cells co = some (.coroutine ⟨none, 0, 0, .READY, none⟩))
    (schedule : h'.cells a = some (.schedule S')) (co_at : S'.co = some t')
    (table : h'.cells t' = some (.table slots'))
    (moved : t' = t ∨ h'.cells t = none ∧ h.cells t' = none)
    (others : ∀ x, x ≠ a → x ≠ co → x ≠ t → x ≠ t' → h'.cells x = h.cells x)
    (seats : (fun j => (slots'[j]?).join) =
      Function.update (fun j => (slots[j]?).join) i (some co)) :
    Housed h' a S' t' slots' (Function.update slot i (some (coNew data)))
      (Function.update owner co (some i)) := by
  have bare : ∀ {g : Blocks} {x : Nat}, g.cells x = none → ¬ Small g x :=
    fun dead small => small_live small dead
  have old_t' : ¬ Small h t' := by
    rcases moved with rfl | ⟨_, free'⟩
    · exact table_large housed.table
    · exact bare free'
  have new_t : ¬ Small h' t := by
    rcases moved with rfl | ⟨dead, _⟩
    · exact table_large table
    · exact bare dead
  have same : Same h h' fun x => x = co := by
    intro x not_co
    by_cases at_a : x = a
    · subst at_a
      exact .inr ⟨schedule_large housed.schedule, schedule_large schedule⟩
    · by_cases at_t : x = t
      · subst at_t
        exact .inr ⟨table_large housed.table, new_t⟩
      · by_cases at_t' : x = t'
        · subst at_t'
          exact .inr ⟨old_t', table_large table⟩
        · exact .inl (others x at_a not_co at_t at_t')
  refine ⟨sound, base, schedule, co_at, table,
    seats ▸ seats_add housed.seats vacant free same cell, ?_⟩
  intro x live
  by_cases at_a : x = a
  · exact .inl at_a
  · by_cases at_t' : x = t'
    · exact .inr (.inl at_t')
    · by_cases not_co : x = co
      · subst not_co
        exact .inr (.inr (.inl ⟨_, cell⟩))
      · by_cases at_t : x = t
        · subst at_t
          exact absurd (moved.resolve_left (Ne.symm at_t')).1 live
        · have cells := others x at_a not_co at_t at_t'
          rw [cells] at live
          rcases housed.only x live with here | here | small
          · exact absurd here at_a
          · exact absurd here at_t
          · exact .inr (.inr ((small_cells cells).mpr small))

end Housed

end UC.Coroutines
