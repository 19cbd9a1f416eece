import UC.Lib.Memory
import UC.Lib.Runs

/- The asymmetric coroutine scheduler of coroutine.cpp. All coroutines run on the one
   buffer S->stack; a suspended one keeps the used top part of it in a buffer of its
   own. What the body of a coroutine does is left open: it is a sequence of events.
   Allocations succeed. The int counters nco and cap are numbers; see counters_fit_int. -/
namespace UC.Coroutines
open UC.Memory UC.Runs

def STACK_SIZE : Nat := 1024 * 1024
def DEFAULT_COROUTINE : Nat := 16

inductive Status where
  | DEAD
  | READY
  | RUNNING
  | SUSPEND
  deriving DecidableEq, Repr

/-- What mainfunc keeps in its frame while the body runs. -/
structure Frame where
  id : Nat

structure Coroutine where
  ctx : Option Frame
  cap : Nat
  size : Nat
  status : Status
  stack : Mem UInt8

structure Schedule where
  stack : Mem UInt8
  nco : Nat
  cap : Nat
  running : Int
  co : List (Option Coroutine)

/-- The pointer S->co[id]; none is NULL. -/
def Schedule.slot (S : Schedule) (id : Nat) : Option Coroutine := (S.co[id]?).join

def coNew (stack : Mem UInt8) : Coroutine := ⟨none, 0, 0, .READY, stack⟩

def coroutineOpen (stack : Mem UInt8) : Schedule :=
  ⟨stack, 0, DEFAULT_COROUTINE, -1, List.replicate DEFAULT_COROUTINE none⟩

/-- The search loop of coroutine_new: the first NULL slot from slot nco on, cyclically. -/
def findSlot (S : Schedule) : Option Nat :=
  (List.range S.cap).findSome? fun i =>
    let id := (i + S.nco) % S.cap
    match S.co[id]? with
    | some none => some id
    | _ => none

/-- The result none is the failing assert(0) behind the loop. -/
def coroutineNew (S : Schedule) (stack : Mem UInt8) : Option (Schedule × Nat) :=
  if S.nco ≥ S.cap then
    let id := S.cap
    let co := S.co ++ List.replicate S.cap none
    some ({ S with
      co := co.set S.cap (some (coNew stack)), cap := S.cap * 2, nco := S.nco + 1 }, id)
  else
    (findSlot S).map fun id =>
      ({ S with co := S.co.set id (some (coNew stack)), nco := S.nco + 1 }, id)

/-- Scheduler and executing context: the frame of mainfunc in a coroutine, none in main.
    The history variable yielded holds, for each slot, the bytes of the stack in use at
    the last yield of its coroutine. -/
structure Machine where
  S : Schedule
  cur : Option Frame
  yielded : Nat → List UInt8

/-- coroutine_resume; none is a failing assertion. -/
def coroutineResume (m : Machine) (id : Nat) : Option Machine :=
  if m.S.running = -1 ∧ id < m.S.cap then
    match m.S.slot id with
    | none => some m
    | some C =>
      match C.status with
      | .READY =>
        let S := { m.S with
          running := id
          co := m.S.co.set id (some { C with status := .RUNNING }) }
        -- mainfunc starts on the new context and reads S->running
        some { m with S := S, cur := some ⟨S.running.toNat⟩ }
      | .SUSPEND =>
        some { m with
          S := { m.S with
            stack := memcpy m.S.stack (STACK_SIZE - C.size) C.stack 0 C.size
            running := id
            co := m.S.co.set id (some { C with status := .RUNNING }) }
          cur := C.ctx }
      | _ => none
  else none

/-- First half of _save_stack, at depth top - &dummy; fresh is what malloc returns. -/
def growStack (C : Coroutine) (depth : Nat) (fresh : Mem UInt8) : Coroutine :=
  if C.cap < depth then { C with cap := depth, stack := fresh } else C

def saveStack (C : Coroutine) (stack : Mem UInt8) (depth : Nat) (fresh : Mem UInt8) : Coroutine :=
  let C := growStack C depth fresh
  { C with
    size := depth
    stack := memcpy C.stack 0 stack (STACK_SIZE - depth) depth }

/-- coroutine_yield, called with depth bytes of the stack in use. -/
def coroutineYield (m : Machine) (depth : Nat) (fresh : Mem UInt8) : Option Machine :=
  if m.S.running ≥ 0 ∧ depth ≤ STACK_SIZE then
    let id := m.S.running.toNat
    match m.S.slot id with
    | none => none
    | some C =>
      let C := { saveStack C m.S.stack depth fresh with status := .SUSPEND, ctx := m.cur }
      some
        { S := { m.S with running := -1, co := m.S.co.set id (some C) }
          cur := none
          yielded := fun i =>
            if i = id then slice m.S.stack (STACK_SIZE - depth) depth else m.yielded i }
  else none

/-- The end of mainfunc, when the body has returned; the context then falls back to main. -/
def mainfuncReturn (m : Machine) (frame : Frame) : Machine :=
  { m with
    S := { m.S with co := m.S.co.set frame.id none, nco := m.S.nco - 1, running := -1 }
    cur := none }

/-- One event of a history: main or a running body calls coroutine_new, main resumes,
    a body writes to the stack it runs on, yields, or returns. -/
inductive Step : Machine → Machine → Prop where
  | new {m : Machine} {S : Schedule} {id : Nat} (stack : Mem UInt8)
      (made : coroutineNew m.S stack = some (S, id)) : Step m { m with S := S }
  | resume {m m' : Machine} (id : Nat) (idle : m.cur = none) (range : id < m.S.cap)
      (resumed : coroutineResume m id = some m') : Step m m'
  | write {m : Machine} (bytes : Mem UInt8) (inside : m.cur ≠ none) :
      Step m { m with S := { m.S with stack := bytes } }
  | yield {m m' : Machine} (depth : Nat) (fresh : Mem UInt8) (inside : m.cur ≠ none)
      (shallow : depth ≤ STACK_SIZE) (yielded : coroutineYield m depth fresh = some m') : Step m m'
  | ret {m : Machine} {frame : Frame} (inside : m.cur = some frame) :
      Step m (mainfuncReturn m frame)

def start (stack : Mem UInt8) : Machine := ⟨coroutineOpen stack, none, fun _ => []⟩

end UC.Coroutines
