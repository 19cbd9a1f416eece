import Mathlib.Logic.Function.Basic
import UC.Lib.Histories
import UC.Lib.Memory

/- The ucontext scheduler of example_test.cpp. The program and each coroutine are a flow of
   control with a stack of its own; a context is a place where a flow was left, and going on
   with it is undefined once the flow has moved. -/
namespace UC.Scheduler
open UC.Memory

def MAX_COROUTINE_SIZE : Nat := 1024

inductive CoroutineState where
  | FREE
  | RUNNABLE
  | RUNNING
  | SUSPEND
  deriving DecidableEq

inductive Flow where
  | program
  | coroutine (id : Nat)
  deriving DecidableEq

/-- What swapcontext stores: the flow, and which of all saves this one is. -/
structure Context where
  flow : Flow
  save : Nat
  deriving DecidableEq

/-- func, arg and the stack are what the flow runs. The context that makecontext builds is
    entered at once, so ctx keeps those of swapcontext. -/
structure Coroutine_t where
  state : CoroutineState
  ctx : Option Context

structure Schedule_t where
  main : Option Context
  running_coroutine : Int
  coroutines : Mem Coroutine_t
  max_index : Nat

/-- parked has the last save of each flow that is left, spinning says that coroutine_resume
    goes round and never returns. -/
structure State where
  schedule : Schedule_t
  executing : Flow
  parked : Flow → Option Nat
  saves : Nat
  spinning : Bool

def start : State where
  schedule := { main := none, running_coroutine := -1, coroutines := fun _ => ⟨.FREE, none⟩,
                max_index := 0 }
  executing := .program
  parked := fun _ => none
  saves := 0
  spinning := false

/-- The context that swapcontext stores now. -/
def State.here (s : State) : Context := ⟨s.executing, s.saves⟩

def setcontext (s : State) (target : Option Context) : Option State :=
  match target with
  | none => none
  | some ctx =>
    if s.parked ctx.flow = some ctx.save then
      some { s with executing := ctx.flow, parked := Function.update s.parked ctx.flow none }
    else none

/-- The flow is left here. -/
def State.park (s : State) : State :=
  { s with parked := Function.update s.parked s.executing (some s.saves), saves := s.saves + 1 }

/-- The index that the loop of coroutine_create stops at. -/
def freeIndex (schedule : Schedule_t) : Nat :=
  ((List.range schedule.max_index).find? fun id =>
    (schedule.coroutines id).state = .FREE).getD schedule.max_index

/-- Up to the first instruction of coroute_body, which reads running_coroutine = id. -/
def coroutine_create (s : State) : Option State :=
  let id := freeIndex s.schedule
  if id < MAX_COROUTINE_SIZE then
    some { s.park with
      schedule := {
        main := some s.here
        running_coroutine := id
        coroutines := store s.schedule.coroutines id ⟨.RUNNABLE, none⟩
        max_index :=
          if id = s.schedule.max_index then s.schedule.max_index + 1 else s.schedule.max_index }
      executing := .coroutine id }
  else none

def coroutine_yield (s : State) : Option State :=
  if s.schedule.running_coroutine ≠ -1 then
    let running := s.schedule.running_coroutine.toNat
    setcontext { s.park with
      schedule := { s.schedule with
        running_coroutine := -1
        coroutines := store s.schedule.coroutines running ⟨.SUSPEND, some s.here⟩ } }
      s.schedule.main
  else some s

/-- In the case RUNNABLE the context is one of getcontext: swapcontext to it comes back to the
    same place, again and again. -/
def coroutine_resume (s : State) (id : Int) : Option State :=
  if id < 0 ∨ id ≥ s.schedule.max_index then some s
  else
    let t := s.schedule.coroutines id.toNat
    match t.state with
    | .RUNNABLE =>
      some { s with
        schedule := { s.schedule with
          running_coroutine := id
          coroutines := store s.schedule.coroutines id.toNat { t with state := .RUNNING } }
        spinning := true }
    | .SUSPEND =>
      setcontext { s.park with schedule := { s.schedule with main := some s.here } } t.ctx
    | _ => some s

/-- func returns in coroute_body, which frees its slot and goes on at uc_link. -/
def coroute_body_exit (s : State) : Option State :=
  match s.executing with
  | .program => none
  | .coroutine id =>
    setcontext { s with
      schedule := { s.schedule with
        running_coroutine := -1
        coroutines := store s.schedule.coroutines id
          { s.schedule.coroutines id with state := .FREE } } }
      s.schedule.main

inductive Event where
  | create
  | yield
  | resume (id : Int)
  | exit

def step (s : State) (ev : Event) : Option State :=
  if s.spinning then none
  else match ev with
    | .create => coroutine_create s
    | .yield => coroutine_yield s
    | .resume id => coroutine_resume s id
    | .exit => coroute_body_exit s

/-- Code of coroutine id runs with running_coroutine = id, and a coroutine_yield that it makes
    suspends id and goes to schedule.main. -/
def Obeys (s : State) : Prop :=
  ∀ id, s.executing = .coroutine id → s.schedule.running_coroutine = id ∧
    (s.spinning = false → ∃ t, step s .yield = some t ∧
      (t.schedule.coroutines id).state = .SUSPEND ∧
      s.schedule.main.map Context.flow = some t.executing)

/-- schedule.main does not lead into a coroutine. -/
def Outer (s : State) : Prop := ∀ ctx, s.schedule.main = some ctx → ctx.flow = .program

/-- Nobody resumes a suspended coroutine or, in a coroutine, another one that is RUNNABLE, and
    what yields or ends goes back to the program. -/
def Careful (s : State) : Event → Prop
  | .create => True
  | .yield => s.schedule.running_coroutine ≠ -1 → Outer s
  | .exit => Outer s
  | .resume id => 0 ≤ id → id < s.schedule.max_index →
    (s.schedule.coroutines id.toNat).state ≠ .SUSPEND ∧
      ((s.schedule.coroutines id.toNat).state = .RUNNABLE →
        s.executing = .program ∨ s.executing = .coroutine id.toNat)

end UC.Scheduler
