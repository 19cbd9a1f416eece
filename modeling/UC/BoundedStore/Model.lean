import Mathlib.Algebra.BigOperators.Group.List.Basic
import Mathlib.Algebra.Order.Ring.Int
import Mathlib.Logic.Function.Basic
import UC.Lib.Histories

/- The store of example_pthread_cond1.cpp. A region under lock is one step; it starts at the
   top of a thread's loop, or behind the pthread_cond_wait that a thread has come back from.
   Either way the thread tests the size. -/
namespace UC.BoundedStore

inductive Cond where
  | full
  | empty
  deriving DecidableEq

inductive Routine where
  | producer (left : List UInt8)
  | customer (left : Nat)
  deriving DecidableEq

/-- A thread, and the condition it waits for in pthread_cond_wait. -/
structure Thread where
  routine : Routine
  blocked : Option Cond
  deriving DecidableEq

/-- The globals and the threads; behind them what was pushed and popped so far, and every
    index at which store was read or written. -/
structure State where
  store : Int → UInt8
  size : Int
  threads : List Thread
  pushed : List UInt8
  popped : List UInt8
  indices : List Int

/-- One region of a thread, or a spurious wake-up. -/
inductive Event where
  | region (thread : Nat)
  | wake (thread : Nat)

def Thread.pushes (t : Thread) : Nat :=
  match t.routine with
  | .producer left => left.length
  | .customer _ => 0

def Thread.pops (t : Thread) : Nat :=
  match t.routine with
  | .producer _ => 0
  | .customer left => left

def Thread.Finished (t : Thread) : Prop := t.pushes = 0 ∧ t.pops = 0

def Thread.broadcast (cond : Cond) (t : Thread) : Thread :=
  if t.blocked = some cond then { t with blocked := none } else t

namespace State

def contents (s : State) : List UInt8 :=
  (List.range s.size.toNat).map fun i : Nat => s.store (i : Int)

/-- Some thread is not done, and all such threads are blocked. -/
def Deadlocked (s : State) : Prop :=
  (∃ t ∈ s.threads, ¬ t.Finished) ∧ ∀ t ∈ s.threads, ¬ t.Finished → t.blocked.isSome

def pthread_cond_wait (s : State) (cond : Cond) (i : Nat) (routine : Routine) : State :=
  { s with threads := s.threads.set i ⟨routine, some cond⟩ }

def pthread_cond_broadcast (s : State) (cond : Cond) : State :=
  { s with threads := s.threads.map (Thread.broadcast cond) }

/-- print reads the whole store. -/
def print (s : State) : State :=
  { s with indices := s.indices ++ (List.range s.size.toNat).map Int.ofNat }

def producer (s : State) (i : Nat) (c : UInt8) (left : List UInt8) : State :=
  if s.size = 8 then s.pthread_cond_wait .full i (.producer (c :: left))
  else
    let s := { s with
      store := Function.update s.store s.size c
      pushed := s.pushed ++ [c]
      indices := s.indices ++ [s.size] }
    let s := { s with size := s.size + 1 }.print.pthread_cond_broadcast .empty
    { s with threads := s.threads.set i ⟨.producer left, none⟩ }

def customer (s : State) (i left : Nat) : State :=
  if s.size = 0 then s.pthread_cond_wait .empty i (.customer (left + 1))
  else
    let s := { s with size := s.size - 1 }
    let s := { s with
      popped := s.popped ++ [s.store s.size]
      indices := s.indices ++ [s.size] }
    let s := s.print.pthread_cond_broadcast .full
    { s with threads := s.threads.set i ⟨.customer left, none⟩ }

end State

def step (s : State) : Event → Option State
  | .region i =>
    match s.threads[i]? with
    | some ⟨.producer (c :: left), none⟩ => some (s.producer i c left)
    | some ⟨.customer (left + 1), none⟩ => some (s.customer i left)
    | _ => none
  | .wake i =>
    match s.threads[i]? with
    | some ⟨routine, some _⟩ => some { s with threads := s.threads.set i ⟨routine, none⟩ }
    | _ => none

def start (producers : List (List UInt8)) (customers : List Nat) : State where
  store := fun _ => 0
  size := 0
  threads := producers.map (fun left => ⟨.producer left, none⟩) ++
    customers.map fun left => ⟨.customer left, none⟩
  pushed := []
  popped := []
  indices := []

/-- What a producer of the program pushes, 'A' to 'Z'. -/
def letters : List UInt8 := (List.range 26).map fun i => 65 + UInt8.ofNat i

def main : State := start [letters, letters] [52]

end UC.BoundedStore
