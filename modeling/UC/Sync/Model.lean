import UC.Lib.Threads

/- main of example_sync2.cpp with either of its routines: procs threads count up global_int,
   INC_TO times each, with __sync_fetch_and_add or with a load and a store under count_lock.
   sched_setaffinity may fail, and so may pthread_create. -/
namespace UC.Sync

inductive Routine where
  | thread_routine
  | thread_routine2

/-- Where a thread stands, with its i; store has the value that was loaded, and a thread that
    ended may have done so because sched_setaffinity failed. -/
inductive Place where
  | setaffinity
  | loop (i : Nat)
  | load (i : Nat)
  | store (i : Nat) (loaded : BitVec 32)
  | unlock (i : Nat)
  | ended (pinned : Bool)

/-- Where main stands, with its i, and the two values it prints. -/
inductive Main where
  | create (i : Nat)
  | join (i : Nat)
  | printed (value expected : BitVec 32)

structure Program where
  global_int : BitVec 32
  count_lock : Bool
  threads : List Place
  procs : Nat
  main : Main

/-- A step of main or of thread i; ok tells whether pthread_create or sched_setaffinity went
    well, and is not looked at elsewhere. -/
inductive Event where
  | main (ok : Bool)
  | thread (i : Nat) (ok : Bool)

namespace Program

/-- sysconf gives online, and malloc gives the array of threads. -/
def boot (online : Int) (malloc : Bool) : Option Program :=
  if online < 0 ∨ malloc = false then none
  else some ⟨0, false, [], online.toNat, .create 0⟩

variable (routine : Routine) (INC_TO : Nat)

def runMain (s : Program) (ok : Bool) : Option Program :=
  match s.main with
  | .create i =>
    if i < s.procs then
      if ok then some { s with threads := s.threads ++ [.setaffinity], main := .create (i + 1) }
      else some { s with procs := i, main := .join 0 }
    else some { s with main := .join 0 }
  | .join i =>
    if i < s.procs then
      match s.threads[i]? with
      | some (.ended _) => some { s with main := .join (i + 1) }
      | _ => none
    else some { s with
      main := .printed s.global_int (BitVec.ofNat 32 INC_TO * BitVec.ofNat 32 s.procs) }
  | .printed _ _ => none

def goto (s : Program) (i : Nat) (place : Place) : Program :=
  { s with threads := s.threads.set i place }

/-- A step of thread i from a place; pthread_mutex_lock has no step while the lock is held. -/
def runThread (s : Program) (i : Nat) (ok : Bool) : Place → Option Program
  | .setaffinity => some (s.goto i (if ok then .loop 0 else .ended false))
  | .loop n =>
    if n < INC_TO then
      match routine with
      | .thread_routine => some { s.goto i (.loop (n + 1)) with global_int := s.global_int + 1 }
      | .thread_routine2 =>
        if s.count_lock then none else some { s.goto i (.load n) with count_lock := true }
    else some (s.goto i (.ended true))
  | .load n => some (s.goto i (.store n s.global_int))
  | .store n loaded => some { s.goto i (.unlock n) with global_int := loaded + 1 }
  | .unlock n => some { s.goto i (.loop (n + 1)) with count_lock := false }
  | .ended _ => none

def step (s : Program) : Event → Option Program
  | .main ok => s.runMain INC_TO ok
  | .thread i ok => s.threads[i]?.bind (s.runThread routine INC_TO i ok)

end Program

end UC.Sync
