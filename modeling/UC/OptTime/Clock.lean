import UC.Lib.Histories

/- opt_gettimeofday and opt_time of opt_time.h, called by any number of threads that share the
   statics of one of them. Every read and store of a static is one step, and so are cmpxchg and
   RDTSC. gettimeofday is not part of the source: its stores into walltime, one step each, come
   with the step that calls it. -/
namespace UC.OptTime

structure Timeval where
  tv_sec : Int
  tv_usec : Int

/-- A store into one part of a timeval. -/
inductive Store where
  | tv_sec (n : Int)
  | tv_usec (n : Int)

def Store.apply (tv : Timeval) : Store → Timeval
  | .tv_sec n => { tv with tv_sec := n }
  | .tv_usec n => { tv with tv_usec := n }

/-- CPU_SPEED_GB*1000*REGET_TIME_US, the same for both functions. -/
def max_ticks : UInt64 := 1 * 1000 * 1

inductive Function where
  | opt_gettimeofday
  | opt_time

/-- Where a thread stands in the function. Behind the first read of the copy stands the number of
    refreshes at that read, which no step but the one that leaves looks at. -/
inductive Place where
  | outside
  | testSec
  | testTick
  | testLock
  | cas
  | fetch
  | store (reading : Timeval) (stores : List Store)
  | storeTick
  | unlock
  | copySec
  | copyRest (tv_sec : Int) (refreshes : Nat)
  | system

/-- What a call gives its caller: tv of opt_gettimeofday; the value of opt_time, and *t where t is
    not NULL. The result is quiet when it is of gettimeofday itself or no refresh was under way
    during the copy. -/
structure Result where
  tv_sec : Int
  tv_usec : Option Int
  t : Option Int
  quiet : Bool

/-- The statics, the threads, and which of them have called with a t. Behind them the results so
    far, the readings of gettimeofday, and how often it has begun or ended to refresh walltime. -/
structure Clock where
  walltick : UInt64
  walltime : Timeval
  lock : Nat
  threads : List Place
  given : Nat → Bool
  results : List Result
  readings : List Timeval
  refreshes : Nat

/-- A call, with a t or without; a step, with the values that RDTSC and gettimeofday have for it
    and the stores with which gettimeofday hands its value over. -/
inductive Tick where
  | call (i : Nat) (t : Bool)
  | run (i : Nat) (rdtsc : UInt64) (now : Timeval) (stores : List Store)

namespace Clock

def start (threads : Nat) : Clock where
  walltick := 0
  walltime := ⟨0, 0⟩
  lock := 0
  threads := List.replicate threads .outside
  given := fun _ => false
  results := []
  readings := []
  refreshes := 0

def goto (s : Clock) (i : Nat) (place : Place) : Clock :=
  { s with threads := s.threads.set i place }

def leave (s : Clock) (i : Nat) (result : Result) : Clock :=
  { s.goto i .outside with results := s.results ++ [result] }

/-- gettimeofday has these stores left. -/
def refresh (s : Clock) (i : Nat) (reading : Timeval) : List Store → Clock
  | [] => { s.goto i .storeTick with refreshes := s.refreshes + 1 }
  | stores => s.goto i (.store reading stores)

/-- A step of thread i from a place inside the function. -/
def advance (f : Function) (s : Clock) (i : Nat) (rdtsc : UInt64) (now : Timeval)
    (stores : List Store) : Place → Option Clock
  | .outside => none
  | .testSec => some (s.goto i (if s.walltime.tv_sec = 0 then .testLock else .testTick))
  | .testTick => some (s.goto i (if rdtsc - s.walltick > max_ticks then .testLock else .copySec))
  | .testLock => some (s.goto i (if s.lock = 0 then .cas else .system))
  | .cas =>
    if s.lock = 0 then some { s.goto i .fetch with lock := 1 } else some (s.goto i .system)
  | .fetch => some { s.goto i (.store now stores) with
      readings := s.readings ++ [now], refreshes := s.refreshes + 1 }
  | .store reading [] => some (s.refresh i reading [])
  | .store reading (part :: stores) =>
    some ({ s with walltime := part.apply s.walltime }.refresh i reading stores)
  | .storeTick => some { s.goto i .unlock with walltick := rdtsc }
  | .unlock => some { s.goto i .copySec with lock := 0 }
  | .copySec =>
    match f with
    | .opt_gettimeofday => some (s.goto i (.copyRest s.walltime.tv_sec s.refreshes))
    | .opt_time =>
      if s.given i then some (s.goto i (.copyRest s.walltime.tv_sec s.refreshes))
      else some (s.leave i ⟨s.walltime.tv_sec, none, none, decide (s.refreshes % 2 = 0)⟩)
  | .copyRest tv_sec refreshes =>
    let quiet := decide (refreshes = s.refreshes ∧ refreshes % 2 = 0)
    match f with
    | .opt_gettimeofday => some (s.leave i ⟨tv_sec, some s.walltime.tv_usec, none, quiet⟩)
    -- *t was the first read of tv_sec, the value of the call is the second
    | .opt_time => some (s.leave i ⟨s.walltime.tv_sec, none, some tv_sec, quiet⟩)
  | .system =>
    let result : Result :=
      match f with
      | .opt_gettimeofday => ⟨now.tv_sec, some now.tv_usec, none, true⟩
      | .opt_time => ⟨now.tv_sec, none, if s.given i then some now.tv_sec else none, true⟩
    some { s.leave i result with readings := s.readings ++ [now] }

def step (f : Function) (s : Clock) : Tick → Option Clock
  | .call i t =>
    match s.threads[i]? with
    | some .outside =>
      some { s.goto i .testSec with given := fun j => if j = i then t else s.given j }
    | _ => none
  | .run i rdtsc now stores => s.threads[i]?.bind (s.advance f i rdtsc now stores)

end Clock

end UC.OptTime
