import Mathlib.Data.Int.Order.Basic
import UC.Lib.Memory
import UC.Lib.Runs

/- The thread pool of example_thread_pool.cpp. A region under queue_lock is one step, and so
   is each callback, free and malloc. Freed addresses may be handed out again. Using a freed
   node and a failing assertion set fault. The int cur_queue_size is a number; see
   counter_fits_int. -/
namespace UC.ThreadPool
open UC.Memory

abbrev Ptr := Nat

/-- process and arg are the work; serial is the number of the call that made the node and is
    read by no step. -/
structure CThread_worker (Work : Type*) where
  work : Work
  next : Option Ptr
  serial : Nat

structure CThread_pool where
  queue_head : Option Ptr
  shutdown : Bool
  max_thread_num : Nat
  cur_queue_size : Int

/-- Where a thread of thread_routine stands. -/
inductive Routine where
  | locking
  | waiting
  | running (worker : Ptr)
  | freeing (worker : Ptr)
  | exited
  deriving DecidableEq

variable {Work : Type*}

abbrev Workers (Work : Type*) := Mem (Option (CThread_worker Work))

/-- while (member->next != NULL) member = member->next. -/
def lastMember (memory : Workers Work) : Nat → Ptr → Option Ptr
  | 0, _ => none
  | fuel + 1, member =>
    (memory member).bind fun node =>
      match node.next with
      | none => some member
      | some next => lastMember memory fuel next

/-- The region of pool_add_worker; none when the walk does not end or leaves the memory. -/
def pool_add_worker (fuel : Nat) (memory : Workers Work) (pool : CThread_pool)
    (newworker : Ptr) : Option (Workers Work × CThread_pool) :=
  match pool.queue_head with
  | none => some (memory,
      { pool with queue_head := some newworker, cur_queue_size := pool.cur_queue_size + 1 })
  | some head =>
    (lastMember memory fuel head).bind fun member =>
      (memory member).map fun node =>
        (store memory member (some { node with next := some newworker }),
          { pool with cur_queue_size := pool.cur_queue_size + 1 })

inductive Region where
  | wait
  | exit
  | take (worker : Ptr) (pool : CThread_pool)
  | assertion
  | freed

/-- The region of thread_routine, entered at the top of the loop or when a wait ends. -/
def thread_routine (memory : Workers Work) (pool : CThread_pool) : Region :=
  if pool.cur_queue_size = 0 ∧ pool.shutdown = false then .wait
  else if pool.shutdown = true then .exit
  else if pool.cur_queue_size = 0 then .assertion
  else match pool.queue_head with
    | none => .assertion
    | some worker =>
      match memory worker with
      | none => .freed
      | some node => .take worker
          { pool with cur_queue_size := pool.cur_queue_size - 1, queue_head := node.next }

/-- What happened to the task of a call. -/
inductive Mark (Work : Type*) where
  | executed (serial : Nat) (work : Work)
  | freed (serial : Nat)

def Mark.serial : Mark Work → Nat
  | .executed n _ => n
  | .freed n => n

/-- Behind the memory, the pool and the threads: what the calls of pool_add_worker were given,
    the nodes they have not appended yet, the serials in the order in which they were
    appended, dequeued and freed by pool_destroy, and the marks. -/
structure State (Work : Type*) where
  memory : Workers Work
  pool : CThread_pool
  threads : Nat → Routine
  fault : Bool
  calls : List Work
  built : List Ptr
  added : List Nat
  dequeued : List Nat
  drained : List Nat
  log : List (Mark Work)

def pool_init (max_thread_num : Nat) : State Work where
  memory := fun _ => none
  pool := { queue_head := none, shutdown := false, max_thread_num := max_thread_num,
            cur_queue_size := 0 }
  threads := fun _ => .locking
  fault := false
  calls := []
  built := []
  added := []
  dequeued := []
  drained := []
  log := []

def State.set (s : State Work) (t : Nat) (pc : Routine) : State Work :=
  { s with threads := store s.threads t pc }

inductive Step : State Work → State Work → Prop
  /-- malloc and the stores before the lock. -/
  | build {s} (p : Ptr) (work : Work) (fresh : s.memory p = none) :
      Step s { s with
        memory := store s.memory p (some ⟨work, none, s.calls.length⟩)
        calls := s.calls ++ [work], built := p :: s.built }
  | add {s} (p : Ptr) (fuel : Nat) {node memory pool} (mine : p ∈ s.built)
      (here : s.memory p = some node)
      (run : pool_add_worker fuel s.memory s.pool p = some (memory, pool)) :
      Step s { s with
        memory := memory, pool := pool, built := s.built.erase p
        added := s.added ++ [node.serial] }
  | wait {s} (t : Nat) (thread : t < s.pool.max_thread_num) (pc : s.threads t = .locking)
      (run : thread_routine s.memory s.pool = .wait) : Step s (s.set t .waiting)
  | exit {s} (t : Nat) (thread : t < s.pool.max_thread_num) (pc : s.threads t = .locking)
      (run : thread_routine s.memory s.pool = .exit) : Step s (s.set t .exited)
  | dequeue {s} (t : Nat) {worker pool node} (thread : t < s.pool.max_thread_num)
      (pc : s.threads t = .locking) (here : s.memory worker = some node)
      (run : thread_routine s.memory s.pool = .take worker pool) :
      Step s { s.set t (.running worker) with
        pool := pool, dequeued := s.dequeued ++ [node.serial] }
  | assertion {s} (t : Nat) (thread : t < s.pool.max_thread_num) (pc : s.threads t = .locking)
      (run : thread_routine s.memory s.pool = .assertion) : Step s { s with fault := true }
  | dequeue_freed {s} (t : Nat) (thread : t < s.pool.max_thread_num)
      (pc : s.threads t = .locking) (run : thread_routine s.memory s.pool = .freed) :
      Step s { s with fault := true }
  /-- By a signal, the broadcast or spuriously. -/
  | wake {s} (t : Nat) (pc : s.threads t = .waiting) : Step s (s.set t .locking)
  | execute {s} (t : Nat) {worker node} (pc : s.threads t = .running worker)
      (here : s.memory worker = some node) :
      Step s { s.set t (.freeing worker) with
        log := s.log ++ [.executed node.serial node.work] }
  | execute_freed {s} (t : Nat) {worker} (pc : s.threads t = .running worker)
      (gone : s.memory worker = none) : Step s { s with fault := true }
  | free {s} (t : Nat) {worker node} (pc : s.threads t = .freeing worker)
      (here : s.memory worker = some node) :
      Step s { s.set t .locking with
        memory := store s.memory worker none, log := s.log ++ [.freed node.serial] }
  | free_twice {s} (t : Nat) {worker} (pc : s.threads t = .freeing worker)
      (gone : s.memory worker = none) : Step s { s with fault := true }
  /-- pool_destroy up to the broadcast. -/
  | shutdown {s} : Step s { s with pool := { s.pool with shutdown := true } }
  /-- A round of the last loop of pool_destroy, behind the joins. -/
  | drain {s} {head node} (down : s.pool.shutdown = true)
      (joined : ∀ t < s.pool.max_thread_num, s.threads t = .exited)
      (first : s.pool.queue_head = some head) (here : s.memory head = some node) :
      Step s { s with
        memory := store s.memory head none, pool := { s.pool with queue_head := node.next }
        drained := s.drained ++ [node.serial], log := s.log ++ [.freed node.serial] }
  | drain_freed {s} {head} (down : s.pool.shutdown = true)
      (joined : ∀ t < s.pool.max_thread_num, s.threads t = .exited)
      (first : s.pool.queue_head = some head) (gone : s.memory head = none) :
      Step s { s with fault := true }

end UC.ThreadPool
