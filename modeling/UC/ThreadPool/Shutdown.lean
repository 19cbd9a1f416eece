import UC.Lib.Histories
import UC.ThreadPool.Model

/- pool_destroy against thread_routine, with the test of the while condition, the wait, the
   store of shutdown and the broadcast as steps of their own. pool_destroy never takes
   queue_lock, so a worker that has tested and does not wait yet misses the broadcast. -/
namespace UC.ThreadPool.Shutdown
open UC.Memory UC.Runs UC.Histories

inductive Thread where
  | worker (t : Nat)
  | caller (c : Nat)
  deriving DecidableEq

/-- Where a thread of thread_routine stands. From test to wait, and from shutdownTest to take
    or leave, it has queue_lock. -/
inductive Pc where
  | lock
  | test
  | wait
  | blocked
  | relock
  | shutdownTest
  | leave
  | take
  | execute (worker : Ptr)
  | free (worker : Ptr)
  | exited
  deriving DecidableEq

/-- Where a call of pool_add_worker stands. -/
inductive Call where
  | lock (newworker : Ptr)
  | append (newworker : Ptr)
  | signal
  | returned
  deriving DecidableEq

/-- Where pool_destroy stands, up to the joins. -/
inductive Destroy where
  | check
  | store
  | broadcast
  | join (i : Nat)
  | joined
  | refused
  deriving DecidableEq

def Destroy.Issued : Destroy → Prop
  | .join _ | .joined => True
  | _ => False

variable {Work : Type*}

structure State (Work : Type*) where
  memory : Workers Work
  pool : CThread_pool
  queue_lock : Option Thread
  threads : Nat → Pc
  calls : List Call
  destroy : Destroy

def pool_init (max_thread_num : Nat) : State Work where
  memory := fun _ => none
  pool := { queue_head := none, shutdown := false, max_thread_num := max_thread_num,
            cur_queue_size := 0 }
  queue_lock := none
  threads := fun _ => .lock
  calls := []
  destroy := .check

def State.goto (s : State Work) (t : Nat) (pc : Pc) : State Work :=
  { s with threads := store s.threads t pc }

def State.unlock (s : State Work) : State Work := { s with queue_lock := none }

/-- pthread_mutex_lock; none while another thread has queue_lock. -/
def State.acquire (s : State Work) (thread : Thread) : Option (State Work) :=
  match s.queue_lock with
  | none => some { s with queue_lock := some thread }
  | some _ => none

/-- The next step of thread t; none where it cannot move or the process ends. -/
def thread_routine (s : State Work) (t : Nat) : Option (State Work) :=
  match s.threads t with
  | .lock | .relock => (s.acquire (.worker t)).map fun s => s.goto t .test
  | .test =>
    if s.pool.cur_queue_size = 0 ∧ s.pool.shutdown = false then some (s.goto t .wait)
    else some (s.goto t .shutdownTest)
  | .wait => some (s.unlock.goto t .blocked)
  | .blocked | .exited => none
  | .shutdownTest => some (s.goto t (if s.pool.shutdown then .leave else .take))
  | .leave => some (s.unlock.goto t .exited)
  | .take =>
    if s.pool.cur_queue_size = 0 then none
    else s.pool.queue_head.bind fun worker =>
      (s.memory worker).map fun node =>
        { s.unlock.goto t (.execute worker) with
          pool := { s.pool with
            cur_queue_size := s.pool.cur_queue_size - 1, queue_head := node.next } }
  | .execute worker => some (s.goto t (.free worker))
  | .free worker => some { s.goto t .lock with memory := store s.memory worker none }

/-- The next step of call c of pool_add_worker. A signal wakes the blocked thread woken; it
    wakes none only where none is blocked. -/
def add_worker (s : State Work) (c fuel : Nat) (woken : Option Nat) : Option (State Work) :=
  match s.calls[c]? with
  | some (.lock newworker) =>
    (s.acquire (.caller c)).map fun s => { s with calls := s.calls.set c (.append newworker) }
  | some (.append newworker) =>
    (pool_add_worker fuel s.memory s.pool newworker).map fun (memory, pool) =>
      { s.unlock with memory := memory, pool := pool, calls := s.calls.set c .signal }
  | some .signal =>
    let s := { s with calls := s.calls.set c .returned }
    match woken with
    | some t => if s.threads t = .blocked then some (s.goto t .relock) else none
    | none => if ∀ t < s.pool.max_thread_num, s.threads t ≠ .blocked then some s else none
  | _ => none

def broadcast (threads : Nat → Pc) : Nat → Pc :=
  fun t => if threads t = .blocked then .relock else threads t

def pool_destroy (s : State Work) : Option (State Work) :=
  match s.destroy with
  | .check => some { s with destroy := if s.pool.shutdown then .refused else .store }
  | .store =>
    some { s with pool := { s.pool with shutdown := true }, destroy := .broadcast }
  | .broadcast => some { s with threads := broadcast s.threads, destroy := .join 0 }
  | .join i =>
    if i < s.pool.max_thread_num then
      if s.threads i = .exited then some { s with destroy := .join (i + 1) } else none
    else some { s with destroy := .joined }
  | .joined | .refused => none

inductive Event (Work : Type*) where
  | run (t : Nat)
  | spurious (t : Nat)
  | call (newworker : Ptr) (work : Work)
  | add (c fuel : Nat) (woken : Option Nat)
  | destroy

def step (s : State Work) : Event Work → Option (State Work)
  | .run t => if t < s.pool.max_thread_num then thread_routine s t else none
  | .spurious t => if s.threads t = .blocked then some (s.goto t .relock) else none
  | .call newworker work =>
    match s.memory newworker with
    | some _ => none
    | none => some { s with
        memory := store s.memory newworker (some ⟨work, none, s.calls.length⟩)
        calls := s.calls ++ [.lock newworker] }
  | .add c fuel woken => add_worker s c fuel woken
  | .destroy => pool_destroy s

/-- A worker waits, the broadcast is over, and no call is left that could still signal. -/
def LostWakeup (s : State Work) : Prop :=
  s.destroy.Issued ∧ (∃ t < s.pool.max_thread_num, s.threads t = .blocked) ∧
    ∀ call ∈ s.calls, call = .returned

/-- The broadcast is issued while no worker stands between its test and its wait. -/
def Careful (s : State Work) : Event Work → Prop
  | .destroy => s.destroy = .broadcast →
      ∀ t < s.pool.max_thread_num, s.threads t ≠ .wait
  | _ => True

/-- Waiting, or past the test and on the way to it. -/
def Sleepy (pc : Pc) : Prop := pc = .wait ∨ pc = .blocked

/-- What any step of a worker or of a call does: pool_destroy stands where it stood, and a
    thread falls asleep only while shutdown is not set. -/
structure Quiet (s s' : State Work) : Prop where
  destroy : s'.destroy = s.destroy
  shutdown : s'.pool.shutdown = s.pool.shutdown
  workers : s'.pool.max_thread_num = s.pool.max_thread_num
  asleep : ∀ t, Sleepy (s'.threads t) → Sleepy (s.threads t) ∨ s.pool.shutdown = false

theorem goto_threads (s : State Work) (t u : Nat) (pc : Pc) :
    (s.goto t pc).threads u = if u = t then pc else s.threads u := rfl

theorem goto_awake (s : State Work) (t : Nat) {pc : Pc} (awake : ¬ Sleepy pc) (u : Nat)
    (asleep : Sleepy ((s.goto t pc).threads u)) : Sleepy (s.threads u) := by
  rw [goto_threads] at asleep
  split at asleep
  · exact absurd asleep awake
  · exact asleep

theorem acquire_eq {s s' : State Work} {thread : Thread} (taken : s.acquire thread = some s') :
    s' = { s with queue_lock := some thread } := by
  simp only [State.acquire] at taken
  split at taken
  · exact (Option.some.inj taken).symm
  · cases taken

theorem quiet_goto (s : State Work) (t : Nat) {pc : Pc} (awake : ¬ Sleepy pc) :
    Quiet s (s.goto t pc) :=
  ⟨rfl, rfl, rfl, fun u asleep => .inl (goto_awake s t awake u asleep)⟩

/-- Only the threads, shutdown, the number of workers and pool_destroy count. -/
theorem Quiet.congr {s s' u u' : State Work} (quiet : Quiet s s') (threads : u.threads = s.threads)
    (destroy : u.destroy = s.destroy) (shutdown : u.pool.shutdown = s.pool.shutdown)
    (workers : u.pool.max_thread_num = s.pool.max_thread_num)
    (threads' : u'.threads = s'.threads) (destroy' : u'.destroy = s'.destroy)
    (shutdown' : u'.pool.shutdown = s'.pool.shutdown)
    (workers' : u'.pool.max_thread_num = s'.pool.max_thread_num) : Quiet u u' := by
  refine ⟨?_, ?_, ?_, ?_⟩
  · rw [destroy, destroy', quiet.destroy]
  · rw [shutdown, shutdown', quiet.shutdown]
  · rw [workers, workers', quiet.workers]
  · rw [threads, threads', shutdown]
    exact quiet.asleep

theorem thread_routine_quiet {s s' : State Work} {t : Nat}
    (taken : thread_routine s t = some s') : Quiet s s' := by
  unfold thread_routine at taken
  split at taken
  case h_1 | h_2 =>
    obtain ⟨locked, acquired, rfl⟩ := Option.map_eq_some_iff.mp taken
    rw [acquire_eq acquired]
    exact (quiet_goto s t (by simp [Sleepy])).congr rfl rfl rfl rfl rfl rfl rfl rfl
  case h_3 =>
    split at taken
    · rename_i idle
      cases taken
      refine ⟨rfl, rfl, rfl, fun u asleep => .inr idle.2⟩
    · cases taken
      exact quiet_goto s t (by simp [Sleepy])
  case h_4 pc =>
    cases taken
    refine ⟨rfl, rfl, rfl, fun u asleep => .inl ?_⟩
    rw [goto_threads] at asleep
    split at asleep
    · rename_i here
      rw [here]
      exact .inl pc
    · exact asleep
  case h_5 | h_6 => cases taken
  case h_7 =>
    cases taken
    apply quiet_goto
    split <;> simp [Sleepy]
  case h_8 =>
    cases taken
    exact (quiet_goto s t (by simp [Sleepy])).congr rfl rfl rfl rfl rfl rfl rfl rfl
  case h_9 =>
    split at taken
    · cases taken
    · obtain ⟨worker, _, taken⟩ := Option.bind_eq_some_iff.mp taken
      obtain ⟨node, _, rfl⟩ := Option.map_eq_some_iff.mp taken
      exact (@quiet_goto _ s t (.execute worker) (by simp [Sleepy])).congr
        rfl rfl rfl rfl rfl rfl rfl rfl
  case h_10 =>
    cases taken
    exact quiet_goto s t (by simp [Sleepy])
  case h_11 =>
    cases taken
    exact (@quiet_goto _ s t (.lock) (by simp [Sleepy])).congr rfl rfl rfl rfl rfl rfl rfl rfl

theorem add_worker_pool {fuel : Nat} {memory memory' : Workers Work} {pool pool' : CThread_pool}
    {newworker : Ptr} (added : pool_add_worker fuel memory pool newworker = some (memory', pool')) :
    pool'.shutdown = pool.shutdown ∧ pool'.max_thread_num = pool.max_thread_num := by
  unfold pool_add_worker at added
  split at added
  · cases added
    exact ⟨rfl, rfl⟩
  · obtain ⟨member, _, added⟩ := Option.bind_eq_some_iff.mp added
    obtain ⟨node, _, same⟩ := Option.map_eq_some_iff.mp added
    cases same
    exact ⟨rfl, rfl⟩

theorem add_worker_quiet {s s' : State Work} {c fuel : Nat} {woken : Option Nat}
    (taken : add_worker s c fuel woken = some s') : Quiet s s' := by
  have still : Quiet s s := ⟨rfl, rfl, rfl, fun _ asleep => .inl asleep⟩
  unfold add_worker at taken
  split at taken
  case h_1 =>
    obtain ⟨locked, acquired, rfl⟩ := Option.map_eq_some_iff.mp taken
    rw [acquire_eq acquired]
    exact still.congr rfl rfl rfl rfl rfl rfl rfl rfl
  case h_2 =>
    obtain ⟨⟨memory, pool⟩, added, rfl⟩ := Option.map_eq_some_iff.mp taken
    have same := add_worker_pool added
    exact still.congr rfl rfl rfl rfl rfl rfl same.1 same.2
  case h_3 =>
    cases woken with
    | none =>
      simp only at taken
      split at taken
      · cases taken
        exact still.congr rfl rfl rfl rfl rfl rfl rfl rfl
      · cases taken
    | some t =>
      simp only at taken
      split at taken
      · cases taken
        exact (@quiet_goto _ s t (.relock) (by simp [Sleepy])).congr
          rfl rfl rfl rfl rfl rfl rfl rfl
      · cases taken
  case h_4 => cases taken

theorem step_quiet {s s' : State Work} {ev : Event Work} (other : ev ≠ .destroy)
    (taken : step s ev = some s') : Quiet s s' := by
  cases ev with
  | run t =>
    simp only [step] at taken
    split at taken
    · exact thread_routine_quiet taken
    · cases taken
  | spurious t =>
    simp only [step] at taken
    split at taken
    · cases taken
      exact quiet_goto s t (by simp [Sleepy])
    · cases taken
  | call newworker work =>
    simp only [step] at taken
    split at taken
    · cases taken
    · cases taken
      exact ⟨rfl, rfl, rfl, fun _ asleep => .inl asleep⟩
  | add c fuel woken => exact add_worker_quiet taken
  | destroy => exact absurd rfl other

structure Inv (s : State Work) : Prop where
  down : s.destroy = .broadcast ∨ s.destroy.Issued → s.pool.shutdown = true
  awake : s.destroy.Issued → ∀ t < s.pool.max_thread_num, ¬ Sleepy (s.threads t)

theorem inv_init (max_thread_num : Nat) : Inv (pool_init max_thread_num : State Work) := by
  constructor
  · rintro (never | never)
    · cases never
    · exact never.elim
  · exact fun never => never.elim

theorem inv_quiet {s s' : State Work} (inv : Inv s) (quiet : Quiet s s') : Inv s' := by
  constructor
  · rw [quiet.destroy, quiet.shutdown]
    exact inv.down
  · rw [quiet.destroy, quiet.workers]
    intro issued t worker asleep
    rcases quiet.asleep t asleep with before | up
    · exact inv.awake issued t worker before
    · have down := inv.down (.inr issued)
      rw [up] at down
      cases down

/-- A broadcast that meets nobody on the way to the wait leaves nobody asleep. -/
theorem broadcast_wakes {threads : Nat → Pc} {t : Nat} (ready : threads t ≠ .wait) :
    ¬ Sleepy (broadcast threads t) := by
  unfold broadcast
  split
  · simp [Sleepy]
  · rename_i up
    rintro (waits | blocked)
    · exact ready waits
    · exact up blocked

theorem inv_destroy {s s' : State Work} (inv : Inv s) (careful : Careful s .destroy)
    (taken : pool_destroy s = some s') : Inv s' := by
  unfold pool_destroy at taken
  split at taken
  case h_1 =>
    cases taken
    constructor
    · rintro (never | never)
      · dsimp only at never
        split at never <;> cases never
      · dsimp only at never
        split at never <;> exact never.elim
    · intro never
      dsimp only at never
      split at never <;> exact never.elim
  case h_2 =>
    cases taken
    exact ⟨fun _ => rfl, fun never => never.elim⟩
  case h_3 here =>
    cases taken
    constructor
    · exact fun _ => inv.down (.inl here)
    · exact fun _ t worker => broadcast_wakes (careful here t worker)
  case h_4 here =>
    have issued : s.destroy.Issued := by
      rw [here]
      trivial
    split at taken
    · split at taken
      · cases taken
        exact ⟨fun _ => inv.down (.inr issued), fun _ => inv.awake issued⟩
      · cases taken
    · cases taken
      exact ⟨fun _ => inv.down (.inr issued), fun _ => inv.awake issued⟩
  case h_5 | h_6 => cases taken

theorem inv_step {s s' : State Work} {ev : Event Work} (inv : Inv s) (careful : Careful s ev)
    (taken : step s ev = some s') : Inv s' := by
  cases ev with
  | destroy => exact inv_destroy inv careful taken
  | _ => exact inv_quiet inv (step_quiet (by simp) taken)

instance (s : State Work) : (ev : Event Work) → Decidable (Careful s ev)
  | .destroy => inferInstanceAs (Decidable (_ → _))
  | .run _ | .spurious _ | .call _ _ | .add _ _ _ => .isTrue trivial

/-- Where the broadcast meets no worker between its test and its wait, no wake-up is lost. -/
theorem careful_broadcast_wakes_all (max_thread_num : Nat) (s : State Work)
    (run : Reachable (Taken step Careful) (pool_init max_thread_num) s) : ¬ LostWakeup s := by
  have inv : Inv s := by
    apply @invariant_reachable _ _ Inv _ _ (inv_init max_thread_num) _ run
    rintro a b before ⟨ev, careful, taken⟩
    exact inv_step before careful taken
  rintro ⟨issued, ⟨t, worker, blocked⟩, _⟩
  exact inv.awake issued t worker (.inr blocked)

/-- Two workers of which one waits and one has not started when the pool is destroyed. -/
def carefulShutdown : List (Event Nat) :=
  [.run 0, .run 0, .run 0, .destroy, .destroy, .run 1, .destroy, .run 1, .run 1, .run 1,
    .run 0, .run 0, .run 0, .run 0, .destroy, .destroy, .destroy]

theorem careful_broadcast_wakes_two :
    ∃ s, play step carefulShutdown (pool_init 2) = some s ∧ s.destroy = .joined ∧
      ¬ LostWakeup s := by
  refine ⟨_, rfl, rfl, ?_⟩
  exact careful_broadcast_wakes_all 2 _
    (lawful_reachable carefulShutdown (by decide) rfl)

/-- The worker tests, pool_destroy stores and broadcasts, the worker waits. -/
theorem shutdown_loses_wakeup :
    ¬ ∀ (max_thread_num : Nat) (s : State Nat),
      Reachable (Taken step fun _ _ => True) (pool_init max_thread_num) s → ¬ LostWakeup s := by
  intro never
  have run := @lawful_reachable _ _ step (fun (_ : State Nat) _ => True)
    [.run 0, .run 0, .destroy, .destroy, .destroy, .run 0] (pool_init 1) _ (by decide) rfl
  exact never 1 _ run ⟨trivial, ⟨0, by decide, rfl⟩, by decide⟩

/-- Every other broadcast loses one, unless a call of pool_add_worker is under way. -/
theorem careless_broadcast_loses {s s' : State Work} {t : Nat} (worker : t < s.pool.max_thread_num)
    (waits : s.threads t = .wait) (here : s.destroy = .broadcast)
    (quiet : ∀ call ∈ s.calls, call = .returned)
    (played : play step [.destroy, .run t] s = some s') : LostWakeup s' := by
  have issued : step s .destroy =
      some { s with threads := broadcast s.threads, destroy := .join 0 } := by
    simp [step, pool_destroy, here]
  have missed : broadcast s.threads t = .wait := by simp [broadcast, waits]
  rw [play_cons issued] at played
  simp only [play, step, worker, if_true, thread_routine, missed, Option.bind_some] at played
  cases played
  exact ⟨trivial, ⟨t, worker, store_same _ _ _⟩, quiet⟩

end UC.ThreadPool.Shutdown
