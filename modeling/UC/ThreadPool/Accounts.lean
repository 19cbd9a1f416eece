import Mathlib.Data.List.Nodup
import Mathlib.Data.List.Perm.Basic
import Mathlib.Data.List.Range
import UC.ThreadPool.Safety

/- What becomes of the tasks of a pool. Every node is freed once, by the thread that ran its
   callback or by the last loop of pool_destroy. -/
namespace UC.ThreadPool
open UC.Memory UC.Chains UC.Runs

variable {Work : Type*} {s : State Work} {q : List Ptr}

def Mark.executedSerial : Mark Work → Option Nat
  | .executed n _ => some n
  | .freed _ => none

def Mark.freedSerial : Mark Work → Option Nat
  | .executed _ _ => none
  | .freed n => some n

def executed (log : List (Mark Work)) : List Nat := log.filterMap Mark.executedSerial

def freed (log : List (Mark Work)) : List Nat := log.filterMap Mark.freedSerial

theorem mem_executed {log : List (Mark Work)} {n : Nat} :
    n ∈ executed log ↔ ∃ w, .executed n w ∈ log := by
  rw [executed, List.mem_filterMap]
  constructor
  · rintro ⟨mark, member, serial⟩
    cases mark with
    | executed m w =>
      cases serial
      exact ⟨w, member⟩
    | freed m => cases serial
  · rintro ⟨w, member⟩
    exact ⟨_, member, rfl⟩

theorem mem_freed {log : List (Mark Work)} {n : Nat} : n ∈ freed log ↔ .freed n ∈ log := by
  rw [freed, List.mem_filterMap]
  constructor
  · rintro ⟨mark, member, serial⟩
    cases mark with
    | executed m w => cases serial
    | freed m =>
      cases serial
      exact member
  · intro member
    exact ⟨_, member, rfl⟩

theorem executed_concat (log : List (Mark Work)) (n : Nat) (w : Work) :
    executed (log ++ [.executed n w]) = executed log ++ [n] := List.filterMap_append

theorem executed_freed (log : List (Mark Work)) (n : Nat) :
    executed (log ++ [.freed n]) = executed log := by
  rw [executed, List.filterMap_append]
  exact List.append_nil _

theorem freed_concat (log : List (Mark Work)) (n : Nat) :
    freed (log ++ [.freed n]) = freed log ++ [n] := List.filterMap_append

theorem freed_executed (log : List (Mark Work)) (n : Nat) (w : Work) :
    freed (log ++ [.executed n w]) = freed log := by
  rw [freed, List.filterMap_append]
  exact List.append_nil _

/-- The node of task n is at p. -/
def Live (memory : Workers Work) (p : Ptr) (n : Nat) : Prop :=
  ∃ node, memory p = some node ∧ node.serial = n

theorem live_build {memory : Workers Work} {p : Ptr} (fresh : memory p = none)
    (node : CThread_worker Work) {p' : Ptr} {n : Nat} :
    Live (store memory p (some node)) p' n ↔ (p' = p ∧ n = node.serial) ∨ Live memory p' n := by
  by_cases same : p' = p
  · subst same
    have none_there : ¬ Live memory p' n := by
      rintro ⟨node', here, _⟩
      rw [fresh] at here
      cases here
    rw [Live, store_same]
    simp only [none_there, or_false, true_and, Option.some.injEq, exists_eq_left']
    exact eq_comm
  · rw [Live, store_other _ _ same]
    simp only [same, false_and, false_or]
    rfl

theorem live_release {memory : Workers Work} {p p' : Ptr} {n : Nat} :
    Live (store memory p none) p' n ↔ p' ≠ p ∧ Live memory p' n := by
  by_cases same : p' = p
  · simp [Live, same]
  · rw [Live, store_other _ _ same]
    simp only [ne_eq, same, not_false_eq_true, true_and]
    rfl

theorem live_relink {memory : Workers Work} {last : Ptr} {end_ : CThread_worker Work}
    (tail : memory last = some end_) (next : Option Ptr) {p : Ptr} {n : Nat} :
    Live (store memory last (some { end_ with next := next })) p n ↔ Live memory p n := by
  by_cases same : p = last
  · simp [Live, same, tail]
  · rw [Live, store_other _ _ same]
    rfl

/-- pool_add_worker moves no node and keeps the number of threads. -/
theorem add_live (lists : Lists s q) {p : Ptr} {fuel : Nat} {memory : Workers Work}
    {pool : CThread_pool} (run : pool_add_worker fuel s.memory s.pool p = some (memory, pool)) :
    (∀ p n, Live memory p n ↔ Live s.memory p n) ∧ pool.max_thread_num = s.pool.max_thread_num := by
  rcases add_region lists p fuel with ⟨_, result⟩ | ⟨init, last, end_, _, tail, result⟩
  · rw [result] at run
    cases run
    exact ⟨fun _ _ => Iff.rfl, rfl⟩
  · rw [result] at run
    split at run
    · cases run
      exact ⟨fun _ _ => live_relink tail (some p), rfl⟩
    · cases run

/-- Where the node of each call is: not yet appended, in the queue, with the thread that took
    it, or freed; and why it was freed. -/
structure Accounts (s : State Work) : Prop where
  placed : ∀ p n, Live s.memory p n → p ∈ s.built ∨ n ∈ s.added
  building : ∀ p n, Live s.memory p n → p ∈ s.built → n ∉ s.added
  busy : ∀ p n, Live s.memory p n → n ∈ s.dequeued →
    ∃ t < s.pool.max_thread_num, Holds (s.threads t) p
  unfreed : ∀ p n, Live s.memory p n → n ∉ freed s.log
  kept : ∀ n < s.calls.length, n ∈ freed s.log ∨ ∃ p, Live s.memory p n
  once : (freed s.log).Nodup
  added : s.added.Nodup
  known : ∀ n ∈ s.added, n < s.calls.length
  gone : ∀ n ∈ s.drained, n ∈ freed s.log
  called : ∀ t p n, s.threads t = .freeing p → Live s.memory p n → n ∈ executed s.log
  reason : ∀ n ∈ freed s.log, n ∈ s.drained ∨ n ∈ executed s.log

theorem live_once (tasks : Tasks s) {p p' : Ptr} {n : Nat} (here : Live s.memory p n)
    (there : Live s.memory p' n) : p = p' := by
  obtain ⟨node, found, serial⟩ := here
  obtain ⟨node', found', serial'⟩ := there
  exact tasks.distinct p p' node node' found found' (serial.trans serial'.symm)

theorem live_serial {p : Ptr} {n m : Nat} (here : Live s.memory p n) (there : Live s.memory p m) :
    n = m := by
  obtain ⟨node, found, serial⟩ := here
  obtain ⟨node', found', serial'⟩ := there
  rw [found] at found'
  cases found'
  exact serial.symm.trans serial'

theorem start_accounts (max_thread_num : Nat) :
    Accounts (pool_init max_thread_num : State Work) := by
  have empty : ∀ p n, ¬ Live (pool_init max_thread_num : State Work).memory p n := by
    rintro p n ⟨node, here, _⟩
    cases here
  refine ⟨?_, ?_, ?_, ?_, ?_, List.nodup_nil, List.nodup_nil, ?_, ?_, ?_, ?_⟩
  · exact fun p n here => absurd here (empty p n)
  · exact fun p n here => absurd here (empty p n)
  · exact fun p n here => absurd here (empty p n)
  · exact fun p n here => absurd here (empty p n)
  · exact fun n low => absurd low n.not_lt_zero
  · exact fun n member => absurd member List.not_mem_nil
  · exact fun n member => absurd member List.not_mem_nil
  · exact fun t p n _ here => absurd here (empty p n)
  · exact fun n member => absurd member List.not_mem_nil

theorem build_keeps_accounts (inv : Inv s q) (accounts : Accounts s) {p : Ptr} {work : Work}
    (fresh : s.memory p = none) :
    Accounts { s with
      memory := store s.memory p (some ⟨work, none, s.calls.length⟩)
      calls := s.calls ++ [work], built := p :: s.built } := by
  have live : ∀ {p' n}, Live (store s.memory p (some ⟨work, none, s.calls.length⟩)) p' n →
      (p' = p ∧ n = s.calls.length) ∨ Live s.memory p' n := (live_build fresh _).mp
  have new : s.calls.length ∉ s.added := fun member => (accounts.known _ member).ne rfl
  have dequeued : ∀ n ∈ s.dequeued, n ∈ s.added := by
    obtain ⟨waiting, _, order⟩ := inv.order
    intro n member
    rw [order]
    exact List.mem_append_left _ (List.mem_append_left _ member)
  constructor
  · intro p' n here
    rcases live here with ⟨same, _⟩ | old
    · exact .inl (List.mem_cons.mpr (.inl same))
    · exact (accounts.placed p' n old).imp (List.mem_cons_of_mem _) id
  · intro p' n here member
    rcases live here with ⟨_, serial⟩ | old
    · exact serial ▸ new
    · rcases List.mem_cons.mp member with same | before
      · obtain ⟨node, found, _⟩ := old
        exact absurd same (ne_fresh fresh found)
      · exact accounts.building p' n old before
  · intro p' n here member
    rcases live here with ⟨_, serial⟩ | old
    · exact absurd (dequeued n member) (serial ▸ new)
    · exact accounts.busy p' n old member
  · intro p' n here member
    rcases live here with ⟨_, serial⟩ | old
    · exact absurd (inv.tasks.past _ (mem_freed.mp member)) (by simp [Mark.serial, serial])
    · exact accounts.unfreed p' n old member
  · intro n low
    change n < (s.calls ++ [work]).length at low
    rw [List.length_append, List.length_singleton, Nat.lt_succ_iff_lt_or_eq] at low
    rcases low with before | new
    · exact (accounts.kept n before).imp_right fun ⟨p', old⟩ =>
        ⟨p', (live_build fresh _).mpr (.inr old)⟩
    · exact .inr ⟨p, (live_build fresh _).mpr (.inl ⟨rfl, new⟩)⟩
  · exact accounts.once
  · exact accounts.added
  · intro n member
    change n < (s.calls ++ [work]).length
    rw [List.length_append]
    exact Nat.lt_add_right _ (accounts.known n member)
  · exact accounts.gone
  · intro t p' n freeing here
    rcases live here with ⟨same, _⟩ | old
    · obtain ⟨⟨node, found⟩, _⟩ := inv.lists.held t p' (by rw [freeing]; rfl)
      exact absurd same (ne_fresh fresh found)
    · exact accounts.called t p' n freeing old
  · exact accounts.reason

theorem add_keeps_accounts (inv : Inv s q) (accounts : Accounts s) {p : Ptr} {fuel : Nat}
    {node : CThread_worker Work} {memory : Workers Work} {pool : CThread_pool}
    (mine : p ∈ s.built) (here : s.memory p = some node)
    (run : pool_add_worker fuel s.memory s.pool p = some (memory, pool)) :
    Accounts { s with
      memory := memory, pool := pool, built := s.built.erase p
      added := s.added ++ [node.serial] } := by
  obtain ⟨live, same⟩ := add_live inv.lists run
  have appended : Live s.memory p node.serial := ⟨node, here, rfl⟩
  have new := accounts.building p node.serial appended mine
  constructor
  · intro p' n found
    have old := (live p' n).mp found
    by_cases it : p' = p
    · have serial := live_serial old (it ▸ appended)
      exact .inr (List.mem_append_right _ (by simp [serial]))
    · exact (accounts.placed p' n old).imp (List.mem_erase_of_ne it).mpr
        (List.mem_append_left _)
  · intro p' n found member later
    have old := (live p' n).mp found
    have once := (List.nodup_append.mp inv.lists.once).2.1
    obtain ⟨other, before⟩ := once.mem_erase_iff.mp member
    rcases List.mem_append.mp later with earlier | last
    · exact accounts.building p' n old before earlier
    · rw [List.mem_singleton.mp last] at old
      exact other (live_once inv.tasks old appended)
  · intro p' n found member
    have holder := accounts.busy p' n ((live p' n).mp found) member
    rwa [← same] at holder
  · exact fun p' n found => accounts.unfreed p' n ((live p' n).mp found)
  · exact fun n low => (accounts.kept n low).imp_right fun ⟨p', old⟩ => ⟨p', (live p' n).mpr old⟩
  · exact accounts.once
  · refine List.nodup_append.mpr ⟨accounts.added, List.nodup_singleton _, ?_⟩
    intro n earlier m last equal
    rw [List.mem_singleton.mp last] at equal
    exact new (equal ▸ earlier)
  · intro n member
    rcases List.mem_append.mp member with earlier | last
    · exact accounts.known n earlier
    · rw [List.mem_singleton.mp last]
      exact serial_bound inv.tasks here
  · exact accounts.gone
  · exact fun t p' n freeing found => accounts.called t p' n freeing ((live p' n).mp found)
  · exact accounts.reason

theorem set_keeps_accounts (accounts : Accounts s) {t : Nat} {pc : Routine}
    (before : ∀ p, ¬ Holds (s.threads t) p) (after : ∀ p, ¬ Holds pc p) :
    Accounts (s.set t pc) := by
  refine ⟨accounts.placed, accounts.building, ?_, accounts.unfreed, accounts.kept, accounts.once,
    accounts.added, accounts.known, accounts.gone, ?_, accounts.reason⟩
  · intro p n here member
    obtain ⟨t', thread, holds⟩ := accounts.busy p n here member
    have other : t' ≠ t := by
      rintro rfl
      exact before p holds
    exact ⟨t', thread, by rwa [set_other s pc other]⟩
  · intro t' p n freeing here
    have holds : Holds ((s.set t pc).threads t') p := by
      rw [freeing]
      rfl
    by_cases same : t' = t
    · rw [same, set_same] at holds
      exact absurd holds (after p)
    · rw [set_other s pc same] at freeing
      exact accounts.called t' p n freeing here

theorem dequeue_keeps_accounts (inv : Inv s q) (accounts : Accounts s) {t : Nat} {worker : Ptr}
    {pool : CThread_pool} {node : CThread_worker Work} (thread : t < s.pool.max_thread_num)
    (pc : s.threads t = .locking) (here : s.memory worker = some node)
    (run : thread_routine s.memory s.pool = .take worker pool) :
    Accounts { s.set t (.running worker) with
      pool := pool, dequeued := s.dequeued ++ [node.serial] } := by
  obtain ⟨_, _, _, _, result⟩ := region_take run
  subst result
  refine ⟨accounts.placed, accounts.building, ?_, accounts.unfreed, accounts.kept, accounts.once,
    accounts.added, accounts.known, accounts.gone, ?_, accounts.reason⟩
  · intro p n found member
    rcases List.mem_append.mp member with earlier | last
    · obtain ⟨t', known, holds⟩ := accounts.busy p n found earlier
      have other : t' ≠ t := by
        rintro rfl
        rw [pc] at holds
        exact holds
      exact ⟨t', known, by rwa [set_other s _ other]⟩
    · rw [List.mem_singleton.mp last] at found
      have same := live_once inv.tasks ⟨node, here, rfl⟩ found
      exact ⟨t, thread, by rw [set_same]; exact same⟩
  · intro t' p n freeing found
    have other : t' ≠ t := by
      rintro rfl
      rw [set_same] at freeing
      cases freeing
    rw [set_other s _ other] at freeing
    exact accounts.called t' p n freeing found

theorem execute_keeps_accounts (accounts : Accounts s) {t : Nat} {worker : Ptr}
    {node : CThread_worker Work} (pc : s.threads t = .running worker)
    (here : s.memory worker = some node) :
    Accounts { s.set t (.freeing worker) with
      log := s.log ++ [.executed node.serial node.work] } := by
  have frees : freed (s.log ++ [.executed node.serial node.work]) = freed s.log :=
    freed_executed _ _ _
  have runs : executed (s.log ++ [.executed node.serial node.work]) =
      executed s.log ++ [node.serial] := executed_concat _ _ _
  refine ⟨accounts.placed, accounts.building, ?_, ?_, ?_, ?_, accounts.added, accounts.known,
    ?_, ?_, ?_⟩
  · intro p n found member
    obtain ⟨t', thread, holds⟩ := accounts.busy p n found member
    by_cases same : t' = t
    · rw [same, pc] at holds
      exact ⟨t, same ▸ thread, by rw [set_same]; exact holds⟩
    · exact ⟨t', thread, by rwa [set_other s _ same]⟩
  · intro p n found
    rw [frees]
    exact accounts.unfreed p n found
  · intro n low
    rw [frees]
    exact accounts.kept n low
  · rw [frees]
    exact accounts.once
  · intro n member
    rw [frees]
    exact accounts.gone n member
  · intro t' p n freeing found
    rw [runs]
    by_cases same : t' = t
    · rw [same, set_same] at freeing
      cases freeing
      have serial := live_serial found ⟨node, here, rfl⟩
      exact List.mem_append_right _ (by simp [serial])
    · rw [set_other s _ same] at freeing
      exact List.mem_append_left _ (accounts.called t' p n freeing found)
  · intro n member
    rw [frees] at member
    rw [runs]
    exact (accounts.reason n member).imp_right (List.mem_append_left _)

/-- The node of task m is freed: either its callback has run or pool_destroy drains it. -/
theorem release_keeps_accounts (inv : Inv s q) (accounts : Accounts s) {p : Ptr} {m : Nat}
    (here : Live s.memory p m) (threads : Nat → Routine) (head : Option Ptr) {drained : List Nat}
    (holds : ∀ t p', p' ≠ p → Holds (s.threads t) p' → Holds (threads t) p')
    (freeing : ∀ t p', threads t = .freeing p' → s.threads t = .freeing p')
    (more : ∀ n ∈ s.drained, n ∈ drained) (only : ∀ n ∈ drained, n ∈ s.drained ∨ n = m)
    (why : m ∈ drained ∨ m ∈ executed s.log) :
    Accounts { s with
      memory := store s.memory p none, pool := { s.pool with queue_head := head }
      threads := threads, drained := drained, log := s.log ++ [.freed m] } := by
  have frees : freed (s.log ++ [.freed m]) = freed s.log ++ [m] := freed_concat _ _
  have runs : executed (s.log ++ [.freed m]) = executed s.log := executed_freed _ _
  have unfreed := accounts.unfreed p m here
  constructor
  · exact fun p' n found => accounts.placed p' n (live_release.mp found).2
  · exact fun p' n found => accounts.building p' n (live_release.mp found).2
  · intro p' n found member
    obtain ⟨other, old⟩ := live_release.mp found
    obtain ⟨t, thread, held⟩ := accounts.busy p' n old member
    exact ⟨t, thread, holds t p' other held⟩
  · intro p' n found member
    obtain ⟨other, old⟩ := live_release.mp found
    rw [frees] at member
    rcases List.mem_append.mp member with earlier | last
    · exact accounts.unfreed p' n old earlier
    · rw [List.mem_singleton.mp last] at old
      exact other (live_once inv.tasks old here)
  · intro n low
    rw [frees]
    rcases accounts.kept n low with earlier | ⟨p', old⟩
    · exact .inl (List.mem_append_left _ earlier)
    · by_cases same : p' = p
      · have serial := live_serial old (same ▸ here)
        exact .inl (List.mem_append_right _ (by simp [serial]))
      · exact .inr ⟨p', live_release.mpr ⟨same, old⟩⟩
  · rw [frees]
    refine List.nodup_append.mpr ⟨accounts.once, List.nodup_singleton _, ?_⟩
    intro n earlier n' last equal
    rw [List.mem_singleton.mp last] at equal
    exact unfreed (equal ▸ earlier)
  · exact accounts.added
  · exact accounts.known
  · intro n member
    rw [frees]
    rcases only n member with earlier | last
    · exact List.mem_append_left _ (accounts.gone n earlier)
    · exact List.mem_append_right _ (by simp [last])
  · intro t p' n busy found
    rw [runs]
    exact accounts.called t p' n (freeing t p' busy) (live_release.mp found).2
  · intro n member
    rw [frees] at member
    rw [runs]
    rcases List.mem_append.mp member with earlier | last
    · exact (accounts.reason n earlier).imp_left (more n)
    · exact List.mem_singleton.mp last ▸ why

theorem free_keeps_accounts (inv : Inv s q) (accounts : Accounts s) {t : Nat} {worker : Ptr}
    {node : CThread_worker Work} (pc : s.threads t = .freeing worker)
    (here : s.memory worker = some node) :
    Accounts { s.set t .locking with
      memory := store s.memory worker none, log := s.log ++ [.freed node.serial] } := by
  have live : Live s.memory worker node.serial := ⟨node, here, rfl⟩
  refine release_keeps_accounts inv accounts live (s.set t .locking).threads s.pool.queue_head ?_ ?_
    (fun _ => id) (fun _ => .inl) (.inr (accounts.called t worker _ pc live))
  · intro t' p other holds
    have ne : t' ≠ t := by
      rintro rfl
      rw [pc] at holds
      exact other holds.symm
    rwa [set_other s _ ne]
  · intro t' p busy
    by_cases same : t' = t
    · rw [same, set_same] at busy
      cases busy
    · rwa [set_other s _ same] at busy

theorem step_keeps_accounts {s' : State Work} (inv : Inv s q) (accounts : Accounts s)
    (step : Step s s') : Accounts s' := by
  have idle : ∀ {pc : Routine}, (pc = .locking ∨ pc = .waiting) → ∀ p, ¬ Holds pc p := by
    rintro pc (rfl | rfl) p holds <;> exact holds
  cases step with
  | build p work fresh => exact build_keeps_accounts inv accounts fresh
  | add p fuel mine here run => exact add_keeps_accounts inv accounts mine here run
  | wait t thread pc run | exit t thread pc run =>
    exact set_keeps_accounts accounts (idle (.inl pc)) fun _ => id
  | wake t pc => exact set_keeps_accounts accounts (idle (.inr pc)) fun _ => id
  | dequeue t thread pc here run => exact dequeue_keeps_accounts inv accounts thread pc here run
  | execute t pc here => exact execute_keeps_accounts accounts pc here
  | free t pc here => exact free_keeps_accounts inv accounts pc here
  | shutdown =>
    exact ⟨accounts.placed, accounts.building, accounts.busy, accounts.unfreed, accounts.kept,
      accounts.once, accounts.added, accounts.known, accounts.gone, accounts.called,
      accounts.reason⟩
  | drain down joined first here =>
    refine release_keeps_accounts inv accounts ⟨_, here, rfl⟩ _ _ (fun _ _ _ => id) (fun _ _ => id)
      (fun _ => List.mem_append_left _) ?_ (.inl (by simp))
    exact fun n member => (List.mem_append.mp member).imp_right List.mem_singleton.mp
  | assertion t thread pc run | dequeue_freed t thread pc run | execute_freed t pc gone
  | free_twice t pc gone | drain_freed down joined first gone =>
    exact ⟨accounts.placed, accounts.building, accounts.busy, accounts.unfreed, accounts.kept,
      accounts.once, accounts.added, accounts.known, accounts.gone, accounts.called,
      accounts.reason⟩

/-- A pool of which nothing is left: the tasks added first were executed, each once, and
    pool_destroy dropped the others; every call was added once, and its node freed once. -/
structure Settled (s : State Work) : Prop where
  nothing : ∀ p, s.memory p = none
  order : s.added = s.dequeued ++ s.drained
  executed : (executed s.log).Perm s.dequeued
  added : s.added.Perm (List.range s.calls.length)
  freed : (freed s.log).Perm (List.range s.calls.length)

theorem executed_once (tasks : Tasks s) : (executed s.log).Nodup := by
  refine List.pairwise_filterMap.mpr (tasks.once.imp ?_)
  intro a b before n first m second same
  cases a with
  | freed k => cases first
  | executed k w =>
    cases b with
    | freed l => cases second
    | executed l w' =>
      cases first
      cases second
      exact before w' (by rw [Mark.serial, same])

/-- A node that is left over would be in the queue, or with a thread that has exited. -/
theorem nothing_is_left (inv : Inv s []) (accounts : Accounts s)
    (joined : ∀ t < s.pool.max_thread_num, s.threads t = .exited) (quiet : s.built = [])
    (p : Ptr) (n : Nat) : ¬ Live s.memory p n := by
  intro live
  obtain ⟨waiting, serials, order⟩ := inv.order
  cases serials
  rcases accounts.placed p n live with building | added
  · rw [quiet] at building
    cases building
  · rw [order, List.append_nil] at added
    rcases List.mem_append.mp added with taken | dropped
    · obtain ⟨t, thread, holds⟩ := accounts.busy p n live taken
      rw [joined t thread] at holds
      exact holds
    · exact accounts.unfreed p n live (accounts.gone n dropped)

theorem empty_queue_settled (inv : Inv s []) (accounts : Accounts s)
    (joined : ∀ t < s.pool.max_thread_num, s.threads t = .exited) (quiet : s.built = []) :
    Settled s := by
  have nothing := nothing_is_left inv accounts joined quiet
  obtain ⟨waiting, serials, order⟩ := inv.order
  cases serials
  rw [List.append_nil] at order
  have apart := List.nodup_append.mp (order ▸ accounts.added)
  have all : ∀ n < s.calls.length, n ∈ freed s.log := by
    intro n low
    rcases accounts.kept n low with member | ⟨p, live⟩
    · exact member
    · exact absurd live (nothing p n)
  have ran : ∀ n ∈ executed s.log, n ∈ s.dequeued := by
    intro n member
    obtain ⟨w, marked⟩ := mem_executed.mp member
    exact inv.tasks.ran n w marked
  have added : ∀ n < s.calls.length, n ∈ s.added := by
    intro n low
    rw [order]
    rcases accounts.reason n (all n low) with dropped | done
    · exact List.mem_append_right _ dropped
    · exact List.mem_append_left _ (ran n done)
  constructor
  · intro p
    cases here : s.memory p with
    | none => rfl
    | some node => exact absurd ⟨node, here, rfl⟩ (nothing p node.serial)
  · exact order
  · refine (List.perm_ext_iff_of_nodup (executed_once inv.tasks) apart.1).mpr fun n => ⟨ran n, ?_⟩
    intro taken
    have known := accounts.known n (order ▸ List.mem_append_left _ taken)
    rcases accounts.reason n (all n known) with dropped | done
    · exact absurd rfl (apart.2.2 n taken n dropped)
    · exact done
  · refine (List.perm_ext_iff_of_nodup accounts.added List.nodup_range).mpr fun n => ?_
    rw [List.mem_range]
    exact ⟨accounts.known n, added n⟩
  · refine (List.perm_ext_iff_of_nodup accounts.once List.nodup_range).mpr fun n => ?_
    rw [List.mem_range]
    exact ⟨fun member => inv.tasks.past _ (mem_freed.mp member), all n⟩

def Kept (s : State Work) : Prop := (∃ q, Inv s q) ∧ Accounts s

theorem step_keeps {s' : State Work} (kept : Kept s) (step : Step s s') : Kept s' := by
  obtain ⟨⟨q, inv⟩, accounts⟩ := kept
  exact ⟨step_keeps_inv inv step, step_keeps_accounts inv accounts step⟩

theorem reachable_kept {max_thread_num : Nat} (run : Reachable Step (pool_init max_thread_num) s) :
    Kept s :=
  invariant_reachable ⟨⟨[], start_inv _⟩, start_accounts _⟩ (fun _ _ => step_keeps) run

def pending (s : State Work) : Nat := s.added.length - (s.dequeued.length + s.drained.length)

theorem queue_length (inv : Inv s q) : pending s = q.length := by
  obtain ⟨waiting, serials, order⟩ := inv.order
  rw [pending, order, List.length_append, List.length_append, serials.length_eq]
  omega

theorem drains (k : Nat) (s : State Work) (count : pending s = k) (kept : Kept s)
    (down : s.pool.shutdown = true)
    (joined : ∀ t < s.pool.max_thread_num, s.threads t = .exited) :
    ∃ s', Reachable Step s s' ∧ s'.pool.queue_head = none ∧ s'.built = s.built ∧
      s'.dequeued = s.dequeued ∧ ∀ t < s'.pool.max_thread_num, s'.threads t = .exited := by
  induction k generalizing s with
  | zero =>
    obtain ⟨⟨q, inv⟩, _⟩ := kept
    have empty := List.eq_nil_of_length_eq_zero ((queue_length inv).symm.trans count)
    have head := inv.lists.head
    rw [empty] at head
    exact ⟨s, reachable_start s, head.symm, rfl, rfl, joined⟩
  | succ k ih =>
    obtain ⟨q, inv⟩ := kept.1
    obtain ⟨head, rest, split⟩ := List.exists_cons_of_length_eq_add_one
      ((queue_length inv).symm.trans count)
    subst split
    obtain ⟨node, here⟩ := linked_live inv.lists.linked List.mem_cons_self
    have round := Step.drain down joined inv.lists.head.symm here
    have later := ih _ (by
      rw [pending, List.length_append, List.length_singleton, ← Nat.add_assoc, ← Nat.sub_sub]
      exact Nat.sub_eq_of_eq_add count) (step_keeps kept round) down joined
    obtain ⟨s', run, none_left, same⟩ := later
    exact ⟨s', run.head round, none_left, same⟩

/-- Once every thread has exited and no call of pool_add_worker is under way, the last loop of
    pool_destroy runs to its end, and with the queue empty nothing is left of the tasks. -/
theorem destroyed_pool_is_settled {max_thread_num : Nat} {s : State Work}
    (run : Reachable Step (pool_init max_thread_num) s)
    (joined : ∀ t < s.pool.max_thread_num, s.threads t = .exited) (quiet : s.built = []) :
    (s.pool.queue_head = none → Settled s) ∧
      (s.pool.shutdown = true → ∃ s', Reachable Step s s' ∧ s'.pool.queue_head = none ∧
        s'.dequeued = s.dequeued ∧ Settled s') := by
  have settled : ∀ s' : State Work, Kept s' →
      (∀ t < s'.pool.max_thread_num, s'.threads t = .exited) → s'.built = [] →
      s'.pool.queue_head = none → Settled s' := by
    rintro s' ⟨⟨q, inv⟩, accounts⟩ joined quiet empty
    have none_left := empty_of_head inv.lists empty
    subst none_left
    exact empty_queue_settled inv accounts joined quiet
  have kept := reachable_kept run
  refine ⟨settled s kept joined quiet, fun down => ?_⟩
  obtain ⟨s', later, empty, building, same, joined'⟩ := drains _ s rfl kept down joined
  have kept' : Kept s' := invariant_reachable kept (fun _ _ => step_keeps) later
  exact ⟨s', later, empty, same, settled s' kept' joined' (building.trans quiet) empty⟩

/-- One thread; pool_destroy is called while it executes the first of two tasks. -/
theorem second_task_is_dropped : ∃ s s' : State Nat,
    Reachable Step (pool_init 1) s ∧ Reachable Step s s' ∧ s'.pool.queue_head = none ∧
      s.calls = [50, 60] ∧ s'.dequeued = [0] ∧ Settled s' := by
  have first : Reachable Step (pool_init 1) _ := reachable_step (reachable_start _)
    (Step.build 7 50 rfl)
  have second := reachable_step first (Step.build 9 60 rfl)
  have one := reachable_step second (Step.add 7 0 (by simp) rfl rfl)
  have two := reachable_step one (Step.add 9 1 (by simp) rfl rfl)
  have taken := reachable_step two (Step.dequeue 0 (by decide) rfl rfl rfl)
  have down := reachable_step taken Step.shutdown
  have called := reachable_step down (Step.execute 0 rfl rfl)
  have locked := reachable_step called (Step.free 0 rfl rfl)
  have ended := reachable_step locked (Step.exit 0 (by decide) rfl rfl)
  have joined := (destroyed_pool_is_settled ended (fun t thread => by
    rw [Nat.lt_one_iff.mp thread]
    rfl) rfl).2 rfl
  obtain ⟨s', later, empty, same, settled⟩ := joined
  exact ⟨_, s', ended, later, empty, rfl, same, settled⟩

end UC.ThreadPool
