import Mathlib.Algebra.BigOperators.Ring.List
import Mathlib.Algebra.Ring.Nat
import Mathlib.Tactic.Ring
import UC.Lib.Histories
import UC.Sync.Model

/- No addition is lost in any interleaving, whichever routine the threads run: main prints
   INC_TO for each thread that could be pinned, and always comes to print. -/
namespace UC.Sync
open UC.Histories UC.Threads

namespace Place

def done (INC_TO : Nat) : Place → Nat
  | .loop i | .load i | .store i _ => i
  | .unlock i => i + 1
  | .ended true => INC_TO
  | .setaffinity | .ended false => 0

/-- Between pthread_mutex_lock and pthread_mutex_unlock. -/
def inside : Place → Nat
  | .load _ | .store _ _ | .unlock _ => 1
  | _ => 0

def pinned : Place → Nat
  | .setaffinity | .ended false => 0
  | _ => 1

def isEnded : Place → Bool
  | .ended _ => true
  | _ => false

/-- The steps left at most. -/
def left (INC_TO : Nat) : Place → Nat
  | .setaffinity => 4 * INC_TO + 2
  | .loop i => 4 * (INC_TO - i) + 1
  | .load i => 4 * (INC_TO - i)
  | .store i _ => 4 * (INC_TO - i) - 1
  | .unlock i => 4 * (INC_TO - i) - 2
  | .ended _ => 0

/-- What the counter has for a thread in this place. -/
def Holds (INC_TO : Nat) (global_int : BitVec 32) : Place → Prop
  | .loop i => i ≤ INC_TO
  | .load i | .unlock i => i < INC_TO
  | .store i loaded => i < INC_TO ∧ loaded = global_int
  | _ => True

end Place

namespace Program

/-- What main has seen of the threads. -/
def Watched (INC_TO : Nat) (s : Program) : Main → Prop
  | .create i => s.threads.length = i ∧ i ≤ s.procs
  | .join i => s.threads.length = s.procs ∧ i ≤ s.procs ∧
      ∀ j < i, ∀ place, s.threads[j]? = some place → place.isEnded = true
  | .printed value expected => s.threads.length = s.procs ∧
      (∀ place ∈ s.threads, place.isEnded = true) ∧ value = s.global_int ∧
      expected = BitVec.ofNat 32 (INC_TO * s.procs)

structure Inv (routine : Routine) (INC_TO : Nat) (s : Program) : Prop where
  locked : total Place.inside s.threads = s.count_lock.toNat
  counted : s.global_int = BitVec.ofNat 32 (total (Place.done INC_TO) s.threads)
  places : ∀ place ∈ s.threads, place.Holds INC_TO s.global_int
  atomic : routine = .thread_routine → s.count_lock = false
  watched : s.Watched INC_TO s.main

variable {routine : Routine} {INC_TO : Nat} {s t : Program}

theorem inv_boot {online : Int} {malloc : Bool} (booted : boot online malloc = some s) :
    Inv routine INC_TO s := by
  rw [boot] at booted
  split at booted
  · cases booted
  · cases booted
    refine ⟨rfl, rfl, ?_, fun _ => rfl, rfl, Nat.zero_le _⟩
    intro place member
    cases member

theorem watched_mono {main : Main} (watched : s.Watched INC_TO main)
    (same : t.threads.length = s.threads.length) (procs : t.procs = s.procs)
    (ended : ∀ (j : Nat) (place : Place), t.threads[j]? = some place →
      s.threads[j]? = some place ∨ ∃ old : Place, s.threads[j]? = some old ∧ old.isEnded = false)
    (kept : t.global_int = s.global_int ∨ ∃ place ∈ s.threads, place.isEnded = false) :
    t.Watched INC_TO main := by
  cases main with
  | create i => exact ⟨same.trans watched.1, procs ▸ watched.2⟩
  | join i =>
    refine ⟨by rw [same, procs, watched.1], procs ▸ watched.2.1, ?_⟩
    intro j before place at_j
    rcases ended j place at_j with old | ⟨other, old, running⟩
    · exact watched.2.2 j before place old
    · rw [watched.2.2 j before other old] at running
      cases running
  | printed value expected =>
    obtain ⟨all, gone, shown, wanted⟩ := watched
    refine ⟨by rw [same, procs, all], ?_, ?_, procs ▸ wanted⟩
    · intro place member
      obtain ⟨j, at_j⟩ := List.mem_iff_getElem?.mp member
      rcases ended j place at_j with old | ⟨other, old, running⟩
      · exact gone place (List.mem_of_getElem? old)
      · rw [gone other (List.mem_of_getElem? old)] at running
        cases running
    · rcases kept with same | ⟨place, member, running⟩
      · rw [same]
        exact shown
      · rw [gone place member] at running
        cases running

theorem watched_set (inv : Inv routine INC_TO s) {i : Nat} {place : Place}
    (here : s.threads[i]? = some place) (running : place.isEnded = false) (next : Place)
    (global_int : BitVec 32) (count_lock : Bool) :
    ({ s.goto i next with global_int := global_int, count_lock := count_lock } : Program).Watched
      INC_TO s.main := by
  apply watched_mono inv.watched
  · exact List.length_set
  · rfl
  · intro j other at_j
    by_cases same : j = i
    · subst same
      exact .inr ⟨place, here, running⟩
    · left
      rw [← at_j]
      exact (List.getElem?_set_ne (Ne.symm same)).symm
  · exact .inr ⟨place, List.mem_of_getElem? here, running⟩

/-- A thread that has not ended moves: the lock follows it in and out, the counter gets what it
    has added, and nobody else has the counter's value in hand when it changes. -/
theorem inv_move (inv : Inv routine INC_TO s) {i : Nat} {place : Place}
    (here : s.threads[i]? = some place) (running : place.isEnded = false) (next : Place)
    {global_int : BitVec 32} {count_lock : Bool} (more : Nat)
    (inside : next.inside + s.count_lock.toNat = count_lock.toNat + place.inside)
    (done : next.done INC_TO = place.done INC_TO + more)
    (counted : global_int = s.global_int + BitVec.ofNat 32 more)
    (holds : next.Holds INC_TO global_int)
    (quiet : global_int = s.global_int ∨
      ∀ j other, j ≠ i → s.threads[j]? = some other → other.inside = 0)
    (atomic : routine = .thread_routine → count_lock = false) :
    Inv routine INC_TO
      { s.goto i next with global_int := global_int, count_lock := count_lock } := by
  have insides := total_set (w := Place.inside) here next
  have dones := total_set (w := Place.done INC_TO) here next
  refine ⟨?_, ?_, ?_, atomic, watched_set inv here running next global_int count_lock⟩
  · have before := inv.locked
    change total Place.inside (s.threads.set i next) = count_lock.toNat
    omega
  · have total : total (Place.done INC_TO) (s.threads.set i next) =
        total (Place.done INC_TO) s.threads + more := by omega
    change global_int = BitVec.ofNat 32 (Threads.total _ (s.threads.set i next))
    rw [total, BitVec.ofNat_add, ← inv.counted, counted]
  · intro other member
    obtain ⟨j, at_j⟩ := List.mem_iff_getElem?.mp member
    change (s.threads.set i next)[j]? = some other at at_j
    by_cases same : j = i
    · subst same
      rw [List.getElem?_set_self (List.getElem?_eq_some_iff.mp here).1] at at_j
      cases at_j
      exact holds
    · rw [List.getElem?_set_ne (Ne.symm same)] at at_j
      have kept := inv.places other (List.mem_of_getElem? at_j)
      rcases quiet with unchanged | outside
      · change other.Holds INC_TO global_int
        rw [unchanged]
        exact kept
      · have away := outside j other same at_j
        cases other with
        | store n loaded => cases away
        | setaffinity | loop n | load n | unlock n | ended pinned => exact kept

theorem others_outside (inv : Inv routine INC_TO s) {i : Nat} {place : Place}
    (here : s.threads[i]? = some place) (inside : place.inside = s.count_lock.toNat) :
    ∀ j other, j ≠ i → s.threads[j]? = some other → other.inside = 0 := by
  intro j other apart at_j
  have both := two_le_total (w := Place.inside) apart at_j here
  rw [inv.locked] at both
  omega

theorem lock_held (inv : Inv routine INC_TO s) {i : Nat} {place : Place}
    (here : s.threads[i]? = some place) (inside : place.inside = 1) :
    s.count_lock.toNat = 1 := by
  have without := total_set (w := Place.inside) here (.ended true)
  have single := Bool.toNat_le s.count_lock
  rw [inv.locked, inside] at without
  change _ = _ + 0 at without
  omega

theorem inv_run_thread (inv : Inv routine INC_TO s) {i : Nat} {ok : Bool} {place : Place}
    (here : s.threads[i]? = some place)
    (taken : s.runThread routine INC_TO i ok place = some t) : Inv routine INC_TO t := by
  have holds := inv.places place (List.mem_of_getElem? here)
  cases place with
  | setaffinity =>
    cases taken
    cases ok with
    | true =>
      exact inv_move inv here rfl (.loop 0) 0 (Nat.add_comm _ _) rfl (BitVec.add_zero _).symm
        (Nat.zero_le _) (.inl rfl) inv.atomic
    | false =>
      exact inv_move inv here rfl (.ended false) 0 (Nat.add_comm _ _) rfl (BitVec.add_zero _).symm
        trivial (.inl rfl) inv.atomic
  | loop n =>
    unfold runThread at taken
    dsimp only at taken
    split at taken
    · rename_i more
      cases routine with
      | thread_routine =>
        cases taken
        have free : s.count_lock = false := inv.atomic rfl
        have away := others_outside inv here (by rw [free]; rfl)
        exact inv_move inv here rfl (.loop (n + 1)) 1 (Nat.add_comm _ _) rfl rfl more (.inr away)
          inv.atomic
      | thread_routine2 =>
        dsimp only at taken
        split at taken
        · cases taken
        · rename_i free
          cases taken
          rw [Bool.not_eq_true] at free
          refine inv_move inv here rfl (.load n) 0 ?_ rfl (BitVec.add_zero _).symm more (.inl rfl) ?_
          · rw [free]
            rfl
          · intro other
            cases other
    · rename_i least
      cases taken
      have last : INC_TO = n := Nat.le_antisymm (Nat.le_of_not_lt least) holds
      exact inv_move inv here rfl (.ended true) 0 (Nat.add_comm _ _) last (BitVec.add_zero _).symm
        trivial (.inl rfl) inv.atomic
  | load n =>
    cases taken
    exact inv_move inv here rfl (.store n s.global_int) 0 (Nat.add_comm _ _) rfl
      (BitVec.add_zero _).symm ⟨holds, rfl⟩ (.inl rfl) inv.atomic
  | store n loaded =>
    cases taken
    have held : s.count_lock.toNat = 1 := lock_held inv here rfl
    exact inv_move inv here rfl (.unlock n) 1 (Nat.add_comm _ _) rfl (by rw [holds.2]; rfl)
      holds.1 (.inr (others_outside inv here held.symm)) inv.atomic
  | unlock n =>
    cases taken
    have held : s.count_lock.toNat = 1 := lock_held inv here rfl
    refine inv_move inv here rfl (.loop (n + 1)) 0 ?_ rfl (BitVec.add_zero _).symm holds (.inl rfl)
      (fun _ => rfl)
    rw [held]
    rfl
  | ended pinned => cases taken

theorem inv_run_main (inv : Inv routine INC_TO s) {ok : Bool}
    (taken : s.runMain INC_TO ok = some t) : Inv routine INC_TO t := by
  have watched := inv.watched
  rw [runMain] at taken
  split at taken
  · rename_i i at_create
    rw [at_create] at watched
    split at taken
    · rename_i more
      split at taken
      · cases taken
        refine ⟨?_, ?_, ?_, inv.atomic, ?_, more⟩
        · simp [total, Place.inside, ← inv.locked]
        · simp [total, Place.done, inv.counted]
        · intro place member
          rcases List.mem_append.mp member with old | new
          · exact inv.places place old
          · rw [List.mem_singleton.mp new]
            trivial
        · simp [watched.1]
      · cases taken
        refine ⟨inv.locked, inv.counted, inv.places, inv.atomic, watched.1, Nat.zero_le _, ?_⟩
        intro j none
        exact absurd none (Nat.not_lt_zero j)
    · rename_i all
      cases taken
      refine ⟨inv.locked, inv.counted, inv.places, inv.atomic, ?_, Nat.zero_le _, ?_⟩
      · have := watched.1
        have := watched.2
        change s.threads.length = s.procs
        omega
      · intro j none
        exact absurd none (Nat.not_lt_zero j)
  · rename_i i at_join
    rw [at_join] at watched
    obtain ⟨all, within, joined⟩ := watched
    split at taken
    · rename_i more
      split at taken
      · rename_i pinned here
        cases taken
        refine ⟨inv.locked, inv.counted, inv.places, inv.atomic, all, more, ?_⟩
        intro j before place at_j
        rcases Nat.lt_succ_iff_lt_or_eq.mp before with earlier | rfl
        · exact joined j earlier place at_j
        · change s.threads[j]? = some place at at_j
          rw [here] at at_j
          cases at_j
          rfl
      · cases taken
    · rename_i last
      cases taken
      refine ⟨inv.locked, inv.counted, inv.places, inv.atomic, all, ?_, rfl, ?_⟩
      · intro place member
        obtain ⟨j, at_j⟩ := List.mem_iff_getElem?.mp member
        have inside := (List.getElem?_eq_some_iff.mp at_j).1
        change j < s.threads.length at inside
        exact joined j (by omega) place at_j
      · exact BitVec.ofNat_mul _ _ |>.symm
  · cases taken

theorem inv_step (inv : Inv routine INC_TO s) {event : Event}
    (taken : s.step routine INC_TO event = some t) : Inv routine INC_TO t := by
  cases event with
  | main ok => exact inv_run_main inv taken
  | thread i ok =>
    obtain ⟨place, here, ran⟩ := Option.bind_eq_some_iff.mp taken
    exact inv_run_thread inv here ran

theorem done_ended (gone : ∀ place ∈ s.threads, place.isEnded = true) :
    total (Place.done INC_TO) s.threads = INC_TO * total Place.pinned s.threads := by
  have each : s.threads.map (Place.done INC_TO) = s.threads.map (fun p => INC_TO * p.pinned) := by
    apply List.map_congr_left
    intro place member
    have ended := gone place member
    cases place with
    | ended pinned => cases pinned <;> simp [Place.done, Place.pinned]
    | setaffinity | loop n | load n | store n loaded | unlock n => cases ended
  rw [total, each, List.sum_map_mul_left, total]

/-- The steps left at most, a thread that is not created yet counted with one of main's. -/
def left (INC_TO : Nat) (s : Program) : Nat :=
  total (Place.left INC_TO) s.threads + match s.main with
  | .create i => (s.procs - i) * (4 * INC_TO + 4) + s.procs + 2
  | .join i => s.procs - i + 1
  | .printed _ _ => 0

theorem left_run_thread (inv : Inv routine INC_TO s) {i : Nat} {ok : Bool} {place : Place}
    (here : s.threads[i]? = some place)
    (taken : s.runThread routine INC_TO i ok place = some t) :
    ∃ next, t.threads = s.threads.set i next ∧ t.main = s.main ∧ t.procs = s.procs ∧
      next.left INC_TO < place.left INC_TO := by
  have holds := inv.places place (List.mem_of_getElem? here)
  cases place with
  | setaffinity =>
    cases taken
    refine ⟨_, rfl, rfl, rfl, ?_⟩
    split <;> simp [Place.left]
  | loop n =>
    unfold runThread at taken
    dsimp only at taken
    split at taken
    · rename_i more
      cases routine with
      | thread_routine =>
        cases taken
        refine ⟨_, rfl, rfl, rfl, ?_⟩
        simp only [Place.left]
        omega
      | thread_routine2 =>
        dsimp only at taken
        split at taken
        · cases taken
        · cases taken
          exact ⟨_, rfl, rfl, rfl, Nat.lt_succ_self _⟩
    · cases taken
      exact ⟨_, rfl, rfl, rfl, Nat.succ_pos _⟩
  | load n =>
    cases taken
    have more : n < INC_TO := holds
    refine ⟨_, rfl, rfl, rfl, ?_⟩
    simp only [Place.left]
    omega
  | store n loaded =>
    cases taken
    have more : n < INC_TO := holds.1
    refine ⟨_, rfl, rfl, rfl, ?_⟩
    simp only [Place.left]
    omega
  | unlock n =>
    cases taken
    have more : n < INC_TO := holds
    refine ⟨_, rfl, rfl, rfl, ?_⟩
    simp only [Place.left]
    omega
  | ended pinned => cases taken

theorem left_run_main (inv : Inv routine INC_TO s) {ok : Bool}
    (taken : s.runMain INC_TO ok = some t) : left INC_TO t < left INC_TO s := by
  have watched := inv.watched
  rw [runMain] at taken
  split at taken
  · rename_i i at_create
    rw [at_create] at watched
    split at taken
    · rename_i more
      obtain ⟨rest, still⟩ : ∃ rest, s.procs - i = rest + 1 := ⟨s.procs - i - 1, by omega⟩
      have next : s.procs - (i + 1) = rest := by omega
      split at taken
      · cases taken
        simp only [left, at_create, still, next, total, Place.left, List.map_append, List.map_cons,
          List.map_nil, List.sum_append, List.sum_cons, List.sum_nil, Nat.add_mul]
        omega
      · cases taken
        simp only [left, at_create]
        omega
    · cases taken
      simp only [left, at_create]
      omega
  · rename_i i at_join
    split at taken
    · split at taken
      · cases taken
        simp only [left, at_join]
        omega
      · cases taken
    · cases taken
      simp only [left, at_join]
      omega
  · cases taken

theorem left_step (inv : Inv routine INC_TO s) {event : Event}
    (taken : s.step routine INC_TO event = some t) : left INC_TO t < left INC_TO s := by
  cases event with
  | main ok => exact left_run_main inv taken
  | thread i ok =>
    obtain ⟨place, here, ran⟩ := Option.bind_eq_some_iff.mp taken
    obtain ⟨next, threads, main, procs, nearer⟩ := left_run_thread inv here ran
    have moved := total_set (w := Place.left INC_TO) here next
    rw [left, left, threads, main, procs]
    omega

theorem inv_history {history : List Event} (inv : Inv routine INC_TO s)
    (played : play (step routine INC_TO) history s = some t) :
    Inv routine INC_TO t ∧ history.length + left INC_TO t ≤ left INC_TO s := by
  induction history generalizing s with
  | nil =>
    cases played
    exact ⟨inv, by simp⟩
  | cons event history ih =>
    obtain ⟨next, first, rest⟩ := Option.bind_eq_some_iff.mp played
    have less := left_step inv first
    obtain ⟨kept, bound⟩ := ih (inv_step inv first) rest
    refine ⟨kept, ?_⟩
    rw [List.length_cons]
    omega

/-- A thread is kept from its next step by the lock only. -/
theorem thread_possible (s : Program) (i : Nat) {place : Place} (running : place.isEnded = false)
    (free : s.count_lock = false ∨ place.inside = 1) :
    (s.runThread routine INC_TO i true place).isSome := by
  cases place with
  | loop n =>
    rcases free with free | inside
    · unfold runThread
      dsimp only
      split
      · cases routine with
        | thread_routine => rfl
        | thread_routine2 =>
          dsimp only
          rw [free]
          rfl
      · rfl
    · cases inside
  | setaffinity | load n | store n loaded | unlock n => rfl
  | ended pinned => cases running

theorem some_thread {i : Nat} {place : Place} (here : s.threads[i]? = some place)
    (possible : (s.runThread routine INC_TO i true place).isSome) :
    ∃ event, (s.step routine INC_TO event).isSome := by
  refine ⟨.thread i true, ?_⟩
  rw [step, here]
  exact possible

/-- Whoever has the lock can go on, and main until it has printed. -/
theorem not_stuck (inv : Inv routine INC_TO s)
    (stuck : ∀ event, s.step routine INC_TO event = none) :
    ∃ value expected, s.main = .printed value expected := by
  have nothing : ¬ ∃ event, (s.step routine INC_TO event).isSome := by
    rintro ⟨event, possible⟩
    rw [stuck event] at possible
    cases possible
  have watched := inv.watched
  cases at_main : s.main with
  | printed value expected => exact ⟨value, expected, rfl⟩
  | create i =>
    have refused := stuck (.main true)
    rw [step, runMain, at_main] at refused
    dsimp only at refused
    split at refused <;> cases refused
  | join i =>
    rw [at_main] at watched
    have refused := stuck (.main true)
    rw [step, runMain, at_main] at refused
    dsimp only at refused
    split at refused
    · rename_i more
      obtain ⟨place, here⟩ : ∃ place, s.threads[i]? = some place :=
        ⟨_, List.getElem?_eq_getElem (by rw [watched.1]; exact more)⟩
      cases gone : place.isEnded with
      | true =>
        cases place with
        | ended pinned =>
          rw [here] at refused
          cases refused
        | setaffinity | loop n | load n | store n loaded | unlock n => cases gone
      | false =>
        exfalso
        apply nothing
        cases locked : s.count_lock with
        | false => exact some_thread here (thread_possible s i gone (.inl locked))
        | true =>
          -- the thread that has the lock
          have one := inv.locked
          rw [locked] at one
          obtain ⟨owner, member, inside⟩ : ∃ owner ∈ s.threads, owner.inside ≠ 0 := by
            by_contra nobody
            push Not at nobody
            rw [total_zero nobody] at one
            cases one
          obtain ⟨j, at_j⟩ := List.mem_iff_getElem?.mp member
          have running : owner.isEnded = false ∧ owner.inside = 1 := by
            cases owner <;> first | exact ⟨rfl, rfl⟩ | exact absurd rfl inside
          exact some_thread at_j (thread_possible s j running.1 (.inr running.2))
    · cases refused

/-- Whichever routine the threads run and however main and the threads interleave: a run is over
    after a bounded number of steps, with at most one thread inside the lock all along, and then
    main has printed INC_TO for every thread that was pinned beside INC_TO for every thread that
    was created. -/
theorem no_addition_is_lost {online : Int} {malloc : Bool} {history : List Event}
    {first : Program} (booted : boot online malloc = some first)
    (played : play (step routine INC_TO) history first = some s) :
    history.length ≤ online.toNat * (4 * INC_TO + 5) + 2 ∧ total Place.inside s.threads ≤ 1 ∧
      ((∀ event, s.step routine INC_TO event = none) →
        s.main = .printed (BitVec.ofNat 32 (INC_TO * total Place.pinned s.threads))
          (BitVec.ofNat 32 (INC_TO * s.threads.length))) := by
  obtain ⟨inv, bound⟩ := inv_history (inv_boot booted) played
  refine ⟨?_, ?_, ?_⟩
  · have start : left INC_TO first = online.toNat * (4 * INC_TO + 5) + 2 := by
      rw [boot] at booted
      split at booted
      · cases booted
      · cases booted
        simp only [left, total, List.map_nil, List.sum_nil, Nat.sub_zero]
        ring
    omega
  · rw [inv.locked]
    exact Bool.toNat_le _
  · intro stuck
    obtain ⟨value, expected, at_main⟩ := not_stuck inv stuck
    have watched := inv.watched
    rw [at_main] at watched
    obtain ⟨all, gone, shown, wanted⟩ := watched
    rw [at_main, shown, wanted, inv.counted, done_ended gone, all]

/-- Two threads with count_lock and one addition each; the second could not be pinned. -/
def oneAdditionEach : List Event :=
  [.main true, .main true, .main true, .thread 0 true, .thread 1 false, .thread 0 true,
    .thread 0 true, .thread 0 true, .thread 0 true, .thread 0 true, .main true, .main true,
    .main true]

theorem one_of_two_is_pinned : ∃ first s, boot 2 true = some first ∧
    play (step .thread_routine2 1) oneAdditionEach first = some s ∧ s.main = .printed 1 2 := by
  have booted : boot 2 true = some ⟨0, false, [], 2, .create 0⟩ := rfl
  have played :
      play (step .thread_routine2 1) oneAdditionEach ⟨0, false, [], 2, .create 0⟩ = some _ := rfl
  refine ⟨_, _, booted, played, ?_⟩
  have all := (no_addition_is_lost booted played).2.2
  apply all
  intro event
  cases event with
  | main ok => rfl
  | thread i ok =>
    match i with
    | 0 => rfl
    | 1 => rfl
    | i + 2 => rfl

end Program

end UC.Sync
