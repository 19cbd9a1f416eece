import UC.Lib.Threads
import UC.OptTime.Clock

/- The try-lock lets one thread at a time refresh walltime, and keeps no caller waiting. What a
   call returns is one reading of the system clock unless a refresh was under way while it was
   copied; then its parts are of readings as far as gettimeofday stores no other numbers. -/
namespace UC.OptTime
open UC.Histories UC.Threads

namespace Place

/-- Between the cmpxchg that succeeds and lock = 0. -/
def inside : Place → Nat
  | .fetch | .store _ _ | .storeTick | .unlock => 1
  | _ => 0

/-- gettimeofday is at its stores. -/
def midway : Place → Nat
  | .store _ _ => 1
  | _ => 0

theorem midway_le_inside (place : Place) : place.midway ≤ place.inside := by
  cases place <;> simp [midway, inside]

end Place

/-- The store writes what the timeval has in the end. -/
def Store.PartOf (reading : Timeval) : Store → Prop
  | .tv_sec n => n = reading.tv_sec
  | .tv_usec n => n = reading.tv_usec

structure Timeval.OfReadings (readings : List Timeval) (tv : Timeval) : Prop where
  sec : ∃ reading ∈ readings, tv.tv_sec = reading.tv_sec
  usec : ∃ reading ∈ readings, tv.tv_usec = reading.tv_usec

/-- Each number of the result is of some reading. -/
structure Result.OfReadings (readings : List Timeval) (r : Result) : Prop where
  sec : ∃ reading ∈ readings, r.tv_sec = reading.tv_sec
  usec : ∀ tv_usec, r.tv_usec = some tv_usec → ∃ reading ∈ readings, tv_usec = reading.tv_usec
  t : ∀ t, r.t = some t → ∃ reading ∈ readings, t = reading.tv_sec

/-- All of the result is of one reading. -/
def Result.IsReading (readings : List Timeval) (r : Result) : Prop :=
  ∃ reading ∈ readings, r.tv_sec = reading.tv_sec ∧
    (∀ tv_usec, r.tv_usec = some tv_usec → tv_usec = reading.tv_usec) ∧
    ∀ t, r.t = some t → t = reading.tv_sec

namespace Clock

/-- What the statics have for a thread in this place. Where gettimeofday stores nothing but parts
    of its readings, direct holds. -/
def Holds (direct : Prop) (s : Clock) : Place → Prop
  | .store reading stores => reading ∈ s.readings ∧
      stores.foldl Store.apply s.walltime = reading ∧
      (direct → ∀ part ∈ stores, part.PartOf reading)
  | .storeTick | .unlock | .copySec => 2 ≤ s.refreshes
  | .copyRest tv_sec refreshes => 2 ≤ refreshes ∧ refreshes ≤ s.refreshes ∧
      (direct → ∃ reading ∈ s.readings, tv_sec = reading.tv_sec) ∧
      (refreshes = s.refreshes → refreshes % 2 = 0 → tv_sec = s.walltime.tv_sec)
  | _ => True

structure Inv (direct : Prop) (s : Clock) : Prop where
  locked : total Place.inside s.threads = s.lock
  single : s.lock ≤ 1
  parity : total Place.midway s.threads = s.refreshes % 2
  parts : direct → 2 ≤ s.refreshes → s.walltime.OfReadings s.readings
  whole : 2 ≤ s.refreshes → s.refreshes % 2 = 0 → s.walltime ∈ s.readings
  ticked : s.walltick ≠ 0 → 2 ≤ s.refreshes
  places : ∀ place ∈ s.threads, s.Holds direct place
  sound : ∀ r ∈ s.results, r.quiet = true → r.IsReading s.readings
  real : direct → ∀ r ∈ s.results, r.OfReadings s.readings

variable {direct : Prop} {s t : Clock}

theorem of_none {P : Int → Prop} (n : Int) (absent : none = some n) : P n := by
  cases absent

theorem inv_start (threads : Nat) : Inv direct (start threads) := by
  have outside : ∀ place ∈ (start threads).threads, place = .outside := fun _ member =>
    List.eq_of_mem_replicate member
  have none_inside : total Place.inside (start threads).threads = 0 := by
    apply total_zero
    intro place member
    rw [outside place member]
    rfl
  have none_midway : total Place.midway (start threads).threads = 0 := by
    apply total_zero
    intro place member
    rw [outside place member]
    rfl
  constructor
  · exact none_inside
  · exact Nat.zero_le 1
  · exact none_midway
  · intro _ some_refresh
    cases some_refresh
  · intro some_refresh
    cases some_refresh
  · intro some_tick
    exact absurd rfl some_tick
  · intro place member
    rw [outside place member]
    trivial
  · intro r member
    cases member
  · intro _ r member
    cases member

theorem alone (inv : Inv direct s) {i j : Nat} {p q : Place} (apart : i ≠ j)
    (first : s.threads[i]? = some p) (second : s.threads[j]? = some q) (holds : p.inside = 1) :
    q.inside = 0 := by
  have both := two_le_total (w := Place.inside) apart first second
  have single := inv.single
  rw [inv.locked, holds] at both
  omega

theorem places_set {P : Place → Prop} {i : Nat} {next : Place} (kept : P next)
    (others : ∀ j place, j ≠ i → s.threads[j]? = some place → P place) :
    ∀ place ∈ s.threads.set i next, P place := by
  intro place member
  obtain ⟨j, at_j⟩ := List.mem_iff_getElem?.mp member
  by_cases same : j = i
  · subst same
    have inside := (List.getElem?_eq_some_iff.mp at_j).1
    rw [List.length_set] at inside
    rw [List.getElem?_set_self inside] at at_j
    cases at_j
    exact kept
  · rw [List.getElem?_set_ne (Ne.symm same)] at at_j
    exact others j place same at_j

theorem inv_goto (inv : Inv direct s) {i : Nat} {place : Place}
    (here : s.threads[i]? = some place) (next : Place) (inside : next.inside = place.inside)
    (midway : next.midway = place.midway) (holds : s.Holds direct next) :
    Inv direct (s.goto i next) := by
  have locked := total_set (w := Place.inside) here next
  have parity := total_set (w := Place.midway) here next
  refine ⟨?_, inv.single, ?_, inv.parts, inv.whole, inv.ticked, ?_, inv.sound, inv.real⟩
  · have before := inv.locked
    change total Place.inside (s.threads.set i next) = s.lock
    omega
  · have before := inv.parity
    change total Place.midway (s.threads.set i next) = s.refreshes % 2
    omega
  · apply places_set (P := Holds direct (s.goto i next))
    · cases next <;> exact holds
    · intro j other _ at_j
      have kept := inv.places other (List.mem_of_getElem? at_j)
      cases other <;> exact kept

theorem of_readings_more {readings : List Timeval} {r : Result} (real : r.OfReadings readings)
    (now : Timeval) : r.OfReadings (readings ++ [now]) := by
  obtain ⟨⟨first, member, same⟩, usec, t⟩ := real
  refine ⟨⟨first, List.mem_append_left _ member, same⟩, ?_, ?_⟩
  · intro n here
    obtain ⟨second, member, same⟩ := usec n here
    exact ⟨second, List.mem_append_left _ member, same⟩
  · intro n here
    obtain ⟨second, member, same⟩ := t n here
    exact ⟨second, List.mem_append_left _ member, same⟩

theorem is_reading_more {readings : List Timeval} {r : Result} (sound : r.IsReading readings)
    (now : Timeval) : r.IsReading (readings ++ [now]) := by
  obtain ⟨reading, member, same⟩ := sound
  exact ⟨reading, List.mem_append_left _ member, same⟩

theorem is_reading_real {readings : List Timeval} {r : Result} (sound : r.IsReading readings) :
    r.OfReadings readings := by
  obtain ⟨reading, member, sec, usec, t⟩ := sound
  exact ⟨⟨reading, member, sec⟩, fun n here => ⟨reading, member, usec n here⟩,
    fun n here => ⟨reading, member, t n here⟩⟩

theorem holds_more {place : Place} (holds : s.Holds direct place) (now : Timeval) :
    { s with readings := s.readings ++ [now] }.Holds direct place := by
  cases place with
  | store reading stores => exact ⟨List.mem_append_left _ holds.1, holds.2⟩
  | copyRest tv_sec refreshes =>
    obtain ⟨two, earlier, real, fresh⟩ := holds
    refine ⟨two, earlier, ?_, fresh⟩
    intro is_direct
    obtain ⟨reading, member, same⟩ := real is_direct
    exact ⟨reading, List.mem_append_left _ member, same⟩
  | outside | testSec | testTick | testLock | cas | fetch | system => trivial
  | storeTick | unlock | copySec => exact holds

theorem inv_read (inv : Inv direct s) (now : Timeval) :
    Inv direct { s with readings := s.readings ++ [now] } := by
  refine ⟨inv.locked, inv.single, inv.parity, ?_, ?_, inv.ticked, ?_, ?_, ?_⟩
  · intro is_direct two
    obtain ⟨⟨first, in_first, sec⟩, second, in_second, usec⟩ := inv.parts is_direct two
    exact ⟨⟨first, List.mem_append_left _ in_first, sec⟩, second,
      List.mem_append_left _ in_second, usec⟩
  · intro two even
    exact List.mem_append_left _ (inv.whole two even)
  · intro place member
    exact holds_more (inv.places place member) now
  · intro r member quiet
    exact is_reading_more (inv.sound r member quiet) now
  · intro is_direct r member
    exact of_readings_more (inv.real is_direct r member) now

theorem inv_result (inv : Inv direct s) {r : Result}
    (sound : r.quiet = true → r.IsReading s.readings)
    (real : direct → r.OfReadings s.readings) :
    Inv direct { s with results := s.results ++ [r] } := by
  refine ⟨inv.locked, inv.single, inv.parity, inv.parts, inv.whole, inv.ticked, ?_, ?_, ?_⟩
  · intro place member
    have kept := inv.places place member
    cases place <;> exact kept
  · intro other member quiet
    rcases List.mem_append.mp member with old | new
    · exact inv.sound other old quiet
    · rw [List.mem_singleton.mp new] at quiet ⊢
      exact sound quiet
  · intro is_direct other member
    rcases List.mem_append.mp member with old | new
    · exact inv.real is_direct other old
    · rw [List.mem_singleton.mp new]
      exact real is_direct

theorem inv_leave (inv : Inv direct s) {i : Nat} {place : Place}
    (here : s.threads[i]? = some place) (outside : place.inside = 0) {r : Result}
    (sound : r.quiet = true → r.IsReading s.readings)
    (real : direct → r.OfReadings s.readings) : Inv direct (s.leave i r) := by
  have midway : place.midway = 0 := Nat.le_zero.mp (outside ▸ Place.midway_le_inside place)
  exact inv_result (inv_goto inv here .outside outside.symm midway.symm trivial) sound real

theorem inv_given (inv : Inv direct s) (given : Nat → Bool) :
    Inv direct { s with given := given } := by
  refine ⟨inv.locked, inv.single, inv.parity, inv.parts, inv.whole, inv.ticked, ?_, inv.sound,
    inv.real⟩
  intro place member
  have kept := inv.places place member
  cases place <;> exact kept

theorem inv_locked (inv : Inv direct s) {i : Nat} (here : s.threads[i]? = some .cas)
    (free : s.lock = 0) : Inv direct { s.goto i .fetch with lock := 1 } := by
  have locked := total_set (w := Place.inside) here .fetch
  have parity := total_set (w := Place.midway) here .fetch
  refine ⟨?_, Nat.le_refl 1, ?_, inv.parts, inv.whole, inv.ticked, ?_, inv.sound, inv.real⟩
  · have before := inv.locked
    rw [free] at before
    rw [before] at locked
    exact locked
  · have before := inv.parity
    rw [before] at parity
    exact parity
  · apply places_set (P := Holds direct { s.goto i .fetch with lock := 1 })
    · trivial
    · intro j other _ at_j
      have kept := inv.places other (List.mem_of_getElem? at_j)
      cases other <;> exact kept

theorem inv_unlocked (inv : Inv direct s) {i : Nat} (here : s.threads[i]? = some .unlock) :
    Inv direct { s.goto i .copySec with lock := 0 } := by
  have locked := total_set (w := Place.inside) here .copySec
  have parity := total_set (w := Place.midway) here .copySec
  have stored : 2 ≤ s.refreshes := inv.places _ (List.mem_of_getElem? here)
  refine ⟨?_, Nat.zero_le 1, ?_, inv.parts, inv.whole, inv.ticked, ?_, inv.sound, inv.real⟩
  · have before := inv.locked
    have single := inv.single
    change total Place.inside (s.threads.set i .copySec) = 0
    change total Place.inside (s.threads.set i .copySec) + 1 = _ + 0 at locked
    omega
  · have before := inv.parity
    rw [before] at parity
    exact parity
  · apply places_set (P := Holds direct { s.goto i .copySec with lock := 0 })
    · exact stored
    · intro j other _ at_j
      have kept := inv.places other (List.mem_of_getElem? at_j)
      cases other <;> exact kept

theorem holds_beside (inv : Inv direct s) {i j : Nat} {place other : Place} (apart : j ≠ i)
    (here : s.threads[i]? = some place) (inside : place.inside = 1)
    (at_j : s.threads[j]? = some other) (walltime : Timeval) {refreshes : Nat}
    (more : s.refreshes < refreshes ∨ refreshes = s.refreshes ∧ s.refreshes % 2 = 1) :
    { s with walltime := walltime, refreshes := refreshes }.Holds direct other := by
  have kept := inv.places other (List.mem_of_getElem? at_j)
  have outside := alone inv (Ne.symm apart) here at_j inside
  cases other with
  | store reading stores => cases outside
  | copyRest tv_sec earlier =>
    obtain ⟨two, le, real, _⟩ := kept
    refine ⟨two, ?_, real, ?_⟩
    · change earlier ≤ refreshes
      omega
    · intro same even
      change earlier = refreshes at same
      omega
  | storeTick | unlock | copySec =>
    change 2 ≤ refreshes
    change 2 ≤ s.refreshes at kept
    omega
  | outside | testSec | testTick | testLock | cas | fetch | system => trivial

theorem nobody_midway (inv : Inv direct s) {i : Nat} {place : Place}
    (here : s.threads[i]? = some place) (inside : place.inside = 1) (elsewhere : place.midway = 0) :
    total Place.midway s.threads = 0 := by
  apply total_zero
  intro other member
  obtain ⟨j, at_j⟩ := List.mem_iff_getElem?.mp member
  by_cases same : j = i
  · subst same
    rw [here] at at_j
    cases at_j
    exact elsewhere
  · have outside := alone inv (Ne.symm same) here at_j inside
    exact Nat.le_zero.mp (outside ▸ Place.midway_le_inside other)

theorem inv_begun (inv : Inv direct s) {i : Nat} (here : s.threads[i]? = some .fetch)
    {reading : Timeval} (read : reading ∈ s.readings) {stores : List Store}
    (settles : stores.foldl Store.apply s.walltime = reading)
    (parts : direct → ∀ part ∈ stores, part.PartOf reading) :
    Inv direct { s.goto i (.store reading stores) with refreshes := s.refreshes + 1 } := by
  have quiet := nobody_midway inv here rfl rfl
  have locked := total_set (w := Place.inside) here (.store reading stores)
  have parity := total_set (w := Place.midway) here (.store reading stores)
  have before := inv.parity
  change total Place.midway (s.threads.set i (.store reading stores)) + 0 = _ + 1 at parity
  refine ⟨?_, inv.single, ?_, ?_, ?_, ?_, ?_, inv.sound, inv.real⟩
  · have held := inv.locked
    change total Place.inside (s.threads.set i (.store reading stores)) = s.lock
    change total Place.inside (s.threads.set i (.store reading stores)) + 1 = _ + 1 at locked
    omega
  · change total Place.midway (s.threads.set i (.store reading stores)) = (s.refreshes + 1) % 2
    omega
  · intro is_direct two
    change 2 ≤ s.refreshes + 1 at two
    exact inv.parts is_direct (by omega)
  · intro two even
    change (s.refreshes + 1) % 2 = 0 at even
    omega
  · intro some_tick
    exact Nat.le_succ_of_le (inv.ticked some_tick)
  · apply places_set (P := Holds direct { s.goto i (.store reading stores) with
      refreshes := s.refreshes + 1 })
    · exact ⟨read, settles, parts⟩
    · intro j other apart at_j
      have kept := holds_beside inv apart here rfl at_j s.walltime
        (Or.inl (Nat.lt_succ_self s.refreshes))
      cases other <;> exact kept

/-- A thread at its stores makes the count of refreshes odd. -/
theorem refresh_odd (inv : Inv direct s) {i : Nat} {reading : Timeval} {stores : List Store}
    (here : s.threads[i]? = some (.store reading stores)) : s.refreshes % 2 = 1 := by
  have set_back := total_set (w := Place.midway) here .outside
  have before := inv.parity
  change total Place.midway (s.threads.set i .outside) + 1 = _ + 0 at set_back
  omega

theorem inv_store (inv : Inv direct s) {i : Nat} {reading : Timeval} {part : Store}
    {stores : List Store} (here : s.threads[i]? = some (.store reading (part :: stores))) :
    Inv direct { s.goto i (.store reading stores) with walltime := part.apply s.walltime } := by
  obtain ⟨read, settles, parts⟩ := inv.places _ (List.mem_of_getElem? here)
  have odd := refresh_odd inv here
  have locked := total_set (w := Place.inside) here (.store reading stores)
  have parity := total_set (w := Place.midway) here (.store reading stores)
  have before := inv.parity
  change total Place.midway (s.threads.set i (.store reading stores)) + 1 = _ + 1 at parity
  refine ⟨?_, inv.single, ?_, ?_, ?_, inv.ticked, ?_, inv.sound, inv.real⟩
  · have held := inv.locked
    change total Place.inside (s.threads.set i (.store reading stores)) = s.lock
    change total Place.inside (s.threads.set i (.store reading stores)) + 1 = _ + 1 at locked
    omega
  · change total Place.midway (s.threads.set i (.store reading stores)) = s.refreshes % 2
    omega
  · intro is_direct two
    obtain ⟨sec, usec⟩ := inv.parts is_direct two
    have own := parts is_direct part List.mem_cons_self
    cases part with
    | tv_sec n => exact ⟨⟨reading, read, own⟩, usec⟩
    | tv_usec n => exact ⟨sec, reading, read, own⟩
  · intro _ even
    change s.refreshes % 2 = 0 at even
    omega
  · apply places_set (P := Holds direct { s.goto i (.store reading stores) with
      walltime := part.apply s.walltime })
    · exact ⟨read, settles, fun is_direct other member =>
        parts is_direct other (List.mem_cons_of_mem part member)⟩
    · intro j other apart at_j
      have kept := holds_beside inv apart here rfl at_j (part.apply s.walltime)
        (Or.inr ⟨rfl, odd⟩)
      cases other <;> exact kept

theorem inv_ended (inv : Inv direct s) {i : Nat} {reading : Timeval}
    (here : s.threads[i]? = some (.store reading [])) :
    Inv direct { s.goto i .storeTick with refreshes := s.refreshes + 1 } := by
  obtain ⟨read, settled, _⟩ := inv.places _ (List.mem_of_getElem? here)
  change s.walltime = reading at settled
  have odd := refresh_odd inv here
  have locked := total_set (w := Place.inside) here .storeTick
  have parity := total_set (w := Place.midway) here .storeTick
  have before := inv.parity
  change total Place.midway (s.threads.set i .storeTick) + 1 = _ + 0 at parity
  refine ⟨?_, inv.single, ?_, ?_, ?_, ?_, ?_, inv.sound, inv.real⟩
  · have held := inv.locked
    change total Place.inside (s.threads.set i .storeTick) = s.lock
    change total Place.inside (s.threads.set i .storeTick) + 1 = _ + 1 at locked
    omega
  · change total Place.midway (s.threads.set i .storeTick) = (s.refreshes + 1) % 2
    omega
  · intro _ _
    exact ⟨⟨reading, read, congrArg Timeval.tv_sec settled⟩, reading, read,
      congrArg Timeval.tv_usec settled⟩
  · intro _ _
    change s.walltime ∈ s.readings
    rw [settled]
    exact read
  · intro some_tick
    exact Nat.le_succ_of_le (inv.ticked some_tick)
  · apply places_set (P := Holds direct { s.goto i .storeTick with refreshes := s.refreshes + 1 })
    · change 2 ≤ s.refreshes + 1
      omega
    · intro j other apart at_j
      have kept := holds_beside inv apart here rfl at_j s.walltime
        (Or.inl (Nat.lt_succ_self s.refreshes))
      cases other <;> exact kept

theorem inv_refresh (inv : Inv direct s) {i : Nat} {reading : Timeval} {part : Store}
    {stores : List Store} (here : s.threads[i]? = some (.store reading (part :: stores))) :
    Inv direct ({ s with walltime := part.apply s.walltime }.refresh i reading stores) := by
  have stored := inv_store inv here
  cases stores with
  | cons next rest => exact stored
  | nil =>
    have inside := (List.getElem?_eq_some_iff.mp here).1
    have ended := @inv_ended _ _ stored i reading (List.getElem?_set_self inside)
    have twice : (s.threads.set i (.store reading [])).set i .storeTick =
        s.threads.set i .storeTick := List.set_set ..
    simp only [goto, twice] at ended
    exact ended

theorem inv_tick (inv : Inv direct s) {i : Nat} (here : s.threads[i]? = some .storeTick)
    (rdtsc : UInt64) : Inv direct { s.goto i .unlock with walltick := rdtsc } := by
  have stored : 2 ≤ s.refreshes := inv.places _ (List.mem_of_getElem? here)
  have moved := inv_goto inv here .unlock rfl rfl stored
  refine ⟨moved.locked, moved.single, moved.parity, moved.parts, moved.whole, fun _ => stored, ?_,
    moved.sound, moved.real⟩
  intro place member
  have kept := moved.places place member
  cases place <;> exact kept

/-- A tick of the counter that is past its first max_ticks. -/
def Late : Tick → Prop
  | .call _ _ => True
  | .run _ rdtsc _ _ => max_ticks < rdtsc

instance : DecidablePred Late
  | .call _ _ => inferInstanceAs (Decidable True)
  | .run _ rdtsc _ _ => inferInstanceAs (Decidable (max_ticks < rdtsc))

/-- When gettimeofday returns, the timeval has its reading. -/
def Documented : Tick → Prop
  | .call _ _ => True
  | .run _ _ now stores => ∀ tv, stores.foldl Store.apply tv = now

/-- gettimeofday stores nothing but the two parts of its reading. -/
def Direct : Tick → Prop
  | .call _ _ => True
  | .run _ _ now stores => ∀ part ∈ stores, part.PartOf now

/-- Where walltime is copied after a first refresh, its parts are of readings. -/
theorem copied_parts (inv : Inv direct s) (two : 2 ≤ s.refreshes) (is_direct : direct) :
    ∃ reading ∈ s.readings, s.walltime.tv_sec = reading.tv_sec := (inv.parts is_direct two).sec

theorem inv_copy_sec (inv : Inv direct s) {f : Function} {i : Nat} {rdtsc : UInt64}
    {now : Timeval} {stores : List Store} (here : s.threads[i]? = some .copySec)
    (taken : s.advance f i rdtsc now stores .copySec = some t) : Inv direct t := by
  have two : 2 ≤ s.refreshes := inv.places _ (List.mem_of_getElem? here)
  have goes_on : Inv direct (s.goto i (.copyRest s.walltime.tv_sec s.refreshes)) :=
    inv_goto inv here _ rfl rfl ⟨two, Nat.le_refl _, copied_parts inv two, fun _ _ => rfl⟩
  cases f with
  | opt_gettimeofday =>
    cases taken
    exact goes_on
  | opt_time =>
    rw [advance] at taken
    split at taken
    · cases taken
      exact goes_on
    · cases taken
      apply inv_leave inv here rfl
      · intro quiet
        have whole := inv.whole two (of_decide_eq_true quiet)
        exact ⟨s.walltime, whole, rfl, of_none, of_none⟩
      · intro is_direct
        exact ⟨copied_parts inv two is_direct, of_none,
          of_none⟩

theorem inv_copy_rest (inv : Inv direct s) {f : Function} {i : Nat} {rdtsc : UInt64}
    {now : Timeval} {stores : List Store} {tv_sec : Int} {refreshes : Nat}
    (here : s.threads[i]? = some (.copyRest tv_sec refreshes))
    (taken : s.advance f i rdtsc now stores (.copyRest tv_sec refreshes) = some t) :
    Inv direct t := by
  obtain ⟨two, earlier, first, fresh⟩ := inv.places _ (List.mem_of_getElem? here)
  have quiet_whole : refreshes = s.refreshes ∧ refreshes % 2 = 0 →
      s.walltime ∈ s.readings ∧ tv_sec = s.walltime.tv_sec := fun quiet =>
    ⟨inv.whole (by omega) (by omega), fresh quiet.1 quiet.2⟩
  cases f with
  | opt_gettimeofday =>
    cases taken
    apply inv_leave inv here rfl
    · intro quiet
      obtain ⟨whole, same⟩ := quiet_whole (of_decide_eq_true quiet)
      exact ⟨s.walltime, whole, same, fun _ copy => (Option.some.inj copy).symm,
        of_none⟩
    · intro is_direct
      refine ⟨first is_direct, ?_, of_none⟩
      rintro _ ⟨⟩
      exact (inv.parts is_direct (by omega)).usec
  | opt_time =>
    cases taken
    apply inv_leave inv here rfl
    · intro quiet
      obtain ⟨whole, same⟩ := quiet_whole (of_decide_eq_true quiet)
      refine ⟨s.walltime, whole, rfl, of_none, ?_⟩
      rintro _ ⟨⟩
      exact same
    · intro is_direct
      refine ⟨copied_parts inv (by omega) is_direct, of_none, ?_⟩
      rintro _ ⟨⟩
      exact first is_direct

theorem inv_system (inv : Inv direct s) {f : Function} {i : Nat} {rdtsc : UInt64}
    {now : Timeval} {stores : List Store} (here : s.threads[i]? = some .system)
    (taken : s.advance f i rdtsc now stores .system = some t) : Inv direct t := by
  have read : now ∈ s.readings ++ [now] := List.mem_append_right _ List.mem_cons_self
  have one : ∀ r : Result, r.tv_sec = now.tv_sec →
      (∀ tv_usec, r.tv_usec = some tv_usec → tv_usec = now.tv_usec) →
      (∀ t, r.t = some t → t = now.tv_sec) →
      Inv direct { s.leave i r with readings := s.readings ++ [now] } := by
    intro r sec usec t
    have sound : r.IsReading (s.readings ++ [now]) := ⟨now, read, sec, usec, t⟩
    exact inv_leave (inv_read inv now) here rfl (fun _ => sound) fun _ => is_reading_real sound
  cases f with
  | opt_gettimeofday =>
    cases taken
    exact one _ rfl (fun _ copy => (Option.some.inj copy).symm) of_none
  | opt_time =>
    cases taken
    apply one _ rfl (of_none)
    intro t copy
    dsimp only at copy
    split at copy
    · exact (Option.some.inj copy).symm
    · cases copy

theorem inv_advance (inv : Inv direct s) {f : Function} {i : Nat} {rdtsc : UInt64}
    {now : Timeval} {stores : List Store} {place : Place} (here : s.threads[i]? = some place)
    (late : max_ticks < rdtsc) (settles : ∀ tv, stores.foldl Store.apply tv = now)
    (parts : direct → ∀ part ∈ stores, part.PartOf now)
    (taken : s.advance f i rdtsc now stores place = some t) : Inv direct t := by
  cases place with
  | outside => cases taken
  | testSec =>
    cases taken
    split
    · exact inv_goto inv here _ rfl rfl trivial
    · exact inv_goto inv here _ rfl rfl trivial
  | testTick =>
    cases taken
    split
    · exact inv_goto inv here _ rfl rfl trivial
    · rename_i fresh
      apply inv_goto inv here .copySec rfl rfl
      -- walltick is still 0 as long as nothing was stored
      apply inv.ticked
      intro never
      rw [never, UInt64.sub_zero] at fresh
      exact fresh late
  | testLock =>
    cases taken
    split
    · exact inv_goto inv here _ rfl rfl trivial
    · exact inv_goto inv here _ rfl rfl trivial
  | cas =>
    rw [advance] at taken
    split at taken
    · rename_i free
      cases taken
      exact inv_locked inv here free
    · cases taken
      exact inv_goto inv here _ rfl rfl trivial
  | fetch =>
    cases taken
    have read : now ∈ s.readings ++ [now] := List.mem_append_right _ List.mem_cons_self
    exact inv_begun (inv_read inv now) here read (settles s.walltime) parts
  | store reading left =>
    cases left with
    | nil =>
      cases taken
      exact inv_ended inv here
    | cons part left =>
      cases taken
      exact inv_refresh inv here
  | storeTick =>
    cases taken
    exact inv_tick inv here rdtsc
  | unlock =>
    cases taken
    exact inv_unlocked inv here
  | copySec => exact inv_copy_sec inv here taken
  | copyRest tv_sec refreshes => exact inv_copy_rest inv here taken
  | system => exact inv_system inv here taken

theorem inv_step (inv : Inv direct s) {f : Function} {tick : Tick} (late : Late tick)
    (documented : Documented tick) (parts : direct → Direct tick)
    (taken : s.step f tick = some t) : Inv direct t := by
  cases tick with
  | call i given =>
    rw [step] at taken
    split at taken
    · rename_i here
      cases taken
      exact inv_given (inv_goto inv here .testSec rfl rfl trivial) _
    · cases taken
  | run i rdtsc now stores =>
    obtain ⟨place, here, advanced⟩ := Option.bind_eq_some_iff.mp taken
    exact inv_advance inv here late documented parts advanced

theorem inv_history {f : Function} {history : List Tick} {s t : Clock} (inv : Inv direct s)
    (late : ∀ tick ∈ history, Late tick) (documented : ∀ tick ∈ history, Documented tick)
    (parts : direct → ∀ tick ∈ history, Direct tick)
    (played : play (step f) history s = some t) : Inv direct t := by
  induction history generalizing s with
  | nil =>
    cases played
    exact inv
  | cons tick history ih =>
    obtain ⟨next, first, rest⟩ := Option.bind_eq_some_iff.mp played
    have stepped := inv_step inv (late tick List.mem_cons_self)
      (documented tick List.mem_cons_self)
      (fun is_direct => parts is_direct tick List.mem_cons_self) first
    exact ih stepped (fun other member => late other (List.mem_cons_of_mem _ member))
      (fun other member => documented other (List.mem_cons_of_mem _ member))
      (fun is_direct other member => parts is_direct other (List.mem_cons_of_mem _ member)) rest

/-- Any number of threads, in any interleaving, once the time stamp counter is past its first
    max_ticks: at most one thread is between its cmpxchg and lock = 0, lock tells whether one is,
    and a result is one reading if no refresh was under way while it was copied. If gettimeofday
    stores nothing but the parts of its readings, every number of every result is of a reading. -/
theorem results_are_readings {f : Function} (threads : Nat) {history : List Tick} {s : Clock}
    (late : ∀ tick ∈ history, Late tick) (documented : ∀ tick ∈ history, Documented tick)
    (played : play (step f) history (start threads) = some s) :
    total Place.inside s.threads = s.lock ∧ s.lock ≤ 1 ∧
      (∀ r ∈ s.results, r.quiet = true → r.IsReading s.readings) ∧
      ((∀ tick ∈ history, Direct tick) → ∀ r ∈ s.results, r.OfReadings s.readings) := by
  have inv := inv_history (inv_start threads) late documented id played
  exact ⟨inv.locked, inv.single, inv.sound, inv.real⟩

/-- The stores of a gettimeofday that writes each part once. -/
def secThenUsec (now : Timeval) : List Store := [.tv_sec now.tv_sec, .tv_usec now.tv_usec]

def runAt (i : Nat) (rdtsc : UInt64) (now : Timeval) : Tick := .run i rdtsc now (secThenUsec now)

/-- Thread 1 copies walltime between the two stores of thread 0. -/
def copyBetweenStores : List Tick :=
  [.call 0 false, runAt 0 5000 ⟨8, 3⟩, runAt 0 5000 ⟨8, 3⟩, runAt 0 5000 ⟨8, 3⟩,
    runAt 0 5000 ⟨8, 3⟩, runAt 0 5000 ⟨8, 3⟩, runAt 0 5000 ⟨8, 3⟩, runAt 0 5000 ⟨8, 3⟩,
    runAt 0 5000 ⟨8, 3⟩, runAt 0 5000 ⟨8, 3⟩, runAt 0 5000 ⟨8, 3⟩, .call 0 false,
    runAt 0 9000 ⟨9, 7⟩, runAt 0 9000 ⟨9, 7⟩, .call 1 false, runAt 1 9000 ⟨9, 7⟩,
    runAt 1 5500 ⟨9, 7⟩, runAt 0 9000 ⟨9, 7⟩, runAt 0 9000 ⟨9, 7⟩, runAt 0 9000 ⟨9, 7⟩,
    runAt 0 9000 ⟨9, 7⟩, runAt 1 9000 ⟨9, 7⟩, runAt 1 9000 ⟨9, 7⟩]

theorem run_documented (i : Nat) (rdtsc : UInt64) (now : Timeval) :
    Documented (runAt i rdtsc now) ∧ Direct (runAt i rdtsc now) := by
  constructor
  · intro tv
    rfl
  · intro part member
    rcases List.mem_cons.mp member with rfl | second
    · exact rfl
    · rw [List.mem_singleton.mp second]
      exact rfl

theorem copy_documented : ∀ tick ∈ copyBetweenStores, Documented tick ∧ Direct tick := by
  have call : ∀ i, Documented (.call i false) ∧ Direct (.call i false) := fun _ =>
    ⟨trivial, trivial⟩
  simp only [copyBetweenStores, List.forall_mem_cons, run_documented, call, true_and]
  exact fun _ => List.not_mem_nil.elim

theorem a_copy_mixes_two_readings :
    ∃ s, play (step .opt_gettimeofday) copyBetweenStores (start 2) = some s ∧
      (⟨9, some 3, none, false⟩ : Result) ∈ s.results ∧
      (∀ r ∈ s.results, r.quiet = true → r.IsReading s.readings) ∧
      ∀ r ∈ s.results, r.OfReadings s.readings := by
  have played : play (step .opt_gettimeofday) copyBetweenStores (start 2) = some _ := rfl
  have late : ∀ tick ∈ copyBetweenStores, Late tick := by decide
  obtain ⟨_, _, sound, real⟩ :=
    results_are_readings 2 late (fun tick member => (copy_documented tick member).1) played
  exact ⟨_, played, List.mem_cons_of_mem _ List.mem_cons_self, sound,
    real fun tick member => (copy_documented tick member).2⟩

/-- The steps that a thread in this place has left at most, when gettimeofday makes at most n
    stores. -/
def rank (n : Nat) : Place → Nat
  | .outside => 0
  | .testSec => n + 9
  | .testTick => n + 8
  | .testLock => n + 7
  | .cas => n + 6
  | .fetch => n + 5
  | .store _ stores => max 1 stores.length + 4
  | .storeTick => 4
  | .unlock => 3
  | .copySec => 2
  | .copyRest _ _ | .system => 1

/-- gettimeofday makes at most n stores. -/
def Few (n : Nat) : Tick → Prop
  | .call _ _ => True
  | .run _ _ _ stores => stores.length ≤ n

instance (n : Nat) : DecidablePred (Few n)
  | .call _ _ => inferInstanceAs (Decidable True)
  | .run _ _ _ stores => inferInstanceAs (Decidable (stores.length ≤ n))

theorem advance_nearer {n : Nat} (pos : 0 < n) {f : Function} {i : Nat} {rdtsc : UInt64}
    {now : Timeval} {stores : List Store} (few : stores.length ≤ n) {place : Place}
    (taken : s.advance f i rdtsc now stores place = some t) :
    ∃ next, t.threads = s.threads.set i next ∧ rank n next < rank n place := by
  cases place with
  | outside => cases taken
  | testSec =>
    cases taken
    refine ⟨_, rfl, ?_⟩
    split <;> simp only [rank] <;> omega
  | testTick =>
    cases taken
    refine ⟨_, rfl, ?_⟩
    split <;> simp only [rank] <;> omega
  | testLock =>
    cases taken
    refine ⟨_, rfl, ?_⟩
    split <;> simp only [rank] <;> omega
  | cas =>
    rw [advance] at taken
    split at taken
    · cases taken
      exact ⟨_, rfl, Nat.lt_succ_self _⟩
    · cases taken
      exact ⟨_, rfl, Nat.lt_add_left n (show 1 < 6 by decide)⟩
  | fetch =>
    cases taken
    refine ⟨_, rfl, ?_⟩
    simp only [rank]
    omega
  | store reading left =>
    cases left with
    | nil =>
      cases taken
      exact ⟨_, rfl, Nat.lt_succ_self 4⟩
    | cons part left =>
      cases taken
      cases left with
      | nil => exact ⟨_, rfl, Nat.lt_succ_self 4⟩
      | cons next rest =>
        refine ⟨_, rfl, ?_⟩
        simp only [rank, List.length_cons]
        omega
  | copySec =>
    cases f with
    | opt_gettimeofday =>
      cases taken
      exact ⟨_, rfl, Nat.lt_succ_self 1⟩
    | opt_time =>
      rw [advance] at taken
      split at taken
      · cases taken
        exact ⟨_, rfl, Nat.lt_succ_self 1⟩
      · cases taken
        exact ⟨_, rfl, Nat.zero_lt_two⟩
  | copyRest tv_sec refreshes =>
    cases f <;> cases taken <;> exact ⟨_, rfl, Nat.lt_succ_self 0⟩
  | storeTick | unlock | system =>
    cases taken
    exact ⟨_, rfl, Nat.lt_succ_self _⟩

/-- A thread inside the function can always go on. -/
theorem advance_possible (f : Function) {place : Place} (inside : place ≠ .outside) (s : Clock)
    (i : Nat) (rdtsc : UInt64) (now : Timeval) (stores : List Store) :
    (s.advance f i rdtsc now stores place).isSome := by
  cases place with
  | outside => exact absurd rfl inside
  | cas =>
    rw [advance]
    split <;> rfl
  | store reading left => cases left <;> rfl
  | copySec =>
    cases f with
    | opt_gettimeofday => rfl
    | opt_time =>
      rw [advance]
      split <;> rfl
  | copyRest tv_sec refreshes => cases f <;> rfl
  | testSec | testTick | testLock | fetch | storeTick | unlock | system => rfl

/-- The steps that thread i has left at most. -/
def left (n : Nat) (s : Clock) (i : Nat) : Nat := (s.threads[i]?.map (rank n)).getD 0

theorem left_set {n i j : Nat} {place next : Place} (here : s.threads[i]? = some place)
    (moved : t.threads = s.threads.set i next) :
    left n t j = if j = i then rank n next else left n s j := by
  rw [left, moved]
  split
  · rename_i same
    subst same
    rw [List.getElem?_set_self (List.getElem?_eq_some_iff.mp here).1]
    rfl
  · rename_i apart
    rw [List.getElem?_set_ne (Ne.symm apart), left]

def isCall (i : Nat) : Tick → Bool
  | .call j _ => i == j
  | .run _ _ _ _ => false

def isRun (i : Nat) : Tick → Bool
  | .call _ _ => false
  | .run j _ _ _ => i == j

/-- What a step takes from the steps that thread i has left. -/
theorem left_step {n : Nat} (pos : 0 < n) {f : Function} {tick : Tick} (few : Few n tick) (i : Nat)
    (taken : s.step f tick = some t) :
    (isRun i tick).toNat + left n t i ≤ left n s i + (n + 9) * (isCall i tick).toNat := by
  cases tick with
  | call j given =>
    rw [step] at taken
    split at taken
    · rename_i here
      cases taken
      have after := left_set (n := n) (j := i) (t := { s.goto j .testSec with
        given := fun k => if k = j then given else s.given k }) here rfl
      by_cases own : i = j
      · rw [if_pos own] at after
        simp only [isRun, isCall, own, rank, beq_self_eq_true, Bool.toNat_true,
          Bool.toNat_false] at after ⊢
        omega
      · rw [if_neg own] at after
        simp [isRun, after]
    · cases taken
  | run j rdtsc now stores =>
    obtain ⟨place, here, advanced⟩ := Option.bind_eq_some_iff.mp taken
    obtain ⟨next, moved, nearer⟩ := advance_nearer pos few advanced
    have after := left_set (n := n) (j := i) here moved
    by_cases own : i = j
    · rw [if_pos own] at after
      have before : left n s i = rank n place := by simp [left, own, here]
      simp only [isRun, isCall, own, beq_self_eq_true, Bool.toNat_true, Bool.toNat_false] at *
      omega
    · rw [if_neg own] at after
      simp [isRun, isCall, own, after]

theorem left_history {n : Nat} (pos : 0 < n) {f : Function} {history : List Tick} {s t : Clock}
    (few : ∀ tick ∈ history, Few n tick) (i : Nat)
    (played : play (step f) history s = some t) :
    history.countP (isRun i) + left n t i ≤
      left n s i + (n + 9) * history.countP (isCall i) := by
  induction history generalizing s with
  | nil =>
    cases played
    simp
  | cons tick history ih =>
    obtain ⟨next, first, rest⟩ := Option.bind_eq_some_iff.mp played
    have one := left_step pos (few tick List.mem_cons_self) i first
    have more := ih (fun other member => few other (List.mem_cons_of_mem _ member)) rest
    have runs : (tick :: history).countP (isRun i) =
        history.countP (isRun i) + (isRun i tick).toNat := by
      rw [List.countP_cons]
      cases isRun i tick <;> rfl
    have calls : (n + 9) * (tick :: history).countP (isCall i) =
        (n + 9) * history.countP (isCall i) + (n + 9) * (isCall i tick).toNat := by
      rw [List.countP_cons, Nat.mul_add]
      cases isCall i tick <;> rfl
    omega

/-- Whatever the other threads do, a thread inside the function can take its next step, and where
    gettimeofday makes at most n stores it is outside again after n + 9 steps of its own for each
    call. -/
theorem no_call_waits {f : Function} (threads : Nat) {n : Nat} (pos : 0 < n) {history : List Tick}
    {s : Clock} {i : Nat} (few : ∀ tick ∈ history, Few n tick)
    (played : play (step f) history (start threads) = some s) :
    history.countP (isRun i) + left n s i ≤ (n + 9) * history.countP (isCall i) ∧
      ∀ place, s.threads[i]? = some place → (place = .outside ↔ left n s i = 0) ∧
        (place ≠ .outside → ∀ rdtsc now stores, (s.step f (.run i rdtsc now stores)).isSome) := by
  have bound := left_history pos few i played
  have before : left n (start threads) i = 0 := by
    rw [left, start, List.getElem?_replicate]
    split <;> rfl
  rw [before, Nat.zero_add] at bound
  refine ⟨bound, ?_⟩
  intro place here
  constructor
  · rw [left, here]
    cases place <;> simp [rank]
  · intro inside rdtsc now stores
    rw [step, here]
    exact advance_possible f inside s i rdtsc now stores

theorem no_call_waits_for_a_refresh :
    ∃ s, play (step .opt_gettimeofday) copyBetweenStores (start 2) = some s ∧
      s.lock = 1 ∧ copyBetweenStores.countP (isRun 1) + left 2 s 1 ≤ 11 := by
  have played : play (step .opt_gettimeofday) copyBetweenStores (start 2) = some _ := rfl
  have few : ∀ tick ∈ copyBetweenStores, Few 2 tick := by decide
  exact ⟨_, played, rfl, (no_call_waits 2 (by decide) (i := 1) few played).1⟩

end Clock

end UC.OptTime
