import UC.Lib.Histories
import UC.ShmQueue.Registration

/- Each live reader keeps its slot in every run in which nobody shrinks pidnum below a slot
   that a live process has or is about to take, nor overwrites the slot of a live process. -/
namespace UC.ShmQueue.Registration
open UC.Memory UC.Runs UC.Histories

/-- The process has taken slot i. -/
def Proc.Holds (proc : Proc) (i : Nat) : Prop := proc.sig_idx = some i

/-- The process has slot i or is at a step of taking it. -/
def Proc.Uses (sq : Pids) (proc : Proc) (i : Nat) : Prop :=
  proc.Holds i ∨ (proc.pc = .findRead i ∧ sq.pidset i = proc.pid) ∨ proc.pc = .reuseRead i ∨
    proc.pc = .reuseCas i ∨ ∃ oldpid, proc.pc = .growSet i oldpid

/-- The CAS of pidnum downwards and the CAS of a pidset entry, where they succeed. -/
def Careful (s : State) : Event → Prop
  | .run p _ => ∀ proc, s.procs[p]? = some proc →
    match proc.pc with
    | .shrinkCas i => s.sq.pidnum = i + 1 →
      ∀ other ∈ s.procs, other.alive = true → ¬ other.Uses s.sq i
    | .sweepCas i oldpid => s.sq.pidset i = oldpid →
      ∀ other ∈ s.procs, other.alive = true → ¬ other.Holds i
    | .growSet i oldpid => s.sq.pidset i = oldpid →
      ∀ other ∈ s.procs, other.alive = true → ¬ other.Holds i
    | _ => True
  | _ => True

def Step (legal : State → Event → Prop) (s t : State) : Prop :=
  ∃ ev, legal s ev ∧ step s ev = some t

/-- The process has read pidnum n and is about to raise it. -/
def Pc.Grows (n : Nat) : Pc → Prop
  | .growRead pidnum => pidnum = n
  | .growCas pidnum _ => pidnum = n
  | _ => False

/-- A live process and the shared words. -/
structure Sound (sq : Pids) (proc : Proc) : Prop where
  pid : proc.pid ≠ 0
  holds : ∀ i, proc.Holds i → sq.pidset i = proc.pid
  uses : ∀ i, proc.Uses sq i → (i : Int) < sq.pidnum
  repair : ∀ oldpidnum, proc.pc = .repair oldpidnum →
    oldpidnum < 0 ∨ SQ_MAX_READER_PROC_NUM < oldpidnum
  room : ∀ n, proc.pc.Grows n → (n : Int) < SQ_MAX_READER_PROC_NUM
  idle : ∀ i, proc.sig_idx = some i → proc.pc = .outside ∨ proc.pc = .openFifo i

structure Inv (s : State) : Prop where
  low : 0 ≤ s.sq.pidnum
  high : s.sq.pidnum ≤ SQ_MAX_READER_PROC_NUM
  sound : ∀ proc ∈ s.procs, proc.alive = true → Sound s.sq proc
  apart : ∀ (p q : Nat) (proc other : Proc), s.procs[p]? = some proc → s.procs[q]? = some other →
    proc.alive = true → other.alive = true → proc.pid = other.pid → p = q

section Others

variable {sq : Pids} {proc : Proc}

theorem sound_grow (sound : Sound sq proc) {pidnum : Int} (more : sq.pidnum ≤ pidnum) :
    Sound { sq with pidnum := pidnum } proc :=
  ⟨sound.pid, sound.holds, fun i uses => (sound.uses i uses).trans_le more, sound.repair,
    sound.room, sound.idle⟩

theorem sound_shrink (sound : Sound sq proc) {i : Nat} (last : sq.pidnum = i + 1)
    (unused : ¬ proc.Uses sq i) : Sound { sq with pidnum := i } proc := by
  refine ⟨sound.pid, sound.holds, ?_, sound.repair, sound.room, sound.idle⟩
  intro j uses
  have below := sound.uses j uses
  have other : j ≠ i := by
    rintro rfl
    exact unused uses
  change (j : Int) < i
  omega

/-- An entry that is not the process's own may be overwritten, but not with its pid. -/
theorem sound_put (sound : Sound sq proc) {i v : Nat} (free : ¬ proc.Holds i)
    (foreign : v ≠ proc.pid) : Sound { sq with pidset := store sq.pidset i v } proc := by
  refine ⟨sound.pid, ?_, ?_, sound.repair, sound.room, sound.idle⟩
  · intro j holds
    have other : j ≠ i := by
      rintro rfl
      exact free holds
    exact (store_other _ _ other).trans (sound.holds j holds)
  · intro j uses
    apply sound.uses j
    rcases uses with holds | ⟨reading, match_⟩ | rest
    · exact .inl holds
    · by_cases here : j = i
      · rw [here] at match_
        exact absurd ((store_same _ _ _).symm.trans match_) foreign
      · exact .inr (.inl ⟨reading, (store_other _ _ here).symm.trans match_⟩)
    · exact .inr (.inr rest)

def Pc.slot : Pc → Option Nat
  | .findRead i | .reuseRead i | .reuseCas i | .growSet i _ => some i
  | _ => none

theorem slot_of_use {i : Nat} (uses : proc.Uses sq i) :
    proc.sig_idx = some i ∨ proc.pc.slot = some i := by
  rcases uses with holds | ⟨here, _⟩ | here | here | ⟨_, here⟩
  · exact .inl holds
  all_goals
    rw [here]
    exact .inr rfl

theorem sound_goto (sound : Sound sq proc) {pc : Pc} (none_yet : proc.sig_idx = none)
    (sight : ∀ i, pc.slot = some i → (i : Int) < sq.pidnum)
    (repair : ∀ oldpidnum, pc = .repair oldpidnum →
      oldpidnum < 0 ∨ SQ_MAX_READER_PROC_NUM < oldpidnum)
    (room : ∀ n, pc.Grows n → (n : Int) < SQ_MAX_READER_PROC_NUM) : Sound sq (proc.goto pc) := by
  have no_slot : ∀ i, proc.sig_idx ≠ some i := by
    intro i taken
    rw [none_yet] at taken
    cases taken
  refine ⟨sound.pid, fun i holds => absurd holds (no_slot i), ?_, repair, room,
    fun i taken => absurd taken (no_slot i)⟩
  intro i uses
  rcases slot_of_use uses with taken | here
  · exact absurd taken (no_slot i)
  · exact sight i here

/-- Steps at which no slot is in sight. -/
def Pc.Away : Pc → Prop
  | .repair _ | .findRead _ | .reuseRead _ | .reuseCas _ => False
  | .growRead _ | .growCas .. | .growSet .. => False
  | _ => True

theorem sound_away (sound : Sound sq proc) {pc : Pc} (none_yet : proc.sig_idx = none)
    (away : pc.Away) : Sound sq (proc.goto pc) := by
  apply sound_goto sound none_yet
  · intro i here
    cases pc with
    | findRead _ | reuseRead _ | reuseCas _ | growSet _ _ => exact away.elim
    | _ => cases here
  · intro oldpidnum here
    rw [here] at away
    exact away.elim
  · intro n grows
    cases pc with
    | growRead _ | growCas _ _ => exact away.elim
    | _ => exact grows.elim

theorem sound_take (sound : Sound sq proc) {sq' : Pids} {i : Nat} (entry : sq'.pidset i = proc.pid)
    (below : (i : Int) < sq'.pidnum) :
    Sound sq' { proc with pc := .openFifo i, sig_idx := some i } := by
  refine ⟨sound.pid, ?_, ?_, ?_, ?_, ?_⟩
  · rintro j ⟨⟩
    exact entry
  · intro j uses
    rcases slot_of_use uses with taken | here
    · cases taken
      exact below
    · cases here
  · intro oldpidnum here
    cases here
  · exact fun n grows => grows.elim
  · rintro j ⟨⟩
    exact .inr rfl

theorem sound_raised (sound : Sound sq proc) {n oldpid : Nat} (none_yet : proc.sig_idx = none)
    (last : sq.pidnum = n) : Sound { sq with pidnum := n + 1 } (proc.goto (.growSet n oldpid)) := by
  apply sound_goto (sound_grow sound (by omega)) none_yet
  · intro i here
    cases here
    exact Int.lt_succ _
  · intro oldpidnum here
    cases here
  · exact fun n grows => grows.elim

theorem sound_outside (sound : Sound sq proc) {sig_idx : Option Nat}
    (kept : ∀ i, sig_idx = some i → proc.Holds i) :
    Sound sq { proc with pc := .outside, sig_idx := sig_idx } := by
  refine ⟨sound.pid, fun i taken => sound.holds i (kept i taken), ?_, ?_, fun _ => False.elim,
    fun _ _ => .inl rfl⟩
  · intro i uses
    rcases slot_of_use uses with taken | here
    · exact sound.uses i (.inl (kept i taken))
    · cases here
  · intro oldpidnum here
    cases here

end Others

structure Moved (s : State) (proc : Proc) (sq' : Pids) (proc' : Proc) : Prop where
  low : 0 ≤ sq'.pidnum
  high : sq'.pidnum ≤ SQ_MAX_READER_PROC_NUM
  mover : Sound sq' proc'
  others : ∀ other ∈ s.procs, other.alive = true → other.pid ≠ proc.pid → Sound sq' other
  pid : proc'.pid = proc.pid
  alive : proc'.alive = proc.alive

section Mover

variable {s : State} {proc : Proc}

theorem moved_quiet (inv : Inv s) {pc : Pc} {sig_idx : Option Nat}
    (mover : Sound s.sq { proc with pc := pc, sig_idx := sig_idx }) :
    Moved s proc s.sq { proc with pc := pc, sig_idx := sig_idx } :=
  ⟨inv.low, inv.high, mover, fun other member live _ => inv.sound other member live, rfl, rfl⟩

theorem moved_away (inv : Inv s) (sound : Sound s.sq proc) (none_yet : proc.sig_idx = none)
    {pc : Pc} (away : pc.Away) : Moved s proc s.sq (proc.goto pc) :=
  moved_quiet inv (sound_away sound none_yet away)

/-- A successful CAS of pidset[i] by which the process takes the slot or zeroes it. -/
theorem moved_put (inv : Inv s) {i v : Nat} {proc' : Proc}
    (free : ∀ other ∈ s.procs, other.alive = true → ¬ other.Holds i)
    (own : v = 0 ∨ v = proc.pid) (pid : proc'.pid = proc.pid) (alive : proc'.alive = proc.alive)
    (mover : Sound { s.sq with pidset := store s.sq.pidset i v } proc') :
    Moved s proc { s.sq with pidset := store s.sq.pidset i v } proc' := by
  refine ⟨inv.low, inv.high, mover, ?_, pid, alive⟩
  intro other member live differs
  have sound := inv.sound other member live
  refine sound_put sound (free other member live) ?_
  rcases own with zero | mine
  · rw [zero]
    exact sound.pid.symm
  · rw [mine]
    exact differs.symm

theorem zero_entry_is_free (inv : Inv s) {i : Nat} (zero : s.sq.pidset i = 0) :
    ∀ other ∈ s.procs, other.alive = true → ¬ other.Holds i := by
  intro other member live holds
  have sound := inv.sound other member live
  have entry := sound.holds i holds
  rw [zero] at entry
  exact sound.pid entry.symm

/-- Within the call, before a slot is taken. -/
def Pc.Looking : Pc → Prop
  | .outside => False
  | .openFifo _ => False
  | _ => True

theorem no_slot_yet (sound : Sound s.sq proc) (looking : proc.pc.Looking) :
    proc.sig_idx = none := by
  cases taken : proc.sig_idx with
  | none => rfl
  | some i =>
    rcases sound.idle i taken with out | opening
    · rw [out] at looking
      exact looking.elim
    · rw [opening] at looking
      exact looking.elim

/-- The step at which slot i comes in sight: it lies below pidnum. -/
theorem moved_in_sight (inv : Inv s) (sound : Sound s.sq proc) (none_yet : proc.sig_idx = none)
    {pc : Pc} {i : Nat} (below : (i : Int) < s.sq.pidnum)
    (sight : pc.slot = some i)
    (plain : ∀ oldpidnum, pc ≠ .repair oldpidnum) (still : ∀ n, ¬ pc.Grows n) :
    Moved s proc s.sq (proc.goto pc) := by
  refine moved_quiet inv (sound_goto sound none_yet ?_ ?_ fun n grows => absurd grows (still n))
  · intro j here
    rw [sight] at here
    cases here
    exact below
  · exact fun oldpidnum here => absurd here (plain oldpidnum)

theorem moved_growing (inv : Inv s) (sound : Sound s.sq proc) (none_yet : proc.sig_idx = none)
    {pc : Pc} {n : Nat} (room : (n : Int) < SQ_MAX_READER_PROC_NUM) (grows : pc.Grows n) :
    Moved s proc s.sq (proc.goto pc) := by
  refine moved_quiet inv (sound_goto sound none_yet ?_ ?_ ?_)
  · intro i here
    cases pc with
    | growRead _ | growCas _ _ => cases here
    | _ => exact grows.elim
  · intro oldpidnum here
    rw [here] at grows
    exact grows.elim
  · intro m more
    have same : m = n := by
      cases pc with
      | growRead _ | growCas _ _ => exact more.symm.trans grows
      | _ => exact grows.elim
    rwa [same]

/-- The successful CAS that drops slot i, which no live process uses. -/
theorem moved_shrunk (inv : Inv s) (sound : Sound s.sq proc) (none_yet : proc.sig_idx = none)
    {pc : Pc} {i : Nat} (away : pc.Away) (last : s.sq.pidnum = i + 1)
    (unused : ∀ other ∈ s.procs, other.alive = true → ¬ other.Uses s.sq i)
    (mine : ¬ proc.Uses s.sq i) :
    Moved s proc { s.sq with pidnum := i } (proc.goto pc) := by
  have high := inv.high
  constructor
  · exact Int.natCast_nonneg i
  · change (i : Int) ≤ _
    omega
  · exact sound_away (sound_shrink sound last mine) none_yet away
  · intro other there alive _
    exact sound_shrink (inv.sound other there alive) last (unused other there alive)
  · rfl
  · rfl

theorem moved_raised (inv : Inv s) (sound : Sound s.sq proc) (none_yet : proc.sig_idx = none)
    {n oldpid : Nat} (room : (n : Int) < SQ_MAX_READER_PROC_NUM) (last : s.sq.pidnum = n) :
    Moved s proc { s.sq with pidnum := n + 1 } (proc.goto (.growSet n oldpid)) := by
  constructor
  · change (0 : Int) ≤ n + 1
    omega
  · change (n : Int) + 1 ≤ _
    omega
  · exact sound_raised sound none_yet last
  · intro other there alive _
    exact sound_grow (inv.sound other there alive) (by omega)
  · rfl
  · rfl

section Advance

variable {valid : Nat → Bool} {opened : Bool} {i oldpid : Nat}

theorem shrink_cas_moves (inv : Inv s) (sound : Sound s.sq proc) (none_yet : proc.sig_idx = none)
    (pc : proc.pc = .shrinkCas i) (member : proc ∈ s.procs) (live : proc.alive = true)
    (unused : s.sq.pidnum = i + 1 →
      ∀ other ∈ s.procs, other.alive = true → ¬ other.Uses s.sq i) :
    Moved s proc (advance valid opened s.sq proc).1 (advance valid opened s.sq proc).2 := by
  simp only [advance, pc]
  split
  next last =>
    exact moved_shrunk inv sound none_yet trivial last (unused last)
      (unused last proc member live)
  · exact moved_away inv sound none_yet trivial

theorem sweep_cas_moves (inv : Inv s) (sound : Sound s.sq proc) (none_yet : proc.sig_idx = none)
    (pc : proc.pc = .sweepCas i oldpid) (member : proc ∈ s.procs) (live : proc.alive = true)
    (free : s.sq.pidset i = oldpid → ∀ other ∈ s.procs, other.alive = true → ¬ other.Holds i) :
    Moved s proc (advance valid opened s.sq proc).1 (advance valid opened s.sq proc).2 := by
  simp only [advance, pc]
  split
  next same =>
    refine moved_put inv (free same) (.inl rfl) rfl rfl ?_
    exact sound_away (sound_put sound (free same proc member live) sound.pid.symm) none_yet
      trivial
  · exact moved_away inv sound none_yet trivial

theorem find_read_moves (inv : Inv s) (sound : Sound s.sq proc) (none_yet : proc.sig_idx = none)
    (pc : proc.pc = .findRead i) :
    Moved s proc (advance valid opened s.sq proc).1 (advance valid opened s.sq proc).2 := by
  simp only [advance, pc]
  split
  next mine =>
    exact moved_quiet inv (sound_take sound mine (sound.uses i (.inr (.inl ⟨pc, mine⟩))))
  · exact moved_away inv sound none_yet trivial

theorem reuse_read_moves (inv : Inv s) (sound : Sound s.sq proc) (none_yet : proc.sig_idx = none)
    (pc : proc.pc = .reuseRead i) :
    Moved s proc (advance valid opened s.sq proc).1 (advance valid opened s.sq proc).2 := by
  simp only [advance, pc]
  split
  · have below := sound.uses i (.inr (.inr (.inl pc)))
    exact moved_in_sight inv sound none_yet below rfl (fun _ => Pc.noConfusion) (fun _ => id)
  · exact moved_away inv sound none_yet trivial

theorem reuse_cas_moves (inv : Inv s) (sound : Sound s.sq proc) (none_yet : proc.sig_idx = none)
    (pc : proc.pc = .reuseCas i) :
    Moved s proc (advance valid opened s.sq proc).1 (advance valid opened s.sq proc).2 := by
  simp only [advance, pc]
  split
  next zero =>
    have below := sound.uses i (.inr (.inr (.inr (.inl pc))))
    exact moved_put inv (zero_entry_is_free inv zero) (.inr rfl) rfl rfl
      (sound_take sound (store_same _ _ _) below)
  · exact moved_away inv sound none_yet trivial

theorem grow_test_moves (inv : Inv s) (sound : Sound s.sq proc) (none_yet : proc.sig_idx = none)
    (pc : proc.pc = .growTest) :
    Moved s proc (advance valid opened s.sq proc).1 (advance valid opened s.sq proc).2 := by
  have low := inv.low
  simp only [advance, pc]
  split
  · exact moved_away inv sound none_yet trivial
  · exact moved_growing inv sound none_yet (show (s.sq.pidnum.toNat : Int) < _ by omega) rfl

theorem grow_cas_moves (inv : Inv s) (sound : Sound s.sq proc) (none_yet : proc.sig_idx = none)
    (pc : proc.pc = .growCas i oldpid) :
    Moved s proc (advance valid opened s.sq proc).1 (advance valid opened s.sq proc).2 := by
  simp only [advance, pc]
  split
  next last =>
    have room := sound.room i (by rw [pc]; rfl)
    exact moved_raised inv sound none_yet room last
  · exact moved_away inv sound none_yet trivial

theorem grow_set_moves (inv : Inv s) (sound : Sound s.sq proc) (none_yet : proc.sig_idx = none)
    (pc : proc.pc = .growSet i oldpid)
    (free : s.sq.pidset i = oldpid → ∀ other ∈ s.procs, other.alive = true → ¬ other.Holds i) :
    Moved s proc (advance valid opened s.sq proc).1 (advance valid opened s.sq proc).2 := by
  simp only [advance, pc]
  split
  next same =>
    have below := sound.uses i (.inr (.inr (.inr (.inr ⟨oldpid, pc⟩))))
    exact moved_put inv (free same) (.inr rfl) rfl rfl
      (sound_take sound (store_same _ _ _) below)
  · exact moved_away inv sound none_yet trivial

theorem advance_moves (inv : Inv s) (member : proc ∈ s.procs) (live : proc.alive = true)
    {p : Nat} (at_p : s.procs[p]? = some proc) (careful : Careful s (.run p opened)) :
    Moved s proc (advance valid opened s.sq proc).1 (advance valid opened s.sq proc).2 := by
  have sound := inv.sound proc member live
  have low := inv.low
  have high := inv.high
  have legal := careful proc at_p
  have looking : proc.pc.Looking → proc.sig_idx = none := no_slot_yet sound
  cases pc : proc.pc with
  | outside =>
    simp only [advance, pc]
    split
    · exact moved_quiet inv sound
    next empty => exact moved_away inv sound (by simpa using empty) trivial
  | openFifo sigidx =>
    simp only [advance, pc]
    split
    · exact moved_quiet inv (sound_outside sound fun _ taken => taken)
    · refine moved_quiet inv (sound_outside sound ?_)
      intro i taken
      cases taken
  | verify =>
    rw [pc] at looking
    simp only [advance, pc]
    split
    · omega
    · exact moved_away inv sound (looking trivial) trivial
  | repair oldpidnum =>
    rw [pc] at looking
    have wrong := sound.repair oldpidnum pc
    simp only [advance, pc]
    split
    · omega
    · exact moved_away inv sound (looking trivial) trivial
  | shrinkRead next | sweepRead next =>
    rw [pc] at looking
    cases next <;> simp only [advance, pc] <;> exact moved_away inv sound (looking trivial) trivial
  | shrinkCheck i _ | sweepCheck i _ =>
    rw [pc] at looking
    simp only [advance, pc]
    split <;> exact moved_away inv sound (looking trivial) trivial
  | findTest i | reuseTest i =>
    rw [pc] at looking
    simp only [advance, pc]
    split
    next below =>
      exact moved_in_sight inv sound (looking trivial) below rfl (fun _ => Pc.noConfusion)
        (fun _ => id)
    · exact moved_away inv sound (looking trivial) trivial
  | growRead pidnum =>
    rw [pc] at looking
    simp only [advance, pc]
    exact moved_growing inv sound (looking trivial) (sound.room pidnum (by rw [pc]; rfl)) rfl
  | shrinkCas i =>
    rw [pc] at looking legal
    exact shrink_cas_moves inv sound (looking trivial) pc member live legal
  | sweepCas i oldpid =>
    rw [pc] at looking legal
    exact sweep_cas_moves inv sound (looking trivial) pc member live legal
  | findRead i =>
    rw [pc] at looking
    exact find_read_moves inv sound (looking trivial) pc
  | reuseRead i =>
    rw [pc] at looking
    exact reuse_read_moves inv sound (looking trivial) pc
  | reuseCas i =>
    rw [pc] at looking
    exact reuse_cas_moves inv sound (looking trivial) pc
  | growTest =>
    rw [pc] at looking
    exact grow_test_moves inv sound (looking trivial) pc
  | growCas pidnum oldpid =>
    rw [pc] at looking
    exact grow_cas_moves inv sound (looking trivial) pc
  | growSet pidnum oldpid =>
    rw [pc] at looking legal
    exact grow_set_moves inv sound (looking trivial) pc legal

end Advance

end Mover

section Run

variable {s s' : State}

theorem procs_set {procs : List Proc} {p q : Nat} {proc' other : Proc}
    (there : (procs.set p proc')[q]? = some other) :
    (q = p ∧ other = proc') ∨ (q ≠ p ∧ procs[q]? = some other) := by
  by_cases same : p = q
  · subst same
    rw [List.getElem?_set] at there
    split at there
    · split at there
      · cases there
        exact .inl ⟨rfl, rfl⟩
      · cases there
    · exact absurd rfl ‹_›
  · rw [List.getElem?_set_ne same] at there
    exact .inr ⟨Ne.symm same, there⟩

theorem run_keeps_inv (inv : Inv s) {p : Nat} {opened : Bool} (careful : Careful s (.run p opened))
    (next : step s (.run p opened) = some s') : Inv s' := by
  cases at_p : s.procs[p]? with
  | none => simp only [step, at_p, reduceCtorEq] at next
  | some proc =>
    simp only [step, at_p] at next
    split at next
    case isFalse => cases next
    next live =>
    cases next
    have moved : Moved s proc (advance (isPidValid s.procs) opened s.sq proc).1
        (advance (isPidValid s.procs) opened s.sq proc).2 :=
      advance_moves inv (List.mem_of_getElem? at_p) live at_p careful
    refine ⟨moved.low, moved.high, ?_, ?_⟩
    · intro other member alive
      obtain ⟨q, at_q⟩ := List.mem_iff_getElem?.mp member
      rcases procs_set at_q with ⟨_, mover⟩ | ⟨ne, there⟩
      · rw [mover]
        exact moved.mover
      · refine moved.others other (List.mem_of_getElem? there) alive fun same => ne ?_
        exact inv.apart q p other proc there at_p alive live same
    · intro q r one other at_q at_r alive alive' same
      rcases procs_set at_q with ⟨here, mover⟩ | ⟨_, there⟩ <;>
        rcases procs_set at_r with ⟨here', mover'⟩ | ⟨_, there'⟩
      · rw [here, here']
      · rw [mover, moved.pid] at same
        rw [here]
        exact inv.apart p r proc other at_p there' live alive' same
      · rw [mover', moved.pid] at same
        rw [here']
        exact inv.apart q p one proc there at_p alive live same
      · exact inv.apart q r one other there there' alive alive' same

theorem die_keeps_inv (inv : Inv s) {p : Nat} (next : step s (.die p) = some s') : Inv s' := by
  cases at_p : s.procs[p]? with
  | none => simp only [step, at_p, reduceCtorEq] at next
  | some proc =>
    simp only [step, at_p, Option.some.injEq] at next
    subst next
    have before : ∀ (q : Nat) (other : Proc),
        (s.procs.set p { proc with alive := false })[q]? = some other → other.alive = true →
          s.procs[q]? = some other := by
      intro q other at_q alive
      rcases procs_set at_q with ⟨_, dead⟩ | ⟨_, there⟩
      · rw [dead] at alive
        cases alive
      · exact there
    refine ⟨inv.low, inv.high, ?_, ?_⟩
    · intro other member alive
      obtain ⟨q, at_q⟩ := List.mem_iff_getElem?.mp member
      exact inv.sound other (List.mem_of_getElem? (before q other at_q alive)) alive
    · intro q r one other at_q at_r alive alive' same
      exact inv.apart q r one other (before q one at_q alive) (before r other at_r alive') alive
        alive' same

theorem pid_in_use {procs : List Proc} {proc : Proc} (member : proc ∈ procs)
    (live : proc.alive = true) (pid : proc.pid ≠ 0) : isPidValid procs proc.pid = true := by
  simp only [isPidValid, ne_eq, pid, not_false_eq_true, decide_true, Bool.true_and,
    List.any_eq_true, Bool.and_eq_true, decide_eq_true_eq]
  exact ⟨proc, member, live, rfl⟩

theorem fork_keeps_inv (inv : Inv s) {pid : Nat} (next : step s (.fork pid) = some s') :
    Inv s' := by
  simp only [step] at next
  split at next
  case isTrue => cases next
  next unused =>
  cases next
  have fresh : ∀ proc ∈ s.procs, proc.alive = true → proc.pid ≠ pid := by
    rintro proc member live rfl
    exact unused (.inr (pid_in_use member live (inv.sound proc member live).pid))
  have split_at : ∀ (q : Nat) (other : Proc),
      (s.procs ++ [⟨pid, true, .outside, none⟩])[q]? = some other →
        s.procs[q]? = some other ∨ (q = s.procs.length ∧ other = ⟨pid, true, .outside, none⟩) := by
    intro q other at_q
    rw [List.getElem?_append] at at_q
    split at at_q
    · exact .inl at_q
    next beyond =>
      rw [List.getElem?_singleton] at at_q
      split at at_q
      · cases at_q
        exact .inr ⟨by omega, rfl⟩
      · cases at_q
  refine ⟨inv.low, inv.high, ?_, ?_⟩
  · intro other member alive
    rcases List.mem_append.mp member with old | new
    · exact inv.sound other old alive
    · rw [List.mem_singleton.mp new]
      refine ⟨fun zero => unused (.inl zero), ?_, ?_, ?_, fun _ => False.elim, ?_⟩
      · rintro i ⟨⟩
      · rintro i (holds | ⟨⟨⟩, _⟩ | ⟨⟨⟩⟩ | ⟨⟨⟩⟩ | ⟨_, ⟨⟩⟩)
        cases holds
      · rintro oldpidnum ⟨⟩
      · rintro i ⟨⟩
  · intro q r one other at_q at_r alive alive' same
    rcases split_at q one at_q with old | ⟨here, new⟩ <;>
      rcases split_at r other at_r with old' | ⟨here', new'⟩
    · exact inv.apart q r one other old old' alive alive' same
    · rw [new'] at same
      exact absurd same (fresh one (List.mem_of_getElem? old) alive)
    · rw [new] at same
      exact absurd same.symm (fresh other (List.mem_of_getElem? old') alive')
    · rw [here, here']

theorem step_keeps_inv (inv : Inv s) (next : Step Careful s s') : Inv s' := by
  obtain ⟨ev, careful, next⟩ := next
  cases ev with
  | run p opened => exact run_keeps_inv inv careful next
  | die p => exact die_keeps_inv inv next
  | fork pid => exact fork_keeps_inv inv next

theorem start_inv : Inv start := by
  refine ⟨le_refl 0, by decide, ?_, ?_⟩
  · intro proc member
    cases member
  · intro p q proc other at_p
    cases at_p

end Run

/-- Live processes that have completed the call have different indices, each below pidnum and
    with the process's pid in its slot. -/
structure OwnSlots (s : State) : Prop where
  distinct : ∀ (p q i : Nat) (proc other : Proc), s.procs[p]? = some proc →
    s.procs[q]? = some other → proc.Completed i → other.Completed i → p = q
  registered : ∀ proc ∈ s.procs, ∀ i, proc.Completed i →
    (i : Int) < s.sq.pidnum ∧ s.sq.pidset i = proc.pid

/-- Any number of processes, any interleaving of their steps, deaths at any point and pids
    used again, with every successful CAS a careful one. -/
theorem careful_readers_own_their_slots {s : State} (run : Reachable (Step Careful) start s) :
    OwnSlots s := by
  have inv : Inv s := invariant_reachable start_inv (fun _ _ => step_keeps_inv) run
  constructor
  · intro p q i proc other at_p at_q ⟨live, _, mine⟩ ⟨live', _, yours⟩
    have one := (inv.sound proc (List.mem_of_getElem? at_p) live).holds i mine
    have two := (inv.sound other (List.mem_of_getElem? at_q) live').holds i yours
    exact inv.apart p q proc other at_p at_q live live' (one.symm.trans two)
  · intro proc member i ⟨live, _, mine⟩
    have sound := inv.sound proc member live
    exact ⟨sound.uses i (.inl mine), sound.holds i mine⟩

instance (proc : Proc) (i : Nat) : Decidable (proc.Holds i) :=
  inferInstanceAs (Decidable (_ = _))

instance (pc : Pc) (i : Nat) : Decidable (∃ oldpid, pc = .growSet i oldpid) :=
  match pc with
  | .growSet pidnum oldpid => decidable_of_iff (pidnum = i)
      ⟨fun same => ⟨oldpid, by rw [same]⟩, fun ⟨_, same⟩ => (Pc.growSet.inj same).1⟩
  | .outside | .verify | .repair _ | .shrinkRead _ | .shrinkCheck _ _ | .shrinkCas _
  | .sweepRead _ | .sweepCheck _ _ | .sweepCas _ _ | .findTest _ | .findRead _ | .reuseTest _
  | .reuseRead _ | .reuseCas _ | .growTest | .growRead _ | .growCas _ _ | .openFifo _ =>
    .isFalse (by rintro ⟨_, ⟨⟩⟩)

instance (sq : Pids) (proc : Proc) (i : Nat) : Decidable (proc.Uses sq i) :=
  inferInstanceAs (Decidable (_ ∨ _ ∨ _ ∨ _ ∨ _))

instance (s : State) (ev : Event) : Decidable (Careful s ev) := by
  cases ev with
  | run p opened =>
    refine @Option.decidableForallMem _ _ ?_ (s.procs[p]?)
    intro proc
    beta_reduce
    cases proc.pc <;> infer_instance
  | die p => exact .isTrue trivial
  | fork pid => exact .isTrue trivial

/-- Processes 7 and 8 register one after the other. Then 7 dies, and 9 finds slot 0 stale. -/
def threeReaders : List Event :=
  [.fork 7, .fork 8] ++ List.replicate 10 (.run 0 true) ++ List.replicate 16 (.run 1 true) ++
    [.die 0, .fork 9] ++ List.replicate 17 (.run 2 true)

theorem live_readers_own_their_slots : ∃ s : State, Reachable (Step Careful) start s ∧
    OwnSlots s ∧ s.procs = [⟨7, false, .outside, some 0⟩, ⟨8, true, .outside, some 1⟩,
      ⟨9, true, .outside, some 0⟩] := by
  have lawful : Lawful step Careful threeReaders start := by decide +kernel
  have ends : (play step threeReaders start).any (fun s => s.procs =
      [⟨7, false, .outside, some 0⟩, ⟨8, true, .outside, some 1⟩,
        ⟨9, true, .outside, some 0⟩]) = true := by
    decide
  obtain ⟨s, played, procs⟩ := (Option.any_eq_true _ _).mp ends
  have run : Reachable (Step Careful) start s := lawful_reachable threeReaders lawful played
  exact ⟨s, run, careful_readers_own_their_slots run, of_decide_eq_true procs⟩

/-- The first process raises pidnum; the second finds the slot still empty and takes pidnum
    back; the first claims the slot, and so does the second after raising pidnum again. -/
def racingReaders : List Event :=
  [.fork 7, .fork 8] ++ List.replicate 8 (.run 0 true) ++ List.replicate 5 (.run 1 true) ++
    List.replicate 2 (.run 0 true) ++ List.replicate 8 (.run 1 true)

theorem two_readers_in_one_slot :
    ∃ s, Reachable (Step fun _ _ => True) start s ∧ ¬ OwnSlots s := by
  have ends : (play step racingReaders start).any (fun s => s.procs =
      [⟨7, true, .outside, some 0⟩, ⟨8, true, .outside, some 0⟩]) = true := by decide
  obtain ⟨s, played, both⟩ := (Option.any_eq_true _ _).mp ends
  have procs := of_decide_eq_true both
  have run : Reachable (Step fun _ _ => True) start s :=
    lawful_reachable racingReaders (fun _ _ _ _ _ => trivial) played
  refine ⟨s, run, ?_⟩
  intro own
  have same := own.distinct 0 1 0 _ _ (by rw [procs]; rfl) (by rw [procs]; rfl)
    ⟨rfl, rfl, rfl⟩ ⟨rfl, rfl, rfl⟩
  cases same

end UC.ShmQueue.Registration
