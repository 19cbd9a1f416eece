import UC.Lib.Cells
import UC.Lib.Histories
import UC.ShmQueue.Fifo

/- The queue over the life of its segments: sq_create, sq_open and sq_destroy of any number of
   handles, with sq_put and sq_get between them, one call at a time. Each call of the
   kernel may fail. A removed segment stays with the handles that are attached to it. -/
namespace UC.ShmQueue
open UC.Memory

/-- sizeof(struct sq_head_t): seven ints, pidset, sigmask, siglock, signr and 4 MB reserved. -/
def headSize : Nat := 7 * 4 + 64 * 4 + 8 + 64 * 4 + 64 * 4 + 1024 * 1024 * 4

/-- allocate_size: head and ele_count + 1 nodes, aligned to 4 MB. -/
def allocateSize (ele_size ele_count : Int) : Nat :=
  (headSize + ((nodeHeadSize + ele_size) * (ele_count + 1)).toNat + 2 ^ 22 - 1) / 2 ^ 22 * 2 ^ 22

structure Segment where
  size : Nat
  head : SqHead

def zeroHead : SqHead := ⟨0, 0, 0, 0, fun _ => 0⟩

/-- The segments by their shmid, and the keys that lead to one. -/
structure Kernel where
  keys : Nat → Option Nat
  segments : Nat → Option Segment
  next : Nat

/-- Which calls of the kernel succeed. -/
structure Grants where
  create : Bool
  stat : Bool
  remove : Bool
  attach : Bool

namespace Kernel

/-- shmget(iKey, 0, 0): the key is cut to the 32 bits of key_t, of which 0 is IPC_PRIVATE. -/
def find (k : Kernel) (key : Nat) : Option Nat :=
  if key % 2 ^ 32 = 0 then none else k.keys (key % 2 ^ 32)

/-- shmget(iKey, iSize, 0666|IPC_CREAT) of a key without segment. -/
def create (k : Kernel) (key size : Nat) : Kernel × Nat :=
  ({ keys := if key % 2 ^ 32 = 0 then k.keys else Cells.set k.keys (key % 2 ^ 32) (some k.next)
     segments := Cells.set k.segments k.next (some ⟨size, zeroHead⟩)
     next := k.next + 1 }, k.next)

/-- shmctl(shmid, IPC_RMID, NULL) -/
def remove (k : Kernel) (key : Nat) : Kernel :=
  { k with keys := Cells.set k.keys (key % 2 ^ 32) none }

def sizeOf (k : Kernel) (shmid : Nat) : Nat := ((k.segments shmid).map Segment.size).getD 0

/-- The end of attach_shm behind a shmget that has created the segment. -/
def attachNew (k : Kernel) (key size : Nat) (g : Grants) : Kernel × Option (Nat × Bool) :=
  if g.create then
    let (k, shmid) := k.create key size
    (k, if g.attach then some (shmid, true) else none)
  else (k, none)

/-- attach_shm: the segment, and whether it has been created. -/
def attachShm (k : Kernel) (key size : Nat) (creating : Bool) (g : Grants) :
    Kernel × Option (Nat × Bool) :=
  match k.find key with
  | none => if creating then k.attachNew key size g else (k, none)
  | some shmid =>
    if creating then
      if ¬ g.stat then (k, none)
      else if k.sizeOf shmid ≠ size then
        if g.remove then (k.remove key).attachNew key size g else (k, none)
      else (k, if g.attach then some (shmid, false) else none)
    else (k, if g.attach then some (shmid, false) else none)

/-- open_shm_queue behind attach_shm: a created segment gets its head, another one is
    compared with the arguments. -/
def settle (ele_size ele_count : Int) (allocate_size : Nat) (create : Bool) :
    Kernel × Option (Nat × Bool) → Kernel × Option Nat
  | (k, none) => (k, none)
  | (k, some (shmid, true)) =>
    let shm : Segment := ⟨allocate_size, ⟨toInt ele_size, ele_count, 0, 0, fun _ => 0⟩⟩
    ({ k with segments := Cells.set k.segments shmid (some shm) }, some shmid)
  | (k, some (shmid, false)) =>
    if create then
      match k.segments shmid with
      | none => (k, none)
      | some shm =>
        if shm.head.ele_size ≠ ele_size ∨ shm.head.ele_count ≠ ele_count then (k, none)
        else (k, some shmid)
    else (k, some shmid)

def openShmQueue (k : Kernel) (key : Nat) (ele_size ele_count : Int) (create : Bool)
    (g : Grants) : Kernel × Option Nat :=
  let ele_size := if create then (ele_size + 7) / 8 * 8 else ele_size
  let allocate_size := if create then allocateSize ele_size ele_count else 0
  settle ele_size ele_count allocate_size create (k.attachShm key allocate_size create g)

end Kernel

/-- struct shm_queue, with the segment its head points to. -/
structure Attached where
  shmid : Nat
  rw_conflict : Int
  errmsg : String

/-- The kernel, the handles of all processes, and as history the messages put to and got
    from each segment. -/
structure World where
  kernel : Kernel
  handles : Nat → Option Attached
  accepted : Nat → List Message
  received : Nat → List Message

inductive Use where
  | create (h key : Nat) (ele_size ele_count : Int) (g : Grants)
  | open (h key : Nat) (g : Grants)
  | destroy (h : Nat)
  | call (h : Nat) (c : Call)

/-- sq_create; a handle that is NULL is none. -/
def World.sqCreate (w : World) (h key : Nat) (ele_size ele_count : Int) (g : Grants) : World :=
  match ShmQueue.sqCreate key ele_size ele_count with
  | .error _ => { w with handles := Cells.set w.handles h none }
  | .ok _ =>
    let (kernel, shmid) := w.kernel.openShmQueue key ele_size ele_count true g
    { w with
      kernel := kernel
      handles := Cells.set w.handles h (shmid.map fun shmid => ⟨shmid, 0, ""⟩) }

def World.sqOpen (w : World) (h key : Nat) (g : Grants) : World :=
  let (kernel, shmid) := w.kernel.openShmQueue key 0 0 false g
  { w with
    kernel := kernel
    handles := Cells.set w.handles h (shmid.map fun shmid => ⟨shmid, 0, ""⟩) }

/-- The queue as a handle sees it. -/
def Attached.log (a : Attached) (w : World) (shm : Segment) : Log :=
  ⟨⟨shm.head, a.rw_conflict, a.errmsg⟩, w.accepted a.shmid, w.received a.shmid⟩

/-- One call; none is a use of a handle that is NULL, or a call that does not return. -/
def use (w : World) : Use → Option World
  | .create h key ele_size ele_count g => some (w.sqCreate h key ele_size ele_count g)
  | .open h key g => some (w.sqOpen h key g)
  | .destroy h =>
    (w.handles h).map fun _ => { w with handles := Cells.set w.handles h none }
  | .call h c => do
    let a ← w.handles h
    let shm ← w.kernel.segments a.shmid
    let log ← ShmQueue.call (a.log w shm) c
    let segments := Cells.set w.kernel.segments a.shmid (some ⟨shm.size, log.sq.head⟩)
    some
      { kernel := { w.kernel with segments := segments }
        handles := Cells.set w.handles h (some ⟨a.shmid, log.sq.rw_conflict, log.sq.errmsg⟩)
        accepted := Cells.set w.accepted a.shmid log.accepted
        received := Cells.set w.received a.shmid log.received }

/-- The handle is one, sizes and sums of positions do not overflow an int, and buffers hold
    every message. -/
def Use.Legal (w : World) : Use → Prop
  | .create _ _ ele_size ele_count _ => ele_size ≤ 2 ^ 31 - 8 ∧ ele_count < 2 ^ 30
  | .open .. => True
  | .destroy h => w.handles h ≠ none
  | .call h c => w.handles h ≠ none ∧ c.Legal

instance (w : World) : (ev : Use) → Decidable (ev.Legal w)
  | .create .. => inferInstanceAs (Decidable (_ ≤ _ ∧ _ < _))
  | .open .. => inferInstanceAs (Decidable True)
  | .destroy h => inferInstanceAs (Decidable (¬ w.handles h = none))
  | .call h c => inferInstanceAs (Decidable (¬ w.handles h = none ∧ c.Legal))

def World.start : World :=
  ⟨⟨fun _ => none, fun _ => none, 0⟩, fun _ => none, fun _ => [], fun _ => []⟩

section Create

variable {k : Kernel} {key : Nat} {ele_size ele_count : Int}

/-- The segment that sq_create makes of a new one. -/
def madeSegment (ele_size ele_count : Int) : Segment :=
  let ele_size := (ele_size + 7) / 8 * 8
  ⟨allocateSize ele_size ele_count, ⟨toInt ele_size, ele_count, 0, 0, fun _ => 0⟩⟩

/-- The kernel in which a new segment is made for the key: the old one had another size. -/
def Cleared (k k₁ : Kernel) (key bytes : Nat) : Prop :=
  (k₁ = k ∧ k.find key = none) ∨
    k₁ = k.remove key ∧ ∃ q, k.find key = some q ∧ k.sizeOf q ≠ bytes

/-- All that open_shm_queue may do for sq_create. -/
inductive Opened (k : Kernel) (key : Nat) (ele_size ele_count : Int) :
    Kernel × Option Nat → Prop where
  | refused : Opened k key ele_size ele_count (k, none)
  | lost {k₁ : Kernel} (cleared : Cleared k k₁ key (madeSegment ele_size ele_count).size) :
      Opened k key ele_size ele_count (k₁, none)
  | blank {k₁ : Kernel} (cleared : Cleared k k₁ key (madeSegment ele_size ele_count).size) :
      Opened k key ele_size ele_count
        ((k₁.create key (madeSegment ele_size ele_count).size).1, none)
  | kept {q : Nat} {shm : Segment} (found : k.find key = some q)
      (held : k.segments q = some shm) (size : shm.head.ele_size = (ele_size + 7) / 8 * 8)
      (count : shm.head.ele_count = ele_count) : Opened k key ele_size ele_count (k, some q)
  | made {k₁ : Kernel} (cleared : Cleared k k₁ key (madeSegment ele_size ele_count).size) :
      Opened k key ele_size ele_count
        ({ (k₁.create key (madeSegment ele_size ele_count).size).1 with
            segments := Cells.set k.segments k.next (some (madeSegment ele_size ele_count)) },
          some k.next)

theorem attach_new_cases (k : Kernel) (key size : Nat) (g : Grants) :
    k.attachNew key size g = (k, none) ∨ k.attachNew key size g = ((k.create key size).1, none) ∨
      k.attachNew key size g = ((k.create key size).1, some (k.next, true)) := by
  unfold Kernel.attachNew
  by_cases create : g.create
  · rw [if_pos create]
    by_cases attach : g.attach
    · simp only [attach, if_true]
      exact .inr (.inr rfl)
    · simp only [attach]
      exact .inr (.inl rfl)
  · rw [if_neg create]
    exact .inl rfl

theorem cleared_same {k k₁ : Kernel} {key bytes : Nat} (cleared : Cleared k k₁ key bytes) :
    k₁.segments = k.segments ∧ k₁.next = k.next := by
  rcases cleared with ⟨rfl, _⟩ | ⟨rfl, _⟩ <;> exact ⟨rfl, rfl⟩

theorem opened_new {k k₁ : Kernel} {key : Nat} {ele_size ele_count : Int} (g : Grants)
    (cleared : Cleared k k₁ key (madeSegment ele_size ele_count).size) :
    Opened k key ele_size ele_count
      (Kernel.settle ((ele_size + 7) / 8 * 8) ele_count (madeSegment ele_size ele_count).size true
        (k₁.attachNew key (madeSegment ele_size ele_count).size g)) := by
  obtain ⟨segments, next⟩ := cleared_same cleared
  rcases attach_new_cases k₁ key (madeSegment ele_size ele_count).size g with
    outcome | outcome | outcome
  · rw [outcome]
    exact .lost cleared
  · rw [outcome]
    exact .blank cleared
  · rw [outcome]
    have twice : Cells.set (k₁.create key (madeSegment ele_size ele_count).size).1.segments k₁.next
        (some (madeSegment ele_size ele_count)) =
          Cells.set k.segments k.next (some (madeSegment ele_size ele_count)) := by
      funext q
      by_cases here : q = k₁.next
      · rw [here, Cells.set_same, next, Cells.set_same]
      · have there : q ≠ k.next := next ▸ here
        rw [Cells.set_other _ _ here, Cells.set_other _ _ there]
        exact (Cells.set_other _ _ here).trans (congrFun segments q)
    change Opened k key ele_size ele_count
      ({ (k₁.create key (madeSegment ele_size ele_count).size).1 with
        segments := Cells.set (k₁.create key (madeSegment ele_size ele_count).size).1.segments
          k₁.next (some (madeSegment ele_size ele_count)) }, some k₁.next)
    rw [twice, next]
    exact .made cleared

theorem opened_found {k : Kernel} {key q : Nat} {ele_size ele_count : Int}
    (found : k.find key = some q) (allocate_size : Nat) :
    Opened k key ele_size ele_count
      (Kernel.settle ((ele_size + 7) / 8 * 8) ele_count allocate_size true
        (k, some (q, false))) := by
  unfold Kernel.settle
  simp only [if_true]
  cases held : k.segments q with
  | none => exact .refused
  | some shm =>
    dsimp only
    split
    · exact .refused
    · next same =>
      rw [not_or, not_not, not_not] at same
      exact .kept found held same.1 same.2

theorem open_shm_queue_cases (k : Kernel) (key : Nat) (ele_size ele_count : Int) (g : Grants) :
    Opened k key ele_size ele_count (k.openShmQueue key ele_size ele_count true g) := by
  change Opened k key ele_size ele_count
    (Kernel.settle ((ele_size + 7) / 8 * 8) ele_count (madeSegment ele_size ele_count).size true
      (k.attachShm key (madeSegment ele_size ele_count).size true g))
  unfold Kernel.attachShm
  simp only [if_true]
  cases found : k.find key with
  | none => exact opened_new g (.inl ⟨rfl, found⟩)
  | some q =>
    dsimp only
    split
    · exact .refused
    · split
      · next other =>
        split
        · exact opened_new g (.inr ⟨rfl, q, found, other⟩)
        · exact .refused
      · by_cases attach : g.attach
        · rw [if_pos attach]
          exact opened_found found _
        · rw [if_neg attach]
          exact .refused

end Create

section Calls

def SameGeometry (queue queue' : SqHead) : Prop :=
  queue'.ele_size = queue.ele_size ∧ queue'.ele_count = queue.ele_count

theorem put_geometry {sq sq' : Handle} {now : Timeval} {data : Mem UInt8} {datalen ret : Int}
    (run : sqPut sq now data datalen = some (sq', ret)) : SameGeometry sq.head sq'.head := by
  unfold sqPut at run
  split at run
  · cases run
    exact ⟨rfl, rfl⟩
  · split at run
    · cases run
      exact ⟨rfl, rfl⟩
    · obtain ⟨head, published, same⟩ := Option.map_eq_some_iff.mp run
      cases same
      unfold publish at published
      obtain ⟨m, _, written⟩ := Option.map_eq_some_iff.mp published
      cases written
      exact ⟨rfl, rfl⟩

theorem claim_geometry {sq sq' : Handle} {c : Claim} (run : claim sq = some (sq', c)) :
    SameGeometry sq.head sq'.head := by
  unfold claim at run
  obtain ⟨walk, _, same⟩ := Option.map_eq_some_iff.mp run
  cases walk with
  | drained head =>
    dsimp only at same
    split at same <;> cases same <;> exact ⟨rfl, rfl⟩
  | busy =>
    cases same
    exact ⟨rfl, rfl⟩
  | found head datalen new_head =>
    cases same
    exact ⟨rfl, rfl⟩

theorem release_geometry {sq sq' : Handle} {old_head new_head : Int}
    (run : release sq old_head new_head = some sq') : SameGeometry sq.head sq'.head := by
  obtain ⟨m, _, same⟩ := Option.map_eq_some_iff.mp run
  cases same
  exact ⟨rfl, rfl⟩

theorem finish_geometry {sq sq' : Handle} {c : Claim} {buf_sz : Int} {got : Got}
    (run : finish sq buf_sz c = some (sq', got)) : SameGeometry sq.head sq'.head := by
  cases c with
  | noData =>
    cases run
    exact ⟨rfl, rfl⟩
  | skipped old_head new_head =>
    obtain ⟨sq₁, released, same⟩ := Option.map_eq_some_iff.mp run
    cases same
    exact release_geometry released
  | message old_head head new_head datalen =>
    unfold finish at run
    dsimp only at run
    split at run
    · cases run
      exact ⟨rfl, rfl⟩
    · obtain ⟨sq₁, released, same⟩ := Option.map_eq_some_iff.mp run
      cases same
      exact release_geometry released

theorem get_geometry {sq sq' : Handle} {buf_sz : Int} {got : Got}
    (run : sqGet sq buf_sz = some (sq', got)) : SameGeometry sq.head sq'.head := by
  unfold sqGet at run
  split at run
  · cases run
    exact ⟨rfl, rfl⟩
  · obtain ⟨⟨sq₁, c⟩, claimed, finished⟩ := Option.bind_eq_some_iff.mp run
    obtain ⟨size, count⟩ := claim_geometry claimed
    obtain ⟨size', count'⟩ := finish_geometry finished
    exact ⟨size'.trans size, count'.trans count⟩

theorem call_geometry {log log' : Log} {c : Call} (run : call log c = some log') :
    SameGeometry log.sq.head log'.sq.head := by
  cases c with
  | put now data datalen =>
    obtain ⟨⟨sq, ret⟩, put, same⟩ := Option.map_eq_some_iff.mp run
    cases same
    exact put_geometry put
  | get buf_sz =>
    obtain ⟨⟨sq, got⟩, taken, same⟩ := Option.map_eq_some_iff.mp run
    cases same
    exact get_geometry taken

end Calls

section Content

inductive Content (shm : Segment) (accepted received : List Message) : Prop where
  | blank (head : shm.head = zeroHead) (none_in : accepted = []) (none_out : received = [])
  | ring {N ns h t : Nat} {msgs : List Message}
      (size : shm.size = allocateSize shm.head.ele_size shm.head.ele_count)
      (small : N ≤ 2 ^ 30)
      (rest : Resting N ns ⟨⟨shm.head, 0, ""⟩, accepted, received⟩ h t msgs)

/-- Behind the calls so far, what a get of the handle answers. -/
def Serves (sq : Handle) (accepted received : List Message) : Prop :=
  ∀ buf_sz, MAX_SQ_DATA_LENGTH ≤ buf_sz →
    ∃ sq' got, sqGet sq buf_sz = some (sq', got) ∧ 0 ≤ got.ret ∧
      (got.ret = 0 ↔ received = accepted) ∧
      (0 < got.ret → received ++ [(got.ret, got.buf)] <+: accepted)

/-- In the int of the source the calls of the handle are the same. -/
def FitsInts (sq : Handle) : Prop :=
  (∀ now data datalen, Ints.sqPut sq now data datalen = sqPut sq now data datalen) ∧
    ∀ buf_sz, Ints.sqGet sq buf_sz = sqGet sq buf_sz

variable {shm : Segment} {accepted received : List Message}

theorem blank_needs {datalen : Int} (low : 1 ≤ datalen) (high : datalen ≤ MAX_SQ_DATA_LENGTH) :
    0 ≤ numNeededNodes zeroHead datalen ∧ numNeededNodes zeroHead datalen ≤ 65536 := by
  have nonneg : 0 ≤ datalen := by omega
  have short : datalen < 2 ^ 31 := high.trans_lt (by decide)
  have node : nodeSize zeroHead = 16 := rfl
  have quotient : (datalen.toNat + 16 + 16 - 1) / 16 < 2 ^ 31 := by
    apply Nat.div_lt_of_lt_mul
    omega
  have total : toSize (toSize datalen + nodeHeadSize + (16 : Nat) - 1) =
      datalen.toNat + 16 + 16 - 1 := by
    rw [to_size nonneg (by omega), nodeHeadSize, to_size (by omega) (by omega)]
    omega
  unfold numNeededNodes
  rw [node, total, to_int (Int.natCast_nonneg _) (by exact_mod_cast quotient)]
  refine ⟨Int.natCast_nonneg _, ?_⟩
  unfold MAX_SQ_DATA_LENGTH at high
  have few : (datalen.toNat + 16 + 16 - 1) / 16 ≤ 65536 := by
    rw [Nat.div_le_iff_le_mul (by decide)]
    omega
  exact_mod_cast few

theorem blank_full {datalen : Int} (low : 1 ≤ datalen) (high : datalen ≤ MAX_SQ_DATA_LENGTH) :
    reserve zeroHead datalen = none := by
  have none_free : emptyNodes zeroHead = 0 := rfl
  have needs := (blank_needs low high).1
  have full : 0 < numNeededNodes zeroHead datalen + RESERVE_BLOCK_COUNT := by
    unfold RESERVE_BLOCK_COUNT
    omega
  unfold reserve
  dsimp only
  rw [none_free, if_pos full]

theorem full_put {sq : Handle} (now : Timeval) (data : Mem UInt8) {datalen : Int}
    (low : 1 ≤ datalen) (high : datalen ≤ MAX_SQ_DATA_LENGTH)
    (full : reserve sq.head datalen = none) :
    sqPut sq now data datalen = some ({ sq with errmsg := "Not enough for new data" }, -2) := by
  have legal : ¬ (datalen ≤ 0 ∨ datalen > MAX_SQ_DATA_LENGTH) := by omega
  unfold sqPut
  rw [if_neg legal, full]

/-- A blank segment is always full and always empty. -/
theorem blank_put (errmsg : String) (now : Timeval) (data : Mem UInt8) {datalen : Int}
    (low : 1 ≤ datalen) (high : datalen ≤ MAX_SQ_DATA_LENGTH) :
    sqPut ⟨zeroHead, 0, errmsg⟩ now data datalen =
      some (⟨zeroHead, 0, "Not enough for new data"⟩, -2) :=
  @full_put ⟨zeroHead, 0, errmsg⟩ now data datalen low high (blank_full low high)

theorem blank_get (errmsg : String) {buf_sz : Int} (large : MAX_SQ_DATA_LENGTH ≤ buf_sz) :
    sqGet ⟨zeroHead, 0, errmsg⟩ buf_sz = some (⟨zeroHead, 0, errmsg⟩, ⟨0, [], none⟩) := by
  have good : ¬ buf_sz < 1 := by
    unfold MAX_SQ_DATA_LENGTH at large
    omega
  unfold sqGet
  rw [if_neg good]
  rfl

theorem resting_handle {N ns h t : Nat} {msgs : List Message} {head : SqHead} {errmsg : String}
    (rest : Resting N ns ⟨⟨head, 0, errmsg⟩, accepted, received⟩ h t msgs) (text : String) :
    Resting N ns ⟨⟨head, 0, text⟩, accepted, received⟩ h t msgs := resting_errmsg rest text

theorem content_prefix (content : Content shm accepted received) : received <+: accepted := by
  cases content with
  | blank head none_in none_out =>
    rw [none_out]
    exact List.nil_prefix
  | ring size small rest =>
    have history := rest.inv.history
    simp only [atRest, List.append_nil] at history
    exact ⟨_, history.symm⟩

theorem content_fits (content : Content shm accepted received) (errmsg : String) :
    FitsInts ⟨shm.head, 0, errmsg⟩ := by
  cases content with
  | blank head none_in none_out =>
    rw [head]
    have small : Ints.Small zeroHead := ⟨by decide, by decide⟩
    have node : Ints.IsNode zeroHead 0 := ⟨by decide, by decide⟩
    exact ⟨Ints.sq_put_fits blank_needs small node node, Ints.sq_get_fits small node node⟩
  | @ring N ns h t msgs size small rest =>
    have inv := rest.inv
    have shape := inv.shape
    have few := Ints.small_ring shape small
    have head : Ints.IsNode shm.head shm.head.head_pos :=
      inv.head_at ▸ Ints.node_of_position shape h
    have tail : Ints.IsNode shm.head shm.head.tail_pos :=
      inv.tail_at ▸ Ints.node_of_position shape t
    exact ⟨Ints.sq_put_fits (Ints.needed_small shape) few head tail,
      Ints.sq_get_fits few head tail⟩

theorem content_serves (content : Content shm accepted received) (errmsg : String) :
    Serves ⟨shm.head, 0, errmsg⟩ accepted received := by
  intro buf_sz large
  cases content with
  | blank head none_in none_out =>
    refine ⟨_, _, head ▸ blank_get errmsg large, Int.le_refl 0, ?_, ?_⟩
    · exact iff_of_true rfl (none_out.trans none_in.symm)
    · intro positive
      exact absurd positive (Int.lt_irrefl 0)
  | @ring N ns h t msgs size small rest =>
    have history := rest.inv.history
    simp only [atRest, List.append_nil] at history
    obtain ⟨sq, got, taken, sign, empty, h', msgs', next⟩ :=
      get_resting (resting_handle rest errmsg) large
    refine ⟨sq, got, taken, sign, ?_, ?_⟩
    · rw [empty, history, List.self_eq_append_right]
    · intro positive
      have split := next.inv.history
      simp only [atRest, Got.messages, if_pos positive, List.append_nil] at split
      exact ⟨msgs', split.symm⟩

theorem content_call (content : Content shm accepted received) (errmsg : String) {c : Call}
    (legal : c.Legal) :
    ∃ log, call ⟨⟨shm.head, 0, errmsg⟩, accepted, received⟩ c = some log ∧
      log.sq.rw_conflict = 0 ∧ Content ⟨shm.size, log.sq.head⟩ log.accepted log.received := by
  cases content with
  | blank head none_in none_out =>
    rw [head]
    cases c with
    | put now data datalen =>
      refine ⟨⟨⟨zeroHead, 0, "Not enough for new data"⟩, accepted, received⟩, ?_, rfl,
        .blank rfl none_in none_out⟩
      simp only [call, blank_put errmsg now data legal.1 legal.2]
      rfl
    | get buf_sz =>
      refine ⟨⟨⟨zeroHead, 0, errmsg⟩, accepted, received ++ []⟩, ?_, rfl,
        .blank rfl none_in (by rw [List.append_nil, none_out])⟩
      simp only [call, blank_get errmsg legal]
      rfl
  | @ring N ns h t msgs size small rest =>
    have here := resting_handle rest errmsg
    have next : ∃ log, call ⟨⟨shm.head, 0, errmsg⟩, accepted, received⟩ c = some log ∧
        ∃ h' t' msgs', Resting N ns log h' t' msgs' := by
      cases c with
      | put now data datalen =>
        obtain ⟨log, done, t', msgs', after⟩ := put_resting here legal.1 legal.2
        exact ⟨log, done, h, t', msgs', after⟩
      | get buf_sz =>
        obtain ⟨sq, got, taken, _, _, h', msgs', after⟩ := get_resting here legal
        exact ⟨_, by simp only [call, taken, Option.map_some], h', t, msgs', after⟩
    obtain ⟨log, done, h', t', msgs', after⟩ := next
    obtain ⟨same_size, same_count⟩ := call_geometry done
    have sized : shm.size = allocateSize log.sq.head.ele_size log.sq.head.ele_count := by
      rw [same_size, same_count]
      exact size
    have aside : Resting N ns ⟨⟨log.sq.head, 0, ""⟩, log.accepted, log.received⟩ h' t' msgs' :=
      after.calm ▸ resting_errmsg after ""
    exact ⟨log, done, after.calm, .ring sized small aside⟩

theorem made_content {ele_size ele_count : Int} (size : 0 < ele_size)
    (int_size : ele_size ≤ 2 ^ 31 - 8) (count : RESERVE_BLOCK_COUNT < ele_count)
    (small : ele_count < 2 ^ 30) : Content (madeSegment ele_size ele_count) [] [] := by
  have good : ¬ (ele_size ≤ 0 ∨ ele_count ≤ RESERVE_BLOCK_COUNT ∨ 1 = 0) := by omega
  have created : sqCreate 1 ele_size ele_count =
      .ok ⟨(madeSegment ele_size ele_count).head, 0, ""⟩ := if_neg good
  have aligned : toInt ((ele_size + 7) / 8 * 8) = (ele_size + 7) / 8 * 8 :=
    to_int (by omega) (by omega)
  refine .ring ?_ ?_ (resting_start (sq_create_fresh int_size created))
  · unfold madeSegment
    dsimp only
    rw [aligned]
  · unfold madeSegment
    dsimp only
    omega

end Content

/-- Keys lead to segments, no two of them to the same. -/
structure Grounded (k : Kernel) : Prop where
  below : ∀ q, k.next ≤ q → k.segments q = none
  keyed : ∀ key q, k.keys key = some q → k.segments q ≠ none
  apart : ∀ key key' q, k.keys key = some q → k.keys key' = some q → key = key'

structure Housed (w : World) : Prop where
  grounded : Grounded w.kernel
  content : ∀ q shm, w.kernel.segments q = some shm → Content shm (w.accepted q) (w.received q)
  unused : ∀ q, w.kernel.segments q = none → w.accepted q = [] ∧ w.received q = []
  attached : ∀ h a, w.handles h = some a → a.rw_conflict = 0 ∧ w.kernel.segments a.shmid ≠ none

section Kernels

variable {k k₁ : Kernel} {key : Nat}

theorem grounded_remove (grounded : Grounded k) (key : Nat) : Grounded (k.remove key) := by
  have kept : ∀ {other q}, (k.remove key).keys other = some q → k.keys other = some q := by
    intro other q leads
    change Cells.set k.keys (key % 2 ^ 32) none other = some q at leads
    by_cases here : other = key % 2 ^ 32
    · rw [here, Cells.set_same] at leads
      cases leads
    · rwa [Cells.set_other _ _ here] at leads
  exact ⟨grounded.below, fun other q leads => grounded.keyed other q (kept leads),
    fun one other q leads leads' => grounded.apart one other q (kept leads) (kept leads')⟩

theorem grounded_cleared {bytes : Nat} (grounded : Grounded k)
    (cleared : Cleared k k₁ key bytes) : Grounded k₁ := by
  rcases cleared with ⟨rfl, _⟩ | ⟨rfl, _⟩
  · exact grounded
  · exact grounded_remove grounded key

theorem grounded_create (grounded : Grounded k) (key size : Nat) (shm : Segment) :
    Grounded { (k.create key size).1 with
      segments := Cells.set k.segments k.next (some shm) } := by
  have old : ∀ {other q}, k.keys other = some q → q ≠ k.next := by
    intro other q leads here
    exact grounded.keyed other q leads (grounded.below q (Nat.le_of_eq here.symm))
  have cases_of : ∀ {other q}, (k.create key size).1.keys other = some q →
      k.keys other = some q ∨ other = key % 2 ^ 32 ∧ q = k.next := by
    intro other q leads
    unfold Kernel.create at leads
    dsimp only at leads
    split at leads
    · exact .inl leads
    · by_cases here : other = key % 2 ^ 32
      · rw [here, Cells.set_same] at leads
        exact .inr ⟨here, (Option.some.inj leads).symm⟩
      · rw [Cells.set_other _ _ here] at leads
        exact .inl leads
  constructor
  · intro q high
    have other : q ≠ k.next := by
      change k.next + 1 ≤ q at high
      omega
    exact (Cells.set_other _ _ other).trans
      (grounded.below q (by change k.next + 1 ≤ q at high; omega))
  · intro other q leads
    dsimp only
    rcases cases_of leads with before | ⟨_, rfl⟩
    · rw [Cells.set_other _ _ (old before)]
      exact grounded.keyed other q before
    · rw [Cells.set_same]
      exact Option.some_ne_none shm
  · intro one other q leads leads'
    rcases cases_of leads with before | ⟨here, rfl⟩ <;>
      rcases cases_of leads' with before' | ⟨here', new⟩
    · exact grounded.apart one other q before before'
    · exact absurd new (old before)
    · exact absurd rfl (old before')
    · rw [here, here']

theorem find_held (grounded : Grounded k) {q : Nat} (found : k.find key = some q) :
    k.segments q ≠ none := by
  unfold Kernel.find at found
  split at found
  · cases found
  · exact grounded.keyed _ q found

end Kernels

section Users

variable {w : World}

theorem housed_start : Housed World.start := by
  constructor
  · constructor
    · intro q _
      rfl
    · intro key q leads
      cases leads
    · intro key key' q leads
      cases leads
  · intro q shm held
    cases held
  · intro q _
    exact ⟨rfl, rfl⟩
  · intro h a held
    cases held

theorem housed_handle (housed : Housed w) (h : Nat) {handle : Option Attached}
    (good : ∀ a, handle = some a → a.rw_conflict = 0 ∧ w.kernel.segments a.shmid ≠ none) :
    Housed { w with handles := Cells.set w.handles h handle } := by
  refine ⟨housed.grounded, housed.content, housed.unused, ?_⟩
  intro other a held
  by_cases here : other = h
  · rw [here] at held
    exact good a ((Cells.set_same w.handles h handle).symm.trans held)
  · exact housed.attached other a ((Cells.set_other w.handles handle here).symm.trans held)

theorem housed_detach (housed : Housed w) (h : Nat) :
    Housed { w with handles := Cells.set w.handles h none } := by
  apply housed_handle housed h
  intro a held
  cases held

theorem housed_keys (housed : Housed w) {k : Kernel} (grounded : Grounded k)
    (same : k.segments = w.kernel.segments) : Housed { w with kernel := k } := by
  obtain ⟨_, content, unused, attached⟩ := housed
  rw [← same] at content unused attached
  exact ⟨grounded, content, unused, attached⟩

theorem housed_new (housed : Housed w) {k : Kernel} (grounded : Grounded k) {shm : Segment}
    (new : k.segments = Cells.set w.kernel.segments w.kernel.next (some shm))
    (content : Content shm [] []) : Housed { w with kernel := k } := by
  have free := housed.grounded.below w.kernel.next (Nat.le_refl _)
  have at_next : k.segments w.kernel.next = some shm := by rw [new, Cells.set_same]
  have elsewhere : ∀ {q}, q ≠ w.kernel.next → k.segments q = w.kernel.segments q := by
    intro q other
    rw [new, Cells.set_other _ _ other]
  refine ⟨grounded, ?_, ?_, ?_⟩
  · intro q held here
    by_cases at_q : q = w.kernel.next
    · rw [at_q] at here ⊢
      cases at_next.symm.trans here
      obtain ⟨none_in, none_out⟩ := housed.unused w.kernel.next free
      dsimp only
      rwa [none_in, none_out]
    · exact housed.content q held ((elsewhere at_q).symm.trans here)
  · intro q gone
    by_cases at_q : q = w.kernel.next
    · rw [at_q] at gone
      cases at_next.symm.trans gone
    · exact housed.unused q ((elsewhere at_q).symm.trans gone)
  · intro h a held
    obtain ⟨calm, there⟩ := housed.attached h a held
    refine ⟨calm, ?_⟩
    dsimp only
    by_cases at_q : a.shmid = w.kernel.next
    · rw [at_q, at_next]
      exact Option.some_ne_none shm
    · rwa [elsewhere at_q]

theorem housed_opened (housed : Housed w) (h : Nat) {key : Nat} {ele_size ele_count : Int}
    (made : Content (madeSegment ele_size ele_count) [] []) {outcome : Kernel × Option Nat}
    (opened : Opened w.kernel key ele_size ele_count outcome) :
    Housed { w with
      kernel := outcome.1
      handles := Cells.set w.handles h (outcome.2.map fun shmid => ⟨shmid, 0, ""⟩) } := by
  cases opened with
  | refused => exact housed_detach housed h
  | lost cleared =>
    have grounded := grounded_cleared housed.grounded cleared
    exact housed_detach (housed_keys housed grounded (cleared_same cleared).1) h
  | @blank k₁ cleared =>
    obtain ⟨segments, next⟩ := cleared_same cleared
    have grounded := grounded_create (grounded_cleared housed.grounded cleared) key
      (madeSegment ele_size ele_count).size ⟨(madeSegment ele_size ele_count).size, zeroHead⟩
    have blank : Content ⟨(madeSegment ele_size ele_count).size, zeroHead⟩ [] [] :=
      .blank rfl rfl rfl
    rw [segments, next] at grounded
    have alike : ({ (k₁.create key (madeSegment ele_size ele_count).size).1 with
        segments := Cells.set w.kernel.segments w.kernel.next
          (some ⟨(madeSegment ele_size ele_count).size, zeroHead⟩) } : Kernel) =
        (k₁.create key (madeSegment ele_size ele_count).size).1 := by
      unfold Kernel.create
      dsimp only
      rw [segments, next]
    exact alike ▸ housed_detach (housed_new housed grounded rfl blank) h
  | @kept q shm found held size count =>
    apply housed_handle housed h
    intro a same
    cases same
    exact ⟨rfl, find_held housed.grounded found⟩
  | @made k₁ cleared =>
    obtain ⟨segments, next⟩ := cleared_same cleared
    have grounded := grounded_create (grounded_cleared housed.grounded cleared) key
      (madeSegment ele_size ele_count).size (madeSegment ele_size ele_count)
    rw [segments, next] at grounded
    apply housed_handle (housed_new housed grounded rfl made) h
    intro a same
    cases same
    refine ⟨rfl, ?_⟩
    dsimp only
    rw [Cells.set_same]
    exact Option.some_ne_none _

theorem create_arguments {key : Nat} {ele_size ele_count : Int} {sq : Handle}
    (created : sqCreate key ele_size ele_count = .ok sq) :
    0 < ele_size ∧ RESERVE_BLOCK_COUNT < ele_count := by
  unfold sqCreate at created
  split at created
  · split at created <;> cases created
  · omega

theorem housed_create (housed : Housed w) (h key : Nat) {ele_size : Int} (ele_count : Int)
    (g : Grants) (int_size : ele_size ≤ 2 ^ 31 - 8) (small : ele_count < 2 ^ 30) :
    Housed (w.sqCreate h key ele_size ele_count g) := by
  unfold World.sqCreate
  cases arguments : sqCreate key ele_size ele_count with
  | error _ => exact housed_detach housed h
  | ok sq =>
    obtain ⟨size, count⟩ := create_arguments arguments
    exact housed_opened housed h (made_content size int_size count small)
      (open_shm_queue_cases w.kernel key ele_size ele_count g)

theorem open_shm_queue_open (k : Kernel) (key : Nat) (g : Grants) :
    k.openShmQueue key 0 0 false g = (k, if g.attach then k.find key else none) := by
  change Kernel.settle 0 0 0 false (k.attachShm key 0 false g) = _
  unfold Kernel.attachShm
  simp only [Bool.false_eq_true, if_false]
  cases found : k.find key with
  | none =>
    rw [ite_self]
    rfl
  | some q => cases g.attach <;> rfl

theorem housed_open (housed : Housed w) (h key : Nat) (g : Grants) :
    Housed (w.sqOpen h key g) := by
  unfold World.sqOpen
  rw [open_shm_queue_open]
  apply housed_handle housed h
  intro a same
  split at same
  · obtain ⟨q, found, here⟩ := Option.map_eq_some_iff.mp same
    cases here
    exact ⟨rfl, find_held housed.grounded found⟩
  · cases same

theorem housed_written (housed : Housed w) {h : Nat} {a : Attached} {shm : Segment} {log : Log}
    (at_h : w.handles h = some a) (calm : log.sq.rw_conflict = 0)
    (content : Content ⟨shm.size, log.sq.head⟩ log.accepted log.received) :
    Housed
      { kernel := { w.kernel with
          segments := Cells.set w.kernel.segments a.shmid (some ⟨shm.size, log.sq.head⟩) }
        handles := Cells.set w.handles h (some ⟨a.shmid, log.sq.rw_conflict, log.sq.errmsg⟩)
        accepted := Cells.set w.accepted a.shmid log.accepted
        received := Cells.set w.received a.shmid log.received } := by
  have there := (housed.attached h a at_h).2
  have still : ∀ {q}, w.kernel.segments q ≠ none →
      Cells.set w.kernel.segments a.shmid (some ⟨shm.size, log.sq.head⟩) q ≠ none := by
    intro q there
    by_cases here : q = a.shmid
    · rw [here, Cells.set_same]
      exact Option.some_ne_none _
    · rwa [Cells.set_other _ _ here]
  have before : ∀ {q}, Cells.set w.kernel.segments a.shmid
      (some ⟨shm.size, log.sq.head⟩) q = none → q ≠ a.shmid ∧ w.kernel.segments q = none := by
    intro q gone
    have other : q ≠ a.shmid := by
      rintro rfl
      rw [Cells.set_same] at gone
      cases gone
    exact ⟨other, (Cells.set_other _ _ other).symm.trans gone⟩
  refine ⟨⟨?_, ?_, housed.grounded.apart⟩, ?_, ?_, ?_⟩
  · intro q high
    have free := housed.grounded.below q high
    have other : q ≠ a.shmid := by
      rintro rfl
      exact there free
    exact (Cells.set_other _ _ other).trans free
  · intro key q leads
    exact still (housed.grounded.keyed key q leads)
  · intro q held' here
    dsimp only at here ⊢
    by_cases at_q : q = a.shmid
    · rw [at_q, Cells.set_same] at here
      cases here
      rw [at_q, Cells.set_same, Cells.set_same]
      exact content
    · rw [Cells.set_other _ _ at_q] at here
      rw [Cells.set_other _ _ at_q, Cells.set_other _ _ at_q]
      exact housed.content q held' here
  · intro q gone
    obtain ⟨other, free⟩ := before gone
    dsimp only
    rw [Cells.set_other _ _ other, Cells.set_other _ _ other]
    exact housed.unused q free
  · intro other a' held'
    dsimp only at held' ⊢
    by_cases here : other = h
    · rw [here, Cells.set_same] at held'
      cases held'
      exact ⟨calm, still there⟩
    · rw [Cells.set_other _ _ here] at held'
      obtain ⟨calm, there⟩ := housed.attached other a' held'
      exact ⟨calm, still there⟩

theorem housed_call (housed : Housed w) {h : Nat} {c : Call} (held : w.handles h ≠ none)
    (legal : c.Legal) : ∃ w', use w (.call h c) = some w' ∧ Housed w' := by
  obtain ⟨a, at_h⟩ := Option.ne_none_iff_exists'.mp held
  obtain ⟨calm, there⟩ := housed.attached h a at_h
  obtain ⟨shm, at_a⟩ := Option.ne_none_iff_exists'.mp there
  obtain ⟨log, done, calm', content⟩ :=
    content_call (housed.content a.shmid shm at_a) a.errmsg legal
  rw [← calm] at done
  change call (a.log w shm) c = some log at done
  have used : use w (.call h c) = some
      { kernel := { w.kernel with
          segments := Cells.set w.kernel.segments a.shmid (some ⟨shm.size, log.sq.head⟩) }
        handles := Cells.set w.handles h (some ⟨a.shmid, log.sq.rw_conflict, log.sq.errmsg⟩)
        accepted := Cells.set w.accepted a.shmid log.accepted
        received := Cells.set w.received a.shmid log.received } := by
    simp only [use, at_h, at_a, done, Option.bind_eq_bind, Option.bind_some]
  exact ⟨_, used, housed_written housed at_h calm' content⟩

theorem housed_use (housed : Housed w) {ev : Use} (legal : ev.Legal w) :
    ∃ w', use w ev = some w' ∧ Housed w' := by
  cases ev with
  | create h key ele_size ele_count g =>
    exact ⟨_, rfl, housed_create housed h key ele_count g legal.1 legal.2⟩
  | «open» h key g => exact ⟨_, rfl, housed_open housed h key g⟩
  | destroy h =>
    obtain ⟨a, held⟩ := Option.ne_none_iff_exists'.mp legal
    exact ⟨_, by rw [use, held]; rfl, housed_detach housed h⟩
  | call h c => exact housed_call housed legal.1 legal.2

theorem housed_play (housed : Housed w) (uses : List Use)
    (lawful : Histories.Lawful use Use.Legal uses w) :
    ∃ w', Histories.play use uses w = some w' ∧ Housed w' := by
  induction uses generalizing w with
  | nil => exact ⟨w, rfl, housed⟩
  | cons ev rest ih =>
    have legal := lawful [] ev w (List.prefix_iff_eq_append.mpr rfl) rfl
    obtain ⟨w', used, housed'⟩ := housed_use housed legal
    rw [Histories.play_cons used]
    exact ih housed' ((Histories.lawful_cons used).mp lawful).2

end Users

section Joining

variable {w : World} {key q : Nat} {ele_size ele_count : Int} {shm : Segment}

def Use.On (w : World) (q : Nat) : Use → Prop
  | .call h _ => ∃ a, w.handles h = some a ∧ a.shmid = q
  | _ => False

theorem opened_frame {k : Kernel} {outcome : Kernel × Option Nat} (grounded : Grounded k)
    (opened : Opened k key ele_size ele_count outcome) (held : k.segments q = some shm) :
    outcome.1.segments q = some shm := by
  have old : q ≠ k.next := by
    rintro rfl
    rw [grounded.below k.next (Nat.le_refl _)] at held
    cases held
  cases opened with
  | refused => exact held
  | lost cleared => exact (congrFun (cleared_same cleared).1 q).trans held
  | blank cleared =>
    obtain ⟨segments, next⟩ := cleared_same cleared
    rw [← next] at old
    exact (Cells.set_other _ _ old).trans ((congrFun segments q).trans held)
  | kept => exact held
  | made => exact (Cells.set_other _ _ old).trans held

theorem use_frame (housed : Housed w) {ev : Use} {w' : World} (used : use w ev = some w')
    (held : w.kernel.segments q = some shm) (off : ¬ ev.On w q) :
    w'.kernel.segments q = some shm ∧ w'.accepted q = w.accepted q ∧
      w'.received q = w.received q := by
  cases ev with
  | create h key ele_size ele_count g =>
    cases used
    unfold World.sqCreate
    split
    · exact ⟨held, rfl, rfl⟩
    · exact ⟨opened_frame housed.grounded
        (open_shm_queue_cases w.kernel key ele_size ele_count g) held, rfl, rfl⟩
  | «open» h key g =>
    cases used
    unfold World.sqOpen
    rw [open_shm_queue_open]
    exact ⟨held, rfl, rfl⟩
  | destroy h =>
    obtain ⟨a, _, same⟩ := Option.map_eq_some_iff.mp used
    cases same
    exact ⟨held, rfl, rfl⟩
  | call h c =>
    obtain ⟨a, at_h, used⟩ := Option.bind_eq_some_iff.mp used
    obtain ⟨shm', at_a, used⟩ := Option.bind_eq_some_iff.mp used
    obtain ⟨log, done, same⟩ := Option.bind_eq_some_iff.mp used
    cases same
    have other : q ≠ a.shmid := fun here => off ⟨a, at_h, here.symm⟩
    exact ⟨(Cells.set_other _ _ other).trans held, Cells.set_other _ _ other,
      Cells.set_other _ _ other⟩

/-- A segment as asked for: the one of the key, and then the kernel is as it was, or a new
    one. -/
theorem opened_attaches {k : Kernel} {outcome : Kernel × Option Nat}
    (opened : Opened k key ele_size ele_count outcome) (joined : outcome.2 = some q) :
    ∃ shm, outcome.1.segments q = some shm ∧ shm.head.ele_count = ele_count ∧
      (shm.head.ele_size = (ele_size + 7) / 8 * 8 ∧ k.find key = some q ∧ outcome.1 = k ∨
        shm = madeSegment ele_size ele_count ∧ q = k.next) := by
  cases opened with
  | refused => cases joined
  | lost cleared => cases joined
  | blank cleared => cases joined
  | kept found held size count =>
    cases joined
    exact ⟨_, held, count, .inl ⟨size, found, rfl⟩⟩
  | made cleared =>
    cases joined
    exact ⟨_, Cells.set_same _ _ _, rfl, .inr ⟨rfl, rfl⟩⟩

theorem sq_create_eq {sq : Handle} (good : sqCreate key ele_size ele_count = .ok sq) (h : Nat)
    (g : Grants) :
    (w.sqCreate h key ele_size ele_count g).kernel =
        (w.kernel.openShmQueue key ele_size ele_count true g).1 ∧
      (w.sqCreate h key ele_size ele_count g).handles h =
        (w.kernel.openShmQueue key ele_size ele_count true g).2.map fun shmid => ⟨shmid, 0, ""⟩ := by
  unfold World.sqCreate
  rw [good]
  exact ⟨rfl, Cells.set_same _ _ _⟩

theorem create_attaches (housed : Housed w) {h : Nat} {g : Grants} {a : Attached}
    (held : (w.sqCreate h key ele_size ele_count g).handles h = some a) :
    ∃ shm, (w.sqCreate h key ele_size ele_count g).kernel.segments a.shmid = some shm ∧
      shm.head.ele_count = ele_count ∧
      (shm.head.ele_size = (ele_size + 7) / 8 * 8 ∧ w.kernel.find key = some a.shmid ∧
          (w.sqCreate h key ele_size ele_count g).kernel = w.kernel ∨
        shm = madeSegment ele_size ele_count ∧ w.kernel.segments a.shmid = none ∧
          w.accepted a.shmid = [] ∧ w.received a.shmid = []) := by
  cases arguments : sqCreate key ele_size ele_count with
  | error _ =>
    unfold World.sqCreate at held
    rw [arguments] at held
    cases (Cells.set_same w.handles h none).symm.trans held
  | ok sq =>
    obtain ⟨kernel, handles⟩ := sq_create_eq arguments (w := w) h g
    rw [kernel]
    rw [handles] at held
    obtain ⟨q, joined, same⟩ := Option.map_eq_some_iff.mp held
    cases same
    obtain ⟨shm, there, count, found | ⟨made, new⟩⟩ :=
      opened_attaches (open_shm_queue_cases w.kernel key ele_size ele_count g) joined
    · exact ⟨shm, there, count, .inl found⟩
    · have free := housed.grounded.below q (Nat.le_of_eq new.symm)
      exact ⟨shm, there, count, .inr ⟨made, free, housed.unused q free⟩⟩

theorem new_joins_none {k : Kernel} (old : q ≠ k.next) (bytes : Nat) (g : Grants) :
    (Kernel.settle ele_size ele_count bytes true (k.attachNew key bytes g)).2 ≠ some q := by
  rcases attach_new_cases k key bytes g with outcome | outcome | outcome
  · rw [outcome]
    exact (Option.some_ne_none q).symm
  · rw [outcome]
    exact (Option.some_ne_none q).symm
  · rw [outcome]
    exact fun same => old (Option.some.inj same).symm

theorem open_joins_iff {k : Kernel} (grounded : Grounded k) (found : k.find key = some q)
    (held : k.segments q = some shm) (g : Grants) :
    (k.openShmQueue key ele_size ele_count true g).2 = some q ↔
      g.stat ∧ g.attach ∧ shm.size = (madeSegment ele_size ele_count).size ∧
        shm.head.ele_size = (ele_size + 7) / 8 * 8 ∧ shm.head.ele_count = ele_count := by
  have old : q ≠ k.next := by
    rintro rfl
    rw [grounded.below k.next (Nat.le_refl _)] at held
    cases held
  have bytes : k.sizeOf q = shm.size := by
    rw [Kernel.sizeOf, held]
    rfl
  change (Kernel.settle ((ele_size + 7) / 8 * 8) ele_count (madeSegment ele_size ele_count).size
    true (k.attachShm key (madeSegment ele_size ele_count).size true g)).2 = some q ↔ _
  unfold Kernel.attachShm
  rw [found]
  simp only [if_true, bytes]
  by_cases stat : g.stat
  · rw [if_neg (not_not.mpr stat)]
    by_cases same : shm.size = (madeSegment ele_size ele_count).size
    · rw [if_neg (not_not.mpr same)]
      by_cases attach : g.attach
      · rw [if_pos attach]
        unfold Kernel.settle
        simp only [if_true, held]
        by_cases geometry : shm.head.ele_size = (ele_size + 7) / 8 * 8 ∧
            shm.head.ele_count = ele_count
        · rw [if_neg (by rwa [not_or, not_not, not_not])]
          exact iff_of_true rfl ⟨stat, attach, same, geometry⟩
        · rw [if_pos (by rwa [← not_and_or])]
          exact iff_of_false (by simp) fun all => geometry all.2.2.2
      · rw [if_neg attach]
        exact iff_of_false (by simp [Kernel.settle]) fun all => attach all.2.1
    · rw [if_pos same]
      apply iff_of_false _ fun all => same all.2.2.1
      split
      · exact new_joins_none (k := k.remove key) old _ g
      · exact (Option.some_ne_none q).symm
  · rw [if_pos stat]
    exact iff_of_false (by simp [Kernel.settle]) fun all => stat all.1

/-- A create joins the queue of its key exactly if it asks for this very geometry. -/
theorem create_joins_iff (housed : Housed w) (size : 0 < ele_size)
    (count : RESERVE_BLOCK_COUNT < ele_count) (found : w.kernel.find key = some q)
    (held : w.kernel.segments q = some shm) (h : Nat) (g : Grants) :
    (w.sqCreate h key ele_size ele_count g).handles h = some ⟨q, 0, ""⟩ ↔
      g.stat ∧ g.attach ∧ shm.head.ele_size = (ele_size + 7) / 8 * 8 ∧
        shm.head.ele_count = ele_count := by
  have public_key : key ≠ 0 := by
    rintro rfl
    cases found
  have good : ¬ (ele_size ≤ 0 ∨ ele_count ≤ RESERVE_BLOCK_COUNT ∨ key = 0) := by omega
  obtain ⟨_, handles⟩ := sq_create_eq (w := w) (if_neg good) h g
  have joins : (w.sqCreate h key ele_size ele_count g).handles h = some ⟨q, 0, ""⟩ ↔
      (w.kernel.openShmQueue key ele_size ele_count true g).2 = some q := by
    rw [handles]
    constructor
    · intro joined
      obtain ⟨q', result, same⟩ := Option.map_eq_some_iff.mp joined
      rw [result, (Attached.mk.inj same).1]
    · intro result
      rw [result]
      rfl
  rw [joins, open_joins_iff housed.grounded found held]
  constructor
  · rintro ⟨stat, attach, _, geometry⟩
    exact ⟨stat, attach, geometry⟩
  · rintro ⟨stat, attach, same_size, same_count⟩
    refine ⟨stat, attach, ?_, same_size, same_count⟩
    cases housed.content q shm held with
    | blank head none_in none_out =>
      rw [head] at same_size
      change 0 = (ele_size + 7) / 8 * 8 at same_size
      omega
    | ring sized small rest =>
      rw [sized, same_size, same_count]
      rfl

end Joining

/-- Every lawful history of creates, opens, destroys and calls is carried out. All along,
    each segment is a queue of its own, whoever is attached to it: what is got from it is
    the first part of what was put to it. -/
theorem queues_outlive_their_users (uses : List Use)
    (lawful : Histories.Lawful use Use.Legal uses World.start) :
    ∃ w, Histories.play use uses World.start = some w ∧
      (∀ q, w.received q <+: w.accepted q) ∧
      (∀ h a, w.handles h = some a → ∃ shm, w.kernel.segments a.shmid = some shm ∧
        Serves (a.log w shm).sq (w.accepted a.shmid) (w.received a.shmid) ∧
        FitsInts (a.log w shm).sq) ∧
      (∀ ev w' q shm, use w ev = some w' → w.kernel.segments q = some shm → ¬ ev.On w q →
        w'.kernel.segments q = some shm ∧ w'.accepted q = w.accepted q ∧
          w'.received q = w.received q) ∧
      (∀ h key ele_size ele_count g a,
        (w.sqCreate h key ele_size ele_count g).handles h = some a →
          ∃ shm, (w.sqCreate h key ele_size ele_count g).kernel.segments a.shmid = some shm ∧
            shm.head.ele_count = ele_count ∧
            (shm.head.ele_size = (ele_size + 7) / 8 * 8 ∧ w.kernel.find key = some a.shmid ∧
                (w.sqCreate h key ele_size ele_count g).kernel = w.kernel ∨
              shm = madeSegment ele_size ele_count ∧ w.kernel.segments a.shmid = none ∧
                w.accepted a.shmid = [] ∧ w.received a.shmid = [])) ∧
      ∀ h key ele_size ele_count g q shm, 0 < ele_size → RESERVE_BLOCK_COUNT < ele_count →
        w.kernel.find key = some q → w.kernel.segments q = some shm →
          ((w.sqCreate h key ele_size ele_count g).handles h = some ⟨q, 0, ""⟩ ↔
            g.stat ∧ g.attach ∧ shm.head.ele_size = (ele_size + 7) / 8 * 8 ∧
              shm.head.ele_count = ele_count) := by
  obtain ⟨w, played, housed⟩ := housed_play housed_start uses lawful
  refine ⟨w, played, ?_, ?_, ?_, ?_, ?_⟩
  · intro q
    cases held : w.kernel.segments q with
    | none =>
      rw [(housed.unused q held).2]
      exact List.nil_prefix
    | some shm => exact content_prefix (housed.content q shm held)
  · intro h a held
    obtain ⟨calm, there⟩ := housed.attached h a held
    obtain ⟨shm, at_a⟩ := Option.ne_none_iff_exists'.mp there
    refine ⟨shm, at_a, ?_⟩
    have serves := content_serves (housed.content a.shmid shm at_a) a.errmsg
    have fits := content_fits (housed.content a.shmid shm at_a) a.errmsg
    rw [← calm] at serves fits
    exact ⟨serves, fits⟩
  · intro ev w' q shm used held off
    exact use_frame housed used held off
  · intro h key ele_size ele_count g a held
    exact create_attaches housed held
  · intro h key ele_size ele_count g q shm size count found held
    exact create_joins_iff housed size count found held h g

/-- The writer leaves and another one takes its key for a larger queue; the reader still gets
    the message. -/
theorem reader_keeps_the_removed_queue :
    ∃ w, Histories.play use
        [.create 0 7 8 201 ⟨true, true, true, true⟩, .open 1 7 ⟨true, true, true, true⟩,
          .call 0 (.put ⟨0, 0⟩ (fun _ => 1) 40), .destroy 0,
          .create 2 7 60000 301 ⟨true, true, true, true⟩, .call 1 (.get 65536)]
        World.start = some w ∧ w.received 0 <+: w.accepted 0 := by
  obtain ⟨w, played, fifo, _⟩ := queues_outlive_their_users
    [.create 0 7 8 201 ⟨true, true, true, true⟩, .open 1 7 ⟨true, true, true, true⟩,
      .call 0 (.put ⟨0, 0⟩ (fun _ => 1) 40), .destroy 0,
      .create 2 7 60000 301 ⟨true, true, true, true⟩, .call 1 (.get 65536)]
    (by decide +kernel)
  exact ⟨w, played, fifo 0⟩

end UC.ShmQueue
