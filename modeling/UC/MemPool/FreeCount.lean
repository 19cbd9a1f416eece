import Mathlib.Data.List.Dedup
import UC.MemPool.Partition

/- freeCount against the blocks that are not handed out. Xpool_block does not add the blocks it
   makes to the counter, and a block that is handed out a second time is subtracted twice. -/
namespace UC.MemPool
open UC.Memory UC.Chains UC.Histories

/-- The blocks that are allocated, each counted once. -/
def allocatedBlocks (s : State) : List Nat := (s.allocated.map Region.start).dedup

def CountExact (s : State) : Prop :=
  s.crashed = false ∧
    (s.pool.memory.freeCount.toNat : Int) = s.created.length - (allocatedBlocks s).length

/-- Some block is free, and the first one is not allocated. -/
def Supplied (s : State) : Event → Prop
  | .alloc _ _ _ => ∃ block, s.pool.memory.freeHead = some block ∧
    block + sizeofPointer ∉ s.allocated.map Region.start
  | .free _ => True

/-- Links from freeHead on lead to blocks of the pool, and tails are there when they are needed. -/
structure Closed (p : Pool) (created : List Nat) : Prop where
  head : ∀ a, p.memory.freeHead = some a → a ∈ created
  links : ∀ a b, (p.blocks a).pNext = some b → b ∈ created
  free_last : created ≠ [] → p.memory.freeTail ≠ none
  used_last : p.memory.usedHead ≠ none → p.memory.usedTail ≠ none

/-- No event but growth changes the sizes, and allocated blocks are different blocks. -/
structure Counted (s : State) : Prop where
  closed : Closed s.pool s.created
  used_last : s.allocated ≠ [] → s.pool.memory.usedTail ≠ none
  once : (s.allocated.map Region.start).Nodup
  handed : ∀ ptr ∈ s.allocated.map Region.start, ∃ block ∈ s.created, ptr = block + sizeofPointer
  positive : ∀ block ∈ s.created, 0 < block
  few : s.created.length < 4294967296
  exact : s.pool.memory.freeCount.toNat + s.allocated.length = s.created.length
  step : s.pool.memory.blockCountStep = 100
  alive : s.crashed = false

/-- What a call of Xpool_block leaves as it is. -/
structure Extends (m m' : MemoryPool) : Prop extends SameSizes m m' where
  freeCount : m'.freeCount = m.freeCount
  usedHead : m'.usedHead = m.usedHead
  usedTail : m'.usedTail = m.usedTail

section Links
variable {blocks : Mem MemoryBlock} {cell : MemoryBlock} {a b c tail x : Nat}

theorem stored_link (ends : cell.pNext = none) (link : (store blocks a cell x).pNext = some b) :
    (blocks x).pNext = some b := by
  by_cases here : x = a
  · rw [here, store_same, ends] at link
    cases link
  · rwa [store_other _ _ here] at link

theorem joined_link (ends : cell.pNext = none)
    (link : (setNext (store blocks a cell) tail (some c) x).pNext = some b) :
    b = c ∨ (blocks x).pNext = some b := by
  rw [set_next_next] at link
  split at link
  · exact Or.inl (Option.some.inj link).symm
  · exact Or.inr (stored_link ends link)

end Links

section Growth
variable {p : Pool} {created : List Nat}

theorem add_block_closed (closed : Closed p created) (blockSize i : Nat) :
    ∃ p', addBlock blockSize p i = some p' ∧ Extends p.memory p'.memory ∧
      p'.memory.freeHead ≠ none ∧
      Closed p' (created ++ [p.memory.pBlockMemoryHead + sizeofMemoryBlock * i]) := by
  cases head : p.memory.freeHead with
  | none =>
    refine ⟨_, add_block_first head blockSize i, ⟨⟨rfl, rfl, rfl⟩, rfl, rfl, rfl⟩, nofun, ?_⟩
    refine ⟨?_, ?_, fun _ => nofun, closed.used_last⟩
    · intro a first
      cases first
      simp
    · intro a b link
      exact List.mem_append_left _ (closed.links a b (stored_link rfl link))
  | some first =>
    have some_block : created ≠ [] := by
      intro empty
      have inside := closed.head first head
      rw [empty] at inside
      cases inside
    obtain ⟨tail, last⟩ := Option.ne_none_iff_exists'.mp (closed.free_last some_block)
    refine ⟨_, add_block_more head last blockSize i, ⟨⟨rfl, rfl, rfl⟩, rfl, rfl, rfl⟩, ?_, ?_⟩
    · dsimp only
      rw [head]
      exact nofun
    · refine ⟨?_, ?_, fun _ => nofun, closed.used_last⟩
      · intro a there
        exact List.mem_append_left _ (closed.head a there)
      · intro a b link
        rcases joined_link rfl link with rfl | old
        · simp
        · exact List.mem_append_left _ (closed.links a b old)

theorem add_blocks_closed (rounds : List Nat) (blockSize : Nat) (closed : Closed p created) :
    ∃ p', rounds.foldlM (addBlock blockSize) p = some p' ∧ Extends p.memory p'.memory ∧
      (p.memory.freeHead ≠ none ∨ rounds ≠ [] → p'.memory.freeHead ≠ none) ∧
      Closed p' (created ++ roundBlocks p rounds) := by
  induction rounds generalizing p created with
  | nil =>
    refine ⟨p, rfl, ⟨⟨rfl, rfl, rfl⟩, rfl, rfl, rfl⟩, ?_, by simpa [roundBlocks] using closed⟩
    rintro (head | other)
    · exact head
    · exact absurd rfl other
  | cons i rounds ih =>
    obtain ⟨p', added, same, head, closed'⟩ := add_block_closed closed blockSize i
    obtain ⟨p'', rest, same', head', closed''⟩ := ih closed'
    refine ⟨p'', ?_, ?_, fun _ => head' (Or.inl head), ?_⟩
    · rw [List.foldlM_cons, added]
      exact rest
    · exact ⟨same_sizes_trans same.toSameSizes same'.toSameSizes,
        same'.freeCount.trans same.freeCount, same'.usedHead.trans same.usedHead,
        same'.usedTail.trans same.usedTail⟩
    · rw [round_blocks_same same.toSameSizes, List.append_assoc] at closed''
      exact closed''

theorem xpool_block_closed (closed : Closed p created)
    (count size blockMemory dataMemory : Nat) :
    ∃ p', Xpool_block count size blockMemory dataMemory p = some p' ∧
      p'.memory.blockCountStep = p.memory.blockCountStep ∧
      p'.memory.freeCount = p.memory.freeCount ∧ (0 < count → p'.memory.freeHead ≠ none) ∧
      Closed p' (created ++ headers count blockMemory) := by
  have set_heads : Closed { p with memory := { p.memory with
      pBlockMemoryHead := blockMemory, pDataMemoryHead := dataMemory } } created :=
    ⟨closed.head, closed.links, closed.free_last, closed.used_last⟩
  obtain ⟨p', added, same, head, closed'⟩ :=
    add_blocks_closed (List.range count) size set_heads
  refine ⟨p', added, same.blockCountStep, same.freeCount, ?_, closed'⟩
  intro some_round
  apply head
  right
  rw [ne_eq, List.range_eq_nil]
  omega

end Growth

structure Takes (p p' : Pool) (block : Nat) : Prop where
  freeHead : p'.memory.freeHead = (p.blocks block).pNext
  freeTail : p'.memory.freeTail = p.memory.freeTail
  usedTail : p'.memory.usedTail = some block
  freeCount : p'.memory.freeCount = p.memory.freeCount - 1
  blockCountStep : p'.memory.blockCountStep = p.memory.blockCountStep
  links : ∀ a b, (p'.blocks a).pNext = some b → b = block ∨ (p.blocks a).pNext = some b

structure Frees (p p' : Pool) (block : Nat) : Prop where
  freeHead : p'.memory.freeHead = p.memory.freeHead
  freeTail : p'.memory.freeTail = some block
  usedTail : p.memory.usedTail ≠ none → p'.memory.usedTail ≠ none
  freeCount : p'.memory.freeCount = p.memory.freeCount + 1
  blockCountStep : p'.memory.blockCountStep = p.memory.blockCountStep
  links : ∀ a b, (p'.blocks a).pNext = some b → b = block ∨ ∃ c, (p.blocks c).pNext = some b

section Calls
variable {p p' : Pool} {created : List Nat} {block : Nat}

theorem take_block_takes (closed : Closed p created) (head : p.memory.freeHead = some block) :
    ∃ p', takeBlock p = some (p', block + sizeofPointer) ∧ Takes p p' block := by
  cases used : p.memory.usedHead with
  | none =>
    refine ⟨_, take_block_first head used, rfl, rfl, rfl, rfl, rfl, ?_⟩
    intro a b link
    exact Or.inr (stored_link rfl link)
  | some first =>
    have some_used : p.memory.usedHead ≠ none := by
      rw [used]
      exact nofun
    obtain ⟨tail, last⟩ := Option.ne_none_iff_exists'.mp (closed.used_last some_used)
    refine ⟨_, take_block_more head used last, rfl, rfl, rfl, rfl, rfl, ?_⟩
    intro a b link
    exact joined_link rfl link

theorem unlink_block_links {a b : Nat} (link : ((unlinkBlock p block).blocks a).pNext = some b) :
    ∃ c, (p.blocks c).pNext = some b := by
  cases before : (p.blocks block).pPrev with
  | none =>
    cases behind : (p.blocks block).pNext with
    | none =>
      simp only [unlinkBlock, before, behind] at link
      exact ⟨a, link⟩
    | some next =>
      simp only [unlinkBlock, before, behind, set_prev_next] at link
      exact ⟨a, link⟩
  | some prev =>
    cases behind : (p.blocks block).pNext with
    | none =>
      simp only [unlinkBlock, before, behind, set_next_next] at link
      split at link
      · cases link
      · exact ⟨a, link⟩
    | some next =>
      simp only [unlinkBlock, before, behind, set_prev_next, set_next_next] at link
      split at link
      · exact ⟨block, behind.trans link⟩
      · exact ⟨a, link⟩

theorem unlink_block_memory (p : Pool) (block : Nat) :
    (unlinkBlock p block).memory.freeTail = p.memory.freeTail ∧
      (unlinkBlock p block).memory.freeCount = p.memory.freeCount ∧
      (p.memory.usedTail ≠ none → (unlinkBlock p block).memory.usedTail ≠ none) := by
  unfold unlinkBlock
  split
  · exact ⟨rfl, rfl, id⟩
  · exact ⟨rfl, rfl, id⟩
  · exact ⟨rfl, rfl, fun _ => nofun⟩
  · exact ⟨rfl, rfl, id⟩

theorem xpool_free_frees (high : 0 < block) (some_last : p.memory.freeTail ≠ none) :
    ∃ p', Xpool_free p (block + sizeofPointer) = some p' ∧ Frees p p' block := by
  obtain ⟨free_tail, free_count, used_tail⟩ := unlink_block_memory p block
  obtain ⟨tail, last⟩ := Option.ne_none_iff_exists'.mp some_last
  have address : block + sizeofPointer - sizeofPointer = block := Nat.add_sub_cancel _ _
  have given : block ≠ 0 := by omega
  simp only [Xpool_free, address, given, if_false, free_tail, last, Option.map_some]
  refine ⟨_, rfl, unlink_block_free_head p block, rfl, used_tail, ?_, unlink_block_step p block, ?_⟩
  · dsimp only
    rw [free_count]
  · intro a b link
    rcases joined_link rfl link with joined | old
    · exact Or.inl joined
    · exact Or.inr (unlink_block_links old)

end Calls

section Steps
variable {s t : State}

theorem count_exact (s : State) (counted : Counted s) : CountExact s := by
  have distinct := List.dedup_eq_self.mpr counted.once
  refine ⟨counted.alive, ?_⟩
  rw [allocatedBlocks, distinct, List.length_map]
  have exact := counted.exact
  omega

theorem pred_to_nat (freeCount : UInt32) :
    (freeCount - 1).toNat = (freeCount.toNat + 4294967295) % 4294967296 := by
  rw [UInt32.toNat_sub, Nat.add_comm]
  rfl

/-- A block that is not allocated leaves room among those created. -/
theorem room_left (counted : Counted s) {block : Nat} (inside : block ∈ s.created)
    (other : block + sizeofPointer ∉ s.allocated.map Region.start) :
    s.allocated.length < s.created.length := by
  have once : ((block + sizeofPointer) :: s.allocated.map Region.start).Nodup :=
    List.nodup_cons.mpr ⟨other, counted.once⟩
  have part : (block + sizeofPointer) :: s.allocated.map Region.start ⊆
      s.created.map (· + sizeofPointer) := by
    intro ptr member
    rcases List.mem_cons.mp member with rfl | old
    · exact List.mem_map_of_mem inside
    · obtain ⟨used, there, rfl⟩ := counted.handed ptr old
      exact List.mem_map_of_mem there
  have fewer := List.Nodup.length_le_of_subset once part
  rw [List.length_cons, List.length_map, List.length_map] at fewer
  exact fewer

theorem counted_alloc (counted : Counted s) {size blockMemory dataMemory : Nat}
    (supplied : Supplied s (.alloc size blockMemory dataMemory))
    (taken : step s (.alloc size blockMemory dataMemory) = some t) : Counted t := by
  obtain ⟨block, head, other⟩ := supplied
  obtain ⟨pool, ran, takes⟩ := take_block_takes counted.closed head
  have some_free : s.pool.memory.freeHead ≠ none := by
    rw [head]
    exact Option.some_ne_none block
  have inside := counted.closed.head block head
  have room := room_left counted inside other
  rw [alloc_taken taken some_free ran]
  refine ⟨⟨?_, ?_, ?_, ?_⟩, ?_, ?_, ?_, counted.positive, counted.few, ?_, ?_, counted.alive⟩
  · intro a first
    rw [takes.freeHead] at first
    exact counted.closed.links block a first
  · intro a b link
    rcases takes.links a b link with rfl | old
    · exact inside
    · exact counted.closed.links a b old
  · intro some_block
    rw [takes.freeTail]
    exact counted.closed.free_last some_block
  · rw [takes.usedTail]
    exact fun _ => nofun
  · rw [takes.usedTail]
    exact fun _ => nofun
  · exact List.nodup_cons.mpr ⟨other, counted.once⟩
  · intro ptr member
    rcases List.mem_cons.mp member with rfl | old
    · exact ⟨block, inside, rfl⟩
    · exact counted.handed ptr old
  · have exact := counted.exact
    have few := counted.few
    rw [takes.freeCount, pred_to_nat, List.length_cons]
    dsimp only
    omega
  · rw [takes.blockCountStep]
    exact counted.step

theorem counted_free (counted : Counted s) {ptr : Nat} (taken : step s (.free ptr) = some t) :
    Counted t := by
  obtain ⟨_, given, result⟩ := free_taken taken
  obtain ⟨block, inside, rfl⟩ := counted.handed ptr given
  have some_block : s.created ≠ [] := List.ne_nil_of_mem inside
  have some_used : s.allocated ≠ [] := by
    intro empty
    rw [empty] at given
    cases given
  obtain ⟨pool, ran, frees⟩ :=
    xpool_free_frees (counted.positive block inside) (counted.closed.free_last some_block)
  have used_tail := frees.usedTail (counted.used_last some_used)
  rcases result with ⟨failed, _⟩ | ⟨pool', ran', rfl⟩
  · rw [failed] at ran
    cases ran
  · cases ran.symm.trans ran'
    have starts := erase_starts s.allocated (block + sizeofPointer)
    have fewer := List.length_erase_of_mem given
    rw [← starts, List.length_map, List.length_map] at fewer
    refine ⟨⟨?_, ?_, ?_, fun _ => used_tail⟩, fun _ => used_tail, ?_, ?_, counted.positive,
      counted.few, ?_, ?_, counted.alive⟩
    · intro a first
      rw [frees.freeHead] at first
      exact counted.closed.head a first
    · intro a b link
      rcases frees.links a b link with rfl | ⟨c, old⟩
      · exact inside
      · exact counted.closed.links c b old
    · rw [frees.freeTail]
      exact fun _ => nofun
    · rw [starts]
      exact counted.once.erase _
    · intro ptr member
      rw [starts] at member
      exact counted.handed ptr (List.mem_of_mem_erase member)
    · have exact := counted.exact
      have few := counted.few
      have some_start := List.length_pos_iff.mpr some_used
      rw [frees.freeCount, UInt32.toNat_add, fewer]
      dsimp only
      change (s.pool.memory.freeCount.toNat + 1) % 4294967296 + _ = _
      omega
    · rw [frees.blockCountStep]
      exact counted.step

/-- The counter is one less, but the pool has grown, or the block was allocated already. -/
theorem short_count (counted : Counted s) {block size : Nat}
    (taken : t.pool.memory.freeCount = s.pool.memory.freeCount - 1)
    (handed : t.allocated = ⟨block + sizeofPointer, size⟩ :: s.allocated)
    (blocks : t.created.length = s.created.length + 100 ∨ t.created.length = s.created.length ∧
      block + sizeofPointer ∈ s.allocated.map Region.start) : ¬ CountExact t := by
  rintro ⟨_, same⟩
  have exact := counted.exact
  have few := counted.few
  have distinct := List.dedup_eq_self.mpr counted.once
  rw [taken, pred_to_nat, allocatedBlocks, handed, List.map_cons] at same
  by_cases again : block + sizeofPointer ∈ s.allocated.map Region.start
  · rw [List.dedup_cons_of_mem again, distinct, List.length_map] at same
    omega
  · rw [List.dedup_cons_of_notMem again, distinct, List.length_cons, List.length_map] at same
    have grown := blocks.resolve_right fun other => again other.2
    omega

theorem counted_lost (counted : Counted s) {size blockMemory dataMemory : Nat}
    (bare : ¬ Supplied s (.alloc size blockMemory dataMemory))
    (taken : step s (.alloc size blockMemory dataMemory) = some t) : ¬ CountExact t := by
  cases head : s.pool.memory.freeHead with
  | none =>
    obtain ⟨_, grows⟩ := alloc_grown taken head
    obtain ⟨grown, added, _, same_count, some_free, closed⟩ := xpool_block_closed counted.closed
      s.pool.memory.blockCountStep s.pool.memory.blockSize blockMemory dataMemory
    have some_step : 0 < s.pool.memory.blockCountStep := by
      rw [counted.step]
      exact Nat.succ_pos 99
    obtain ⟨block, first⟩ := Option.ne_none_iff_exists'.mp (some_free some_step)
    obtain ⟨pool, ran, takes⟩ := take_block_takes closed first
    rw [grows grown pool _ added ran]
    apply @short_count s _ counted block size
    · rw [takes.freeCount, same_count]
    · rfl
    · left
      change (s.created ++ headers _ blockMemory).length = _
      rw [List.length_append, headers, List.length_map, List.length_range, counted.step]
  | some block =>
    have again : block + sizeofPointer ∈ s.allocated.map Region.start := by
      by_contra other
      exact bare ⟨block, head, other⟩
    obtain ⟨pool, ran, takes⟩ := take_block_takes counted.closed head
    have some_free : s.pool.memory.freeHead ≠ none := by
      rw [head]
      exact Option.some_ne_none block
    rw [alloc_taken taken some_free ran]
    exact @short_count s _ counted block size takes.freeCount rfl (Or.inr ⟨rfl, again⟩)

end Steps

theorem counted_step (s : State) (ev : Event) (t : State) (counted : Counted s)
    (supplied : Supplied s ev) (taken : step s ev = some t) : Counted t := by
  cases ev with
  | alloc size blockMemory dataMemory => exact counted_alloc counted supplied taken
  | free ptr => exact counted_free counted taken

theorem bare_step (s : State) (ev : Event) (t : State) (counted : Counted s)
    (bare : ¬ Supplied s ev) (taken : step s ev = some t) : ¬ CountExact t := by
  cases ev with
  | alloc size blockMemory dataMemory => exact counted_lost counted bare taken
  | free ptr => exact absurd trivial bare

section Start
variable {blockCount : UInt32} {blockSize blockMemory dataMemory : Nat} {start : State}

theorem empty_pool_closed (blockCount blockSize : Nat) : Closed (emptyPool blockCount blockSize) [] :=
  ⟨nofun, nofun, fun some_block => absurd rfl some_block, fun some_used => absurd rfl some_used⟩

theorem counted_init
    (init : Xpool_init blockCount.toNat blockSize blockMemory dataMemory = some start) :
    Counted start := by
  obtain ⟨pool, added, step, same_count, _, closed⟩ :=
    xpool_block_closed (empty_pool_closed blockCount.toNat blockSize) blockCount.toNat blockSize
      blockMemory dataMemory
  simp only [Xpool_init, added] at init
  split at init
  · rename_i fresh
    simp only [Option.some.injEq] at init
    subst init
    have created : (headers blockCount.toNat blockMemory).length = blockCount.toNat := by
      rw [headers, List.length_map, List.length_range]
    have few := blockCount.toNat_lt
    refine ⟨closed, fun some_allocated => absurd rfl some_allocated, List.nodup_nil, ?_, ?_, ?_,
      ?_, step, rfl⟩
    · intro ptr member
      cases member
    · intro block inside
      exact Nat.lt_of_lt_of_le fresh.1 (mem_headers inside).1
    · change (headers _ _).length < _
      rw [created]
      exact few
    · change pool.memory.freeCount.toNat + 0 = (headers _ _).length
      rw [same_count, created]
      exact congrArg UInt32.toNat UInt32.ofNat_toNat
  · cases init

/-- Exactly the histories in which every allocation meets a free block that is not allocated keep
    the counter exact. -/
theorem free_count_iff (blockCount : UInt32) (blockSize blockMemory dataMemory : Nat)
    (start : State)
    (init : Xpool_init blockCount.toNat blockSize blockMemory dataMemory = some start)
    (history : List Event) (possible : (play step history start).isSome) :
    Always step CountExact history start ↔ Lawful step Supplied history start :=
  always_iff_lawful count_exact counted_step bare_step history (counted_init init) possible

end Start

instance (s : State) : (ev : Event) → Decidable (Supplied s ev)
  | .alloc _ _ _ => inferInstanceAs (Decidable (∃ block ∈ s.pool.memory.freeHead, _))
  | .free _ => .isTrue trivial

/-- The last of four blocks is handed out, and two come back. -/
theorem four_blocks_counted :
    ∃ start, Xpool_init (4 : UInt32).toNat 16 1000 2000 = some start ∧ Always step CountExact
      [.alloc 4 0 0, .alloc 4 0 0, .alloc 4 0 0, .free 1032, .alloc 4 0 0, .alloc 4 0 0] start :=
  ⟨_, rfl, (free_count_iff 4 16 1000 2000 _ rfl _ (by decide)).mpr (by decide)⟩

/-- A pool of one block grows: freeCount wraps around to 2^32 - 1. -/
theorem growth_not_counted :
    ¬ ∀ (blockCount : UInt32) (blockSize blockMemory dataMemory : Nat) (start : State)
      (history : List Event),
      Xpool_init blockCount.toNat blockSize blockMemory dataMemory = some start →
      (play step history start).isSome → Always step CountExact history start := by
  intro claim
  have always := claim 1 16 1000 2000 _ [.alloc 4 0 0, .alloc 4 5000 9000] rfl (by decide)
  have exact := (always _ _ List.prefix_rfl rfl).2
  revert exact
  decide

end UC.MemPool
