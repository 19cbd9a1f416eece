import UC.MemPool.Lists

/- The two lists partition the blocks in exactly the histories in which a block is freed only
   while another one is free, and the head of the used list only while it has no pPrev: the
   tails are not reset when a list runs empty. -/
namespace UC.MemPool
open UC.Memory UC.Chains UC.DoublyLinked UC.Histories

/-- Freeing meets a free block, and a head without pPrev. -/
def Careful (s : State) : Event → Prop
  | .alloc _ _ _ => True
  | .free ptr => s.pool.memory.freeHead ≠ none ∧
    (s.pool.memory.usedHead = some (ptr - sizeofPointer) →
      (s.pool.blocks (ptr - sizeofPointer)).pPrev = none)

structure Ordered (s : State) (free used : List Nat) : Prop where
  lists : Lists s.pool free used
  all : (free ++ used).Perm s.created
  handed : (s.allocated.map Region.start).Perm (used.map (· + sizeofPointer))
  inside : ∀ a ∈ s.created, ∃ r ∈ s.blockRegions,
    0 < r.start ∧ r.start ≤ a ∧ a + sizeofMemoryBlock ≤ r.start + r.len
  step : 0 < s.pool.memory.blockCountStep
  alive : s.crashed = false

def Inv (s : State) : Prop := ∃ free used, Ordered s free used

theorem mem_headers {count blockMemory a : Nat} (inside : a ∈ headers count blockMemory) :
    blockMemory ≤ a ∧ a + sizeofMemoryBlock ≤ blockMemory + sizeofMemoryBlock * count := by
  simp only [headers, List.mem_map, List.mem_range] at inside
  obtain ⟨i, below, rfl⟩ := inside
  simp only [sizeofMemoryBlock]
  omega

section Growth
variable {s : State} {count size blockMemory dataMemory : Nat}

theorem headers_fresh
    (fresh : Fresh s (blockRegion count blockMemory) (dataRegion count size dataMemory))
    (inside : ∀ a ∈ s.created, ∃ r ∈ s.blockRegions,
      0 < r.start ∧ r.start ≤ a ∧ a + sizeofMemoryBlock ≤ r.start + r.len) :
    ∀ a ∈ headers count blockMemory, a ∉ s.created := by
  intro a new old
  have bounds := mem_headers new
  obtain ⟨r, region, _, low, high⟩ := inside a old
  have apart := (fresh.2.2.2 r (List.mem_append_left _ region)).1
  simp only [Region.Apart, blockRegion, sizeofMemoryBlock] at apart bounds high
  omega

theorem headers_inside
    (fresh : Fresh s (blockRegion count blockMemory) (dataRegion count size dataMemory))
    (inside : ∀ a ∈ s.created, ∃ r ∈ s.blockRegions,
      0 < r.start ∧ r.start ≤ a ∧ a + sizeofMemoryBlock ≤ r.start + r.len) :
    ∀ a ∈ (s.more count size blockMemory dataMemory).created,
      ∃ r ∈ (s.more count size blockMemory dataMemory).blockRegions,
        0 < r.start ∧ r.start ≤ a ∧ a + sizeofMemoryBlock ≤ r.start + r.len := by
  intro a member
  rcases List.mem_append.mp member with old | new
  · obtain ⟨r, region, bounds⟩ := inside a old
    exact ⟨r, List.mem_cons_of_mem _ region, bounds⟩
  · exact ⟨_, List.mem_cons_self, fresh.1, mem_headers new⟩

end Growth

section Steps
variable {s t : State} {free used : List Nat}

theorem ordered_take {block : Nat} {rest : List Nat} (ordered : Ordered s (block :: rest) used)
    (size : Nat) : ∃ pool, takeBlock s.pool = some (pool, block + sizeofPointer) ∧
      Ordered { s with pool := pool, allocated := ⟨block + sizeofPointer, size⟩ :: s.allocated }
        rest (used ++ [block]) := by
  obtain ⟨pool, ran, step, lists⟩ := take_block_lists ordered.lists
  refine ⟨pool, ran, lists, ?_, ?_, ordered.inside, ?_, ordered.alive⟩
  · refine List.Perm.trans ?_ ordered.all
    rw [← List.append_assoc]
    exact List.perm_append_comm
  · rw [List.map_cons, List.map_append]
    exact (ordered.handed.cons _).trans (@List.perm_append_comm _ [_] _)
  · rw [step]
    exact ordered.step

theorem inv_alloc (inv : Inv s) {size blockMemory dataMemory : Nat}
    (taken : step s (.alloc size blockMemory dataMemory) = some t) : Inv t := by
  obtain ⟨free, used, ordered⟩ := inv
  cases free with
  | cons block rest =>
    have head : s.pool.memory.freeHead = some block := ordered.lists.free_head.symm
    obtain ⟨pool, ran, after⟩ := ordered_take ordered size
    rw [alloc_taken taken (by simp [head]) ran]
    exact ⟨rest, used ++ [block], after⟩
  | nil =>
    obtain ⟨fresh, taken⟩ := alloc_grown taken ordered.lists.free_head.symm
    have new := headers_fresh fresh ordered.inside
    obtain ⟨grown, added, step, lists⟩ := xpool_block_lists ordered.lists
      s.pool.memory.blockCountStep s.pool.memory.blockSize blockMemory dataMemory (by
        intro a member old
        exact new a member (ordered.all.subset old))
    have after : Ordered { s.more s.pool.memory.blockCountStep s.pool.memory.blockSize
        blockMemory dataMemory with pool := grown }
        (headers s.pool.memory.blockCountStep blockMemory) used := by
      refine ⟨lists, ?_, ordered.handed, headers_inside fresh ordered.inside, ?_, ordered.alive⟩
      · exact List.perm_append_comm.trans (ordered.all.append_right _)
      · rw [step]
        exact ordered.step
    obtain ⟨block, rest, some_free⟩ : ∃ block rest,
        headers s.pool.memory.blockCountStep blockMemory = block :: rest := by
      apply List.exists_cons_of_length_pos
      simp only [headers, List.length_map, List.length_range]
      exact ordered.step
    rw [some_free] at after
    obtain ⟨pool, ran, last⟩ := ordered_take after size
    rw [taken grown pool _ added ran]
    exact ⟨rest, used ++ [block], last⟩

theorem allocated_used (ordered : Ordered s free used) {ptr : Nat}
    (handed : ptr ∈ s.allocated.map Region.start) :
    ∃ block ∈ used, ptr = block + sizeofPointer := by
  have member := ordered.handed.subset handed
  obtain ⟨block, inside, rfl⟩ := List.mem_map.mp member
  exact ⟨block, inside, rfl⟩

theorem allocated_once (ordered : Ordered s free used) :
    (s.allocated.map Region.start).Nodup := by
  rw [ordered.handed.nodup_iff]
  apply List.Nodup.map _ (lists_used_once ordered.lists)
  intro a b same
  simp only [sizeofPointer] at same
  omega

theorem erase_starts (allocated : List Region) (ptr : Nat) :
    (allocated.eraseP fun r => r.start = ptr).map Region.start =
      (allocated.map Region.start).erase ptr := by
  induction allocated with
  | nil => rfl
  | cons r rest ih =>
    by_cases here : r.start = ptr
    · simp [here]
    · simp [here, ih]

theorem used_high (ordered : Ordered s free used) {block : Nat} (inside : block ∈ used) :
    0 < block := by
  obtain ⟨r, _, positive, low, _⟩ :=
    ordered.inside block (ordered.all.subset (List.mem_append_right _ inside))
  omega

theorem inv_free (inv : Inv s) {ptr : Nat} (careful : Careful s (.free ptr))
    (taken : step s (.free ptr) = some t) : Inv t := by
  obtain ⟨free, used, ordered⟩ := inv
  obtain ⟨_, given, result⟩ := free_taken taken
  obtain ⟨block, inside, rfl⟩ := allocated_used ordered given
  have high := used_high ordered inside
  obtain ⟨xs, ys, rfl⟩ := List.append_of_mem inside
  have some_free : free ≠ [] := by
    rintro rfl
    exact careful.1 ordered.lists.free_head.symm
  obtain ⟨pool, ran, step, lists⟩ := xpool_free_lists ordered.lists some_free careful.2 high
  rcases result with ⟨failed, _⟩ | ⟨pool', ran', rfl⟩
  · rw [failed] at ran
    cases ran
  · cases ran.symm.trans ran'
    refine ⟨free ++ [block], xs ++ ys, lists, ?_, ?_, ordered.inside, ?_, ordered.alive⟩
    · refine List.Perm.trans ?_ ordered.all
      rw [List.append_assoc, List.singleton_append]
      exact List.Perm.append_left _ List.perm_middle.symm
    · rw [erase_starts]
      have fewer := ordered.handed.erase (block + sizeofPointer)
      refine fewer.trans ?_
      rw [List.map_append, List.map_cons, List.map_append]
      exact (List.perm_middle.erase _).trans (by simp)
    · rw [step]
      exact ordered.step

theorem inv_partition (s : State) (inv : Inv s) : Partition s := by
  obtain ⟨free, used, ordered⟩ := inv
  have lists := ordered.lists
  refine ⟨ordered.alive, free, used, ⟨lists.free_head, lists.free_next⟩,
    ⟨lists.used_head, lists.used_next⟩, ?_, ?_, allocated_once ordered⟩
  · intro block member
    rcases List.mem_append.mp (ordered.all.symm.subset member) with first | last
    · exact .inl ⟨first, lists_apart lists first⟩
    · exact .inr ⟨last, fun first => lists_apart lists first last⟩
  · intro block
    rw [ordered.handed.mem_iff, List.mem_map]
    constructor
    · intro inside
      exact ⟨block, inside, rfl⟩
    · rintro ⟨other, inside, same⟩
      have equal : other = block := Nat.add_right_cancel same
      rw [← equal]
      exact inside

theorem unlink_block_free_head (p : Pool) (block : Nat) :
    (unlinkBlock p block).memory.freeHead = p.memory.freeHead := by
  unfold unlinkBlock
  split <;> rfl

theorem unlink_block_used_head {p : Pool} {block : Nat} (before : (p.blocks block).pPrev ≠ none) :
    (unlinkBlock p block).memory.usedHead = p.memory.usedHead := by
  unfold unlinkBlock
  split <;> first | rfl | (rename_i first _; exact absurd first before)

theorem xpool_free_heads {p p' : Pool} {block : Nat} (high : 0 < block)
    (ran : Xpool_free p (block + sizeofPointer) = some p') :
    p'.memory.freeHead = p.memory.freeHead ∧
      p'.memory.usedHead = (unlinkBlock p block).memory.usedHead := by
  have given : block ≠ 0 := by omega
  have address : block + sizeofPointer - sizeofPointer = block := Nat.add_sub_cancel _ _
  simp only [Xpool_free, address, given, if_false] at ran
  obtain ⟨tail, _, rfl⟩ := Option.map_eq_some_iff.mp ran
  exact ⟨unlink_block_free_head p block, rfl⟩

/-- With no block free, freeHead stays NULL; a head with a pPrev stays usedHead. In neither case
    is the freed block in exactly the list it belongs to. -/
theorem careless_lost (inv : Inv s) {ptr : Nat} (careless : ¬ Careful s (.free ptr))
    (taken : step s (.free ptr) = some t) : ¬ Partition t := by
  rintro ⟨alive, free', used', free_list, used_list, all, handed, _⟩
  obtain ⟨free, used, ordered⟩ := inv
  obtain ⟨_, given, result⟩ := free_taken taken
  obtain ⟨block, inside, rfl⟩ := allocated_used ordered given
  have created : block ∈ s.created := ordered.all.subset (List.mem_append_right _ inside)
  rcases result with ⟨_, rfl⟩ | ⟨pool, ran, rfl⟩
  · cases alive
  · have heads := xpool_free_heads (used_high ordered inside) ran
    have gone : block ∉ used' := by
      intro still
      have left := (handed block).mp still
      rw [erase_starts] at left
      exact (allocated_once ordered).not_mem_erase left
    by_cases none_free : s.pool.memory.freeHead = none
    · have empty : free' = [] := by
        apply head_or_none
        rw [free_list.1]
        exact heads.1.trans none_free
      rcases all block created with first | last
      · rw [empty] at first
        exact absurd first.1 List.not_mem_nil
      · exact gone last.1
    · simp only [Careful, none_free, ne_eq, not_false_eq_true, true_and, Classical.not_imp,
        Nat.add_sub_cancel] at careless
      obtain ⟨ys, rfl⟩ : ∃ ys, used' = block :: ys := by
        apply head_or_some
        rw [used_list.1]
        exact (heads.2.trans (unlink_block_used_head careless.2)).trans careless.1
      exact gone List.mem_cons_self

end Steps

theorem inv_step (s : State) (ev : Event) (t : State) (inv : Inv s) (careful : Careful s ev)
    (taken : step s ev = some t) : Inv t := by
  cases ev with
  | alloc size blockMemory dataMemory => exact inv_alloc inv taken
  | free ptr => exact inv_free inv careful taken

theorem careless_step (s : State) (ev : Event) (t : State) (inv : Inv s)
    (careless : ¬ Careful s ev) (taken : step s ev = some t) : ¬ Partition t := by
  cases ev with
  | alloc size blockMemory dataMemory => exact absurd trivial careless
  | free ptr => exact careless_lost inv careless taken

section Start
variable {blockCount blockSize blockMemory dataMemory : Nat} {start : State}

theorem empty_pool_lists (blockCount blockSize : Nat) :
    Lists (emptyPool blockCount blockSize) [] [] :=
  ⟨rfl, trivial, fun _ => rfl, rfl, trivial, fun _ => rfl, ⟨none, trivial⟩, List.nodup_nil⟩

theorem inv_init (init : Xpool_init blockCount blockSize blockMemory dataMemory = some start) :
    Inv start := by
  obtain ⟨pool, added, step, lists⟩ := xpool_block_lists (empty_pool_lists blockCount blockSize)
    blockCount blockSize blockMemory dataMemory (fun _ _ => List.not_mem_nil)
  simp only [Xpool_init, added] at init
  split at init
  · rename_i fresh
    simp only [Option.some.injEq] at init
    subst init
    refine ⟨_, _, lists, ?_, List.Perm.nil, headers_inside fresh ?_, ?_, rfl⟩
    · simp [State.more]
    · intro a member
      cases member
    · rw [step]
      exact Nat.zero_lt_succ 99
  · cases init

end Start

instance (s : State) : (ev : Event) → Decidable (Careful s ev)
  | .alloc _ _ _ => .isTrue trivial
  | .free _ => inferInstanceAs (Decidable (_ ∧ _))

/-- Exactly the careful histories keep the two lists a partition of the blocks. -/
theorem lists_partition_iff (blockCount blockSize blockMemory dataMemory : Nat) (start : State)
    (init : Xpool_init blockCount blockSize blockMemory dataMemory = some start)
    (history : List Event) (possible : (play step history start).isSome) :
    Always step Partition history start ↔ Lawful step Careful history start :=
  always_iff_lawful inv_partition inv_step careless_step history (inv_init init) possible

/-- Of three used blocks the middle, the last and the only one are freed. -/
theorem four_blocks_stay_parted :
    ∃ start, Xpool_init 4 16 1000 2000 = some start ∧ Always step Partition
      [.alloc 4 0 0, .alloc 4 0 0, .alloc 4 0 0, .free 1032, .free 1056, .free 1008, .alloc 4 0 0]
      start :=
  ⟨_, rfl, (lists_partition_iff 4 16 1000 2000 _ rfl _ (by decide)).mpr (by decide)⟩

/-- The only block of the pool is freed: it is in neither list. -/
theorem one_block_gets_lost :
    ¬ ∀ blockCount blockSize blockMemory dataMemory start history, 1 ≤ blockCount →
      Xpool_init blockCount blockSize blockMemory dataMemory = some start →
      (play step history start).isSome → Always step Partition history start := by
  intro claim
  have always := claim 1 16 1000 2000 _ [.alloc 4 0 0, .free 1008] (by decide) rfl (by decide)
  obtain ⟨_, free, used, free_list, _, all, handed, _⟩ := always _ _ List.prefix_rfl rfl
  have empty : free = [] := head_or_none free_list.1
  rcases all 1000 (by decide) with first | last
  · rw [empty] at first
    exact absurd first.1 List.not_mem_nil
  · have still := (handed 1000).mp last.1
    revert still
    decide

end UC.MemPool
