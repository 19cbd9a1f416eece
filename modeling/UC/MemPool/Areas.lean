import UC.MemPool.Lists

/- The pointer that Xpool_alloc returns lies in the header of its block, so that the user areas
   are separate in exactly the histories that ask for no byte. The lists need not be in order. -/
namespace UC.MemPool
open UC.Memory UC.Histories

/-- NULL, or a header that Xpool_block has made. -/
def Valid (created : List Nat) (q : Ptr) : Prop := ∀ a ∈ q, a ∈ created

def ValidCells (created : List Nat) (blocks : Mem MemoryBlock) : Prop :=
  ∀ a, Valid created (blocks a).pNext ∧ Valid created (blocks a).pPrev

/-- Every pointer is valid, and a list with a head has a tail. -/
structure Sound (p : Pool) (created : List Nat) : Prop where
  cells : ValidCells created p.blocks
  free_head : Valid created p.memory.freeHead
  free_tail : Valid created p.memory.freeTail
  used_head : Valid created p.memory.usedHead
  used_tail : Valid created p.memory.usedTail
  free_ends : p.memory.freeHead ≠ none → p.memory.freeTail ≠ none
  used_ends : p.memory.usedHead ≠ none → p.memory.usedTail ≠ none
  step : 0 < p.memory.blockCountStep

section Cells
variable {created : List Nat} {blocks : Mem MemoryBlock} {a : Nat} {q : Ptr}

theorem valid_none : Valid created none := by
  intro a never
  cases never

theorem valid_some (made : a ∈ created) : Valid created (some a) := by
  intro b same
  cases same
  exact made

theorem cells_store {cell : MemoryBlock} (cells : ValidCells created blocks)
    (next : Valid created cell.pNext) (prev : Valid created cell.pPrev) :
    ValidCells created (store blocks a cell) := by
  intro x
  simp only [store]
  split
  · exact ⟨next, prev⟩
  · exact cells x

theorem cells_set_next (cells : ValidCells created blocks) (valid : Valid created q) :
    ValidCells created (setNext blocks a q) :=
  cells_store cells valid (cells a).2

theorem cells_set_prev (cells : ValidCells created blocks) (valid : Valid created q) :
    ValidCells created (setPrev blocks a q) :=
  cells_store cells (cells a).1 valid

end Cells

section Steps
variable {p p' : Pool} {created : List Nat} {block : Nat}

theorem sound_more {more : List Nat} (sound : Sound p created)
    (among : ∀ a ∈ created, a ∈ more) : Sound p more := by
  have valid : ∀ q, Valid created q → Valid more q := fun q known a is => among a (known a is)
  exact ⟨fun a => ⟨valid _ (sound.cells a).1, valid _ (sound.cells a).2⟩,
    valid _ sound.free_head, valid _ sound.free_tail, valid _ sound.used_head,
    valid _ sound.used_tail, sound.free_ends, sound.used_ends, sound.step⟩

theorem sound_add_block (sound : Sound p created) (blockSize i : Nat)
    (made : p.memory.pBlockMemoryHead + sizeofMemoryBlock * i ∈ created) :
    ∃ p', addBlock blockSize p i = some p' ∧ SameSizes p.memory p'.memory ∧
      p'.memory.freeHead ≠ none ∧ Sound p' created := by
  have cell : ValidCells created (store p.blocks
      (p.memory.pBlockMemoryHead + sizeofMemoryBlock * i) ⟨none, p.memory.freeTail,
        p.memory.pDataMemoryHead + (blockSize + sizeofPointer) * i⟩) :=
    cells_store sound.cells valid_none sound.free_tail
  cases head : p.memory.freeHead with
  | none =>
    refine ⟨_, add_block_first head blockSize i, ⟨rfl, rfl, rfl⟩, by simp, ?_⟩
    exact ⟨cell, valid_some made, valid_some made, sound.used_head, sound.used_tail, by simp,
      sound.used_ends, sound.step⟩
  | some first =>
    obtain ⟨tail, last⟩ := Option.ne_none_iff_exists'.mp (sound.free_ends (by simp [head]))
    refine ⟨_, add_block_more head last blockSize i, ⟨rfl, rfl, rfl⟩, by simp [head], ?_⟩
    exact ⟨cells_set_next cell (valid_some made), sound.free_head, valid_some made,
      sound.used_head, sound.used_tail, by simp, sound.used_ends, sound.step⟩

theorem sound_add_blocks (rounds : List Nat) (blockSize : Nat) (sound : Sound p created)
    (made : ∀ a ∈ roundBlocks p rounds, a ∈ created) :
    ∃ p', rounds.foldlM (addBlock blockSize) p = some p' ∧ Sound p' created ∧
      (p.memory.freeHead ≠ none ∨ rounds ≠ [] → p'.memory.freeHead ≠ none) := by
  induction rounds generalizing p with
  | nil => exact ⟨p, rfl, sound, by simp⟩
  | cons i rounds ih =>
    obtain ⟨p', added, same, head, sound'⟩ :=
      sound_add_block sound blockSize i (made _ List.mem_cons_self)
    obtain ⟨p'', rest, sound'', kept⟩ := ih sound' (by
      rw [round_blocks_same same]
      exact fun a inside => made a (List.mem_cons_of_mem _ inside))
    refine ⟨p'', ?_, sound'', fun _ => kept (.inl head)⟩
    rw [List.foldlM_cons, added]
    exact rest

theorem sound_xpool_block (sound : Sound p created) (count size blockMemory dataMemory : Nat)
    (made : ∀ a ∈ headers count blockMemory, a ∈ created) :
    ∃ p', Xpool_block count size blockMemory dataMemory p = some p' ∧ Sound p' created ∧
      (0 < count → p'.memory.freeHead ≠ none) := by
  have set_heads : Sound { p with memory := { p.memory with
      pBlockMemoryHead := blockMemory, pDataMemoryHead := dataMemory } } created :=
    ⟨sound.cells, sound.free_head, sound.free_tail, sound.used_head, sound.used_tail,
      sound.free_ends, sound.used_ends, sound.step⟩
  obtain ⟨p', added, sound', head⟩ := sound_add_blocks (List.range count) size set_heads made
  refine ⟨p', added, sound', fun some_round => head (.inr ?_)⟩
  rw [ne_eq, List.range_eq_nil]
  omega

theorem sound_take (sound : Sound p created) (head : p.memory.freeHead ≠ none) :
    ∃ p', ∃ block ∈ created, takeBlock p = some (p', block + sizeofPointer) ∧
      Sound p' created ∧ p'.memory.usedTail ≠ none := by
  obtain ⟨block, first⟩ := Option.ne_none_iff_exists'.mp head
  have made : block ∈ created := sound.free_head block first
  have cell : ValidCells created (store p.blocks block ⟨none, p.memory.usedTail, block⟩) :=
    cells_store sound.cells valid_none sound.used_tail
  have ends := sound.free_ends head
  cases used : p.memory.usedHead with
  | none =>
    refine ⟨_, block, made, take_block_first first used, ?_, by simp⟩
    exact ⟨cell, (sound.cells block).1, sound.free_tail, valid_some made, valid_some made,
      fun _ => ends, by simp, sound.step⟩
  | some a =>
    obtain ⟨tail, last⟩ := Option.ne_none_iff_exists'.mp (sound.used_ends (by simp [used]))
    refine ⟨_, block, made, take_block_more first used last, ?_, by simp⟩
    exact ⟨cells_set_next cell (valid_some made), (sound.cells block).1, sound.free_tail,
      sound.used_head, valid_some made, fun _ => ends, by simp, sound.step⟩

theorem sound_unlink (sound : Sound p created) (block : Nat) (some_used : p.memory.usedTail ≠ none) :
    Sound (unlinkBlock p block) created ∧ (unlinkBlock p block).memory.usedTail ≠ none := by
  have next_valid := (sound.cells block).1
  have prev_valid := (sound.cells block).2
  cases before : (p.blocks block).pPrev with
  | none =>
    cases behind : (p.blocks block).pNext with
    | none =>
      simp only [unlinkBlock, before, behind]
      exact ⟨⟨sound.cells, sound.free_head, sound.free_tail, valid_none, sound.used_tail,
        sound.free_ends, by simp, sound.step⟩, some_used⟩
    | some b =>
      rw [behind] at next_valid
      simp only [unlinkBlock, before, behind]
      exact ⟨⟨cells_set_prev sound.cells valid_none, sound.free_head, sound.free_tail, next_valid,
        sound.used_tail, sound.free_ends, fun _ => some_used, sound.step⟩, some_used⟩
  | some a =>
    rw [before] at prev_valid
    cases behind : (p.blocks block).pNext with
    | none =>
      simp only [unlinkBlock, before, behind]
      exact ⟨⟨cells_set_next sound.cells valid_none, sound.free_head, sound.free_tail,
        sound.used_head, prev_valid, sound.free_ends, by simp, sound.step⟩, by simp⟩
    | some b =>
      rw [behind] at next_valid
      simp only [unlinkBlock, before, behind]
      exact ⟨⟨cells_set_prev (cells_set_next sound.cells next_valid) prev_valid, sound.free_head,
        sound.free_tail, sound.used_head, sound.used_tail, sound.free_ends, sound.used_ends,
        sound.step⟩, some_used⟩

theorem sound_xpool_free (sound : Sound p created) (made : block ∈ created)
    (some_used : p.memory.usedTail ≠ none)
    (ran : Xpool_free p (block + sizeofPointer) = some p') :
    Sound p' created ∧ p'.memory.usedTail ≠ none := by
  have address : block + sizeofPointer - sizeofPointer = block := Nat.add_sub_cancel _ _
  simp only [Xpool_free, address] at ran
  split at ran
  · cases ran
    exact ⟨sound, some_used⟩
  · obtain ⟨unlinked, still⟩ := sound_unlink sound block some_used
    obtain ⟨tail, _, rfl⟩ := Option.map_eq_some_iff.mp ran
    have cell := @cells_store created _ block ⟨none, _, block⟩ unlinked.cells valid_none
      unlinked.free_tail
    exact ⟨⟨cells_set_next cell (valid_some made), unlinked.free_head, valid_some made,
      unlinked.used_head, unlinked.used_tail, by simp, unlinked.used_ends, unlinked.step⟩, still⟩

end Steps

/-- What holds while no byte has been asked for. -/
structure NoBytes (s : State) : Prop where
  sound : Sound s.pool s.created
  given : s.dataRegions ≠ []
  bare : ∀ r ∈ s.allocated, r.len = 0
  handed : ∀ r ∈ s.allocated, ∃ block ∈ s.created, r.start = block + sizeofPointer
  some_used : s.allocated ≠ [] → s.pool.memory.usedTail ≠ none

section States
variable {s t : State}

theorem alloc_in_header (old : NoBytes s) {size blockMemory dataMemory : Nat}
    (taken : step s (.alloc size blockMemory dataMemory) = some t) :
    Sound t.pool t.created ∧ t.dataRegions ≠ [] ∧ t.pool.memory.usedTail ≠ none ∧
      (∀ a ∈ s.created, a ∈ t.created) ∧
      ∃ block ∈ t.created, t.allocated = ⟨block + sizeofPointer, size⟩ :: s.allocated := by
  by_cases none_free : s.pool.memory.freeHead = none
  · have among : ∀ a ∈ s.created, a ∈ (s.more s.pool.memory.blockCountStep
        s.pool.memory.blockSize blockMemory dataMemory).created :=
      fun a inside => List.mem_append_left _ inside
    obtain ⟨grown, added, sound, head⟩ := sound_xpool_block (sound_more old.sound among)
      s.pool.memory.blockCountStep s.pool.memory.blockSize blockMemory dataMemory
      (fun a inside => List.mem_append_right _ inside)
    obtain ⟨pool, block, made, ran, sound', some_used⟩ := sound_take sound (head old.sound.step)
    rw [(alloc_grown taken none_free).2 grown pool _ added ran]
    exact ⟨sound', List.cons_ne_nil _ _, some_used, among, block, made, rfl⟩
  · obtain ⟨pool, block, made, ran, sound', some_used⟩ := sound_take old.sound none_free
    rw [alloc_taken taken none_free ran]
    exact ⟨sound', old.given, some_used, fun a inside => inside, block, made, rfl⟩

theorem no_bytes_alloc (old : NoBytes s) {blockMemory dataMemory : Nat}
    (taken : step s (.alloc 0 blockMemory dataMemory) = some t) : NoBytes t := by
  obtain ⟨sound, given, some_used, among, block, made, allocated⟩ := alloc_in_header old taken
  refine ⟨sound, given, ?_, ?_, fun _ => some_used⟩
  · rw [allocated]
    intro r member
    rcases List.mem_cons.mp member with rfl | before
    · rfl
    · exact old.bare r before
  · rw [allocated]
    intro r member
    rcases List.mem_cons.mp member with rfl | before
    · exact ⟨block, made, rfl⟩
    · obtain ⟨other, inside, starts⟩ := old.handed r before
      exact ⟨other, among other inside, starts⟩

theorem no_bytes_free (old : NoBytes s) {ptr : Nat} (taken : step s (.free ptr) = some t) :
    NoBytes t := by
  obtain ⟨_, given, result⟩ := free_taken taken
  obtain ⟨r, member, rfl⟩ := List.mem_map.mp given
  obtain ⟨block, made, starts⟩ := old.handed r member
  rcases result with ⟨_, rfl⟩ | ⟨pool, ran, rfl⟩
  · exact ⟨old.sound, old.given, old.bare, old.handed, old.some_used⟩
  · rw [starts] at ran
    have some_used := old.some_used (List.ne_nil_of_mem member)
    obtain ⟨sound, still⟩ := sound_xpool_free old.sound made some_used ran
    exact ⟨sound, old.given, fun x left => old.bare x (List.mem_of_mem_eraseP left),
      fun x left => old.handed x (List.mem_of_mem_eraseP left), fun _ => still⟩

/-- Ranges without bytes lie anywhere. -/
theorem no_bytes_separate (s : State) (old : NoBytes s) : Separate s := by
  have bare : ∀ r ∈ s.allocated, ∀ x, ¬ r.Has x := by
    intro r member x has
    have none_left := old.bare r member
    have bounds := has
    simp only [Region.Has] at bounds
    omega
  obtain ⟨region, rest, given⟩ := List.exists_cons_of_ne_nil old.given
  refine ⟨?_, ?_, ?_⟩
  · apply List.pairwise_of_forall_mem_list
    intro r member _ _ x has
    exact absurd has (bare r member x)
  · intro r member
    refine ⟨region, ?_, fun x has => absurd has (bare r member x)⟩
    rw [given]
    exact List.mem_cons_self
  · intro r member _ _ x has
    exact absurd has (bare r member x)

end States

def AsksNothing (_ : State) : Event → Prop
  | .alloc size _ _ => size = 0
  | .free _ => True

instance (s : State) : (ev : Event) → Decidable (AsksNothing s ev)
  | .alloc size _ _ => inferInstanceAs (Decidable (size = 0))
  | .free _ => .isTrue trivial

theorem no_bytes_step (s : State) (ev : Event) (t : State) (old : NoBytes s)
    (nothing : AsksNothing s ev) (taken : step s ev = some t) : NoBytes t := by
  cases ev with
  | alloc size blockMemory dataMemory =>
    have bare : size = 0 := nothing
    subst bare
    exact no_bytes_alloc old taken
  | free ptr => exact no_bytes_free old taken

theorem bytes_in_header (s : State) (ev : Event) (t : State) (old : NoBytes s)
    (bytes : ¬ AsksNothing s ev) (taken : step s ev = some t) : ¬ Separate t := by
  intro separate
  cases ev with
  | alloc size blockMemory dataMemory =>
    have some_byte : size ≠ 0 := bytes
    obtain ⟨_, _, _, _, block, made, allocated⟩ := alloc_in_header old taken
    apply separate.headers ⟨block + sizeofPointer, size⟩ (by simp [allocated]) block made
      (block + sizeofPointer)
    · simp only [Region.Has]
      omega
    · simp only [Region.Has, sizeofPointer, sizeofMemoryBlock]
      omega
  | free ptr => exact bytes trivial

theorem empty_pool_sound (blockCount blockSize : Nat) (created : List Nat) :
    Sound (emptyPool blockCount blockSize) created :=
  ⟨fun _ => ⟨valid_none, valid_none⟩, valid_none, valid_none, valid_none, valid_none,
    absurd rfl, absurd rfl, Nat.zero_lt_succ 99⟩

theorem no_bytes_init {blockCount blockSize blockMemory dataMemory : Nat} {start : State}
    (init : Xpool_init blockCount blockSize blockMemory dataMemory = some start) :
    NoBytes start := by
  obtain ⟨pool, added, sound, _⟩ := sound_xpool_block
    (empty_pool_sound blockCount blockSize (headers blockCount blockMemory))
    blockCount blockSize blockMemory dataMemory (fun a inside => inside)
  simp only [Xpool_init, added] at init
  split at init
  · simp only [Option.some.injEq] at init
    subst init
    exact ⟨sound, List.cons_ne_nil _ _, fun r member => (List.not_mem_nil member).elim,
      fun r member => (List.not_mem_nil member).elim, absurd rfl⟩
  · cases init

/-- Exactly the histories that ask for no byte keep the user areas separate. -/
theorem areas_separate_iff (blockCount blockSize blockMemory dataMemory : Nat) (start : State)
    (init : Xpool_init blockCount blockSize blockMemory dataMemory = some start)
    (history : List Event) (possible : (play step history start).isSome) :
    Always step Separate history start ↔ Lawful step AsksNothing history start :=
  always_iff_lawful no_bytes_separate no_bytes_step bytes_in_header history (no_bytes_init init)
    possible

theorem empty_areas_separate :
    ∃ start, Xpool_init 2 16 1000 2000 = some start ∧ Always step Separate
      [.alloc 0 0 0, .alloc 0 0 0, .free 1008, .free 1032] start :=
  ⟨_, rfl, (areas_separate_iff 2 16 1000 2000 _ rfl _ (by decide)).mpr (by decide)⟩

/-- One byte at 1008, in the header at 1000. -/
theorem one_byte_in_header :
    ¬ ∀ blockCount blockSize blockMemory dataMemory start history, 1 ≤ blockCount →
      1 ≤ blockSize → (∀ size blockMemory dataMemory,
        Event.alloc size blockMemory dataMemory ∈ history → size ≤ blockSize) →
      Xpool_init blockCount blockSize blockMemory dataMemory = some start →
      (play step history start).isSome → Always step Separate history start := by
  intro claim
  have always := claim 1 1 1000 2000 _ [.alloc 1 0 0] (by decide) (by decide) (by simp +contextual)
    rfl (by decide)
  have separate := always _ _ List.prefix_rfl rfl
  apply separate.headers ⟨1008, 1⟩ (by decide) 1000 (by decide) 1008
  · simp only [Region.Has]
    omega
  · simp only [Region.Has, sizeofMemoryBlock]
    omega

end UC.MemPool
