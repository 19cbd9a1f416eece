import Mathlib.Data.List.Nodup
import Mathlib.Data.List.Perm.Basic
import UC.MemPool.Model

/- What each operation does to the two lists of a pool whose lists are in order. Tails count
   only for lists that are not empty; the front of the used list may be anything. -/
namespace UC.MemPool
open UC.Memory UC.Chains UC.DoublyLinked

def next (p : Pool) (a : Nat) : Ptr := (p.blocks a).pNext

def prev (p : Pool) (a : Nat) : Ptr := (p.blocks a).pPrev

structure Lists (p : Pool) (free used : List Nat) : Prop where
  free_head : headOr id free none = p.memory.freeHead
  free_next : Forward (next p) free none
  free_last : free ≠ [] → p.memory.freeTail = lastOr none free
  used_head : headOr id used none = p.memory.usedHead
  used_next : Forward (next p) used none
  used_last : used ≠ [] → p.memory.usedTail = lastOr none used
  used_prev : ∃ front, Backward (prev p) front used
  once : (free ++ used).Nodup

section Cells
variable (blocks : Mem MemoryBlock) (a x : Nat) (q : Ptr) (cell : MemoryBlock)

theorem set_next_next : (setNext blocks a q x).pNext = if x = a then q else (blocks x).pNext := by
  simp only [setNext, store]
  split <;> rfl

@[simp] theorem set_next_prev : (setNext blocks a q x).pPrev = (blocks x).pPrev := by
  simp only [setNext, store]
  split
  · rename_i same
    rw [same]
  · rfl

theorem set_prev_prev : (setPrev blocks a q x).pPrev = if x = a then q else (blocks x).pPrev := by
  simp only [setPrev, store]
  split <;> rfl

@[simp] theorem set_prev_next : (setPrev blocks a q x).pNext = (blocks x).pNext := by
  simp only [setPrev, store]
  split
  · rename_i same
    rw [same]
  · rfl

variable {xs l : List Nat} {tail : Nat} {memory memory' : MemoryPool}

theorem forward_joined (forward : Forward (next ⟨memory, blocks⟩) (xs ++ [tail]) none)
    (once : (xs ++ [tail]).Nodup) (fresh : a ∉ xs ++ [tail]) (ends : cell.pNext = none) :
    Forward (next ⟨memory', setNext (store blocks a cell) tail (some a)⟩) (xs ++ [tail] ++ [a])
      none := by
  have not_a : ∀ y ∈ xs ++ [tail], y ≠ a := fun y inside => ne_of_mem_of_not_mem inside fresh
  apply forward_concat _ _ _ forward
  · intro y inside
    have other := not_a y (List.mem_append_left _ inside)
    have not_tail := (List.nodup_append.mp once).2.2 y inside tail List.mem_cons_self
    simp [next, set_next_next, not_tail, store_other _ _ other]
  · simp [next, set_next_next]
  · have other : a ≠ tail := (not_a tail (by simp)).symm
    simp [next, set_next_next, other, ends]

theorem forward_untouched (forward : Forward (next ⟨memory, blocks⟩) l none) (fresh : a ∉ l)
    (apart : tail ∉ l) :
    Forward (next ⟨memory', setNext (store blocks a cell) tail (some a)⟩) l none := by
  apply forward_same _ forward
  intro y inside
  have other := ne_of_mem_of_not_mem inside fresh
  have not_tail := ne_of_mem_of_not_mem inside apart
  simp [next, set_next_next, not_tail, store_other _ _ other]

end Cells

section Steps
variable {p : Pool} {free used : List Nat} {a : Nat}

theorem lists_used_once (lists : Lists p free used) : used.Nodup :=
  (List.nodup_append.mp lists.once).2.1

theorem lists_free_once (lists : Lists p free used) : free.Nodup :=
  (List.nodup_append.mp lists.once).1

theorem lists_apart (lists : Lists p free used) {x : Nat} (first : x ∈ free) : x ∉ used :=
  fun last => (List.nodup_append.mp lists.once).2.2 x first x last rfl

/-- A new last block of the free list, by the stores at the end of Xpool_free, which the loop
    of Xpool_block has too. -/
theorem lists_append (lists : Lists p free used) (some_free : free ≠ []) (fresh : a ∉ free ++ used)
    {tail : Nat} (last : p.memory.freeTail = some tail) {memory : MemoryPool} {cell : MemoryBlock}
    (free_head : memory.freeHead = p.memory.freeHead) (free_last : memory.freeTail = some a)
    (used_head : memory.usedHead = p.memory.usedHead)
    (used_last : memory.usedTail = p.memory.usedTail) (ends : cell.pNext = none) :
    Lists ⟨memory, setNext (store p.blocks a cell) tail (some a)⟩ (free ++ [a]) used := by
  obtain ⟨xs, x, rfl⟩ := (List.eq_nil_or_concat' free).resolve_left some_free
  have tail_is : tail = x := by
    have both := lists.free_last some_free
    rw [last, last_or_concat] at both
    exact Option.some.inj both
  subst tail_is
  have tail_free : tail ∈ xs ++ [tail] := by simp
  refine ⟨?_, ?_, ?_, ?_, ?_, ?_, ?_, ?_⟩
  · have same := head_or_behind xs tail [a] [] none
    rw [List.append_nil] at same
    exact same.trans (lists.free_head.trans free_head.symm)
  · apply forward_joined _ _ _ lists.free_next (lists_free_once lists) _ ends
    exact fun inside => fresh (List.mem_append_left _ inside)
  · intro _
    rw [last_or_concat]
    exact free_last
  · exact lists.used_head.trans used_head.symm
  · apply forward_untouched _ _ _ lists.used_next _ (lists_apart lists tail_free)
    exact fun inside => fresh (List.mem_append_right _ inside)
  · intro some_used
    exact used_last.trans (lists.used_last some_used)
  · obtain ⟨front, backward⟩ := lists.used_prev
    refine ⟨front, backward_same ?_ backward⟩
    intro y inside
    have other : y ≠ a := ne_of_mem_of_not_mem (List.mem_append_right _ inside) fresh
    simp [prev, store_other _ _ other]
  · rw [List.append_assoc, List.singleton_append, List.perm_middle.nodup_iff]
    exact List.nodup_cons.mpr ⟨fresh, lists.once⟩

/-- The fields that no operation changes after Xpool_init has set them, and what a call of
    Xpool_block has received. -/
structure SameSizes (m m' : MemoryPool) : Prop where
  blockCountStep : m'.blockCountStep = m.blockCountStep
  blockSize : m'.blockSize = m.blockSize
  pBlockMemoryHead : m'.pBlockMemoryHead = m.pBlockMemoryHead

theorem same_sizes_trans {m m' m'' : MemoryPool} (first : SameSizes m m')
    (second : SameSizes m' m'') : SameSizes m m'' :=
  ⟨second.blockCountStep.trans first.blockCountStep, second.blockSize.trans first.blockSize,
    second.pBlockMemoryHead.trans first.pBlockMemoryHead⟩

theorem add_block_first (head : p.memory.freeHead = none) (blockSize i : Nat) :
    addBlock blockSize p i = some
      ⟨{ p.memory with freeHead := some (p.memory.pBlockMemoryHead + sizeofMemoryBlock * i)
                       freeTail := some (p.memory.pBlockMemoryHead + sizeofMemoryBlock * i) },
        store p.blocks (p.memory.pBlockMemoryHead + sizeofMemoryBlock * i)
          ⟨none, p.memory.freeTail,
            p.memory.pDataMemoryHead + (blockSize + sizeofPointer) * i⟩⟩ := by
  simp only [addBlock, head]

theorem add_block_more {first tail : Nat} (head : p.memory.freeHead = some first)
    (last : p.memory.freeTail = some tail) (blockSize i : Nat) :
    addBlock blockSize p i = some
      ⟨{ p.memory with freeTail := some (p.memory.pBlockMemoryHead + sizeofMemoryBlock * i) },
        setNext (store p.blocks (p.memory.pBlockMemoryHead + sizeofMemoryBlock * i)
          ⟨none, p.memory.freeTail, p.memory.pDataMemoryHead + (blockSize + sizeofPointer) * i⟩)
          tail (some (p.memory.pBlockMemoryHead + sizeofMemoryBlock * i))⟩ := by
  simp only [addBlock, head, last, Option.map_some]

theorem some_last {l : List Nat} (some_part : l ≠ []) : ∃ tail, lastOr none l = some tail := by
  cases ends : lastOr none l with
  | none => exact absurd (last_or_none ends) some_part
  | some tail => exact ⟨tail, rfl⟩

theorem add_block_lists (lists : Lists p free used) (blockSize i : Nat)
    (fresh : p.memory.pBlockMemoryHead + sizeofMemoryBlock * i ∉ free ++ used) :
    ∃ p', addBlock blockSize p i = some p' ∧ SameSizes p.memory p'.memory ∧
      Lists p' (free ++ [p.memory.pBlockMemoryHead + sizeofMemoryBlock * i]) used := by
  cases free with
  | nil =>
    have head : p.memory.freeHead = none := lists.free_head.symm
    have used_other : ∀ y ∈ used, y ≠ p.memory.pBlockMemoryHead + sizeofMemoryBlock * i :=
      fun y inside => ne_of_mem_of_not_mem inside fresh
    refine ⟨_, add_block_first head blockSize i, ⟨rfl, rfl, rfl⟩, ?_⟩
    refine ⟨rfl, ⟨?_, trivial⟩, fun _ => rfl, lists.used_head, ?_, lists.used_last, ?_, ?_⟩
    · simp [next, headOr]
    · apply forward_same _ lists.used_next
      intro y inside
      simp only [next, store_other _ _ (used_other y inside)]
    · obtain ⟨front, backward⟩ := lists.used_prev
      refine ⟨front, backward_same ?_ backward⟩
      intro y inside
      simp only [prev, store_other _ _ (used_other y inside)]
    · exact List.nodup_cons.mpr ⟨fresh, lists.once⟩
  | cons first rest =>
    have head : p.memory.freeHead = some first := lists.free_head.symm
    obtain ⟨tail, ends⟩ := @some_last (first :: rest) (by simp)
    have last : p.memory.freeTail = some tail := (lists.free_last (by simp)).trans ends
    refine ⟨_, add_block_more head last blockSize i, ⟨rfl, rfl, rfl⟩, ?_⟩
    exact lists_append lists (by simp) fresh last rfl rfl rfl rfl rfl

/-- The blocks of the rounds still to go. -/
def roundBlocks (p : Pool) (rounds : List Nat) : List Nat :=
  rounds.map fun i => p.memory.pBlockMemoryHead + sizeofMemoryBlock * i

theorem round_blocks_same {p' : Pool} (same : SameSizes p.memory p'.memory) (rounds : List Nat) :
    roundBlocks p' rounds = roundBlocks p rounds := by
  simp only [roundBlocks, same.pBlockMemoryHead]

theorem add_blocks_lists (rounds : List Nat) (blockSize : Nat) (lists : Lists p free used)
    (fresh : ∀ a ∈ roundBlocks p rounds, a ∉ free ++ used) (once : (roundBlocks p rounds).Nodup) :
    ∃ p', rounds.foldlM (addBlock blockSize) p = some p' ∧ SameSizes p.memory p'.memory ∧
      Lists p' (free ++ roundBlocks p rounds) used := by
  induction rounds generalizing p free with
  | nil => exact ⟨p, rfl, ⟨rfl, rfl, rfl⟩, by simpa [roundBlocks] using lists⟩
  | cons i rounds ih =>
    have parts := List.nodup_cons.mp once
    obtain ⟨p', added, same, lists'⟩ := add_block_lists lists blockSize i (fresh _ (by
      simp [roundBlocks]))
    have later := round_blocks_same same rounds
    obtain ⟨p'', rest, same', lists''⟩ := ih lists' (by
      rw [later]
      intro a inside member
      simp only [List.mem_append, List.mem_singleton] at member
      rcases member with (first | rfl) | last
      · exact fresh a (List.mem_cons_of_mem _ inside) (by simp [first])
      · exact parts.1 inside
      · exact fresh a (List.mem_cons_of_mem _ inside) (by simp [last])) (by
      rw [later]
      exact parts.2)
    refine ⟨p'', ?_, ?_, ?_⟩
    · rw [List.foldlM_cons, added]
      exact rest
    · exact same_sizes_trans same same'
    · rw [later, List.append_assoc] at lists''
      exact lists''

theorem headers_once (count blockMemory : Nat) : (headers count blockMemory).Nodup := by
  apply List.Nodup.map _ List.nodup_range
  intro i j same
  simp only [sizeofMemoryBlock] at same
  omega

theorem xpool_block_lists (lists : Lists p free used) (count size blockMemory dataMemory : Nat)
    (fresh : ∀ a ∈ headers count blockMemory, a ∉ free ++ used) :
    ∃ p', Xpool_block count size blockMemory dataMemory p = some p' ∧
      p'.memory.blockCountStep = p.memory.blockCountStep ∧
      Lists p' (free ++ headers count blockMemory) used := by
  have set_heads : Lists { p with memory := { p.memory with
      pBlockMemoryHead := blockMemory, pDataMemoryHead := dataMemory } } free used :=
    ⟨lists.free_head, lists.free_next, lists.free_last, lists.used_head, lists.used_next,
      lists.used_last, lists.used_prev, lists.once⟩
  obtain ⟨p', added, same, lists'⟩ :=
    add_blocks_lists (List.range count) size set_heads fresh (headers_once count blockMemory)
  exact ⟨p', added, same.blockCountStep, lists'⟩

theorem take_block_first {block : Nat} (head : p.memory.freeHead = some block)
    (none_used : p.memory.usedHead = none) :
    takeBlock p = some
      (⟨{ p.memory with freeHead := (p.blocks block).pNext, freeCount := p.memory.freeCount - 1
                        usedHead := some block, usedTail := some block },
        store p.blocks block ⟨none, p.memory.usedTail, block⟩⟩, block + sizeofPointer) := by
  simp only [takeBlock, head, Option.bind_some, none_used]

theorem take_block_more {block first tail : Nat} (head : p.memory.freeHead = some block)
    (some_used : p.memory.usedHead = some first) (last : p.memory.usedTail = some tail) :
    takeBlock p = some
      (⟨{ p.memory with freeHead := (p.blocks block).pNext, freeCount := p.memory.freeCount - 1
                        usedTail := some block },
        setNext (store p.blocks block ⟨none, p.memory.usedTail, block⟩) tail (some block)⟩,
        block + sizeofPointer) := by
  simp only [takeBlock, head, Option.bind_some, some_used, last, Option.map_some]

theorem take_block_lists {block : Nat} {rest : List Nat} (lists : Lists p (block :: rest) used) :
    ∃ p', takeBlock p = some (p', block + sizeofPointer) ∧
      p'.memory.blockCountStep = p.memory.blockCountStep ∧ Lists p' rest (used ++ [block]) := by
  have head : p.memory.freeHead = some block := lists.free_head.symm
  have parts := List.nodup_cons.mp lists.once
  have not_block : ∀ y ∈ rest ++ used, y ≠ block :=
    fun y inside => ne_of_mem_of_not_mem inside parts.1
  have moved : (rest ++ (used ++ [block])).Nodup := by
    rw [← List.append_assoc, List.perm_append_comm.nodup_iff]
    exact lists.once
  have next_head : headOr id rest none = (p.blocks block).pNext := lists.free_next.1.symm
  have free_last : rest ≠ [] → p.memory.freeTail = lastOr none rest := by
    intro some_rest
    exact (lists.free_last (by simp)).trans (last_or_front _ _ some_rest)
  rcases List.eq_nil_or_concat' used with empty | ⟨xs, tail, split_used⟩
  · subst empty
    have none_used : p.memory.usedHead = none := lists.used_head.symm
    refine ⟨_, take_block_first head none_used, rfl, ?_⟩
    refine ⟨next_head, ?_, free_last, rfl, ⟨?_, trivial⟩, fun _ => rfl, ⟨_, rfl, trivial⟩, moved⟩
    · apply forward_same _ lists.free_next.2
      intro y inside
      have other := not_block y (by simp [inside])
      simp only [next, store_other _ _ other]
    · simp [next, headOr]
  · subst split_used
    have used_head := lists.used_head
    obtain ⟨first, some_used⟩ : ∃ first, p.memory.usedHead = some first := by
      rw [← used_head]
      cases xs <;> exact ⟨_, rfl⟩
    have last : p.memory.usedTail = some tail := by
      rw [lists.used_last (by simp), last_or_concat]
    have tail_used : tail ∈ xs ++ [tail] := by simp
    refine ⟨_, take_block_more head some_used last, rfl, ?_⟩
    refine ⟨next_head, ?_, free_last, ?_, ?_, ?_, ?_, moved⟩
    · apply forward_untouched _ _ _ lists.free_next.2
      · exact fun inside => parts.1 (List.mem_append_left _ inside)
      · exact fun inside => lists_apart lists (List.mem_cons_of_mem _ inside) tail_used
    · have same := head_or_behind xs tail [block] [] none
      rw [List.append_nil] at same
      exact same.trans used_head
    · apply forward_joined _ _ _ lists.used_next (lists_used_once lists) _ rfl
      exact lists_apart lists List.mem_cons_self
    · intro _
      rw [last_or_concat]
    · obtain ⟨front, backward⟩ := lists.used_prev
      refine ⟨front, backward_concat ?_ ?_ backward⟩
      · intro y inside
        have other := not_block y (by
          simp only [List.mem_append] at inside ⊢
          exact .inr inside)
        simp [prev, store_other _ _ other]
      · rw [last_or_concat]
        simp [prev, last]

end Steps

section Free
variable {p : Pool} {free xs ys : List Nat} {block : Nat}

theorem used_neighbours (lists : Lists p free (xs ++ block :: ys)) :
    (p.blocks block).pNext = headOr id ys none ∧
      ∃ front, Backward (prev p) front (xs ++ block :: ys) ∧
        (p.blocks block).pPrev = lastOr front xs := by
  have forward := (forward_append.mp lists.used_next).2
  obtain ⟨front, backward⟩ := lists.used_prev
  exact ⟨forward.1, front, backward, (backward_append.mp backward).2.1⟩

theorem used_rest_once (lists : Lists p free (xs ++ block :: ys)) :
    (free ++ (xs ++ ys)).Nodup ∧ block ∉ free ++ (xs ++ ys) := by
  have once := lists.once
  have moved : (free ++ (xs ++ block :: ys)).Perm (block :: (free ++ (xs ++ ys))) := by
    rw [← List.append_assoc, ← List.append_assoc]
    exact List.perm_middle
  rw [moved.nodup_iff] at once
  exact ⟨(List.nodup_cons.mp once).2, (List.nodup_cons.mp once).1⟩

theorem unlink_first (lists : Lists p free (block :: ys))
    (before : (p.blocks block).pPrev = none) : Lists (unlinkBlock p block) free ys := by
  obtain ⟨next_is, front, backward, _⟩ := @used_neighbours p free [] ys block lists
  have once := (@used_rest_once p free [] ys block lists).1
  cases ys with
  | nil =>
    have behind : (p.blocks block).pNext = none := next_is
    simp only [unlinkBlock, before, behind]
    exact ⟨lists.free_head, lists.free_next, lists.free_last, rfl, trivial,
      fun never => absurd rfl never, ⟨none, trivial⟩, once⟩
  | cons y ys =>
    have behind : (p.blocks block).pNext = some y := next_is
    have parts := List.nodup_cons.mp (List.nodup_append.mp once).2.1
    have other : ∀ x ∈ ys, x ≠ y := fun x inside => ne_of_mem_of_not_mem inside parts.1
    simp only [unlinkBlock, before, behind]
    refine ⟨lists.free_head, ?_, lists.free_last, rfl, ?_, ?_, ⟨none, ?_⟩, once⟩
    · apply forward_same _ lists.free_next
      simp [next]
    · apply forward_same _ lists.used_next.2
      simp [next]
    · intro _
      exact lists.used_last (by simp)
    · apply backward_redirect _ _ backward.2
      · intro x inside
        simp [prev, set_prev_prev, other x inside]
      · simp [prev, set_prev_prev]

theorem unlink_behind_next {a : Nat} (before : (p.blocks block).pPrev = some a) (x : Nat) :
    next (unlinkBlock p block) x =
      if x = a then (p.blocks block).pNext else next p x := by
  cases behind : (p.blocks block).pNext with
  | none => simp only [unlinkBlock, before, behind, next, set_next_next]
  | some y => simp only [unlinkBlock, before, behind, next, set_prev_next, set_next_next]

theorem unlink_behind {a : Nat} (lists : Lists p free (xs ++ [a] ++ block :: ys))
    (before : (p.blocks block).pPrev = some a) :
    Lists (unlinkBlock p block) free (xs ++ [a] ++ ys) := by
  obtain ⟨next_is, front, backward, _⟩ := used_neighbours lists
  have once := (used_rest_once lists).1
  have used_once : (a :: (xs ++ ys)).Nodup := by
    rw [← List.perm_middle.nodup_iff]
    simpa using (List.nodup_append.mp once).2.1
  have head : headOr id (xs ++ [a] ++ ys) none = p.memory.usedHead :=
    (head_or_behind xs a ys (block :: ys) none).trans lists.used_head
  have free_next : Forward (next (unlinkBlock p block)) free none := by
    apply forward_same _ lists.free_next
    intro x inside
    have other : x ≠ a := (List.nodup_append.mp once).2.2 x inside a (by simp)
    rw [unlink_behind_next before, if_neg other]
  have used_next : Forward (next (unlinkBlock p block)) (xs ++ [a] ++ ys) none := by
    apply forward_remove _ _ lists.used_next
    · intro x inside
      have other := ne_of_mem_of_not_mem inside (List.nodup_cons.mp used_once).1
      rw [unlink_behind_next before, if_neg other]
    · rw [unlink_behind_next before, if_pos rfl, next_is]
  cases ys with
  | nil =>
    have behind : (p.blocks block).pNext = none := next_is
    simp only [unlinkBlock, before, behind] at free_next used_next ⊢
    refine ⟨lists.free_head, free_next, lists.free_last, head, used_next, ?_, ⟨front, ?_⟩, once⟩
    · intro _
      rw [List.append_nil, last_or_concat]
    · rw [List.append_nil]
      apply backward_same _ (backward_append.mp backward).1
      simp [prev]
  | cons y ys =>
    have behind : (p.blocks block).pNext = some y := next_is
    have last_once := (List.nodup_append.mp once).2.1
    rw [List.perm_middle.nodup_iff] at last_once
    have next_other : ∀ x ∈ xs ++ [a] ++ ys, x ≠ y :=
      fun x inside => ne_of_mem_of_not_mem inside (List.nodup_cons.mp last_once).1
    simp only [unlinkBlock, before, behind] at free_next used_next ⊢
    refine ⟨lists.free_head, free_next, lists.free_last, head, used_next, ?_, ⟨front, ?_⟩, once⟩
    · intro _
      change p.memory.usedTail = _
      rw [lists.used_last (by simp), last_or_append, last_or_append none (xs ++ [a]) (y :: ys)]
      rfl
    · apply backward_remove _ _ backward
      · intro x inside
        simp [prev, set_prev_prev, next_other x inside]
      · rw [last_or_concat]
        simp [prev, set_prev_prev]

/-- Taking a block out of the used list. The head must have no pPrev. -/
theorem unlink_block_lists (lists : Lists p free (xs ++ block :: ys))
    (clean : p.memory.usedHead = some block → (p.blocks block).pPrev = none) :
    Lists (unlinkBlock p block) free (xs ++ ys) := by
  obtain ⟨_, front, _, prev_is⟩ := used_neighbours lists
  cases before : (p.blocks block).pPrev with
  | none =>
    rw [before] at prev_is
    have first := last_or_none prev_is.symm
    subst first
    exact unlink_first lists before
  | some a =>
    have some_xs : xs ≠ [] := by
      rintro rfl
      have head : p.memory.usedHead = some block := lists.used_head.symm
      rw [clean head] at before
      cases before
    obtain ⟨zs, z, rfl⟩ := (List.eq_nil_or_concat' xs).resolve_left some_xs
    rw [before, last_or_concat] at prev_is
    cases prev_is
    exact unlink_behind lists before

theorem unlink_block_step (p : Pool) (block : Nat) :
    (unlinkBlock p block).memory.blockCountStep = p.memory.blockCountStep := by
  unfold unlinkBlock
  split <;> rfl

theorem xpool_free_lists (lists : Lists p free (xs ++ block :: ys)) (some_free : free ≠ [])
    (clean : p.memory.usedHead = some block → (p.blocks block).pPrev = none)
    (high : 0 < block) :
    ∃ p', Xpool_free p (block + sizeofPointer) = some p' ∧
      p'.memory.blockCountStep = p.memory.blockCountStep ∧ Lists p' (free ++ [block]) (xs ++ ys) := by
  have unlinked := unlink_block_lists lists clean
  obtain ⟨tail, ends⟩ := some_last some_free
  have last : (unlinkBlock p block).memory.freeTail = some tail :=
    (unlinked.free_last some_free).trans ends
  have address : block + sizeofPointer - sizeofPointer = block := Nat.add_sub_cancel _ _
  have given : block ≠ 0 := by omega
  have ran : Xpool_free p (block + sizeofPointer) = some
      ⟨{ (unlinkBlock p block).memory with
          freeTail := some block, freeCount := (unlinkBlock p block).memory.freeCount + 1 },
        setNext (store (unlinkBlock p block).blocks block
          ⟨none, (unlinkBlock p block).memory.freeTail, block⟩) tail (some block)⟩ := by
    simp only [Xpool_free, address, given, if_false, last, Option.map_some]
  refine ⟨_, ran, unlink_block_step p block, ?_⟩
  exact lists_append unlinked some_free (used_rest_once lists).2 last rfl rfl rfl rfl rfl

end Free

end UC.MemPool
