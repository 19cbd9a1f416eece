import Mathlib.Algebra.Group.Nat.Defs
import UC.Lib.DoublyLinked
import UC.Lib.Histories
import UC.Lib.Memory

/- The memory pool of example_mem_pool.cpp. Addresses are natural numbers, none is NULL, and
   none as a result is a NULL pointer that is dereferenced. Sizes and addresses do not wrap.
   Nobody writes to the memory that is handed out. -/
namespace UC.MemPool
open UC.Memory UC.Chains

abbrev Ptr := Option Nat

def sizeofMemoryBlock : Nat := 24

def sizeofPointer : Nat := 8

structure MemoryBlock where
  pNext : Ptr
  pPrev : Ptr
  data : Nat

structure MemoryPool where
  blockCount : Nat
  blockCountStep : Nat
  blockSize : Nat
  freeCount : UInt32
  freeHead : Ptr
  freeTail : Ptr
  usedHead : Ptr
  usedTail : Ptr
  pBlockMemoryHead : Nat
  pDataMemoryHead : Nat

/-- The static memory and the headers in the heap. -/
structure Pool where
  memory : MemoryPool
  blocks : Mem MemoryBlock

def setNext (blocks : Mem MemoryBlock) (a : Nat) (pNext : Ptr) : Mem MemoryBlock :=
  store blocks a { blocks a with pNext := pNext }

def setPrev (blocks : Mem MemoryBlock) (a : Nat) (pPrev : Ptr) : Mem MemoryBlock :=
  store blocks a { blocks a with pPrev := pPrev }

/-- A round of the loop of Xpool_block. -/
def addBlock (blockSize : Nat) (p : Pool) (i : Nat) : Option Pool :=
  let pFree := p.memory.pBlockMemoryHead + sizeofMemoryBlock * i
  let blocks := store p.blocks pFree
    ⟨none, p.memory.freeTail, p.memory.pDataMemoryHead + (blockSize + sizeofPointer) * i⟩
  match p.memory.freeHead with
  | none => some ⟨{ p.memory with freeHead := some pFree, freeTail := some pFree }, blocks⟩
  | some _ =>
    p.memory.freeTail.map fun tail =>
      ⟨{ p.memory with freeTail := some pFree }, setNext blocks tail (some pFree)⟩

/-- blockMemory and dataMemory are what the two calls of malloc answer. -/
def Xpool_block (blockCount blockSize blockMemory dataMemory : Nat) (p : Pool) : Option Pool :=
  (List.range blockCount).foldlM (addBlock blockSize)
    { p with memory := { p.memory with
        pBlockMemoryHead := blockMemory, pDataMemoryHead := dataMemory } }

/-- The pool that memory holds when Xpool_init calls Xpool_block. -/
def emptyPool (blockCount blockSize : Nat) : Pool where
  memory := { blockCount := blockCount, blockSize := blockSize, freeCount := blockCount.toUInt32,
              blockCountStep := 100, freeHead := none, freeTail := none, usedHead := none,
              usedTail := none, pBlockMemoryHead := 0, pDataMemoryHead := 0 }
  blocks := fun _ => ⟨none, none, 0⟩

/-- Xpool_alloc behind its test: the pool and the pointer it returns. The header of the block
    is stored as a whole; nothing in between reads its data. -/
def takeBlock (p : Pool) : Option (Pool × Nat) :=
  p.memory.freeHead.bind fun block =>
    let memory := { p.memory with
      freeHead := (p.blocks block).pNext, freeCount := p.memory.freeCount - 1 }
    let blocks := store p.blocks block ⟨none, p.memory.usedTail, block⟩
    match p.memory.usedHead with
    | none =>
      some (⟨{ memory with usedHead := some block, usedTail := some block }, blocks⟩,
        block + sizeofPointer)
    | some _ =>
      p.memory.usedTail.map fun tail =>
        (⟨{ memory with usedTail := some block }, setNext blocks tail (some block)⟩,
          block + sizeofPointer)

def Xpool_alloc (p : Pool) (blockMemory dataMemory : Nat) : Option (Pool × Nat) :=
  (if p.memory.freeHead = none then
    Xpool_block p.memory.blockCountStep p.memory.blockSize blockMemory dataMemory p
  else some p).bind takeBlock

/-- The branches head, tail and middle of Xpool_free. -/
def unlinkBlock (p : Pool) (block : Nat) : Pool :=
  match (p.blocks block).pPrev, (p.blocks block).pNext with
  | none, none => { p with memory := { p.memory with usedHead := none } }
  | none, some next =>
    ⟨{ p.memory with usedHead := some next }, setPrev p.blocks next none⟩
  | some prev, none =>
    ⟨{ p.memory with usedTail := some prev }, setNext p.blocks prev none⟩
  | some prev, some next =>
    { p with blocks := setPrev (setNext p.blocks prev (some next)) next (some prev) }

def Xpool_free (p : Pool) (ptr : Nat) : Option Pool :=
  let realptr := ptr - sizeofPointer
  if realptr = 0 then some p
  else
    let p := unlinkBlock p realptr
    let blocks := store p.blocks realptr ⟨none, p.memory.freeTail, realptr⟩
    p.memory.freeTail.map fun tail =>
      ⟨{ p.memory with freeTail := some realptr, freeCount := p.memory.freeCount + 1 },
        setNext blocks tail (some realptr)⟩

structure Region where
  start : Nat
  len : Nat
  deriving DecidableEq

def Region.Has (r : Region) (x : Nat) : Prop := r.start ≤ x ∧ x < r.start + r.len

def Region.Apart (r r' : Region) : Prop :=
  r.start + r.len ≤ r'.start ∨ r'.start + r'.len ≤ r.start

instance (r r' : Region) : Decidable (r.Apart r') := inferInstanceAs (Decidable (_ ∨ _))

/-- Beside the pool: the headers that Xpool_block has made, the regions of the two kinds that
    malloc has given, what is handed out, as pointers with their sizes, and whether NULL has
    been dereferenced. -/
structure State where
  pool : Pool
  created : List Nat
  blockRegions : List Region
  dataRegions : List Region
  allocated : List Region
  crashed : Bool

/-- malloc gives addresses above 0 and no byte twice. -/
def Fresh (s : State) (blocks data : Region) : Prop :=
  0 < blocks.start ∧ 0 < data.start ∧ blocks.Apart data ∧
    ∀ r ∈ s.blockRegions ++ s.dataRegions, blocks.Apart r ∧ data.Apart r

instance (s : State) (blocks data : Region) : Decidable (Fresh s blocks data) :=
  inferInstanceAs (Decidable (_ ∧ _))

def blockRegion (count blockMemory : Nat) : Region := ⟨blockMemory, sizeofMemoryBlock * count⟩

def dataRegion (count size dataMemory : Nat) : Region :=
  ⟨dataMemory, (size + sizeofPointer) * count⟩

def headers (count blockMemory : Nat) : List Nat :=
  (List.range count).map fun i => blockMemory + sizeofMemoryBlock * i

/-- What a call of Xpool_block adds beside the pool. -/
def State.more (s : State) (count size blockMemory dataMemory : Nat) : State :=
  { s with
    created := s.created ++ headers count blockMemory
    blockRegions := blockRegion count blockMemory :: s.blockRegions
    dataRegions := dataRegion count size dataMemory :: s.dataRegions }

def State.crash (s : State) : State := { s with crashed := true }

/-- none when malloc cannot give these addresses. -/
def Xpool_init (blockCount blockSize blockMemory dataMemory : Nat) : Option State :=
  let s : State := ⟨emptyPool blockCount blockSize, [], [], [], [], false⟩
  if Fresh s (blockRegion blockCount blockMemory) (dataRegion blockCount blockSize dataMemory) then
    match Xpool_block blockCount blockSize blockMemory dataMemory s.pool with
    | none => some s.crash
    | some pool => some { s.more blockCount blockSize blockMemory dataMemory with pool := pool }
  else none

/-- blockMemory and dataMemory are only used when the pool grows. -/
inductive Event where
  | alloc (size blockMemory dataMemory : Nat)
  | free (ptr : Nat)

/-- A pointer is freed only while it is allocated. -/
def step (s : State) (ev : Event) : Option State :=
  if s.crashed then none
  else match ev with
    | .alloc size blockMemory dataMemory =>
      let m := s.pool.memory
      let grows := m.freeHead = none
      if grows ∧ ¬ Fresh s (blockRegion m.blockCountStep blockMemory)
          (dataRegion m.blockCountStep m.blockSize dataMemory) then none
      else
        let s' := if grows then s.more m.blockCountStep m.blockSize blockMemory dataMemory else s
        match Xpool_alloc s.pool blockMemory dataMemory with
        | none => some s'.crash
        | some (pool, ptr) => some { s' with pool := pool, allocated := ⟨ptr, size⟩ :: s'.allocated }
    | .free ptr =>
      if ptr ∈ s.allocated.map Region.start then
        match Xpool_free s.pool ptr with
        | none => some s.crash
        | some pool => some { s with
            pool := pool, allocated := s.allocated.eraseP fun r => r.start = ptr }
      else none

section Taken
variable {s t : State}

theorem alloc_taken {size blockMemory dataMemory : Nat}
    (taken : step s (.alloc size blockMemory dataMemory) = some t)
    (some_free : s.pool.memory.freeHead ≠ none) {pool : Pool} {ptr : Nat}
    (ran : takeBlock s.pool = some (pool, ptr)) :
    t = { s with pool := pool, allocated := ⟨ptr, size⟩ :: s.allocated } := by
  simp only [step] at taken
  split at taken
  · cases taken
  · simp only [some_free, false_and, if_false, Xpool_alloc, Option.bind_some, ran,
      Option.some.injEq] at taken
    exact taken.symm

theorem alloc_grown {size blockMemory dataMemory : Nat}
    (taken : step s (.alloc size blockMemory dataMemory) = some t)
    (none_free : s.pool.memory.freeHead = none) :
    let count := s.pool.memory.blockCountStep
    let blockSize := s.pool.memory.blockSize
    Fresh s (blockRegion count blockMemory) (dataRegion count blockSize dataMemory) ∧
      ∀ grown pool ptr, Xpool_block count blockSize blockMemory dataMemory s.pool = some grown →
        takeBlock grown = some (pool, ptr) →
        t = { s.more count blockSize blockMemory dataMemory with
          pool := pool, allocated := ⟨ptr, size⟩ :: s.allocated } := by
  simp only [step] at taken
  split at taken
  · cases taken
  · simp only [none_free, true_and] at taken
    split at taken
    · cases taken
    · rename_i given
      refine ⟨Decidable.not_not.mp given, ?_⟩
      intro grown pool ptr added ran
      simp only [Xpool_alloc, none_free, if_true, added, Option.bind_some, ran,
        Option.some.injEq] at taken
      exact taken.symm

theorem free_taken {ptr : Nat} (taken : step s (.free ptr) = some t) :
    s.crashed = false ∧ ptr ∈ s.allocated.map Region.start ∧
      ((Xpool_free s.pool ptr = none ∧ t = s.crash) ∨
        ∃ pool, Xpool_free s.pool ptr = some pool ∧ t = { s with
          pool := pool, allocated := s.allocated.eraseP fun r => r.start = ptr }) := by
  simp only [step] at taken
  split at taken
  · cases taken
  · rename_i alive
    split at taken
    · rename_i given
      refine ⟨by simpa using alive, given, ?_⟩
      cases ran : Xpool_free s.pool ptr with
      | none =>
        simp only [ran, Option.some.injEq] at taken
        exact .inl ⟨rfl, taken.symm⟩
      | some pool =>
        simp only [ran, Option.some.injEq] at taken
        exact .inr ⟨pool, rfl, taken.symm⟩
    · cases taken

end Taken

/-- The list from a head along pNext. -/
def ListFrom (p : Pool) (head : Ptr) (l : List Nat) : Prop :=
  headOr id l none = head ∧ DoublyLinked.Forward (fun a => (p.blocks a).pNext) l none

/-- Every block is in one of the two lists, and the used ones are those that are allocated,
    each of them once. -/
def Partition (s : State) : Prop :=
  s.crashed = false ∧ ∃ free used,
    ListFrom s.pool s.pool.memory.freeHead free ∧ ListFrom s.pool s.pool.memory.usedHead used ∧
    (∀ block ∈ s.created, (block ∈ free ∧ block ∉ used) ∨ (block ∈ used ∧ block ∉ free)) ∧
    (∀ block, block ∈ used ↔ block + sizeofPointer ∈ s.allocated.map Region.start) ∧
    (s.allocated.map Region.start).Nodup

/-- The user areas: disjoint, inside a data region, and outside every header. -/
structure Separate (s : State) : Prop where
  apart : s.allocated.Pairwise fun r r' => ∀ x, r.Has x → ¬ r'.Has x
  inside : ∀ r ∈ s.allocated, ∃ region ∈ s.dataRegions, ∀ x, r.Has x → region.Has x
  headers : ∀ r ∈ s.allocated, ∀ block ∈ s.created, ∀ x, r.Has x →
    ¬ (Region.mk block sizeofMemoryBlock).Has x

end UC.MemPool
