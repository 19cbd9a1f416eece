import Mathlib.Data.List.Nodup
import Mathlib.Data.List.Range
import UC.Lib.Chains
import UC.Lib.Heaps
import UC.StringTable.Size

/- The same table with its pointers: malloc hands out a block for each node and one for each
   key, and hash_table_release walks all chains. A loop that has not ended when its rounds are
   used up, and any use of what is not live, leave no result. -/
namespace UC.StringTable.Blocks
open UC.Memory UC.Chains UC.Heaps UC.Histories

structure Node where
  sKey : Option Nat
  nValue : Int
  pNext : Option Nat

inductive Block where
  | string (s : CString)
  | node (node : Node)

abbrev Memory := Heap Block

structure Program where
  heap : Memory
  hashTable : Mem (Option Nat)
  hash_table_size : Int

def hash_table_init : Program := ⟨⟨0, fun _ => none, 0, []⟩, fun _ => none, 0⟩

def nodeAt (h : Memory) (p : Nat) : Option Node :=
  match h.cells p with
  | some (.node node) => some node
  | _ => none

def stringAt (h : Memory) (sKey : Option Nat) : Option CString :=
  match sKey.bind h.cells with
  | some (.string s) => some s
  | _ => none

/-- The loop over a chain that compares each key: pLast and pHead behind it. -/
def walk (h : Memory) (skey : CString) : Nat → Option Nat → Option Nat →
    Option (Option Nat × Option Nat)
  | 0, _, _ => none
  | _ + 1, pLast, none => some (pLast, none)
  | rounds + 1, pLast, some pHead =>
    (nodeAt h pHead).bind fun node =>
      (stringAt h node.sKey).bind fun sKey =>
        if sKey = skey then some (pLast, some pHead) else walk h skey rounds (some pHead) node.pNext

def hash_table_insert (rounds : Nat) (s : Program) (skey : CString) (nvalue : Int) :
    Option Program :=
  if s.hash_table_size ≥ HASH_TABLE_MAX_SIZE then some s
  else
    let pos := position skey
    (walk s.heap skey rounds none (s.hashTable pos)).bind fun found =>
      match found.2 with
      | some _ => some s
      | none =>
        let (pNewNode, h) := s.heap.malloc (.node ⟨none, 0, none⟩)
        let (sKey, h) := h.malloc (.string skey)
        (h.write pNewNode (.node ⟨some sKey, nvalue, s.hashTable pos⟩)).map fun h =>
          ⟨h, store s.hashTable pos (some pNewNode), s.hash_table_size + 1⟩

/-- free of a NULL does nothing. -/
def free (h : Memory) : Option Nat → Option Memory
  | none => some h
  | some a => h.free a

/-- What hangs on pLast, or else on the entry, is no longer pRemove. -/
def detach (s : Program) (pos : Nat) (pLast pNext : Option Nat) :
    Option (Memory × Mem (Option Nat)) :=
  match pLast with
  | none => some (s.heap, store s.hashTable pos none)
  | some pLast =>
    (nodeAt s.heap pLast).bind fun node =>
      (s.heap.write pLast (.node { node with pNext := pNext })).map fun h => (h, s.hashTable)

def hash_table_remove (rounds : Nat) (s : Program) (skey : CString) : Option Program :=
  let pos := position skey
  match s.hashTable pos with
  | none => some s
  | some pHead =>
    (walk s.heap skey rounds none (some pHead)).bind fun found =>
      match found.2 with
      | none => some s
      | some pRemove =>
        (nodeAt s.heap pRemove).bind fun node =>
          (detach s pos found.1 node.pNext).bind fun detached =>
            (free detached.1 node.sKey).bind fun h =>
              (h.free pRemove).map fun h => ⟨h, detached.2, s.hash_table_size⟩

def hash_table_lookup (rounds : Nat) (s : Program) (skey : CString) : Option (Option Nat) :=
  (walk s.heap skey rounds none (s.hashTable (position skey))).map Prod.snd

def call (rounds : Nat) (s : Program) : Call → Option Program
  | .insert skey nvalue => hash_table_insert rounds s skey nvalue
  | .remove skey => hash_table_remove rounds s skey
  | .lookup skey => (hash_table_lookup rounds s skey).map fun _ => s

/-- Key and value of the node that a lookup answers. -/
def read (h : Memory) : Option Nat → Option (Option HashNode)
  | none => some none
  | some p =>
    (nodeAt h p).bind fun node =>
      (stringAt h node.sKey).map fun sKey => some ⟨sKey, node.nValue⟩

def printChain (h : Memory) : Nat → Option Nat → Option (List HashNode)
  | 0, _ => none
  | _ + 1, none => some []
  | rounds + 1, some pHead =>
    (nodeAt h pHead).bind fun node =>
      (stringAt h node.sKey).bind fun sKey =>
        (printChain h rounds node.pNext).map fun behind => ⟨sKey, node.nValue⟩ :: behind

/-- A line has its index and the nodes on it; where there is none, nothing is printed. -/
def printLine (rounds : Nat) (s : Program) (before : List (Nat × List HashNode)) (i : Nat) :
    Option (List (Nat × List HashNode)) :=
  match s.hashTable i with
  | none => some before
  | some pHead => (printChain s.heap rounds (some pHead)).map fun line => before ++ [(i, line)]

def hash_table_print (rounds : Nat) (s : Program) : Option (List (Nat × List HashNode)) :=
  (List.range 10000).foldlM (printLine rounds s) []

def releaseChain : Nat → Memory → Option Nat → Option Memory
  | 0, _, _ => none
  | _ + 1, h, none => some h
  | rounds + 1, h, some pTemp =>
    (nodeAt h pTemp).bind fun node =>
      (free h node.sKey).bind fun h =>
        (h.free pTemp).bind fun h => releaseChain rounds h node.pNext

def hash_table_release (rounds : Nat) (s : Program) : Option Memory :=
  (List.range 10000).foldlM (fun h i => releaseChain rounds h (s.hashTable i)) s.heap

def next (t : Table) : Call → Table
  | .insert skey nvalue => StringTable.hash_table_insert t skey nvalue
  | .remove skey => StringTable.hash_table_remove t skey
  | .lookup _ => t

/-- The nodes that a removal cuts off behind the one it frees. -/
def dropped (t : Table) : Call → Nat
  | .remove skey =>
    match t.hashTable (position skey) with
    | [] => 0
    | pHead :: pNext => if pHead.sKey = skey then pNext.length else 0
  | .insert _ _ | .lookup _ => 0

def allDropped : List Call → Table → Nat
  | [], _ => 0
  | op :: rest, t => dropped t op + allDropped rest (next t op)

structure Placed where
  pNode : Nat
  pKey : Nat
  entry : HashNode

def blocks (xs : List Placed) : List Nat := xs.flatMap fun x => [x.pKey, x.pNode]

def Shown (h : Memory) (x : Placed) (pNext : Option Nat) : Prop :=
  h.cells x.pNode = some (.node ⟨some x.pKey, x.entry.nValue, pNext⟩) ∧
    h.cells x.pKey = some (.string x.entry.sKey)

abbrev Chained (h : Memory) (xs : List Placed) (tail : Option Nat) : Prop :=
  Linked (Shown h) Placed.pNode xs tail

section Chains
variable {h h' : Memory} {xs ys : List Placed} {x : Placed} {tail : Option Nat} {skey : CString}
  {rounds : Nat}

theorem chained_middle : Chained h (xs ++ x :: ys) tail ↔ Chained h xs (some x.pNode) ∧
    Shown h x (headOr Placed.pNode ys tail) ∧ Chained h ys tail := linked_middle xs ys x tail

theorem node_shown {pNext : Option Nat} (shown : Shown h x pNext) :
    nodeAt h x.pNode = some ⟨some x.pKey, x.entry.nValue, pNext⟩ := by
  rw [nodeAt, shown.1]

theorem string_shown {pNext : Option Nat} (shown : Shown h x pNext) :
    stringAt h (some x.pKey) = some x.entry.sKey := by
  rw [stringAt, Option.bind_some, shown.2]

@[simp] theorem blocks_cons : blocks (x :: xs) = x.pKey :: x.pNode :: blocks xs := rfl

@[simp] theorem blocks_append : blocks (xs ++ ys) = blocks xs ++ blocks ys := List.flatMap_append

theorem node_mem (member : x ∈ xs) : x.pNode ∈ blocks xs :=
  List.mem_flatMap.mpr ⟨x, member, by simp⟩

theorem key_mem (member : x ∈ xs) : x.pKey ∈ blocks xs :=
  List.mem_flatMap.mpr ⟨x, member, by simp⟩

theorem blocks_length (xs : List Placed) : (blocks xs).length = 2 * xs.length := by
  induction xs with
  | nil => rfl
  | cons x xs ih =>
    rw [blocks_cons, List.length_cons, List.length_cons, List.length_cons, ih]
    omega

theorem chained_frame (same : ∀ a ∈ blocks xs, h'.cells a = h.cells a)
    (chained : Chained h xs tail) : Chained h' xs tail := by
  refine linked_imp ?_ chained
  rintro x member pNext ⟨node, key⟩
  exact ⟨(same _ (node_mem member)).trans node, (same _ (key_mem member)).trans key⟩

theorem chained_live (chained : Chained h xs tail) {a : Nat} (member : a ∈ blocks xs) :
    (h.cells a).isSome := by
  obtain ⟨x, inside, here⟩ := List.mem_flatMap.mp member
  obtain ⟨pNext, node, key⟩ := linked_mem chained inside
  simp only [List.mem_cons, List.not_mem_nil, or_false] at here
  rcases here with rfl | rfl
  · rw [key]
    rfl
  · rw [node]
    rfl

/-- Where pLast is behind the nodes xs. -/
def lastOf (pLast : Option Nat) : List Placed → Option Nat
  | [] => pLast
  | x :: xs => lastOf (some x.pNode) xs

theorem last_of_concat (pLast : Option Nat) (xs : List Placed) (x : Placed) :
    lastOf pLast (xs ++ [x]) = some x.pNode := by
  induction xs generalizing pLast with
  | nil => rfl
  | cons y xs ih => exact ih _

theorem walk_passes (chained : Chained h xs tail) (other : ∀ x ∈ xs, x.entry.sKey ≠ skey)
    (pLast : Option Nat) :
    walk h skey (xs.length + rounds) pLast (headOr Placed.pNode xs tail) =
      walk h skey rounds (lastOf pLast xs) tail := by
  induction xs generalizing pLast with
  | nil => rw [List.length_nil, Nat.zero_add, headOr, lastOf]
  | cons x xs ih =>
    obtain ⟨here, later⟩ := chained
    have apart := other x List.mem_cons_self
    rw [List.length_cons, Nat.add_right_comm, head_or_cons, walk, node_shown here,
      Option.bind_some, string_shown here, Option.bind_some, if_neg apart, lastOf]
    exact ih later (fun y member => other y (List.mem_cons_of_mem x member)) _

theorem walk_finds {pNext : Option Nat} (here : Shown h x pNext) (same : x.entry.sKey = skey)
    (pLast : Option Nat) :
    walk h skey (rounds + 1) pLast (some x.pNode) = some (pLast, some x.pNode) := by
  rw [walk, node_shown here, Option.bind_some, string_shown here, Option.bind_some, if_pos same]

theorem first_key (skey : CString) (xs : List Placed) :
    (∀ x ∈ xs, x.entry.sKey ≠ skey) ∨ ∃ before x behind, xs = before ++ x :: behind ∧
      (∀ y ∈ before, y.entry.sKey ≠ skey) ∧ x.entry.sKey = skey := by
  induction xs with
  | nil => exact .inl fun x member => absurd member List.not_mem_nil
  | cons x xs ih =>
    by_cases same : x.entry.sKey = skey
    · exact .inr ⟨[], x, xs, rfl, fun y member => absurd member List.not_mem_nil, same⟩
    · rcases ih with none_found | ⟨before, y, behind, split, other, found⟩
      · exact .inl (List.forall_mem_cons.mpr ⟨same, none_found⟩)
      · exact .inr ⟨x :: before, y, behind, by rw [split, List.cons_append],
          List.forall_mem_cons.mpr ⟨same, other⟩, found⟩

theorem scan_other (other : ∀ x ∈ xs, x.entry.sKey ≠ skey) :
    scan skey (xs.map Placed.entry) = none := by
  induction xs with
  | nil => rfl
  | cons x xs ih =>
    obtain ⟨first, later⟩ := List.forall_mem_cons.mp other
    rw [List.map_cons, scan, if_neg first]
    exact ih later

theorem scan_first (other : ∀ x ∈ xs, x.entry.sKey ≠ skey) (same : x.entry.sKey = skey) :
    scan skey ((xs ++ x :: ys).map Placed.entry) = some x.entry := by
  induction xs with
  | nil => rw [List.nil_append, List.map_cons, scan, if_pos same]
  | cons y xs ih =>
    obtain ⟨first, later⟩ := List.forall_mem_cons.mp other
    rw [List.cons_append, List.map_cons, scan, if_neg first]
    exact ih later

theorem unlink_first (other : ∀ x ∈ xs, x.entry.sKey ≠ skey) (same : x.entry.sKey = skey) :
    unlink skey ((xs ++ x :: ys).map Placed.entry) = (xs ++ ys).map Placed.entry := by
  induction xs with
  | nil => rw [List.nil_append, List.map_cons, unlink, if_pos same.symm, List.nil_append]
  | cons y xs ih =>
    obtain ⟨first, later⟩ := List.forall_mem_cons.mp other
    rw [List.cons_append, List.map_cons, unlink, if_neg (Ne.symm first), ih later]
    rfl

theorem print_chain (chained : Chained h xs none) (enough : xs.length < rounds) :
    printChain h rounds (headOr Placed.pNode xs none) = some (xs.map Placed.entry) := by
  induction xs generalizing rounds with
  | nil =>
    obtain ⟨k, rfl⟩ := Nat.exists_eq_add_of_lt enough
    rfl
  | cons x xs ih =>
    obtain ⟨here, later⟩ := chained
    cases rounds with
    | zero => exact absurd enough (Nat.not_lt_zero _)
    | succ rounds =>
      rw [head_or_cons, printChain, node_shown here, Option.bind_some, string_shown here,
        Option.bind_some, ih later (Nat.lt_of_succ_lt_succ enough)]
      rfl

theorem release_chain (chained : Chained h xs none) (once : (blocks xs).Nodup)
    (dynamic : h.base = 0) (enough : xs.length < rounds) :
    ∃ h', releaseChain rounds h (headOr Placed.pNode xs none) = some h' ∧
      h.Dropped h' (blocks xs) := by
  induction xs generalizing h rounds with
  | nil =>
    obtain ⟨k, rfl⟩ := Nat.exists_eq_add_of_lt enough
    exact ⟨h, rfl, Heap.dropped_nil h⟩
  | cons x xs ih =>
    obtain ⟨here, later⟩ := chained
    cases rounds with
    | zero => exact absurd enough (Nat.not_lt_zero _)
    | succ rounds =>
      rw [blocks_cons, List.nodup_cons, List.nodup_cons, List.mem_cons, not_or] at once
      obtain ⟨⟨apart, keyOut⟩, nodeOut, once⟩ := once
      have key : h.Dropped (h.drop x.pKey) [x.pKey] :=
        Heap.dropped_drop here.2 (dynamic ▸ Nat.zero_le _)
      have still := (h.drop_other (Ne.symm apart)).trans here.1
      have node := Heap.dropped_append key
        (Heap.dropped_drop still (dynamic ▸ Nat.zero_le _))
      have same : ∀ a ∈ blocks xs, ((h.drop x.pKey).drop x.pNode).cells a = h.cells a := by
        intro a member
        apply node.kept a
        rintro (_ | ⟨_, _ | ⟨_, none_more⟩⟩)
        · exact keyOut member
        · exact nodeOut member
        · cases none_more
      obtain ⟨h', run, rest⟩ := ih (chained_frame same later) once (node.base.trans dynamic)
        (Nat.lt_of_succ_lt_succ enough)
      refine ⟨h', ?_, Heap.dropped_append node rest⟩
      rw [head_or_cons, releaseChain, node_shown here, Option.bind_some, free,
        Heap.free_live here.2 (dynamic ▸ Nat.zero_le _), Option.bind_some,
        Heap.free_live still (dynamic ▸ Nat.zero_le _), Option.bind_some]
      exact run

end Chains

/-- The program in memory: chain i has the nodes layout i, whose entries are those of the table
    without pointers; lost are the blocks that no chain leads to any more. -/
structure Laid (s : Program) (t : Table) (layout : Nat → List Placed) (lost : List Nat)
    (calls : Nat) : Prop where
  sound : s.heap.Sound
  base : s.heap.base = 0
  size : s.hash_table_size = t.hash_table_size
  head : ∀ i, s.hashTable i = headOr Placed.pNode (layout i) none
  chained : ∀ i, Chained s.heap (layout i) none
  same : ∀ i, t.hashTable i = (layout i).map Placed.entry
  short : ∀ i, (layout i).length ≤ calls
  once : ∀ i, (blocks (layout i)).Nodup
  apart : ∀ i j, i ≠ j → (blocks (layout i)).Disjoint (blocks (layout j))
  unreached : ∀ i, ∀ a ∈ blocks (layout i), a ∉ lost
  distinct : lost.Nodup
  live : ∀ a, (s.heap.cells a).isSome ↔ (∃ i < 10000, a ∈ blocks (layout i)) ∨ a ∈ lost

section Calls
variable {s : Program} {t : Table} {layout : Nat → List Placed} {lost : List Nat}
  {calls rounds : Nat} {skey : CString}

theorem laid_start : Laid hash_table_init StringTable.hash_table_init (fun _ => []) [] 0 where
  sound := Heap.sound_start (by simp)
  base := rfl
  size := rfl
  head _ := rfl
  chained _ := trivial
  same _ := rfl
  short _ := Nat.le_refl 0
  once _ := List.nodup_nil
  apart _ _ _ := List.disjoint_nil_left _
  unreached _ _ _ := List.not_mem_nil
  distinct := List.nodup_nil
  live a := by simp [hash_table_init, blocks]

theorem laid_more (laid : Laid s t layout lost calls) : Laid s t layout lost (calls + 1) :=
  { laid with short := fun i => Nat.le_succ_of_le (laid.short i) }

theorem laid_store (laid : Laid s t layout lost calls) (skey : CString) (h : Memory)
    (xs : List Placed) (more : List Nat) {calls' : Nat} (size : Int) (sound : h.Sound)
    (base : h.base = 0) (chained : Chained h xs none)
    (kept : ∀ i ≠ position skey, ∀ a ∈ blocks (layout i), h.cells a = s.heap.cells a)
    (short : xs.length ≤ calls') (later : calls ≤ calls') (once : (blocks xs).Nodup)
    (apart : ∀ i ≠ position skey, (blocks xs).Disjoint (blocks (layout i)))
    (unreached : ∀ a ∈ blocks xs, a ∉ more)
    (others : ∀ i ≠ position skey, ∀ a ∈ blocks (layout i), a ∉ more) (distinct : more.Nodup)
    (live : ∀ a, (h.cells a).isSome ↔ a ∈ blocks xs ∨
      (∃ i < 10000, i ≠ position skey ∧ a ∈ blocks (layout i)) ∨ a ∈ more) :
    Laid ⟨h, store s.hashTable (position skey) (headOr Placed.pNode xs none), size⟩
      ⟨store t.hashTable (position skey) (xs.map Placed.entry), size⟩
      (store layout (position skey) xs) more calls' := by
  have split : ∀ {P : Nat → List Placed → Prop}, P (position skey) xs →
      (∀ i ≠ position skey, P i (layout i)) → ∀ i, P i (store layout (position skey) xs i) := by
    intro P here elsewhere i
    by_cases it : i = position skey
    · rw [it, store_same]
      exact here
    · rw [store_other _ _ it]
      exact elsewhere i it
  refine ⟨sound, base, rfl, ?_, split (P := fun _ xs => Chained h xs none) chained ?_, ?_,
    split (P := fun _ xs => xs.length ≤ calls') short ?_,
    split (P := fun _ xs => (blocks xs).Nodup) once ?_, ?_,
    split (P := fun _ xs => ∀ a ∈ blocks xs, a ∉ more) unreached others, distinct, ?_⟩
  · refine split (P := fun i xs => store s.hashTable _ _ i = headOr Placed.pNode xs none)
      (store_same _ _ _) fun i other => ?_
    exact (store_other _ _ other).trans (laid.head i)
  · exact fun i other => chained_frame (kept i other) (laid.chained i)
  · refine split (P := fun i xs => store t.hashTable _ _ i = xs.map Placed.entry)
      (store_same _ _ _) fun i other => ?_
    exact (store_other _ _ other).trans (laid.same i)
  · exact fun i _ => Nat.le_trans (laid.short i) later
  · exact fun i _ => laid.once i
  · intro i j ne
    by_cases first : i = position skey
    · subst first
      rw [store_same, store_other _ _ (Ne.symm ne)]
      exact apart j (Ne.symm ne)
    · rw [store_other _ _ first]
      by_cases second : j = position skey
      · subst second
        rw [store_same]
        exact (apart i first).symm
      · rw [store_other _ _ second]
        exact laid.apart i j ne
  · intro a
    rw [live a]
    constructor
    · rintro (here | ⟨i, low, other, there⟩ | gone)
      · exact .inl ⟨position skey, position_lt skey, by rwa [store_same]⟩
      · exact .inl ⟨i, low, by rwa [store_other _ _ other]⟩
      · exact .inr gone
    · rintro (⟨i, low, there⟩ | gone)
      · by_cases it : i = position skey
        · rw [it, store_same] at there
          exact .inl there
        · rw [store_other _ _ it] at there
          exact .inr (.inl ⟨i, low, it, there⟩)
      · exact .inr (.inr gone)

/-- The walk from the entry of a key: what it finds is what the table without pointers has. -/
theorem walk_entry (laid : Laid s t layout lost calls) (skey : CString) (enough : calls < rounds) :
    (StringTable.hash_table_lookup t skey = none ∧ ∃ pLast,
        walk s.heap skey rounds none (s.hashTable (position skey)) = some (pLast, none)) ∨
      ∃ before x behind, layout (position skey) = before ++ x :: behind ∧
        (∀ y ∈ before, y.entry.sKey ≠ skey) ∧ x.entry.sKey = skey ∧
        StringTable.hash_table_lookup t skey = some x.entry ∧
        walk s.heap skey rounds none (s.hashTable (position skey)) =
          some (lastOf none before, some x.pNode) := by
  have short := laid.short (position skey)
  have chained := laid.chained (position skey)
  rw [StringTable.hash_table_lookup, laid.same, laid.head]
  rcases first_key skey (layout (position skey)) with
    other | ⟨before, x, behind, split, other, found⟩
  · refine .inl ⟨scan_other other, lastOf none (layout (position skey)), ?_⟩
    obtain ⟨k, rfl⟩ := Nat.exists_eq_add_of_lt (Nat.lt_of_le_of_lt short enough)
    rw [Nat.add_assoc, walk_passes chained other]
    rfl
  · refine .inr ⟨before, x, behind, split, other, found, ?_, ?_⟩
    · rw [split]
      exact scan_first other found
    · rw [split, List.length_append] at short
      rw [split, chained_middle] at chained
      obtain ⟨k, rfl⟩ := Nat.exists_eq_add_of_lt
        (show before.length < rounds by omega)
      rw [split, head_or_append, head_or_cons, Nat.add_assoc, walk_passes chained.1 other]
      exact walk_finds chained.2.1 found _

theorem lookup_reads (laid : Laid s t layout lost calls) (skey : CString)
    (enough : calls < rounds) :
    ∃ p, hash_table_lookup rounds s skey = some p ∧
      read s.heap p = some (StringTable.hash_table_lookup t skey) := by
  rcases walk_entry laid skey enough with ⟨none_there, pLast, run⟩ |
    ⟨before, x, behind, split, _, _, found, run⟩
  · refine ⟨none, ?_, ?_⟩
    · rw [hash_table_lookup, run]
      rfl
    · rw [none_there]
      rfl
  · have chained := laid.chained (position skey)
    rw [split, chained_middle] at chained
    refine ⟨some x.pNode, ?_, ?_⟩
    · rw [hash_table_lookup, run]
      rfl
    · rw [found, read, node_shown chained.2.1, Option.bind_some, string_shown chained.2.1]
      rfl

def newNode (h : Memory) (skey : CString) (nvalue : Int) : Placed :=
  ⟨h.fresh, h.fresh + 1, ⟨skey, nvalue⟩⟩

def grown (h : Memory) (skey : CString) (nvalue : Int) (pNext : Option Nat) : Memory :=
  ((h.malloc (.node ⟨none, 0, none⟩)).2.malloc (.string skey)).2.put h.fresh
    (.node ⟨some (h.fresh + 1), nvalue, pNext⟩)

theorem grown_old (h : Memory) (skey : CString) (nvalue : Int) (pNext : Option Nat) {a : Nat}
    (old : a < h.fresh) : (grown h skey nvalue pNext).cells a = h.cells a := by
  rw [grown, Heap.put_other _ _ (Nat.ne_of_lt old),
    Heap.malloc_other _ _ (Nat.ne_of_lt (Nat.lt_succ_of_lt old)),
    Heap.malloc_other _ _ (Nat.ne_of_lt old)]

theorem grown_shown (h : Memory) (skey : CString) (nvalue : Int) (pNext : Option Nat) :
    Shown (grown h skey nvalue pNext) (newNode h skey nvalue) pNext :=
  ⟨Heap.put_same _ _ _, (Heap.put_other _ _ (Nat.succ_ne_self _)).trans (Heap.malloc_new _ _)⟩

theorem first_malloc (h : Memory) (skey : CString) :
    ((h.malloc (.node ⟨none, 0, none⟩)).2.malloc (.string skey)).2.cells h.fresh =
      some (.node ⟨none, 0, none⟩) :=
  (Heap.malloc_other _ _ (Nat.ne_of_lt (Nat.lt_succ_self _))).trans (Heap.malloc_new _ _)

theorem grown_sound {h : Memory} (sound : h.Sound) (skey : CString) (nvalue : Int)
    (pNext : Option Nat) : (grown h skey nvalue pNext).Sound :=
  Heap.sound_put (Heap.sound_malloc (Heap.sound_malloc sound _) _) (first_malloc h skey) _

theorem grown_live {h : Memory} (sound : h.Sound) (skey : CString) (nvalue : Int)
    (pNext : Option Nat) (a : Nat) : ((grown h skey nvalue pNext).cells a).isSome ↔
      a = h.fresh + 1 ∨ a = h.fresh ∨ (h.cells a).isSome := by
  have after := (grown_sound sound skey nvalue pNext).live a
  have before := sound.live a
  have fresh : (grown h skey nvalue pNext).fresh = h.fresh + 1 + 1 := rfl
  have freed : (grown h skey nvalue pNext).freed = h.freed := rfl
  rw [after, before, fresh, freed]
  constructor
  · rintro ⟨low, unfreed⟩
    rcases Nat.lt_succ_iff_lt_or_eq.mp low with below | key
    · rcases Nat.lt_succ_iff_lt_or_eq.mp below with old | node
      · exact .inr (.inr ⟨old, unfreed⟩)
      · exact .inr (.inl node)
    · exact .inl key
  · rintro (rfl | rfl | both)
    · exact ⟨by omega, fun member => by have low := (sound.dynamic _ member).2; omega⟩
    · exact ⟨by omega, fun member => by have low := (sound.dynamic _ member).2; omega⟩
    · exact ⟨by omega, both.2⟩

theorem laid_old (laid : Laid s t layout lost calls) {i a : Nat}
    (member : a ∈ blocks (layout i)) : a < s.heap.fresh :=
  ((laid.sound.live a).mp (chained_live (laid.chained i) member)).1

theorem lost_old (laid : Laid s t layout lost calls) {a : Nat} (member : a ∈ lost) :
    a < s.heap.fresh :=
  ((laid.sound.live a).mp ((laid.live a).mpr (.inr member))).1

theorem insert_laid (laid : Laid s t layout lost calls) (skey : CString) (nvalue : Int)
    (enough : calls < rounds) :
    ∃ s' layout', hash_table_insert rounds s skey nvalue = some s' ∧
      Laid s' (StringTable.hash_table_insert t skey nvalue) layout' lost (calls + 1) := by
  by_cases full : t.hash_table_size ≥ HASH_TABLE_MAX_SIZE
  · refine ⟨s, layout, ?_, ?_⟩
    · rw [hash_table_insert, if_pos (laid.size ▸ full)]
    · rw [StringTable.hash_table_insert, if_pos full]
      exact laid_more laid
  have room : ¬ s.hash_table_size ≥ HASH_TABLE_MAX_SIZE := laid.size ▸ full
  rcases walk_entry laid skey enough with ⟨absent, pLast, run⟩ |
    ⟨before, x, behind, split, _, _, found, run⟩
  · have absent' : scan skey (t.hashTable (position skey)) = none := absent
    have written := Heap.write_live (first_malloc s.heap skey)
      (.node ⟨some (s.heap.fresh + 1), nvalue, s.hashTable (position skey)⟩)
    refine ⟨⟨grown s.heap skey nvalue (s.hashTable (position skey)),
      store s.hashTable (position skey) (some s.heap.fresh), s.hash_table_size + 1⟩,
      store layout (position skey) (newNode s.heap skey nvalue :: layout (position skey)), ?_, ?_⟩
    · rw [hash_table_insert, if_neg room]
      dsimp only
      rw [run, Option.bind_some]
      change (Heap.write _ s.heap.fresh (Block.node ⟨some (s.heap.fresh + 1), nvalue, _⟩)).map _ = _
      rw [written, Option.map_some]
      rfl
    · have old : ∀ {i a}, a ∈ blocks (layout i) → a ≠ s.heap.fresh + 1 ∧ a ≠ s.heap.fresh := by
        intro i a member
        have low := laid_old laid member
        omega
      have same : ∀ i, ∀ a ∈ blocks (layout i),
          (grown s.heap skey nvalue (s.hashTable (position skey))).cells a = s.heap.cells a :=
        fun i a member => grown_old _ _ _ _ (laid_old laid member)
      rw [StringTable.hash_table_insert, if_neg full]
      dsimp only
      rw [absent', laid.same, ← laid.size]
      dsimp only
      refine laid_store laid skey _ (newNode s.heap skey nvalue :: layout (position skey)) _ _
        (grown_sound laid.sound skey nvalue _) laid.base ?_
        (fun i _ => same i) (Nat.succ_le_succ (laid.short _)) (Nat.le_succ _) ?_ ?_ ?_
        (fun i _ => laid.unreached i) laid.distinct ?_
      · refine ⟨?_, chained_frame (same _) (laid.chained _)⟩
        rw [← laid.head]
        exact grown_shown s.heap skey nvalue _
      · refine List.nodup_cons.mpr ⟨?_, List.nodup_cons.mpr ⟨?_, laid.once _⟩⟩
        · intro member
          rcases List.mem_cons.mp member with here | there
          · exact Nat.succ_ne_self _ here
          · exact (old there).1 rfl
        · exact fun member => (old member).2 rfl
      · intro i other
        rw [blocks_cons]
        refine List.disjoint_cons_left.mpr ⟨fun member => (old member).1 rfl,
          List.disjoint_cons_left.mpr ⟨fun member => (old member).2 rfl, ?_⟩⟩
        exact laid.apart _ _ (Ne.symm other)
      · intro a member inside
        have low := lost_old laid inside
        rw [blocks_cons, List.mem_cons, List.mem_cons] at member
        rcases member with rfl | rfl | there
        · exact Nat.not_succ_lt_self low
        · exact Nat.lt_irrefl _ low
        · exact laid.unreached _ a there inside
      · intro a
        rw [grown_live laid.sound, laid.live a, blocks_cons, List.mem_cons, List.mem_cons]
        constructor
        · rintro (here | here | ⟨i, low, there⟩ | gone)
          · exact .inl (.inl here)
          · exact .inl (.inr (.inl here))
          · by_cases it : i = position skey
            · exact .inl (.inr (.inr (it ▸ there)))
            · exact .inr (.inl ⟨i, low, it, there⟩)
          · exact .inr (.inr gone)
        · rintro ((here | here | there) | ⟨i, low, _, there⟩ | gone)
          · exact .inl here
          · exact .inr (.inl here)
          · exact .inr (.inr (.inl ⟨_, position_lt skey, there⟩))
          · exact .inr (.inr (.inl ⟨i, low, there⟩))
          · exact .inr (.inr (.inr gone))
  · have present : scan skey (t.hashTable (position skey)) = some x.entry := found
    refine ⟨s, layout, ?_, ?_⟩
    · rw [hash_table_insert, if_neg room]
      dsimp only
      rw [run]
      rfl
    · rw [StringTable.hash_table_insert, if_neg full]
      dsimp only
      rw [present]
      exact laid_more laid

section Removed
variable {x : Placed} {xs cut : List Placed}

theorem parts_blocks {ys : List Placed} (parts : ys.Perm (x :: (xs ++ cut))) :
    (blocks ys).Perm (x.pKey :: x.pNode :: (blocks xs ++ blocks cut)) := by
  have moved := parts.flatMap_right fun x => [x.pKey, x.pNode]
  rwa [← blocks, ← blocks, blocks_cons, blocks_append] at moved

theorem parts_mem {ys : List Placed} (parts : ys.Perm (x :: (xs ++ cut))) (a : Nat) :
    a ∈ blocks ys ↔ a = x.pKey ∨ a = x.pNode ∨ a ∈ blocks xs ∨ a ∈ blocks cut := by
  rw [(parts_blocks parts).mem_iff]
  simp only [List.mem_cons, List.mem_append]

theorem parts_away (laid : Laid s t layout lost calls)
    (parts : (layout (position skey)).Perm (x :: (xs ++ cut))) {i a : Nat}
    (other : i ≠ position skey) (there : a ∈ blocks (layout i)) :
    a ≠ x.pKey ∧ a ≠ x.pNode ∧ a ∉ blocks xs ∧ a ∉ blocks cut := by
  have outside : a ∉ blocks (layout (position skey)) := fun here =>
    laid.apart i _ other there here
  rw [parts_mem parts] at outside
  simpa only [not_or] using outside

theorem freed_unreached (laid : Laid s t layout lost calls)
    (parts : (layout (position skey)).Perm (x :: (xs ++ cut))) {a : Nat}
    (freed : a = x.pKey ∨ a = x.pNode) (not_kept : a ∉ blocks xs) (not_cut : a ∉ blocks cut) :
    ¬ (a ∈ blocks xs ∨ (∃ i < 10000, i ≠ position skey ∧ a ∈ blocks (layout i)) ∨
      a ∈ lost ++ blocks cut) := by
  rintro (here | ⟨i, _, other, there⟩ | gone)
  · exact not_kept here
  · have away := parts_away laid parts other there
    rcases freed with key | node
    · exact away.1 key
    · exact away.2.1 node
  · rcases List.mem_append.mp gone with before | now
    · refine laid.unreached _ a ((parts_mem parts a).mpr ?_) before
      rcases freed with key | node
      · exact .inl key
      · exact .inr (.inl node)
    · exact not_cut now

theorem kept_reached (laid : Laid s t layout lost calls)
    (parts : (layout (position skey)).Perm (x :: (xs ++ cut))) {a : Nat} (first : a ≠ x.pKey)
    (second : a ≠ x.pNode) :
    (s.heap.cells a).isSome ↔ a ∈ blocks xs ∨
      (∃ i < 10000, i ≠ position skey ∧ a ∈ blocks (layout i)) ∨ a ∈ lost ++ blocks cut := by
  rw [laid.live a]
  constructor
  · rintro (⟨i, low, there⟩ | gone)
    · by_cases it : i = position skey
      · rw [it, parts_mem parts] at there
        rcases there with here | here | here | here
        · exact absurd here first
        · exact absurd here second
        · exact .inl here
        · exact .inr (.inr (List.mem_append_right _ here))
      · exact .inr (.inl ⟨i, low, it, there⟩)
    · exact .inr (.inr (List.mem_append_left _ gone))
  · rintro (here | ⟨i, low, _, there⟩ | gone)
    · exact .inl ⟨_, position_lt skey, (parts_mem parts a).mpr (.inr (.inr (.inl here)))⟩
    · exact .inl ⟨i, low, there⟩
    · rcases List.mem_append.mp gone with before | now
      · exact .inr before
      · exact .inl ⟨_, position_lt skey, (parts_mem parts a).mpr (.inr (.inr (.inr now)))⟩

/-- The chain of the key has become xs, and the blocks of x are gone. -/
theorem laid_without (laid : Laid s t layout lost calls)
    (parts : (layout (position skey)).Perm (x :: (xs ++ cut))) {h : Memory} (sound : h.Sound)
    (base : h.base = 0) (chained : Chained h xs none)
    (freed : ∀ a, a = x.pKey ∨ a = x.pNode → h.cells a = none)
    (kept : ∀ a, a ≠ x.pKey → a ≠ x.pNode → a ∉ blocks xs → h.cells a = s.heap.cells a)
    (live : ∀ a, a ≠ x.pKey → a ≠ x.pNode →
      ((h.cells a).isSome ↔ (s.heap.cells a).isSome)) :
    Laid ⟨h, store s.hashTable (position skey) (headOr Placed.pNode xs none), s.hash_table_size⟩
      ⟨store t.hashTable (position skey) (xs.map Placed.entry), t.hash_table_size⟩
      (store layout (position skey) xs) (lost ++ blocks cut) (calls + 1) := by
  have once := (parts_blocks parts).nodup_iff.mp (laid.once (position skey))
  simp only [List.nodup_cons, List.mem_cons, List.mem_append, not_or] at once
  obtain ⟨⟨_, keyKept, keyCut⟩, ⟨nodeKept, nodeCut⟩, rest⟩ := once
  obtain ⟨xs_once, cut_once, apart⟩ := List.nodup_append.mp rest
  rw [laid.size]
  refine laid_store laid skey _ xs _ _ sound base chained ?_ ?_ (Nat.le_succ _) xs_once ?_ ?_ ?_
    ?_ ?_
  · intro i other a there
    obtain ⟨first, second, outside, _⟩ := parts_away laid parts other there
    exact kept a first second outside
  · have lengths := parts.length_eq
    have short := laid.short (position skey)
    rw [List.length_cons, List.length_append] at lengths
    omega
  · intro i other a here there
    exact (parts_away laid parts other there).2.2.1 here
  · intro a inside gone
    rcases List.mem_append.mp gone with before | now
    · exact laid.unreached _ a ((parts_mem parts a).mpr (.inr (.inr (.inl inside)))) before
    · exact apart a inside a now rfl
  · intro i other a there gone
    rcases List.mem_append.mp gone with before | now
    · exact laid.unreached i a there before
    · exact (parts_away laid parts other there).2.2.2 now
  · refine List.nodup_append.mpr ⟨laid.distinct, cut_once, ?_⟩
    rintro a before b now rfl
    exact laid.unreached _ a ((parts_mem parts a).mpr (.inr (.inr (.inr now)))) before
  · intro a
    by_cases first : a = x.pKey
    · rw [freed a (.inl first)]
      subst first
      simpa using freed_unreached laid parts (.inl rfl) keyKept keyCut
    by_cases second : a = x.pNode
    · rw [freed a (.inr second)]
      subst second
      simpa using freed_unreached laid parts (.inr rfl) nodeKept nodeCut
    · rw [live a first second]
      exact kept_reached laid parts first second

/-- The node x and its key are freed when its chain has become xs; cut are the nodes that hung
    on it and do not any more. -/
theorem removed_laid (laid : Laid s t layout lost calls) (skey : CString) (g : Memory) (x : Placed)
    (xs cut : List Placed) (parts : (layout (position skey)).Perm (x :: (xs ++ cut)))
    (sound : g.Sound) (base : g.base = 0) (live : ∀ a, (g.cells a).isSome ↔ (s.heap.cells a).isSome)
    (kept : ∀ a ∉ blocks xs, g.cells a = s.heap.cells a) (chained : Chained g xs none) :
    ∃ h, free g (some x.pKey) = some (g.drop x.pKey) ∧ (g.drop x.pKey).free x.pNode = some h ∧
      Laid ⟨h, store s.hashTable (position skey) (headOr Placed.pNode xs none), s.hash_table_size⟩
        ⟨store t.hashTable (position skey) (xs.map Placed.entry), t.hash_table_size⟩
        (store layout (position skey) xs) (lost ++ blocks cut) (calls + 1) := by
  have once := (parts_blocks parts).nodup_iff.mp (laid.once (position skey))
  simp only [List.nodup_cons, List.mem_cons, List.mem_append, not_or] at once
  obtain ⟨⟨ne, keyKept, _⟩, ⟨nodeKept, _⟩, _⟩ := once
  obtain ⟨pNext, node, key⟩ := linked_mem (laid.chained (position skey))
    (parts.mem_iff.mpr List.mem_cons_self)
  have key : g.cells x.pKey = _ := (kept _ keyKept).trans key
  have node : (g.drop x.pKey).cells x.pNode = _ :=
    (g.drop_other (Ne.symm ne)).trans ((kept _ nodeKept).trans node)
  have dynamic : ∀ a, g.base ≤ a := fun a => base ▸ Nat.zero_le a
  have dropped := Heap.dropped_append (Heap.dropped_drop key (dynamic _))
    (Heap.dropped_drop node (dynamic _))
  have still : ∀ a, a ≠ x.pKey → a ≠ x.pNode →
      ((g.drop x.pKey).drop x.pNode).cells a = g.cells a := by
    intro a first second
    exact dropped.kept a (by simp [first, second])
  refine ⟨(g.drop x.pKey).drop x.pNode, Heap.free_live key (dynamic _),
    Heap.free_live node (dynamic _), ?_⟩
  refine laid_without laid parts (dropped.sound sound) (dropped.base.trans base) ?_ ?_ ?_ ?_
  · refine chained_frame (fun a inside => still a ?_ ?_) chained
    · rintro rfl
      exact keyKept inside
    · rintro rfl
      exact nodeKept inside
  · rintro a (rfl | rfl) <;> exact dropped.gone _ (by simp)
  · intro a first second outside
    exact (still a first second).trans (kept a outside)
  · intro a first second
    rw [still a first second]
    exact live a

end Removed

theorem store_self {α : Type*} (m : Mem α) (a : Nat) : store m a (m a) = m := by
  funext b
  by_cases same : b = a
  · rw [same, store_same]
  · rw [store_other _ _ same]

/-- y->pNext = pNext. -/
def relink (h : Memory) (y : Placed) (pNext : Option Nat) : Memory :=
  h.put y.pNode (.node ⟨some y.pKey, y.entry.nValue, pNext⟩)

theorem relink_other {h : Memory} {y : Placed} {pNext : Option Nat} {a : Nat}
    (other : a ≠ y.pNode) : (relink h y pNext).cells a = h.cells a := Heap.put_other _ _ other

theorem relink_live {h : Memory} {y : Placed} {pNext pNext' : Option Nat}
    (shown : Shown h y pNext) (a : Nat) :
    ((relink h y pNext').cells a).isSome ↔ (h.cells a).isSome := by
  by_cases equal : a = y.pNode
  · rw [equal, relink, Heap.put_same, shown.1]
    exact Iff.rfl
  · rw [relink_other equal]

theorem detach_links {y : Placed} {pNext : Option Nat} (shown : Shown s.heap y pNext)
    {pos : Nat} (behind : Option Nat) :
    detach s pos (some y.pNode) behind = some (relink s.heap y behind, s.hashTable) := by
  rw [detach, node_shown shown, Option.bind_some, Heap.write_live shown.1, Option.map_some]
  rfl

theorem remove_behind {before behind : List Placed} {y x : Placed}
    (chain : t.hashTable (position skey) = (y :: before ++ x :: behind).map Placed.entry)
    (other : ∀ z ∈ y :: before, z.entry.sKey ≠ skey) (same : x.entry.sKey = skey) :
    StringTable.hash_table_remove t skey =
        ⟨store t.hashTable (position skey) ((y :: before ++ behind).map Placed.entry),
          t.hash_table_size⟩ ∧
      dropped t (.remove skey) = 0 := by
  obtain ⟨first, later⟩ := List.forall_mem_cons.mp other
  rw [List.cons_append, List.map_cons] at chain
  constructor
  · rw [StringTable.hash_table_remove]
    dsimp only
    rw [chain]
    dsimp only
    rw [if_neg (Ne.symm first), unlink_first later same]
    rfl
  · rw [dropped, chain]
    dsimp only
    rw [if_neg first]

theorem remove_missing (laid : Laid s t layout lost calls) (skey : CString)
    (absent : StringTable.hash_table_lookup t skey = none) {pLast : Option Nat}
    (run : walk s.heap skey rounds none (s.hashTable (position skey)) = some (pLast, none)) :
    hash_table_remove rounds s skey = some s ∧
      Laid s (StringTable.hash_table_remove t skey) layout lost (calls + 1) ∧
      dropped t (.remove skey) = 0 := by
  refine ⟨?_, ?_, ?_⟩
  · rw [hash_table_remove]
    split
    · rfl
    · rename_i pHead first
      rw [← first, run]
      rfl
  · rw [remove_unfound absent]
    exact laid_more laid
  · rw [StringTable.hash_table_lookup] at absent
    rw [dropped]
    split
    · rfl
    · rename_i pHead pNext first
      rw [first, scan] at absent
      split at absent
      · cases absent
      · rename_i unequal
        rw [if_neg unequal]

/-- What hash_table_remove does with the node that the walk has found. -/
theorem remove_found {x : Placed} {pHead : Nat} {pLast pNext : Option Nat} {g h : Memory}
    {entries : Mem (Option Nat)} (first : s.hashTable (position skey) = some pHead)
    (run : walk s.heap skey rounds none (s.hashTable (position skey)) =
      some (pLast, some x.pNode)) (here : Shown s.heap x pNext)
    (parted : detach s (position skey) pLast pNext = some (g, entries))
    (key : free g (some x.pKey) = some (g.drop x.pKey))
    (node : (g.drop x.pKey).free x.pNode = some h) :
    hash_table_remove rounds s skey = some ⟨h, entries, s.hash_table_size⟩ := by
  rw [hash_table_remove]
  rw [first]
  dsimp only
  rw [← first, run, Option.bind_some]
  dsimp only
  rw [node_shown here, Option.bind_some]
  dsimp only
  rw [parted, Option.bind_some, key, Option.bind_some, node, Option.map_some]

/-- pLast is NULL: the entry is set to NULL, whatever hangs on pRemove. -/
theorem remove_first (laid : Laid s t layout lost calls) {x : Placed} {behind : List Placed}
    (split : layout (position skey) = x :: behind) (same : x.entry.sKey = skey)
    (run : walk s.heap skey rounds none (s.hashTable (position skey)) =
      some (none, some x.pNode)) :
    ∃ s', hash_table_remove rounds s skey = some s' ∧
      Laid s' (StringTable.hash_table_remove t skey) (store layout (position skey) [])
        (lost ++ blocks behind) (calls + 1) ∧
      dropped t (.remove skey) = behind.length := by
  have chain := laid.same (position skey)
  have entry := laid.head (position skey)
  have chained := laid.chained (position skey)
  rw [split] at chain entry chained
  obtain ⟨h, key, node, after⟩ := removed_laid laid skey s.heap x [] behind
    (by rw [split]; exact List.Perm.refl _) laid.sound laid.base
    (fun _ => Iff.rfl) (fun _ _ => rfl) trivial
  have result : StringTable.hash_table_remove t skey =
      ⟨store t.hashTable (position skey) [], t.hash_table_size⟩ := by
    rw [StringTable.hash_table_remove]
    dsimp only
    rw [chain, List.map_cons]
    dsimp only
    rw [if_pos same.symm]
  refine ⟨_, remove_found entry run chained.1 rfl key node, result ▸ after, ?_⟩
  rw [dropped, chain, List.map_cons]
  dsimp only
  rw [if_pos same, List.length_map]

theorem relink_chained {front behind : List Placed} {y x : Placed}
    (once : (blocks (front ++ [y] ++ x :: behind)).Nodup)
    (chained : Chained s.heap (front ++ [y] ++ x :: behind) none) :
    Shown s.heap y (some x.pNode) ∧
      Chained (relink s.heap y (headOr Placed.pNode behind none)) (front ++ y :: behind) none := by
  obtain ⟨start, _, back⟩ := chained_middle.mp chained
  obtain ⟨start, shown, _⟩ := chained_middle.mp start
  rw [blocks_append, blocks_append, List.nodup_append] at once
  obtain ⟨front_once, _, apart⟩ := once
  obtain ⟨_, y_once, front_apart⟩ := List.nodup_append.mp front_once
  refine ⟨shown, chained_middle.mpr ⟨chained_frame (fun a inside => relink_other ?_) start,
    ⟨Heap.put_same _ _ _, ?_⟩, chained_frame (fun a inside => relink_other ?_) back⟩⟩
  · exact front_apart a inside _ (node_mem List.mem_cons_self)
  · refine (relink_other ?_).trans shown.2
    exact (List.nodup_cons.mp y_once).1 ∘ fun same => by simp [same]
  · refine Ne.symm (apart _ (List.mem_append_right _ (node_mem List.mem_cons_self)) a ?_)
    simp [inside]

/-- pLast is y, which is linked to what hangs on pRemove. -/
theorem remove_later (laid : Laid s t layout lost calls) {front behind : List Placed}
    {y x : Placed} (split : layout (position skey) = front ++ [y] ++ x :: behind)
    (other : ∀ z ∈ front ++ [y], z.entry.sKey ≠ skey) (same : x.entry.sKey = skey)
    (run : walk s.heap skey rounds none (s.hashTable (position skey)) =
      some (some y.pNode, some x.pNode)) :
    ∃ s', hash_table_remove rounds s skey = some s' ∧
      Laid s' (StringTable.hash_table_remove t skey)
        (store layout (position skey) (front ++ y :: behind)) (lost ++ blocks []) (calls + 1) ∧
      dropped t (.remove skey) = 0 := by
  have chain := laid.same (position skey)
  have entry := laid.head (position skey)
  have chained := laid.chained (position skey)
  have once := laid.once (position skey)
  rw [split] at chain entry chained once
  obtain ⟨shown, relinked⟩ := relink_chained once chained
  have kept : ∀ a ∉ blocks (front ++ y :: behind),
      (relink s.heap y (headOr Placed.pNode behind none)).cells a = s.heap.cells a := by
    intro a outside
    refine relink_other fun equal => outside ?_
    rw [equal]
    exact node_mem (by simp)
  obtain ⟨h, key, node, after⟩ := removed_laid laid skey _ x _ []
    (by
      rw [split, List.append_nil]
      refine List.perm_middle.trans (List.Perm.cons x ?_)
      rw [List.append_assoc]
      exact List.Perm.refl _)
    (Heap.sound_put laid.sound shown.1 _) laid.base (relink_live shown) kept relinked
  have first : s.hashTable (position skey) =
      headOr Placed.pNode (front ++ y :: behind) none := by
    rw [entry]
    cases front <;> rfl
  rw [← first, store_self] at after
  obtain ⟨pHead, begun⟩ : ∃ pHead, s.hashTable (position skey) = some pHead := by
    rw [first]
    cases front <;> exact ⟨_, rfl⟩
  obtain ⟨z, rest, named⟩ := List.exists_cons_of_ne_nil
    (List.append_ne_nil_of_right_ne_nil front (List.cons_ne_nil y []))
  rw [named] at chain other
  obtain ⟨result, nothing⟩ := remove_behind chain other same
  rw [← named, List.append_assoc] at result
  obtain ⟨_, here, _⟩ := chained_middle.mp chained
  exact ⟨_, remove_found begun run here (detach_links shown _) key node, result ▸ after, nothing⟩

theorem remove_laid (laid : Laid s t layout lost calls) (skey : CString) (enough : calls < rounds) :
    ∃ s' layout' lost', hash_table_remove rounds s skey = some s' ∧
      Laid s' (StringTable.hash_table_remove t skey) layout' lost' (calls + 1) ∧
      lost'.length = lost.length + 2 * dropped t (.remove skey) := by
  rcases walk_entry laid skey enough with ⟨absent, pLast, run⟩ |
    ⟨before, x, behind, split, other, same, found, run⟩
  · obtain ⟨removed, after, nothing⟩ := remove_missing laid skey absent run
    exact ⟨s, layout, lost, removed, after, by rw [nothing, Nat.mul_zero, Nat.add_zero]⟩
  rcases List.eq_nil_or_concat' before with rfl | ⟨front, y, rfl⟩
  · obtain ⟨s', removed, after, cut⟩ := remove_first laid split same run
    refine ⟨s', _, _, removed, after, ?_⟩
    rw [List.length_append, blocks_length, cut]
  · rw [last_of_concat] at run
    obtain ⟨s', removed, after, nothing⟩ := remove_later laid split other same run
    refine ⟨s', _, _, removed, after, ?_⟩
    rw [nothing, List.length_append]
    rfl

theorem call_laid (laid : Laid s t layout lost calls) (op : Call) (enough : calls < rounds) :
    ∃ s' layout' lost', call rounds s op = some s' ∧ Laid s' (next t op) layout' lost' (calls + 1) ∧
      lost'.length = lost.length + 2 * dropped t op := by
  cases op with
  | insert skey nvalue =>
    obtain ⟨s', layout', run, after⟩ := insert_laid laid skey nvalue enough
    exact ⟨s', layout', lost, run, after, rfl⟩
  | remove skey => exact remove_laid laid skey enough
  | lookup skey =>
    obtain ⟨p, run, _⟩ := lookup_reads laid skey enough
    refine ⟨s, layout, lost, ?_, laid_more laid, rfl⟩
    rw [call, run, Option.map_some]

theorem history_laid (history : List Call) (laid : Laid s t layout lost calls)
    (enough : calls + history.length < rounds) :
    ∃ s' layout' lost', play (call rounds) history s = some s' ∧
      Laid s' (history.foldl next t) layout' lost' (calls + history.length) ∧
      lost'.length = lost.length + 2 * allDropped history t := by
  induction history generalizing s t layout lost calls with
  | nil => exact ⟨s, layout, lost, rfl, laid, rfl⟩
  | cons op history ih =>
    rw [List.length_cons] at enough
    have now : calls < rounds := by omega
    have rest : calls + 1 + history.length < rounds := by omega
    obtain ⟨s', layout', lost', run, after, count⟩ := call_laid laid op now
    obtain ⟨s'', layout'', lost'', later, done, count'⟩ := ih after rest
    refine ⟨s'', layout'', lost'', (play_cons run).trans later, ?_, ?_⟩
    · rw [List.length_cons, ← Nat.add_assoc, Nat.add_right_comm]
      exact done
    · rw [count', count, allDropped]
      omega

/-- What hash_table_print shows of the table without pointers. -/
def lines (t : Table) : List (Nat × List HashNode) :=
  (List.range 10000).filterMap fun i =>
    if t.hashTable i = [] then none else some (i, t.hashTable i)

theorem print_line (laid : Laid s t layout lost calls) (enough : calls < rounds)
    (before : List (Nat × List HashNode)) (i : Nat) :
    printLine rounds s before i =
      some (before ++ if t.hashTable i = [] then [] else [(i, t.hashTable i)]) := by
  have shown := print_chain (laid.chained i) (Nat.lt_of_le_of_lt (laid.short i) enough)
  have head := laid.head i
  rw [laid.same i]
  cases chain : layout i with
  | nil =>
    rw [chain] at head
    rw [printLine, head]
    exact congrArg some (List.append_nil before).symm
  | cons x xs =>
    rw [chain, head_or_cons] at head shown
    rw [printLine, head]
    dsimp only
    rw [shown]
    rfl

theorem print_loop (laid : Laid s t layout lost calls) (enough : calls < rounds) (is : List Nat)
    (before : List (Nat × List HashNode)) :
    is.foldlM (printLine rounds s) before = some (before ++ is.filterMap fun i =>
      if t.hashTable i = [] then none else some (i, t.hashTable i)) := by
  induction is generalizing before with
  | nil => exact congrArg some (List.append_nil before).symm
  | cons i is ih =>
    rw [List.foldlM_cons, print_line laid enough, List.filterMap_cons]
    change is.foldlM (printLine rounds s) _ = _
    rw [ih, List.append_assoc]
    split
    · rfl
    · rfl

theorem print_lines (laid : Laid s t layout lost calls) (enough : calls < rounds) :
    hash_table_print rounds s = some (lines t) := by
  rw [hash_table_print, lines, print_loop laid enough, List.nil_append]

theorem release_all {h : Memory} {entries : Mem (Option Nat)} (is : List Nat) (distinct : is.Nodup)
    (base : h.base = 0) (head : ∀ i, entries i = headOr Placed.pNode (layout i) none)
    (chained : ∀ i ∈ is, Chained h (layout i) none) (once : ∀ i, (blocks (layout i)).Nodup)
    (apart : ∀ i j, i ≠ j → (blocks (layout i)).Disjoint (blocks (layout j)))
    (short : ∀ i, (layout i).length < rounds) :
    ∃ h', is.foldlM (fun h i => releaseChain rounds h (entries i)) h = some h' ∧
      h.Dropped h' (is.flatMap fun i => blocks (layout i)) := by
  induction is generalizing h with
  | nil => exact ⟨h, rfl, Heap.dropped_nil h⟩
  | cons i is ih =>
    obtain ⟨outside, distinct⟩ := List.nodup_cons.mp distinct
    obtain ⟨g, run, first⟩ := release_chain (chained i List.mem_cons_self) (once i) base (short i)
    obtain ⟨h', runs, rest⟩ := ih distinct (first.base.trans base) fun j member =>
      chained_frame (fun a inside => first.kept a fun here =>
        apart i j (fun same => outside (same ▸ member)) here inside)
        (chained j (List.mem_cons_of_mem i member))
    refine ⟨h', ?_, Heap.dropped_append first rest⟩
    rw [List.foldlM_cons, head i, run]
    exact runs

theorem release_laid (laid : Laid s t layout lost calls) (enough : calls < rounds) :
    ∃ h, hash_table_release rounds s = some h ∧ (h.freed ++ lost).Perm (List.range h.fresh) := by
  obtain ⟨h, run, dropped⟩ := release_all (List.range 10000) List.nodup_range laid.base laid.head
    (fun i _ => laid.chained i) laid.once laid.apart
    fun i => Nat.lt_of_le_of_lt (laid.short i) enough
  have sound := dropped.sound laid.sound
  have left : ∀ a, (h.cells a).isSome ↔ a ∈ lost := by
    intro a
    by_cases reached : a ∈ (List.range 10000).flatMap fun i => blocks (layout i)
    · rw [dropped.gone a reached]
      obtain ⟨i, _, there⟩ := List.mem_flatMap.mp reached
      simp [laid.unreached i a there]
    · rw [dropped.kept a reached, laid.live a]
      refine or_iff_right ?_
      rintro ⟨i, low, there⟩
      exact reached (List.mem_flatMap.mpr ⟨i, List.mem_range.mpr low, there⟩)
  refine ⟨h, run, ?_⟩
  refine (List.perm_ext_iff_of_nodup ?_ List.nodup_range).mpr fun a => ?_
  · refine List.nodup_append.mpr ⟨sound.once, laid.distinct, ?_⟩
    rintro a gone b there rfl
    exact ((sound.live a).mp ((left a).mpr there)).2 gone
  · rw [List.mem_append, List.mem_range]
    constructor
    · rintro (gone | there)
      · exact (sound.dynamic a gone).2
      · exact ((sound.live a).mp ((left a).mpr there)).1
    · intro old
      by_cases gone : a ∈ h.freed
      · exact .inl gone
      · exact .inr ((left a).mp ((sound.live a).mpr ⟨old, gone⟩))

end Calls

/-- Whatever is called: the program does what the table without pointers does, no loop runs for
    ever, and hash_table_release frees each block once but those that removals of a first node
    cut off. -/
theorem release_frees_all_but_dropped (history : List Call) :
    ∃ s h lost, play (call (history.length + 1)) history hash_table_init = some s ∧
      (∀ skey, ∃ p, hash_table_lookup (history.length + 1) s skey = some p ∧
        read s.heap p = some (StringTable.hash_table_lookup
          (history.foldl next StringTable.hash_table_init) skey)) ∧
      hash_table_print (history.length + 1) s =
        some (lines (history.foldl next StringTable.hash_table_init)) ∧
      hash_table_release (history.length + 1) s = some h ∧
      (h.freed ++ lost).Perm (List.range h.fresh) ∧
      lost.length = 2 * allDropped history StringTable.hash_table_init := by
  have enough : 0 + history.length < history.length + 1 := by omega
  obtain ⟨s, layout, lost, run, laid, count⟩ := history_laid history laid_start enough
  obtain ⟨h, released, all⟩ := release_laid laid enough
  exact ⟨s, h, lost, run, fun skey => lookup_reads laid skey enough, print_lines laid enough,
    released, all, by rw [count, List.length_nil, Nat.zero_add]⟩

end UC.StringTable.Blocks
