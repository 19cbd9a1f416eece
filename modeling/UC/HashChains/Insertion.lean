import UC.HashChains.Model
import UC.Lib.Chains
import UC.Lib.Outcomes
import UC.Lib.Runs

/- What hashInsert does to the chains. A key that meets another one in its bucket never gets past
   it, so no chain of a table that was filled by insertions has more than one node. -/
namespace UC.HashChains
open UC.Cells UC.Memory UC.Chains UC.Outcomes UC.Runs
open UC.StringTable (CString)

/-- An insertion that returns, with an address that malloc may answer. -/
def Inserts (room : Nat → Nat) (t u : Table) : Prop :=
  ∃ rounds address key value, t.nodes address = none ∧
    hashInsert room rounds address t key value = .ok u

def Acyclic (t : Table) : Prop :=
  ∀ pos p, load t.hashTable pos = some p →
    ∃ path : List Nat, headOr id path none = p ∧
      Linked (fun a e => (t.nodes a).map HashNode.pNext = some e) id path none

/-- The search for a key comes to its end with this result. -/
def Finds (t : Table) (key : CString) (result : Except Fault (Int × Option CString)) : Prop :=
  result ≠ .error .unfinished ∧ ∃ enough, ∀ rounds ≥ enough, hashSearch rounds t (some key) = result

/-- The insertion returns, with chains that end, the key found and nothing else changed. -/
def Preserves (room : Nat → Nat) (t : Table) (address : Nat) (key value : CString) : Prop :=
  ∃ rounds u, hashInsert room rounds address t (some key) value = .ok u ∧ Acyclic u ∧
    (∃ found, Finds u key (.ok (position key, some found))) ∧
    ∀ other, other ≠ key → ∃ result, Finds t other result ∧ Finds u other result

/-- The first node of the bucket has the key. -/
def Stored (t : Table) (key : CString) : Prop :=
  ∃ p node, load t.hashTable (position key) = some (some p) ∧ t.nodes p = some node ∧
    node.key = key

/-- The bucket of the key is empty, and the blocks for strlen bytes have room for one more. -/
def Spare (room : Nat → Nat) (t : Table) (key value : CString) : Prop :=
  load t.hashTable (position key) = some none ∧
    key.bytes.length + 1 ≤ room key.bytes.length ∧
    value.bytes.length + 1 ≤ room value.bytes.length

/-- No chain has more than one node. -/
structure Inv (t : Table) : Prop where
  spans : Spans t.hashTable HASHSIZE
  single : ∀ pos p, 0 ≤ pos → pos < HASHSIZE → t.hashTable.cell pos = some p →
    ∃ node, t.nodes p = some node ∧ node.pNext = none

theorem inv_init (t : Table) : Inv (hashInit t) where
  spans := filled_spans _ _
  single _ _ _ _ bucket := by cases bucket

def inserted (t : Table) (pos : Int) (address : Nat) (key value : CString) : Table :=
  { setNode t address (some ⟨key, value, none⟩) with
    hashTable := put t.hashTable pos (some address) }

section
variable {room : Nat → Nat} {t : Table} {address rounds p : Nat} {key value : CString} {node : HashNode}

section
variable (t : Table) (pos : Int) (address : Nat) (key value : CString)

theorem inserted_bucket :
    (inserted t pos address key value).hashTable.cell pos = some address := set_same _ _ _

theorem inserted_other {other : Int} (ne : other ≠ pos) :
    (inserted t pos address key value).hashTable.cell other = t.hashTable.cell other :=
  set_other _ _ ne

theorem inserted_node :
    (inserted t pos address key value).nodes address = some ⟨key, value, none⟩ := store_same _ _ _

theorem inserted_old {p : Nat} (ne : p ≠ address) :
    (inserted t pos address key value).nodes p = t.nodes p := store_other _ _ ne

end

theorem insert_empty (inv : Inv t) (low : 0 ≤ position key) (high : position key < HASHSIZE)
    (empty : t.hashTable.cell (position key) = none)
    (key_room : key.bytes.length + 1 ≤ room key.bytes.length)
    (value_room : value.bytes.length + 1 ≤ room value.bytes.length) :
    hashInsert room (rounds + 1) address t (some key) value =
      .ok (inserted t (position key) address key value) := by
  rw [hashInsert]
  generalize position key = pos at low high empty
  have there := entry_inside inv.spans low high
  rw [empty] at there
  have written := @set_entry_inside (setNode t address (some ⟨key, value, none⟩)) pos
    inv.spans low high (some address)
  rw [there, ok_bind, insertLoop, ok_bind]
  dsimp only
  rw [if_neg Bool.false_ne_true, strcpy, if_pos key_room, ok_bind, strcpy, if_pos value_room,
    ok_bind, there, ok_bind]
  exact written

/-- Without the spare bytes one of the two zeros is written behind its buffer. -/
theorem insert_overruns (inv : Inv t) (low : 0 ≤ position key) (high : position key < HASHSIZE)
    (empty : t.hashTable.cell (position key) = none)
    (short : ¬ (key.bytes.length + 1 ≤ room key.bytes.length ∧
      value.bytes.length + 1 ≤ room value.bytes.length)) :
    hashInsert room (rounds + 1) address t (some key) value = .error .overrun := by
  rw [hashInsert]
  generalize position key = pos at low high empty
  have there := entry_inside inv.spans low high
  rw [empty] at there
  rw [there, ok_bind, insertLoop, ok_bind]
  dsimp only
  rw [if_neg Bool.false_ne_true]
  by_cases key_room : key.bytes.length + 1 ≤ room key.bytes.length
  · have value_short : ¬ value.bytes.length + 1 ≤ room value.bytes.length :=
      fun fits => short ⟨key_room, fits⟩
    rw [strcpy, if_pos key_room, ok_bind, strcpy, if_neg value_short, error_bind]
  · rw [strcpy, if_neg key_room, error_bind]

theorem insert_existing (inv : Inv t) (low : 0 ≤ position key) (high : position key < HASHSIZE)
    (bucket : t.hashTable.cell (position key) = some p) (here : t.nodes p = some node)
    (same : node.key = key) : hashInsert room (rounds + 1) address t (some key) value = .ok t := by
  rw [hashInsert]
  generalize position key = pos at low high bucket
  have there := entry_inside inv.spans low high
  rw [bucket] at there
  rw [there, ok_bind, insertLoop, deref_node here, ok_bind, if_pos same, ok_bind]
  rfl

/-- The node goes on being its own successor in the loop, with a key that is another one. -/
theorem insert_loop_endless (here : t.nodes p = some node) (other : node.key ≠ key) :
    insertLoop key rounds t (some p) = .error .unfinished := by
  induction rounds generalizing t node with
  | zero => rfl
  | succ rounds ih =>
    rw [insertLoop, deref_node here, ok_bind, if_neg other]
    exact @ih _ { node with pNext := some p } (store_same _ _ _) other

theorem insert_endless (inv : Inv t) (low : 0 ≤ position key) (high : position key < HASHSIZE)
    (bucket : t.hashTable.cell (position key) = some p) (here : t.nodes p = some node)
    (other : node.key ≠ key) :
    hashInsert room rounds address t (some key) value = .error .unfinished := by
  rw [hashInsert]
  generalize position key = pos at low high bucket
  have there := entry_inside inv.spans low high
  rw [bucket] at there
  rw [there, ok_bind, insert_loop_endless here other, error_bind]

theorem insert_zero (inv : Inv t) (low : 0 ≤ position key) (high : position key < HASHSIZE) :
    hashInsert room 0 address t (some key) value = .error .unfinished := by
  rw [hashInsert]
  generalize position key = pos at low high
  rw [entry_inside inv.spans low high, ok_bind, insertLoop, error_bind]

/-- An insertion that returns has changed nothing, or has filled an empty bucket. -/
theorem insert_cases (inv : Inv t) {u : Table} {maybe : Option CString}
    (run : hashInsert room rounds address t maybe value = .ok u) :
    u = t ∨ ∃ key, (0 ≤ position key ∧ position key < HASHSIZE) ∧
      t.hashTable.cell (position key) = none ∧
      key.bytes.length + 1 ≤ room key.bytes.length ∧
      u = inserted t (position key) address key value := by
  cases maybe with
  | none => exact Or.inl (Except.ok.inj run).symm
  | some key =>
    by_cases inside : 0 ≤ position key ∧ position key < HASHSIZE
    · cases rounds with
      | zero =>
        rw [insert_zero inv inside.1 inside.2] at run
        cases run
      | succ rounds =>
        cases bucket : t.hashTable.cell (position key) with
        | none =>
          by_cases spare : key.bytes.length + 1 ≤ room key.bytes.length ∧
              value.bytes.length + 1 ≤ room value.bytes.length
          · rw [insert_empty inv inside.1 inside.2 bucket spare.1 spare.2] at run
            exact Or.inr ⟨key, inside, bucket, spare.1, (Except.ok.inj run).symm⟩
          · rw [insert_overruns inv inside.1 inside.2 bucket spare] at run
            cases run
        | some p =>
          obtain ⟨node, here, _⟩ := inv.single _ p inside.1 inside.2 bucket
          by_cases same : node.key = key
          · rw [insert_existing inv inside.1 inside.2 bucket here same] at run
            exact Or.inl (Except.ok.inj run).symm
          · rw [insert_endless inv inside.1 inside.2 bucket here same] at run
            cases run
    · rw [hashInsert, entry_outside inv.spans inside, error_bind] at run
      cases run

theorem bucket_address (inv : Inv t) (free : t.nodes address = none) {pos : Int} (low : 0 ≤ pos)
    (high : pos < HASHSIZE) (bucket : t.hashTable.cell pos = some p) : p ≠ address := by
  rintro rfl
  obtain ⟨node, here, _⟩ := inv.single pos p low high bucket
  rw [free] at here
  cases here

theorem inserted_inv (inv : Inv t) (free : t.nodes address = none) (pos : Int) :
    Inv (inserted t pos address key value) := by
  constructor
  · exact put_spans inv.spans pos (some address)
  · intro other p low high bucket
    by_cases here : other = pos
    · rw [here, inserted_bucket, Option.some.injEq] at bucket
      rw [← bucket, inserted_node]
      exact ⟨_, rfl, rfl⟩
    · rw [inserted_other _ _ _ _ _ here] at bucket
      rw [inserted_old _ _ _ _ _ (bucket_address inv free low high bucket)]
      exact inv.single other p low high bucket

theorem inv_inserts {u : Table} (inv : Inv t) (inserts : Inserts room t u) : Inv u := by
  obtain ⟨rounds, address, key, value, free, run⟩ := inserts
  rcases insert_cases inv run with rfl | ⟨key, _, _, _, rfl⟩
  · exact inv
  · exact inserted_inv inv free (position key)

theorem inv_reachable {start : Table} (reached : Reachable (Inserts room) (hashInit start) t) : Inv t :=
  invariant_reachable (inv_init start) (fun _ _ inv inserts => inv_inserts inv inserts) reached

theorem inv_acyclic (inv : Inv t) : Acyclic t := by
  intro pos p loaded
  cases p with
  | none => exact ⟨[], rfl, trivial⟩
  | some p =>
    obtain ⟨low, high, bucket⟩ := load_some loaded
    rw [inv.spans.lo] at low
    rw [inv.spans.hi] at high
    obtain ⟨node, here, last⟩ := inv.single pos p low high bucket
    refine ⟨[p], rfl, ?_, trivial⟩
    change (t.nodes p).map HashNode.pNext = some none
    rw [here, Option.map_some, last]

section
variable (inv : Inv t) (low : 0 ≤ position key) (high : position key < HASHSIZE)
include inv

theorem finds_outside (apart : ¬ (0 ≤ position key ∧ position key < HASHSIZE)) :
    Finds t key (.error .outside) := by
  refine ⟨nofun, 0, fun rounds _ => ?_⟩
  rw [hashSearch, entry_outside inv.spans apart, error_bind]

include low high

theorem finds_empty (empty : t.hashTable.cell (position key) = none) :
    Finds t key (.ok (-1, none)) := by
  refine ⟨nofun, 1, fun rounds enough => ?_⟩
  obtain ⟨more, rfl⟩ := Nat.exists_eq_add_of_le' enough
  rw [hashSearch, entry_inside inv.spans low high, empty, ok_bind, searchLoop]

theorem finds_head (bucket : t.hashTable.cell (position key) = some p)
    (here : t.nodes p = some node) (same : node.key = key) :
    Finds t key (.ok (position key, some node.value)) := by
  refine ⟨nofun, 1, fun rounds enough => ?_⟩
  obtain ⟨more, rfl⟩ := Nat.exists_eq_add_of_le' enough
  rw [hashSearch, entry_inside inv.spans low high, bucket, ok_bind, searchLoop, deref_node here,
    ok_bind, if_pos same.symm]

theorem finds_nothing (bucket : t.hashTable.cell (position key) = some p)
    (here : t.nodes p = some node) (last : node.pNext = none) (other : node.key ≠ key) :
    Finds t key (.ok (-1, none)) := by
  refine ⟨nofun, 2, fun rounds enough => ?_⟩
  obtain ⟨more, rfl⟩ := Nat.exists_eq_add_of_le' enough
  rw [hashSearch, entry_inside inv.spans low high, bucket, ok_bind, searchLoop, deref_node here,
    ok_bind, if_neg (Ne.symm other), last, searchLoop]

end

theorem finds_both {u : Table} (inv : Inv t) (kept : Inv u)
    (same : u.hashTable.cell (position key) = t.hashTable.cell (position key))
    (nodes : ∀ p, t.hashTable.cell (position key) = some p → u.nodes p = t.nodes p) :
    ∃ result, Finds t key result ∧ Finds u key result := by
  by_cases inside : 0 ≤ position key ∧ position key < HASHSIZE
  · obtain ⟨low, high⟩ := inside
    cases bucket : t.hashTable.cell (position key) with
    | none =>
      rw [bucket] at same
      exact ⟨_, finds_empty inv low high bucket, finds_empty kept low high same⟩
    | some p =>
      obtain ⟨node, here, last⟩ := inv.single _ p low high bucket
      have there : u.nodes p = some node := (nodes p bucket).trans here
      rw [bucket] at same
      by_cases found : node.key = key
      · exact ⟨_, finds_head inv low high bucket here found,
          finds_head kept low high same there found⟩
      · exact ⟨_, finds_nothing inv low high bucket here last found,
          finds_nothing kept low high same there last found⟩
  · exact ⟨_, finds_outside inv inside, finds_outside kept inside⟩

theorem existing_preserves (inv : Inv t) (low : 0 ≤ position key) (high : position key < HASHSIZE)
    (bucket : t.hashTable.cell (position key) = some p) (here : t.nodes p = some node)
    (same : node.key = key) : Preserves room t address key value := by
  refine ⟨1, t, insert_existing inv low high bucket here same, inv_acyclic inv, ?_, ?_⟩
  · exact ⟨_, finds_head inv low high bucket here same⟩
  · intro other _
    exact finds_both inv inv rfl fun _ _ => rfl

theorem empty_preserves (inv : Inv t) (free : t.nodes address = none) (low : 0 ≤ position key)
    (high : position key < HASHSIZE) (empty : t.hashTable.cell (position key) = none)
    (key_room : key.bytes.length + 1 ≤ room key.bytes.length)
    (value_room : value.bytes.length + 1 ≤ room value.bytes.length) :
    Preserves room t address key value := by
  have kept := @inserted_inv t address key value inv free (position key)
  have bucket := inserted_bucket t (position key) address key value
  have here := inserted_node t (position key) address key value
  refine ⟨1, _, insert_empty inv low high empty key_room value_room, inv_acyclic kept, ?_, ?_⟩
  · exact ⟨_, finds_head kept low high bucket here rfl⟩
  · intro other ne
    by_cases same : position other = position key
    · have there : (inserted t (position key) address key value).hashTable.cell (position other) =
          some address := by
        rw [same]
        exact bucket
      rw [← same] at low high empty
      have before : Finds t other (.ok (-1, none)) := finds_empty inv low high empty
      exact ⟨_, before, finds_nothing kept low high there here rfl (Ne.symm ne)⟩
    · by_cases inside : 0 ≤ position other ∧ position other < HASHSIZE
      · apply finds_both inv kept (inserted_other t _ address key value same)
        intro p old
        have apart := bucket_address inv free inside.1 inside.2 old
        exact inserted_old t _ address key value apart
      · exact ⟨_, finds_outside inv inside, finds_outside kept inside⟩

theorem preserves_iff (inv : Inv t) (low : 0 ≤ position key) (high : position key < HASHSIZE)
    (free : t.nodes address = none) :
    Preserves room t address key value ↔ Stored t key ∨ Spare room t key value := by
  have loaded := load_spans inv.spans low high
  cases bucket : t.hashTable.cell (position key) with
  | none =>
    rw [bucket] at loaded
    constructor
    · rintro ⟨rounds, u, run, _⟩
      refine Or.inr ⟨loaded, ?_⟩
      by_contra short
      cases rounds with
      | zero =>
        rw [insert_zero inv low high] at run
        cases run
      | succ rounds =>
        rw [insert_overruns inv low high bucket short] at run
        cases run
    · rintro (⟨p, node, other, _⟩ | ⟨_, key_room, value_room⟩)
      · rw [loaded] at other
        cases other
      · exact empty_preserves inv free low high bucket key_room value_room
  | some p =>
    obtain ⟨node, here, _⟩ := inv.single _ p low high bucket
    rw [bucket] at loaded
    by_cases same : node.key = key
    · exact iff_of_true (existing_preserves inv low high bucket here same)
        (Or.inl ⟨p, node, loaded, here, same⟩)
    · apply iff_of_false
      · rintro ⟨rounds, u, run, _⟩
        rw [insert_endless inv low high bucket here same] at run
        cases run
      · rintro (⟨q, first, other, there, found⟩ | ⟨other, _⟩)
        · rw [loaded, Option.some.injEq, Option.some.injEq] at other
          rw [← other, here, Option.some.injEq] at there
          exact same (there ▸ found)
        · rw [loaded] at other
          cases other

/-- With blocks of just the size asked for, no insertion ever fills a bucket. -/
theorem exact_blocks_empty {start : Table} (reached : Reachable (Inserts id) (hashInit start) t) :
    ∀ pos, 0 ≤ pos → pos < HASHSIZE → t.hashTable.cell pos = none := by
  have both : Inv t ∧ ∀ pos, 0 ≤ pos → pos < HASHSIZE → t.hashTable.cell pos = none := by
    apply @invariant_reachable _ _ (fun t => Inv t ∧
      ∀ pos, 0 ≤ pos → pos < HASHSIZE → t.hashTable.cell pos = none) _ _ _ _ reached
    · exact ⟨inv_init start, fun _ _ _ => rfl⟩
    · rintro t u ⟨inv, empty⟩ inserts
      refine ⟨inv_inserts inv inserts, ?_⟩
      obtain ⟨rounds, address, key, value, _, run⟩ := inserts
      rcases insert_cases inv run with rfl | ⟨key, _, _, room, _⟩
      · exact empty
      · exact absurd room (Nat.not_succ_le_self _)
  exact both.2

/-- An insertion into a table that insertions have filled is right exactly when the bucket of the
    key begins with the key, or is empty and malloc gives a byte more than asked for to each of
    the two buffers; with blocks of just the size asked for it never is. -/
theorem insertion_preserves_iff {start : Table}
    (reached : Reachable (Inserts room) (hashInit start) t) (low : 0 ≤ position key)
    (high : position key < HASHSIZE) (free : t.nodes address = none) :
    (Preserves room t address key value ↔ Stored t key ∨ Spare room t key value) ∧
    (room = id → ¬ Preserves room t address key value) := by
  have inv := inv_reachable reached
  have right := @preserves_iff room t address key value inv low high free
  refine ⟨right, ?_⟩
  rintro rfl preserves
  have empty := exact_blocks_empty reached (position key) low high
  rcases right.mp preserves with ⟨p, _, bucket, _⟩ | ⟨_, spare, _⟩
  · rw [load_spans inv.spans low high, empty] at bucket
    cases bucket
  · exact Nat.not_succ_le_self _ spare

end

def blank : Table := ⟨filled HASHSIZE none, 0, fun _ => none⟩

def ab : CString := ⟨[97, 98], by decide⟩

def bA : CString := ⟨[98, 65], by decide⟩

/-- The sizes of the blocks of an allocator with a header of 8 bytes in front of each and
    addresses that are multiples of 16. -/
def usableSize (n : Nat) : Nat := max 24 ((n + 23) / 16 * 16 - 8)

theorem first_insertion_preserves :
    (Preserves usableSize (hashInit blank) 0 ab ab ↔
      Stored (hashInit blank) ab ∨ Spare usableSize (hashInit blank) ab ab) ∧
    ¬ Preserves id (hashInit blank) 0 ab ab := by
  have low : 0 ≤ position ab := by decide
  have high : position ab < HASHSIZE := by decide
  constructor
  · exact (insertion_preserves_iff (reachable_start _) low high rfl).1
  · exact (insertion_preserves_iff (reachable_start _) low high rfl).2 rfl

/-- Where the blocks have a byte more, an insertion of bA behind that of ab does not come to an
    end; where they have not, the first insertion already overruns its buffers. -/
theorem colliding_insertion_endless :
    (¬ ∀ (start t : Table), Reachable (Inserts usableSize) (hashInit start) t →
      ∀ (address : Nat) (key value : CString), 0 ≤ position key → position key < HASHSIZE →
        t.nodes address = none → Preserves usableSize t address key value) ∧
    hashInsert id 1 0 (hashInit blank) (some ab) ab = .error .overrun := by
  have inv := inv_init blank
  constructor
  · intro claim
    have first : Inserts usableSize (hashInit blank)
        (inserted (hashInit blank) (position ab) 0 ab ab) :=
      ⟨1, 0, some ab, ab, rfl,
        insert_empty inv (by decide) (by decide) rfl (by decide) (by decide)⟩
    have bucket := inserted_bucket (hashInit blank) (position ab) 0 ab ab
    have here := inserted_node (hashInit blank) (position ab) 0 ab ab
    have same : position bA = position ab := by decide
    rw [← same] at bucket
    obtain ⟨rounds, u, run, _⟩ := claim blank _ (reachable_step (reachable_start _) first) 1 bA bA
      (by decide) (by decide) rfl
    rw [insert_endless (inv_inserts inv first) (by decide) (by decide) bucket here
      (by decide)] at run
    cases run
  · exact insert_overruns inv (by decide) (by decide) rfl (by decide)

end UC.HashChains
