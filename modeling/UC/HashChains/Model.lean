import UC.Lib.Cells
import UC.Lib.Memory
import UC.StringTable.Model

/- The chained hash table of example_hashtable3.cpp, with its nodes in a heap. malloc answers an
   address that no node has; a key or value buffer is a block of its own, with room for as many
   bytes as malloc gives for the strlen asked for, and strcpy does not write behind it. -/
namespace UC.HashChains
open UC.Cells UC.Memory
open UC.StringTable (CString)

def HASHSIZE : Int := 30000

structure HashNode where
  key : CString
  value : CString
  pNext : Option Nat
  deriving DecidableEq

/-- The global variables and the heap. -/
structure Table where
  hashTable : Arr (Option Nat)
  hashTableSize : Int
  nodes : Mem (Option HashNode)

/-- Why a call does not return: an index outside hashTable, an address without a node, a byte
    behind the end of a buffer, or a loop that has not come to its end. -/
inductive Fault where
  | outside
  | dangling
  | overrun
  | unfinished
  deriving DecidableEq

/-- (unsigned long)key[i], of a signed char. -/
def charValue (ch : UInt8) : UInt64 := ch.toInt8.toInt64.toUInt64

def toInt (n : Nat) : Int := Int.bmod n 4294967296

def time33 (key : List UInt8) (size : Int) : Int :=
  toInt ((key.take size.toNat).foldl (fun hash ch => hash * 33 + charValue ch) (0 : UInt64)).toNat

def hashFn (key : List UInt8) (size : Int) : Int := (time33 key size).tmod HASHSIZE

/-- hashFn(key, strlen(key)). -/
def position (key : CString) : Int := hashFn key.bytes (toInt key.bytes.length)

def hashInit (t : Table) : Table := { t with hashTable := filled HASHSIZE none, hashTableSize := 0 }

def entry (t : Table) (pos : Int) : Except Fault (Option Nat) :=
  match load t.hashTable pos with
  | some p => .ok p
  | none => .error .outside

def setEntry (t : Table) (pos : Int) (p : Option Nat) : Except Fault Table :=
  match save t.hashTable pos p with
  | some hashTable => .ok { t with hashTable := hashTable }
  | none => .error .outside

def deref (t : Table) (p : Nat) : Except Fault HashNode :=
  match t.nodes p with
  | some node => .ok node
  | none => .error .dangling

def setNode (t : Table) (p : Nat) (node : Option HashNode) : Table :=
  { t with nodes := store t.nodes p node }

/-- The loop of hashInsert, with whether the key existed. -/
def insertLoop (key : CString) : Nat → Table → Option Nat → Except Fault (Table × Bool)
  | 0, _, _ => .error .unfinished
  | _ + 1, t, none => .ok (t, false)
  | rounds + 1, t, some pHashNode =>
    (deref t pHashNode).bind fun node =>
      if node.key = key then .ok (t, true)
      else
        -- pHashNode->pNext = pHashNode, not the other way round
        insertLoop key rounds (setNode t pHashNode (some { node with pNext := some pHashNode }))
          (some pHashNode)

/-- strcpy to a buffer of size bytes: the chars of the string and the zero behind them. -/
def strcpy (size : Nat) (s : CString) : Except Fault CString :=
  if s.bytes.length + 1 ≤ size then .ok s else .error .overrun

/-- A block for n bytes has room n of them. -/
def hashInsert (room : Nat → Nat) (rounds address : Nat) (t : Table) (key : Option CString)
    (value : CString) : Except Fault Table :=
  match key with
  | none => .ok t
  | some key =>
    let pos := position key
    (entry t pos).bind fun pHashNode =>
      (insertLoop key rounds t pHashNode).bind fun (t, existed) =>
        if existed then .ok t
        else
          (strcpy (room key.bytes.length) key).bind fun newKey =>
            (strcpy (room value.bytes.length) value).bind fun newValue =>
              (entry t pos).bind fun pNext =>
                setEntry (setNode t address (some ⟨newKey, newValue, pNext⟩)) pos (some address)

/-- pLast, or the entry where there is none, skips a node of this pNext. -/
def skip (t : Table) (pos : Int) (pLast pNext : Option Nat) : Except Fault Table :=
  match pLast with
  | some pLast =>
    (deref t pLast).bind fun last => .ok (setNode t pLast (some { last with pNext := pNext }))
  | none => setEntry t pos pNext

/-- The loop of hashDelete. A node removed is freed, and its pNext is read behind that. -/
def deleteLoop (key : CString) (pos : Int) :
    Nat → Table → Option Nat → Option Nat → Except Fault Table
  | 0, _, _, _ => .error .unfinished
  | _ + 1, t, _, none => .ok t
  | rounds + 1, t, pLast, some pHashNode =>
    (deref t pHashNode).bind fun node =>
      let removed :=
        if node.key = key then
          (skip t pos pLast node.pNext).bind fun t => .ok (setNode t pHashNode none)
        else .ok t
      removed.bind fun t =>
        (deref t pHashNode).bind fun node =>
          deleteLoop key pos rounds t (some pHashNode) node.pNext

def hashDelete (rounds : Nat) (t : Table) (key : Option CString) : Except Fault Table :=
  match key with
  | none => .ok t
  | some key =>
    (entry t (position key)).bind fun pHashNode =>
      deleteLoop key (position key) rounds t none pHashNode

def searchLoop (key : CString) (pos : Int) :
    Nat → Table → Option Nat → Except Fault (Int × Option CString)
  | 0, _, _ => .error .unfinished
  | _ + 1, _, none => .ok (-1, none)
  | rounds + 1, t, some pHashNode =>
    (deref t pHashNode).bind fun node =>
      if key = node.key then .ok (pos, some node.value)
      else searchLoop key pos rounds t node.pNext

/-- The index and what is copied to value. -/
def hashSearch (rounds : Nat) (t : Table) (key : Option CString) :
    Except Fault (Int × Option CString) :=
  match key with
  | none => .ok (-1, none)
  | some key =>
    (entry t (position key)).bind fun pHashNode =>
      searchLoop key (position key) rounds t pHashNode

section
variable {t : Table} {pos : Int}

theorem entry_inside (spans : Spans t.hashTable HASHSIZE) (low : 0 ≤ pos) (high : pos < HASHSIZE) :
    entry t pos = .ok (t.hashTable.cell pos) := by
  rw [entry, load_spans spans low high]

theorem entry_outside (spans : Spans t.hashTable HASHSIZE) (apart : ¬ (0 ≤ pos ∧ pos < HASHSIZE)) :
    entry t pos = .error .outside := by
  have outside : ¬ (t.hashTable.lo ≤ pos ∧ pos < t.hashTable.hi) := by
    rw [spans.lo, spans.hi]
    exact apart
  rw [entry, load, if_neg outside]

theorem set_entry_inside (spans : Spans t.hashTable HASHSIZE) (low : 0 ≤ pos)
    (high : pos < HASHSIZE) (p : Option Nat) :
    setEntry t pos p = .ok { t with hashTable := put t.hashTable pos p } := by
  rw [setEntry, save_spans spans low high]

theorem deref_node {p : Nat} {node : HashNode} (here : t.nodes p = some node) :
    deref t p = .ok node := by
  rw [deref, here]

end

end UC.HashChains
