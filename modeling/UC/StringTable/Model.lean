import UC.Lib.Histories
import UC.Lib.Memory

/- The chained hash table of example_hashtable2.cpp, with a chain of nodes as a list. malloc
   succeeds, and hash_table_lookup answers NULL where it finds nothing. -/
namespace UC.StringTable
open UC.Memory

/-- What stands before the terminating zero. -/
structure CString where
  bytes : List UInt8
  clean : 0 ∉ bytes
  deriving DecidableEq

def HASH_TABLE_MAX_SIZE : Int := 10000

structure HashNode where
  sKey : CString
  nValue : Int
  deriving DecidableEq

structure Table where
  hashTable : Mem (List HashNode)
  hash_table_size : Int

def hash_table_init : Table := ⟨fun _ => [], 0⟩

/-- *p as an unsigned int, of a signed char. -/
def charValue (ch : UInt8) : UInt32 := ch.toInt8.toInt32.toUInt32

def hash_table_hash_str (skey : CString) : UInt32 :=
  match skey.bytes with
  | [] => 0
  | ch :: p =>
    let h := charValue ch
    if h ≠ 0 then p.foldl (fun h ch => (h <<< 5) - h + charValue ch) h else h

def position (skey : CString) : Nat := (hash_table_hash_str skey).toNat % 10000

/-- The loop of hash_table_insert and of hash_table_lookup. -/
def scan (skey : CString) : List HashNode → Option HashNode
  | [] => none
  | pHead :: pNext => if pHead.sKey = skey then some pHead else scan skey pNext

def hash_table_insert (t : Table) (skey : CString) (nvalue : Int) : Table :=
  if t.hash_table_size ≥ HASH_TABLE_MAX_SIZE then t
  else
    let pos := position skey
    match scan skey (t.hashTable pos) with
    | some _ => t
    | none => ⟨store t.hashTable pos (⟨skey, nvalue⟩ :: t.hashTable pos), t.hash_table_size + 1⟩

/-- What hangs on pLast when its successors have been searched: pLast->pNext skips the node
    found. -/
def unlink (skey : CString) : List HashNode → List HashNode
  | [] => []
  | pHead :: pNext => if skey = pHead.sKey then pNext else pHead :: unlink skey pNext

/-- Where pLast is NULL, the whole entry is set to NULL. -/
def hash_table_remove (t : Table) (skey : CString) : Table :=
  let pos := position skey
  match t.hashTable pos with
  | [] => t
  | pHead :: pNext =>
    let chain := if skey = pHead.sKey then [] else pHead :: unlink skey pNext
    { t with hashTable := store t.hashTable pos chain }

def hash_table_lookup (t : Table) (skey : CString) : Option HashNode :=
  scan skey (t.hashTable (position skey))

/-- What the calls are for: a key keeps its first value until it is removed. -/
abbrev Map := CString → Option Int

inductive Call where
  | insert (skey : CString) (nvalue : Int)
  | remove (skey : CString)
  | lookup (skey : CString)

def specify (map : Map) : Call → Map
  | .insert skey nvalue => fun key =>
    if key = skey then some ((map key).getD nvalue) else map key
  | .remove skey => fun key => if key = skey then none else map key
  | .lookup _ => map

/-- The table beside the map that it should be. -/
structure State where
  table : Table
  map : Map

def start : State := ⟨hash_table_init, fun _ => none⟩

def call (s : State) (op : Call) : Option State :=
  some {
    table := match op with
      | .insert skey nvalue => hash_table_insert s.table skey nvalue
      | .remove skey => hash_table_remove s.table skey
      | .lookup _ => s.table
    map := specify s.map op }

/-- Every lookup answers what the map has. -/
def Agrees (s : State) : Prop :=
  ∀ skey, (hash_table_lookup s.table skey).map HashNode.nValue = s.map skey

/-- A new key finds room by hash_table_size, and a key removed is not the head of a chain that
    goes on. -/
def Careful (s : State) : Call → Prop
  | .insert skey _ => hash_table_lookup s.table skey = none →
    s.table.hash_table_size < HASH_TABLE_MAX_SIZE
  | .remove skey => ∀ pHead pNext, s.table.hashTable (position skey) = pHead :: pNext →
    pHead.sKey = skey → pNext = []
  | .lookup _ => True

end UC.StringTable
