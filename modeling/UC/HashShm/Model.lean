import Mathlib.Algebra.Group.Defs
import UC.Lib.Memory

/- The multi-level hash table CHashShm of example_shm_hashtable2.cpp. Row i has a prime
   number of nodes and gives every key one candidate node; a node with key 0 is empty. -/
namespace UC
open UC.Memory

namespace HashShm

def FACTOR : Nat := 5381

def PRIMER_TABLE : List Nat :=
  [1511, 1523, 1531, 1543, 1549, 1553, 1559, 1567, 1571, 1579, 1583, 1597, 1601, 1607, 1609, 1613,
    1619, 1621, 1627, 1637, 1657, 1663, 1667, 1669, 1693, 1697, 1699, 1709, 1721, 1723, 1733, 1741,
    1747, 1753, 1759, 1777, 1783, 1787, 1789, 1801, 1811, 1823, 1831, 1847, 1861, 1867, 1871, 1873,
    1877, 1879, 1889, 1901, 1907, 1913, 1931, 1933, 1949, 1951, 1973, 1979, 1987, 1993, 1997, 1999]

def PRIMER_TABLE_LEN : Nat := PRIMER_TABLE.length

def primer (i : Nat) : Nat := PRIMER_TABLE.getD i 0

/-- First node of row i, as the loop of Init sums it up. -/
def PRIMER_TABLE_TATAL : Nat → Nat
  | 0 => 0
  | i + 1 => PRIMER_TABLE_TATAL i + primer i

inductive Code where
  | OK
  | KEYEXIST
  | ERROR
  | NOTFOUND
  | OUTOFMEM
  deriving DecidableEq, Repr

end HashShm

structure HashNode (V : Type) where
  key : UInt64
  value : V

structure HashHead where
  currentSize : UInt64
  status : UInt64

/-- What lives in the shared memory segment. -/
structure Segment (V : Type) where
  head : HashHead
  nodes : Mem (HashNode V)

structure CHashShm (V : Type) (lines : Nat) where
  shm : Segment V
  maxSize : Nat
  /-- Node number the mutable pointer lastFound points at. -/
  lastFound : Nat

namespace CHashShm
open HashShm
variable {V : Type} {lines : Nat}

def zeroed [Zero V] : Segment V := ⟨⟨0, 0⟩, fun _ => ⟨0, 0⟩⟩

/-- Init on an existing segment, or on none. -/
def init [Zero V] (shm : Option (Segment V)) : Option (CHashShm V lines) :=
  if lines > PRIMER_TABLE_LEN then none
  else
    let shm := shm.getD zeroed
    some ⟨{ shm with head := ⟨0, 1⟩ }, PRIMER_TABLE_TATAL lines, 0⟩

/-- Column of a key in row i. -/
def hash (lines : Nat) (key : UInt64) (i : Nat) : Nat :=
  (key + (lines * FACTOR).toUInt64).toNat % primer i

/-- Node number of (row, col); the bound is the source's, in nodes plus sizeof(hash_head). -/
def getPos (t : CHashShm V lines) (row col : Nat) : Option Nat :=
  let pos := PRIMER_TABLE_TATAL row + col
  if pos ≥ t.maxSize + 32 then none else some pos

/-- The loop of find, over the rows still to visit. -/
def findRows (t : CHashShm V lines) (key : UInt64) : List Nat → Option Nat
  | [] => none
  | i :: rows =>
    match t.getPos i (hash lines key i) with
    | none => none
    | some pH => if (t.shm.nodes pH).key = key then some pH else findRows t key rows

def find (t : CHashShm V lines) (key : UInt64) : CHashShm V lines × Code :=
  match t.findRows key (List.range lines) with
  | some pH => ({ t with lastFound := pH }, .OK)
  | none => (t, .NOTFOUND)

def writeNode (t : CHashShm V lines) (pH : Nat) (node : HashNode V) (size : UInt64) :
    CHashShm V lines :=
  { t with shm := ⟨{ t.shm.head with currentSize := size }, store t.shm.nodes pH node⟩ }

/-- The insertion loop, the same text in Set and in Replace. -/
def insertRows (t : CHashShm V lines) (key : UInt64) (value : V) :
    List Nat → CHashShm V lines × Code
  | [] => (t, .ERROR)
  | i :: rows =>
    match t.getPos i (hash lines key i) with
    | none => (t, .OUTOFMEM)
    | some pH =>
      if (t.shm.nodes pH).key = 0 then
        (t.writeNode pH ⟨key, value⟩ (t.shm.head.currentSize + 1), .OK)
      else insertRows t key value rows

def set (t : CHashShm V lines) (key : UInt64) (value : V) : CHashShm V lines × Code :=
  match t.find key with
  | (t, .OK) => (t, .KEYEXIST)
  | (t, _) => t.insertRows key value (List.range lines)

/-- The last component is the caller's variable behind the reference _value. -/
def get (t : CHashShm V lines) (key : UInt64) (value : V) : CHashShm V lines × Code × V :=
  match t.find key with
  | (t, .OK) => (t, .OK, (t.shm.nodes t.lastFound).value)
  | (t, _) => (t, .NOTFOUND, value)

def replace (t : CHashShm V lines) (key : UInt64) (value : V) : CHashShm V lines × Code :=
  match t.find key with
  | (t, .OK) =>
    (t.writeNode t.lastFound { t.shm.nodes t.lastFound with value := value }
      t.shm.head.currentSize, .OK)
  | (t, _) => t.insertRows key value (List.range lines)

def remove (t : CHashShm V lines) (key : UInt64) : CHashShm V lines × Code :=
  match t.find key with
  | (t, .OK) =>
    (t.writeNode t.lastFound { t.shm.nodes t.lastFound with key := 0 }
      (t.shm.head.currentSize - 1), .OK)
  | (t, _) => (t, .NOTFOUND)

/-- memset over the whole segment, then the counter. -/
def clear [Zero V] (t : CHashShm V lines) : CHashShm V lines := { t with shm := zeroed }

end CHashShm

end UC
