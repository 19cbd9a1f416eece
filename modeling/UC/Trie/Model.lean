import Mathlib.Logic.Function.Basic
import UC.Lib.Memory

/- The trie of example_trie.cpp. A word is the bytes before its terminating NUL. Overflow of
   an int, a write outside of worddump and a negative index, which a char of 128 or more is,
   have no result. malloc does not fail. -/
namespace UC.Trie
open UC.Memory

abbrev TREE_WIDTH : Nat := 256
def WORDLENMAX : Nat := 128
def INT_MAX : Int := 2147483647

abbrev Byte := Fin TREE_WIDTH
abbrev Word := List Byte

def NUL : Byte := 0

inductive TrieNode where
  | NULL
  | node (count pass : Int) (next : Byte → TrieNode)

/-- A node as memset leaves it; root starts as one. -/
def TrieNode.zero : TrieNode := .node 0 0 fun _ => .NULL

def plus (a b : Int) : Option Int := if a + b ≤ INT_MAX then some (a + b) else none

def index (c : Byte) : Option Byte := if c.val < 128 then some c else none

/-- newnode where there is none. -/
def TrieNode.orNew : TrieNode → TrieNode
  | .NULL => .zero
  | rt => rt

/-- The loop of insert from curr on, and curr->count++ behind it. -/
def insertLoop : Word → TrieNode → Option TrieNode
  | _, .NULL => none
  | [], .node count pass next =>
    (plus count 1).map fun count => .node count pass next
  | c :: rest, .node count pass next =>
    (plus pass 1).bind fun pass =>
      (index c).bind fun i =>
        (insertLoop rest (next i).orNew).map fun child =>
          .node count pass (Function.update next i child)

def insert (word : Word) (root : TrieNode) : Option TrieNode :=
  if word = [] then some root else insertLoop word root

def insertAll : List Word → TrieNode → Option TrieNode
  | [], root => some root
  | word :: rest, root => (insert word root).bind (insertAll rest)

/-- The static variables of do_travel, and the lines printed. -/
structure Travel where
  worddump : Mem Byte
  pos : Nat
  printed : List (Word × Int)

namespace Travel

def dump (t : Travel) (c : Byte) : Option Travel :=
  if t.pos < WORDLENMAX + 1 then some { t with worddump := store t.worddump t.pos c } else none

/-- %s of worddump. -/
def str (t : Travel) : Word := (slice t.worddump 0 (WORDLENMAX + 1)).takeWhile fun c => c ≠ NUL

def printword (t : Travel) (n : Int) : Travel := { t with printed := t.printed ++ [(t.str, n)] }

end Travel

def printNode (count pass : Int) (t : Travel) : Option Travel :=
  if count ≠ 0 then
    (t.dump NUL).bind fun t => (plus count pass).map fun n => t.printword n
  else some t

def do_travel : TrieNode → Travel → Option Travel
  | .NULL, t => some t
  | .node count pass next, t =>
    (printNode count pass t).bind fun t =>
      (List.finRange TREE_WIDTH).foldlM (fun t i =>
        (t.dump i).bind fun t =>
          (do_travel (next i) { t with pos := t.pos + 1 }).map fun t =>
            { t with pos := t.pos - 1 }) t

def start : Travel where
  worddump := fun _ => NUL
  pos := 0
  printed := []

/-- What is printed for the words of the input. -/
def run (words : List Word) : Option (List (Word × Int)) :=
  ((insertAll words .zero).bind fun root => do_travel root start).map Travel.printed

end UC.Trie
