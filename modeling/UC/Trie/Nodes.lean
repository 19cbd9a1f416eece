import Mathlib.Algebra.BigOperators.Pi
import Mathlib.Algebra.Order.BigOperators.Group.Finset
import Mathlib.Algebra.Order.Group.Multiset
import UC.Lib.Heaps
import UC.Trie.Words

/- The same program with its pointers: root is a static variable, insert takes the other nodes
   from malloc, and main gives them back with myfree. The tree that the nodes make is the one of
   the program without pointers. -/
namespace UC.Trie
open UC.Heaps

/-- struct trie_node_st; none is a NULL. -/
structure Cell where
  count : Int
  pass : Int
  next : Byte → Option Nat

/-- As memset leaves it. -/
def Cell.zero : Cell := ⟨0, 0, fun _ => none⟩

abbrev Nodes := Heap Cell

def root : Nat := 0

namespace Nodes

def start : Nodes := ⟨1, Function.update (fun _ => none) root (some .zero), 1, []⟩

/-- The loop of insert from curr on, and curr->count++ behind it. -/
def insertFrom : Word → Nat → Nodes → Option Nodes
  | [], curr, s =>
    (s.cells curr).bind fun cell =>
      (plus cell.count 1).bind fun count => s.write curr { cell with count := count }
  | c :: rest, curr, s =>
    (s.cells curr).bind fun cell =>
      (plus cell.pass 1).bind fun pass =>
        (s.write curr { cell with pass := pass }).bind fun s =>
          (index c).bind fun i =>
            match cell.next i with
            | some child => insertFrom rest child s
            | none =>
              let (newnode, s) := s.malloc .zero
              (s.write curr { cell with pass := pass, next := Function.update cell.next i newnode }).bind
                (insertFrom rest newnode)

def insert (word : Word) (s : Nodes) : Option Nodes :=
  if word = [] then some s else insertFrom word root s

end Nodes

namespace Nodes

variable {s : Nodes} {a b : Nat} {c i : Byte} {rest : Word} {count pass more : Int}
  {nexts : Byte → Option Nat}

theorem insert_from_child (cell : s.cells a = some ⟨count, pass, nexts⟩)
    (counted : plus pass 1 = some more) (found : index c = some i) (child : nexts i = some b) :
    insertFrom (c :: rest) a s = insertFrom rest b (s.put a ⟨count, more, nexts⟩) := by
  rw [insertFrom, cell, Option.bind_some, counted, Option.bind_some, Heap.write_live cell,
    Option.bind_some, found, Option.bind_some]
  dsimp only
  rw [child]

/-- curr has counted the word and has newnode as its child. -/
def branched (s : Nodes) (a : Nat) (count more : Int) (nexts : Byte → Option Nat) (i : Byte) :
    Nodes :=
  ((s.put a ⟨count, more, nexts⟩).malloc .zero).2.put a
    ⟨count, more, Function.update nexts i s.fresh⟩

theorem insert_from_new (cell : s.cells a = some ⟨count, pass, nexts⟩) (older : a < s.fresh)
    (counted : plus pass 1 = some more) (found : index c = some i) (null : nexts i = none) :
    insertFrom (c :: rest) a s = insertFrom rest s.fresh (branched s a count more nexts i) := by
  have written : ((s.put a ⟨count, more, nexts⟩).malloc .zero).2.cells a =
      some ⟨count, more, nexts⟩ :=
    ((s.put a _).malloc_other _ (Nat.ne_of_lt older)).trans (s.put_same _ _)
  rw [insertFrom, cell, Option.bind_some, counted, Option.bind_some, Heap.write_live cell,
    Option.bind_some, found, Option.bind_some]
  dsimp only
  rw [null]
  dsimp only
  rw [Heap.write_live written]
  rfl

theorem branched_other {x : Nat} (other : x ≠ a) (older : x < s.fresh) :
    (branched s a count more nexts i).cells x = s.cells x := by
  have new := (s.put a ⟨count, more, nexts⟩).malloc_other .zero (Nat.ne_of_lt older)
  rw [branched, Heap.put_other _ _ other, new, Heap.put_other _ _ other]

theorem branched_new (older : a < s.fresh) :
    (branched s a count more nexts i).cells s.fresh = some .zero :=
  (Heap.put_other _ _ (Nat.ne_of_gt older)).trans (Heap.malloc_new _ _)

theorem branched_sound (sound : s.Sound) {old : Cell} (cell : s.cells a = some old)
    (older : a < s.fresh) : (branched s a count more nexts i).Sound := by
  have written : ((s.put a ⟨count, more, nexts⟩).malloc .zero).2.cells a =
      some ⟨count, more, nexts⟩ :=
    ((s.put a _).malloc_other _ (Nat.ne_of_lt older)).trans (s.put_same _ _)
  exact Heap.sound_put (Heap.sound_malloc (Heap.sound_put sound cell _) _) written _

end Nodes

/-- A trie with the addresses of its nodes. -/
inductive Placed where
  | NULL
  | node (a : Nat) (count pass : Int) (next : Byte → Placed)

namespace Placed

def trie : Placed → TrieNode
  | .NULL => .NULL
  | .node _ count pass next => .node count pass fun c => (next c).trie

def addr : Placed → Option Nat
  | .NULL => none
  | .node a _ _ _ => some a

/-- What all children have; there are too many to be unfolded. -/
@[irreducible] def together (each : Byte → Multiset Nat) : Multiset Nat := ∑ c, each c

def addrs : Placed → Multiset Nat
  | .NULL => 0
  | .node a _ _ next => {a} + together fun c => (next c).addrs

theorem together_zero : together (fun _ => 0) = 0 := by
  rw [together]
  exact Finset.sum_const_zero

theorem together_child (each : Byte → Multiset Nat) (c : Byte) :
    together each = each c + ∑ d ∈ Finset.univ.erase c, each d := by
  rw [together, Finset.add_sum_erase _ _ (Finset.mem_univ c)]

theorem mem_together {each : Byte → Multiset Nat} {x : Nat} :
    x ∈ together each ↔ ∃ c, x ∈ each c := by
  rw [together, Multiset.mem_sum]
  simp

def Stored (s : Nodes) : Placed → Prop
  | .NULL => True
  | .node a count pass next =>
    s.cells a = some ⟨count, pass, fun c => (next c).addr⟩ ∧ ∀ c, (next c).Stored s

variable {s t : Nodes} {p q : Placed} {a : Nat} {count pass : Int} {next : Byte → Placed} {c : Byte}

theorem addrs_leaf (a : Nat) (count pass : Int) :
    (Placed.node a count pass fun _ => .NULL).addrs = {a} := by
  rw [addrs]
  exact (congrArg _ together_zero).trans (add_zero _)

theorem addrs_child {x : Nat} (inside : x ∈ (next c).addrs) :
    x ∈ (Placed.node a count pass next).addrs := by
  rw [addrs, Multiset.mem_add, mem_together]
  exact .inr ⟨c, inside⟩

theorem apart_child (once : (Placed.node a count pass next).addrs.Nodup) :
    a ∉ (next c).addrs ∧ (next c).addrs.Nodup ∧
      ∀ d, d ≠ c → ∀ x ∈ (next d).addrs, x ∉ (next c).addrs := by
  rw [addrs, together_child _ c, Multiset.nodup_add, Multiset.nodup_add] at once
  obtain ⟨_, ⟨child, _, brothers⟩, apart⟩ := once
  refine ⟨?_, child, ?_⟩
  · intro inside
    exact Multiset.disjoint_left.mp apart (Multiset.mem_singleton_self a)
      (Multiset.mem_add.mpr (.inl inside))
  · intro d other x below inside
    apply Multiset.disjoint_left.mp brothers inside
    exact Multiset.mem_sum.mpr ⟨d, Finset.mem_erase.mpr ⟨other, Finset.mem_univ d⟩, below⟩

theorem addrs_update (a : Nat) (count pass : Int) (next : Byte → Placed) (c : Byte)
    (child : Placed) :
    (Placed.node a count pass (Function.update next c child)).addrs + (next c).addrs =
      (Placed.node a count pass next).addrs + child.addrs := by
  have kept : ∀ d ∈ Finset.univ.erase c,
      (Function.update next c child d).addrs = (next d).addrs := fun d other => by
    rw [Function.update_of_ne (Finset.ne_of_mem_erase other)]
  rw [addrs, addrs, together_child _ c, together_child (fun d => (next d).addrs) c,
    Finset.sum_congr rfl kept, Function.update_self]
  ac_rfl

theorem stored_frame (stored : p.Stored s) (kept : ∀ x ∈ p.addrs, t.cells x = s.cells x) :
    p.Stored t := by
  induction p with
  | NULL => trivial
  | node a count pass next ih =>
    refine ⟨?_, fun c => ih c (stored.2 c) fun x inside => kept x (addrs_child inside)⟩
    rw [kept a (by simp [addrs])]
    exact stored.1

theorem trie_update (a : Nat) (count pass : Int) (next : Byte → Placed) (c : Byte)
    (child : Placed) :
    (Placed.node a count pass (Function.update next c child)).trie =
      .node count pass (Function.update (fun d => (next d).trie) c child.trie) := by
  rw [trie]
  congr 1
  funext d
  by_cases same : d = c
  · subst same
    rw [Function.update_self, Function.update_self]
  · rw [Function.update_of_ne same, Function.update_of_ne same]

theorem addr_update (next : Byte → Placed) (c : Byte) (child : Placed) :
    (fun d => (Function.update next c child d).addr) =
      Function.update (fun d => (next d).addr) c child.addr := by
  funext d
  by_cases same : d = c
  · subst same
    rw [Function.update_self, Function.update_self]
  · rw [Function.update_of_ne same, Function.update_of_ne same]

/-- One word has got into the tree p at a: it is q now, and every new node of q is from malloc. -/
structure Grown (s t : Nodes) (p q : Placed) (a : Nat) : Prop where
  at_a : q.addr = some a
  stored : q.Stored t
  added : ∃ n, q.addrs = p.addrs + List.range' s.fresh n ∧ t.fresh = s.fresh + n
  kept : ∀ x, x ∉ p.addrs → x < s.fresh → t.cells x = s.cells x
  base : t.base = s.base
  sound : s.Sound → t.Sound

/-- A child has grown from k to k', of which k may be new itself. -/
theorem grown_child {s₁ : Nodes} {k k' : Placed} {b m : Nat} {more : Int}
    (stored : (Placed.node a count pass next).Stored s)
    (once : (Placed.node a count pass next).addrs.Nodup)
    (inside : ∀ x ∈ (Placed.node a count pass next).addrs, x < s.fresh)
    (grown : Grown s₁ t k k' b)
    (cell : s₁.cells a = some ⟨count, more, Function.update (fun d => (next d).addr) c k'.addr⟩)
    (others : ∀ x, x ≠ a → x < s.fresh → s₁.cells x = s.cells x)
    (new : k.addrs = (next c).addrs + List.range' s.fresh m) (fresh : s₁.fresh = s.fresh + m)
    (base : s₁.base = s.base) (sound : s.Sound → s₁.Sound) :
    Grown s t (.node a count pass next) (.node a count more (Function.update next c k')) a := by
  have below := apart_child (c := c) once
  have old : ∀ x, x ∉ (next c).addrs → x < s.fresh → t.cells x = s₁.cells x := by
    intro x outside less
    apply grown.kept x _ (by omega)
    rw [new, Multiset.mem_add, Multiset.mem_coe, List.mem_range'_1]
    rintro (inside | range)
    · exact outside inside
    · omega
  have here : a ∈ (Placed.node a count pass next).addrs := by simp [addrs]
  refine ⟨rfl, ⟨?_, ?_⟩, ?_, ?_, grown.base.trans base, fun before => grown.sound (sound before)⟩
  · rw [old a below.1 (inside a here), cell, addr_update]
  · intro d
    by_cases same : d = c
    · subst same
      rw [Function.update_self]
      exact grown.stored
    · rw [Function.update_of_ne same]
      apply stored_frame (stored.2 d)
      intro x member
      have less := inside x (addrs_child member)
      have other : x ≠ a := fun same => (apart_child once).1 (same ▸ member)
      rw [old x (below.2.2 d same x member) less, others x other less]
  · obtain ⟨n, added, later⟩ := grown.added
    refine ⟨m + n, ?_, by omega⟩
    have changed := addrs_update a count more next c k'
    have both : (List.range' s.fresh (m + n) : Multiset Nat) =
        List.range' s.fresh m + List.range' (s.fresh + m) n := by
      rw [Multiset.coe_add, List.range'_append_1]
    rw [added, new, fresh] at changed
    apply add_right_cancel (b := (next c).addrs)
    rw [changed, both]
    simp only [addrs]
    ac_rfl
  · intro x outside less
    have other : x ≠ a := fun same => outside (same ▸ here)
    rw [old x (fun member => outside (addrs_child member)) less, others x other less]

theorem insert_from_grows (word : Word) {s : Nodes} {p : Placed} {a : Nat} {u : TrieNode}
    (at_a : p.addr = some a) (stored : p.Stored s) (once : p.addrs.Nodup)
    (inside : ∀ x ∈ p.addrs, x < s.fresh) (inserted : insertLoop word p.trie = some u) :
    ∃ t q, Nodes.insertFrom word a s = some t ∧ q.trie = u ∧ Grown s t p q a := by
  induction word generalizing s p a u with
  | nil =>
    cases p with
    | NULL => cases at_a
    | node b count pass next =>
      cases at_a
      obtain ⟨more, counted, rfl⟩ := Option.map_eq_some_iff.mp inserted
      let t := s.put a ⟨more, pass, fun c => (next c).addr⟩
      have entered : Nodes.insertFrom [] a s = some t := by
        rw [Nodes.insertFrom, stored.1, Option.bind_some, counted, Option.bind_some,
          Heap.write_live stored.1]
      refine ⟨t, .node a more pass next, entered, rfl, rfl, ⟨?_, ?_⟩, ⟨0, ?_, rfl⟩, ?_, rfl,
        fun sound => Heap.sound_put sound stored.1 _⟩
      · exact s.put_same _ _
      · intro c
        apply stored_frame (stored.2 c)
        intro x below
        exact s.put_other _ fun same => (apart_child once).1 (same ▸ below)
      · simp [addrs]
      · intro x outside _
        exact s.put_other _ fun same => outside (by simp [addrs, same])
  | cons c rest ih =>
    cases p with
    | NULL => cases at_a
    | node b count pass next =>
      cases at_a
      obtain ⟨more, counted, inserted⟩ := Option.bind_eq_some_iff.mp inserted
      obtain ⟨i, found, inserted⟩ := Option.bind_eq_some_iff.mp inserted
      obtain ⟨v, below, rfl⟩ := Option.map_eq_some_iff.mp inserted
      have here : a ∈ (Placed.node a count pass next).addrs := by simp [addrs]
      have apart := apart_child (c := i) once
      cases child : next i with
      | node b count' pass' next' =>
        -- the word goes on to a node that is there
        have atChild : (next i).addr = some b := by rw [child]; rfl
        have orNew : (next i).trie.orNew = (next i).trie := by rw [child]; rfl
        rw [orNew] at below
        have storedChild : (next i).Stored (s.put a ⟨count, more, fun d => (next d).addr⟩) := by
          apply stored_frame (stored.2 i)
          intro x member
          exact s.put_other _ fun same => apart.1 (same ▸ member)
        obtain ⟨t, q, entered, same, grown⟩ := ih atChild storedChild apart.2.1
          (fun x member => inside x (addrs_child member)) below
        refine ⟨t, .node a count more (Function.update next i q), ?_, ?_, ?_⟩
        · rw [Nodes.insert_from_child stored.1 counted found atChild]
          exact entered
        · rw [trie_update, same]
        · apply grown_child (m := 0) stored once inside grown ?_ ?_ (add_zero _).symm rfl rfl
            fun sound => Heap.sound_put sound stored.1 _
          · rw [grown.at_a, ← atChild, Function.update_eq_self]
            exact s.put_same _ _
          · exact fun x other _ => s.put_other _ other
      | NULL =>
        -- the word goes on to a node that malloc gives
        have null : (next i).addr = none := by rw [child]; rfl
        have zero : (next i).trie.orNew = (Placed.node s.fresh 0 0 fun _ => .NULL).trie := by
          rw [child]
          rfl
        rw [zero] at below
        have new := addrs_leaf s.fresh 0 0
        have storedNew : (Placed.node s.fresh 0 0 fun _ => .NULL).Stored
            (s.branched a count more (fun d => (next d).addr) i) :=
          ⟨Nodes.branched_new (inside a here), fun _ => trivial⟩
        have insideNew : ∀ x ∈ (Placed.node s.fresh 0 0 fun _ => .NULL).addrs, x < s.fresh + 1 := by
          intro x member
          rw [new, Multiset.mem_singleton] at member
          rw [member]
          exact Nat.lt_succ_self s.fresh
        obtain ⟨t, q, entered, same, grown⟩ := ih rfl storedNew
          (by rw [new]; exact Multiset.nodup_singleton _) insideNew below
        refine ⟨t, .node a count more (Function.update next i q), ?_, ?_, ?_⟩
        · rw [Nodes.insert_from_new stored.1 (inside a here) counted found null]
          exact entered
        · rw [trie_update, same]
        · apply grown_child (m := 1) stored once inside grown ?_ ?_ ?_ rfl rfl
            fun sound => Nodes.branched_sound sound stored.1 (inside a here)
          · rw [grown.at_a]
            exact Heap.put_same _ _ _
          · exact fun x other older => Nodes.branched_other other older
          · rw [new, child]
            exact (zero_add _).symm

structure Makes (s : Nodes) (p : Placed) : Prop where
  at_root : p.addr = some root
  stored : p.Stored s
  all : p.addrs = List.range' 0 s.fresh
  base : s.base = 1
  sound : s.Sound

theorem makes_start : Makes Nodes.start (.node root 0 0 fun _ => .NULL) := by
  have cell : Nodes.start.cells root = some .zero := rfl
  refine ⟨rfl, ⟨cell, fun _ => trivial⟩, ?_, rfl, ?_⟩
  · rw [addrs_leaf]
    rfl
  · apply Heap.sound_start
    intro a
    by_cases same : a = root
    · subst same
      rw [Function.update_self]
      exact ⟨fun _ => Nat.zero_lt_one, fun _ => rfl⟩
    · rw [Function.update_of_ne same]
      have other : ¬ a < 1 := fun less => same (Nat.lt_one_iff.mp less)
      simp [other]

theorem makes_once (makes : Makes s p) : p.addrs.Nodup := by
  rw [makes.all]
  exact Multiset.coe_nodup.mpr List.nodup_range'

theorem makes_inside (makes : Makes s p) {x : Nat} : x ∈ p.addrs ↔ x < s.fresh := by
  rw [makes.all, Multiset.mem_coe, List.mem_range'_1]
  omega

theorem insert_makes (word : Word) (makes : Makes s p) {u : TrieNode}
    (inserted : insert word p.trie = some u) :
    ∃ t q, Nodes.insert word s = some t ∧ q.trie = u ∧ Makes t q := by
  rw [insert] at inserted
  split at inserted
  · rename_i empty
    cases inserted
    exact ⟨s, p, if_pos empty, rfl, makes⟩
  · rename_i some'
    obtain ⟨t, q, entered, same, grown⟩ := insert_from_grows word makes.at_root makes.stored
      (makes_once makes) (fun x => (makes_inside makes).mp) inserted
    refine ⟨t, q, (if_neg some').trans entered, same, grown.at_a, grown.stored, ?_,
      grown.base.trans makes.base, grown.sound makes.sound⟩
    obtain ⟨n, added, fresh⟩ := grown.added
    rw [added, makes.all, fresh, Multiset.coe_add, ← List.range'_append_1, Nat.zero_add]

theorem enters_makes (words : List Word) (makes : Makes s p) {u : TrieNode}
    (entered : enters insert words p.trie = some u) :
    ∃ t q, enters Nodes.insert words s = some t ∧ q.trie = u ∧ Makes t q := by
  induction words generalizing s p with
  | nil =>
    cases entered
    exact ⟨s, p, rfl, rfl, makes⟩
  | cons word words ih =>
    obtain ⟨v, first, later⟩ := Option.bind_eq_some_iff.mp entered
    obtain ⟨t, q, inserted, rfl, made⟩ := insert_makes word makes first
    obtain ⟨t', q', all, same, made'⟩ := ih made later
    refine ⟨t', q', ?_, same, made'⟩
    rw [enters, List.foldlM_cons, inserted]
    exact all

end Placed

end UC.Trie
