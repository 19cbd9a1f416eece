import UC.Trie.Nodes

/- do_travel and myfree over the nodes, and main with them: it prints what the program without
   pointers prints, touches live nodes only, and gives every node back to free once. The depth of
   a recursion is bounded by the number of nodes. -/
namespace UC.Trie
open UC.Heaps

namespace Nodes

def do_travel (s : Nodes) : Nat → Option Nat → Travel → Option Travel
  | _, none, t => some t
  | 0, some _, _ => none
  | depth + 1, some rootp, t =>
    (s.cells rootp).bind fun cell =>
      (printNode cell.count cell.pass t).bind fun t =>
        (List.finRange TREE_WIDTH).foldlM (fun t i =>
          (t.dump i).bind fun t =>
            (do_travel s depth (cell.next i) { t with pos := t.pos + 1 }).map fun t =>
              { t with pos := t.pos - 1 }) t

/-- The body of the loop of myfree, with the myfree that it calls. -/
def freeChild (myfree : Nat → Nodes → Option Nodes) (rt : Nat) (s : Nodes) (i : Byte) :
    Option Nodes :=
  (s.cells rt).bind fun cell =>
    match cell.next i with
    | none => some s
    | some child =>
      (myfree child s).bind fun s =>
        (s.cells rt).bind fun cell =>
          s.write rt { cell with next := Function.update cell.next i none }

def myfree : Nat → Nat → Nodes → Option Nodes
  | 0, _, _ => none
  | depth + 1, rt, s =>
    ((List.finRange TREE_WIDTH).foldlM (freeChild (myfree depth) rt) s).bind fun s => s.free rt

/-- The loop of main over the children of root. -/
def releaseChild (depth : Nat) (s : Nodes) (i : Byte) : Option Nodes :=
  (s.cells root).bind fun cell =>
    match cell.next i with
    | none => some s
    | some child => myfree depth child s

/-- What is printed, and the memory at the end. -/
def main (input : List Byte) : Option (List (Word × Int) × Nodes) :=
  (readLines insert input start).bind fun s =>
    (s.do_travel s.fresh (some root) Trie.start).bind fun t =>
      ((List.finRange TREE_WIDTH).foldlM (releaseChild s.fresh) s).map fun s => (t.printed, s)

end Nodes

namespace Placed

variable {s t : Nodes} {p : Placed} {a : Nat} {count pass : Int} {next : Byte → Placed} {c : Byte}

theorem card_child (a : Nat) (count pass : Int) (next : Byte → Placed) (c : Byte) :
    (next c).addrs.card < (Placed.node a count pass next).addrs.card := by
  rw [addrs, together_child _ c, Multiset.card_add, Multiset.card_add, Multiset.card_singleton]
  omega

theorem travel_trie (stored : p.Stored s) {depth : Nat} (deep : p.addrs.card ≤ depth)
    (t : Travel) : s.do_travel depth p.addr t = UC.Trie.do_travel p.trie t := by
  induction p generalizing depth t with
  | NULL => cases depth <;> rfl
  | node a count pass next ih =>
    cases depth with
    | zero =>
      have less := card_child a count pass next NUL
      omega
    | succ depth =>
      have same : ∀ i u, s.do_travel depth (next i).addr u = UC.Trie.do_travel (next i).trie u := by
        intro i u
        have less := card_child a count pass next i
        exact ih i (stored.2 i) (by omega) u
      rw [addr, Nodes.do_travel, stored.1, Option.bind_some, trie, UC.Trie.do_travel]
      simp only [same]

/-- t is s after the trees below the children cs of a were freed. -/
structure Cleared (s t : Nodes) (a : Nat) (next : Byte → Placed) (cs : List Byte) : Prop where
  base : t.base = s.base
  fresh : t.fresh = s.fresh
  sound : s.Sound → t.Sound
  gone : ∀ x, x ≠ a → ∀ c ∈ cs, x ∈ (next c).addrs → t.cells x = none
  kept : ∀ x, x ≠ a → (∀ c ∈ cs, x ∉ (next c).addrs) → t.cells x = s.cells x
  links : ∀ cell, s.cells a = some cell → ∃ cell', t.cells a = some cell' ∧
    ∀ d, d ∉ cs → cell'.next d = cell.next d

/-- A loop that clears one child in each round clears them all. -/
theorem fold_clears {body : Nodes → Byte → Option Nodes} {fresh base : Nat}
    (once : (Placed.node a count pass next).addrs.Nodup)
    (one : ∀ s cell c, s.fresh = fresh → s.base = base → s.cells a = some cell →
      cell.next c = (next c).addr → (next c).Stored s →
      ∃ t, body s c = some t ∧ Cleared s t a next [c])
    (cs : List Byte) (distinct : cs.Nodup) {s : Nodes} {cell : Cell} (sameFresh : s.fresh = fresh)
    (sameBase : s.base = base) (here : s.cells a = some cell)
    (links : ∀ c ∈ cs, cell.next c = (next c).addr) (stored : ∀ c ∈ cs, (next c).Stored s) :
    ∃ t, cs.foldlM body s = some t ∧ Cleared s t a next cs := by
  induction cs generalizing s cell with
  | nil =>
    refine ⟨s, rfl, rfl, rfl, id, ?_, fun _ _ _ => rfl, fun cell at_a => ⟨cell, at_a, fun _ _ => rfl⟩⟩
    intro x _ c none
    cases none
  | cons c cs ih =>
    obtain ⟨notIn, distinct⟩ := List.nodup_cons.mp distinct
    obtain ⟨u, first, cleared⟩ := one s cell c sameFresh sameBase here
      (links c List.mem_cons_self) (stored c List.mem_cons_self)
    obtain ⟨cell', at_a, same⟩ := cleared.links cell here
    have other : ∀ d ∈ cs, d ≠ c := fun d member equal => notIn (equal ▸ member)
    have away : ∀ d ∈ cs, ∀ x ∈ (next d).addrs, x ≠ a ∧ x ∉ (next c).addrs := by
      intro d member x below
      exact ⟨fun equal => (apart_child once).1 (equal ▸ below),
        (apart_child once).2.2 d (other d member) x below⟩
    obtain ⟨t, later, cleared'⟩ := ih distinct (cleared.fresh.trans sameFresh)
      (cleared.base.trans sameBase) at_a
      (fun d member => (same d (by simpa using other d member)).trans
        (links d (List.mem_cons_of_mem c member)))
      (fun d member => by
        apply stored_frame (stored d (List.mem_cons_of_mem c member))
        intro x below
        have apart := away d member x below
        apply cleared.kept x apart.1
        simpa using apart.2)
    refine ⟨t, ?_, cleared'.base.trans cleared.base, cleared'.fresh.trans cleared.fresh,
      fun sound => cleared'.sound (cleared.sound sound), ?_, ?_, ?_⟩
    · rw [List.foldlM_cons, first]
      exact later
    · intro x apart d member below
      rcases List.mem_cons.mp member with rfl | member
      · rw [cleared'.kept x apart fun e inside atE => (away e inside x atE).2 below]
        exact cleared.gone x apart d List.mem_cons_self below
      · exact cleared'.gone x apart d member below
    · intro x apart outside
      rw [cleared'.kept x apart fun d member => outside d (List.mem_cons_of_mem c member),
        cleared.kept x apart (by simpa using outside c List.mem_cons_self)]
    · intro old at_old
      obtain ⟨middle, at_middle, same⟩ := cleared.links old at_old
      obtain ⟨last, at_last, same'⟩ := cleared'.links middle at_middle
      refine ⟨last, at_last, ?_⟩
      intro d outside
      rw [List.mem_cons, not_or] at outside
      rw [same' d outside.2, same d (by simpa using outside.1)]

/-- t is s without the tree p. -/
structure Freed (s t : Nodes) (p : Placed) : Prop where
  base : t.base = s.base
  fresh : t.fresh = s.fresh
  sound : s.Sound → t.Sound
  gone : ∀ x ∈ p.addrs, t.cells x = none
  kept : ∀ x, x ∉ p.addrs → t.cells x = s.cells x

theorem addrs_none (null : p.addr = none) : p.addrs = 0 := by
  cases p with
  | NULL => rfl
  | node a count pass next => cases null

theorem cleared_none (leaf : (next c).addrs = 0) : Cleared s s a next [c] := by
  refine ⟨rfl, rfl, id, ?_, fun _ _ _ => rfl, fun cell here => ⟨cell, here, fun _ _ => rfl⟩⟩
  intro x _ d member inside
  rw [List.mem_singleton.mp member, leaf] at inside
  exact absurd inside (Multiset.notMem_zero x)

theorem cleared_freed {u : Nodes} (freed : Freed s t (next c)) (base : u.base = t.base)
    (fresh : u.fresh = t.fresh) (sound : t.Sound → u.Sound)
    (others : ∀ x, x ≠ a → u.cells x = t.cells x)
    (links : ∀ cell, s.cells a = some cell → ∃ cell', u.cells a = some cell' ∧
      ∀ d, d ≠ c → cell'.next d = cell.next d) : Cleared s u a next [c] := by
  refine ⟨base.trans freed.base, fresh.trans freed.fresh, fun before => sound (freed.sound before),
    ?_, ?_, ?_⟩
  · intro x apart d member inside
    rw [others x apart]
    exact freed.gone x (List.mem_singleton.mp member ▸ inside)
  · intro x apart outside
    rw [others x apart]
    exact freed.kept x (outside c List.mem_cons_self)
  · intro cell here
    obtain ⟨cell', there, same⟩ := links cell here
    exact ⟨cell', there, fun d outside => same d fun equal => outside (equal ▸ List.mem_cons_self)⟩

/-- The nodes of a tree are freed from the bottom up, each while it is live. -/
theorem myfree_frees {b depth : Nat} (at_b : p.addr = some b) (stored : p.Stored s)
    (once : p.addrs.Nodup) (dynamic : ∀ x ∈ p.addrs, s.base ≤ x) (deep : p.addrs.card ≤ depth) :
    ∃ t, Nodes.myfree depth b s = some t ∧ Freed s t p := by
  induction p generalizing s b depth with
  | NULL => cases at_b
  | node a count pass next ih =>
    cases at_b
    cases depth with
    | zero =>
      have less := card_child a count pass next NUL
      omega
    | succ depth =>
      have below := fun c => apart_child (c := c) once
      have one : ∀ u cell c, u.fresh = s.fresh → u.base = s.base → u.cells a = some cell →
          cell.next c = (next c).addr → (next c).Stored u →
          ∃ t, Nodes.freeChild (Nodes.myfree depth) a u c = some t ∧ Cleared u t a next [c] := by
        intro u cell c _ sameBase here link storedChild
        have less := card_child a count pass next c
        cases child : (next c).addr with
        | none =>
          refine ⟨u, ?_, cleared_none (addrs_none child)⟩
          rw [Nodes.freeChild, here, Option.bind_some, link, child]
        | some d =>
          obtain ⟨v, freed, out⟩ := ih c child storedChild (below c).2.1
            (fun x inside => sameBase ▸ dynamic x (addrs_child inside))
            (Nat.le_of_lt_succ (Nat.lt_of_lt_of_le less deep))
          have still : v.cells a = some cell := (out.kept a (below c).1).trans here
          refine ⟨v.put a { cell with next := Function.update cell.next c none }, ?_,
            cleared_freed out rfl rfl (fun sound => Heap.sound_put sound still _)
              (fun x other => v.put_other _ other) ?_⟩
          rotate_left
          · intro old at_old
            rw [here] at at_old
            cases at_old
            exact ⟨_, v.put_same _ _, fun e other => Function.update_of_ne other _ _⟩
          rw [Nodes.freeChild, here, Option.bind_some, link, child]
          dsimp only
          rw [freed, Option.bind_some, still, Option.bind_some, Heap.write_live still]
      obtain ⟨u, looped, cleared⟩ := fold_clears once one (List.finRange TREE_WIDTH)
        (List.nodup_finRange _) rfl rfl stored.1 (fun _ _ => rfl) (fun c _ => stored.2 c)
      obtain ⟨cell, here, _⟩ := cleared.links _ stored.1
      have memA : a ∈ (Placed.node a count pass next).addrs := by simp [addrs]
      have allowed : u.base ≤ a := cleared.base ▸ dynamic a memA
      refine ⟨u.drop a, ?_, cleared.base, cleared.fresh, ?_, ?_, ?_⟩
      · rw [Nodes.myfree, looped, Option.bind_some, Heap.free_live here allowed]
      · exact fun sound => Heap.sound_drop (cleared.sound sound) here allowed
      · intro x inside
        by_cases same : x = a
        · rw [same]
          exact u.drop_same a
        · rw [addrs, Multiset.mem_add, Multiset.mem_singleton, mem_together] at inside
          obtain ⟨c, inside⟩ := inside.resolve_left same
          rw [u.drop_other same]
          exact cleared.gone x same c (List.mem_finRange c) inside
      · intro x outside
        have other : x ≠ a := fun same => outside (same ▸ memA)
        rw [u.drop_other other]
        exact cleared.kept x other fun c _ inside => outside (addrs_child inside)

/-- main prints what the trie prints, and frees every node that malloc gave it exactly once; root
    is all that is left. -/
theorem main_frees_all (input : List Byte) {printed : List (Word × Int)}
    (ran : main input = some printed) :
    ∃ s, Nodes.main input = some (printed, s) ∧ s.freed.Perm (List.range' 1 (s.fresh - 1)) ∧
      ∀ a, a ≠ root → s.cells a = none := by
  obtain ⟨t, travelled, rfl⟩ := Option.map_eq_some_iff.mp ran
  obtain ⟨u, read, travelled⟩ := Option.bind_eq_some_iff.mp travelled
  rw [read_lines_pieces] at read
  have first : (Placed.node root 0 0 fun _ => .NULL).trie = .zero := rfl
  obtain ⟨s, q, entered, rfl, makes⟩ := enters_makes _ makes_start (first ▸ read)
  have few : q.addrs.card ≤ s.fresh := by
    rw [makes.all, Multiset.coe_card, List.length_range']
  cases q with
  | NULL => cases makes.at_root
  | node a count pass next =>
    have at_root : a = root := Option.some.inj makes.at_root
    subst at_root
    have once := makes_once makes
    have one : ∀ v cell c, v.fresh = s.fresh → v.base = s.base → v.cells root = some cell →
        cell.next c = (next c).addr → (next c).Stored v →
        ∃ t, Nodes.releaseChild s.fresh v c = some t ∧ Cleared v t root next [c] := by
      intro v cell c _ sameBase here link storedChild
      have below := apart_child (c := c) once
      have less := card_child root count pass next c
      cases child : (next c).addr with
      | none =>
        refine ⟨v, ?_, cleared_none (addrs_none child)⟩
        rw [Nodes.releaseChild, here, Option.bind_some, link, child]
      | some d =>
        have dynamic : ∀ x ∈ (next c).addrs, v.base ≤ x := by
          intro x inside
          rw [sameBase, makes.base]
          exact Nat.pos_of_ne_zero fun zero => below.1 ((show x = root from zero) ▸ inside)
        obtain ⟨w, freed, out⟩ := myfree_frees child storedChild below.2.1 dynamic
          (Nat.le_trans (Nat.le_of_lt less) few)
        refine ⟨w, ?_, cleared_freed out rfl rfl id (fun _ _ => rfl) ?_⟩
        · rw [Nodes.releaseChild, here, Option.bind_some, link, child]
          exact freed
        · exact fun cell here => ⟨cell, (out.kept root below.1).trans here, fun _ _ => rfl⟩
    obtain ⟨v, looped, cleared⟩ := fold_clears once one (List.finRange TREE_WIDTH)
      (List.nodup_finRange _) rfl rfl makes.stored.1 (fun _ _ => rfl) (fun c _ => makes.stored.2 c)
    have sound := cleared.sound makes.sound
    have empty : ∀ x, x ≠ root → v.cells x = none := by
      intro x other
      by_cases older : x < s.fresh
      · have inside := (makes_inside makes).mpr older
        rw [addrs, Multiset.mem_add, Multiset.mem_singleton, mem_together] at inside
        obtain ⟨c, inside⟩ := inside.resolve_left other
        exact cleared.gone x other c (List.mem_finRange c) inside
      · rw [← Option.not_isSome_iff_eq_none, sound.live x, cleared.fresh]
        exact fun live => older live.1
    refine ⟨v, ?_, ?_, empty⟩
    · have same := travel_trie makes.stored few start
      rw [makes.at_root] at same
      rw [Nodes.main, read_lines_pieces, entered, Option.bind_some, same, travelled,
        Option.bind_some, looped]
      rfl
    · have base : v.base = 1 := cleared.base.trans makes.base
      have all := Heap.all_freed sound fun x dynamic => empty x (by
        rw [base] at dynamic
        exact Nat.ne_of_gt dynamic)
      rw [base] at all
      exact all

theorem one_word_is_freed :
    let input := [97].append (LF :: (endMark ++ []))
    ∃ s, Nodes.main input = some ([([97], 1)], s) ∧ s.freed.Perm (List.range' 1 (s.fresh - 1)) := by
  intro input
  have clean : ∀ line ∈ [([97] : List Byte)], Line line := by
    unfold Line
    decide +kernel
  have before := words_before_mark _ clean []
  have split : pieces ([[97]].flatMap fun line => line ++ [LF]) = [[97]] := by decide +kernel
  rw [split] at before
  have read : pieces (readText input) = [[97]] := before
  have ran : UC.Trie.main input = some [([97], 1)] := by
    rw [UC.Trie.main, read_lines_pieces, read]
    decide +kernel
  obtain ⟨s, printed, freed, _⟩ := main_frees_all input ran
  exact ⟨s, printed, freed⟩

end Placed

end UC.Trie
