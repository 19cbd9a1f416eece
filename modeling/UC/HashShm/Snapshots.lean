import Mathlib.Data.List.Nodup
import UC.HashShm.FiniteMap
import UC.Lib.Cells

/- Foreach, BinDump and BinRestore, and new processes that attach to the same segment. The
   nodes a walk comes by are the finite map; a dump file keeps the map of its moment. -/
namespace UC.CHashShm
open UC.Memory UC.HashShm

variable {V σ : Type} {lines : Nat}

/-- The body of the loop of Foreach; param is what param_in points to. -/
def visitNode (callback : UInt64 → V → σ → V × σ) (s : Segment V × σ) (p : Nat) :
    Segment V × σ :=
  let node := s.1.nodes p
  if node.key ≠ 0 then
    let (value, param) := callback node.key node.value s.2
    ({ s.1 with nodes := store s.1.nodes p { node with value := value } }, param)
  else s

/-- Foreach. The callback gets the value by reference and may change it. -/
def foreach (t : CHashShm V lines) (callback : UInt64 → V → σ → V × σ) (param : σ) :
    CHashShm V lines × σ :=
  let nodes := primer (lines - 1) + PRIMER_TABLE_TATAL (lines - 1)
  let (shm, param) := (List.range nodes).foldl (visitNode callback) (t.shm, param)
  ({ t with shm := shm }, param)

/-- A file: its length and, in the bytes it has, an image of a segment. -/
structure File (V : Type) where
  length : Nat
  image : Segment V

def memSize (t : CHashShm V lines) (nodeBytes : Nat) : Nat := nodeBytes * t.maxSize + 32

/-- BinDump to a file that can or cannot be opened; written bytes get to the disk, of which
    BinDump takes no notice. -/
def binDump (t : CHashShm V lines) (opened : Bool) (written : Nat) (file : Option (File V)) :
    Option (File V) × Bool :=
  if opened then (some ⟨written, t.shm⟩, true) else (file, false)

/-- BinRestore from a file, if there is one. -/
def binRestore (t : CHashShm V lines) (nodeBytes : Nat) : Option (File V) → CHashShm V lines × Bool
  | none => (t, false)
  | some file =>
    if file.length ≠ t.memSize nodeBytes then (t, false)
    else
      ({ t with shm :=
          ⟨file.image.head, memcpy t.shm.nodes 0 file.image.nodes 0 t.maxSize⟩ }, true)

section Walk

def pairs (nodes : Mem (HashNode V)) (n : Nat) : List (UInt64 × V) :=
  (List.range n).filterMap fun p =>
    if (nodes p).key ≠ 0 then some ((nodes p).key, (nodes p).value) else none

def visitPairs (callback : UInt64 → V → σ → V × σ) :
    List (UInt64 × V) → σ → List (UInt64 × V) × σ
  | [], param => ([], param)
  | (key, value) :: rest, param =>
    let (value, param) := callback key value param
    let (rest, param) := visitPairs callback rest param
    ((key, value) :: rest, param)

variable (callback : UInt64 → V → σ → V × σ)

theorem visit_pairs_append (xs ys : List (UInt64 × V)) (param : σ) :
    visitPairs callback (xs ++ ys) param =
      ((visitPairs callback xs param).1 ++
        (visitPairs callback ys (visitPairs callback xs param).2).1,
        (visitPairs callback ys (visitPairs callback xs param).2).2) := by
  induction xs generalizing param with
  | nil => rfl
  | cons x xs ih =>
    obtain ⟨key, value⟩ := x
    simp only [List.cons_append, visitPairs, ih]

theorem pairs_succ (nodes : Mem (HashNode V)) (n : Nat) :
    pairs nodes (n + 1) = pairs nodes n ++
      if (nodes n).key ≠ 0 then [((nodes n).key, (nodes n).value)] else [] := by
  unfold pairs
  rw [List.range_succ, List.filterMap_append]
  congr 1
  split <;> simp_all

theorem pairs_congr {m m' : Mem (HashNode V)} {n : Nat} (same : ∀ p < n, m p = m' p) :
    pairs m n = pairs m' n := by
  apply List.filterMap_congr
  intro p mem
  rw [same p (List.mem_range.mp mem)]

theorem mem_pairs {nodes : Mem (HashNode V)} {n : Nat} {key : UInt64} {value : V} :
    (key, value) ∈ pairs nodes n ↔
      key ≠ 0 ∧ ∃ p < n, (nodes p).key = key ∧ (nodes p).value = value := by
  unfold pairs
  simp only [List.mem_filterMap, List.mem_range]
  constructor
  · rintro ⟨p, inside, found⟩
    split at found
    · next marked =>
      cases found
      exact ⟨marked, p, inside, rfl, rfl⟩
    · cases found
  · rintro ⟨marked, p, inside, rfl, rfl⟩
    exact ⟨p, inside, if_pos marked⟩

/-- Behind the first n nodes: their pairs are as the callback left them, all keys and the
    nodes further on as they were. -/
theorem visit_nodes (shm : Segment V) (param : σ) (n : Nat) :
    ∃ nodes, (List.range n).foldl (visitNode callback) (shm, param) =
        ({ shm with nodes := nodes }, (visitPairs callback (pairs shm.nodes n) param).2) ∧
      pairs nodes n = (visitPairs callback (pairs shm.nodes n) param).1 ∧
      (∀ p, (nodes p).key = (shm.nodes p).key) ∧ ∀ p, n ≤ p → nodes p = shm.nodes p := by
  induction n with
  | zero => exact ⟨shm.nodes, rfl, rfl, fun _ => rfl, fun _ _ => rfl⟩
  | succ n ih =>
    obtain ⟨nodes, run, visited, keys, beyond⟩ := ih
    have here := beyond n (Nat.le_refl n)
    rw [List.range_succ, List.foldl_append, run, List.foldl_cons, List.foldl_nil, pairs_succ,
      visit_pairs_append]
    unfold visitNode
    simp only [here]
    by_cases marked : (shm.nodes n).key ≠ 0
    · refine ⟨store nodes n { shm.nodes n with value := (callback (shm.nodes n).key
        (shm.nodes n).value (visitPairs callback (pairs shm.nodes n) param).2).1 }, ?_, ?_, ?_, ?_⟩
      · simp only [if_pos marked, visitPairs]
      · rw [pairs_succ, store_same, if_pos marked, if_pos marked]
        have before := pairs_congr (n := n) fun p (inside : p < n) =>
          store_other nodes { shm.nodes n with value := (callback (shm.nodes n).key
            (shm.nodes n).value (visitPairs callback (pairs shm.nodes n) param).2).1 }
            (Nat.ne_of_lt inside)
        rw [before, visited]
        rfl
      · intro p
        by_cases at_n : p = n
        · rw [at_n, store_same]
        · rw [store_other nodes _ at_n]
          exact keys p
      · intro p behind
        rw [store_other nodes _ (Nat.ne_of_gt behind)]
        exact beyond p (Nat.le_of_succ_le behind)
    · refine ⟨nodes, ?_, ?_, keys, fun p behind => beyond p (Nat.le_of_succ_le behind)⟩
      · simp only [if_neg marked, visitPairs]
      · rw [pairs_succ, here, if_neg marked, visited]
        rfl

end Walk

section Map

variable {t : CHashShm V lines} {map : UInt64 → Option V}

theorem mem_pairs_iff (inv : Inv t map) {key : UInt64} (ne : key ≠ 0) (value : V) :
    map key = some value ↔ (key, value) ∈ pairs t.shm.nodes t.maxSize := by
  rw [inv.agrees key ne, mem_pairs]
  constructor
  · rintro ⟨i, row, holds, stored⟩
    refine ⟨ne, candidate lines key i, ?_, holds, stored⟩
    rw [inv.size]
    exact candidate_lt inv.rows row key
  · rintro ⟨_, p, inside, holds, stored⟩
    obtain ⟨i, row, place⟩ := inv.placed p inside (fun zero => ne (holds.symm.trans zero))
    have place : p = candidate lines key i := by
      rw [place]
      exact congrArg (candidate lines · i) holds
    rw [place] at holds stored
    exact ⟨i, row, holds, stored⟩

theorem pairs_distinct (inv : Inv t map) :
    ((pairs t.shm.nodes t.maxSize).map Prod.fst).Nodup := by
  have each : (pairs t.shm.nodes t.maxSize).map Prod.fst =
      ((List.range t.maxSize).filter fun p => t.keyAt p ≠ 0).map t.keyAt := by
    unfold pairs
    rw [List.map_filterMap, ← List.filterMap_eq_map, ← List.filterMap_eq_filter,
      List.filterMap_filterMap]
    apply List.filterMap_congr
    intro p _
    by_cases marked : (t.shm.nodes p).key = 0 <;> simp [marked, keyAt, Option.guard]
  rw [each]
  apply List.Nodup.map_on _ (List.nodup_range.filter _)
  intro p in_p q in_q same
  simp only [List.mem_filter, List.mem_range, decide_eq_true_eq] at in_p in_q
  exact inv.unique p in_p.1 q in_q.1 in_p.2 same

theorem inv_of_pairs (inv : Inv t map) {nodes : Mem (HashNode V)} {map' : UInt64 → Option V}
    (keys : ∀ p, (nodes p).key = (t.shm.nodes p).key)
    (all : ∀ key, key ≠ 0 → ∀ value,
      map' key = some value ↔ (key, value) ∈ pairs nodes t.maxSize) :
    Inv ({ t with shm := { t.shm with nodes := nodes } } : CHashShm V lines) map' := by
  have same : ∀ p, keyAt ({ t with shm := { t.shm with nodes := nodes } } : CHashShm V lines) p =
      t.keyAt p := keys
  refine ⟨inv.rows, inv.size, ?_, ?_, ?_⟩
  · intro p inside
    rw [same]
    exact inv.placed p inside
  · intro p in_p q in_q
    rw [same, same]
    exact inv.unique p in_p q in_q
  · intro key ne value
    rw [all key ne, mem_pairs]
    constructor
    · rintro ⟨_, p, inside, holds, stored⟩
      have at_p : t.keyAt p = key := (keys p).symm.trans holds
      obtain ⟨i, row, place⟩ := inv.placed p inside (fun zero => ne (at_p.symm.trans zero))
      rw [at_p] at place
      rw [place] at holds stored
      exact ⟨i, row, holds, stored⟩
    · rintro ⟨i, row, holds, stored⟩
      refine ⟨ne, candidate lines key i, ?_, holds, stored⟩
      rw [inv.size]
      exact candidate_lt inv.rows row key

/-- Foreach calls the callback once for each pair of the map, and the map then has the
    values as the callback left them. -/
theorem inv_foreach (inv : Inv t map) (some_row : 0 < lines)
    (callback : UInt64 → V → σ → V × σ) (param : σ) (map' : UInt64 → Option V)
    (all : ∀ key, key ≠ 0 → ∀ value, map' key = some value ↔
      (key, value) ∈ (visitPairs callback (pairs t.shm.nodes t.maxSize) param).1) :
    Inv (t.foreach callback param).1 map' ∧
      (t.foreach callback param).2 =
        (visitPairs callback (pairs t.shm.nodes t.maxSize) param).2 := by
  have span : primer (lines - 1) + PRIMER_TABLE_TATAL (lines - 1) = t.maxSize := by
    obtain ⟨k, rfl⟩ := Nat.exists_eq_succ_of_ne_zero (Nat.ne_of_gt some_row)
    rw [inv.size, Nat.succ_sub_one, Nat.add_comm]
    rfl
  obtain ⟨nodes, run, visited, keys, _⟩ := visit_nodes callback t.shm param t.maxSize
  unfold foreach
  simp only [span, run]
  refine ⟨inv_of_pairs inv keys ?_, trivial⟩
  rw [visited]
  exact all

theorem inv_same_nodes (inv : Inv t map) (t' : CHashShm V lines) (size : t'.maxSize = t.maxSize)
    (same : ∀ p < t.maxSize, t'.shm.nodes p = t.shm.nodes p) : Inv t' map := by
  have keys : ∀ p < t.maxSize, t'.keyAt p = t.keyAt p := fun p inside =>
    congrArg HashNode.key (same p inside)
  have candidates : ∀ i < lines, ∀ key, candidate lines key i < t.maxSize := by
    intro i row key
    rw [inv.size]
    exact candidate_lt inv.rows row key
  refine ⟨inv.rows, size.trans inv.size, ?_, ?_, ?_⟩
  · intro p inside
    rw [size] at inside
    rw [keys p inside]
    exact inv.placed p inside
  · intro p in_p q in_q
    rw [size] at in_p in_q
    rw [keys p in_p, keys q in_q]
    exact inv.unique p in_p q in_q
  · intro key ne value
    rw [inv.agrees key ne]
    constructor
    · rintro ⟨i, row, holds, stored⟩
      have inside := candidates i row key
      exact ⟨i, row, (keys _ inside).trans holds, (congrArg HashNode.value (same _ inside)).trans stored⟩
    · rintro ⟨i, row, holds, stored⟩
      have inside := candidates i row key
      exact ⟨i, row, (keys _ inside).symm.trans holds,
        (congrArg HashNode.value (same _ inside)).symm.trans stored⟩

end Map

/-- The segment with the process attached to it, and the files. -/
structure World (V : Type) (lines : Nat) where
  table : CHashShm V lines
  files : String → Option (File V)

inductive Event (V σ : Type) where
  | op (op : Op V)
  | foreach (callback : UInt64 → V → σ → V × σ) (param : σ)
  | dump (filename : String) (opened : Bool) (written : Nat)
  | restore (filename : String)
  /-- The process ends and a new one attaches to the segment, which Init finds. -/
  | restart

inductive Answer (σ : Type) where
  | code (code : Code)
  | param (param : σ)
  | done (ok : Bool)

/-- One event; none is an Init that fails. -/
def react [Zero V] (nodeBytes : Nat) (w : World V lines) :
    Event V σ → Option (World V lines × Answer σ)
  | .op op => some ({ w with table := (w.table.exec op).1 }, .code (w.table.exec op).2)
  | .foreach callback param =>
    some ({ w with table := (w.table.foreach callback param).1 },
      .param (w.table.foreach callback param).2)
  | .dump filename opened written =>
    let (file, ok) := w.table.binDump opened written (w.files filename)
    some ({ w with files := Cells.set w.files filename file }, .done ok)
  | .restore filename =>
    let (table, ok) := w.table.binRestore nodeBytes (w.files filename)
    some ({ w with table := table }, .done ok)
  | .restart => (init (some w.table.shm)).map fun table => ({ w with table := table }, .done true)

def reactAll [Zero V] (nodeBytes : Nat) (w : World V lines) :
    List (Event V σ) → Option (World V lines × List (Answer σ))
  | [] => some (w, [])
  | ev :: events => do
    let (w, answer) ← react nodeBytes w ev
    let (w, answers) ← reactAll nodeBytes w events
    some (w, answer :: answers)

/-- What the world stands for: the map, and the maps of the complete dumps. -/
structure Snapshots (V : Type) where
  map : UInt64 → Option V
  saved : String → Option (UInt64 → Option V)

/-- What an event and its answer make of the maps; full is memSize. -/
inductive Meets (full : Nat) : Snapshots V → Event V σ → Answer σ → Snapshots V → Prop where
  | op {s : Snapshots V} (op : Op V) (code : Code) :
      Meets full s (.op op) (.code code) ⟨after s.map op code, s.saved⟩
  | visited {s : Snapshots V} {callback : UInt64 → V → σ → V × σ} {param : σ}
      {pairs : List (UInt64 × V)} {map' : UInt64 → Option V}
      (distinct : (pairs.map Prod.fst).Nodup)
      (before : ∀ key, key ≠ 0 → ∀ value, s.map key = some value ↔ (key, value) ∈ pairs)
      (behind : ∀ key, key ≠ 0 → ∀ value,
        map' key = some value ↔ (key, value) ∈ (visitPairs callback pairs param).1) :
      Meets full s (.foreach callback param) (.param (visitPairs callback pairs param).2)
        ⟨map', s.saved⟩
  | dumped {s : Snapshots V} (filename : String) :
      Meets full s (.dump filename true full) (.done true)
        ⟨s.map, Cells.set s.saved filename (some s.map)⟩
  | cut {s : Snapshots V} (filename : String) {written : Nat} (short : written ≠ full) :
      Meets full s (.dump filename true written) (.done true) ⟨s.map, Cells.set s.saved filename none⟩
  | unopened {s : Snapshots V} (filename : String) (written : Nat) :
      Meets full s (.dump filename false written) (.done false) s
  | restored {s : Snapshots V} {filename : String} {map : UInt64 → Option V}
      (saved : s.saved filename = some map) :
      Meets full s (.restore filename) (.done true) ⟨map, s.saved⟩
  | refused {s : Snapshots V} {filename : String} (absent : s.saved filename = none) :
      Meets full s (.restore filename) (.done false) s
  | restarted {s : Snapshots V} : Meets full s .restart (.done true) s

inductive AllMeet (full : Nat) :
    Snapshots V → List (Event V σ) → List (Answer σ) → Snapshots V → Prop where
  | nil {s : Snapshots V} : AllMeet full s [] [] s
  | cons {s s' s'' : Snapshots V} {ev : Event V σ} {answer : Answer σ} {events : List (Event V σ)}
      {answers : List (Answer σ)} (first : Meets full s ev answer s')
      (later : AllMeet full s' events answers s'') :
      AllMeet full s (ev :: events) (answer :: answers) s''

def Event.NonZero : Event V σ → Prop
  | .op call => call.NonZero
  | _ => True

/-- The world is as the snapshots say; a file no snapshot is of has another length. -/
structure Stands (nodeBytes : Nat) (w : World V lines) (s : Snapshots V) : Prop where
  table : Inv w.table s.map
  complete : ∀ name map, s.saved name = some map → ∃ file, w.files name = some file ∧
    file.length = w.table.memSize nodeBytes ∧
    Inv (⟨file.image, w.table.maxSize, 0⟩ : CHashShm V lines) map
  other : ∀ name, s.saved name = none → ∀ file, w.files name = some file →
    file.length ≠ w.table.memSize nodeBytes

section Run

variable {nodeBytes : Nat} {w : World V lines} {s : Snapshots V}

theorem lookup_iff {l : List (UInt64 × V)} (distinct : (l.map Prod.fst).Nodup) (key : UInt64)
    (value : V) : l.lookup key = some value ↔ (key, value) ∈ l := by
  induction l with
  | nil => simp
  | cons pair l ih =>
    obtain ⟨k, v⟩ := pair
    obtain ⟨absent, distinct⟩ := List.nodup_cons.mp distinct
    rw [List.lookup_cons, List.mem_cons]
    by_cases same : key = k
    · subst same
      have elsewhere : (key, value) ∉ l := fun mem =>
        absent (show key ∈ l.map Prod.fst from List.mem_map_of_mem (f := Prod.fst) mem)
      simp [elsewhere, eq_comm]
    · have differ : (key == k) = false := by simp [same]
      rw [differ]
      simp [same, ih distinct]

theorem visit_pairs_keys (callback : UInt64 → V → σ → V × σ) (l : List (UInt64 × V)) (param : σ) :
    (visitPairs callback l param).1.map Prod.fst = l.map Prod.fst := by
  induction l generalizing param with
  | nil => rfl
  | cons pair l ih =>
    obtain ⟨key, value⟩ := pair
    simp only [visitPairs, List.map_cons, ih]

/-- The table is another one, for another map; the files are those of before. -/
theorem stands_table (stands : Stands nodeBytes w s) {t : CHashShm V lines}
    {map : UInt64 → Option V} (inv : Inv t map) :
    Stands nodeBytes ⟨t, w.files⟩ ⟨map, s.saved⟩ := by
  have size : t.maxSize = w.table.maxSize := inv.size.trans stands.table.size.symm
  have full : t.memSize nodeBytes = w.table.memSize nodeBytes := by
    unfold memSize
    rw [size]
  constructor
  · exact inv
  · intro name map saved
    obtain ⟨file, held, length, image⟩ := stands.complete name map saved
    refine ⟨file, held, length.trans full.symm, ?_⟩
    change Inv (⟨file.image, t.maxSize, 0⟩ : CHashShm V lines) map
    rw [size]
    exact image
  · intro name unsaved file held
    change _ ≠ t.memSize nodeBytes
    rw [full]
    exact stands.other name unsaved file held

theorem stands_dump (stands : Stands nodeBytes w s) (filename : String) (written : Nat) :
    ∃ saved, (saved = if written = w.table.memSize nodeBytes then some s.map else none) ∧
      Stands nodeBytes ⟨w.table, Cells.set w.files filename (some ⟨written, w.table.shm⟩)⟩
        ⟨s.map, Cells.set s.saved filename saved⟩ := by
  refine ⟨_, rfl, stands.table, ?_, ?_⟩
  · intro name map saved
    change Cells.set s.saved filename _ name = some map at saved
    change ∃ file, Cells.set w.files filename _ name = some file ∧ _
    by_cases here : name = filename
    · subst here
      rw [Cells.set_same] at saved ⊢
      split at saved
      · next whole =>
        cases saved
        exact ⟨_, rfl, whole, inv_same_nodes stands.table _ rfl fun _ _ => rfl⟩
      · cases saved
    · rw [Cells.set_other _ _ here] at saved ⊢
      exact stands.complete name map saved
  · intro name unsaved file held
    change Cells.set s.saved filename _ name = none at unsaved
    change Cells.set w.files filename _ name = some file at held
    by_cases here : name = filename
    · subst here
      rw [Cells.set_same] at unsaved held
      cases held
      split at unsaved
      · cases unsaved
      · next short => exact short
    · rw [Cells.set_other _ _ here] at unsaved held
      exact stands.other name unsaved file held

theorem stands_restore (stands : Stands nodeBytes w s) {filename : String}
    {map : UInt64 → Option V} (saved : s.saved filename = some map) :
    ∃ table, w.table.binRestore nodeBytes (w.files filename) = (table, true) ∧
      Stands nodeBytes ⟨table, w.files⟩ ⟨map, s.saved⟩ := by
  obtain ⟨file, held, length, image⟩ := stands.complete filename map saved
  refine ⟨_, ?_, stands_table stands (inv_same_nodes image
    { w.table with shm := ⟨file.image.head,
      memcpy w.table.shm.nodes 0 file.image.nodes 0 w.table.maxSize⟩ } rfl ?_)⟩
  · unfold binRestore
    rw [held]
    dsimp only
    rw [if_neg (not_not.mpr length)]
  · intro p inside
    have copied := memcpy_inside w.table.shm.nodes file.image.nodes (d := 0) (s := 0) inside
    rwa [Nat.zero_add] at copied

theorem restore_refused (stands : Stands nodeBytes w s) {filename : String}
    (absent : s.saved filename = none) :
    w.table.binRestore nodeBytes (w.files filename) = (w.table, false) := by
  unfold binRestore
  cases held : w.files filename with
  | none => rfl
  | some file => exact if_pos (stands.other filename absent file held)

theorem stands_restart [Zero V] (stands : Stands nodeBytes w s) :
    ∃ table : CHashShm V lines, init (some w.table.shm) = some table ∧
      Stands nodeBytes ⟨table, w.files⟩ ⟨s.map, s.saved⟩ := by
  refine ⟨⟨⟨⟨0, 1⟩, w.table.shm.nodes⟩, PRIMER_TABLE_TATAL lines, 0⟩, ?_, ?_⟩
  · unfold init
    rw [if_neg (Nat.not_lt.mpr stands.table.rows)]
    rfl
  · exact stands_table stands (inv_same_nodes stands.table _ stands.table.size.symm fun _ _ => rfl)

theorem react_stands [Zero V] (stands : Stands nodeBytes w s) (some_row : 0 < lines)
    (ev : Event V σ) (nonzero : ev.NonZero) :
    ∃ w' answer s', react nodeBytes w ev = some (w', answer) ∧
      Meets (nodeBytes * PRIMER_TABLE_TATAL lines + 32) s ev answer s' ∧
      Stands nodeBytes w' s' := by
  have full : w.table.memSize nodeBytes = nodeBytes * PRIMER_TABLE_TATAL lines + 32 := by
    unfold memSize
    rw [stands.table.size]
  cases ev with
  | op op =>
    exact ⟨_, _, _, rfl, .op op _, stands_table stands (inv_after stands.table op nonzero)⟩
  | foreach callback param =>
    have distinct := pairs_distinct stands.table
    have behind := distinct
    rw [← visit_pairs_keys callback _ param] at behind
    obtain ⟨inv, result⟩ := inv_foreach stands.table some_row callback param
      (fun key => (visitPairs callback
        (pairs w.table.shm.nodes w.table.maxSize) param).1.lookup key)
      fun key _ value => lookup_iff behind key value
    refine ⟨_, _, ⟨_, s.saved⟩, rfl, ?_, stands_table stands inv⟩
    rw [result]
    exact .visited distinct (fun key ne value => mem_pairs_iff stands.table ne value)
      fun key _ value => lookup_iff behind key value
  | dump filename opened written =>
    cases opened with
    | false =>
      refine ⟨⟨w.table, w.files⟩, .done false, s, ?_, .unopened filename written, stands⟩
      have same : Cells.set w.files filename (w.files filename) = w.files := by
        funext name
        unfold Cells.set
        split
        · next here => rw [here]
        · rfl
      simp only [react, binDump, Bool.false_eq_true, if_false, same]
    | true =>
      obtain ⟨saved, eq, stands'⟩ := stands_dump stands filename written
      refine ⟨_, .done true, ⟨s.map, Cells.set s.saved filename saved⟩, rfl, ?_, stands'⟩
      by_cases whole : written = w.table.memSize nodeBytes
      · rw [if_pos whole] at eq
        rw [eq, whole, full]
        exact .dumped filename
      · rw [if_neg whole] at eq
        rw [eq]
        exact .cut filename (full ▸ whole)
  | restore filename =>
    cases saved : s.saved filename with
    | none =>
      refine ⟨w, .done false, s, ?_, .refused saved, stands⟩
      simp only [react, restore_refused stands saved]
    | some map =>
      obtain ⟨table, run, stands'⟩ := stands_restore stands saved
      refine ⟨_, .done true, _, ?_, .restored saved, stands'⟩
      simp only [react, run]
  | restart =>
    obtain ⟨table, run, stands'⟩ := stands_restart stands
    refine ⟨_, .done true, _, ?_, .restarted, stands'⟩
    simp only [react, run, Option.map_some]

theorem react_all_stands [Zero V] (stands : Stands nodeBytes w s) (some_row : 0 < lines)
    (events : List (Event V σ)) (nonzero : ∀ ev ∈ events, ev.NonZero) :
    ∃ w' answers s', reactAll nodeBytes w events = some (w', answers) ∧
      AllMeet (nodeBytes * PRIMER_TABLE_TATAL lines + 32) s events answers s' ∧
      Stands nodeBytes w' s' := by
  induction events generalizing w s with
  | nil => exact ⟨w, [], s, rfl, .nil, stands⟩
  | cons ev events ih =>
    obtain ⟨w₁, answer, s₁, run₁, first, stands₁⟩ :=
      react_stands stands some_row ev (nonzero ev List.mem_cons_self)
    obtain ⟨w', answers, s', run, later, stands'⟩ :=
      ih stands₁ fun ev mem => nonzero ev (List.mem_cons_of_mem _ mem)
    refine ⟨w', answer :: answers, s', ?_, .cons first later, stands'⟩
    simp only [reactAll, run₁, run, Option.bind_eq_bind, Option.bind_some]

end Run

/-- From a new segment, with no file of the length of a dump: whatever is called, dumped,
    restored and restarted, Get answers what the snapshots say, Foreach calls the callback
    once for each pair, and BinRestore brings back the map of a complete dump, or refuses. -/
theorem dumps_recall_their_map [Zero V] (lines : Nat) (some_row : 0 < lines)
    (rows : lines ≤ PRIMER_TABLE_LEN) (nodeBytes : Nat) (files : String → Option (File V))
    (foreign : ∀ name file, files name = some file →
      file.length ≠ nodeBytes * PRIMER_TABLE_TATAL lines + 32)
    (events : List (Event V σ)) (nonzero : ∀ ev ∈ events, ev.NonZero) :
    ∃ t₀ : CHashShm V lines, init none = some t₀ ∧
      ∃ w answers s, reactAll nodeBytes ⟨t₀, files⟩ events = some (w, answers) ∧
        AllMeet (nodeBytes * PRIMER_TABLE_TATAL lines + 32) ⟨fun _ => none, fun _ => none⟩ events
          answers s ∧
        ∀ key, key ≠ 0 → ∀ old, (w.table.get key old).2 = match s.map key with
          | some v => (.OK, v)
          | none => (.NOTFOUND, old) := by
  obtain ⟨t₀, made⟩ := init_succeeds (V := V) rows
  have inv := inv_zeroed rows made
  have begun : Stands nodeBytes ⟨t₀, files⟩ ⟨fun _ => none, fun _ => none⟩ := by
    refine ⟨inv, ?_, ?_⟩
    · intro name map saved
      cases saved
    · intro name _ file held
      unfold memSize
      rw [inv.size]
      exact foreign name file held
  obtain ⟨w, answers, s, run, meet, stands⟩ := react_all_stands begun some_row events nonzero
  exact ⟨t₀, made, w, answers, s, run, meet, fun key ne old => (get_cases stands.table ne old).1⟩

/-- Key 7 is stored, dumped and removed; a new process restores the dump. -/
def removedAndRestored : List (Event Nat Nat) :=
  [.op (.set 7 4), .dump "./chsbin" true 24208, .op (.remove 7), .restart, .restore "./chsbin"]

theorem dump_brings_back_a_removed_pair :
    ∃ t₀ : CHashShm Nat 1, init none = some t₀ ∧
      ∃ w answers s, reactAll 16 ⟨t₀, fun _ => none⟩ removedAndRestored = some (w, answers) ∧
        AllMeet 24208 ⟨fun _ => none, fun _ => none⟩ removedAndRestored answers s ∧
        (w.table.get 7 0).2 = (.OK, 4) := by
  obtain ⟨t₀, made, w, answers, s, run, meet, _⟩ := dumps_recall_their_map 1 (by decide) (by decide)
    16 (fun _ => none) (fun _ _ held => by cases held) removedAndRestored
    (by simp [removedAndRestored, Event.NonZero, Op.NonZero])
  refine ⟨t₀, made, w, answers, s, run, meet, ?_⟩
  cases made
  have got : (reactAll 16 (⟨⟨⟨⟨0, 1⟩, (none.getD zeroed : Segment Nat).nodes⟩,
      PRIMER_TABLE_TATAL 1, 0⟩, fun _ => none⟩ : World Nat 1) removedAndRestored).map
        (fun last => (last.1.table.get 7 0).2) = some (.OK, 4) := by
    decide +kernel
  rw [run] at got
  exact Option.some.inj got

end UC.CHashShm
