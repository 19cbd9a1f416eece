import UC.Lib.Chains
import UC.Lib.Ints
import UC.ThreadPool.Model

/- Safety of the thread pool over all interleavings: the counter, the order of the tasks, and
   one execution of each. -/
namespace UC.ThreadPool
open UC.Memory UC.Chains UC.Runs UC.Ints

variable {Work : Type*}

def Points (memory : Workers Work) (p : Ptr) (next : Option Ptr) : Prop :=
  ∃ node, memory p = some node ∧ node.next = next

def Holds : Routine → Ptr → Prop
  | .running worker, p => worker = p
  | .freeing worker, p => worker = p
  | _, _ => False

def Serials (memory : Workers Work) : List Ptr → List Nat → Prop :=
  List.Forall₂ fun p n => ∃ node, memory p = some node ∧ node.serial = n

/-- An execution comes before no mark of its task. -/
def Before (a b : Mark Work) : Prop := ∀ w, b = .executed a.serial w → False

/-- The nodes and the marks: each live node belongs to one call, and a live node has a mark
    only after its callback has returned. -/
structure Tasks (s : State Work) : Prop where
  made : ∀ p node, s.memory p = some node → s.calls[node.serial]? = some node.work
  distinct : ∀ p p' node node', s.memory p = some node → s.memory p' = some node' →
    node.serial = node'.serial → p = p'
  fresh : ∀ p node mark, s.memory p = some node → mark ∈ s.log → mark.serial = node.serial →
    ∃ t, s.threads t = .freeing p
  past : ∀ mark ∈ s.log, mark.serial < s.calls.length
  once : s.log.Pairwise Before
  given : ∀ n w, .executed n w ∈ s.log → s.calls[n]? = some w
  taken : ∀ t p node, Holds (s.threads t) p → s.memory p = some node → node.serial ∈ s.dequeued
  ran : ∀ n w, .executed n w ∈ s.log → n ∈ s.dequeued

/-- The list q at queue_head, the nodes still being built and the nodes held by threads. -/
structure Lists (s : State Work) (q : List Ptr) : Prop where
  head : headOr id q none = s.pool.queue_head
  linked : Linked (Points s.memory) id q none
  once : (q ++ s.built).Nodup
  ready : ∀ p ∈ s.built, Points s.memory p none
  held : ∀ t p, Holds (s.threads t) p → (∃ node, s.memory p = some node) ∧ p ∉ q ++ s.built
  alone : ∀ t t' p, Holds (s.threads t) p → Holds (s.threads t') p → t = t'

structure Inv (s : State Work) (q : List Ptr) : Prop where
  sound : s.fault = false
  lists : Lists s q
  tasks : Tasks s
  counter : s.drained = [] → s.pool.cur_queue_size = q.length
  drain : s.drained ≠ [] → s.pool.shutdown = true
  order : ∃ waiting, Serials s.memory q waiting ∧ s.added = s.dequeued ++ s.drained ++ waiting

variable {s : State Work} {q : List Ptr}

theorem set_same (s : State Work) (t : Nat) (pc : Routine) : (s.set t pc).threads t = pc :=
  store_same _ _ _

theorem set_other (s : State Work) {t t' : Nat} (pc : Routine) (ne : t' ≠ t) :
    (s.set t pc).threads t' = s.threads t' := store_other _ _ ne

theorem linked_live {memory : Workers Work} {e : Option Ptr}
    (linked : Linked (Points memory) id q e) {p : Ptr} (member : p ∈ q) :
    ∃ node, memory p = some node := by
  induction q with
  | nil => cases member
  | cons a q ih =>
    obtain ⟨⟨node, here, _⟩, later⟩ := linked
    rcases List.mem_cons.mp member with first | rest
    · exact ⟨node, by rw [first, here]⟩
    · exact ih later rest

theorem live_in_lists (lists : Lists s q) {p : Ptr} (member : p ∈ q ++ s.built) :
    ∃ node, s.memory p = some node := by
  rcases List.mem_append.mp member with queued | building
  · exact linked_live lists.linked queued
  · obtain ⟨node, here, _⟩ := lists.ready p building
    exact ⟨node, here⟩

theorem linked_elsewhere {memory memory' : Workers Work} {e : Option Ptr}
    (same : ∀ p ∈ q, memory' p = memory p) (linked : Linked (Points memory) id q e) :
    Linked (Points memory') id q e := by
  refine linked_imp ?_ linked
  rintro p member next ⟨node, here, points⟩
  exact ⟨node, by rw [same p member, here], points⟩

theorem serials_elsewhere {memory memory' : Workers Work} {waiting : List Nat}
    (same : ∀ p ∈ q, ∀ node, memory p = some node →
      ∃ node', memory' p = some node' ∧ node'.serial = node.serial)
    (serials : Serials memory q waiting) : Serials memory' q waiting := by
  induction serials with
  | nil => exact .nil
  | cons here _ ih =>
    obtain ⟨node, read, serial⟩ := here
    obtain ⟨node', read', serial'⟩ := same _ List.mem_cons_self node read
    exact .cons ⟨node', read', serial'.trans serial⟩
      (ih fun p member => same p (List.mem_cons_of_mem _ member))

theorem empty_of_head (lists : Lists s q) (none_there : s.pool.queue_head = none) : q = [] := by
  cases q with
  | nil => rfl
  | cons p q =>
    have head := lists.head
    rw [none_there] at head
    cases head

theorem cons_of_head (lists : Lists s q) {worker : Ptr}
    (first : s.pool.queue_head = some worker) : ∃ rest, q = worker :: rest := by
  have head := lists.head
  rw [first] at head
  cases q with
  | nil => cases head
  | cons p q =>
    cases head
    exact ⟨q, rfl⟩

/-- The walk of pool_add_worker ends at the last node of the list, and only there. -/
theorem last_member_walk {memory : Workers Work} {init : List Ptr} {last : Ptr} {fuel : Nat}
    (linked : Linked (Points memory) id (init ++ [last]) none) {first : Ptr}
    (head : headOr id (init ++ [last]) none = some first) :
    lastMember memory fuel first = if init.length < fuel then some last else none := by
  induction init generalizing first fuel with
  | nil =>
    cases head
    obtain ⟨⟨node, here, next⟩, _⟩ := linked
    cases fuel with
    | zero => rfl
    | succ fuel =>
      change node.next = none at next
      simp [lastMember, here, next]
  | cons p init ih =>
    cases head
    obtain ⟨⟨node, here, next⟩, later⟩ := linked
    cases fuel with
    | zero => rfl
    | succ fuel =>
      obtain ⟨second, follows⟩ : ∃ second, headOr id (init ++ [last]) none = some second := by
        cases init <;> exact ⟨_, rfl⟩
      change node.next = headOr id (init ++ [last]) none at next
      have walk := @ih fuel later second follows
      rw [follows] at next
      simp [lastMember, here, next, walk]

theorem region_take {memory : Workers Work} {pool pool' : CThread_pool} {worker : Ptr}
    (run : thread_routine memory pool = .take worker pool') :
    pool.shutdown = false ∧ pool.queue_head = some worker ∧
      ∃ node, memory worker = some node ∧
        pool' = { pool with
          cur_queue_size := pool.cur_queue_size - 1, queue_head := node.next } := by
  unfold thread_routine at run
  split at run
  · cases run
  split at run
  · cases run
  next up =>
    split at run
    · cases run
    split at run
    · cases run
    next worker' head =>
      split at run
      · cases run
      next node here =>
        cases run
        exact ⟨Bool.eq_false_iff.mpr up, head, node, here, rfl⟩

/-- The counter agrees with the list, so that neither assertion fails. -/
theorem no_assertion (lists : Lists s q) (counter : s.pool.shutdown = false →
    s.pool.cur_queue_size = q.length) : thread_routine s.memory s.pool ≠ .assertion := by
  intro run
  unfold thread_routine at run
  split at run
  · cases run
  next busy =>
    split at run
    · cases run
    next up =>
      have count := counter (Bool.eq_false_iff.mpr up)
      split at run
      next zero => exact busy ⟨zero, Bool.eq_false_iff.mpr up⟩
      next nonzero =>
        split at run
        next empty =>
          rw [empty_of_head lists empty] at count
          exact nonzero count
        next worker head =>
          split at run <;> cases run

theorem no_freed_head (lists : Lists s q) : thread_routine s.memory s.pool ≠ .freed := by
  intro run
  unfold thread_routine at run
  split at run
  · cases run
  split at run
  · cases run
  split at run
  · cases run
  split at run
  · cases run
  next worker head =>
    obtain ⟨rest, split_q⟩ := cons_of_head lists head
    obtain ⟨node, here⟩ := linked_live lists.linked (p := worker) (by simp [split_q])
    rw [here] at run
    cases run

theorem holds_of_set {t t' : Nat} {pc : Routine} {p : Ptr} (free : ∀ p, ¬ Holds pc p)
    (holds : Holds ((s.set t pc).threads t') p) : Holds (s.threads t') p := by
  by_cases same : t' = t
  · rw [same, set_same] at holds
    exact absurd holds (free p)
  · rwa [set_other s pc same] at holds

theorem lists_set (lists : Lists s q) (t : Nat) {pc : Routine} (free : ∀ p, ¬ Holds pc p) :
    Lists (s.set t pc) q :=
  ⟨lists.head, lists.linked, lists.once, lists.ready,
    fun t' p holds => lists.held t' p (holds_of_set free holds),
    fun t' t'' p one other =>
      lists.alone t' t'' p (holds_of_set free one) (holds_of_set free other)⟩

theorem freeing_set {t : Nat} (pc : Routine) (idle : ∀ p, s.threads t ≠ .freeing p) {p : Ptr}
    (freeing : ∃ t', s.threads t' = .freeing p) :
    ∃ t', (s.set t pc).threads t' = .freeing p := by
  obtain ⟨t', freeing⟩ := freeing
  have other : t' ≠ t := by
    intro same
    rw [same] at freeing
    exact idle p freeing
  exact ⟨t', (set_other s pc other).trans freeing⟩

theorem tasks_set (tasks : Tasks s) {t : Nat} {pc : Routine} (free : ∀ p, ¬ Holds pc p)
    (idle : ∀ p, s.threads t ≠ .freeing p) : Tasks (s.set t pc) := by
  refine ⟨tasks.made, tasks.distinct, ?_, tasks.past, tasks.once, tasks.given, ?_, tasks.ran⟩
  · intro p node mark here member serial
    exact freeing_set pc idle (tasks.fresh p node mark here member serial)
  · intro t' p node holds
    exact tasks.taken t' p node (holds_of_set free holds)

theorem set_keeps_inv (inv : Inv s q) {t : Nat} {pc : Routine} (free : ∀ p, ¬ Holds pc p)
    (idle : ∀ p, s.threads t ≠ .freeing p) : Inv (s.set t pc) q :=
  ⟨inv.sound, lists_set inv.lists t free, tasks_set inv.tasks free idle, inv.counter, inv.drain,
    inv.order⟩

theorem start_inv (max_thread_num : Nat) : Inv (pool_init max_thread_num : State Work) [] where
  sound := rfl
  lists := by
    refine ⟨rfl, trivial, List.nodup_nil, ?_, ?_, ?_⟩
    · intro p member
      cases member
    · intro t p holds
      exact holds.elim
    · intro t t' p holds _
      exact holds.elim
  tasks := by
    refine ⟨?_, ?_, ?_, ?_, List.Pairwise.nil, ?_, ?_, ?_⟩
    · intro p node here
      cases here
    · intro p p' node node' here
      cases here
    · intro p node mark here
      cases here
    · intro mark member
      cases member
    · intro n w member
      cases member
    · intro t p node holds
      exact holds.elim
    · intro n w member
      cases member
  counter := fun _ => rfl
  drain := fun drained => absurd rfl drained
  order := ⟨[], .nil, rfl⟩

theorem fresh_outside (lists : Lists s q) {p : Ptr} (fresh : s.memory p = none) :
    p ∉ q ++ s.built := by
  intro member
  obtain ⟨node, here⟩ := live_in_lists lists member
  rw [fresh] at here
  cases here

theorem ne_fresh {memory : Workers Work} {p p' : Ptr} {node : CThread_worker Work}
    (fresh : memory p = none) (here : memory p' = some node) : p' ≠ p := by
  rintro rfl
  rw [fresh] at here
  cases here

theorem lists_build (lists : Lists s q) {p : Ptr} (fresh : s.memory p = none)
    {node : CThread_worker Work} (alone : node.next = none) (calls : List Work) :
    Lists { s with
      memory := store s.memory p (some node), calls := calls, built := p :: s.built } q := by
  have out := fresh_outside lists fresh
  have kept : ∀ p' ∈ q, store s.memory p (some node) p' = s.memory p' := by
    intro p' member
    obtain ⟨node', here⟩ := linked_live lists.linked member
    exact store_other _ _ (ne_fresh fresh here)
  constructor
  · exact lists.head
  · exact linked_elsewhere kept lists.linked
  · have moved : (q ++ p :: s.built).Perm (p :: (q ++ s.built)) := List.perm_middle
    exact moved.nodup_iff.mpr (List.nodup_cons.mpr ⟨out, lists.once⟩)
  · intro p' member
    rcases List.mem_cons.mp member with here | rest
    · rw [here]
      exact ⟨node, store_same _ _ _, alone⟩
    · obtain ⟨node', here, last⟩ := lists.ready p' rest
      exact ⟨node', (store_other _ _ (ne_fresh fresh here)).trans here, last⟩
  · intro t p' holds
    obtain ⟨⟨node', here⟩, outside⟩ := lists.held t p' holds
    have ne := ne_fresh fresh here
    refine ⟨⟨node', (store_other _ _ ne).trans here⟩, ?_⟩
    simp only [List.mem_append, List.mem_cons, not_or] at outside ⊢
    exact ⟨outside.1, ne, outside.2⟩
  · exact lists.alone

theorem serial_bound (tasks : Tasks s) {p : Ptr} {node : CThread_worker Work}
    (here : s.memory p = some node) : node.serial < s.calls.length :=
  (List.getElem?_eq_some_iff.mp (tasks.made p node here)).1

theorem tasks_build (lists : Lists s q) (tasks : Tasks s) {p : Ptr} (fresh : s.memory p = none)
    (work : Work) (built : List Ptr) :
    Tasks { s with
      memory := store s.memory p (some ⟨work, none, s.calls.length⟩)
      calls := s.calls ++ [work], built := built } := by
  have old : ∀ p' node, store s.memory p (some ⟨work, none, s.calls.length⟩) p' = some node →
      (p' = p ∧ node = ⟨work, none, s.calls.length⟩) ∨ s.memory p' = some node := by
    intro p' node here
    by_cases same : p' = p
    · rw [same, store_same] at here
      exact .inl ⟨same, (Option.some.inj here).symm⟩
    · rw [store_other _ _ same] at here
      exact .inr here
  constructor
  · intro p' node here
    rcases old p' node here with ⟨_, new⟩ | before
    · rw [new]
      exact List.getElem?_concat_length
    · exact (List.getElem?_append_left (serial_bound tasks before)).trans
        (tasks.made p' node before)
  · intro p' p'' node node' here here' serial
    rcases old p' node here with ⟨first, new⟩ | before <;>
      rcases old p'' node' here' with ⟨second, new'⟩ | before'
    · rw [first, second]
    · have bound := serial_bound tasks before'
      rw [new] at serial
      exact absurd serial.symm bound.ne
    · have bound := serial_bound tasks before
      rw [new'] at serial
      exact absurd serial bound.ne
    · exact tasks.distinct p' p'' node node' before before' serial
  · intro p' node mark here member serial
    rcases old p' node here with ⟨_, new⟩ | before
    · have bound := tasks.past mark member
      rw [new] at serial
      exact absurd serial bound.ne
    · exact tasks.fresh p' node mark before member serial
  · intro mark member
    have bound := tasks.past mark member
    change mark.serial < (s.calls ++ [work]).length
    rw [List.length_append]
    exact Nat.lt_add_right _ bound
  · exact tasks.once
  · intro n w member
    have given := tasks.given n w member
    have bound := (List.getElem?_eq_some_iff.mp given).1
    exact (List.getElem?_append_left bound).trans given
  · intro t p' node holds here
    obtain ⟨⟨node', live⟩, _⟩ := lists.held t p' holds
    have before := (store_other s.memory _ (ne_fresh fresh live)).symm.trans here
    exact tasks.taken t p' node holds before
  · exact tasks.ran

theorem build_keeps_inv (inv : Inv s q) {p : Ptr} {work : Work} (fresh : s.memory p = none) :
    Inv { s with
      memory := store s.memory p (some ⟨work, none, s.calls.length⟩)
      calls := s.calls ++ [work], built := p :: s.built } q := by
  obtain ⟨waiting, serials, order⟩ := inv.order
  refine ⟨inv.sound, lists_build inv.lists fresh rfl _, tasks_build inv.lists inv.tasks fresh work _,
    inv.counter, inv.drain, waiting, serials_elsewhere ?_ serials, order⟩
  intro p' member node here
  exact ⟨node, (store_other _ _ (ne_fresh fresh here)).trans here, rfl⟩

theorem tasks_relink (tasks : Tasks s) {p : Ptr} {node : CThread_worker Work}
    (here : s.memory p = some node) (next : Option Ptr) (pool : CThread_pool) (built : List Ptr)
    (added : List Nat) :
    Tasks { s with
      memory := store s.memory p (some { node with next := next })
      pool := pool, built := built, added := added } := by
  have old : ∀ p' node', store s.memory p (some { node with next := next }) p' = some node' →
      ∃ before, s.memory p' = some before ∧ before.serial = node'.serial ∧
        before.work = node'.work := by
    intro p' node' found
    by_cases same : p' = p
    · rw [same, store_same] at found
      cases found
      exact ⟨node, by rw [same, here], rfl, rfl⟩
    · rw [store_other _ _ same] at found
      exact ⟨node', found, rfl, rfl⟩
  refine ⟨?_, ?_, ?_, tasks.past, tasks.once, tasks.given, ?_, tasks.ran⟩
  · intro p' node' found
    obtain ⟨before, found, serial, work⟩ := old p' node' found
    rw [← serial, ← work]
    exact tasks.made p' before found
  · intro p' p'' node' node'' found found' same
    obtain ⟨before, found, serial, _⟩ := old p' node' found
    obtain ⟨before', found', serial', _⟩ := old p'' node'' found'
    exact tasks.distinct p' p'' before before' found found' (by rw [serial, serial', same])
  · intro p' node' mark found member same
    obtain ⟨before, found, serial, _⟩ := old p' node' found
    exact tasks.fresh p' before mark found member (by rw [serial, same])
  · intro t p' node' holds found
    obtain ⟨before, found, serial, _⟩ := old p' node' found
    rw [← serial]
    exact tasks.taken t p' before holds found

theorem add_region (lists : Lists s q) (p : Ptr) (fuel : Nat) :
    (q = [] ∧ pool_add_worker fuel s.memory s.pool p = some (s.memory, { s.pool with
        queue_head := some p, cur_queue_size := s.pool.cur_queue_size + 1 })) ∨
      ∃ init last node, q = init ++ [last] ∧ s.memory last = some node ∧
        pool_add_worker fuel s.memory s.pool p =
          if init.length < fuel then
            some (store s.memory last (some { node with next := some p }),
              { s.pool with cur_queue_size := s.pool.cur_queue_size + 1 })
          else none := by
  rcases List.eq_nil_or_concat' q with empty | ⟨init, last, split_q⟩
  · refine .inl ⟨empty, ?_⟩
    have head := lists.head
    rw [empty] at head
    rw [pool_add_worker, ← head]
    rfl
  · have head := lists.head
    have linked := lists.linked
    obtain ⟨node, here⟩ := linked_live linked (p := last) (by simp [split_q])
    refine .inr ⟨init, last, node, split_q, here, ?_⟩
    rw [split_q] at head linked
    obtain ⟨first, start⟩ : ∃ first, headOr id (init ++ [last]) none = some first := by
      cases init <;> exact ⟨_, rfl⟩
    have walk := @last_member_walk _ _ _ _ fuel linked _ start
    rw [start] at head
    rw [pool_add_worker, ← head]
    simp only [walk]
    split
    · simp [here, ← head]
    · rfl

theorem add_ends (lists : Lists s q) (p : Ptr) :
    ∃ fuel result, pool_add_worker fuel s.memory s.pool p = some result := by
  refine ⟨q.length, ?_⟩
  rcases add_region lists p q.length with ⟨_, run⟩ | ⟨init, last, node, split_q, _, run⟩
  · exact ⟨_, run⟩
  · rw [if_pos (by simp [split_q])] at run
    exact ⟨_, run⟩

theorem lists_append (lists : Lists s q) {p : Ptr} (mine : p ∈ s.built)
    {memory : Workers Work} {pool : CThread_pool} {added : List Nat}
    (head : headOr id (q ++ [p]) none = pool.queue_head)
    (linked : Linked (Points memory) id q (some p))
    (same : ∀ p', p' ∉ q → memory p' = s.memory p')
    (live : ∀ p', (∃ node, s.memory p' = some node) → ∃ node, memory p' = some node) :
    Lists { s with
      memory := memory, pool := pool, built := s.built.erase p, added := added } (q ++ [p]) := by
  have order : (q ++ [p] ++ s.built.erase p).Perm (q ++ s.built) := by
    rw [List.append_assoc]
    exact (List.perm_cons_erase mine).symm.append_left q
  have apart : ∀ p' ∈ s.built, p' ∉ q := fun p' building queued =>
    (List.nodup_append.mp lists.once).2.2 p' queued p' building rfl
  constructor
  · exact head
  · rw [linked_append]
    obtain ⟨node, here, last⟩ := lists.ready p mine
    exact ⟨linked, ⟨node, (same p (apart p mine)).trans here, last⟩, trivial⟩
  · exact order.nodup_iff.mpr lists.once
  · intro p' member
    have building := List.mem_of_mem_erase member
    obtain ⟨node, here, last⟩ := lists.ready p' building
    exact ⟨node, (same p' (apart p' building)).trans here, last⟩
  · intro t p' holds
    obtain ⟨alive, outside⟩ := lists.held t p' holds
    exact ⟨live p' alive, fun member => outside (order.subset member)⟩
  · exact lists.alone

theorem serials_append {memory : Workers Work} {waiting : List Nat} {p : Ptr}
    {node : CThread_worker Work} (serials : Serials memory q waiting)
    (here : memory p = some node) : Serials memory (q ++ [p]) (waiting ++ [node.serial]) :=
  List.rel_append serials (.cons ⟨node, here, rfl⟩ .nil)

theorem relinked_serial {memory : Workers Work} {last : Ptr} {end_ : CThread_worker Work}
    (tail : memory last = some end_) (next : Option Ptr) {p : Ptr} {node : CThread_worker Work}
    (found : memory p = some node) : ∃ node',
      store memory last (some { end_ with next := next }) p = some node' ∧
        node'.serial = node.serial := by
  by_cases same : p = last
  · subst same
    rw [tail] at found
    cases found
    exact ⟨_, store_same _ _ _, rfl⟩
  · exact ⟨node, (store_other _ _ same).trans found, rfl⟩

theorem linked_tail {memory : Workers Work} {init : List Ptr} {last p : Ptr}
    (end_ : CThread_worker Work) (linked : Linked (Points memory) id (init ++ [last]) none)
    (apart : last ∉ init) :
    Linked (Points (store memory last (some { end_ with next := some p }))) id (init ++ [last])
      (some p) := by
  rw [linked_append] at linked ⊢
  refine ⟨linked_elsewhere (fun p' member => store_other _ _ ?_) linked.1,
    ⟨_, store_same _ _ _, rfl⟩, trivial⟩
  exact fun same => apart (same ▸ member)

theorem add_keeps_inv (inv : Inv s q) {p : Ptr} {fuel : Nat} {node : CThread_worker Work}
    {memory : Workers Work} {pool : CThread_pool} (mine : p ∈ s.built)
    (here : s.memory p = some node)
    (run : pool_add_worker fuel s.memory s.pool p = some (memory, pool)) :
    Inv { s with
      memory := memory, pool := pool, built := s.built.erase p
      added := s.added ++ [node.serial] } (q ++ [p]) := by
  have lists := inv.lists
  obtain ⟨waiting, serials, order⟩ := inv.order
  have counter : s.drained = [] → s.pool.cur_queue_size + 1 = ((q ++ [p]).length : Int) := by
    intro whole
    rw [inv.counter whole]
    simp
  have later : s.added ++ [node.serial] =
      s.dequeued ++ s.drained ++ (waiting ++ [node.serial]) := by
    rw [order, List.append_assoc]
  rcases add_region lists p fuel with ⟨empty, result⟩ | ⟨init, last, end_, split_q, tail, result⟩
  · rw [result] at run
    cases run
    refine ⟨inv.sound, ?_, ?_, counter, inv.drain, _, serials_append serials here, later⟩
    · apply lists_append lists mine
      · rw [empty]
        rfl
      · rw [empty]
        trivial
      · exact fun _ _ => rfl
      · exact fun _ alive => alive
    · exact ⟨inv.tasks.made, inv.tasks.distinct, inv.tasks.fresh, inv.tasks.past,
        inv.tasks.once, inv.tasks.given, inv.tasks.taken, inv.tasks.ran⟩
  · rw [result] at run
    split at run
    case isFalse => cases run
    cases run
    have only : ∀ p' ∉ q, store s.memory last (some { end_ with next := some p }) p' =
        s.memory p' := by
      intro p' outside
      refine store_other _ _ fun same => outside ?_
      simp [split_q, same]
    have outside : p ∉ q := fun queued =>
      (List.nodup_append.mp lists.once).2.2 p queued p mine rfl
    refine ⟨inv.sound, ?_, tasks_relink inv.tasks tail _ _ _ _, counter, inv.drain, _,
      serials_append (serials_elsewhere (fun p' _ _ => relinked_serial tail (some p)) serials)
        ((only p outside).trans here), later⟩
    apply lists_append lists mine
    · rw [head_or_append]
      change headOr id q (some p) = s.pool.queue_head
      rw [← lists.head, split_q]
      cases init <;> rfl
    · have once := lists.once
      have linked := lists.linked
      rw [split_q] at once linked ⊢
      apply linked_tail end_ linked
      have parts := List.nodup_append.mp (List.nodup_append.mp once).1
      exact fun member => parts.2.2 last member last (by simp) rfl
    · exact only
    · rintro p' ⟨node', found⟩
      obtain ⟨node'', found', _⟩ := relinked_serial tail (some p) found
      exact ⟨node'', found'⟩

theorem holds_taken {t t' : Nat} {worker p : Ptr}
    (holds : Holds ((s.set t (.running worker)).threads t') p) :
    (t' = t ∧ p = worker) ∨ (t' ≠ t ∧ Holds (s.threads t') p) := by
  by_cases same : t' = t
  · rw [same, set_same] at holds
    exact .inl ⟨same, holds.symm⟩
  · rw [set_other s _ same] at holds
    exact .inr ⟨same, holds⟩

theorem lists_dequeue {worker : Ptr} {rest : List Ptr} (lists : Lists s (worker :: rest)) (t : Nat)
    {node : CThread_worker Work} (here : s.memory worker = some node) {pool : CThread_pool}
    (next : pool.queue_head = node.next) (dequeued : List Nat) :
    Lists { s.set t (.running worker) with pool := pool, dequeued := dequeued } rest := by
  obtain ⟨⟨node', found, follows⟩, linked⟩ := lists.linked
  rw [here] at found
  cases found
  obtain ⟨out, once⟩ := List.nodup_cons.mp lists.once
  have notHeld : ∀ t', ¬ Holds (s.threads t') worker :=
    fun t' held => (lists.held t' worker held).2 (by simp)
  refine ⟨follows.symm.trans next.symm, linked, once, lists.ready, ?_, ?_⟩
  · intro t' p held
    rcases holds_taken held with ⟨_, mine⟩ | ⟨_, old⟩
    · rw [mine]
      exact ⟨⟨node, here⟩, out⟩
    · obtain ⟨live, outside⟩ := lists.held t' p old
      exact ⟨live, fun member => outside (List.mem_cons_of_mem _ member)⟩
  · intro t' t'' p one other
    rcases holds_taken one with ⟨first, mine⟩ | ⟨_, old⟩ <;>
      rcases holds_taken other with ⟨second, mine'⟩ | ⟨_, old'⟩
    · rw [first, second]
    · exact absurd (mine ▸ old') (notHeld t'')
    · exact absurd (mine' ▸ old) (notHeld t')
    · exact lists.alone t' t'' p old old'

theorem tasks_dequeue (tasks : Tasks s) {t : Nat} {worker : Ptr} {node : CThread_worker Work}
    (pc : s.threads t = .locking) (here : s.memory worker = some node) (pool : CThread_pool) :
    Tasks { s.set t (.running worker) with
      pool := pool, dequeued := s.dequeued ++ [node.serial] } := by
  refine ⟨tasks.made, tasks.distinct, ?_, tasks.past, tasks.once, tasks.given, ?_, ?_⟩
  · intro p node' mark found member serial
    exact freeing_set _ (by simp [pc]) (tasks.fresh p node' mark found member serial)
  · intro t' p node' held found
    rcases holds_taken held with ⟨_, mine⟩ | ⟨_, old⟩
    · rw [mine] at found
      change s.memory worker = some node' at found
      rw [here] at found
      cases found
      exact List.mem_append_right _ List.mem_cons_self
    · exact List.mem_append_left _ (tasks.taken t' p node' old found)
  · intro n w member
    exact List.mem_append_left _ (tasks.ran n w member)

theorem dequeue_keeps_inv (inv : Inv s q) {t : Nat} {worker : Ptr} {pool : CThread_pool}
    {node : CThread_worker Work} (pc : s.threads t = .locking)
    (here : s.memory worker = some node)
    (run : thread_routine s.memory s.pool = .take worker pool) :
    ∃ rest, Inv { s.set t (.running worker) with
      pool := pool, dequeued := s.dequeued ++ [node.serial] } rest := by
  obtain ⟨up, head, node', found, result⟩ := region_take run
  rw [here] at found
  cases found
  obtain ⟨rest, split_q⟩ := cons_of_head inv.lists head
  subst split_q
  have whole : s.drained = [] := by
    by_contra drained
    have down := inv.drain drained
    rw [up] at down
    cases down
  subst result
  refine ⟨rest, inv.sound, lists_dequeue inv.lists t here rfl _, tasks_dequeue inv.tasks pc here _,
    ?_, inv.drain, ?_⟩
  · intro _
    change s.pool.cur_queue_size - 1 = rest.length
    rw [inv.counter whole, List.length_cons]
    omega
  · obtain ⟨waiting, serials, order⟩ := inv.order
    obtain _ | ⟨⟨node', found, serial⟩, later⟩ := serials
    rw [here] at found
    cases found
    refine ⟨_, later, ?_⟩
    change s.added = _
    rw [order, serial]
    change _ = s.dequeued ++ [_] ++ s.drained ++ _
    simp [whole]

theorem execute_keeps_inv (inv : Inv s q) {t : Nat} {worker : Ptr} {node : CThread_worker Work}
    (pc : s.threads t = .running worker) (here : s.memory worker = some node) :
    Inv { s.set t (.freeing worker) with
      log := s.log ++ [.executed node.serial node.work] } q := by
  have lists := inv.lists
  have tasks := inv.tasks
  have mine : Holds (s.threads t) worker := by
    rw [pc]
    rfl
  have holds : ∀ t' p, Holds ((s.set t (.freeing worker)).threads t') p →
      Holds (s.threads t') p := by
    intro t' p holds
    by_cases same : t' = t
    · rw [same, set_same] at holds
      rw [same, pc]
      exact holds
    · rwa [set_other s _ same] at holds
  have unmarked : ∀ mark ∈ s.log, mark.serial ≠ node.serial := by
    intro mark member same
    obtain ⟨t', freeing⟩ := tasks.fresh worker node mark here member same
    have holder := lists.alone t t' worker mine (by rw [freeing]; rfl)
    rw [← holder, pc] at freeing
    cases freeing
  refine ⟨inv.sound, ⟨lists.head, lists.linked, lists.once, lists.ready, ?_, ?_⟩,
    ⟨tasks.made, tasks.distinct, ?_, ?_, ?_, ?_, ?_, ?_⟩, inv.counter, inv.drain, inv.order⟩
  · exact fun t' p held => lists.held t' p (holds t' p held)
  · exact fun t' t'' p one other => lists.alone t' t'' p (holds t' p one) (holds t'' p other)
  · intro p node' mark found member serial
    rcases List.mem_append.mp member with old | new
    · exact freeing_set _ (by simp [pc]) (tasks.fresh p node' mark found old serial)
    · rw [List.mem_singleton.mp new] at serial
      have same := tasks.distinct p worker node' node found here serial.symm
      rw [same]
      exact ⟨t, set_same s t _⟩
  · intro mark member
    rcases List.mem_append.mp member with old | new
    · exact tasks.past mark old
    · rw [List.mem_singleton.mp new]
      exact serial_bound tasks here
  · refine List.pairwise_append.mpr ⟨tasks.once, List.pairwise_singleton _ _, ?_⟩
    intro mark old mark' new w executed
    have both := executed.symm.trans (List.mem_singleton.mp new)
    exact unmarked mark old (Mark.executed.inj both).1
  · intro n w member
    rcases List.mem_append.mp member with old | new
    · exact tasks.given n w old
    · cases List.mem_singleton.mp new
      exact tasks.made worker node here
  · exact fun t' p node' held found => tasks.taken t' p node' (holds t' p held) found
  · intro n w member
    rcases List.mem_append.mp member with old | new
    · exact tasks.ran n w old
    · cases List.mem_singleton.mp new
      exact tasks.taken t worker node mine here

theorem tasks_free (tasks : Tasks s) {p : Ptr} {node : CThread_worker Work}
    (here : s.memory p = some node) {threads : Nat → Routine} {pool : CThread_pool}
    {drained : List Nat}
    (freeing : ∀ t p', p' ≠ p → s.threads t = .freeing p' → threads t = .freeing p')
    (holds : ∀ t p', Holds (threads t) p' → Holds (s.threads t) p') :
    Tasks { s with
      memory := store s.memory p none, threads := threads, pool := pool, drained := drained
      log := s.log ++ [.freed node.serial] } := by
  have old : ∀ p' node', store s.memory p none p' = some node' →
      p' ≠ p ∧ s.memory p' = some node' := by
    intro p' node' found
    by_cases same : p' = p
    · rw [same, store_same] at found
      cases found
    · rw [store_other _ _ same] at found
      exact ⟨same, found⟩
  constructor
  · exact fun p' node' found => tasks.made p' node' (old p' node' found).2
  · exact fun p' p'' node' node'' found found' =>
      tasks.distinct p' p'' node' node'' (old p' node' found).2 (old p'' node'' found').2
  · intro p' node' mark found member serial
    obtain ⟨ne, found⟩ := old p' node' found
    rcases List.mem_append.mp member with before | new
    · obtain ⟨t, busy⟩ := tasks.fresh p' node' mark found before serial
      exact ⟨t, freeing t p' ne busy⟩
    · rw [List.mem_singleton.mp new] at serial
      exact absurd (tasks.distinct p' p node' node found here serial.symm) ne
  · intro mark member
    rcases List.mem_append.mp member with before | new
    · exact tasks.past mark before
    · rw [List.mem_singleton.mp new]
      exact serial_bound tasks here
  · refine List.pairwise_append.mpr ⟨tasks.once, List.pairwise_singleton _ _, ?_⟩
    intro mark _ mark' new w executed
    rw [List.mem_singleton.mp new] at executed
    cases executed
  · intro n w member
    rcases List.mem_append.mp member with before | new
    · exact tasks.given n w before
    · cases List.mem_singleton.mp new
  · exact fun t p' node' held found =>
      tasks.taken t p' node' (holds t p' held) (old p' node' found).2
  · intro n w member
    rcases List.mem_append.mp member with before | new
    · exact tasks.ran n w before
    · cases List.mem_singleton.mp new

theorem free_keeps_inv (inv : Inv s q) {t : Nat} {worker : Ptr} {node : CThread_worker Work}
    (pc : s.threads t = .freeing worker) (here : s.memory worker = some node) :
    Inv { s.set t .locking with
      memory := store s.memory worker none, log := s.log ++ [.freed node.serial] } q := by
  have lists := inv.lists
  have mine : Holds (s.threads t) worker := by
    rw [pc]
    rfl
  have outside := (lists.held t worker mine).2
  have kept : ∀ p ∈ q ++ s.built, store s.memory worker none p = s.memory p :=
    fun p member => store_other _ _ fun same => outside (same ▸ member)
  have queued : ∀ p ∈ q, store s.memory worker none p = s.memory p :=
    fun p member => kept p (List.mem_append_left _ member)
  have holds : ∀ t' p, Holds ((s.set t .locking).threads t') p →
      t' ≠ t ∧ Holds (s.threads t') p := by
    intro t' p holds
    have old : Holds (s.threads t') p := holds_of_set (fun _ => id) holds
    refine ⟨?_, old⟩
    rintro rfl
    rw [set_same] at holds
    exact holds
  refine ⟨inv.sound, ⟨lists.head, linked_elsewhere queued lists.linked, lists.once, ?_, ?_, ?_⟩,
    ?_, inv.counter, inv.drain, ?_⟩
  · intro p member
    obtain ⟨node', found, last⟩ := lists.ready p member
    exact ⟨node', (kept p (List.mem_append_right _ member)).trans found, last⟩
  · intro t' p held
    obtain ⟨ne, old⟩ := holds t' p held
    obtain ⟨⟨node', found⟩, apart⟩ := lists.held t' p old
    have other : p ≠ worker := by
      rintro rfl
      exact ne (lists.alone t' t p old mine)
    exact ⟨⟨node', (store_other _ _ other).trans found⟩, apart⟩
  · exact fun t' t'' p one other =>
      lists.alone t' t'' p (holds t' p one).2 (holds t'' p other).2
  · refine tasks_free inv.tasks here ?_ fun t' p held => (holds t' p held).2
    intro t' p other busy
    have ne : t' ≠ t := by
      rintro rfl
      rw [pc] at busy
      cases busy
      exact other rfl
    exact (set_other s _ ne).trans busy
  · obtain ⟨waiting, serials, order⟩ := inv.order
    refine ⟨waiting, serials_elsewhere ?_ serials, order⟩
    exact fun p member node' found => ⟨node', (queued p member).trans found, rfl⟩

theorem drain_keeps_inv (inv : Inv s q) {head : Ptr} {node : CThread_worker Work}
    (down : s.pool.shutdown = true) (first : s.pool.queue_head = some head)
    (here : s.memory head = some node) :
    ∃ rest, Inv { s with
      memory := store s.memory head none, pool := { s.pool with queue_head := node.next }
      drained := s.drained ++ [node.serial], log := s.log ++ [.freed node.serial] } rest := by
  have lists := inv.lists
  obtain ⟨rest, split_q⟩ := cons_of_head lists first
  subst split_q
  obtain ⟨⟨node', found, next⟩, linked⟩ := lists.linked
  rw [here] at found
  cases found
  obtain ⟨out, once⟩ := List.nodup_cons.mp lists.once
  have kept : ∀ p ∈ rest ++ s.built, store s.memory head none p = s.memory p :=
    fun p member => store_other _ _ fun same => out (same ▸ member)
  have queued : ∀ p ∈ rest, store s.memory head none p = s.memory p :=
    fun p member => kept p (List.mem_append_left _ member)
  refine ⟨rest, inv.sound, ⟨next.symm, linked_elsewhere queued linked, once, ?_, ?_,
    lists.alone⟩, tasks_free inv.tasks here (fun _ _ _ busy => busy) (fun _ _ held => held),
    fun whole => absurd whole (by simp), fun _ => down, ?_⟩
  · intro p member
    obtain ⟨node', found, last⟩ := lists.ready p member
    exact ⟨node', (kept p (List.mem_append_right _ member)).trans found, last⟩
  · intro t p held
    obtain ⟨⟨node', found⟩, apart⟩ := lists.held t p held
    have other : p ≠ head := by
      rintro rfl
      exact apart (by simp)
    exact ⟨⟨node', (store_other _ _ other).trans found⟩,
      fun member => apart (List.mem_cons_of_mem _ member)⟩
  · obtain ⟨waiting, serials, order⟩ := inv.order
    obtain _ | ⟨⟨node', found, serial⟩, later⟩ := serials
    rw [here] at found
    cases found
    refine ⟨_, serials_elsewhere ?_ later, ?_⟩
    · exact fun p member node' found => ⟨node', (queued p member).trans found, rfl⟩
    · change s.added = _
      rw [order, serial]
      simp

/-- Every step keeps the invariant, and the steps that set fault are impossible. -/
theorem step_keeps_inv {s' : State Work} (inv : Inv s q) (step : Step s s') :
    ∃ q', Inv s' q' := by
  have lists := inv.lists
  have counter : s.pool.shutdown = false → s.pool.cur_queue_size = q.length := by
    intro up
    refine inv.counter ?_
    by_contra drained
    rw [inv.drain drained] at up
    cases up
  cases step with
  | build p work fresh => exact ⟨q, build_keeps_inv inv fresh⟩
  | add p fuel mine here run => exact ⟨_, add_keeps_inv inv mine here run⟩
  | wait t thread pc run | exit t thread pc run =>
    exact ⟨q, set_keeps_inv inv (fun _ => id) (fun p => by rw [pc]; exact Routine.noConfusion)⟩
  | wake t pc =>
    exact ⟨q, set_keeps_inv inv (fun _ => id) (fun p => by rw [pc]; exact Routine.noConfusion)⟩
  | dequeue t thread pc here run => exact dequeue_keeps_inv inv pc here run
  | assertion t thread pc run => exact absurd run (no_assertion lists counter)
  | dequeue_freed t thread pc run => exact absurd run (no_freed_head lists)
  | execute t pc here => exact ⟨q, execute_keeps_inv inv pc here⟩
  | execute_freed t pc gone | free_twice t pc gone =>
    obtain ⟨⟨node, here⟩, _⟩ := lists.held t _ (by rw [pc]; rfl)
    rw [gone] at here
    cases here
  | free t pc here => exact ⟨q, free_keeps_inv inv pc here⟩
  | shutdown =>
    exact ⟨q, inv.sound, ⟨lists.head, lists.linked, lists.once, lists.ready, lists.held,
      lists.alone⟩, ⟨inv.tasks.made, inv.tasks.distinct, inv.tasks.fresh, inv.tasks.past,
        inv.tasks.once, inv.tasks.given, inv.tasks.taken, inv.tasks.ran⟩,
      inv.counter, fun _ => rfl, inv.order⟩
  | drain down joined first here => exact drain_keeps_inv inv down first here
  | drain_freed down joined first gone =>
    obtain ⟨rest, split_q⟩ := cons_of_head lists first
    obtain ⟨node, here⟩ := linked_live lists.linked (by rw [split_q]; exact List.mem_cons_self)
    rw [gone] at here
    cases here

def AtHead (s : State Work) (q : List Ptr) : Prop :=
  headOr id q none = s.pool.queue_head ∧ Linked (Points s.memory) id q none

/-- The counter is the length of the list until pool_destroy frees the list; no assertion has
    failed and no freed node was used; the tasks leave the list in the order in which they
    were added; an execution is of a dequeued task with the work of its call, and comes after
    no execution and no free of the same task. -/
structure Safe (s : State Work) : Prop where
  counter : s.drained = [] → ∃ q, AtHead s q ∧ s.pool.cur_queue_size = q.length
  sound : s.fault = false
  order : s.dequeued <+: s.added
  executed : ∀ n w, .executed n w ∈ s.log → n ∈ s.dequeued ∧ s.calls[n]? = some w
  once : s.log.Pairwise fun before after => ∀ w, after ≠ .executed before.serial w
  appends : ∀ p ∈ s.built, ∃ fuel result,
    pool_add_worker fuel s.memory s.pool p = some result

theorem inv_is_safe (inv : Inv s q) : Safe s where
  counter whole := ⟨q, ⟨inv.lists.head, inv.lists.linked⟩, inv.counter whole⟩
  sound := inv.sound
  order := by
    obtain ⟨waiting, _, order⟩ := inv.order
    exact ⟨s.drained ++ waiting, by rw [order, List.append_assoc]⟩
  executed n w member := ⟨inv.tasks.ran n w member, inv.tasks.given n w member⟩
  once := inv.tasks.once
  appends p _ := add_ends inv.lists p

theorem inv_reachable {max_thread_num : Nat} {s : State Work}
    (run : Reachable Step (pool_init max_thread_num) s) : ∃ q, Inv s q := by
  refine @invariant_reachable _ _ (fun s => ∃ q, Inv s q) _ _ ⟨[], start_inv _⟩ ?_ run
  rintro a b ⟨q, inv⟩ step
  exact step_keeps_inv inv step

/-- Any number of threads, of calls and of pending tasks, in any interleaving. -/
theorem pool_is_safe {max_thread_num : Nat} {s : State Work}
    (run : Reachable Step (pool_init max_thread_num) s) : Safe s := by
  obtain ⟨q, inv⟩ := inv_reachable run
  exact inv_is_safe inv

/-- The counter of the source is an int: it does not overflow while INT_MAX tasks at most are
    in the queue. -/
theorem counter_fits_int {max_thread_num : Nat} {s : State Work}
    (run : Reachable Step (pool_init max_thread_num) s) (whole : s.drained = [])
    (few : (s.added.length : Int) ≤ s.dequeued.length + INT_MAX) :
    0 ≤ s.pool.cur_queue_size ∧ s.pool.cur_queue_size ≤ INT_MAX := by
  obtain ⟨q, inv⟩ := inv_reachable run
  have counter := inv.counter whole
  obtain ⟨waiting, serials, order⟩ := inv.order
  have added := congrArg List.length order
  rw [whole, List.append_nil, List.length_append] at added
  have waits := serials.length_eq
  omega

/-- Two threads; two calls are made, and the second thread executes and frees the first task
    while pool_destroy has set shutdown. -/
theorem first_of_two_tasks_is_executed : ∃ s : State Nat,
    Reachable Step (pool_init 2) s ∧ Safe s ∧ s.pool.cur_queue_size = 1 ∧ s.dequeued = [0] ∧
      s.added = [0, 1] ∧ s.log = [.executed 0 50, .freed 0] := by
  have first : Reachable Step (pool_init 2) _ := reachable_step (reachable_start _)
    (Step.build 7 50 rfl)
  have second := reachable_step first (Step.build 9 60 rfl)
  have one := reachable_step second (Step.add 7 0 (by simp) rfl rfl)
  have two := reachable_step one (Step.add 9 1 (by simp) rfl rfl)
  have taken := reachable_step two (Step.dequeue 1 (by decide) rfl rfl rfl)
  have down := reachable_step taken Step.shutdown
  have called := reachable_step down (Step.execute 1 rfl rfl)
  have ended := reachable_step called (Step.free 1 rfl rfl)
  exact ⟨_, ended, pool_is_safe ended, rfl, rfl, rfl, rfl⟩

end UC.ThreadPool
