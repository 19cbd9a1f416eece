import UC.Coroutine.Blocks

/- Every event keeps the program a picture of the scheduler without pointers, and
   coroutine_close finds every block that is left. -/
namespace UC.Coroutines
open UC.Memory UC.Runs UC.Heaps

section Held

structure Held (p : Program) (m : Machine) (t : Nat) (slots : List (Option Nat))
    (owner : Nat → Option Nat) : Prop where
  housed : Housed p.heap p.S ⟨m.S.stack, m.S.nco, m.S.cap, m.S.running, some t⟩ t slots m.S.slot
    owner
  length : slots.length = m.S.co.length
  cur : p.cur = m.cur.bind fun frame =>
    ((slots[frame.id]?).join).map fun co => ⟨frame.id, co⟩

def Refines (p : Program) (m : Machine) : Prop := ∃ t slots owner, Held p m t slots owner

variable {p : Program} {m : Machine} {t : Nat} {slots : List (Option Nat)}
  {owner : Nat → Option Nat}

theorem null_iff (held : Held p m t slots owner) (i : Nat) :
    slots[i]? = some none ↔ m.S.co[i]? = some none := by
  have length := held.length
  have vacant := held.housed.seats.vacant i
  unfold Schedule.slot at vacant
  by_cases inside : i < slots.length
  · have inside' : i < m.S.co.length := length ▸ inside
    rw [List.getElem?_eq_getElem inside, List.getElem?_eq_getElem inside'] at vacant ⊢
    simpa using vacant
  · rw [List.getElem?_eq_none (by omega), List.getElem?_eq_none (by omega)]
    exact iff_of_false (Option.some_ne_none none).symm (Option.some_ne_none none).symm

theorem find_slot_same (held : Held p m t slots owner) {h : Blocks}
    (table : h.cells t = some (.table slots)) :
    h.findSlot ⟨m.S.stack, m.S.nco, m.S.cap, m.S.running, some t⟩ = findSlot m.S := by
  unfold Blocks.findSlot findSlot
  dsimp only
  congr 1
  funext i
  rw [slot_at rfl table]
  have null := null_iff held ((i + m.S.nco) % m.S.cap)
  split
  · next at_i => rw [null.mp at_i]
  · next other =>
    split
    · next at_i => exact absurd (null.mpr at_i) other
    · rfl

theorem slot_set {S S' : Schedule} {i : Nat} {x : Option Coroutine} (co : S'.co = S.co.set i x)
    (inside : i < S.co.length) : S'.slot = Function.update S.slot i x := by
  funext j
  unfold Schedule.slot
  rw [co, join_set _ _ inside]
  by_cases here : j = i
  · subst here
    rw [if_pos rfl, Function.update_self]
  · rw [if_neg here, Function.update_of_ne here]

theorem refines_of {S : Scheduler} {slot : Nat → Option Coroutine}
    (housed : Housed p.heap p.S S t slots slot owner)
    (schedule : S = ⟨m.S.stack, m.S.nco, m.S.cap, m.S.running, some t⟩) (same : slot = m.S.slot)
    (length : slots.length = m.S.co.length)
    (cur : p.cur = m.cur.bind fun frame =>
      ((slots[frame.id]?).join).map fun co => ⟨frame.id, co⟩) : Refines p m := by
  cases schedule
  cases same
  exact ⟨t, slots, owner, housed, length, cur⟩

structure Begun (h h₁ : Blocks) (a : Nat) (S : Scheduler) (t : Nat) (slots : List (Option Nat)) :
    Prop where
  sound : h₁.Sound
  base : h₁.base = 0
  cell : h₁.cells h.fresh = some (.coroutine ⟨none, 0, 0, .READY, none⟩)
  kept : ∀ x, x ≠ h.fresh → h₁.cells x = h.cells x
  schedule : h₁.cells a = some (.schedule S)
  table : h₁.cells t = some (.table slots)
  a_old : a ≠ h.fresh
  t_old : t ≠ h.fresh

theorem begun {h : Blocks} {a : Nat} {S : Scheduler} {slot : Nat → Option Coroutine}
    (housed : Housed h a S t slots slot owner) : Begun h h.coNew.2 a S t slots := by
  have free := fresh_free housed.sound
  have old : ∀ {x block}, h.cells x = some block → x ≠ h.fresh := by
    rintro x block live rfl
    cases free.symm.trans live
  have kept : ∀ x, x ≠ h.fresh → h.coNew.2.cells x = h.cells x :=
    fun x other => h.malloc_other _ other
  exact ⟨Heap.sound_malloc housed.sound _, housed.base, h.malloc_new _, kept,
    (kept a (old housed.schedule)).trans housed.schedule,
    (kept t (old housed.table)).trans housed.table, old housed.schedule, old housed.table⟩

theorem frame_present (inv : SlotInv m) {frame : Frame} (inside : m.cur = some frame) :
    m.S.slot frame.id ≠ none := by
  obtain ⟨r, control⟩ := inv.control
  obtain ⟨id, C, _, _, context, present, _⟩ := control_inside control (by simp [inside])
  cases inside.symm.trans context
  rw [present]
  exact Option.some_ne_none C

theorem cur_kept (inv : SlotInv m) (held : Held p m t slots owner) {i : Nat}
    (vacant : m.S.slot i = none) {slots' : List (Option Nat)} {x : Option Nat}
    (seats : (fun j => (slots'[j]?).join) =
      Function.update (fun j => (slots[j]?).join) i x) :
    p.cur = m.cur.bind fun frame =>
      ((slots'[frame.id]?).join).map fun co => ⟨frame.id, co⟩ := by
  rw [held.cur]
  cases inside : m.cur with
  | none => rfl
  | some frame =>
    have other : frame.id ≠ i := by
      rintro rfl
      exact frame_present inv inside vacant
    have same := congrFun seats frame.id
    rw [Function.update_of_ne other] at same
    simp only [Option.bind_some, same]

theorem new_room (inv : SlotInv m) (held : Held p m t slots owner)
    (room : ¬ m.S.nco ≥ m.S.cap) {id : Nat} (found : findSlot m.S = some id) :
    ∃ p', p.new = some (p', id) ∧ Refines p' { m with S := { m.S with
      co := m.S.co.set id (some (coNew fun _ => 0)), nco := m.S.nco + 1 } } := by
  have housed := held.housed
  have start := begun housed
  have apart := housed_apart housed
  have null := find_slot_null found
  have inside : id < slots.length :=
    (List.getElem?_eq_some_iff.mp ((null_iff held id).mpr null)).1
  have inside' : id < m.S.co.length := held.length ▸ inside
  have vacant : m.S.slot id = none := by
    unfold Schedule.slot
    rw [null]
    rfl
  let co := p.heap.fresh
  let h₁ := p.heap.coNew.2
  let h₂ : Blocks := h₁.put t (.table (slots.set id (some co)))
  have schedule₂ := (h₁.put_other (.table (slots.set id (some co))) apart).trans start.schedule
  let S' : Scheduler := ⟨m.S.stack, m.S.nco + 1, m.S.cap, m.S.running, some t⟩
  let h₃ : Blocks := h₂.put p.S (.schedule S')
  have runs : p.new = some ({ p with heap := h₃ }, id) := by
    have searched := (find_slot_same held start.table).trans found
    have placed : h₁.setSlot ⟨m.S.stack, m.S.nco, m.S.cap, m.S.running, some t⟩ id (some co) =
        some h₂ := set_slot_at rfl start.table inside _
    have written : h₂.write p.S (.schedule S') = some h₃ := Heap.write_live schedule₂ _
    unfold Program.new
    simp only [Option.bind_eq_bind, schedule_at start.schedule, Option.bind_some, if_neg room,
      searched]
    change (h₁.setSlot _ id (some co)).bind _ = _
    rw [placed, Option.bind_some]
    change (h₂.write p.S (.schedule S')).bind _ = _
    rw [written, Option.bind_some]
  have table₃ : h₃.cells t = some (.table (slots.set id (some co))) :=
    (h₂.put_other _ apart.symm).trans (h₁.put_same _ _)
  have others : ∀ x, x ≠ p.S → x ≠ t → h₃.cells x = h₁.cells x := fun x not_a not_t =>
    (h₂.put_other _ not_a).trans (h₁.put_other _ not_t)
  have sound₃ : h₃.Sound :=
    Heap.sound_put (Heap.sound_put start.sound start.table _) schedule₂ _
  have housed' := housed_new housed (fun _ => 0) vacant sound₃ start.base
    (fresh_free housed.sound) ((others co start.a_old.symm start.t_old.symm).trans start.cell)
    (h₂.put_same p.S (.schedule S')) rfl table₃ (.inl rfl)
    (fun x not_a not_co not_t _ => (others x not_a not_t).trans (start.kept x not_co))
    (join_set_seat _ inside)
  refine ⟨_, runs, refines_of housed' rfl (slot_set rfl inside').symm ?_
    (cur_kept inv held vacant (join_set_seat _ inside))⟩
  rw [List.length_set, List.length_set]
  exact held.length

theorem join_append_null {α : Type} (xs : List (Option α)) (n : Nat) :
    (fun j : Nat => ((xs ++ List.replicate n none)[j]?).join) = fun j => (xs[j]?).join := by
  funext j
  rw [List.getElem?_append]
  split
  · rfl
  · next beyond =>
    rw [List.getElem?_eq_none (Nat.not_lt.mp beyond), List.getElem?_replicate]
    split <;> rfl

theorem slot_grown (inv : SlotInv m) {S' : Schedule} {C : Coroutine}
    (co : S'.co = (m.S.co ++ List.replicate m.S.cap none).set m.S.cap (some C)) :
    S'.slot = Function.update m.S.slot m.S.cap (some C) := by
  have nonempty := inv.nonempty
  have more : m.S.cap < (m.S.co ++ List.replicate m.S.cap none).length := by
    rw [List.length_append, List.length_replicate, inv.table]
    omega
  have wide := @slot_set { m.S with co := m.S.co ++ List.replicate m.S.cap none } S' m.S.cap _ co more
  rw [wide]
  congr 1
  exact join_append_null m.S.co m.S.cap

theorem new_full (inv : SlotInv m) (held : Held p m t slots owner) (full : m.S.nco ≥ m.S.cap) :
    ∃ p', p.new = some (p', m.S.cap) ∧ Refines p' { m with S := { m.S with
      co := (m.S.co ++ List.replicate m.S.cap none).set m.S.cap (some (coNew fun _ => 0))
      cap := m.S.cap * 2
      nco := m.S.nco + 1 } } := by
  have housed := held.housed
  have start := begun housed
  have apart := housed_apart housed
  have length : slots.length = m.S.cap := held.length.trans inv.table
  have more : m.S.cap < (slots ++ List.replicate m.S.cap none).length := by
    have nonempty := inv.nonempty
    rw [List.length_append, List.length_replicate]
    omega
  have vacant : m.S.slot m.S.cap = none := by
    unfold Schedule.slot
    rw [List.getElem?_eq_none (Nat.le_of_eq inv.table)]
    rfl
  let co := p.heap.fresh
  let h₁ := p.heap.coNew.2
  let t' := h₁.fresh
  let slots' := (slots ++ List.replicate m.S.cap none).set m.S.cap (some co)
  let h₂ : Blocks := (h₁.malloc (.table (slots ++ List.replicate m.S.cap none))).2
  let h₃ : Blocks := h₂.drop t
  let h₄ : Blocks := h₃.put t' (.table slots')
  let S' : Scheduler := ⟨m.S.stack, m.S.nco + 1, m.S.cap * 2, m.S.running, some t'⟩
  let h₅ : Blocks := h₄.put p.S (.schedule S')
  have free' : h₁.cells t' = none := fresh_free start.sound
  have other : ∀ {x block}, h₁.cells x = some block → x ≠ t' := by
    rintro x block live rfl
    cases free'.symm.trans live
  have a_other := other start.schedule
  have t_other := other start.table
  have table₂ : h₂.cells t = some (.table slots) := (h₁.malloc_other _ t_other).trans start.table
  have table₃ : h₃.cells t' = some (.table (slots ++ List.replicate m.S.cap none)) :=
    (h₂.drop_other t_other.symm).trans (h₁.malloc_new _)
  have off : ∀ x, x ≠ t → x ≠ t' → h₄.cells x = h₁.cells x := fun x not_t not_t' =>
    (h₃.put_other _ not_t').trans ((h₂.drop_other not_t).trans (h₁.malloc_other _ not_t'))
  have schedule₄ := (off p.S apart a_other).trans start.schedule
  have others : ∀ x, x ≠ p.S → x ≠ t → x ≠ t' → h₅.cells x = h₁.cells x :=
    fun x not_a not_t not_t' => (h₄.put_other _ not_a).trans (off x not_t not_t')
  have sound₅ : h₅.Sound := Heap.sound_put (Heap.sound_put
    (Heap.sound_drop (Heap.sound_malloc start.sound _) table₂ (start.base ▸ Nat.zero_le t))
    table₃ _) schedule₄ _
  have runs : p.new = some ({ p with heap := h₅ }, m.S.cap) := by
    have grown : h₁.growTable ⟨m.S.stack, m.S.nco, m.S.cap, m.S.running, some t⟩ =
        some (t', h₃) := by
      have tabled : h₁.table t = some slots := table_at start.table
      unfold Blocks.growTable
      simp only [Option.bind_eq_bind, Option.bind_some, tabled]
      change (h₂.free t).bind _ = _
      have freed : h₂.free t = some h₃ := free_at (show h₂.base = 0 from start.base) table₂
      rw [freed]
      rfl
    have placed : h₃.setSlot ⟨m.S.stack, m.S.nco, m.S.cap, m.S.running, some t'⟩ m.S.cap
        (some co) = some h₄ := set_slot_at rfl table₃ more _
    have written : h₄.write p.S (.schedule S') = some h₅ := Heap.write_live schedule₄ _
    unfold Program.new
    simp only [Option.bind_eq_bind, schedule_at start.schedule, Option.bind_some, if_pos full]
    change (h₁.growTable _).bind _ = _
    rw [grown, Option.bind_some]
    change (h₃.setSlot _ m.S.cap (some co)).bind _ = _
    rw [placed, Option.bind_some]
    change (h₄.write p.S (.schedule S')).bind _ = _
    rw [written, Option.bind_some]
  have seats : (fun j => (slots'[j]?).join) =
      Function.update (fun j => (slots[j]?).join) m.S.cap (some co) := by
    rw [join_set_seat _ more, join_append_null]
  have cell₅ := (others co start.a_old.symm start.t_old.symm (other start.cell)).trans start.cell
  have table₅ : h₅.cells t' = some (.table slots') :=
    (h₄.put_other _ a_other.symm).trans (h₃.put_same _ _)
  have dead₅ : h₅.cells t = none := (h₄.put_other _ apart.symm).trans
    ((h₃.put_other _ t_other).trans (h₂.drop_same t))
  have never : p.heap.cells t' = none :=
    (start.kept t' (other start.cell).symm).symm.trans free'
  have housed' := housed_new housed (fun _ => 0) vacant sound₅ start.base
    (fresh_free housed.sound) cell₅ (h₄.put_same p.S (.schedule S')) rfl table₅
    (.inr ⟨dead₅, never⟩)
    (fun x not_a not_co not_t not_t' =>
      (others x not_a not_t not_t').trans (start.kept x not_co)) seats
  refine ⟨_, runs, refines_of housed' rfl ?_ ?_ (cur_kept inv held vacant seats)⟩
  · exact (slot_grown inv rfl).symm
  · rw [List.length_set, List.length_set, List.length_append, List.length_append, held.length,
      List.length_replicate, List.length_replicate]

theorem new_held (inv : SlotInv m) (held : Held p m t slots owner) :
    ∃ p' id m', p.new = some (p', id) ∧ react m .new = some m' ∧ Refines p' m' := by
  by_cases full : m.S.nco ≥ m.S.cap
  · obtain ⟨p', runs, refines⟩ := new_full inv held full
    refine ⟨p', m.S.cap, _, runs, ?_, refines⟩
    simp only [react, coroutineNew, if_pos full, Option.map_some]
  · obtain ⟨id, found⟩ := find_slot_succeeds inv.table inv.count (Nat.lt_of_not_ge full)
    obtain ⟨p', runs, refines⟩ := new_room inv held full found
    refine ⟨p', id, _, runs, ?_, refines⟩
    simp only [react, coroutineNew, if_neg full, found, Option.map_some]

theorem write_held (held : Held p m t slots owner) (bytes : Mem UInt8) :
    ∃ p', p.scribble bytes = some p' ∧
      Refines p' { m with S := { m.S with stack := bytes } } := by
  have housed := held.housed
  let S' : Scheduler := ⟨bytes, m.S.nco, m.S.cap, m.S.running, some t⟩
  have written : p.heap.write p.S (.schedule S') = some (p.heap.put p.S (.schedule S')) :=
    Heap.write_live housed.schedule _
  have runs : p.scribble bytes = some { p with heap := p.heap.put p.S (.schedule S') } := by
    unfold Program.scribble
    simp only [Option.bind_eq_bind, schedule_at housed.schedule, Option.bind_some]
    change (p.heap.write p.S (.schedule S')).bind _ = _
    rw [written, Option.bind_some]
  exact ⟨_, runs, refines_of (housed_schedule housed S' rfl) rfl rfl held.length held.cur⟩

theorem housed_run {h : Blocks} {a i co : Nat} {S S' : Scheduler}
    {slot : Nat → Option Coroutine} {C : Coroutine} (housed : Housed h a S t slots slot owner)
    (at_i : (slots[i]?).join = some co) (here : slot i = some C) (co_at : S'.co = some t) :
    ∃ stack h₁ h₂ owner', h.cells co = some (.coroutine (taskOf C co stack)) ∧
      Mirrors h owner i C co ∧ Saved h owner i C stack ∧
      h.write a (.schedule S') = some h₁ ∧
      h₁.write co (.coroutine { taskOf C co stack with status := .RUNNING }) = some h₂ ∧
      Housed h₂ a S' t slots (Function.update slot i (some { C with status := .RUNNING }))
        owner' := by
  have mirrors := housed.seats.mirror i co C at_i here
  obtain ⟨mine, fits, inside, stack, cell, saved⟩ := mirrors
  have not_a : ∀ {x}, Small h x → x ≠ a := by
    rintro x small rfl
    exact schedule_large housed.schedule small
  let h₁ : Blocks := h.put a (.schedule S')
  have housed₁ : Housed h₁ a S' t slots slot owner := housed_schedule housed S' co_at
  have cell₁ : h₁.cells co = some (.coroutine (taskOf C co stack)) :=
    (h.put_other _ (not_a (.inl ⟨_, cell⟩))).trans cell
  have saved₁ : Saved h₁ owner i C stack := by
    cases stack with
    | none => exact saved
    | some b =>
      exact ⟨saved.1, (h.put_other _ (not_a (.inr ⟨_, _, saved.2⟩))).trans saved.2⟩
  obtain ⟨owner', housed₂⟩ := housed_status housed₁ at_i
    { C with status := .RUNNING } mine cell₁ saved₁ rfl rfl fits inside fun _ => by simp
  exact ⟨stack, h₁, _, owner', cell, ⟨mine, fits, inside, stack, cell, saved⟩, saved,
    Heap.write_live housed.schedule _, Heap.write_live cell₁ _, housed₂⟩

theorem resume_held (inv : SlotInv m) (held : Held p m t slots owner) {id : Nat}
    (idle : m.cur = none) (range : id < m.S.cap) :
    ∃ p' m', p.resume id = some p' ∧ coroutineResume m id = some m' ∧ Refines p' m' := by
  have housed := held.housed
  obtain ⟨r, control⟩ := inv.control
  cases control_idle control idle
  have ready : m.S.running = -1 ∧ id < m.S.cap := ⟨control.running, range⟩
  have inside : id < slots.length := held.length ▸ inv.table ▸ range
  have entry : p.heap.slot ⟨m.S.stack, m.S.nco, m.S.cap, m.S.running, some t⟩ id = slots[id]? :=
    slot_at rfl housed.table id
  unfold Program.resume coroutineResume
  simp only [Option.bind_eq_bind, schedule_at housed.schedule, Option.bind_some, if_pos ready,
    entry, List.getElem?_eq_getElem inside]
  cases at_id : slots[id] with
  | none =>
    have seat : (slots[id]?).join = none := by
      rw [List.getElem?_eq_getElem inside, at_id]
      rfl
    rw [(housed.seats.vacant id).mp seat]
    exact ⟨p, m, rfl, rfl, t, slots, owner, held⟩
  | some co =>
    have seat : (slots[id]?).join = some co := by
      rw [List.getElem?_eq_getElem inside, at_id]
      rfl
    obtain ⟨C, here, _⟩ := seat_filled housed.seats seat
    rw [here]
    have inside' : id < m.S.co.length := held.length ▸ inside
    have alive := inv.alive id C here
    have halted := control.status id C here
    dsimp only
    cases status : C.status with
    | DEAD => exact absurd status alive
    | RUNNING => simp [status] at halted
    | READY =>
      obtain ⟨stack, h₁, h₂, owner', cell, _, _, written, written', housed₂⟩ :=
        @housed_run t slots owner p.heap p.S id co _ ⟨m.S.stack, m.S.nco, m.S.cap, id, some t⟩
          m.S.slot C housed seat here rfl
      have task := task_at cell
      have status' : (taskOf C co stack).status = .READY := status
      have enters : Program.mainfunc { p with heap := h₂ } =
          some { p with heap := h₂, cur := some ⟨id, co⟩ } := by
        unfold Program.mainfunc
        simp only [Option.bind_eq_bind, schedule_at housed₂.schedule, Option.bind_some,
          Int.toNat_natCast, slot_at housed₂.co housed₂.table, List.getElem?_eq_getElem inside,
          at_id]
      simp only [task, Option.bind_some, status', written, written', enters]
      refine ⟨_, _, rfl, rfl, refines_of housed₂ rfl (slot_set rfl inside').symm ?_ ?_⟩
      · rw [List.length_set]
        exact held.length
      · simp only [Option.bind_some, Int.toNat_natCast, seat, Option.map_some]
    | SUSPEND =>
      obtain ⟨stack, h₁, h₂, owner', cell, mirrors, saved, written, written', housed₂⟩ :=
        @housed_run t slots owner p.heap p.S id co _
          ⟨memcpy m.S.stack (STACK_SIZE - C.size) C.stack 0 C.size, m.S.nco, m.S.cap, id, some t⟩
          m.S.slot C housed seat here rfl
      cases stack with
      | none => exact absurd status saved.2
      | some b =>
        have task := task_at cell
        have status' : (taskOf C co (some b)).status = .SUSPEND := status
        have saved' : p.heap.read b C.size = some C.stack := by
          unfold Blocks.read
          rw [saved.2]
          exact if_pos mirrors.fits
        have parked := inv.parked id C here status
        have pointer : (taskOf C co (some b)).stack = some b := rfl
        have size : (taskOf C co (some b)).size = C.size := rfl
        have running : h₁.write co (.coroutine ⟨(taskOf C co (some b)).ctx,
            (taskOf C co (some b)).cap, C.size, .RUNNING, some b⟩) = some h₂ := written'
        simp only [task, Option.bind_some, status', pointer, size, saved', if_pos mirrors.inside,
          written, running]
        refine ⟨_, _, rfl, rfl, refines_of housed₂ rfl (slot_set rfl inside').symm ?_ ?_⟩
        · rw [List.length_set]
          exact held.length
        · simp only [taskOf, parked, Option.map_some, Option.bind_some, seat]

theorem frame_seat (inv : SlotInv m) (held : Held p m t slots owner) (inside : m.cur ≠ none) :
    ∃ (id : Nat) (co : Nat) (C : Coroutine), m.S.running = id ∧ m.cur = some ⟨id⟩ ∧
      (slots[id]?).join = some co ∧ m.S.slot id = some C ∧ p.cur = some ⟨id, co⟩ := by
  obtain ⟨r, control⟩ := inv.control
  obtain ⟨id, C, _, running, context, present, _⟩ := control_inside control inside
  have seated : (slots[id]?).join ≠ none := by
    intro gone
    rw [(held.housed.seats.vacant id).mp gone] at present
    cases present
  obtain ⟨co, seat⟩ := Option.ne_none_iff_exists'.mp seated
  refine ⟨id, co, C, running, context, seat, present, ?_⟩
  rw [held.cur, context]
  simp only [Option.bind_some, seat, Option.map_some]

theorem save_cap (C : Coroutine) (shared fresh : Mem UInt8) (depth : Nat) :
    depth ≤ (saveStack C shared depth fresh).cap := by
  by_cases larger : C.cap < depth
  · rw [save_larger larger]
  · rw [save_fitting larger]
    exact Nat.not_lt.mp larger

theorem yield_held (inv : SlotInv m) (held : Held p m t slots owner) (inside : m.cur ≠ none)
    {depth : Nat} (positive : 0 < depth) (shallow : depth ≤ STACK_SIZE) (fresh : Mem UInt8) :
    ∃ p' m', p.yield depth fresh = some p' ∧ coroutineYield m depth fresh = some m' ∧
      Refines p' m' := by
  have housed := held.housed
  obtain ⟨id, co, C, running, context, seat, here, cur⟩ := frame_seat inv held inside
  have bound : id < slots.length :=
    (List.getElem?_eq_some_iff.mp (Option.join_eq_some_iff.mp seat)).1
  have bound' : id < m.S.co.length := held.length ▸ bound
  obtain ⟨h₁, owner₁, saved, housed₁⟩ :=
    housed_save housed seat here m.S.stack fresh positive shallow
  have here₁ : Function.update m.S.slot id (some (saveStack C m.S.stack depth fresh)) id =
      some (saveStack C m.S.stack depth fresh) := Function.update_self _ _ _
  obtain ⟨mine₁, fits₁, inside₁, stack₁, cell₁, saved₁⟩ :=
    housed₁.seats.mirror id co _ seat here₁
  let C' : Coroutine :=
    { saveStack C m.S.stack depth fresh with status := .SUSPEND, ctx := some ⟨id⟩ }
  have held_stack : stack₁ = none → C'.status ≠ .SUSPEND := by
    rintro rfl
    have room := save_cap C m.S.stack fresh depth
    have empty := saved₁.1
    omega
  obtain ⟨owner₂, housed₂⟩ :=
    housed_status housed₁ seat C' mine₁ cell₁ saved₁ rfl rfl fits₁ inside₁ held_stack
  let h₂ : Blocks := h₁.put co (.coroutine (taskOf C' co stack₁))
  let S' : Scheduler := ⟨m.S.stack, m.S.nco, m.S.cap, -1, some t⟩
  have running' : m.S.running ≥ 0 ∧ depth ≤ STACK_SIZE := ⟨by omega, shallow⟩
  have here' : m.S.running.toNat = id := by
    rw [running]
    exact Int.toNat_natCast id
  have runs : p.yield depth fresh =
      some { p with heap := h₂.put p.S (.schedule S'), cur := none } := by
    have entry : p.heap.slot ⟨m.S.stack, m.S.nco, m.S.cap, m.S.running, some t⟩ id =
        some (some co) :=
      (slot_at rfl housed.table id).trans (Option.join_eq_some_iff.mp seat)
    have written : h₁.write co (.coroutine (taskOf C' co stack₁)) = some h₂ :=
      Heap.write_live cell₁ _
    have written' : h₂.write p.S (.schedule S') = some (h₂.put p.S (.schedule S')) :=
      Heap.write_live housed₂.schedule _
    unfold Program.yield
    simp only [Option.bind_eq_bind, schedule_at housed.schedule, Option.bind_some,
      if_pos running', here', entry, saved, task_at cell₁, cur]
    change (h₁.write co (.coroutine (taskOf C' co stack₁))).bind _ = _
    rw [written, Option.bind_some]
    change (h₂.write p.S (.schedule S')).bind _ = _
    rw [written', Option.bind_some]
  have yields : coroutineYield m depth fresh = some ⟨⟨m.S.stack, m.S.nco, m.S.cap, -1,
      m.S.co.set id (some C')⟩, none, fun i =>
        if i = id then slice m.S.stack (STACK_SIZE - depth) depth else m.yielded i⟩ := by
    unfold coroutineYield
    simp only [if_pos running', here', here, context, C']
  refine ⟨_, _, runs, yields, refines_of (housed_schedule housed₂ S' rfl) rfl ?_ ?_ rfl⟩
  · rw [Function.update_idem]
    exact (slot_set rfl bound').symm
  · rw [List.length_set]
    exact held.length

theorem finish_held (inv : SlotInv m) (held : Held p m t slots owner) {frame : Frame}
    (inside : m.cur = some frame) :
    ∃ p', p.finish = some p' ∧ Refines p' (mainfuncReturn m frame) := by
  have housed := held.housed
  obtain ⟨id, co, C, running, context, seat, here, cur⟩ :=
    frame_seat inv held (by simp [inside])
  cases inside.symm.trans context
  have bound : id < slots.length :=
    (List.getElem?_eq_some_iff.mp (Option.join_eq_some_iff.mp seat)).1
  have bound' : id < m.S.co.length := held.length ▸ bound
  obtain ⟨h₁, h₂, deleted, schedule₁, cleared, housed₂⟩ := housed_delete housed seat here
  let S' : Scheduler := ⟨m.S.stack, m.S.nco - 1, m.S.cap, -1, some t⟩
  have written : h₂.write p.S (.schedule S') = some (h₂.put p.S (.schedule S')) :=
    Heap.write_live housed₂.schedule _
  have runs : p.finish = some { p with heap := h₂.put p.S (.schedule S'), cur := none } := by
    unfold Program.finish
    simp only [Option.bind_eq_bind, cur, Option.bind_some, deleted, schedule_at schedule₁, cleared]
    change (h₂.write p.S (.schedule S')).bind _ = _
    rw [written, Option.bind_some]
  refine ⟨_, runs, refines_of (housed_schedule housed₂ S' rfl) rfl
    (slot_set rfl bound').symm ?_ rfl⟩
  rw [List.length_set]
  exact held.length.trans (List.length_set ..).symm

theorem perform_held (inv : SlotInv m) (held : Held p m t slots owner) {ev : Event}
    (legal : ev.Legal p) :
    ∃ p' m', perform p ev = some p' ∧ react m ev = some m' ∧ SlotInv m' ∧ Refines p' m' := by
  have inside : p.cur ≠ none → m.cur ≠ none := by
    intro executing idle
    rw [held.cur, idle] at executing
    exact executing rfl
  cases ev with
  | new =>
    obtain ⟨p', id, m', runs, reacts, refines⟩ := new_held inv held
    obtain ⟨⟨S, id'⟩, made, same⟩ := Option.map_eq_some_iff.mp reacts
    cases same
    refine ⟨p', _, ?_, reacts, inv_new inv made, refines⟩
    simp only [perform, runs, Option.map_some]
  | resume id =>
    obtain ⟨idle, S, at_S, range⟩ := legal
    have idle' : m.cur = none := by
      by_contra executing
      obtain ⟨id, co, C, _, _, _, _, cur⟩ := frame_seat inv held executing
      rw [cur] at idle
      cases idle
    cases at_S.symm.trans (schedule_at held.housed.schedule)
    obtain ⟨p', m', runs, reacts, refines⟩ := resume_held inv held idle' range
    exact ⟨p', m', runs, reacts, inv_resume inv idle' reacts, refines⟩
  | write bytes =>
    obtain ⟨p', runs, refines⟩ := write_held held bytes
    obtain ⟨r, control⟩ := inv.control
    refine ⟨p', _, runs, rfl, ?_, refines⟩
    exact ⟨inv.table, inv.nonempty, inv.count, inv.alive, inv.parked, r,
      control.running, control.context, control.present, control.status⟩
  | yield depth fresh =>
    obtain ⟨executing, positive, shallow⟩ := legal
    obtain ⟨p', m', runs, reacts, refines⟩ :=
      yield_held inv held (inside executing) positive shallow fresh
    exact ⟨p', m', runs, reacts, inv_yield inv (inside executing) reacts, refines⟩
  | ret =>
    obtain ⟨frame, at_frame⟩ := Option.ne_none_iff_exists'.mp (inside legal)
    obtain ⟨p', runs, refines⟩ := finish_held inv held at_frame
    refine ⟨p', _, runs, ?_, inv_return inv at_frame, refines⟩
    simp only [react, at_frame, Option.map_some]

theorem start_cells (stack : Mem UInt8) (x : Nat) :
    (Program.start stack).heap.cells x =
      if x = 0 then some (.schedule ⟨stack, 0, DEFAULT_COROUTINE, -1, some 1⟩)
      else if x = 1 then some (.table (List.replicate DEFAULT_COROUTINE none)) else none := by
  unfold Program.start Heap.malloc Heap.put
  dsimp only
  rcases x with _ | _ | x
  · rfl
  · rfl
  · rfl

theorem start_held (stack : Mem UInt8) : Refines (Program.start stack) (start stack) := by
  have cells := start_cells stack
  have null : ∀ {α : Type} (i : Nat),
      ((List.replicate DEFAULT_COROUTINE (none : Option α))[i]?).join = none := by
    intro α i
    rw [List.getElem?_replicate]
    split <;> rfl
  have bare : ∀ x, ¬ Small (Program.start stack).heap x := by
    intro x small
    unfold Small at small
    rw [cells] at small
    split at small
    · simp at small
    · split at small <;> simp at small
  let empty : Blocks := ⟨0, fun _ => none, 0, []⟩
  have sound : (Program.start stack).heap.Sound := by
    have clear : empty.Sound := Heap.sound_start fun a => by simp
    have first := Heap.sound_malloc clear (.schedule ⟨stack, 0, DEFAULT_COROUTINE, -1, none⟩)
    have second := Heap.sound_malloc first (.table (List.replicate DEFAULT_COROUTINE none))
    exact Heap.sound_put second
      (show _ = some (.schedule ⟨stack, 0, DEFAULT_COROUTINE, -1, none⟩) from rfl) _
  refine ⟨1, List.replicate DEFAULT_COROUTINE none, fun _ => none, ⟨sound, rfl, ?_, rfl, ?_,
    ⟨?_, ?_, ?_⟩, ?_⟩, rfl, rfl⟩
  · exact cells 0
  · exact cells 1
  · intro i
    exact iff_of_true (null i) (null i)
  · intro i co C at_i
    cases (null i).symm.trans at_i
  · intro x small
    exact absurd small (bare x)
  · intro x live
    rw [cells] at live
    by_cases first : x = 0
    · exact .inl first
    · by_cases second : x = 1
      · exact .inr (.inl second)
      · rw [if_neg first, if_neg second] at live
        exact absurd rfl live

theorem play_held (inv : SlotInv m) (refines : Refines p m) (events : List Event)
    (lawful : Histories.Lawful perform Event.Legal events p) :
    ∃ p' m', Histories.play perform events p = some p' ∧ Histories.play react events m = some m' ∧
      SlotInv m' ∧ Refines p' m' := by
  induction events generalizing p m with
  | nil => exact ⟨p, m, rfl, rfl, inv, refines⟩
  | cons ev rest ih =>
    obtain ⟨t, slots, owner, held⟩ := refines
    have legal := lawful [] ev p (List.prefix_iff_eq_append.mpr rfl) rfl
    obtain ⟨p', m', runs, reacts, inv', refines'⟩ := perform_held inv held legal
    rw [Histories.play_cons runs, Histories.play_cons reacts]
    exact ih inv' refines' ((Histories.lawful_cons runs).mp lawful).2

theorem status_held (held : Held p m t slots owner) (inv : SlotInv m) {id : Nat}
    (range : id < m.S.cap) :
    p.status id = some ((m.S.slot id).elim .DEAD Coroutine.status) := by
  have housed := held.housed
  have inside : id < slots.length := held.length ▸ inv.table ▸ range
  have entry : p.heap.slot ⟨m.S.stack, m.S.nco, m.S.cap, m.S.running, some t⟩ id = slots[id]? :=
    slot_at rfl housed.table id
  unfold Program.status
  simp only [Option.bind_eq_bind, schedule_at housed.schedule, Option.bind_some, if_pos range,
    entry, List.getElem?_eq_getElem inside]
  have seat : (slots[id]?).join = slots[id] := by
    rw [List.getElem?_eq_getElem inside]
    rfl
  cases at_id : slots[id] with
  | none =>
    rw [(housed.seats.vacant id).mp (seat.trans at_id)]
    rfl
  | some co =>
    obtain ⟨C, here, mirrors⟩ := seat_filled housed.seats (seat.trans at_id)
    obtain ⟨stack, cell, _⟩ := mirrors.task
    rw [here]
    simp only [task_at cell, Option.map_some, Option.elim_some]
    rfl

end Held

section Close

/-- The first n slots are closed. -/
def closed {α : Type} (n : Nat) (slot : Nat → Option α) (j : Nat) : Option α :=
  if j < n then none else slot j

theorem closed_succ {α : Type} (n : Nat) (slot : Nat → Option α) :
    closed (n + 1) slot = Function.update (closed n slot) n none := by
  funext j
  unfold closed
  by_cases here : j = n
  · subst here
    rw [if_pos (Nat.lt_succ_self j), Function.update_self]
  · rw [Function.update_of_ne here]
    by_cases before : j < n
    · rw [if_pos before, if_pos (by omega)]
    · rw [if_neg before, if_neg (by omega)]

structure Closing (h : Blocks) (a : Nat) (S : Scheduler) (t : Nat) (slots : List (Option Nat))
    (slot : Nat → Option Coroutine) (owner : Nat → Option Nat) (n : Nat) : Prop where
  sound : h.Sound
  base : h.base = 0
  schedule : h.cells a = some (.schedule S)
  table : h.cells t = some (.table slots)
  seats : Seats h (closed n slot) (closed n fun i => (slots[i]?).join) owner
  only : ∀ x, h.cells x ≠ none → x = a ∨ x = t ∨ Small h x

variable {h : Blocks} {a t n : Nat} {S : Scheduler} {slots : List (Option Nat)}
  {slot : Nat → Option Coroutine} {owner : Nat → Option Nat}

theorem close_slot (co_at : S.co = some t) (closing : Closing h a S t slots slot owner n)
    (inside : n < slots.length) :
    ∃ h', Program.closeSlot S h n = some h' ∧ Closing h' a S t slots slot owner (n + 1) := by
  have entry := slot_at co_at closing.table n
  have seat : closed n (fun i => (slots[i]?).join) n = slots[n] := by
    unfold closed
    rw [if_neg (Nat.lt_irrefl n)]
    dsimp only
    rw [List.getElem?_eq_getElem inside]
    rfl
  have seats := closing.seats
  unfold Program.closeSlot
  simp only [Option.bind_eq_bind, entry, List.getElem?_eq_getElem inside, Option.bind_some]
  cases at_n : slots[n] with
  | none =>
    have gone := seat.trans at_n
    have gone' := (seats.vacant n).mp gone
    have same : closed (n + 1) slot = closed n slot := by
      rw [closed_succ, ← gone', Function.update_eq_self]
    have same' : closed (n + 1) (fun i => (slots[i]?).join) =
        closed n fun i => (slots[i]?).join := by
      rw [closed_succ, ← gone, Function.update_eq_self]
    exact ⟨h, rfl, closing.sound, closing.base, closing.schedule, closing.table,
      same.symm ▸ same'.symm ▸ seats, closing.only⟩
  | some co =>
    obtain ⟨C, here, _⟩ := seat_filled seats (seat.trans at_n)
    obtain ⟨h₁, runs, deleted, seats₁⟩ :=
      delete_at closing.sound closing.base seats (seat.trans at_n) here
    rw [← closed_succ, ← closed_succ] at seats₁
    refine ⟨h₁, runs, deleted.sound, deleted.base,
      (deleted.large a (schedule_large closing.schedule)).trans closing.schedule,
      (deleted.large t (table_large closing.table)).trans closing.table, seats₁, ?_⟩
    intro x live
    have cells := deleted.left x live
    rw [cells] at live
    exact (closing.only x live).imp_right (Or.imp_right (small_cells cells).mpr)

theorem close_slots (co_at : S.co = some t) (closing : Closing h a S t slots slot owner 0)
    (inside : n ≤ slots.length) :
    ∃ h', (List.range n).foldlM (Program.closeSlot S) h = some h' ∧
      Closing h' a S t slots slot owner n := by
  induction n with
  | zero => exact ⟨h, rfl, closing⟩
  | succ n ih =>
    obtain ⟨h₁, runs, closing₁⟩ := ih (Nat.le_of_succ_le inside)
    obtain ⟨h₂, runs₂, closing₂⟩ := close_slot co_at closing₁ inside
    refine ⟨h₂, ?_, closing₂⟩
    rw [List.range_succ, List.foldlM_append, runs]
    simp only [Option.bind_eq_bind, Option.bind_some, List.foldlM_cons, List.foldlM_nil, runs₂]
    rfl

theorem close_held {p : Program} {m : Machine} (inv : SlotInv m)
    (held : Held p m t slots owner) :
    ∃ h, p.close = some h ∧ h.Sound ∧ h.base = 0 ∧ ∀ x, h.cells x = none := by
  have housed := held.housed
  have length : slots.length = m.S.cap := held.length.trans inv.table
  have apart := housed_apart housed
  have begun : Closing p.heap p.S ⟨m.S.stack, m.S.nco, m.S.cap, m.S.running, some t⟩ t slots
      m.S.slot owner 0 :=
    ⟨housed.sound, housed.base, housed.schedule, housed.table, housed.seats, housed.only⟩
  obtain ⟨h₁, runs, closing⟩ := close_slots rfl begun (Nat.le_of_eq length.symm)
  have bare : ∀ x, ¬ Small h₁ x := by
    intro x small
    obtain ⟨i, co, _, at_i, _⟩ := closing.seats.owned x small
    unfold closed at at_i
    split at at_i
    · cases at_i
    · next beyond =>
      dsimp only at at_i
      rw [List.getElem?_eq_none (by omega)] at at_i
      cases at_i
  let h₂ : Blocks := h₁.drop t
  have schedule₂ := (h₁.drop_other apart).trans closing.schedule
  let S' : Scheduler := ⟨m.S.stack, m.S.nco, m.S.cap, m.S.running, none⟩
  let h₃ : Blocks := h₂.put p.S (.schedule S')
  have schedule₃ : h₃.cells p.S = some (.schedule S') := h₂.put_same _ _
  let h₄ : Blocks := h₃.drop p.S
  have sound₂ : h₂.Sound :=
    Heap.sound_drop closing.sound closing.table (closing.base ▸ Nat.zero_le t)
  have sound₃ : h₃.Sound := Heap.sound_put sound₂ schedule₂ _
  have base₃ : h₃.base = 0 := closing.base
  refine ⟨h₄, ?_, Heap.sound_drop sound₃ schedule₃ (base₃ ▸ Nat.zero_le p.S), base₃, ?_⟩
  · have released : h₁.release (some t) = some h₂ := free_at closing.base closing.table
    have written : h₂.write p.S (.schedule S') = some h₃ := Heap.write_live schedule₂ _
    have freed : h₃.free p.S = some h₄ := free_at base₃ schedule₃
    unfold Program.close
    simp only [Option.bind_eq_bind, schedule_at housed.schedule, Option.bind_some]
    rw [runs, Option.bind_some, released, Option.bind_some]
    change (h₂.write p.S (.schedule S')).bind _ = _
    rw [written, Option.bind_some]
    exact freed
  · intro x
    by_cases at_a : x = p.S
    · rw [at_a]
      exact h₃.drop_same p.S
    · have cells : h₄.cells x = h₂.cells x :=
        (h₃.drop_other at_a).trans (h₂.put_other _ at_a)
      rw [cells]
      by_cases at_t : x = t
      · rw [at_t]
        exact h₁.drop_same t
      · rw [show h₂.cells x = h₁.cells x from h₁.drop_other at_t]
        by_contra live
        rcases closing.only x live with here | here | small
        · exact at_a here
        · exact at_t here
        · exact bare x small

end Close

/-- Every lawful history is carried out, and as by the scheduler without pointers. At its end
    coroutine_close gives back every block that was taken, once. -/
theorem every_block_is_freed_once (stack : Mem UInt8) (events : List Event)
    (lawful : Histories.Lawful perform Event.Legal events (Program.start stack)) :
    ∃ p m, Histories.play perform events (Program.start stack) = some p ∧
      Histories.play react events (start stack) = some m ∧
      p.running = some m.S.running ∧
      (p.heap.schedule p.S).map Scheduler.stack = some m.S.stack ∧
      (∀ id, id < m.S.cap → p.status id = some ((m.S.slot id).elim .DEAD Coroutine.status)) ∧
      (p.cur = none → ∃ h, p.close = some h ∧ (∀ x, h.cells x = none) ∧
        h.freed.Perm (List.range h.fresh)) := by
  obtain ⟨p, m, runs, reacts, inv, t, slots, owner, held⟩ :=
    play_held (inv_start stack) (start_held stack) events lawful
  have schedule := schedule_at held.housed.schedule
  refine ⟨p, m, runs, reacts, ?_, ?_, fun id range => status_held held inv range, ?_⟩
  · unfold Program.running
    rw [schedule]
    rfl
  · rw [schedule]
    rfl
  · intro _
    obtain ⟨h, closes, sound, base, gone⟩ := close_held inv held
    have freed := Heap.all_freed sound fun x _ => gone x
    rw [base, Nat.sub_zero, ← List.range_eq_range'] at freed
    exact ⟨h, closes, gone, freed⟩

/-- One coroutine has returned, and one is closed with its stack saved. -/
theorem saved_stack_is_freed :
    ∃ p h, Histories.play perform [.new, .new, .resume 0, .write Nat.toUInt8, .yield 2 fun _ => 0,
        .resume 1, .ret, .resume 0, .yield 40 fun _ => 0] (Program.start fun _ => 0) = some p ∧
      p.close = some h ∧ h.freed.Perm (List.range h.fresh) := by
  have lawful : Histories.Lawful perform Event.Legal
      [.new, .new, .resume 0, .write Nat.toUInt8, .yield 2 fun _ => 0, .resume 1, .ret, .resume 0,
        .yield 40 fun _ => 0] (Program.start fun _ => 0) := by decide +kernel
  obtain ⟨p, m, runs, _, _, _, _, frees⟩ := every_block_is_freed_once _ _ lawful
  have idle : (Histories.play perform [.new, .new, .resume 0, .write Nat.toUInt8,
      .yield 2 fun _ => 0, .resume 1, .ret, .resume 0, .yield 40 fun _ => 0]
      (Program.start fun _ => 0)).bind Program.cur = none := rfl
  rw [runs] at idle
  obtain ⟨h, closes, _, freed⟩ := frees idle
  exact ⟨p, h, runs, closes, freed⟩

end UC.Coroutines
