import Mathlib.Data.List.Range
import UC.BoundedStore.Model

/- The store never under- or overflows, and some thread that is not done can always go on:
   one blocked on full has seen eight characters, and one blocked on empty none. -/
namespace UC.BoundedStore
open UC.Histories State

structure Sound (s : State) : Prop where
  bound : 0 ≤ s.size ∧ s.size ≤ 8
  indices : ∀ i ∈ s.indices, 0 ≤ i ∧ i ≤ 7
  kept : s.pushed.Perm (s.popped ++ s.contents)
  live : ¬ s.Deadlocked

/-- Why a thread is blocked, and that it will not do what it does not wait for. -/
structure Thread.Waits (size : Int) (t : Thread) : Prop where
  full : t.blocked = some .full → size = 8 ∧ t.pops = 0
  empty : t.blocked = some .empty → size = 0 ∧ t.pushes = 0

def total (amount : Thread → Nat) (threads : List Thread) : Nat := (threads.map amount).sum

structure Inv (s : State) : Prop where
  bound : 0 ≤ s.size ∧ s.size ≤ 8
  indices : ∀ i ∈ s.indices, 0 ≤ i ∧ i ≤ 7
  kept : s.pushed.Perm (s.popped ++ s.contents)
  waits : ∀ t ∈ s.threads, t.Waits s.size
  balance : s.size + total Thread.pushes s.threads = total Thread.pops s.threads

inductive Outcome (s : State) : State → Prop
  | full (i c left) (here : s.threads[i]? = some ⟨.producer (c :: left), none⟩)
      (eight : s.size = 8) :
      Outcome s (s.pthread_cond_wait .full i (.producer (c :: left)))
  | pushed (i c left) (here : s.threads[i]? = some ⟨.producer (c :: left), none⟩)
      (room : s.size ≠ 8) :
      Outcome s { s with
        store := Function.update s.store s.size c
        size := s.size + 1
        threads := (s.threads.map (Thread.broadcast .empty)).set i ⟨.producer left, none⟩
        pushed := s.pushed ++ [c]
        indices := s.indices ++ [s.size] ++ (List.range (s.size + 1).toNat).map Int.ofNat }
  | empty (i left) (here : s.threads[i]? = some ⟨.customer (left + 1), none⟩)
      (nothing : s.size = 0) :
      Outcome s (s.pthread_cond_wait .empty i (.customer (left + 1)))
  | popped (i left) (here : s.threads[i]? = some ⟨.customer (left + 1), none⟩)
      (some : s.size ≠ 0) :
      Outcome s { s with
        size := s.size - 1
        threads := (s.threads.map (Thread.broadcast .full)).set i ⟨.customer left, none⟩
        popped := s.popped ++ [s.store (s.size - 1)]
        indices := s.indices ++ [s.size - 1] ++ (List.range (s.size - 1).toNat).map Int.ofNat }
  | woken (i routine cond) (here : s.threads[i]? = some ⟨routine, some cond⟩) :
      Outcome s { s with threads := s.threads.set i ⟨routine, none⟩ }

theorem step_outcome {s t : State} {ev : Event} (taken : step s ev = some t) : Outcome s t := by
  cases ev with
  | region i =>
    unfold step at taken
    dsimp only at taken
    split at taken
    · rename_i c left here
      have same := Option.some.inj taken
      unfold State.producer at same
      split at same
      · rename_i eight
        exact same ▸ .full i c left here eight
      · rename_i room
        exact same ▸ .pushed i c left here room
    · rename_i left here
      have same := Option.some.inj taken
      unfold State.customer at same
      split at same
      · rename_i nothing
        exact same ▸ .empty i left here nothing
      · rename_i filled
        exact same ▸ .popped i left here filled
    · exact absurd taken (by simp)
  | wake i =>
    unfold step at taken
    dsimp only at taken
    split at taken
    · rename_i routine cond here
      exact Option.some.inj taken ▸ .woken i routine cond here
    · exact absurd taken (by simp)

section Threads

variable {threads : List Thread} {i : Nat} {t u : Thread} {size : Int} {cond : Cond}

theorem total_set (amount : Thread → Nat) (here : threads[i]? = some t) (u : Thread) :
    total amount (threads.set i u) + amount t = total amount threads + amount u := by
  induction threads generalizing i with
  | nil => simp at here
  | cons first rest ih =>
    cases i with
    | zero =>
      have same : first = t := by simpa using here
      simp only [total, List.set_cons_zero, List.map_cons, List.sum_cons, same]
      omega
    | succ i =>
      have later := ih (by simpa using here)
      simp only [total, List.set_cons_succ, List.map_cons, List.sum_cons] at later ⊢
      omega

theorem balance_set {size' : Int} (here : threads[i]? = some t) (u : Thread)
    (balance : size + total Thread.pushes threads = total Thread.pops threads)
    (moved : size' + u.pushes + t.pops = size + t.pushes + u.pops) :
    size' + total Thread.pushes (threads.set i u) = total Thread.pops (threads.set i u) := by
  have pushes := total_set Thread.pushes here u
  have pops := total_set Thread.pops here u
  omega

@[simp] theorem pushes_broadcast : (t.broadcast cond).pushes = t.pushes := by
  unfold Thread.broadcast
  split <;> rfl

@[simp] theorem pops_broadcast : (t.broadcast cond).pops = t.pops := by
  unfold Thread.broadcast
  split <;> rfl

@[simp] theorem total_pushes_broadcast :
    total Thread.pushes (threads.map (Thread.broadcast cond)) = total Thread.pushes threads := by
  simp [total, Function.comp_def]

@[simp] theorem total_pops_broadcast :
    total Thread.pops (threads.map (Thread.broadcast cond)) = total Thread.pops threads := by
  simp [total, Function.comp_def]

theorem broadcast_at (here : threads[i]? = some t) (ready : t.blocked = none) :
    (threads.map (Thread.broadcast cond))[i]? = some t := by
  simp [here, Thread.broadcast, ready]

/-- A broadcast wakes all threads when none waits for the other condition. -/
theorem broadcast_ready (only : ∀ other, t.blocked = some other → other = cond) :
    (t.broadcast cond).blocked = none := by
  unfold Thread.broadcast
  cases waits : t.blocked with
  | none => simp [waits]
  | some other =>
    have same := only other waits
    simp [same]

theorem waits_ready (ready : t.blocked = none) : t.Waits size := by
  constructor
  · intro blocked
    simp [ready] at blocked
  · intro blocked
    simp [ready] at blocked

theorem waits_set (waits : ∀ v ∈ threads, v.Waits size) (here : u.Waits size) :
    ∀ v ∈ threads.set i u, v.Waits size := by
  intro v inside
  cases List.mem_or_eq_of_mem_set inside with
  | inl old => exact waits v old
  | inr new => exact new ▸ here

theorem waits_broadcast (only : ∀ v ∈ threads, ∀ other, v.blocked = some other → other = cond) :
    ∀ v ∈ threads.map (Thread.broadcast cond), v.Waits size := by
  intro v inside
  obtain ⟨old, member, same⟩ := List.mem_map.mp inside
  exact same ▸ waits_ready (broadcast_ready (only old member))

theorem total_zero_iff {amount : Thread → Nat} :
    total amount threads = 0 ↔ ∀ t ∈ threads, amount t = 0 := by
  simp [total, List.sum_eq_zero_iff_forall_eq_nat]

end Threads

section Contents

variable {s : State}

theorem contents_pushed (bound : 0 ≤ s.size) (c : UInt8) :
    { s with store := Function.update s.store s.size c, size := s.size + 1 }.contents =
      s.contents ++ [c] := by
  obtain ⟨n, size⟩ := Int.eq_ofNat_of_zero_le bound
  have next : (s.size + 1).toNat = n + 1 := by omega
  have now : s.size.toNat = n := by omega
  simp only [contents, next, now, List.range_succ, List.map_append, List.map_cons, List.map_nil]
  congr 1
  · apply List.map_congr_left
    intro i inside
    have below : (i : Int) ≠ s.size := by
      have := List.mem_range.mp inside
      omega
    exact Function.update_of_ne below c s.store
  · rw [size]
    simp

theorem contents_popped (bound : 0 ≤ s.size) (filled : s.size ≠ 0) :
    s.contents = { s with size := s.size - 1 }.contents ++ [s.store (s.size - 1)] := by
  obtain ⟨n, size⟩ := Int.eq_ofNat_of_zero_le (show 0 ≤ s.size - 1 by omega)
  have before : s.size.toNat = n + 1 := by omega
  have now : (s.size - 1).toNat = n := by omega
  simp only [contents, before, now, List.range_succ, List.map_append, List.map_cons,
    List.map_nil]
  rw [size]

end Contents

theorem indices_kept {old : List Int} {index size : Int} (inside : ∀ i ∈ old, 0 ≤ i ∧ i ≤ 7)
    (here : 0 ≤ index ∧ index ≤ 7) (bound : size ≤ 8) :
    ∀ i ∈ old ++ [index] ++ (List.range size.toNat).map Int.ofNat, 0 ≤ i ∧ i ≤ 7 := by
  intro i member
  simp only [List.mem_append, List.mem_singleton, List.mem_map, List.mem_range] at member
  cases member with
  | inl old =>
    cases old with
    | inl old => exact inside i old
    | inr new => exact new ▸ here
  | inr printed =>
    obtain ⟨n, below, same⟩ := printed
    rw [← same]
    simp only [Int.ofNat_eq_natCast]
    omega

theorem outcome_inv {s t : State} (inv : Inv s) (outcome : Outcome s t) : Inv t := by
  obtain ⟨⟨low, high⟩, indices, kept, waits, balance⟩ := inv
  cases outcome with
  | full i c left here eight =>
    refine ⟨⟨low, high⟩, indices, kept, waits_set waits ⟨?_, ?_⟩, balance_set here _ balance rfl⟩
    · intro _
      exact ⟨eight, rfl⟩
    · intro blocked
      simp at blocked
  | pushed i c left here room =>
    constructor
    · exact ⟨by dsimp only; omega, by dsimp only; omega⟩
    · exact indices_kept indices (by omega) (by omega)
    · have more := kept.append_right [c]
      rw [List.append_assoc, ← contents_pushed low c] at more
      exact more
    · apply waits_set
      · apply waits_broadcast
        intro v member other blocked
        cases other with
        | empty => rfl
        | full => exact absurd ((waits v member).full blocked).1 room
      · exact waits_ready rfl
    · apply balance_set (broadcast_at here rfl) _ (by simpa using balance)
      simp only [Thread.pushes, Thread.pops, List.length_cons]
      omega
  | empty i left here nothing =>
    refine ⟨⟨low, high⟩, indices, kept, waits_set waits ⟨?_, ?_⟩, balance_set here _ balance rfl⟩
    · intro blocked
      simp at blocked
    · intro _
      exact ⟨nothing, rfl⟩
  | popped i left here filled =>
    constructor
    · exact ⟨by dsimp only; omega, by dsimp only; omega⟩
    · exact indices_kept indices (by omega) (by omega)
    · rw [contents_popped low filled] at kept
      have moved (rest : List UInt8) (c : UInt8) :
          (s.popped ++ (rest ++ [c])).Perm (s.popped ++ [c] ++ rest) := by
        rw [List.append_assoc]
        exact List.perm_append_comm.append_left s.popped
      exact kept.trans (moved _ _)
    · apply waits_set
      · apply waits_broadcast
        intro v member other blocked
        cases other with
        | empty => exact absurd ((waits v member).empty blocked).1 filled
        | full => rfl
      · exact waits_ready rfl
    · apply balance_set (broadcast_at here rfl) _ (by simpa using balance)
      simp only [Thread.pushes, Thread.pops]
      omega
  | woken i routine cond here =>
    exact ⟨⟨low, high⟩, indices, kept, waits_set waits (waits_ready rfl),
      balance_set here _ balance rfl⟩

/-- Were all blocked, then by one condition only, and the other side would have work left. -/
theorem inv_live {s : State} (inv : Inv s) : ¬ s.Deadlocked := by
  obtain ⟨_, _, _, waits, balance⟩ := inv
  rintro ⟨⟨t, member, busy⟩, blocked⟩
  obtain ⟨cond, here⟩ := Option.isSome_iff_exists.mp (blocked t member busy)
  cases cond with
  | full =>
    have eight := ((waits t member).full here).1
    have nothing : total Thread.pops s.threads = 0 := by
      apply total_zero_iff.mpr
      intro v among
      by_contra left
      obtain ⟨other, there⟩ := Option.isSome_iff_exists.mp (blocked v among fun done => left done.2)
      cases other with
      | full => exact left ((waits v among).full there).2
      | empty =>
        have zero := ((waits v among).empty there).1
        omega
    omega
  | empty =>
    have zero := ((waits t member).empty here).1
    have nothing : total Thread.pushes s.threads = 0 := by
      apply total_zero_iff.mpr
      intro v among
      by_contra left
      obtain ⟨other, there⟩ := Option.isSome_iff_exists.mp (blocked v among fun done => left done.1)
      cases other with
      | full =>
        have eight := ((waits v among).full there).1
        omega
      | empty => exact left ((waits v among).empty there).2
    have done : total Thread.pops s.threads = 0 := by omega
    exact busy ⟨total_zero_iff.mp nothing t member, total_zero_iff.mp done t member⟩

theorem start_inv {producers : List (List UInt8)} {customers : List Nat}
    (totals : (producers.map List.length).sum = customers.sum) :
    Inv (start producers customers) := by
  constructor
  · exact ⟨by simp [start], by simp [start]⟩
  · intro i member
    exact absurd member List.not_mem_nil
  · exact List.Perm.refl _
  · intro t member
    apply waits_ready
    cases List.mem_append.mp member with
    | inl producer =>
      obtain ⟨left, _, same⟩ := List.mem_map.mp producer
      exact same ▸ rfl
    | inr customer =>
      obtain ⟨left, _, same⟩ := List.mem_map.mp customer
      exact same ▸ rfl
  · simp [start, total, Function.comp_def, Thread.pushes, Thread.pops, totals]

theorem always_inv {producers : List (List UInt8)} {customers : List Nat}
    (totals : (producers.map List.length).sum = customers.sum) (history : List Event) :
    Always step Inv history (start producers customers) := by
  apply @always_invariant _ _ step Inv
  · intro s inv
    exact inv
  · intro s ev t inv taken
    exact outcome_inv inv (step_outcome taken)
  · exact start_inv totals

/-- In each run of any producers that push as many characters as the customers pop. -/
theorem store_is_sound (producers : List (List UInt8)) (customers : List Nat)
    (totals : (producers.map List.length).sum = customers.sum) (history : List Event) :
    Always step Sound history (start producers customers) := by
  intro earlier s inside run
  have inv := always_inv totals history earlier s inside run
  exact ⟨inv.bound, inv.indices, inv.kept, inv_live inv⟩

/-- The program's threads: the customer is blocked, and woken by the first letter. -/
theorem letters_are_sound :
    (play step [.region 2, .region 0, .region 2] main).map State.popped = some [65] ∧
      Always step Sound [.region 2, .region 0, .region 2] main :=
  ⟨by decide, store_is_sound [letters, letters] [52] (by decide) _⟩

theorem unblocked_steps {s : State} {t : Thread} (member : t ∈ s.threads) (busy : ¬ t.Finished)
    (ready : t.blocked = none) : ∃ i, (step s (.region i)).isSome := by
  obtain ⟨i, here⟩ := List.mem_iff_getElem?.mp member
  exists i
  obtain ⟨routine, blocked⟩ := t
  subst ready
  cases routine with
  | producer left =>
    cases left with
    | nil => exact absurd ⟨rfl, rfl⟩ busy
    | cons c left => simp [step, here]
  | customer left =>
    cases left with
    | zero => exact absurd ⟨rfl, rfl⟩ busy
    | succ left => simp [step, here]

/-- A run that cannot go on has popped all that was to be pushed. -/
theorem stuck_is_done {producers : List (List UInt8)} {customers : List Nat}
    (totals : (producers.map List.length).sum = customers.sum) {history : List Event} {s : State}
    (run : play step history (start producers customers) = some s)
    (stuck : ∀ i, step s (.region i) = none) : s.size = 0 ∧ s.pushed.Perm s.popped := by
  have inv := always_inv totals history history s (List.prefix_refl _) run
  have done : ∀ t ∈ s.threads, t.Finished := by
    by_contra some
    push Not at some
    refine inv_live inv ⟨some, ?_⟩
    intro t member busy
    by_contra ready
    obtain ⟨i, more⟩ := unblocked_steps member busy (by simpa using ready)
    simp [stuck i] at more
  have pushes : total Thread.pushes s.threads = 0 :=
    total_zero_iff.mpr fun t member => (done t member).1
  have pops : total Thread.pops s.threads = 0 :=
    total_zero_iff.mpr fun t member => (done t member).2
  have nothing : s.size = 0 := by
    have balance := inv.balance
    omega
  constructor
  · exact nothing
  · simpa [contents, nothing] using inv.kept

end UC.BoundedStore
