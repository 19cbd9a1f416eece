import Mathlib.Data.List.Count
import Mathlib.Data.List.Range
import UC.RedisPool.Accounting

/- Where the contexts end. Each one made is passed to redisFree, pooled, or dropped by the
   loop of connect; the loop of the destructor stops half way through the pool. -/
namespace UC.RedisPool
open UC.Histories HiredisHelper

/-- Every context that redisConnectWithTimeout has returned was passed to redisFree once. -/
def EachFreedOnce (s : HiredisHelper) : Prop := ∀ id < s.created, s.freed.count id = 1

def ids (ctxs : List (Option RedisContext)) : List Nat :=
  ctxs.filterMap (Option.map RedisContext.id)

/-- Each context made is in one place, dropped ones among them. -/
def Ledger (dropped : List Nat) (s : HiredisHelper) : Prop :=
  (s.freed ++ (ids s.m_ctxs ++ dropped)).Perm (List.range s.created)

section Ids

variable {ctxs rest : List (Option RedisContext)} {ctx : RedisContext}

@[simp] theorem ids_nil : ids [] = [] := rfl

@[simp] theorem ids_some : ids (some ctx :: rest) = ctx.id :: ids rest := rfl

@[simp] theorem ids_null : ids (none :: rest) = ids rest := rfl

@[simp] theorem ids_append : ids (ctxs ++ rest) = ids ctxs ++ ids rest := by simp [ids]

theorem ids_empty_iff : ids ctxs = [] ↔ ∀ ctx ∈ ctxs, ctx = none := by
  simp [ids, List.filterMap_eq_nil_iff]

end Ids

theorem perm_range_succ {n : Nat} {before behind : List Nat}
    (all : (before ++ behind).Perm (List.range n)) :
    (before ++ n :: behind).Perm (List.range (n + 1)) := by
  rw [List.range_succ]
  have front : (before ++ n :: behind).Perm (n :: (before ++ behind)) := List.perm_middle
  have back : (List.range n ++ [n]).Perm (n :: List.range n) := List.perm_append_singleton n _
  exact (front.trans (all.cons n)).trans back.symm

theorem counted_once_iff {n : Nat} {done left : List Nat}
    (all : (done ++ left).Perm (List.range n)) :
    (∀ id < n, done.count id = 1) ↔ left = [] := by
  have once (id : Nat) (made : id < n) : done.count id + left.count id = 1 := by
    rw [← List.count_append, all.count_eq, List.count_range, if_pos made]
  constructor
  · intro counted
    apply List.eq_nil_iff_forall_not_mem.mpr
    intro id missing
    have made : id < n := List.mem_range.mp (all.mem_iff.mp (List.mem_append_right done missing))
    have twice := List.count_pos_iff.mpr missing
    have first := counted id made
    have both := once id made
    omega
  · intro nothing id made
    have both := once id made
    simpa [nothing] using both

section Ledger

variable {dropped : List Nat} {s t : HiredisHelper}

theorem outcome_ledger (ledger : Ledger dropped s) (outcome : Outcome s t) :
    Ledger dropped t := by
  unfold Ledger at ledger ⊢
  cases outcome with
  | kept ctx rest front =>
    rw [front] at ledger
    simp only [ids_some, ids_append, ids_nil] at ledger ⊢
    have moved := (List.perm_append_singleton ctx.id (ids rest)).append_right dropped
    exact (moved.append_left s.freed).trans ledger
  | closed ctx rest front =>
    rw [front] at ledger
    simpa using ledger
  | lost rest front =>
    rw [front] at ledger
    simpa using ledger
  | refused empty => exact ledger
  | grown empty =>
    rw [empty] at ledger
    exact perm_range_succ ledger
  | unused empty =>
    rw [empty, ids_nil, List.nil_append] at ledger
    simpa [empty] using perm_range_succ ledger

theorem play_ledger (calls : List Call) (ledger : Ledger dropped s)
    (run : play step calls s = some t) : Ledger dropped t := by
  induction calls generalizing s with
  | nil => exact Option.some.inj run ▸ ledger
  | cons call rest ih => exact ih (outcome_ledger ledger (set_ex_outcome s call)) run

end Ledger

/-- The loop of connect drops the contexts that have err set. -/
theorem connect_loop_ledger (results : Nat → Connect) {s : HiredisHelper} (ledger : Ledger [] s)
    (n : Nat) :
    ∃ dropped, Ledger dropped (connectLoop results n s) ∧
      (dropped = [] ↔ ∀ i < n, results i ≠ .err) := by
  induction n with
  | zero => exact ⟨[], ledger, by simp⟩
  | succ n ih =>
    obtain ⟨dropped, ledger, good⟩ := ih
    unfold connectLoop
    generalize connectLoop results n s = t at ledger
    have more : (t.freed ++ ids t.m_ctxs ++ t.created :: dropped).Perm
        (List.range (t.created + 1)) := by
      apply perm_range_succ
      rw [List.append_assoc]
      exact ledger
    cases result : results n with
    | good =>
      exists dropped
      constructor
      · simpa [Ledger, connectOne, redisConnectWithTimeout] using more
      · rw [good, Nat.forall_lt_succ_right, result]
        simp
    | err =>
      exists t.created :: dropped
      constructor
      · simpa [Ledger, connectOne, redisConnectWithTimeout] using more
      · rw [Nat.forall_lt_succ_right, result]
        simp
    | NULL =>
      exists dropped
      constructor
      · simpa [Ledger, connectOne, redisConnectWithTimeout] using ledger
      · rw [good, Nat.forall_lt_succ_right, result]
        simp

/-- The index goes up and the size down, so half of what is behind the index is freed. -/
theorem destruct_loop_frees_half (i : Nat) (ctxs : List (Option RedisContext))
    (s : HiredisHelper) :
    destructLoop i ctxs s =
      { s with
        m_ctxs := ctxs.drop ((ctxs.length + 1 - i) / 2)
        freed := s.freed ++ ids (ctxs.take ((ctxs.length + 1 - i) / 2)) } := by
  induction ctxs generalizing i s with
  | nil => simp [destructLoop]
  | cons ctx rest ih =>
    unfold destructLoop
    by_cases more : i < (ctx :: rest).length
    · rw [if_pos more, ih]
      have half : ((ctx :: rest).length + 1 - i) / 2 = (rest.length + 1 - (i + 1)) / 2 + 1 := by
        simp only [List.length_cons] at more ⊢
        omega
      rw [half]
      cases ctx with
      | none => simp [redisFree]
      | some ctx => simp [redisFree]
    · rw [if_neg more]
      have nothing : ((ctx :: rest).length + 1 - i) / 2 = 0 := by
        simp only [List.length_cons] at more ⊢
        omega
      rw [nothing]
      simp

theorem destruct_frees_iff {dropped : List Nat} {s : HiredisHelper} (ledger : Ledger dropped s) :
    EachFreedOnce s.destruct ↔
      dropped = [] ∧ ∀ ctx ∈ s.m_ctxs.drop ((s.m_ctxs.length + 1) / 2), ctx = none := by
  unfold EachFreedOnce destruct
  rw [destruct_loop_frees_half, Nat.sub_zero]
  generalize (s.m_ctxs.length + 1) / 2 = half
  have parts : (s.freed ++ ids (s.m_ctxs.take half) ++
      (ids (s.m_ctxs.drop half) ++ dropped)).Perm (List.range s.created) := by
    have whole := @ids_append (s.m_ctxs.take half) (s.m_ctxs.drop half)
    rw [List.take_append_drop] at whole
    simpa [Ledger, whole] using ledger
  rw [counted_once_iff parts, List.append_eq_nil_iff, ids_empty_iff]
  exact and_comm

/-- The destructor leaves every context freed once just when connect has made none with err
    set, and the second half of the pool is NULLs. -/
theorem every_context_freed_iff (m_poolsize m_maxpoolsize : Int) (results : Nat → Connect)
    (calls : List Call) :
    ∃ s, play step calls (initWith m_poolsize m_maxpoolsize results) = some s ∧
      (EachFreedOnce s.destruct ↔
        (∀ i : Nat, (i : Int) < m_poolsize → results i ≠ .err) ∧
          ∀ ctx ∈ s.m_ctxs.drop ((s.m_ctxs.length + 1) / 2), ctx = none) := by
  obtain ⟨s, run⟩ := Option.isSome_iff_exists.mp
    (play_total calls (initWith m_poolsize m_maxpoolsize results))
  obtain ⟨dropped, ledger, good⟩ := @connect_loop_ledger results
    { m_ctxs := [], m_poolsize := m_poolsize, m_maxpoolsize := m_maxpoolsize, m_useNum := 0,
      created := 0, freed := [], handed := 0 } (List.Perm.refl _) m_poolsize.toNat
  refine ⟨s, run, ?_⟩
  rw [destruct_frees_iff (play_ledger calls ledger run), good]
  simp only [Int.lt_toNat]

/-- Ten good connections and no call: only five of them are freed. -/
theorem half_the_pool_leaks :
    ¬ EachFreedOnce (init fun _ => .good).destruct ∧
      (init fun _ => .good).destruct.freed = [0, 1, 2, 3, 4] := by
  constructor
  · intro each
    exact absurd (each 9 (by decide)) (by decide)
  · decide

end UC.RedisPool
