import UC.Lib.Histories
import UC.RedisPool.Model

/- What m_useNum counts. The pool takes NULL from the loop of connect, and a NULL that it
   hands out is counted and never given back. -/
namespace UC.RedisPool
open UC.Histories HiredisHelper

/-- Pooled and handed-out connections together, now and while the next SetEx has its one. -/
structure WithinBound (s : HiredisHelper) : Prop where
  now : s.m_ctxs.length + s.handed ≤ s.m_maxpoolsize
  during : ∀ result, (s.getConntection result).1.m_ctxs.length +
    (s.getConntection result).1.handed ≤ s.m_maxpoolsize

/-- Between two calls nothing is handed out, and m_useNum says so. -/
structure Accounted (s : HiredisHelper) : Prop where
  counted : s.m_useNum = s.handed
  returned : s.handed = 0
  bound : WithinBound s

/-- The next connection of the pool, if it has any, is none that failed. -/
def FrontConnected (s : HiredisHelper) (_ : Call) : Prop := s.m_ctxs.head? ≠ some none

instance (s : HiredisHelper) (call : Call) : Decidable (FrontConnected s call) :=
  inferInstanceAs (Decidable (_ ≠ _))

/-- All that one SetEx can do to the pool. -/
inductive Outcome (s : HiredisHelper) : HiredisHelper → Prop
  | kept (ctx rest) (front : s.m_ctxs = some ctx :: rest) :
      Outcome s { s with m_ctxs := rest ++ [some ctx] }
  | closed (ctx rest) (front : s.m_ctxs = some ctx :: rest) :
      Outcome s { s with m_ctxs := rest, freed := s.freed ++ [ctx.id] }
  | lost (rest) (front : s.m_ctxs = none :: rest) :
      Outcome s { s with m_ctxs := rest, m_useNum := s.m_useNum + 1 }
  | refused (empty : s.m_ctxs = []) : Outcome s s
  | grown (empty : s.m_ctxs = []) :
      Outcome s { s with m_ctxs := [some ⟨s.created, false⟩], created := s.created + 1 }
  | unused (empty : s.m_ctxs = []) :
      Outcome s { s with created := s.created + 1, freed := s.freed ++ [s.created] }

theorem set_ex_outcome (s : HiredisHelper) (call : Call) : Outcome s (s.SetEx call).1 := by
  cases pool : s.m_ctxs with
  | nil =>
    by_cases full : s.m_useNum ≥ s.m_maxpoolsize
    · have same : (s.SetEx call).1 = s := by simp [SetEx, getConntection, pool, full]
      rw [same]
      exact .refused pool
    · cases conn : call.conn with
      | NULL =>
        have same : (s.SetEx call).1 = s := by
          simp [SetEx, getConntection, pool, full, conn, redisConnectWithTimeout, redisFree]
        rw [same]
        exact .refused pool
      | err =>
        have same : (s.SetEx call).1 =
            { s with created := s.created + 1, freed := s.freed ++ [s.created] } := by
          simp [SetEx, getConntection, pool, full, conn, redisConnectWithTimeout, redisFree]
        rw [same]
        exact .unused pool
      | good =>
        cases reply : call.reply with
        | false =>
          have same : (s.SetEx call).1 =
              { s with created := s.created + 1, freed := s.freed ++ [s.created] } := by
            simp [SetEx, getConntection, pool, full, conn, reply, redisConnectWithTimeout,
              releaseConnection, redisFree]
          rw [same]
          exact .unused pool
        | true =>
          have same : (s.SetEx call).1 =
              { s with m_ctxs := [some ⟨s.created, false⟩], created := s.created + 1 } := by
            simp [SetEx, getConntection, pool, full, conn, reply, redisConnectWithTimeout,
              releaseConnection]
          rw [same]
          exact .grown pool
  | cons ctx rest =>
    cases ctx with
    | none =>
      have same : (s.SetEx call).1 = { s with m_ctxs := rest, m_useNum := s.m_useNum + 1 } := by
        simp [SetEx, getConntection, pool]
      rw [same]
      exact .lost rest pool
    | some ctx =>
      cases reply : call.reply with
      | false =>
        have same : (s.SetEx call).1 =
            { s with m_ctxs := rest, freed := s.freed ++ [ctx.id] } := by
          simp [SetEx, getConntection, pool, reply, releaseConnection, redisFree]
        rw [same]
        exact .closed ctx rest pool
      | true =>
        have same : (s.SetEx call).1 = { s with m_ctxs := rest ++ [some ctx] } := by
          simp [SetEx, getConntection, pool, reply, releaseConnection]
        rw [same]
        exact .kept ctx rest pool

/-- What holds of the sizes after init and all calls. -/
structure Sized (s : HiredisHelper) : Prop where
  pooled : s.m_ctxs.length ≤ 10
  most : s.m_maxpoolsize = 100
  returned : s.handed = 0

theorem sized_within_bound {s : HiredisHelper} (sized : Sized s) : WithinBound s := by
  obtain ⟨pooled, most, returned⟩ := sized
  constructor
  · rw [most, returned]
    omega
  · intro result
    cases pool : s.m_ctxs with
    | nil =>
      by_cases full : s.m_useNum ≥ 100
      · simp [getConntection, pool, full, returned, most]
      · cases result <;>
          simp [getConntection, pool, full, redisConnectWithTimeout, redisFree, returned, most]
    | cons ctx rest =>
      rw [pool, List.length_cons] at pooled
      simp only [getConntection, pool, returned, most]
      split <;> omega

theorem outcome_sized {s t : HiredisHelper} (sized : Sized s) (outcome : Outcome s t) :
    Sized t := by
  obtain ⟨pooled, most, returned⟩ := sized
  cases outcome with
  | kept ctx rest front =>
    rw [front] at pooled
    exact ⟨by simpa using pooled, most, returned⟩
  | closed ctx rest front =>
    rw [front] at pooled
    exact ⟨Nat.le_of_succ_le pooled, most, returned⟩
  | lost rest front =>
    rw [front] at pooled
    exact ⟨Nat.le_of_succ_le pooled, most, returned⟩
  | refused empty => exact ⟨pooled, most, returned⟩
  | grown empty => exact ⟨by simp, most, returned⟩
  | unused empty => exact ⟨pooled, most, returned⟩

theorem connect_loop_sized (results : Nat → Connect) (n : Nat) (s : HiredisHelper) :
    (connectLoop results n s).m_ctxs.length ≤ s.m_ctxs.length + n ∧
      (connectLoop results n s).m_maxpoolsize = s.m_maxpoolsize ∧
      (connectLoop results n s).m_useNum = s.m_useNum ∧
      (connectLoop results n s).handed = s.handed := by
  induction n with
  | zero => exact ⟨Nat.le_refl _, rfl, rfl, rfl⟩
  | succ n ih =>
    obtain ⟨pooled, most, used, handed⟩ := ih
    unfold connectLoop
    generalize connectLoop results n s = t at pooled most used handed
    cases result : results n with
    | good => exact ⟨by simp [connectOne, redisConnectWithTimeout]; omega, most, used, handed⟩
    | err => exact ⟨by simp [connectOne, redisConnectWithTimeout]; omega, most, used, handed⟩
    | NULL => exact ⟨by simp [connectOne, redisConnectWithTimeout]; omega, most, used, handed⟩

theorem init_sized (results : Nat → Connect) :
    Sized (init results) ∧ (init results).m_useNum = 0 := by
  obtain ⟨pooled, most, used, handed⟩ := connect_loop_sized results 10
    { m_ctxs := [], m_poolsize := 10, m_maxpoolsize := 100, m_useNum := 0, created := 0,
      freed := [], handed := 0 }
  exact ⟨⟨pooled, most, handed⟩, used⟩

/-- A SetEx leaves m_useNum alone but for a NULL that it gets. -/
theorem outcome_counted {s t : HiredisHelper} (outcome : Outcome s t) :
    t.m_useNum = s.m_useNum + if s.m_ctxs.head? = some none then 1 else 0 := by
  cases outcome with
  | kept ctx rest front => simp [front]
  | closed ctx rest front => simp [front]
  | lost rest front => simp [front]
  | refused empty => simp [empty]
  | grown empty => simp [empty]
  | unused empty => simp [empty]

theorem play_total (calls : List Call) (s : HiredisHelper) : (play step calls s).isSome := by
  induction calls generalizing s with
  | nil => rfl
  | cons call rest ih => exact ih (s.SetEx call).1

/-- Whatever hiredis answers, the pool stays within its bound, and m_useNum is the number of
    connections handed out just when no SetEx meets a NULL at the front of the pool. -/
theorem pool_is_accounted_iff (results : Nat → Connect) (calls : List Call) :
    Always step WithinBound calls (init results) ∧
    (Always step Accounted calls (init results) ↔
      Lawful step FrontConnected calls (init results)) := by
  obtain ⟨sized, unused⟩ := init_sized results
  constructor
  · apply @always_invariant _ _ step Sized
    · intro s sized
      exact sized_within_bound sized
    · rintro s call _ sized ⟨⟩
      exact outcome_sized sized (set_ex_outcome s call)
    · exact sized
  · apply @always_iff_lawful _ _ step fun s => Sized s ∧ s.m_useNum = 0
    · rintro s ⟨sized, unused⟩
      exact ⟨by rw [unused, sized.returned]; rfl, sized.returned, sized_within_bound sized⟩
    · rintro s call _ ⟨sized, unused⟩ legal ⟨⟩
      have outcome := set_ex_outcome s call
      refine ⟨outcome_sized sized outcome, ?_⟩
      rw [outcome_counted outcome, unused, if_neg legal]
      rfl
    · rintro s call _ ⟨sized, unused⟩ illegal ⟨⟩ accounted
      have outcome := set_ex_outcome s call
      have one := outcome_counted outcome
      rw [unused, if_pos (not_not.mp illegal), accounted.counted, accounted.returned] at one
      exact absurd one (by decide)
    · exact ⟨sized, unused⟩
    · exact play_total calls _

/-- The first of ten connections is NULL: the first SetEx gets it, and m_useNum stays 1. -/
theorem null_connection_stays_counted :
    (∃ s, play step [⟨.good, true⟩] (init fun i => if i = 0 then .NULL else .good) = some s ∧
      s.m_useNum = 1 ∧ s.handed = 0) ∧
    ¬ Always step Accounted [⟨.good, true⟩] (init fun i => if i = 0 then .NULL else .good) := by
  have last : (play step [⟨.good, true⟩] (init fun i => if i = 0 then .NULL else .good)).map
      (fun s => (s.m_useNum, s.handed)) = some (1, 0) := by
    decide
  obtain ⟨s, run, counts⟩ := Option.map_eq_some_iff.mp last
  obtain ⟨one, none_out⟩ := Prod.mk.inj counts
  refine ⟨⟨s, run, one, none_out⟩, ?_⟩
  intro always
  have counted := (always _ s (List.prefix_refl _) run).counted
  rw [one, none_out] at counted
  exact absurd counted (by decide)

end UC.RedisPool
