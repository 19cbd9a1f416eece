import UC.Lib.Threads
import UC.OptTime.Model

/- What becomes of the counts: an addition is in the counter, in the hands of the thread that
   took it out, or in exactly one report, and a count that stays behind when all threads are done
   is of a call that found the time of the last report. -/
namespace UC.OptTime
open UC.Histories UC.Threads

namespace Report

def additions : Report → Multiset Added
  | .report _ additions _ => additions
  | _ => 0

/-- The call whose addition is done and which has not looked into the counter yet. -/
def awaiting : Report → Option Nat
  | .test serial _ | .exchange serial _ => some serial
  | _ => none

/-- cnt is what the additions make. -/
def Sound : Report → Prop
  | .report cnt additions _ => cnt = (additions.map Added.count).sum
  | _ => True

end Report

namespace Reports

/-- What holds between any two steps of the threads. -/
structure Accounted (s : Reports) : Prop where
  counter : s.iReportNum = (s.pending.map Added.count).sum
  hands : ∀ place ∈ s.threads, place.Sound
  taken : ∀ r ∈ s.taken, r.1 = (r.2.map Added.count).sum
  reported : s.reported = (s.taken.map Prod.fst).filter (· ≠ 0)
  once : s.pending + total Report.additions s.threads + (s.taken.map Prod.snd).sum =
    (s.added : Multiset Added)
  serials : s.added.map Added.serial = List.range s.added.length
  waiting : ∀ a ∈ s.pending, a.serial ∈ s.unreported ∨
    some a.serial ∈ s.threads.map Report.awaiting

variable {s t : Reports}

theorem accounted_start (threads : Nat) : Accounted (start threads) := by
  have idle : ∀ place ∈ (start threads).threads, place = .idle := fun _ member =>
    List.eq_of_mem_replicate member
  have hands : total Report.additions (start threads).threads = 0 := by
    apply total_zero
    intro place member
    rw [idle place member]
    rfl
  constructor
  · rfl
  · intro place member
    rw [idle place member]
    trivial
  · intro r member
    cases member
  · rfl
  · rw [hands]
    rfl
  · rfl
  · intro a member
    cases member

theorem step_cases {event : Event} (taken : s.step event = some t) :
    (∃ i count curtime, s.threads[i]? = some .idle ∧ t = s.goto i (.add count curtime)) ∨
    (∃ i count curtime, s.threads[i]? = some (.add count curtime) ∧ t = s.aadd i count curtime) ∨
    (∃ i serial curtime, s.threads[i]? = some (.test serial curtime) ∧
      t = s.test i serial curtime) ∨
    (∃ i serial curtime, s.threads[i]? = some (.exchange serial curtime) ∧ t = s.xchg i curtime) ∨
    (∃ i cnt additions curtime, s.threads[i]? = some (.report cnt additions curtime) ∧
      t = s.attrApi i cnt additions curtime) ∨
    ∃ i curtime, s.threads[i]? = some (.stamp curtime) ∧
      t = { s.goto i .idle with tPrevReport := curtime } := by
  cases event with
  | call i count curtime =>
    rw [step] at taken
    split at taken
    · rename_i here
      cases taken
      exact .inl ⟨i, count, curtime, here, rfl⟩
    · cases taken
  | run i =>
    rw [step] at taken
    split at taken
    · rename_i count curtime here
      cases taken
      exact .inr (.inl ⟨i, count, curtime, here, rfl⟩)
    · rename_i serial curtime here
      cases taken
      exact .inr (.inr (.inl ⟨i, serial, curtime, here, rfl⟩))
    · rename_i serial curtime here
      cases taken
      exact .inr (.inr (.inr (.inl ⟨i, serial, curtime, here, rfl⟩)))
    · rename_i cnt additions curtime here
      cases taken
      exact .inr (.inr (.inr (.inr (.inl ⟨i, cnt, additions, curtime, here, rfl⟩))))
    · rename_i curtime here
      cases taken
      exact .inr (.inr (.inr (.inr (.inr ⟨i, curtime, here, rfl⟩))))
    · cases taken

theorem hands_set (accounted : Accounted s) (place : Report) (sound : place.Sound) (i : Nat) :
    ∀ other ∈ s.threads.set i place, other.Sound := by
  intro other member
  rcases List.mem_or_eq_of_mem_set member with old | rfl
  · exact accounted.hands other old
  · exact sound

/-- A move without additions in hand. -/
theorem total_goto {i : Nat} {place : Report} (here : s.threads[i]? = some place) (next : Report)
    (before : place.additions = 0) (after : next.additions = 0) :
    total Report.additions (s.threads.set i next) = total Report.additions s.threads := by
  have moved := total_set (w := Report.additions) here next
  rw [before, after, add_zero, add_zero] at moved
  exact moved

theorem accounted_goto (accounted : Accounted s) {i : Nat} {place : Report}
    (here : s.threads[i]? = some place) (next : Report) (before : place.additions = 0)
    (after : next.additions = 0) (sound : next.Sound) (same : next.awaiting = place.awaiting) :
    Accounted (s.goto i next) := by
  constructor
  · exact accounted.counter
  · exact hands_set accounted next sound i
  · exact accounted.taken
  · exact accounted.reported
  · have kept := total_goto here next before after
    simp only [goto, kept]
    exact accounted.once
  · exact accounted.serials
  · simp only [goto, map_set here same]
    exact accounted.waiting

theorem accounted_aadd (accounted : Accounted s) {i : Nat} {count : Long} {curtime : Int}
    (here : s.threads[i]? = some (.add count curtime)) : Accounted (s.aadd i count curtime) := by
  constructor
  · simp only [aadd, Multiset.map_cons, Multiset.sum_cons, accounted.counter]
    exact add_comm _ _
  · exact hands_set accounted (.test _ curtime) trivial i
  · exact accounted.taken
  · exact accounted.reported
  · have kept := total_goto here (.test s.added.length curtime) rfl rfl
    simp only [aadd, goto, kept, Multiset.cons_add, accounted.once]
    rw [Multiset.cons_coe, Multiset.coe_eq_coe]
    exact (List.perm_append_singleton _ _).symm
  · simp only [aadd, List.map_append, List.map_cons, List.map_nil, accounted.serials,
      List.length_append, List.length_cons, List.length_nil, Nat.zero_add, List.range_succ]
  · intro a member
    rcases Multiset.mem_cons.mp member with rfl | old
    · right
      have inside := (List.getElem?_eq_some_iff.mp here).1
      exact List.mem_map.mpr ⟨_, List.mem_set inside _, rfl⟩
    · rcases accounted.waiting a old with done | open'
      · exact .inl done
      · rcases mem_map_set here open' (.test s.added.length curtime) with none | still
        · cases none
        · exact .inr still

theorem accounted_test (accounted : Accounted s) {i serial : Nat} {curtime : Int}
    (here : s.threads[i]? = some (.test serial curtime)) :
    Accounted (s.test i serial curtime) := by
  rw [test]
  split
  · exact accounted_goto accounted here _ rfl rfl trivial rfl
  · constructor
    · exact accounted.counter
    · exact hands_set accounted .idle trivial i
    · exact accounted.taken
    · exact accounted.reported
    · have kept := total_goto here .idle rfl rfl
      simp only [goto, kept]
      exact accounted.once
    · exact accounted.serials
    · intro a member
      rcases accounted.waiting a member with done | open'
      · exact .inl (List.mem_cons_of_mem _ done)
      · rcases mem_map_set here open' .idle with own | still
        · rw [Option.some.inj own]
          exact .inl List.mem_cons_self
        · exact .inr still

theorem accounted_xchg (accounted : Accounted s) {i serial : Nat} {curtime : Int}
    (here : s.threads[i]? = some (.exchange serial curtime)) : Accounted (s.xchg i curtime) := by
  constructor
  · rfl
  · exact hands_set accounted (.report _ _ curtime) accounted.counter i
  · exact accounted.taken
  · exact accounted.reported
  · have moved := total_set (w := Report.additions) here
      (.report s.iReportNum s.pending curtime)
    simp only [Report.additions, add_zero] at moved
    simp only [xchg, goto, moved, zero_add, add_comm _ s.pending]
    exact accounted.once
  · exact accounted.serials
  · intro a member
    cases Multiset.notMem_zero a member

theorem accounted_attr_api (accounted : Accounted s) {i : Nat} {cnt : Long}
    {additions : Multiset Added} {curtime : Int}
    (here : s.threads[i]? = some (.report cnt additions curtime)) :
    Accounted (s.attrApi i cnt additions curtime) := by
  constructor
  · exact accounted.counter
  · exact hands_set accounted (.stamp curtime) trivial i
  · intro r member
    rcases List.mem_append.mp member with old | new
    · exact accounted.taken r old
    · rw [List.mem_singleton.mp new]
      exact accounted.hands _ (List.mem_of_getElem? here)
  · simp only [attrApi, List.map_append, List.map_cons, List.map_nil, List.filter_append,
      ← accounted.reported]
    by_cases zero : cnt = 0
    · rw [if_neg (not_not_intro zero), List.filter_cons_of_neg (by simp only [zero]; decide)]
      exact (List.append_nil _).symm
    · rw [if_pos zero, List.filter_cons_of_pos (by exact decide_eq_true zero)]
      rfl
  · have moved := total_set (w := Report.additions) here (.stamp curtime)
    simp only [Report.additions, add_zero] at moved
    have once := accounted.once
    rw [← moved] at once
    simp only [attrApi, goto, List.map_append, List.sum_append, List.map_cons, List.map_nil,
      List.sum_cons, List.sum_nil, add_zero, ← once]
    ac_rfl
  · exact accounted.serials
  · intro a member
    rcases accounted.waiting a member with done | open'
    · exact .inl done
    · rcases mem_map_set here open' (.stamp curtime) with none | still
      · cases none
      · exact .inr still

theorem accounted_step (accounted : Accounted s) {event : Event} (taken : s.step event = some t) :
    Accounted t := by
  rcases step_cases taken with ⟨i, count, curtime, here, rfl⟩ | ⟨i, count, curtime, here, rfl⟩ |
    ⟨i, serial, curtime, here, rfl⟩ | ⟨i, serial, curtime, here, rfl⟩ |
    ⟨i, cnt, additions, curtime, here, rfl⟩ | ⟨i, curtime, here, rfl⟩
  · exact accounted_goto accounted here _ rfl rfl trivial rfl
  · exact accounted_aadd accounted here
  · exact accounted_test accounted here
  · exact accounted_xchg accounted here
  · exact accounted_attr_api accounted here
  · have moved := accounted_goto accounted here .idle rfl rfl trivial rfl
    exact ⟨moved.counter, moved.hands, moved.taken, moved.reported, moved.once, moved.serials,
      moved.waiting⟩

theorem sum_nonzero (counts : List Long) : (counts.filter (· ≠ 0)).sum = counts.sum := by
  induction counts with
  | nil => rfl
  | cons count counts ih =>
    by_cases zero : count = 0
    · rw [List.filter_cons_of_neg (by simp only [zero]; decide), ih, zero, List.sum_cons, zero_add]
    · rw [List.filter_cons_of_pos (by exact decide_eq_true zero), List.sum_cons, List.sum_cons, ih]

/-- The values that were taken out make what their additions make. -/
theorem sum_taken {taken : List (Long × Multiset Added)}
    (each : ∀ r ∈ taken, r.1 = (r.2.map Added.count).sum) :
    (taken.map Prod.fst).sum = ((taken.map Prod.snd).sum.map Added.count).sum := by
  induction taken with
  | nil => rfl
  | cons r taken ih =>
    have later := ih fun q member => each q (List.mem_cons_of_mem _ member)
    simp only [List.map_cons, List.sum_cons, Multiset.map_add, Multiset.sum_add, ← later,
      ← each r List.mem_cons_self]

/-- Any number of threads, in any interleaving: every addition is in the counter, in a thread's
    hands or taken out exactly once, and Attr_API gets every value taken out that is not 0. With
    no thread on its way, reports and counter make up all the counts, and what the counter holds
    is of calls that found the time of the last report. -/
theorem reports_account_for_every_count (threads : Nat) (history : List Event)
    (played : play step history (start threads) = some s) :
    s.pending + total Report.additions s.threads + (s.taken.map Prod.snd).sum =
        (s.added : Multiset Added) ∧
      s.iReportNum = (s.pending.map Added.count).sum ∧
      s.added.map Added.serial = List.range s.added.length ∧
      (∀ r ∈ s.taken, r.1 = (r.2.map Added.count).sum) ∧
      s.reported = (s.taken.map Prod.fst).filter (· ≠ 0) ∧
      ((∀ place ∈ s.threads, place = .idle) →
        s.reported.sum + s.iReportNum = (s.added.map Added.count).sum ∧
          ∀ a ∈ s.pending, a.serial ∈ s.unreported) := by
  have accounted : Accounted s :=
    always_invariant (fun _ holds => holds) (fun _ _ _ holds taken => accounted_step holds taken)
      history (accounted_start threads) history s (List.prefix_refl _) played
  refine ⟨accounted.once, accounted.counter, accounted.serials, accounted.taken, accounted.reported, ?_⟩
  intro idle
  have hands : total Report.additions s.threads = 0 := by
    apply total_zero
    intro place member
    rw [idle place member]
    rfl
  constructor
  · have once := accounted.once
    rw [hands, add_zero] at once
    have all : (s.added.map Added.count).sum = ((s.added : Multiset Added).map Added.count).sum :=
      rfl
    rw [all, ← once, Multiset.map_add, Multiset.sum_add, ← accounted.counter,
      ← sum_taken accounted.taken, accounted.reported, sum_nonzero]
    exact add_comm _ _
  · intro a member
    rcases accounted.waiting a member with done | open'
    · exact done
    · obtain ⟨place, inside, awaits⟩ := List.mem_map.mp open'
      rw [idle place inside] at awaits
      cases awaits

/-- Thread 1 adds between the AADD and the XCHG of thread 0. -/
def twoCalls : List Event :=
  [.call 0 5 1, .run 0, .call 1 7 1, .run 1, .run 0, .run 0, .run 0, .run 0, .run 1]

theorem two_calls_make_one_report : ∃ s, play step twoCalls (start 2) = some s ∧
    s.reported = [12] ∧ s.reported.sum + s.iReportNum = (s.added.map Added.count).sum := by
  have played : play step twoCalls (start 2) = some _ := rfl
  refine ⟨_, played, by decide, ?_⟩
  obtain ⟨_, _, _, _, _, ended⟩ := reports_account_for_every_count 2 twoCalls played
  refine (ended ?_).1
  intro place member
  simpa [start, goto, aadd, test, xchg, attrApi] using member

end Reports

end UC.OptTime
