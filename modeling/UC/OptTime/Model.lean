import Mathlib.Algebra.BigOperators.Group.Multiset.Basic
import Mathlib.Data.BitVec
import UC.Lib.Histories

/- The report counters of opt_time.h: Frequent_Attr_API_Ext of one attr, called by any number of
   threads. Every locked instruction is one step, and so is every read, store and Attr_API. -/
namespace UC.OptTime

abbrev Long := BitVec 64

structure Added where
  serial : Nat
  count : Long

/-- Where a thread stands in Frequent_Attr_API_Ext(attr, count, curtime). The additions are those
    that cnt was made of; no step reads them or a serial. -/
inductive Report where
  | idle
  | add (count : Long) (curtime : Int)
  | test (serial : Nat) (curtime : Int)
  | exchange (serial : Nat) (curtime : Int)
  | report (cnt : Long) (additions : Multiset Added) (curtime : Int)
  | stamp (curtime : Int)

/-- The statics of the macro and the threads; behind them the arguments of Attr_API, every AADD so
    far, those that iReportNum is made of, those of each XCHG that has been dealt with, and the
    serials of the calls that found the time of the last report. -/
structure Reports where
  iReportNum : Long
  tPrevReport : Int
  threads : List Report
  reported : List Long
  added : List Added
  pending : Multiset Added
  taken : List (Long × Multiset Added)
  unreported : List Nat

inductive Event where
  | call (i : Nat) (count : Long) (curtime : Int)
  | run (i : Nat)

namespace Reports

def start (threads : Nat) : Reports where
  iReportNum := 0
  tPrevReport := 0
  threads := List.replicate threads .idle
  reported := []
  added := []
  pending := 0
  taken := []
  unreported := []

def goto (s : Reports) (i : Nat) (place : Report) : Reports :=
  { s with threads := s.threads.set i place }

def aadd (s : Reports) (i : Nat) (count : Long) (curtime : Int) : Reports :=
  { s.goto i (.test s.added.length curtime) with
    iReportNum := s.iReportNum + count
    added := s.added ++ [⟨s.added.length, count⟩]
    pending := ⟨s.added.length, count⟩ ::ₘ s.pending }

def test (s : Reports) (i serial : Nat) (curtime : Int) : Reports :=
  if s.tPrevReport ≠ curtime then s.goto i (.exchange serial curtime)
  else { s.goto i .idle with unreported := serial :: s.unreported }

def xchg (s : Reports) (i : Nat) (curtime : Int) : Reports :=
  { s.goto i (.report s.iReportNum s.pending curtime) with iReportNum := 0, pending := 0 }

def attrApi (s : Reports) (i : Nat) (cnt : Long) (additions : Multiset Added) (curtime : Int) :
    Reports :=
  { s.goto i (.stamp curtime) with
    reported := if cnt ≠ 0 then s.reported ++ [cnt] else s.reported
    taken := s.taken ++ [(cnt, additions)] }

def step (s : Reports) : Event → Option Reports
  | .call i count curtime =>
    match s.threads[i]? with
    | some .idle => some (s.goto i (.add count curtime))
    | _ => none
  | .run i =>
    match s.threads[i]? with
    | some (.add count curtime) => some (s.aadd i count curtime)
    | some (.test serial curtime) => some (s.test i serial curtime)
    | some (.exchange _ curtime) => some (s.xchg i curtime)
    | some (.report cnt additions curtime) => some (s.attrApi i cnt additions curtime)
    | some (.stamp curtime) => some { s.goto i .idle with tPrevReport := curtime }
    | _ => none

end Reports

end UC.OptTime
