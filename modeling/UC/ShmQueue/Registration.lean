import Mathlib.Data.Int.Order.Basic
import UC.Lib.Memory
import UC.Lib.Runs

/- Registration of the reader processes: sq_get_eventfd and verify_and_remove_bad_pids, with
   each read and each CAS of pidnum and pidset as one step, and each look at /proc another.
   The signal masks are left out: no process reads them here. A fifo that can be opened has a
   descriptor above 0. -/
namespace UC.ShmQueue.Registration
open UC.Memory

def SQ_MAX_READER_PROC_NUM : Int := 64

/-- pidnum and pidset of struct sq_head_t. -/
structure Pids where
  pidnum : Int
  pidset : Mem Nat

/-- Where a process stands. The loops that run downwards carry i + 1. -/
inductive Pc where
  | outside
  | verify
  | repair (oldpidnum : Int)
  | shrinkRead (next : Nat)
  | shrinkCheck (i pid : Nat)
  | shrinkCas (i : Nat)
  | sweepRead (next : Nat)
  | sweepCheck (i oldpid : Nat)
  | sweepCas (i oldpid : Nat)
  | findTest (i : Nat)
  | findRead (i : Nat)
  | reuseTest (i : Nat)
  | reuseRead (i : Nat)
  | reuseCas (i : Nat)
  | growTest
  | growRead (pidnum : Nat)
  | growCas (pidnum oldpid : Nat)
  | growSet (pidnum oldpid : Nat)
  | openFifo (sigidx : Nat)
  deriving DecidableEq

/-- A process and its handle; sig_idx is none while it is -1. -/
structure Proc where
  pid : Nat
  alive : Bool
  pc : Pc
  sig_idx : Option Nat
  deriving DecidableEq

def Proc.goto (proc : Proc) (pc : Pc) : Proc := { proc with pc := pc }

/-- The next step of a live process. valid is is_pid_valid at this moment, opened whether
    create_fifo succeeds. -/
def advance (valid : Nat → Bool) (opened : Bool) (sq : Pids) (proc : Proc) : Pids × Proc :=
  match proc.pc with
  | .outside => (sq, if proc.sig_idx.isSome then proc else proc.goto .verify)
  | .verify =>
    if sq.pidnum < 0 ∨ sq.pidnum > SQ_MAX_READER_PROC_NUM then
      (sq, proc.goto (.repair sq.pidnum))
    else (sq, proc.goto (.shrinkRead sq.pidnum.toNat))
  | .repair oldpidnum =>
    if sq.pidnum = oldpidnum then
      ({ sq with pidnum := SQ_MAX_READER_PROC_NUM },
        proc.goto (.shrinkRead SQ_MAX_READER_PROC_NUM.toNat))
    else (sq, proc.goto (.findTest 0))
  | .shrinkRead 0 => (sq, proc.goto (.findTest 0))
  | .shrinkRead (i + 1) => (sq, proc.goto (.shrinkCheck i (sq.pidset i)))
  | .shrinkCheck i pid =>
    (sq, proc.goto (if valid pid then .sweepRead i else .shrinkCas i))
  | .shrinkCas i =>
    if sq.pidnum = i + 1 then ({ sq with pidnum := i }, proc.goto (.shrinkRead i))
    else (sq, proc.goto (.sweepRead i))
  | .sweepRead 0 => (sq, proc.goto (.findTest 0))
  | .sweepRead (i + 1) => (sq, proc.goto (.sweepCheck i (sq.pidset i)))
  | .sweepCheck i oldpid =>
    (sq, proc.goto (if valid oldpid then .sweepRead i else .sweepCas i oldpid))
  | .sweepCas i oldpid =>
    (if sq.pidset i = oldpid then { sq with pidset := store sq.pidset i 0 } else sq,
      proc.goto (.sweepRead i))
  | .findTest i => (sq, proc.goto (if i < sq.pidnum then .findRead i else .reuseTest 0))
  | .findRead i =>
    (sq, if sq.pidset i = proc.pid then { proc with pc := .openFifo i, sig_idx := some i }
      else proc.goto (.findTest (i + 1)))
  | .reuseTest i => (sq, proc.goto (if i < sq.pidnum then .reuseRead i else .growTest))
  | .reuseRead i =>
    (sq, proc.goto (if sq.pidset i = 0 then .reuseCas i else .reuseTest (i + 1)))
  | .reuseCas i =>
    if sq.pidset i = 0 then
      ({ sq with pidset := store sq.pidset i proc.pid },
        { proc with pc := .openFifo i, sig_idx := some i })
    else (sq, proc.goto (.reuseTest (i + 1)))
  | .growTest =>
    (sq, proc.goto (if sq.pidnum ≥ SQ_MAX_READER_PROC_NUM then .outside
      else .growRead sq.pidnum.toNat))
  | .growRead pidnum => (sq, proc.goto (.growCas pidnum (sq.pidset pidnum)))
  | .growCas pidnum oldpid =>
    if sq.pidnum = pidnum then
      ({ sq with pidnum := pidnum + 1 }, proc.goto (.growSet pidnum oldpid))
    else (sq, proc.goto .growTest)
  | .growSet pidnum oldpid =>
    if sq.pidset pidnum = oldpid then
      ({ sq with pidset := store sq.pidset pidnum proc.pid },
        { proc with pc := .openFifo pidnum, sig_idx := some pidnum })
    else (sq, proc.goto .growTest)
  | .openFifo _ =>
    (sq, if opened then proc.goto .outside else { proc with pc := .outside, sig_idx := none })

/-- The shared words and all processes there have been, with the dead ones. -/
structure State where
  sq : Pids
  procs : List Proc

def start : State := ⟨⟨0, fun _ => 0⟩, []⟩

/-- A directory /proc/pid exists. -/
def isPidValid (procs : List Proc) (pid : Nat) : Bool :=
  pid ≠ 0 && procs.any fun proc => proc.alive && proc.pid = pid

inductive Event where
  | run (p : Nat) (opened : Bool)
  | die (p : Nat)
  | fork (pid : Nat)

/-- A process that is created gets a pid that no live process has. -/
def step (s : State) : Event → Option State
  | .run p opened =>
    match s.procs[p]? with
    | none => none
    | some proc =>
      if proc.alive then
        let (sq, proc) := advance (isPidValid s.procs) opened s.sq proc
        some ⟨sq, s.procs.set p proc⟩
      else none
  | .die p =>
    match s.procs[p]? with
    | none => none
    | some proc => some { s with procs := s.procs.set p { proc with alive := false } }
  | .fork pid =>
    if pid = 0 ∨ isPidValid s.procs pid then none
    else some { s with procs := s.procs ++ [⟨pid, true, .outside, none⟩] }

/-- The call of a live process has returned index i. -/
def Proc.Completed (proc : Proc) (i : Nat) : Prop :=
  proc.alive = true ∧ proc.pc = .outside ∧ proc.sig_idx = some i

instance (proc : Proc) (i : Nat) : Decidable (proc.Completed i) :=
  inferInstanceAs (Decidable (_ ∧ _))

end UC.ShmQueue.Registration
