import Mathlib.Analysis.Real.Sqrt

/- getMode of the hash_shm of example_shm_hashtable1.cpp, with unbounded integers and the exact
   square root. Primes are looked for next to the multiples of 6, from the last one down. -/
namespace UC.ShmModes

/-- The flag of value behind the divisions by n + 1 and n - 1; a and b say which are made. -/
def divide (flag a b : Bool) (value n : Nat) : Bool :=
  flag && !(a && value % (n + 1) == 0) && !(b && value % (n - 1) == 0)

/-- a of a round of the inner loop. -/
def above (p : Nat) : Bool := !(p % 10 == 4) && !(p % 10 == 9)

/-- b of a round of the inner loop. -/
def below (p : Nat) : Bool := !(p % 10 == 6)

def trial (m p : Nat) (i j : Bool) : Bool × Bool :=
  if _more : p * 6 ≤ Nat.sqrt (m + 1) + 2 then
    let n := p * 6
    let i := divide i (above p) (below p) (m - 1) n
    let j := divide j (above p) (below p) (m + 1) n
    if i || j then trial m (p + 1) i j else (i, j)
  else (i, j)
termination_by Nat.sqrt (m + 1) + 3 - p

/-- i and j behind the inner loop. For t = 0 the unsigned m - 1 is a multiple of 3, as 0 is. -/
def flags (t : Nat) : Bool × Bool :=
  let k := t % 10
  let m := 6 * t
  let j := !(k == 4) && !(k == 9) && !((m + 1) % 3 == 0)
  let i := !(k == 6) && !((m - 1) % 3 == 0)
  trial m 1 i j

/-- if(flag){modTable[z++]=value;if(z>=lines)return;}: the table of z entries, and whether the
    function returns. -/
def record (lines : Nat) (flag : Bool) (value : Nat) (modTable : List Nat) :
    Option (List Nat × Bool) :=
  if flag then
    if modTable.length < lines then
      some (modTable ++ [value], decide (modTable.length + 1 ≥ lines))
    else none
  else some (modTable, false)

def modeRound (lines t : Nat) (modTable : List Nat) : Option (List Nat × Bool) := do
  let (modTable, full) ← record lines (flags t).2 (6 * t + 1) modTable
  if full then some (modTable, true)
  else record lines (flags t).1 (6 * t - 1) modTable

def modeLoop (lines : Nat) : Nat → List Nat → Option (List Nat)
  | 0, modTable =>
    if modTable.length < lines then do
      let (modTable, full) ← modeRound lines 0 modTable
      if full then some modTable else none
    else some modTable
  | t + 1, modTable =>
    if modTable.length < lines then do
      let (modTable, full) ← modeRound lines (t + 1) modTable
      if full then some modTable else modeLoop lines t modTable
    else some modTable

/-- modTable behind getMode; exit(-1) is none. -/
def getMode (maxLine lines : Nat) : Option (List Nat) :=
  if maxLine < 5 then none else modeLoop lines (maxLine / 6) []

/-- The condition of the inner loop is that of the exact square root. -/
theorem real_condition (m p : Nat) :
    ((p * 6 : Nat) : ℝ) ≤ √((m + 1 : Nat) : ℝ) + 2 ↔ p * 6 ≤ Nat.sqrt (m + 1) + 2 := by
  rcases Nat.eq_zero_or_pos p with none | some
  · subst none
    simp only [Nat.zero_mul, Nat.cast_zero, Nat.zero_le, iff_true]
    positivity
  · have apart : p * 6 = p * 6 - 2 + 2 := by omega
    rw [apart, Nat.cast_add, Nat.cast_two, add_le_add_iff_right, Nat.add_le_add_iff_right,
      ← Real.nat_floor_real_sqrt_eq_nat_sqrt, Nat.le_floor_iff (Real.sqrt_nonneg _)]

end UC.ShmModes
