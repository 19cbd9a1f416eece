import Mathlib.Data.Nat.Prime.Basic
import UC.ShmModes.Model

/- The divisions of getMode decide which of 6t - 1 and 6t + 1 are primes, so modTable gets the
   largest primes. The divisors that are left out are multiples of 5. -/
namespace UC.ShmModes

/-- No division of value from round p on comes out. -/
def Passes (m value p : Nat) : Prop :=
  ∀ d, p ≤ d → d * 6 ≤ Nat.sqrt (m + 1) + 2 →
    divide true (above d) (below d) value (d * 6) = true

theorem passes_more {m value p : Nat} (more : p * 6 ≤ Nat.sqrt (m + 1) + 2) :
    Passes m value p ↔
      divide true (above p) (below p) value (p * 6) = true ∧ Passes m value (p + 1) := by
  constructor
  · intro passes
    exact ⟨passes p (le_refl p) more, fun d le inside => passes d (by omega) inside⟩
  · rintro ⟨here, later⟩ d le inside
    by_cases same : d = p
    · rw [same]
      exact here
    · exact later d (by omega) inside

theorem divide_flag {flag a b : Bool} {value n : Nat} :
    divide flag a b value n = true ↔ flag = true ∧ divide true a b value n = true := by
  simp [divide, and_assoc]

theorem trial_flags (m p : Nat) (i j : Bool) :
    ((trial m p i j).1 = true ↔ i = true ∧ Passes m (m - 1) p) ∧
      ((trial m p i j).2 = true ↔ j = true ∧ Passes m (m + 1) p) := by
  fun_induction trial m p i j with
  | case1 p i j more n i' j' open' ih =>
    rw [ih.1, ih.2, passes_more more, passes_more more, ← and_assoc, ← and_assoc, ← divide_flag,
      ← divide_flag]
    exact ⟨Iff.rfl, Iff.rfl⟩
  | case2 p i j more n i' j' closed =>
    have both : i' = false ∧ j' = false := by simpa using closed
    rw [passes_more more, passes_more more, ← and_assoc, ← and_assoc, ← divide_flag,
      ← divide_flag]
    change (i' = true ↔ i' = true ∧ _) ∧ (j' = true ↔ j' = true ∧ _)
    rw [both.1, both.2]
    simp
  | case3 p i j ended =>
    have passes : ∀ value, Passes m value p := by
      intro value d le inside
      omega
    simp [passes]

theorem divide_iff {a b : Bool} {value n : Nat} : divide true a b value n = true ↔
    (a = true → value % (n + 1) ≠ 0) ∧ (b = true → value % (n - 1) ≠ 0) := by
  cases a <;> cases b <;> simp [divide]

theorem prime_dvd_prime {q value : Nat} (prime : q.Prime) (prime' : value.Prime)
    (divides : value % q = 0) : q = value :=
  (Nat.prime_dvd_prime_iff_eq prime prime').mp (Nat.dvd_of_mod_eq_zero divides)

/-- A prime from 5 on stands next to a multiple of 6. -/
theorem prime_residue {q : Nat} (prime : q.Prime) (five : 5 ≤ q) : q % 6 = 1 ∨ q % 6 = 5 := by
  have odd : q % 2 ≠ 0 := by
    intro even
    have two := prime_dvd_prime Nat.prime_two prime even
    omega
  have rest : q % 3 ≠ 0 := by
    intro multiple
    have three := prime_dvd_prime Nat.prime_three prime multiple
    omega
  omega

theorem only_five {q : Nat} (prime : q.Prime) (multiple : q % 5 = 0) : q = 5 :=
  (prime_dvd_prime Nat.prime_five prime multiple).symm

/-- 2 and 3 do not divide the neighbours of a multiple of 6. -/
theorem factor_large {q value : Nat} (residue : value % 6 = 1 ∨ value % 6 = 5) (prime : q.Prime)
    (divides : value % q = 0) : 5 ≤ q := by
  have two_le := prime.two_le
  have not_two : q ≠ 2 := by
    intro two
    rw [two] at divides
    omega
  have not_three : q ≠ 3 := by
    intro three
    rw [three] at divides
    omega
  have not_four : q ≠ 4 := by
    intro four
    rw [four] at prime
    exact absurd prime (by decide)
  omega

/-- A number that is no prime has a divisor that is tried. -/
theorem survivor_prime {m value : Nat} (residue : value % 6 = 1 ∨ value % 6 = 5)
    (large : 5 ≤ value) (bound : value ≤ m + 1) (passes : Passes m value 1) : value.Prime := by
  by_contra composite
  have prime := Nat.minFac_prime (n := value) (by omega)
  have divides : value % value.minFac = 0 := Nat.mod_eq_zero_of_dvd (Nat.minFac_dvd value)
  have square : value.minFac * value.minFac ≤ m + 1 := by
    rw [← pow_two]
    exact (Nat.minFac_sq_le_self (by omega) composite).trans bound
  have root := Nat.le_sqrt.mpr square
  generalize value.minFac = q at prime divides root
  have five := factor_large residue prime divides
  have multiple := only_five prime
  rcases prime_residue prime five with one | last
  · -- q = 6d + 1 is tried with a
    have tried := (divide_iff.mp (passes (q / 6) (by omega) (by omega))).1
    have here : q / 6 * 6 + 1 = q := by omega
    rw [here] at tried
    apply tried _ divides
    simp only [above, Bool.and_eq_true, Bool.not_eq_true', beq_eq_false_iff_ne]
    omega
  · -- q = 6d - 1 is tried with b
    have tried := (divide_iff.mp (passes (q / 6 + 1) (by omega) (by omega))).2
    have here : (q / 6 + 1) * 6 - 1 = q := by omega
    rw [here] at tried
    apply tried _ divides
    simp only [below, Bool.not_eq_true', beq_eq_false_iff_ne]
    omega

theorem prime_passes {m value : Nat} (prime : value.Prime) (low : m ≤ value + 1) :
    Passes m value 1 := by
  intro d positive inside
  have square := Nat.sqrt_le (m + 1)
  have linear : Nat.sqrt (m + 1) * 4 ≤ Nat.sqrt (m + 1) * Nat.sqrt (m + 1) :=
    Nat.mul_le_mul_left _ (by omega)
  have undivided : ∀ n, 1 < n → n ≤ d * 6 + 1 → value % n ≠ 0 := by
    intro n more less divides
    rcases prime.eq_one_or_self_of_dvd n (Nat.dvd_of_mod_eq_zero divides) with one | self
    · omega
    · omega
  rw [divide_iff]
  exact ⟨fun _ => undivided _ (by omega) (by omega), fun _ => undivided _ (by omega) (by omega)⟩

/-- A flag that is kept, but for multiples of 5, and passes the divisions. -/
theorem kept_iff_prime {m value : Nat} {kept : Prop} (residue : value % 6 = 1 ∨ value % 6 = 5)
    (large : 5 ≤ value) (near : m ≤ value + 1 ∧ value ≤ m + 1)
    (keeps : (value % 5 = 0 → value = 5) → kept) :
    kept ∧ Passes m value 1 ↔ value.Prime := by
  constructor
  · intro passes
    exact survivor_prime residue large near.2 passes.2
  · intro prime
    exact ⟨keeps (only_five prime), prime_passes prime near.1⟩

theorem flags_decide {t : Nat} (positive : 1 ≤ t) :
    ((flags t).1 = true ↔ (6 * t - 1).Prime) ∧ ((flags t).2 = true ↔ (6 * t + 1).Prime) := by
  unfold flags
  dsimp only
  rw [(trial_flags _ _ _ _).1, (trial_flags _ _ _ _).2]
  simp only [Bool.and_eq_true, Bool.not_eq_true', beq_eq_false_iff_ne]
  constructor
  · exact kept_iff_prime (by omega) (by omega) (by omega) (by omega)
  · exact kept_iff_prime (by omega) (by omega) (by omega) (by omega)

/-- The primes from 5 to 6t + 1, the largest first. -/
def primesDown : Nat → List Nat
  | 0 => []
  | t + 1 =>
    (if (6 * (t + 1) + 1).Prime then [6 * (t + 1) + 1] else []) ++
      ((if (6 * (t + 1) - 1).Prime then [6 * (t + 1) - 1] else []) ++ primesDown t)

theorem mem_primes_down {t p : Nat} :
    p ∈ primesDown t ↔ 5 ≤ p ∧ p ≤ 6 * t + 1 ∧ p.Prime := by
  induction t with
  | zero =>
    simp only [primesDown, List.not_mem_nil, false_iff]
    omega
  | succ t ih =>
    have alone : ∀ value : Nat, p ∈ (if value.Prime then [value] else []) ↔
        p = value ∧ value.Prime := by
      intro value
      split
      · simp [*]
      · simp [*]
    rw [primesDown, List.mem_append, List.mem_append, alone, alone, ih]
    constructor
    · rintro (⟨here, prime⟩ | ⟨here, prime⟩ | ⟨low, high, prime⟩)
      · rw [here]
        exact ⟨by omega, by omega, prime⟩
      · rw [here]
        exact ⟨by omega, by omega, prime⟩
      · exact ⟨low, by omega, prime⟩
    · rintro ⟨low, high, prime⟩
      rcases prime_residue prime low with one | last
      · by_cases here : p = 6 * (t + 1) + 1
        · exact Or.inl ⟨here, here ▸ prime⟩
        · exact Or.inr (Or.inr ⟨low, by omega, prime⟩)
      · by_cases here : p = 6 * (t + 1) - 1
        · exact Or.inr (Or.inl ⟨here, here ▸ prime⟩)
        · exact Or.inr (Or.inr ⟨low, by omega, prime⟩)

theorem primes_down_decrease (t : Nat) : (primesDown t).Pairwise (· > ·) := by
  induction t with
  | zero => exact List.Pairwise.nil
  | succ t ih =>
    have alone : ∀ value : Nat, (if value.Prime then [value] else []).Pairwise (· > ·) := by
      intro value
      split
      · exact List.pairwise_singleton _ _
      · exact List.Pairwise.nil
    have member : ∀ value p : Nat, p ∈ (if value.Prime then [value] else []) → p = value := by
      intro value p mem
      split at mem
      · exact List.mem_singleton.mp mem
      · contradiction
    rw [primesDown, List.pairwise_append, List.pairwise_append]
    refine ⟨alone _, ⟨alone _, ih, ?_⟩, ?_⟩
    · intro p memP q memQ
      have here := member _ p memP
      have lower := mem_primes_down.mp memQ
      omega
    · intro p memP q memQ
      have here := member _ p memP
      rcases List.mem_append.mp memQ with next | rest
      · have there := member _ q next
        omega
      · have lower := mem_primes_down.mp rest
        omega

theorem record_runs {lines value : Nat} {flag : Bool} {modTable : List Nat}
    (room : modTable.length < lines) : record lines flag value modTable =
      some (modTable ++ (if flag then [value] else []),
        decide (lines ≤ (modTable ++ if flag then [value] else []).length)) := by
  cases flag with
  | false => simp [record, room]
  | true => simp [record, room]

theorem recorded_length {lines value : Nat} {flag : Bool} {modTable : List Nat}
    (room : modTable.length < lines) :
    (modTable ++ if flag then [value] else []).length ≤ lines := by
  cases flag with
  | false => simpa using Nat.le_of_lt room
  | true => simpa using room

/-- A round ends with the numbers of its flags, or as soon as the table is full. -/
theorem mode_round_runs {lines t : Nat} {modTable one two : List Nat}
    (room : modTable.length < lines) (first : (if (flags t).2 then [6 * t + 1] else []) = one)
    (second : (if (flags t).1 then [6 * t - 1] else []) = two) :
    modeRound lines t modTable =
      if lines ≤ (modTable ++ one).length then some (modTable ++ one, true)
      else some (modTable ++ one ++ two, decide (lines ≤ (modTable ++ one ++ two).length)) := by
  rw [modeRound, record_runs room, first, Option.bind_eq_bind, Option.bind_some]
  by_cases full : lines ≤ (modTable ++ one).length
  · rw [if_pos full, decide_eq_true full]
    rfl
  · rw [if_neg full, ← second, ← record_runs (Nat.lt_of_not_le full), decide_eq_false full]
    rfl

theorem mode_loop_takes {lines t : Nat} {modTable : List Nat} (room : modTable.length < lines)
    (enough : lines ≤ modTable.length + (primesDown t).length) :
    modeLoop lines t modTable = some ((modTable ++ primesDown t).take lines) := by
  induction t generalizing modTable with
  | zero =>
    rw [primesDown, List.length_nil] at enough
    omega
  | succ t ih =>
    have decided := @flags_decide (t + 1) (by omega)
    have shortOne := @recorded_length lines (6 * (t + 1) + 1) (flags (t + 1)).2 modTable room
    simp only [primesDown, ← decided.1, ← decided.2] at enough ⊢
    generalize first : (if (flags (t + 1)).2 = true then [6 * (t + 1) + 1] else []) = one
      at enough shortOne ⊢
    rw [← List.append_assoc, modeLoop, if_pos room, mode_round_runs room first rfl]
    by_cases full : lines ≤ (modTable ++ one).length
    · rw [if_pos full, List.take_left' (by omega)]
      rfl
    · have shortTwo := @recorded_length lines (6 * (t + 1) - 1) (flags (t + 1)).1
        (modTable ++ one) (by omega)
      rw [if_neg full]
      generalize (if (flags (t + 1)).1 = true then [6 * (t + 1) - 1] else []) = two
        at enough shortTwo ⊢
      rw [← List.append_assoc]
      by_cases full' : lines ≤ (modTable ++ one ++ two).length
      · rw [List.take_left' (by omega), decide_eq_true full']
        rfl
      · have later := @ih (modTable ++ one ++ two) (by omega) (by
          simp only [List.length_append] at enough ⊢
          omega)
        rw [← later, decide_eq_false full']
        rfl

def candidates (maxLine : Nat) : Finset Nat :=
  (Finset.range (6 * (maxLine / 6) + 2)).filter fun p => 5 ≤ p ∧ p.Prime

theorem mem_candidates {maxLine p : Nat} :
    p ∈ candidates maxLine ↔ p ∈ primesDown (maxLine / 6) := by
  rw [candidates, Finset.mem_filter, Finset.mem_range, mem_primes_down]
  constructor
  · rintro ⟨high, low, prime⟩
    exact ⟨low, by omega, prime⟩
  · rintro ⟨low, high, prime⟩
    exact ⟨by omega, low, prime⟩

theorem candidates_count (maxLine : Nat) :
    (candidates maxLine).card = (primesDown (maxLine / 6)).length := by
  have nodup : (primesDown (maxLine / 6)).Nodup :=
    (primes_down_decrease (maxLine / 6)).imp fun more => Nat.ne_of_gt more
  have same : candidates maxLine = (primesDown (maxLine / 6)).toFinset := by
    ext p
    rw [mem_candidates, List.mem_toFinset]
  rw [same, List.toFinset_card_of_nodup nodup]

/-- modTable gets the largest primes up to 6 * (maxLine / 6) + 1, each smaller than the one
    before it. -/
theorem modes_are_largest_primes {maxLine lines : Nat} (five : 5 ≤ maxLine) (positive : 1 ≤ lines)
    (enough : lines ≤ (candidates maxLine).card) :
    ∃ modTable, getMode maxLine lines = some modTable ∧ modTable.length = lines ∧
      modTable.Pairwise (· > ·) ∧ (∀ p ∈ modTable, p ∈ candidates maxLine) ∧
      ∀ p ∈ candidates maxLine, p ∉ modTable → ∀ q ∈ modTable, p < q := by
  have decrease := primes_down_decrease (maxLine / 6)
  have parts := List.take_append_drop lines (primesDown (maxLine / 6))
  rw [candidates_count] at enough
  refine ⟨(primesDown (maxLine / 6)).take lines, ?_, ?_, ?_, ?_, ?_⟩
  · rw [getMode, if_neg (by omega), mode_loop_takes positive (by simpa using enough),
      List.nil_append]
  · rw [List.length_take]
    omega
  · exact decrease.take
  · intro p mem
    exact mem_candidates.mpr (List.mem_of_mem_take mem)
  · intro p mem other q memQ
    rw [← parts, List.pairwise_append] at decrease
    rw [mem_candidates, ← parts, List.mem_append] at mem
    exact decrease.2.2 q memQ p (mem.resolve_left other)

theorem three_largest_below_25 :
    ∃ modTable, getMode 25 3 = some modTable ∧ modTable.length = 3 ∧
      modTable.Pairwise (· > ·) ∧ (∀ p ∈ modTable, p ∈ candidates 25) ∧
      ∀ p ∈ candidates 25, p ∉ modTable → ∀ q ∈ modTable, p < q :=
  modes_are_largest_primes (by decide) (by decide) (by decide +kernel)

end UC.ShmModes
