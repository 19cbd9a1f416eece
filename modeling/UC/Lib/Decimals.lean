import Mathlib.Data.List.TakeWhile
import UC.Lib.Streams

/- Integers in decimal, as << and printf write them: extraction gets them back from a text, with
   white space in front and no digit behind. -/
namespace UC.Decimals
open UC.Streams

def decimal (n : Int) : List Char :=
  if n < 0 then '-' :: Nat.toDigits 10 n.natAbs else Nat.toDigits 10 n.natAbs

def White (gap : List Char) : Prop := ∀ c ∈ gap, isSpace c = true

instance (gap : List Char) : Decidable (White gap) :=
  List.decidableBAll (fun c => isSpace c = true) gap

/-- What may stand behind a number. -/
def Behind (rest : List Char) : Prop := ∀ c, rest.head? = some c → c.isDigit = false

theorem to_digits_are (n : Nat) : ∀ c ∈ Nat.toDigits 10 n, c.isDigit = true := fun _ inside =>
  Nat.isDigit_of_mem_toDigits (by decide) (by decide) inside

theorem digit_code {c : Char} (digit : c.isDigit = true) : '0'.toNat ≤ c.toNat := by
  simp only [Char.isDigit, Bool.and_eq_true, decide_eq_true_eq] at digit
  exact digit.1

theorem digits_value_nat (digits : List Char) (all : ∀ c ∈ digits, c.isDigit = true) (value : Nat) :
    digits.foldl (fun value d => 10 * value + (d.toNat - '0'.toNat : Int)) (value : Int) =
      (Nat.ofDigitChars 10 digits value : Nat) := by
  induction digits generalizing value with
  | nil => rfl
  | cons d digits ih =>
    have digit := digit_code (all d List.mem_cons_self)
    have later := ih (fun c inside => all c (List.mem_cons_of_mem d inside))
      (10 * value + (d.toNat - '0'.toNat))
    rw [List.foldl_cons, Nat.ofDigitChars_cons, ← later]
    congr 1
    omega

theorem digits_value_to_digits (n : Nat) : digitsValue (Nat.toDigits 10 n) = n := by
  rw [digitsValue]
  exact (digits_value_nat _ (to_digits_are n) 0).trans (by rw [Nat.ofDigitChars_ten_toDigits])

theorem cut_digits {digits rest : List Char} (all : ∀ c ∈ digits, c.isDigit = true)
    (behind : Behind rest) :
    (digits ++ rest).takeWhile Char.isDigit = digits ∧
      (digits ++ rest).dropWhile Char.isDigit = rest := by
  have stop : rest.takeWhile Char.isDigit = [] ∧ rest.dropWhile Char.isDigit = rest := by
    cases rest with
    | nil => exact ⟨rfl, rfl⟩
    | cons c rest =>
      have other := behind c rfl
      simp [other]
  rw [List.takeWhile_append_of_pos all, List.dropWhile_append_of_pos all, stop.1, stop.2,
    List.append_nil]
  exact ⟨rfl, rfl⟩

theorem digit_not_sign {c : Char} (digit : c.isDigit = true) : c ≠ '-' ∧ c ≠ '+' := by
  constructor
  · rintro rfl
    cases digit
  · rintro rfl
    cases digit

theorem number_decimal {low high n : Int} (least : low ≤ n) (most : n ≤ high) {rest : List Char}
    (behind : Behind rest) : number low high (decimal n ++ rest) = (n, true, rest) := by
  have value := digits_value_to_digits n.natAbs
  have cut := cut_digits (to_digits_are n.natAbs) behind
  have clamped : max low (min high n) = n := by omega
  have found : (Nat.toDigits 10 n.natAbs).isEmpty = false := by simp
  by_cases negative : n < 0
  · have opposite : -(n.natAbs : Int) = n := by omega
    rw [decimal, if_pos negative]
    simp only [number, List.cons_append, List.head?_cons, true_or, if_true, List.tail_cons, cut,
      value, found, opposite, clamped]
    simp [least, most]
  · have same : (n.natAbs : Int) = n := by omega
    obtain ⟨d, digits, split⟩ := List.exists_cons_of_ne_nil
      (Nat.toDigits_ne_nil (n := n.natAbs) (b := 10))
    have sign := digit_not_sign (to_digits_are n.natAbs d (split ▸ List.mem_cons_self))
    have head : (Nat.toDigits 10 n.natAbs ++ rest).head? = some d := by
      rw [split]
      rfl
    rw [decimal, if_neg negative]
    simp only [number, head, Option.some.injEq, sign.1, sign.2, or_self, if_false, cut, value,
      found, same, clamped]
    simp [least, most]

theorem space_not_digit {c : Char} (space : isSpace c = true) : c.isDigit = false := by
  rw [isSpace, decide_eq_true_eq] at space
  simp only [List.mem_cons, List.not_mem_nil, or_false] at space
  rcases space with rfl | rfl | rfl | rfl | rfl | rfl <;> rfl

theorem decimal_head (n : Int) : ∃ c rest, decimal n = c :: rest ∧ isSpace c = false := by
  rw [decimal]
  split
  · exact ⟨_, _, rfl, rfl⟩
  · obtain ⟨d, digits, split⟩ := List.exists_cons_of_ne_nil
      (Nat.toDigits_ne_nil (n := n.natAbs) (b := 10))
    have digit := to_digits_are n.natAbs d (split ▸ List.mem_cons_self)
    refine ⟨d, digits, split, ?_⟩
    rw [← Bool.not_eq_true]
    intro space
    rw [space_not_digit space] at digit
    cases digit

theorem skip_gap {gap rest : List Char} (white : White gap) {c : Char} (other : isSpace c = false) :
    skipSpace (gap ++ c :: rest) = c :: rest := by
  rw [skipSpace, List.dropWhile_append_of_pos white, List.dropWhile_cons_of_neg (by simp [other])]

theorem skip_white {gap : List Char} (white : White gap) : skipSpace gap = [] :=
  List.dropWhile_eq_nil_iff.mpr white

/-- Numbers, each with what is in front of it. -/
def numbersText (entries : List (List Char × Int)) : List Char :=
  entries.flatMap fun entry => entry.1 ++ decimal entry.2

/-- White space separates the number from what is before. -/
abbrev Apart (entry : List Char × Int) : Prop := White entry.1 ∧ entry.1 ≠ []

theorem behind_gap {gap rest : List Char} (white : White gap) (apart : gap ≠ []) :
    Behind (gap ++ rest) := by
  intro c first
  cases gap with
  | nil => exact absurd rfl apart
  | cons d gap =>
    cases first
    exact space_not_digit (white c List.mem_cons_self)

theorem numbers_text_cons (entry : List Char × Int) (entries : List (List Char × Int))
    (rest : List Char) : numbersText (entry :: entries) ++ rest =
      entry.1 ++ (decimal entry.2 ++ (numbersText entries ++ rest)) := by
  simp [numbersText]

theorem behind_numbers {entries : List (List Char × Int)} {rest : List Char}
    (gaps : ∀ entry ∈ entries, Apart entry) (behind : Behind rest) :
    Behind (numbersText entries ++ rest) := by
  cases entries with
  | nil => exact behind
  | cons entry entries =>
    have gap := gaps entry List.mem_cons_self
    rw [numbers_text_cons]
    exact behind_gap gap.1 gap.2

/-- The stream behind what was read: at the end it knows that it is. -/
def after (rest : List Char) : Stream :=
  { text := rest, eofbit := rest.isEmpty, failbit := false }

theorem read_int_decimal {low high n : Int} (least : low ≤ n) (most : n ≤ high)
    {gap rest : List Char} (white : White gap) (behind : Behind rest) (k : Int) :
    readInt low high (good (gap ++ (decimal n ++ rest))) k = (n, after rest) := by
  obtain ⟨c, digits, head, other⟩ := decimal_head n
  have skipped : skipSpace (gap ++ (decimal n ++ rest)) = decimal n ++ rest := by
    rw [head]
    exact skip_gap white other
  have nonempty : skipSpace (gap ++ (decimal n ++ rest)) ≠ [] := by
    rw [skipped, head]
    exact List.cons_ne_nil _ _
  have field := number_decimal least most behind
  rw [← skipped] at field
  exact read_int_good nonempty field k

end UC.Decimals
