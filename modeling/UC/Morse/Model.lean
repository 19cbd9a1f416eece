import UC.Lib.Streams

/- encodeMorse and decodeMorse of example_morse.cpp. A string is the list of its characters in
   front of the NUL. An index outside the table, a read of temp before anything is in it, a token
   that does not fit into temp and a pointer behind the NUL are none. -/
namespace UC.Morse
open UC.Streams

def morse_table : List (List Char) :=
  [['.', '_'], -- A
   ['_', '.', '.', '.'], -- B
   ['_', '.', '_', '.'], -- C
   ['_', '.', '.'], -- D
   ['.'], -- E
   ['.', '.', '_', '.'], -- F
   ['_', '_', '.'], -- G
   ['.', '.', '.', '.'], -- H
   ['.', '.'], -- I
   ['.', '_', '_', '_'], -- J
   ['_', '.', '_'], -- K
   ['.', '_', '.', '.'], -- L
   ['_', '_'], -- M
   ['_', '.'], -- N
   ['_', '_', '_'], -- O
   ['.', '_', '_', '.'], -- P
   ['_', '_', '.', '_'], -- Q
   ['.', '_', '.'], -- R
   ['.', '.', '.'], -- S
   ['_'], -- T
   ['.', '.', '_'], -- U
   ['.', '.', '.', '_'], -- V
   ['.', '_', '_'], -- W
   ['_', '.', '.', '_'], -- X
   ['_', '.', '_', '_'], -- Y
   ['_', '_', '.', '.'], -- Z
   ['_', '_', '_', '_', '_'], -- 0
   ['.', '_', '_', '_', '_'], -- 1
   ['.', '.', '_', '_', '_'], -- 2
   ['.', '.', '.', '_', '_'], -- 3
   ['.', '.', '.', '.', '_'], -- 4
   ['.', '.', '.', '.', '.'], -- 5
   ['_', '.', '.', '.', '.'], -- 6
   ['_', '_', '.', '.', '.'], -- 7
   ['_', '_', '_', '.', '.'], -- 8
   ['_', '_', '_', '_', '.']] -- 9

def isalpha (c : Char) : Bool := ('A' ≤ c && c ≤ 'Z') || ('a' ≤ c && c ≤ 'z')

def isdigit (c : Char) : Bool := '0' ≤ c && c ≤ '9'

def toupper (c : Char) : Char :=
  if 'a' ≤ c && c ≤ 'z' then Char.ofNat (c.toNat - ('a'.toNat - 'A'.toNat)) else c

/-- What the first if of a round appends to d. -/
def letterCode (c : Char) : Option (List Char) :=
  if isalpha c then morse_table[(toupper c).toNat - 'A'.toNat]? else some []

/-- What the second if of a round appends to d. -/
def digitCode (c : Char) : Option (List Char) :=
  if isdigit c then morse_table[c.toNat - '0'.toNat + ('Z'.toNat - 'A'.toNat) + 1]? else some []

/-- What one round of encodeMorse appends to d. -/
def encodeRound (c : Char) : Option (List Char) := do
  let letter ← letterCode c
  let digit ← digitCode c
  some (letter ++ digit ++ [' '])

def encodeMorse : List Char → Option (List Char)
  | [] => some []
  | c :: s => do
    let code ← encodeRound c
    let rest ← encodeMorse s
    some (code ++ rest)

/-- What temp holds once sscanf has read something. -/
structure Token where
  text : List Char
  nonempty : text ≠ []
  fits : text.length < 50

/-- sscanf(s,"%s",temp); temp is kept at the end of s. -/
def sscanf (s : List Char) (temp : Option Token) : Option (Option Token) :=
  match (skipSpace s).takeWhile (fun c => !isSpace c) with
  | [] => some temp
  | c :: rest =>
    if fits : (c :: rest).length < 50 then some (some ⟨c :: rest, by simp, fits⟩) else none

/-- 'A'+i or '0'+i-26. -/
def symbol (i : Nat) : Char :=
  Char.ofNat (if i < 26 then 'A'.toNat + i else '0'.toNat + i - 26)

/-- The for loop: what it writes to d. -/
def lookup (temp : List Char) : List Char :=
  (List.range 36).flatMap fun i => if morse_table[i]? = some temp then [symbol i] else []

/-- while(*s==' ')s++. -/
def skipBlanks (s : List Char) : List Char := s.dropWhile (· = ' ')

theorem skip_shortens {s : List Char} (temp : Token) (inside : temp.text.length ≤ s.length) :
    (skipBlanks (s.drop temp.text.length)).length < s.length := by
  have positive := List.length_pos_of_ne_nil temp.nonempty
  have shorter := (List.dropWhile_suffix (l := s.drop temp.text.length) (· = ' ')).length_le
  rw [List.length_drop] at shorter
  unfold skipBlanks
  omega

/-- The while loop: what it writes to d, and what temp was in each round. -/
def decodeLoop (temp : Option Token) (s : List Char) : Option (List Char × List (List Char)) :=
  if s = [] then some ([], [])
  else
    match sscanf s temp with
    | none => none
    | some none => none
    | some (some temp) =>
      if _inside : temp.text.length ≤ s.length then do
        let (d, read) ← decodeLoop (some temp) (skipBlanks (s.drop temp.text.length))
        some (lookup temp.text ++ d, temp.text :: read)
      else none
termination_by s.length
decreasing_by exact skip_shortens temp (by assumption)

/-- d behind decodeMorse, and the tokens it read. -/
def decodeMorse (s : List Char) : Option (List Char × List (List Char)) := decodeLoop none s

def isalnum (c : Char) : Bool := isalpha c || isdigit c

def index (c : Char) : Nat :=
  if isalpha c then (toupper c).toNat - 'A'.toNat else c.toNat - '0'.toNat + 26

def entry (c : Char) : List Char := morse_table.getD (index c) []

theorem char_le {a b : Char} : a ≤ b ↔ a.toNat ≤ b.toNat := UInt32.le_iff_toNat_le

theorem isalpha_iff {c : Char} : isalpha c ↔
    (65 ≤ c.toNat ∧ c.toNat ≤ 90) ∨ (97 ≤ c.toNat ∧ c.toNat ≤ 122) := by
  simp only [isalpha, Bool.or_eq_true, Bool.and_eq_true, decide_eq_true_eq, char_le]
  exact Iff.rfl

theorem isdigit_iff {c : Char} : isdigit c ↔ 48 ≤ c.toNat ∧ c.toNat ≤ 57 := by
  simp only [isdigit, Bool.and_eq_true, decide_eq_true_eq, char_le]
  exact Iff.rfl

theorem toupper_lower {c : Char} (low : 97 ≤ c.toNat) (high : c.toNat ≤ 122) :
    (toupper c).toNat = c.toNat - 32 := by
  have lower : ('a' ≤ c && c ≤ 'z') = true := by
    simp only [Bool.and_eq_true, decide_eq_true_eq, char_le]
    exact ⟨low, high⟩
  have valid : Nat.isValidChar (c.toNat - 32) := by
    left
    omega
  rw [toupper, if_pos lower]
  change (Char.ofNat (c.toNat - 32)).toNat = _
  rw [Char.ofNat, dif_pos valid]
  rfl

theorem toupper_other {c : Char} (other : c.toNat < 97 ∨ 122 < c.toNat) : toupper c = c := by
  have upper : ¬ ('a' ≤ c && c ≤ 'z') = true := by
    simp only [Bool.and_eq_true, decide_eq_true_eq, char_le]
    intro lower
    have low : 97 ≤ c.toNat := lower.1
    have high : c.toNat ≤ 122 := lower.2
    omega
  exact if_neg upper

theorem toupper_range {c : Char} (alpha : isalpha c) :
    65 ≤ (toupper c).toNat ∧ (toupper c).toNat ≤ 90 := by
  rcases isalpha_iff.mp alpha with upper | lower
  · rw [toupper_other (by omega)]
    exact upper
  · rw [toupper_lower lower.1 lower.2]
    omega

theorem index_letter {c : Char} (alpha : isalpha c) : index c = (toupper c).toNat - 65 :=
  if_pos alpha

theorem digit_not_letter {c : Char} (digit : isdigit c) : ¬ isalpha c := by
  rw [isalpha_iff]
  have range := isdigit_iff.mp digit
  omega

theorem index_digit {c : Char} (digit : isdigit c) : index c = c.toNat - 48 + 26 :=
  if_neg (digit_not_letter digit)

theorem index_inside {c : Char} (alnum : isalnum c) : index c < 36 := by
  rcases Bool.or_eq_true_iff.mp alnum with alpha | digit
  · have range := toupper_range alpha
    rw [index_letter alpha]
    omega
  · have range := isdigit_iff.mp digit
    rw [index_digit digit]
    omega

theorem symbol_index {c : Char} (alnum : isalnum c) : symbol (index c) = toupper c := by
  rcases Bool.or_eq_true_iff.mp alnum with alpha | digit
  · have range := toupper_range alpha
    have back : 65 + ((toupper c).toNat - 65) = (toupper c).toNat := by omega
    rw [symbol, index_letter alpha, if_pos (by omega)]
    change Char.ofNat (65 + _) = _
    rw [back, Char.ofNat_toNat]
  · have range := isdigit_iff.mp digit
    have back : 48 + (c.toNat - 48 + 26) - 26 = c.toNat := by omega
    rw [symbol, index_digit digit, if_neg (by omega)]
    change Char.ofNat (48 + _ - 26) = _
    rw [back, Char.ofNat_toNat, toupper_other (by omega)]

/-- The two conditions of a round exclude each other. -/
theorem encode_round_alnum {c : Char} (alnum : isalnum c) :
    encodeRound c = some (entry c ++ [' ']) := by
  have inside := index_inside alnum
  have found : morse_table[index c]? = some (entry c) := by
    rw [entry, List.getD_eq_getElem?_getD, List.getElem?_eq_getElem inside]
    rfl
  rcases Bool.or_eq_true_iff.mp alnum with alpha | digit
  · have none : digitCode c = some [] := if_neg fun digit => digit_not_letter digit alpha
    have letter : letterCode c = some (entry c) := by
      rw [index_letter alpha] at found
      rw [letterCode, if_pos alpha]
      exact found
    rw [encodeRound, letter, none]
    simp
  · have none : letterCode c = some [] := if_neg (digit_not_letter digit)
    have digit' : digitCode c = some (entry c) := by
      rw [index_digit digit] at found
      rw [digitCode, if_pos digit]
      exact found
    rw [encodeRound, none, digit']
    rfl

theorem encode_round_other {c : Char} (other : isalnum c = false) :
    encodeRound c = some [' '] := by
  rw [isalnum, Bool.or_eq_false_iff] at other
  rw [encodeRound, letterCode, digitCode, other.1, other.2]
  rfl

/-- What encodeMorse appends for a character. -/
def code (c : Char) : List Char := if isalnum c then entry c ++ [' '] else [' ']

theorem encode_runs (s : List Char) : encodeMorse s = some (s.flatMap code) := by
  induction s with
  | nil => rfl
  | cons c s ih =>
    have first : encodeRound c = some (code c) := by
      cases alnum : isalnum c with
      | true => rw [encode_round_alnum alnum, code, if_pos alnum]
      | false => rw [encode_round_other alnum, code, alnum]; rfl
    rw [encodeMorse, first, ih, List.flatMap_cons]
    rfl

theorem table_marks : ∀ entry ∈ morse_table, ∀ c ∈ entry, c = '.' ∨ c = '_' := by
  simp [morse_table]

theorem table_lengths : ∀ entry ∈ morse_table, entry ≠ [] ∧ entry.length ≤ 5 := by
  decide

theorem lookup_table : ∀ i : Fin 36, lookup (morse_table.getD i []) = [symbol i] := by
  decide +kernel

theorem symbols_alnum : ∀ i : Fin 36, isalnum (symbol i) ∧ index (symbol i) = i := by
  decide +kernel

theorem entry_in_table {c : Char} (alnum : isalnum c) : entry c ∈ morse_table := by
  have inside : index c < morse_table.length := index_inside alnum
  rw [entry, List.getD_eq_getElem?_getD, List.getElem?_eq_getElem inside]
  exact List.getElem_mem inside

theorem lookup_entry {c : Char} (alnum : isalnum c) : lookup (entry c) = [toupper c] := by
  rw [← symbol_index alnum]
  exact lookup_table ⟨index c, index_inside alnum⟩

end UC.Morse
