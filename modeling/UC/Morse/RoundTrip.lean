import Mathlib.Data.List.TakeWhile
import UC.Morse.Model

/- Decoding what was encoded, and encoding what was decoded. Blanks in front of the first token
   move the cursor of decodeMorse, because s advances by the token from before them. -/
namespace UC.Morse
open UC.Streams

/-- The letters and digits of a text, letters in upper case. -/
def plain (s : List Char) : List Char := (s.filter isalnum).map toupper

/-- The tokens that encodeMorse writes. -/
def written (s : List Char) : List (List Char) := (s.filter isalnum).map entry

theorem other_dropped {c : Char} (other : isalnum c = false) (s : List Char) :
    plain (c :: s) = plain s ∧ written (c :: s) = written s := by
  simp [plain, written, other]

theorem alnum_kept {c : Char} (alnum : isalnum c) (s : List Char) :
    plain (c :: s) = toupper c :: plain s ∧ written (c :: s) = entry c :: written s := by
  simp [plain, written, alnum]

abbrev Marks (token : List Char) : Prop := token ≠ [] ∧ token.length < 50 ∧
  ∀ c ∈ token, c = '.' ∨ c = '_'

theorem entry_marks {c : Char} (alnum : isalnum c) : Marks (entry c) := by
  have mem := entry_in_table alnum
  have length := table_lengths _ mem
  exact ⟨length.1, by omega, table_marks _ mem⟩

theorem mark_not_space {c : Char} (mark : c = '.' ∨ c = '_') : isSpace c = false := by
  rcases mark with dot | dash
  · subst dot
    rfl
  · subst dash
    rfl

theorem sscanf_reads {token : List Char} (marks : Marks token) (blanks : Nat) (rest : List Char)
    (temp : Option Token) : sscanf (List.replicate blanks ' ' ++ (token ++ ' ' :: rest)) temp =
      some (some ⟨token, marks.1, marks.2.1⟩) := by
  obtain ⟨nonempty, fits, all⟩ := marks
  cases token with
  | nil => contradiction
  | cons c token =>
    have skip : skipSpace (List.replicate blanks ' ' ++ (c :: token ++ ' ' :: rest)) =
        c :: token ++ ' ' :: rest := by
      have head := mark_not_space (all c (by simp))
      rw [skipSpace, List.dropWhile_append_of_pos]
      · rw [List.cons_append, List.dropWhile_cons, head]
        rfl
      · intro b mem
        rw [List.eq_of_mem_replicate mem]
        rfl
    have take : (c :: token ++ ' ' :: rest).takeWhile (fun c => !isSpace c) = c :: token := by
      rw [List.takeWhile_append_of_pos]
      · simp [isSpace]
      · intro b mem
        rw [mark_not_space (all b mem)]
        rfl
    unfold sscanf
    rw [skip, take]
    exact dif_pos fits

theorem decode_round {token : List Char} (marks : Marks token) (blanks : Nat) (rest : List Char)
    (temp : Option Token) :
    decodeLoop temp (List.replicate blanks ' ' ++ (token ++ ' ' :: rest)) =
      (decodeLoop (some ⟨token, marks.1, marks.2.1⟩) (skipBlanks
        ((List.replicate blanks ' ' ++ (token ++ ' ' :: rest)).drop token.length))).map
          fun behind => (lookup token ++ behind.1, token :: behind.2) := by
  have nonempty : List.replicate blanks ' ' ++ (token ++ ' ' :: rest) ≠ [] := by simp
  have inside : token.length ≤ (List.replicate blanks ' ' ++ (token ++ ' ' :: rest)).length := by
    simp
    omega
  rw [decodeLoop, if_neg nonempty, sscanf_reads marks]
  dsimp only
  rw [dif_pos inside]
  cases decodeLoop (some ⟨token, marks.1, marks.2.1⟩) (skipBlanks
    ((List.replicate blanks ' ' ++ (token ++ ' ' :: rest)).drop token.length)) with
  | none => rfl
  | some behind => rfl

theorem decode_round_aligned {token : List Char} (marks : Marks token) (rest : List Char)
    (temp : Option Token) : decodeLoop temp (token ++ ' ' :: rest) =
      (decodeLoop (some ⟨token, marks.1, marks.2.1⟩) (skipBlanks rest)).map
        fun behind => (lookup token ++ behind.1, token :: behind.2) := by
  have round := decode_round marks 0 rest temp
  rw [List.replicate_zero, List.nil_append, List.drop_left] at round
  exact round

theorem skip_blanks_marks {token : List Char} (marks : Marks token) (rest : List Char) :
    skipBlanks (token ++ rest) = token ++ rest := by
  obtain ⟨nonempty, _, all⟩ := marks
  cases token with
  | nil => contradiction
  | cons c token =>
    rcases all c (by simp) with dot | dash
    · rw [dot]
      rfl
    · rw [dash]
      rfl

theorem decode_aligned (s : List Char) (temp : Option Token) :
    decodeLoop temp (skipBlanks (s.flatMap code)) = some (plain s, written s) := by
  induction s generalizing temp with
  | nil => simp [skipBlanks, decodeLoop, plain, written]
  | cons c s ih =>
    cases alnum : isalnum c with
    | false =>
      have blank : code c = [' '] := by
        rw [code, alnum]
        rfl
      have skip : skipBlanks ((c :: s).flatMap code) = skipBlanks (s.flatMap code) := by
        rw [List.flatMap_cons, blank]
        rfl
      have dropped := other_dropped alnum s
      rw [skip, ih, dropped.1, dropped.2]
    | true =>
      have marks := entry_marks alnum
      have first : (c :: s).flatMap code = entry c ++ ' ' :: s.flatMap code := by
        rw [List.flatMap_cons, code, if_pos alnum, List.append_assoc]
        rfl
      have kept := alnum_kept alnum s
      rw [first, skip_blanks_marks marks, decode_round_aligned marks, ih, lookup_entry alnum,
        kept.1, kept.2]
      rfl

/-- The text comes back, and every token that is read was written. -/
def Returns (s : List Char) : Prop :=
  ∃ m d read, encodeMorse s = some m ∧ decodeMorse m = some (d, read) ∧ d = plain s ∧
    ∀ token ∈ read, token ∈ written s

/-- A text that begins with a letter or digit is encoded without a blank in front. -/
theorem aligned_start {s : List Char} (aligned : ∀ c ∈ s.head?, isalnum c) :
    skipBlanks (s.flatMap code) = s.flatMap code := by
  cases s with
  | nil => rfl
  | cons c s =>
    have alnum := aligned c rfl
    rw [List.flatMap_cons, code, if_pos alnum, List.append_assoc]
    exact skip_blanks_marks (entry_marks alnum) _

theorem aligned_returns {s : List Char} (aligned : ∀ c ∈ s.head?, isalnum c) : Returns s := by
  have run := decode_aligned s none
  rw [aligned_start aligned] at run
  exact ⟨_, _, _, encode_runs s, run, rfl, fun _ mem => mem⟩

theorem others_encoded {others : List Char} (all : ∀ c ∈ others, isalnum c = false) :
    others.flatMap code = List.replicate others.length ' ' := by
  induction others with
  | nil => rfl
  | cons c others ih =>
    have blank : code c = [' '] := by
      rw [code, all c (by simp)]
      rfl
    rw [List.flatMap_cons, blank, ih (fun c mem => all c (by simp [mem]))]
    rfl

/-- With nothing but blanks, temp is read before anything is in it. -/
theorem blanks_read_nothing (k : Nat) : decodeMorse (List.replicate (k + 1) ' ') = none := by
  have skip : skipSpace (List.replicate (k + 1) ' ') = [] := by
    rw [skipSpace, List.dropWhile_eq_nil_iff]
    intro b mem
    rw [List.eq_of_mem_replicate mem]
    rfl
  have nothing : sscanf (List.replicate (k + 1) ' ') none = some none := by
    unfold sscanf
    rw [skip]
    rfl
  rw [decodeMorse, decodeLoop, if_neg (by simp), nothing]

/-- Behind blanks the first token, or its last marks, are read once more. -/
theorem read_once_more {token : List Char} (marks : Marks token) {blanks : Nat}
    (some_blank : 0 < blanks) (rest : List Char) : ∃ again, Marks again ∧
      skipBlanks ((List.replicate blanks ' ' ++ (token ++ ' ' :: rest)).drop token.length) =
        again ++ ' ' :: rest := by
  by_cases all : token.length ≤ blanks
  · refine ⟨token, marks, ?_⟩
    rw [List.drop_append_of_le_length (by simpa using all), List.drop_replicate, skipBlanks,
      List.dropWhile_append_of_pos]
    · exact skip_blanks_marks marks _
    · intro b mem
      rw [List.eq_of_mem_replicate mem]
      rfl
  · have last : Marks (token.drop (token.length - blanks)) := by
      refine ⟨?_, ?_, ?_⟩
      · rw [ne_eq, List.drop_eq_nil_iff]
        omega
      · rw [List.length_drop]
        have fits := marks.2.1
        omega
      · intro c mem
        exact marks.2.2 c (List.mem_of_mem_drop mem)
    refine ⟨token.drop (token.length - blanks), last, ?_⟩
    rw [List.drop_append, List.drop_eq_nil_of_le (by simp; omega), List.nil_append,
      List.length_replicate, List.drop_append_of_le_length (by omega)]
    exact skip_blanks_marks last _

theorem misaligned_fails {others : List Char} (all : ∀ c ∈ others, isalnum c = false)
    (nonempty : others ≠ []) {rest : List Char} (next : ∀ c ∈ rest.head?, isalnum c) :
    ¬ Returns (others ++ rest) := by
  rintro ⟨m, d, read, encoded, decoded, same, wrote⟩
  have positive := List.length_pos_of_ne_nil nonempty
  have plain_rest : plain (others ++ rest) = plain rest := by
    rw [plain, List.filter_append, List.filter_eq_nil_iff.mpr (by simpa using all)]
    rfl
  rw [encode_runs, List.flatMap_append, others_encoded all, Option.some.injEq] at encoded
  subst encoded
  cases rest with
  | nil =>
    obtain ⟨k, length⟩ := Nat.exists_eq_succ_of_ne_zero (Nat.ne_of_gt positive)
    rw [List.flatMap_nil, List.append_nil, length, blanks_read_nothing] at decoded
    cases decoded
  | cons c rest =>
    have alnum := next c rfl
    obtain ⟨again, marks, skip⟩ :=
      read_once_more (entry_marks alnum) positive (rest.flatMap code)
    have first : (c :: rest).flatMap code = entry c ++ ' ' :: rest.flatMap code := by
      rw [List.flatMap_cons, code, if_pos alnum, List.append_assoc]
      rfl
    rw [decodeMorse, first, decode_round (entry_marks alnum), skip, decode_round_aligned marks,
      decode_aligned, Option.map_some, Option.map_some, Option.some.injEq, Prod.mk.injEq] at decoded
    obtain ⟨text, tokens⟩ := decoded
    have extra : lookup again = [] := by
      rw [same, plain_rest, lookup_entry alnum, (alnum_kept alnum rest).1, List.singleton_append,
        List.cons.injEq] at text
      simpa using text.2
    have known := wrote again (by rw [← tokens]; simp)
    obtain ⟨c', mem, entry'⟩ := List.mem_map.mp known
    rw [← entry', lookup_entry (List.mem_filter.mp mem).2] at extra
    contradiction

/-- The text comes back exactly when nothing stands in front of its first letter or digit. -/
theorem morse_returns_iff (s : List Char) : Returns s ↔ ∀ c ∈ s.head?, isalnum c := by
  constructor
  · intro returns c head
    by_contra other
    have split := List.takeWhile_append_dropWhile (p := fun c => !isalnum c) (l := s)
    rw [← split] at returns
    apply misaligned_fails _ _ _ returns
    · intro b mem
      simpa using List.mem_takeWhile_imp mem
    · cases s with
      | nil => contradiction
      | cons b s =>
        have same : b = c := by simpa using head
        rw [same, List.takeWhile_cons, if_pos (by simpa using other)]
        exact List.cons_ne_nil c _
    · intro b mem
      have stops := List.head?_dropWhile_not (fun c => !isalnum c) s
      rw [Option.mem_def.mp mem] at stops
      simpa using stops
  · exact aligned_returns

/-- " A" comes back as "AT": of "._" the last mark is read once more. -/
theorem blank_first_adds_letter :
    encodeMorse [' ', 'A'] = some [' ', '.', '_', ' '] ∧
      decodeMorse [' ', '.', '_', ' '] = some (['A', 'T'], [['.', '_'], ['_']]) ∧
      plain [' ', 'A'] = ['A'] ∧ ¬ Returns [' ', 'A'] := by
  have first : Marks ['.', '_'] := by simp [Marks]
  have again : Marks ['_'] := by simp [Marks]
  have blank : ∀ c ∈ [' '], isalnum c = false := List.forall_mem_singleton.mpr rfl
  have letter : ∀ c ∈ ['A'].head?, isalnum c := by
    intro c head
    cases head
    rfl
  refine ⟨by decide, ?_, by decide, ?_⟩
  · have rounds : decodeMorse [' ', '.', '_', ' '] =
        ((some ([], [])).map fun behind : List Char × List (List Char) =>
          (lookup ['_'] ++ behind.1, ['_'] :: behind.2)).map fun behind =>
            (lookup ['.', '_'] ++ behind.1, ['.', '_'] :: behind.2) := by
      have one := decode_round first 1 [] none
      have two := decode_round_aligned again [] (some ⟨['.', '_'], first.1, first.2.1⟩)
      have ended := @decode_aligned [] (some ⟨['_'], again.1, again.2.1⟩)
      exact one.trans (congrArg _ (two.trans (congrArg _ ended)))
    rw [rounds]
    decide +kernel
  · exact misaligned_fails blank (List.cons_ne_nil _ _) letter

def letter (entry : List Char) : Char := symbol (morse_table.idxOf entry)

theorem letter_alnum {token : List Char} (known : token ∈ morse_table) :
    isalnum (letter token) ∧ index (letter token) = morse_table.idxOf token :=
  symbols_alnum ⟨morse_table.idxOf token, List.idxOf_lt_length_of_mem known⟩

theorem letter_upper {token : List Char} (known : token ∈ morse_table) :
    toupper (letter token) = letter token := by
  have alnum := letter_alnum known
  rw [← symbol_index alnum.1, alnum.2, letter]

theorem letter_encodes {token : List Char} (known : token ∈ morse_table) :
    code (letter token) = token ++ [' '] := by
  have alnum := letter_alnum known
  have found := List.getElem?_idxOf known
  rw [code, if_pos alnum.1, entry, alnum.2, List.getD_eq_getElem?_getD, found]
  rfl

/-- Entries with one blank behind each are decoded to a text that is encoded to the same. -/
theorem canonical_message_returns {entries : List (List Char)}
    (known : ∀ entry ∈ entries, entry ∈ morse_table) :
    ∃ d read, decodeMorse (entries.flatMap fun entry => entry ++ [' ']) = some (d, read) ∧
      encodeMorse d = some (entries.flatMap fun entry => entry ++ [' ']) := by
  have message : (entries.flatMap fun entry => entry ++ [' ']) =
      (entries.map letter).flatMap code := by
    rw [List.flatMap_map]
    apply List.flatMap_congr
    intro entry mem
    exact (letter_encodes (known entry mem)).symm
  have alnum : ∀ c ∈ entries.map letter, isalnum c ∧ toupper c = c := by
    intro c mem
    obtain ⟨entry, mem', same⟩ := List.mem_map.mp mem
    rw [← same]
    exact ⟨(letter_alnum (known entry mem')).1, letter_upper (known entry mem')⟩
  have text : plain (entries.map letter) = entries.map letter := by
    rw [plain, List.filter_eq_self.mpr fun c mem => (alnum c mem).1]
    exact (List.map_congr_left fun c mem => (alnum c mem).2).trans (List.map_id _)
  have start := aligned_start fun c head => (alnum c (List.mem_of_mem_head? head)).1
  have run := decode_aligned (entries.map letter) none
  rw [start, text] at run
  rw [message]
  exact ⟨_, _, run, encode_runs _⟩

theorem two_codes_return :
    ∃ d read, decodeMorse ([['.', '.', '.'], ['_', '_', '_']].flatMap fun entry => entry ++ [' ']) =
        some (d, read) ∧
      encodeMorse d =
        some ([['.', '.', '.'], ['_', '_', '_']].flatMap fun entry => entry ++ [' ']) :=
  canonical_message_returns (by decide)

end UC.Morse
