import Mathlib.Data.List.TakeWhile
import UC.Trie.Indices

/- The whole of main: the lines of the input up to a line -1, the words between separators, the
   trie and what is printed of it. char is signed; memory is not exhausted. -/
namespace UC.Trie
open UC.Memory UC.Tails

def LF : Byte := ⟨10, by decide⟩

def minusOne : List Byte := [⟨45, by decide⟩, ⟨49, by decide⟩]

def endMark : List Byte := minusOne ++ [LF]

def separates (c : Byte) : Bool := c.val ∈ spaces

def cString (buffer : List Byte) : Word := buffer.takeWhile fun c => c ≠ NUL

/-- The bytes up to a newline, which belongs to them, and those behind. -/
def cutLine : List Byte → List Byte × List Byte
  | [] => ([], [])
  | c :: rest => if c = LF then ([c], rest) else (c :: (cutLine rest).1, (cutLine rest).2)

/-- The return value, what is in linebuf, and the rest of stdin. -/
def getline : List Byte → Int × List Byte × List Byte
  | [] => (-1, [], [])
  | c :: rest => ((cutLine (c :: rest)).1.length, cutLine (c :: rest))

theorem cut_line_shorter (c : Byte) (rest : List Byte) :
    (cutLine (c :: rest)).2.length ≤ rest.length := by
  induction rest generalizing c with
  | nil =>
    rw [cutLine]
    split
    · exact Nat.le_refl _
    · exact Nat.le_refl _
  | cons d rest ih =>
    rw [cutLine]
    split
    · exact Nat.le_refl _
    · exact Nat.le_succ_of_le (ih d)

theorem getline_shorter {input : List Byte} (more : ¬ BitVec.ofInt 32 (getline input).1 = -1) :
    (getline input).2.2.length < input.length := by
  cases input with
  | nil => exact absurd rfl more
  | cons c rest => exact Nat.lt_succ_of_le (cut_line_shorter c rest)

/-- strsep: a word, and line behind its separator; the last word leaves a NULL. -/
def strsep : Option (List Byte) → Option (Word × Option (List Byte))
  | none => none
  | some line =>
    some (line.takeWhile fun c => !separates c,
      match line.dropWhile fun c => !separates c with
      | [] => none
      | _ :: behind => some behind)

def lineSize : Option (List Byte) → Nat
  | none => 0
  | some line => line.length + 1

theorem strsep_smaller {line later : Option (List Byte)} {word : Word}
    (found : strsep line = some (word, later)) : lineSize later < lineSize line := by
  cases line with
  | none => cases found
  | some line =>
    obtain ⟨rfl, rfl⟩ := Prod.mk.inj (Option.some.inj found)
    have less := (line.dropWhile_suffix fun c => !separates c).length_le
    split
    · exact Nat.succ_pos _
    · rename_i behind remains
      rw [remains, List.length_cons] at less
      exact Nat.succ_lt_succ less

section Loops
variable {σ : Type*} (insert : Word → σ → Option σ)

/-- The loop over the words of a line. -/
def enterWords (line : Option (List Byte)) (trie : σ) : Option σ :=
  match found : strsep line with
  | none => some trie
  | some (word, later) =>
    have := strsep_smaller found
    if word = [] then enterWords later trie else (insert word trie).bind (enterWords later)
termination_by lineSize line

/-- The loop over the lines; ret is the int of what getline returns. -/
def readLines (input : List Byte) (trie : σ) : Option σ :=
  let line := getline input
  if more : BitVec.ofInt 32 line.1 = -1 then some trie
  else
    have := getline_shorter more
    if cString line.2.1 = endMark then some trie
    else (enterWords insert (some (cString line.2.1)) trie).bind (readLines line.2.2)
termination_by input.length

end Loops

/-- The lines that main prints for the bytes of stdin. -/
def main (input : List Byte) : Option (List (Word × Int)) :=
  ((readLines insert input .zero).bind fun root => do_travel root start).map Travel.printed

def pieces (text : List Byte) : List Word := (text.splitOnP separates).filter (· ≠ [])

/-- What main reads as one text: every line up to its first NUL, then a newline. It ends before
    a line -1 and before a line whose length is -1 as an int. -/
def readText (input : List Byte) : List Byte :=
  let line := getline input
  if more : BitVec.ofInt 32 line.1 = -1 then []
  else
    have := getline_shorter more
    if cString line.2.1 = endMark then []
    else cString line.2.1 ++ LF :: readText line.2.2
termination_by input.length

theorem pieces_append (front behind : List Byte) {c : Byte} (separator : separates c = true) :
    pieces (front ++ c :: behind) = pieces front ++ pieces behind := by
  rw [pieces, List.splitOnP_append_cons _ _ separator, List.filter_append]
  rfl

theorem strsep_splits (line : List Byte) : ∃ word later,
    strsep (some line) = some (word, later) ∧
      line.splitOnP separates =
        word :: (later.map fun behind => behind.splitOnP separates).getD [] := by
  have whole := line.takeWhile_append_dropWhile (p := fun c => !separates c)
  have word : ∀ c ∈ line.takeWhile fun c => !separates c, separates c = false := by
    intro c member
    have plain := List.mem_takeWhile_imp member
    simpa using plain
  refine ⟨_, _, rfl, ?_⟩
  split
  · rename_i nothing
    rw [nothing, List.append_nil] at whole
    conv_lhs => rw [← whole]
    exact List.splitOnP_eq_singleton word
  · rename_i c behind remains
    have separator : separates c = true := by
      have first := List.head?_dropWhile_not (p := fun c => !separates c) line
      rw [remains] at first
      simpa using first
    rw [remains] at whole
    conv_lhs => rw [← whole]
    rw [List.splitOnP_append_cons_of_forall_mem word c separator]
    rfl

section Loops
variable {σ : Type*} (insert : Word → σ → Option σ)

/-- The words one after the other. -/
def enters (words : List Word) (trie : σ) : Option σ :=
  words.foldlM (fun trie word => insert word trie) trie

theorem enters_append (first later : List Word) (trie : σ) :
    enters insert (first ++ later) trie = (enters insert first trie).bind (enters insert later) :=
  List.foldlM_append

theorem enter_words_pieces (line : Option (List Byte)) (trie : σ) :
    enterWords insert line trie = enters insert ((line.map pieces).getD []) trie := by
  fun_induction enterWords insert line trie with
  | case1 line trie found =>
    cases line with
    | none => rfl
    | some line => cases found
  | case2 line trie later found smaller ih =>
    obtain ⟨line, rfl⟩ : ∃ text, line = some text := by
      cases line with
      | none => cases found
      | some line => exact ⟨line, rfl⟩
    obtain ⟨word, behind, again, splits⟩ := strsep_splits line
    rw [found] at again
    cases again
    rw [ih, Option.map_some, Option.getD_some, pieces, splits]
    cases later <;> rfl
  | case3 line trie word later found smaller some' ih =>
    obtain ⟨line, rfl⟩ : ∃ text, line = some text := by
      cases line with
      | none => cases found
      | some line => exact ⟨line, rfl⟩
    obtain ⟨word', behind, again, splits⟩ := strsep_splits line
    rw [found] at again
    cases again
    rw [Option.map_some, Option.getD_some, pieces, splits,
      List.filter_cons_of_pos (by exact decide_eq_true some'), enters, List.foldlM_cons]
    refine congrArg _ (funext fun t => ?_)
    rw [ih]
    cases later <;> rfl

theorem read_lines_pieces (input : List Byte) (trie : σ) :
    readLines insert input trie = enters insert (pieces (readText input)) trie := by
  induction input using readText.induct generalizing trie with
  | case1 input line ended =>
    rw [readLines, readText, dif_pos ended, dif_pos ended]
    rfl
  | case2 input line more smaller mark =>
    rw [readLines, readText, dif_neg more, dif_neg more, if_pos mark, if_pos mark]
    rfl
  | case3 input line more smaller other ih =>
    rw [readLines, readText, dif_neg more, dif_neg more, if_neg other, if_neg other,
      enter_words_pieces, pieces_append _ _ (by decide), enters_append]
    exact congrArg _ (funext ih)

theorem enters_insert_all (words : List Word) (root : TrieNode) :
    enters Trie.insert words root = insertAll words root := by
  induction words generalizing root with
  | nil => rfl
  | cons word words ih =>
    rw [enters, List.foldlM_cons]
    exact congrArg _ (funext ih)

end Loops

theorem nul_not_read (input : List Byte) : NUL ∉ readText input := by
  fun_induction readText input with
  | case1 => exact List.not_mem_nil
  | case2 => exact List.not_mem_nil
  | case3 input line more smaller other ih =>
    rw [List.mem_append, List.mem_cons]
    rintro (inside | here | later)
    · have some := List.mem_takeWhile_imp inside
      simp at some
    · cases here
    · exact ih later

theorem mem_split {text : List Byte} {word : Word} (member : word ∈ text.splitOnP separates)
    {c : Byte} (inside : c ∈ word) : c ∈ text := by
  induction text generalizing word with
  | nil =>
    rw [List.splitOnP_nil, List.mem_singleton] at member
    rw [member] at inside
    cases inside
  | cons d text ih =>
    rw [List.splitOnP_cons_eq_if_modifyHead] at member
    split at member
    · rcases List.mem_cons.mp member with rfl | later
      · cases inside
      · exact List.mem_cons_of_mem d (ih later inside)
    · obtain ⟨first, others, splits⟩ :=
        List.exists_cons_of_ne_nil (List.splitOnP_ne_nil separates text)
      rw [splits, List.modifyHead_cons] at member
      rcases List.mem_cons.mp member with rfl | later
      · rcases List.mem_cons.mp inside with rfl | behind
        · exact List.mem_cons_self
        · exact List.mem_cons_of_mem d (ih (splits ▸ List.mem_cons_self) behind)
      · exact List.mem_cons_of_mem d (ih (splits ▸ List.mem_cons_of_mem first later) inside)

theorem pieces_plain {input : List Byte} {word : Word} (member : word ∈ pieces (readText input))
    (signed : ∀ c ∈ word, c.val < 128) (short : word.length ≤ WORDLENMAX) : Plain word := by
  obtain ⟨piece, some⟩ := List.mem_filter.mp member
  refine ⟨of_decide_eq_true some, short, ?_⟩
  intro c inside
  have nonzero : c ≠ NUL := by
    rintro rfl
    exact nul_not_read input (mem_split piece inside)
  have positive : c.val ≠ 0 := fun zero => nonzero (Fin.ext zero)
  have small := signed c inside
  omega

theorem travel_counted {root : TrieNode} {words : List Word} (counts : Counts root words)
    (plain : ∀ w ∈ words, Plain w) (few : words.length ≤ INT_MAX) :
    ∃ t, do_travel root start = some t ∧ Counted words t.printed := by
  cases root with
  | NULL => exact counts.elim
  | node count pass next =>
    have fits : Fits start words := by
      intro w member
      refine ⟨(plain w member).short, ?_⟩
      intro c inside zero
      have positive := ((plain w member).bytes c inside).1
      rw [zero] at positive
      cases positive
    have fewer (c : Byte) : (tails c words).length ≤ INT_MAX := by
      have least := @length_tails_le _ _ c words
      omega
    obtain ⟨t, travelled, _, printed⟩ := travel_node counts few fits (Nat.zero_le _)
      fun c u path => travel_prints (counts.2.2 c) (fewer c) (fits_below fits path)
    have all : t.printed = lines (.node count pass next) := by
      rw [printed]
      simp [start, Travel.path, slice]
    refine ⟨t, travelled, ?_, ?_⟩
    · rw [all]
      exact lines_sorted _
    · rw [all]
      exact mem_lines_node counts fun c w n => mem_lines (counts.2.2 c) w n

/-- A line that main reads as it is. -/
def Line (line : List Byte) : Prop :=
  LF ∉ line ∧ NUL ∉ line ∧ line ≠ minusOne ∧ line.length < 4294967294

theorem cut_line_append (line rest : List Byte) (whole : LF ∉ line) :
    cutLine (line ++ LF :: rest) = (line ++ [LF], rest) := by
  induction line with
  | nil => rfl
  | cons c line ih =>
    have other : ¬ c = LF := fun same => whole (same ▸ List.mem_cons_self)
    rw [List.cons_append, cutLine, if_neg other,
      ih fun inside => whole (List.mem_cons_of_mem c inside)]
    rfl

theorem getline_append (line rest : List Byte) (whole : LF ∉ line) :
    getline (line ++ LF :: rest) = (((line.length + 1 : Nat) : Int), line ++ [LF], rest) := by
  have cut := cut_line_append line rest whole
  have lengths : ((line.length + 1 : Nat) : Int) = ((line ++ [LF]).length : Int) := by simp
  rw [lengths]
  cases line with
  | nil => rfl
  | cons c line =>
    rw [List.cons_append] at cut ⊢
    rw [getline, cut]

theorem read_text_line {line : List Byte} (clean : Line line) (rest : List Byte) :
    readText (line ++ LF :: rest) = line ++ [LF] ++ LF :: readText rest := by
  obtain ⟨whole, noNul, other, short⟩ := clean
  have string : cString (line ++ [LF]) = line ++ [LF] := by
    apply List.takeWhile_eq_self_iff.mpr
    intro c inside
    apply decide_eq_true
    rintro rfl
    rcases List.mem_append.mp inside with inside | last
    · exact noNul inside
    · cases List.mem_singleton.mp last
  have length : ¬ BitVec.ofInt 32 ((line.length + 1 : Nat) : Int) = -1 := by
    intro same
    have number := congrArg BitVec.toNat same
    rw [BitVec.ofInt_natCast, BitVec.toNat_ofNat] at number
    change (line.length + 1) % 4294967296 = 4294967295 at number
    omega
  have unmarked : ¬ line ++ [LF] = endMark := by
    intro same
    exact other (List.append_inj_left' same rfl)
  have cut := getline_append line rest whole
  rw [readText, dif_neg (by rw [cut]; exact length)]
  dsimp only
  rw [cut, string, if_neg unmarked]

/-- Of clean lines main reads all words, and none behind a line -1. -/
theorem words_before_mark (lines : List (List Byte)) (clean : ∀ line ∈ lines, Line line)
    (after : List Byte) :
    pieces (readText (lines.flatMap (fun line => line ++ [LF]) ++ (endMark ++ after))) =
      pieces (lines.flatMap fun line => line ++ [LF]) := by
  induction lines with
  | nil =>
    rw [List.flatMap_nil, List.nil_append]
    rw [readText]
    rfl
  | cons line lines ih =>
    have later := ih fun other member => clean other (List.mem_cons_of_mem line member)
    have split : (line :: lines).flatMap (fun line => line ++ [LF]) ++ (endMark ++ after) =
        line ++ LF :: (lines.flatMap (fun line => line ++ [LF]) ++ (endMark ++ after)) := by
      simp
    rw [split, read_text_line (clean line List.mem_cons_self), pieces_append _ _ (by decide), later,
      List.flatMap_cons, List.append_assoc, List.singleton_append,
      pieces_append _ _ (by decide), pieces_append _ _ (by decide)]
    simp [pieces]

/-- Whatever the input: the words of the text are printed once each and in order, with how
    many of them each word starts. -/
theorem main_counts_words (input : List Byte)
    (fits : ∀ w ∈ pieces (readText input), (∀ c ∈ w, c.val < 128) ∧ w.length ≤ WORDLENMAX)
    (few : (pieces (readText input)).length ≤ INT_MAX) :
    ∃ printed, main input = some printed ∧ Counted (pieces (readText input)) printed := by
  have plain : ∀ w ∈ pieces (readText input), Plain w := fun w member =>
    pieces_plain member (fits w member).1 (fits w member).2
  obtain ⟨root, inserted, counts⟩ := insert_all_counts _ plain zero_counts (by simpa using few)
  rw [List.nil_append] at counts
  obtain ⟨t, travelled, counted⟩ := travel_counted counts plain few
  refine ⟨t.printed, ?_, counted⟩
  rw [main, read_lines_pieces, enters_insert_all, inserted, Option.bind_some, travelled]
  rfl

theorem words_of_one_line :
    let input := [97, 98, 32, 97].append (LF :: (endMark ++ [98]))
    ∃ printed, main input = some printed ∧ Counted [[97, 98], [97]] printed := by
  intro input
  have clean : ∀ line ∈ [([97, 98, 32, 97] : List Byte)], Line line := by
    unfold Line
    decide +kernel
  have before := words_before_mark _ clean [98]
  have read : pieces (readText input) = [[97, 98], [97]] := by
    have split : pieces ([[97, 98, 32, 97]].flatMap fun line => line ++ [LF]) = [[97, 98], [97]] := by
      decide +kernel
    rw [split] at before
    exact before
  have fits : ∀ w ∈ pieces (readText input), (∀ c ∈ w, c.val < 128) ∧ w.length ≤ WORDLENMAX := by
    rw [read]
    decide +kernel
  have few : (pieces (readText input)).length ≤ INT_MAX := by
    rw [read]
    decide
  have counted := main_counts_words input fits few
  rw [read] at counted
  exact counted

end UC.Trie
