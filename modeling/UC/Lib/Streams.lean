import Mathlib.Data.List.Basic

/- Input streams of C++: formatted extraction of characters and integers, with the two state
   bits. A stream is good while neither is set. -/
namespace UC.Streams

structure Stream where
  text : List Char
  eofbit : Bool
  failbit : Bool
  deriving DecidableEq

def isSpace (c : Char) : Bool := c ∈ [' ', '\t', '\n', '\x0b', '\x0c', '\r']

def skipSpace (text : List Char) : List Char := text.dropWhile isSpace

/-- A stream in which nothing has been read. -/
def good (text : List Char) : Stream := { text := text, eofbit := false, failbit := false }

/-- What precedes every extraction: it fails in a state that is not good, and at the end of
    the text; otherwise white space is skipped. -/
def sentry (s : Stream) : Bool × Stream :=
  if s.eofbit || s.failbit then (false, { s with failbit := true })
  else
    match skipSpace s.text with
    | [] => (false, { text := [], eofbit := true, failbit := true })
    | c :: text => (true, good (c :: text))

/-- in >> c; a character that is not read keeps its value. -/
def readChar (s : Stream) (c : Char) : Char × Stream :=
  match sentry s with
  | (true, { text := d :: text, .. }) => (d, good text)
  | (_, s) => (c, s)

def digitsValue (digits : List Char) : Int :=
  digits.foldl (fun value d => 10 * value + (d.toNat - '0'.toNat : Int)) 0

/-- The longest integer in front of a text, brought into the range of its type; whether it
    was one in the range; and the text behind it. -/
def number (low high : Int) (text : List Char) : Int × Bool × List Char :=
  let negative := text.head? = some '-'
  let signed := negative ∨ text.head? = some '+'
  let unsigned := if signed then text.tail else text
  let digits := unsigned.takeWhile Char.isDigit
  let value := if negative then -digitsValue digits else digitsValue digits
  (max low (min high value), !digits.isEmpty && decide (low ≤ value ∧ value ≤ high),
    unsigned.dropWhile Char.isDigit)

/-- in >> n for an integer of the range low .. high. The value is kept when the sentry fails;
    otherwise it is 0 for no digits, and the nearest end for a number out of the range. -/
def readInt (low high : Int) (s : Stream) (n : Int) : Int × Stream :=
  match sentry s with
  | (false, s) => (n, s)
  | (true, s) =>
    match number low high s.text with
    | (value, correct, rest) =>
      (value, { text := rest, eofbit := rest.isEmpty, failbit := !correct })

/-- All further extractions fail, and none can find the end. -/
def Stuck (s : Stream) : Prop := s.failbit = true ∧ s.eofbit = false

theorem sentry_stuck {s : Stream} (stuck : Stuck s) : sentry s = (false, s) := by
  obtain ⟨text, eofbit, failbit⟩ := s
  obtain ⟨fail, eof⟩ := stuck
  simp only at fail eof
  simp [sentry, fail, eof]

theorem read_char_stuck {s : Stream} (stuck : Stuck s) (c : Char) : readChar s c = (c, s) := by
  simp [readChar, sentry_stuck stuck]

theorem read_int_stuck {s : Stream} (stuck : Stuck s) (low high n : Int) :
    readInt low high s n = (n, s) := by
  simp [readInt, sentry_stuck stuck]

theorem sentry_ended {s : Stream} (ended : s.eofbit = true) :
    sentry s = (false, { s with failbit := true }) := by
  simp [sentry, ended]

theorem read_char_ended {s : Stream} (ended : s.eofbit = true) (c : Char) :
    (readChar s c).2.eofbit = true := by
  simp [readChar, sentry_ended ended, ended]

theorem read_int_ended {s : Stream} (ended : s.eofbit = true) (low high n : Int) :
    (readInt low high s n).2.eofbit = true := by
  simp [readInt, sentry_ended ended, ended]

theorem read_char_blank {text : List Char} (blank : skipSpace text = []) (c : Char) :
    (readChar (good text) c).2.eofbit = true := by
  simp [readChar, sentry, good, blank]

theorem read_char_good {text rest : List Char} {d : Char} (next : skipSpace text = d :: rest)
    (c : Char) : readChar (good text) c = (d, good rest) := by
  simp [readChar, sentry, good, next]

theorem read_int_blank {text : List Char} (blank : skipSpace text = []) (low high n : Int) :
    ∃ s, readInt low high (good text) n = (n, s) ∧ s.eofbit = true := by
  simp [readInt, sentry, good, blank]

theorem read_int_good {text rest : List Char} {low high value : Int} {correct : Bool}
    (nonempty : skipSpace text ≠ [])
    (field : number low high (skipSpace text) = (value, correct, rest)) (n : Int) :
    readInt low high (good text) n =
      (value, { text := rest, eofbit := rest.isEmpty, failbit := !correct }) := by
  cases next : skipSpace text with
  | nil => exact absurd next nonempty
  | cons d tail =>
    rw [next] at field
    simp [readInt, sentry, good, next, field]

end UC.Streams
