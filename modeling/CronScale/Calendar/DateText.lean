import CronScale.Calendar.Instant
import CronScale.Text.Blank
/-!
# Reading a date and a time of day

A date and a time of day are written as `YYYY-MM-DD HH:MM:SS`. Blanks may stand before every number
and, in any number or not at all, between the two halves. A year has up to four digits, or any
number of them after a sign; every other number has up to two. A number outside its range is
refused as soon as it is read; whether the day exists in its month is looked at last. The sixtieth
second of any minute is read as a leap second.
-/

namespace CronScale.Calendar

open CronScale.Text

/-- Why a text is no date and time of day. -/
inductive DateTextError where
  | badCharacter
  | outOfRange
  | tooShort
  | tooLong
  deriving DecidableEq, Repr

def DateTextError.message : DateTextError → String
  | .badCharacter => "input contains invalid characters"
  | .outOfRange => "input is out of range"
  | .tooShort => "premature end of input"
  | .tooLong => "trailing input"

/-- A reader of the start of a text, which hands on the rest. -/
abbrev DateReader (α : Type) := List Char → Except DateTextError (α × List Char)

/-- Reads a number, of at most `width` digits if that is given. -/
def readNumber (width : Option Nat) : DateReader Nat := fun cs =>
  match cs with
  | [] => .error .tooShort
  | c :: _ =>
    if (digit? c).isNone then .error .badCharacter
    else
      let run := cs.takeWhile fun c => (digit? c).isSome
      let digits := match width with
        | some w => run.take w
        | none => run
      .ok (digitsValue digits, cs.drop digits.length)

/-- The years that a date can have. -/
def yearInRange (y : Int) : Bool := -262143 ≤ y && y ≤ 262142

def readYear : DateReader Int := fun cs =>
  match trimStart cs with
  | '-' :: r => (readNumber none r).map fun p => (-(p.1 : Int), p.2)
  | '+' :: r => (readNumber none r).map fun p => ((p.1 : Int), p.2)
  | r => (readNumber (some 4) r).map fun p => ((p.1 : Int), p.2)

/-- Reads a year that fits in 32 bits with a sign. -/
def readYearWord : DateReader Int := fun cs => do
  let (y, r) ← readYear cs
  if -2147483648 ≤ y ∧ y ≤ 2147483647 then pure (y, r) else throw .outOfRange

/-- Reads a number of up to two digits within a range. -/
def readPart (low high : Nat) : DateReader Nat := fun cs => do
  let (n, r) ← readNumber (some 2) (trimStart cs)
  if low ≤ n ∧ n ≤ high then pure (n, r) else throw .outOfRange

def readMark (mark : Char) (cs : List Char) : Except DateTextError (List Char) :=
  match cs with
  | [] => .error .tooShort
  | c :: r => if c = mark then .ok r else .error .badCharacter

/-- The reading that a text of the form `YYYY-MM-DD HH:MM:SS` names. -/
def readDateTime (cs : List Char) : Except DateTextError Reading := do
  let (year, cs) ← readYearWord cs
  let cs ← readMark '-' cs
  let (month, cs) ← readPart 1 12 cs
  let cs ← readMark '-' cs
  let (day, cs) ← readPart 1 31 cs
  let (hour, cs) ← readPart 0 23 (trimStart cs)
  let cs ← readMark ':' cs
  let (minute, cs) ← readPart 0 59 cs
  let cs ← readMark ':' cs
  let (second, cs) ← readPart 0 60 cs
  if cs ≠ [] then throw .tooLong
  let date : Date := ⟨year, month, day⟩
  if date.exists? && yearInRange year then pure (Reading.ofDate date hour minute second)
  else throw .outOfRange

end CronScale.Calendar
