import CronScale.Calendar.DateText
/-!
# Timestamps

A timestamp is a date, a letter `T` or a blank, a time of day and its distance from universal time.
Blanks may stand around every part, except in front of the letter and of a fraction, and a number
need not have all its digits. A fraction of a second has any number of digits, of which nine count.
The distance is two digits for the hours and two for the minutes after a sign, with colons and
blanks between the two or not; a `Z` or the letters `UTC` mean that there is none.
-/

namespace CronScale.Calendar

open CronScale.Text

def readOneOf (marks : List Char) : List Char → Except DateTextError (List Char)
  | [] => .error .tooShort
  | c :: r => if marks.contains c then .ok r else .error .badCharacter

/-- The billionths that a fraction of a second has, if there is one. -/
def readFraction : DateReader Nat
  | '.' :: r =>
    match r.takeWhile fun c => (digit? c).isSome with
    | [] => .error .badCharacter
    | run =>
      let digits := run.take 9
      .ok (digitsValue (digits ++ List.replicate (9 - digits.length) '0'), r.drop run.length)
  | cs => .ok (0, cs)

/-- Two digits, of which the first one is at most `high`. -/
def readPair (high : Nat) : DateReader Nat
  | a :: b :: r =>
    match digit? a, digit? b with
    | some x, some y => if x ≤ high then .ok (x * 10 + y, r) else .error .outOfRange
    | _, _ => .error .badCharacter
  | _ => .error .tooShort

/-- What follows the letters `UTC`, in either case, if the text begins with them. -/
def afterUtc? : List Char → Option (List Char)
  | a :: b :: c :: r => if [a, b, c].map Char.toLower = ['u', 't', 'c'] then some r else none
  | _ => none

/-- A distance from universal time in seconds, less than a day. -/
def readOffset : DateReader Int
  | [] => .error .tooShort
  | c :: r =>
    if c = 'Z' ∨ c = 'z' then .ok (0, r)
    else
      match afterUtc? (c :: r) with
      | some r => .ok (0, r)
      | none => do
        let sign : Int ←
          if c = '+' then pure 1
          else if c = '-' ∨ c = '−' then pure (-1)
          else throw .badCharacter
        let (hours, r) ← readPair 9 r
        let (minutes, r) ← readPair 5 (r.dropWhile fun c => c == ':' || isBlank c)
        if hours < 24 then pure (sign * (hours * 3600 + minutes * 60), r) else throw .outOfRange

/-- The instant that a text names as a timestamp. -/
def readInstant (cs : List Char) : Except DateTextError Instant := do
  let (year, cs) ← readYearWord cs
  let cs ← readMark '-' (trimStart cs)
  let (month, cs) ← readPart 1 12 cs
  let cs ← readMark '-' (trimStart cs)
  let (day, cs) ← readPart 1 31 cs
  let cs ← readOneOf ['T', 't', ' '] cs
  let (hour, cs) ← readPart 0 23 cs
  let cs ← readMark ':' (trimStart cs)
  let (minute, cs) ← readPart 0 59 cs
  let cs ← readMark ':' (trimStart cs)
  let (second, cs) ← readPart 0 60 cs
  let (nanos, cs) ← readFraction cs
  let (offset, cs) ← readOffset (trimStart cs)
  if trimStart cs ≠ [] then throw .tooLong
  let date : Date := ⟨year, month, day⟩
  let reading := Reading.ofDate date hour minute second
  let instant : Instant := ⟨reading.seconds - offset, reading.nanos + nanos⟩
  if date.exists? && yearInRange year && yearInRange (instant.reading 0).year then pure instant
  else throw .outOfRange

def readTimestamp (s : String) : Option Instant := (readInstant s.toList).toOption

/-- An instant in universal time with whole seconds and a `Z`. -/
def Instant.secondText (i : Instant) : String :=
  let leap := nanosPerSecond ≤ i.nanos
  (⟨i.seconds, if leap then nanosPerSecond else 0⟩ : Reading).text ++ "Z"

end CronScale.Calendar
