import CronScale.Json.Basic
import CronScale.Text.Numeral
/-!
# Reading JSON

A text is one value with blanks around it; the blanks of JSON are the space, the tab, the line feed
and the carriage return. Control characters inside a text and numbers with needless zeros are
refused; the escape of half a surrogate pair makes a text unreadable. The readers take the rest of
the text and hand on what they leave; an explicit bound on the depth of calls, the length of the
text, is never reached.
-/

namespace CronScale.Json

open CronScale.Text

/-- A reader of the start of a text, which hands on the rest. -/
abbrev Reader (α : Type) := List Char → Option (α × List Char)

/-- The text without the blanks of JSON at its start. -/
def skip (cs : List Char) : List Char :=
  cs.dropWhile fun c => c == ' ' || c == '\t' || c == '\n' || c == '\r'

def hexDigit? (c : Char) : Option Nat :=
  if '0' ≤ c ∧ c ≤ '9' then some (c.toNat - '0'.toNat)
  else if 'a' ≤ c ∧ c ≤ 'f' then some (c.toNat - 'a'.toNat + 10)
  else if 'A' ≤ c ∧ c ≤ 'F' then some (c.toNat - 'A'.toNat + 10)
  else none

/-- Four hexadecimal digits. -/
def readUnit : Reader Nat
  | a :: b :: c :: d :: r => do
    let a ← hexDigit? a
    let b ← hexDigit? b
    let c ← hexDigit? c
    let d ← hexDigit? d
    pure (((a * 16 + b) * 16 + c) * 16 + d, r)
  | _ => none

/-- The character that a code escape stands for, which may take two units; none for half a pair. -/
def readCode (cs : List Char) : Option (Option Char × List Char) := do
  let (u, r) ← readUnit cs
  if 0xD800 ≤ u ∧ u ≤ 0xDBFF then
    match r with
    | '\\' :: 'u' :: r' =>
      let (v, rest) ← readUnit r'
      if 0xDC00 ≤ v ∧ v ≤ 0xDFFF then
        pure (some (Char.ofNat (0x10000 + (u - 0xD800) * 0x400 + (v - 0xDC00))), rest)
      else pure (none, r)
    | _ => pure (none, r)
  else if 0xDC00 ≤ u ∧ u ≤ 0xDFFF then pure (none, r)
  else pure (some (Char.ofNat u), r)

/-- What follows a backslash. -/
def readEscape : Reader (Option Char)
  | '\"' :: r => some ('\"', r)
  | '\\' :: r => some ('\\', r)
  | '/' :: r => some ('/', r)
  | 'b' :: r => some ('\x08', r)
  | 'f' :: r => some ('\x0c', r)
  | 'n' :: r => some ('\n', r)
  | 'r' :: r => some ('\r', r)
  | 't' :: r => some ('\t', r)
  | 'u' :: r => readCode r
  | _ => none

/-- The rest of a text up to its closing quote, after what was read so far; none if it cannot be
spelled. -/
def readText : Nat → List (Option Char) → List Char → Option (Option String × List Char)
  | 0, _, _ => none
  | _ + 1, _, [] => none
  | _ + 1, seen, '\"' :: r => some ((seen.reverse.mapM id).map String.ofList, r)
  | n + 1, seen, '\\' :: r =>
    match readEscape r with
    | some (c, r) => readText n (c :: seen) r
    | none => none
  | n + 1, seen, c :: r => if c.toNat < 32 then none else readText n (some c :: seen) r

def textOf : Option String → Json
  | some s => .text s
  | none => .unreadable

/-- The value of a record, all of whose names have to be readable. -/
def recordOf (ms : List (Option String × Json)) : Json :=
  match ms.mapM fun m => m.1.map fun name => (name, m.2) with
  | some ms => .record ms
  | none => .unreadable

/-- The digits at the start of a text and the rest. -/
def takeDigits (cs : List Char) : List Char × List Char :=
  cs.span fun c => (digit? c).isSome

/-- The whole part of a number: a zero alone, or digits that start with another one. -/
def readWholePart (cs : List Char) : Option (List Char × List Char) :=
  match takeDigits cs with
  | ([], _) => none
  | (['0'], r) => some (['0'], r)
  | ('0' :: _, _) => none
  | p => some p

def readFraction : List Char → Option (List Char × List Char)
  | '.' :: r =>
    match takeDigits r with
    | ([], _) => none
    | (ds, r) => some ('.' :: ds, r)
  | cs => some ([], cs)

def readExponent : List Char → Option (List Char × List Char)
  | c :: r =>
    if c == 'e' || c == 'E' then
      let (sign, r) := match r with
        | '+' :: r => (['+'], r)
        | '-' :: r => (['-'], r)
        | r => ([], r)
      match takeDigits r with
      | ([], _) => none
      | (ds, r) => some (c :: sign ++ ds, r)
    else some ([], c :: r)
  | [] => some ([], [])

/-- The value of a number: whole if it fits, and not a zero with a sign. -/
def numberOf (negative : Bool) (wholePart rest : List Char) : Json :=
  let n : Int := digitsValue wholePart
  let v := if negative then -n else n
  if rest = [] ∧ -9223372036854775808 ≤ v ∧ v ≤ word64 ∧ (negative → n ≠ 0) then .whole v
  else .decimal (String.ofList ((if negative then ['-'] else []) ++ wholePart ++ rest))

def readNumber (cs : List Char) : Option (Json × List Char) := do
  let (negative, cs) := match cs with
    | '-' :: r => (true, r)
    | r => (false, r)
  let (wholePart, cs) ← readWholePart cs
  let (fraction, cs) ← readFraction cs
  let (exponent, cs) ← readExponent cs
  pure (numberOf negative wholePart (fraction ++ exponent), cs)

mutual

def readValue : Nat → List Char → Option (Json × List Char)
  | 0, _ => none
  | n + 1, cs =>
    match skip cs with
    | 'n' :: 'u' :: 'l' :: 'l' :: r => some (.null, r)
    | 't' :: 'r' :: 'u' :: 'e' :: r => some (.bool true, r)
    | 'f' :: 'a' :: 'l' :: 's' :: 'e' :: r => some (.bool false, r)
    | '\"' :: r => (readText (r.length + 1) [] r).map fun p => (textOf p.1, p.2)
    | '[' :: r =>
      match skip r with
      | ']' :: r => some (.list [], r)
      | r => (readItems n r).map fun p => (.list p.1, p.2)
    | '\x7b' :: r =>
      match skip r with
      | '\x7d' :: r => some (.record [], r)
      | r => (readMembers n r).map fun p => (recordOf p.1, p.2)
    | r => readNumber r

/-- The items of a list up to its end. -/
def readItems : Nat → List Char → Option (List Json × List Char)
  | 0, _ => none
  | n + 1, cs =>
    match readValue n cs with
    | none => none
    | some (j, r) =>
      match skip r with
      | ',' :: r => (readItems n r).map fun p => (j :: p.1, p.2)
      | ']' :: r => some ([j], r)
      | _ => none

/-- The members of a record up to its end. -/
def readMembers : Nat → List Char → Option (List (Option String × Json) × List Char)
  | 0, _ => none
  | n + 1, cs =>
    match skip cs with
    | '\"' :: r =>
      match readText (r.length + 1) [] r with
      | none => none
      | some (name, r) =>
        match skip r with
        | ':' :: r =>
          match readValue n r with
          | none => none
          | some (j, r) =>
            match skip r with
            | ',' :: r => (readMembers n r).map fun p => ((name, j) :: p.1, p.2)
            | '\x7d' :: r => some ([(name, j)], r)
            | _ => none
        | _ => none
    | _ => none

end

def read? (s : String) : Option Json :=
  let cs := s.toList
  match readValue (2 * cs.length + 2) cs with
  | some (j, r) => if skip r = [] then some j else none
  | none => none

end CronScale.Json
