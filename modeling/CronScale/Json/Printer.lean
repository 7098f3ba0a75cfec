import CronScale.Json.Basic
import CronScale.Text.Numeral
/-!
# Writing JSON

A value is written without any blanks, and null in the place of what cannot be read. In a text a
quote, a backslash and the control characters below the space are escaped, five of the latter by a
letter and the others by their code; all other characters stand for themselves.
-/

namespace CronScale.Json

open CronScale.Text

def escapeChar (c : Char) : List Char :=
  match c with
  | '\"' => ['\\', '\"']
  | '\\' => ['\\', '\\']
  | '\n' => ['\\', 'n']
  | '\r' => ['\\', 'r']
  | '\t' => ['\\', 't']
  | '\x08' => ['\\', 'b']
  | '\x0c' => ['\\', 'f']
  | c =>
    if c.toNat < 32 then
      let digits := (hexadecimal c.toNat).toList
      ['\\', 'u'] ++ List.replicate (4 - digits.length) '0' ++ digits
    else [c]

def quote (s : String) : String := String.ofList (['\"'] ++ s.toList.flatMap escapeChar ++ ['\"'])

mutual

def compact : Json → String
  | .null => "null"
  | .bool b => if b then "true" else "false"
  | .whole n => toString n
  | .decimal s => s
  | .text s => quote s
  | .list items => "[" ++ compactItems items ++ "]"
  | .record members => "\x7b" ++ compactMembers members ++ "\x7d"
  | .unreadable => "null"

/-- The items of a list with commas between them. -/
def compactItems : List Json → String
  | [] => ""
  | [j] => compact j
  | j :: js => compact j ++ "," ++ compactItems js

/-- The members of a record with commas between them. -/
def compactMembers : List (String × Json) → String
  | [] => ""
  | [m] => quote m.1 ++ ":" ++ compact m.2
  | m :: ms => quote m.1 ++ ":" ++ compact m.2 ++ "," ++ compactMembers ms

end

end CronScale.Json
