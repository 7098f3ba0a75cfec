import CronScale.Json.Printer
/-!
# Values in block form

In block form every member of a record and every item of a list has a line of its own, and nesting
is shown by indentation, as YAML has it. The items of a list stand as far to the right as the name
of the list. A text is written without quotes where nothing else could be read from it.
-/

namespace CronScale.Json

/-- The words that stand for something else unless they are quoted. -/
def reservedWords : List String :=
  ["null", "true", "false", "yes", "no", "on", "off", "y", "n"]

/-- Whether a text can only be read as itself when it has no quotes. -/
def isPlain (s : String) : Bool :=
  match s.toList with
  | [] => false
  | c :: cs =>
    (c.isAlpha || (c == '.' && cs.head?.any Char.isAlpha)) &&
      !(reservedWords.contains (String.ofList ((c :: cs).map Char.toLower))) &&
      !(s.contains ": ") && !(s.contains " #") && !(s.endsWith ":") && !(s.endsWith " ") &&
      cs.all fun c => 32 ≤ c.toNat

def blockText (s : String) : String :=
  if isPlain s then s
  else
    let doubled := s.toList.flatMap fun c => if c = '\'' then ['\'', '\''] else [c]
    "'" ++ String.ofList doubled ++ "'"

/-- The lines, of which the first one follows a dash and the others are moved as far. -/
def dashed : List String → List String
  | [] => ["-"]
  | l :: ls => ("- " ++ l) :: ls.map ("  " ++ ·)

/-- A name in front of a value that has lines of its own or one that fits behind the name. -/
def named (name : String) (nested : Bool) (indent : String) : List String → List String
  | ls => if nested then (name ++ ":") :: ls.map (indent ++ ·) else
    match ls with
    | [] => [name ++ ":"]
    | l :: ls => (name ++ ": " ++ l) :: ls

mutual

def blockLines : Json → List String
  | .null => ["null"]
  | .bool b => [if b then "true" else "false"]
  | .whole n => [toString n]
  | .decimal s => [s]
  | .text s => [blockText s]
  | .list [] => ["[]"]
  | .list (j :: js) => dashed (blockLines j) ++ blockItems js
  | .record [] => ["\x7b\x7d"]
  | .record (m :: ms) => blockMember m ++ blockMembers ms
  | .unreadable => ["null"]

def blockItems : List Json → List String
  | [] => []
  | j :: js => dashed (blockLines j) ++ blockItems js

def blockMember : String × Json → List String
  | (name, .list (j :: js)) => named name true "" (dashed (blockLines j) ++ blockItems js)
  | (name, .record (m :: ms)) => named name true "  " (blockMember m ++ blockMembers ms)
  | (name, j) => named name false "" (blockLines j)

def blockMembers : List (String × Json) → List String
  | [] => []
  | m :: ms => blockMember m ++ blockMembers ms

end

def block (j : Json) : String := String.join ((blockLines j).map (· ++ "\n"))

end CronScale.Json
