import CronScale.Text.Alphanumeric
import CronScale.Text.Blank
/-!
# Files of variables

A file of variables has one assignment on a line, `NAME=value`, with `export` in front of it or not.
A value may be quoted, strongly with apostrophes, weakly with quotation marks; a quoted value may go
on over several lines. Outside strong quotes a dollar sign stands in front of the name of a variable
whose value is put in its place. A comment begins with `#`. A line that is none of these ends the
reading; what was read before it counts.
-/

namespace CronScale.Settings.Dotenv

open CronScale.Text

/-- Where the end of a line finds the quotes. -/
inductive LineState where
  | plain
  | blank
  | escape
  | strong
  | strongEscape
  | weak
  | weakEscape
  deriving DecidableEq, Repr

def LineState.opened (c : Char) (otherwise : LineState) : LineState :=
  if c = '\\' then .escape else if c = '\"' then .weak else if c = '\'' then .strong else otherwise

/-- The state after a character; none where a comment begins. -/
def LineState.next (s : LineState) (c : Char) : Option LineState :=
  match s with
  | .blank => if c = '#' then none else some (opened c .plain)
  | .plain =>
    some (opened c (if isBlank c && c != '\n' && c != '\r' then .blank else .plain))
  | .escape => some .plain
  | .strong => some (if c = '\\' then .strongEscape else if c = '\'' then .plain else .strong)
  | .strongEscape => some .strong
  | .weak => some (if c = '\\' then .weakEscape else if c = '\"' then .plain else .weak)
  | .weakEscape => some .weak

/-- The state at the end of a line, or the part of the line before a comment. -/
def scanLine : LineState → List Char → List Char → Except (List Char) LineState
  | s, _, [] => .ok s
  | s, seen, c :: cs =>
    match s.next c with
    | none => .error seen.reverse
    | some s => scanLine s (c :: seen) cs

/-- The lines of a text, each with its line feed. -/
def physicalLines : List Char → List (List Char)
  | [] => []
  | c :: cs =>
    if c = '\n' then ['\n'] :: physicalLines cs
    else
      match physicalLines cs with
      | [] => [[c]]
      | l :: ls => (c :: l) :: ls

/-- A line without the line feed, and a carriage return before that, at its end. -/
def chomp (cs : List Char) : List Char :=
  match cs.reverse with
  | '\n' :: '\r' :: r => r.reverse
  | '\n' :: r => r.reverse
  | _ => cs

/-- The lines of a text, where quotes carry a line on. A last line whose quotes stay open, or that
ends in a blank, is no line. -/
def logicalLines : LineState → List Char → List (List Char) → List (Option (List Char))
  | s, _, [] => if s = .plain then [] else [none]
  | s, before, l :: ls =>
    let line := before ++ l
    if (trimStart line).head? = some '#' then some [] :: logicalLines .plain [] ls
    else
      match scanLine s [] l with
      | .error kept => some (before ++ kept) :: logicalLines .plain [] ls
      | .ok .plain => some (chomp line) :: logicalLines .plain [] ls
      | .ok s => logicalLines s line ls

/-- How the value of a variable is being put in. -/
inductive Insertion where
  | off
  | bare (name : List Char)
  | braced (name : List Char)
  deriving DecidableEq, Repr

/-- Where the reading of a value stands. -/
structure ValueState where
  strong : Bool := false
  weak : Bool := false
  escaped : Bool := false
  ending : Bool := false
  insertion : Insertion := .off
  output : List Char := []

/-- The value of a variable, or nothing. -/
def valueOf (vars : String → Option String) (name : List Char) : List Char :=
  ((vars (String.ofList name)).getD "").toList

namespace ValueState

/-- The state with a character, or several, put out; the output is kept in reverse. -/
def put (s : ValueState) (cs : List Char) : ValueState :=
  { s with output := cs.reverse ++ s.output }

/-- What a character does while a name is being read. -/
def insert (vars : String → Option String) (s : ValueState) (c : Char) : ValueState :=
  match s.insertion with
  | .off => s
  | .bare name =>
    if isAlphanumeric c then { s with insertion := .bare (name ++ [c]) }
    else if c = '\x7b' ∧ name = [] then { s with insertion := .braced [] }
    else
      let s := s.put (valueOf vars name)
      if c = '$' then { s with insertion := .bare [] }
      else { s with insertion := .off }.put [c]
  | .braced name =>
    if c = '\x7d' then { s with insertion := .off }.put (valueOf vars name)
    else { s with insertion := .braced (name ++ [c]) }

/-- What a character does; none if it has no place where it stands, and the flag says that nothing
after it counts. -/
def next (vars : String → Option String) (s : ValueState) (c : Char) :
    Option (ValueState × Bool) :=
  if s.ending then
    if c = ' ' ∨ c = '\t' then some (s, false) else if c = '#' then some (s, true) else none
  else if s.escaped then
    if ['\\', '\'', '\"', '$', ' '].contains c then
      some ({ s with escaped := false }.put [c], false)
    else if c = 'n' then some ({ s with escaped := false }.put ['\n'], false)
    else none
  else if s.strong then
    some (if c = '\'' then { s with strong := false } else s.put [c], false)
  else if s.insertion ≠ .off then some (s.insert vars c, false)
  else if c = '$' then some ({ s with insertion := .bare [] }, false)
  else if c = '\\' then some ({ s with escaped := true }, false)
  else if s.weak then
    some (if c = '\"' then { s with weak := false } else s.put [c], false)
  else if c = '\'' then some ({ s with strong := true }, false)
  else if c = '\"' then some ({ s with weak := true }, false)
  else if c = ' ' ∨ c = '\t' then some ({ s with ending := true }, false)
  else some (s.put [c], false)

/-- The value that has been read, if no quotes or braces are open. -/
def finish (vars : String → Option String) (s : ValueState) : Option String :=
  if s.strong || s.weak then none
  else
    match s.insertion with
    | .off => some (String.ofList s.output.reverse)
    | .bare name => some (String.ofList (s.put (valueOf vars name)).output.reverse)
    | .braced _ => none

end ValueState

def readValue (vars : String → Option String) : ValueState → List Char → Option String
  | s, [] => s.finish vars
  | s, c :: cs =>
    match s.next vars c with
    | none => none
    | some (s, true) => s.finish vars
    | some (s, false) => readValue vars s cs

def readName (cs : List Char) : Option (String × List Char) :=
  match cs with
  | [] => none
  | c :: _ =>
    if c.isAlpha || c == '_' then
      let isPart := fun c : Char => c.isAlphanum || c == '_' || c == '.'
      some (String.ofList (cs.takeWhile isPart), cs.dropWhile isPart)
    else none

/-- Passes over an equals sign with blanks before it. -/
def readEquals (cs : List Char) : Option (List Char) :=
  match trimStart cs with
  | '=' :: r => some r
  | _ => none

/-- What a line says: nothing, or the value of a variable. -/
inductive Line where
  | nothing
  | assignment (name value : String)
  deriving DecidableEq, Repr

/-- Reads a line, given the variables known so far. The blanks at its two ends do not count. -/
def readLine (vars : String → Option String) (cs : List Char) : Option Line :=
  let cs := trim cs
  if cs = [] ∨ cs.head? = some '#' then some .nothing
  else do
    let (name, r) ← readName cs
    let (name, r) ←
      if name = "export" then
        match readEquals r with
        | some r => some (name, r)
        | none => do
          let (name, r) ← readName (trimStart r)
          let r ← readEquals r
          some (name, r)
      else do
        let r ← readEquals r
        some (name, r)
    let r := trimStart r
    if r = [] ∨ r.head? = some '#' then some (.assignment name "")
    else do
      let value ← readValue vars {} r
      some (.assignment name value)

/-- Variables with one more, unless there already is one of its name. -/
def define (vars : List (String × String)) (name value : String) : List (String × String) :=
  if vars.any (·.1 == name) then vars else vars ++ [(name, value)]

def look (vars : List (String × String)) (name : String) : Option String :=
  (vars.find? (·.1 == name)).map Prod.snd

def readLines (vars : List (String × String)) :
    List (Option (List Char)) → List (String × String)
  | [] => vars
  | none :: _ => vars
  | some l :: ls =>
    match readLine (look vars) l with
    | none => vars
    | some .nothing => readLines vars ls
    | some (.assignment name value) => readLines (define vars name value) ls

/-- A text without the mark of the byte order that it may begin with. -/
def dropMark : List Char → List Char
  | '\ufeff' :: cs => cs
  | cs => cs

/-- The variables with those that a file assigns; a variable that has a value keeps it. -/
def load (vars : List (String × String)) (file : String) : List (String × String) :=
  readLines vars (logicalLines .plain [] (physicalLines (dropMark file.toList)))

end CronScale.Settings.Dotenv
