import CronScale.Settings.Pattern
import CronScale.Text.Alphanumeric
import CronScale.Text.Blank
import CronScale.Text.Numeral
/-!
# Which messages are logged

A filter is a list of directives apart by commas. A directive, `source[span{field=value}]=level`,
gives a level for all messages or for those whose source begins with a given name; a field restricts
it to messages that have one of that name. The name of a span and the value of a field restrict it
to what happens within spans, and so to no message outside of one. A directive that is a level alone
is about all messages; one without a level lets everything that it is about through. Of several
directives the one with the longest name of a source counts, then one with a field, then the last.
Without any directive only errors are logged.
-/

namespace CronScale.Settings

open CronScale.Text

/-- How much is logged. -/
inductive LogLevel where
  | off
  | error
  | warn
  | info
  | debug
  | trace
  deriving DecidableEq, Repr

namespace LogLevel

def all : List LogLevel := [off, error, warn, info, debug, trace]

def name : LogLevel → String
  | off => "off"
  | error => "error"
  | warn => "warn"
  | info => "info"
  | debug => "debug"
  | trace => "trace"

/-- The level with a number, or with a name in either case. -/
def ofText? (s : String) : Option LogLevel :=
  match readNumeral word64 s.toList with
  | .ok n => all[n]?
  | .error _ =>
    all.find? fun l => l.name.toList == s.toList.map Char.toLower

/-- How much is let through, in ascending order. -/
def rank : LogLevel → Nat
  | off => 0
  | error => 1
  | warn => 2
  | info => 3
  | debug => 4
  | trace => 5

end LogLevel

/-- Why a text is no directive. -/
inductive DirectiveFault where
  | malformed
  | badLevel
  | badPattern
  deriving DecidableEq, Repr

def DirectiveFault.message : DirectiveFault → String
  | malformed => "invalid filter directive"
  | badLevel =>
    "error parsing level filter: expected one of \"off\", \"error\", \"warn\", \"info\", " ++
      "\"debug\", \"trace\", or a number 0-5"
  | badPattern => "invalid field filter: error building NFA"

/-- A level for some messages. -/
structure Directive where
  level : LogLevel
  /-- What the names of the sources begin with. -/
  source : Option String := none
  /-- A field that the messages have. -/
  field : Option String := none
  /-- Whether it is about what happens within spans. -/
  withinSpan : Bool := false
  deriving DecidableEq, Repr

namespace Directive

/-- Whether a directive can begin with a character, other than the bracket of a span. -/
def isFirst (c : Char) : Bool := isAlphanumeric c || c == '-' || c == ':' || c == '_'

/-- The field that a text names, and whether its value counts. -/
def fieldOf (s : String) : Except DirectiveFault (String × Bool) :=
  match splitOn '=' s.toList with
  | [] => .error .malformed
  | [name] => .ok (String.ofList name, false)
  | name :: value :: _ =>
    if isNumber value || isPattern value then .ok (String.ofList name, true)
    else .error .badPattern

/-- A directive with the level of a text; everything, if that is empty. -/
def leveled (d : Directive) (level : String) : Except DirectiveFault Directive :=
  if level = "" then .ok d
  else
    match LogLevel.ofText? level with
    | some l => .ok { d with level := l }
    | none => .error .badLevel

/-- A directive with what follows its span: nothing, or a level behind an equals sign. -/
def closed (d : Directive) (level : String) : List Char → Except DirectiveFault Directive
  | [] => .ok d
  | '=' :: _ => d.leveled level
  | _ => .error .malformed

/-- Reads a directive. The marks in it are looked for without the blanks around it; its parts are
then taken from the same places of the text with its blanks. -/
def read (s : String) : Except DirectiveFault Directive := do
  let piece := fun start stop : Nat => String.ofList ((s.toList.take stop).drop start)
  let rest := fun start : Nat => String.ofList (s.toList.drop start)
  let cs := trim s.toList
  if !(cs.head?.any fun c => c == '[' || isFirst c) then throw .malformed
  let mark := (cs.takeWhile fun c => c != '=' && c != '[').length
  let d : Directive := ⟨.trace, if mark = 0 then none else some (piece 0 mark), none, false⟩
  match cs.drop mark with
  | [] =>
    match LogLevel.ofText? s with
    | some l => pure { d with level := l, source := none }
    | none => pure { d with source := some s }
  | '[' :: inner =>
    let stop := mark + 1 + (inner.takeWhile fun c => c != ']' && c != '\x7b').length
    match cs.drop stop with
    | ']' :: r => ({ d with withinSpan := true } : Directive).closed (rest (stop + 2)) r
    | '\x7b' :: inner =>
      let last := stop + 1 + (inner.takeWhile (· != '\x7d')).length
      let r := cs.drop last
      if last = stop + 1 || r = [] then throw .malformed
      let (field, valued) ← fieldOf (piece (stop + 1) last)
      let named := piece (mark + 1) stop != ""
      let d := { d with field := some field, withinSpan := named || valued }
      match r with
      | _ :: ']' :: r => d.closed (rest (last + 3)) r
      | _ => throw .malformed
    | _ => throw .malformed
  | _ => d.leveled (rest (mark + 1))

/-- How much a directive is restricted: the length of the name of its source, and whether there is
a field. -/
def weight (d : Directive) : Nat :=
  2 * (d.source.map String.utf8ByteSize).getD 0 + d.field.toList.length

/-- Whether a directive is about messages, outside of spans, with a source and fields. -/
def fits (d : Directive) (source : String) (fields : List String) : Bool :=
  !d.withinSpan && d.source.all (source.startsWith ·) && d.field.all (fields.contains ·)

end Directive

def directiveTexts (s : String) : List String :=
  ((splitOn ',' s.toList).filter (· != [])).map String.ofList

/-- The directive that counts, of some that fit. -/
def decisive (ds : List Directive) : Option Directive :=
  ds.foldl (fun best d =>
    match best with
    | none => some d
    | some b => if b.weight ≤ d.weight then some d else some b) none

/-- Whether a list of directives lets a message through. -/
def enabled (ds : List Directive) (source : String) (fields : List String) (level : LogLevel) :
    Bool :=
  match decisive (ds.filter fun d => d.fits source fields) with
  | none => ds.isEmpty && level.rank ≤ LogLevel.error.rank
  | some d => level.rank ≤ d.level.rank

/-- The filter in force and complaints about what was passed over: the variable's filter if it is
set and all its directives can be read, else the one that the level on the command line leads to. -/
def logFilter (asked : Option String) (logLevel : String) : List Directive × List String :=
  let texts := directiveTexts (logLevel ++ ",kube=warn,tower_http=warn")
  let complaints := texts.filterMap fun t =>
    match Directive.read t with
    | .ok _ => none
    | .error e => some ("ignoring `" ++ t ++ "`: " ++ e.message)
  let fallback := (texts.filterMap fun t => (Directive.read t).toOption, complaints)
  match asked with
  | none => fallback
  | some v =>
    match (directiveTexts v).mapM Directive.read with
    | .ok ds => (ds, [])
    | .error _ => fallback

end CronScale.Settings
