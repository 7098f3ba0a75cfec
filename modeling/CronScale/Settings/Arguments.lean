import CronScale.Text.Numeral
import CronScale.Text.Blank
/-!
# Arguments

Four options take a value each, either after an equals sign or as the next argument; each may be
given once. There are no other arguments but the request for help. A value is judged when the next
option comes or the arguments end, so that an argument that is not known is complained about before
a value in front of it.
-/

namespace CronScale.Settings

open CronScale.Text

/-- The options that take a value. -/
inductive Opt where
  | logLevel
  | serverAddr
  | timezone
  | gcIntervalSecs
  deriving DecidableEq, Repr

namespace Opt

def name : Opt → String
  | logLevel => "log-level"
  | serverAddr => "server-addr"
  | timezone => "timezone"
  | gcIntervalSecs => "gc-interval-secs"

def valueName : Opt → String
  | logLevel => "LOG_LEVEL"
  | serverAddr => "SERVER_ADDR"
  | timezone => "TIMEZONE"
  | gcIntervalSecs => "GC_INTERVAL_SECS"

def text (o : Opt) : String := "--" ++ o.name ++ " <" ++ o.valueName ++ ">"

def find? (s : String) : Option Opt :=
  [logLevel, serverAddr, timezone, gcIntervalSecs].find? (·.name == s)

end Opt

/-- What is wrong with arguments. -/
inductive ArgumentError where
  | unexpected (argument : String)
  | unexpectedValue (value flag : String)
  | noValue (o : Opt)
  | repeated (o : Opt)
  | badValue (o : Opt) (value : String) (cause : NumeralError)
  deriving DecidableEq, Repr

def ArgumentError.message : ArgumentError → String
  | unexpected a => "unexpected argument '" ++ a ++ "' found"
  | unexpectedValue v f =>
    "unexpected value '" ++ v ++ "' for '" ++ f ++ "' found; no more were expected"
  | noValue o => "a value is required for '" ++ o.text ++ "' but none was supplied"
  | repeated o => "the argument '" ++ o.text ++ "' cannot be used multiple times"
  | badValue o v e => "invalid value '" ++ v ++ "' for '" ++ o.text ++ "': " ++ e.message

/-- The values that options have been given. -/
structure Arguments where
  logLevel : Option String := none
  serverAddr : Option String := none
  timezone : Option String := none
  gcIntervalSecs : Option Nat := none
  deriving DecidableEq, Repr, Inhabited

/-- What the arguments ask for. -/
inductive Invocation where
  | help
  | start (a : Arguments)
  deriving DecidableEq, Repr

namespace Arguments

def has (a : Arguments) : Opt → Bool
  | .logLevel => a.logLevel.isSome
  | .serverAddr => a.serverAddr.isSome
  | .timezone => a.timezone.isSome
  | .gcIntervalSecs => a.gcIntervalSecs.isSome

def give (a : Arguments) (o : Opt) (value : String) : Except ArgumentError Arguments :=
  if a.has o then .error (.repeated o)
  else
    match o with
    | .logLevel => .ok { a with logLevel := some value }
    | .serverAddr => .ok { a with serverAddr := some value }
    | .timezone => .ok { a with timezone := some value }
    | .gcIntervalSecs =>
      match readNumeral word64 value.toList with
      | .ok n => .ok { a with gcIntervalSecs := some n }
      | .error e => .error (.badValue o value e)

/-- An option that waits for its value, or for the value that it has to be judged. -/
abbrev Pending := Option (Opt × Option String)

/-- Judges the option that is waiting. -/
def resolve (a : Arguments) : Pending → Except ArgumentError Arguments
  | none => .ok a
  | some (o, none) => .error (.noValue o)
  | some (o, some v) => a.give o v

/-- An argument that begins like an option. -/
inductive Shape where
  | escape
  | long (name : String) (value : Option String)
  | short (first : Char) (rest : String)
  | plain
  deriving DecidableEq, Repr

/-- How an argument begins. -/
def shape (s : String) : Shape :=
  match s.toList with
  | ['-', '-'] => .escape
  | '-' :: '-' :: cs =>
    match cut '=' cs with
    | some (n, v) => .long (String.ofList n) (some (String.ofList v))
    | none => .long (String.ofList cs) none
  | '-' :: c :: cs => .short c (String.ofList cs)
  | _ => .plain

def readFrom (a : Arguments) (pending : Pending) : List String → Except ArgumentError Invocation
  | [] => (a.resolve pending).map .start
  | s :: ss =>
    match shape s with
    | .escape =>
      match ss with
      | [] => (a.resolve pending).map .start
      | s :: _ => .error (.unexpected s)
    | .long "help" none => (a.resolve pending).map fun _ => .help
    | .long "help" (some v) => .error (.unexpectedValue v "--help")
    | .long name value =>
      match Opt.find? name with
      | none => .error (.unexpected ("--" ++ name))
      | some o =>
        match a.resolve pending with
        | .error e => .error e
        | .ok a =>
          match value with
          | none => readFrom a (some (o, none)) ss
          | some v =>
            match a.give o v with
            | .error e => .error e
            | .ok a => readFrom a none ss
    | .short 'h' _ => (a.resolve pending).map fun _ => .help
    | .short c _ => .error (.unexpected (String.ofList ['-', c]))
    | .plain =>
      match pending with
      | some (o, none) => readFrom a (some (o, some s)) ss
      | _ => .error (.unexpected s)

def read (args : List String) : Except ArgumentError Invocation := readFrom {} none args

end Arguments

end CronScale.Settings
