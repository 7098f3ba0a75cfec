/-!
# Text without terminal control

A text that is not shown on a terminal is freed of control sequences, and of all control characters
that are no blanks. A sequence begins with the escape character. One that a bracket follows ends
with its first letter or a mark like one; a string ends at the next escape character, or at a bell;
any other sequence ends with its first character that is neither punctuation nor a blank. A line
feed or another blank inside of a sequence is kept, and so are the characters directly after it.
-/

namespace CronScale.Text

/-- Where in a control sequence a character stands. -/
inductive SequenceState where
  | outside
  | escape
  | intermediate
  | control
  /-- A string, which may end with a bell or not. -/
  | string (bell : Bool)
  deriving DecidableEq, Repr

namespace SequenceState

/-- The state behind the escape character and one more character. -/
def opened (c : Char) : SequenceState :=
  if c == '[' then .control
  else if c == ']' then .string true
  else if c == 'P' || c == 'X' || c == '^' || c == '_' then .string false
  else .outside

def next (s : SequenceState) (c : Char) : SequenceState :=
  if c == '\x1b' then .escape
  else if c == '\x18' || c == '\x1a' then .outside
  else
    match s with
    | .outside => .outside
    | .string bell => if bell && c == '\x07' then .outside else s
    | .escape =>
      if 32 ≤ c.toNat && c.toNat < 48 then .intermediate
      else if 48 ≤ c.toNat && c.toNat < 127 then opened c
      else .escape
    | .intermediate => if 48 ≤ c.toNat && c.toNat < 127 then .outside else s
    | .control => if 64 ≤ c.toNat && c.toNat < 127 then .outside else s

/-- Whether a character is a control character that is kept. -/
def isKeptBlank (c : Char) : Bool := c == '\t' || c == '\n' || c == '\x0c' || c == '\r'

def keeps (s : SequenceState) (c : Char) : Bool :=
  match s with
  | .outside => isKeptBlank c || (32 ≤ c.toNat && c.toNat != 127)
  | .string _ => false
  | _ => isKeptBlank c

end SequenceState

/-- A text without control sequences; the flag says whether the character before was kept. -/
def withoutControl : SequenceState → Bool → List Char → List Char
  | _, _, [] => []
  | s, kept, c :: cs =>
    if s.keeps c || (kept && SequenceState.outside.keeps c) then
      c :: withoutControl (if 128 ≤ c.toNat then .outside else s) true cs
    else withoutControl (s.next c) false cs

end CronScale.Text
