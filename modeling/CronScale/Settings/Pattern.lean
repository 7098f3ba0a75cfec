import CronScale.Text.Numeral
/-!
# Patterns for values

The value of a field is a number or a regular expression. An expression is well formed if its
groups and classes are closed and every repetition has something to repeat.
-/

namespace CronScale.Settings

open CronScale.Text

/-- Whether a text is the digits of a number, with a point and an exponent or without them. -/
def isUnsignedNumber (cs : List Char) : Bool :=
  let digits := fun cs : List Char => cs.all fun c => (digit? c).isSome
  let mantissa := cs.takeWhile fun c => c != 'e' && c != 'E'
  let wholePart := mantissa.takeWhile (· != '.')
  let fraction := (mantissa.dropWhile (· != '.')).drop 1
  let exponent :=
    match cs.dropWhile fun c => c != 'e' && c != 'E' with
    | [] => true
    | _ :: '+' :: r => r != [] && digits r
    | _ :: '-' :: r => r != [] && digits r
    | _ :: r => r != [] && digits r
  digits wholePart && digits fraction && wholePart ++ fraction != [] && exponent

/-- Whether a text is a number, of which infinity and what is no number have names. -/
def isNumber (cs : List Char) : Bool :=
  let unsigned := match cs with
    | '+' :: r => r
    | '-' :: r => r
    | r => r
  isUnsignedNumber unsigned ||
    ["inf", "infinity", "nan"].contains (String.ofList (unsigned.map Char.toLower))

/-- The rest of an expression behind a class that was opened; its first character does not close
it. -/
def afterClass? (cs : List Char) : Option (List Char) :=
  let inner := match cs with
    | '^' :: r => r
    | r => r
  match (inner.drop 1).dropWhile (· != ']') with
  | ']' :: r => some r
  | _ => none

/-- Whether a character has a meaning behind a backslash: a mark stands for itself there, and some
letters stand for a character, a class or an end of the text. -/
def isEscapable (c : Char) : Bool :=
  "afnrtvAzdDsSwWpPxuU".contains c ||
    (c.toNat < 128 && !c.isAlphanum && c != '<' && c != '>')

/-- Whether an expression is well formed, with so many open groups around it; the flag says whether
there is something to repeat. -/
def isPatternWithin : Nat → Nat → Bool → List Char → Bool
  | 0, _, _, _ => false
  | _ + 1, depth, _, [] => depth == 0
  | fuel + 1, depth, repeatable, c :: cs =>
    match c with
    | '\\' => cs.head?.any isEscapable && isPatternWithin fuel depth true (cs.drop 1)
    | '(' => isPatternWithin fuel (depth + 1) false (if cs.head? = some '?' then cs.drop 1 else cs)
    | ')' => depth != 0 && isPatternWithin fuel (depth - 1) true cs
    | '[' =>
      match afterClass? cs with
      | some r => isPatternWithin fuel depth true r
      | none => false
    | '|' => isPatternWithin fuel depth false cs
    | '\x7b' => false
    | c =>
      if c == '*' || c == '+' || c == '?' then repeatable && isPatternWithin fuel depth true cs
      else isPatternWithin fuel depth true cs

def isPattern (cs : List Char) : Bool := isPatternWithin (cs.length + 1) 0 false cs

end CronScale.Settings
