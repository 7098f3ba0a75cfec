/-!
# Reading and writing decimal numbers

A number is read from a text that holds nothing but ASCII digits, after an optional plus sign.
The reader stops at the first character that is no digit, and at the first digit that takes the
value past its limit, whichever comes first.
-/

namespace CronScale.Text

/-- Why a text is not a number within its limit. -/
inductive NumeralError where
  | empty
  | badDigit
  | tooLarge
  deriving DecidableEq, Repr

def NumeralError.message : NumeralError → String
  | .empty => "cannot parse integer from empty string"
  | .badDigit => "invalid digit found in string"
  | .tooLarge => "number too large to fit in target type"

def digit? (c : Char) : Option Nat :=
  if '0' ≤ c ∧ c ≤ '9' then some (c.toNat - '0'.toNat) else none

/-- Continues a number whose digits so far have the value `acc`. -/
def readDigits (limit : Nat) : Nat → List Char → Except NumeralError Nat
  | acc, [] => .ok acc
  | acc, c :: cs =>
    match digit? c with
    | none => .error .badDigit
    | some d =>
      if acc * 10 + d ≤ limit then readDigits limit (acc * 10 + d) cs else .error .tooLarge

/-- Reads a number from zero to `limit`, both included. -/
def readNumeral (limit : Nat) : List Char → Except NumeralError Nat
  | [] => .error .empty
  | '+' :: [] => .error .badDigit
  | '+' :: cs => readDigits limit 0 cs
  | cs => readDigits limit 0 cs

def word32 : Nat := 4294967295

def word64 : Nat := 18446744073709551615

/-- The value of a text of ASCII digits, of any length. -/
def digitsValue (cs : List Char) : Nat :=
  cs.foldl (fun acc c => acc * 10 + (digit? c).getD 0) 0

/-- A number with at least `width` digits, zeros in front. -/
def padded (width n : Nat) : String :=
  let digits := toString n
  String.ofList (List.replicate (width - digits.length) '0') ++ digits

/-- The hexadecimal digits of a number, in lower case. -/
def hexadecimal (n : Nat) : String := String.ofList (Nat.toDigits 16 n)

theorem readDigits_le {limit acc n : Nat} {cs : List Char} (hacc : acc ≤ limit)
    (h : readDigits limit acc cs = .ok n) : n ≤ limit := by
  induction cs generalizing acc with
  | nil => simp_all [readDigits]
  | cons c cs ih =>
    unfold readDigits at h
    split at h
    · simp at h
    · split at h
      · rename_i hle
        exact ih hle h
      · simp at h

theorem readNumeral_le {limit n : Nat} {cs : List Char} (h : readNumeral limit cs = .ok n) :
    n ≤ limit := by
  unfold readNumeral at h
  split at h
  · simp at h
  · simp at h
  · exact readDigits_le (Nat.zero_le _) h
  · exact readDigits_le (Nat.zero_le _) h

end CronScale.Text
