import CronScale.Text.Double
import CronScale.Text.Numeral
/-!
# Numbers with a fraction or an exponent

Such a number is kept as a double, and so is a whole one that is too great. Of its digits those
count that fit in 64 bits. They are rounded to a double, which is then multiplied or divided by the
power of ten that is left, a double as well; a number past all doubles is none. A double is written
with its point where that is, if it lies behind one of the first sixteen digits or at most five
places in front of them, and else with an exponent.
-/

namespace CronScale.Json

open CronScale.Text

/-- How many of the least doubles make one. -/
def grain : Nat := 1 <<< 1074

/-- The first number past all doubles. -/
def pastDoubles : Nat := grain <<< 1024

/-- The greatest power of ten that is a double. -/
def maxPower : Nat := 308

def powerOfTen (n : Nat) : Nat := nearestDouble (Nat.pow 10 n * grain) 1

/-- A double divided by a power of ten, in steps that are doubles. -/
def dividedBy (v n : Nat) : Nat :=
  if n ≤ maxPower then nearestDouble (v * grain) (powerOfTen n)
  else if v = 0 then 0
  else dividedBy (nearestDouble (v * grain) (powerOfTen maxPower)) (n - maxPower)
termination_by n
decreasing_by simp only [maxPower] at *; omega

def multipliedBy? (v n : Nat) : Option Nat :=
  if v = 0 then some 0
  else if n ≤ maxPower then
    let product := nearestDouble (v * powerOfTen n) grain
    if product < pastDoubles then some product else none
  else none

/-- The value of the digits that fit in 64 bits, and how many they are. -/
def fittingDigits : Nat → Nat → List Char → Nat × Nat
  | value, count, [] => (value, count)
  | value, count, c :: cs =>
    let next := value * 10 + (digit? c).getD 0
    if next ≤ word64 then fittingDigits next (count + 1) cs else (value, count)

/-- The value of an exponent, behind its letter. -/
def exponentOf : List Char → Int
  | '-' :: cs => -digitsValue cs
  | '+' :: cs => digitsValue cs
  | cs => digitsValue cs

/-- The double that a number without a sign is kept as. -/
def doubleOf? (cs : List Char) : Option Nat :=
  let mantissa := cs.takeWhile fun c => c != 'e' && c != 'E'
  let exponent := exponentOf ((cs.dropWhile fun c => c != 'e' && c != 'E').drop 1)
  let wholePart := mantissa.takeWhile (· != '.')
  let (value, count) := fittingDigits 0 0 (wholePart ++ (mantissa.dropWhile (· != '.')).drop 1)
  let v := nearestDouble (value * grain) 1
  match exponent + wholePart.length - count with
  | .ofNat n => multipliedBy? v n
  | .negSucc n => some (dividedBy v (n + 1))

/-- How far the places of all doubles reach behind the point. -/
def places : Nat := 324

/-- The fewest digits that are read as a double, and the power of ten of their last place. -/
def fewestDigits (v : Nat) : Nat × Int :=
  if v = 0 then (0, 0)
  else
    let powers := (List.range (places + maxPower + 1)).reverse
    let found := powers.findSome? fun p : Nat =>
      (roundedTo? v (Nat.pow 10 p * grain) (Nat.pow 10 places)).map fun n => (n, (p - places : Int))
    found.getD (0, 0)

def textOfDouble (v : Nat) : String :=
  let (n, power) := fewestDigits v
  let digits := (toString n).toList
  let zeros := fun count : Int => List.replicate count.toNat '0'
  let point := digits.length + power
  String.ofList <|
    if 0 ≤ power ∧ point ≤ 16 then digits ++ zeros power ++ ['.', '0']
    else if 0 < point ∧ point ≤ 16 then digits.take point.toNat ++ '.' :: digits.drop point.toNat
    else if -5 < point ∧ point ≤ 0 then ['0', '.'] ++ zeros (-point) ++ digits
    else
      let exponent := 'e' :: (toString (point - 1)).toList
      match digits with
      | [] => exponent
      | [d] => d :: exponent
      | d :: ds => d :: '.' :: ds ++ exponent

/-- A number as it is written once it has been kept as a double; none if it is past all of them. -/
def normalNumber? (written : String) : Option String :=
  match written.toList with
  | '-' :: cs => (doubleOf? cs).map fun v => "-" ++ textOfDouble v
  | cs => (doubleOf? cs).map textOfDouble

end CronScale.Json
