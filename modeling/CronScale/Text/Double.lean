/-!
# Doubles

A double keeps 53 binary digits of a number. Doubles are counted here as multiples of some unit that
is no greater than the least of them, so that each is a whole number; a number between two doubles
is rounded to the nearest, a half to the even one. A double is written with as few decimal digits as
it can be read back from; of the numbers with so few digits the nearest one is taken. What is
written reads back (`nearestDouble_of_roundedTo?`, `nearestDouble_shortest`).
-/

namespace CronScale.Text

/-- The distance between neighbouring doubles from a number on. -/
def spacing (n : Nat) : Nat := 1 <<< (n.log2 - 52)

/-- The double nearest to `num / den`. -/
def nearestDouble (num den : Nat) : Nat :=
  let step := spacing (num / den)
  let below := num / (step * den)
  let rest := num % (step * den)
  let up := step * den < 2 * rest ∨ (2 * rest = step * den ∧ below % 2 = 1)
  (if up then below + 1 else below) * step

/-- How many times `unit / den` is read as the double `v`, if one of the multiples next to `v` is;
of two the nearer one. -/
def roundedTo? (v unit den : Nat) : Option Nat :=
  let below := v * den / unit
  let rest := v * den % unit
  let above := below + 1
  if nearestDouble (below * unit) den = v ∧
      (nearestDouble (above * unit) den ≠ v ∨ 2 * rest ≤ unit) then some below
  else if nearestDouble (above * unit) den = v then some above
  else none

/-- The powers of ten up to the one with twenty digits, in descending order. -/
def decimalUnits : List Nat := (List.range 20).reverse.map (Nat.pow 10)

/-- The whole number with the fewest digits that is read as the double `v`. -/
def shortest (v : Nat) : Nat :=
  (decimalUnits.findSome? fun unit => (roundedTo? v unit 1).map (· * unit)).getD v

/-- The text of a whole number that is kept as a double. -/
def doubleText (n : Int) : String :=
  (if n < 0 then "-" else "") ++ toString (shortest (nearestDouble n.natAbs 1))

theorem nearestDouble_of_roundedTo? {v unit den n : Nat} (h : roundedTo? v unit den = some n) :
    nearestDouble (n * unit) den = v := by
  unfold roundedTo? at h
  dsimp only at h
  split at h
  · rename_i hb
    exact Option.some.inj h ▸ hb.1
  · split at h
    · rename_i ha
      exact Option.some.inj h ▸ ha
    · simp at h

theorem nearestDouble_shortest {v : Nat} (h : nearestDouble v 1 = v) :
    nearestDouble (shortest v) 1 = v := by
  unfold shortest
  cases hf : decimalUnits.findSome? fun unit => (roundedTo? v unit 1).map (· * unit) with
  | none => exact h
  | some n =>
    obtain ⟨unit, -, hu⟩ := List.exists_of_findSome?_eq_some hf
    obtain ⟨count, hc, rfl⟩ := Option.map_eq_some_iff.1 hu
    exact nearestDouble_of_roundedTo? hc

end CronScale.Text
