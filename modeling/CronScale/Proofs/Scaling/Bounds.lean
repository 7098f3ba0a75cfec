import Mathlib.Tactic.SplitIfs
import CronScale.Scaling.Autoscaler
/-!
# Bounds that hold a size

Before a workload gets a size, the bounds of its autoscaler are moved so that they hold the size.
Whatever the bounds were, even if the lower one was above the upper one, they hold it afterwards. No
bound is moved without need, and one that is moved is moved to the size itself; to move the bounds
once more changes nothing (`Bounds.widen_least`).
-/

namespace CronScale.Bounds

section

variable (b : Bounds) (current desired : Int)

/-- Whether a size lies within bounds. -/
structure Holds (b : Bounds) (size : Int) : Prop where
  low : b.effectiveLow ≤ size
  high : size ≤ b.high

/-- The three rules for the lower bound in one. -/
theorem neededLow_eq : b.neededLow current desired =
    if desired < b.effectiveLow ∨ current < desired then desired else b.effectiveLow := by
  simp only [neededLow]
  split_ifs <;> omega

theorem neededLow_le : b.neededLow current desired ≤ desired := by
  rw [neededLow_eq]
  split_ifs <;> omega

/-- Once the lower bound is as is needed, nothing else is needed. -/
theorem neededLow_again {b' : Bounds} (h : b'.effectiveLow = b.neededLow current desired) :
    b'.neededLow current desired = b'.effectiveLow := by
  rw [neededLow_eq] at h ⊢
  split_ifs at h ⊢ <;> omega

@[simp] theorem high_widen : (b.widen current desired).high = max b.high desired := rfl

theorem low_widen_of_same (h : b.neededLow current desired = b.effectiveLow) :
    (b.widen current desired).low = b.low := if_pos h

theorem low_widen_of_ne (h : b.neededLow current desired ≠ b.effectiveLow) :
    (b.widen current desired).low = some (b.neededLow current desired) := if_neg h

@[simp] theorem effectiveLow_widen :
    (b.widen current desired).effectiveLow = b.neededLow current desired := by
  by_cases h : b.neededLow current desired = b.effectiveLow
  · rw [h, effectiveLow, low_widen_of_same b current desired h, effectiveLow]
  · rw [effectiveLow, low_widen_of_ne b current desired h, Option.getD_some]

theorem holds_widen : (b.widen current desired).Holds desired where
  low := by
    rw [effectiveLow_widen]
    exact neededLow_le b current desired
  high := Int.le_max_right _ _

theorem mustMove_iff : b.mustMove current desired = true ↔
    (b.widen current desired).effectiveLow ≠ b.effectiveLow ∨
      (b.widen current desired).high ≠ b.high := by
  rw [effectiveLow_widen, high_widen, mustMove, Bool.or_eq_true, decide_eq_true_eq, bne_iff_ne]
  omega

end

variable {b : Bounds} {current desired : Int}

theorem mustMove_eq_false : b.mustMove current desired = false ↔
    b.neededLow current desired = b.effectiveLow ∧ desired ≤ b.high := by
  rw [← Bool.not_eq_true, mustMove_iff, effectiveLow_widen, high_widen]
  omega

theorem widen_of_not_mustMove (h : b.mustMove current desired = false) :
    b.widen current desired = b := by
  obtain ⟨hlow, hhigh⟩ := mustMove_eq_false.1 h
  have hlow' := low_widen_of_same b current desired hlow
  have hhigh' : (b.widen current desired).high = b.high := by
    rw [high_widen]
    omega
  generalize b.widen current desired = b' at hlow' hhigh'
  cases b
  cases b'
  cases hlow'
  cases hhigh'
  rfl

/-- Bounds that need not be moved for a size hold it. -/
theorem holds_of_not_mustMove (h : b.mustMove current desired = false) : b.Holds desired :=
  widen_of_not_mustMove h ▸ holds_widen b current desired

theorem not_mustMove_widen (b : Bounds) (current desired : Int) :
    (b.widen current desired).mustMove current desired = false :=
  mustMove_eq_false.2
    ⟨neededLow_again b current desired (effectiveLow_widen b current desired),
      (holds_widen b current desired).high⟩

/-- Bounds that are moved for a size hold it. The upper bound is never lowered, and only raised to
the size; the lower one is only moved to the size, down only if the size was below it, and up only
if the workload is smaller than the size. Whether anything must be moved is whether a bound in force
changes; a lower bound that stays in force is not written, so that an absent one stays absent. For
bounds that were moved, nothing must be moved any more, and nothing is. -/
theorem widen_least (b : Bounds) (current desired : Int) :
    ((b.widen current desired).effectiveLow ≤ desired ∧ desired ≤ (b.widen current desired).high) ∧
    (b.high ≤ (b.widen current desired).high ∧
      (b.high < (b.widen current desired).high → (b.widen current desired).high = desired)) ∧
    ((b.widen current desired).effectiveLow ≠ b.effectiveLow →
      (b.widen current desired).low = some desired) ∧
    ((b.widen current desired).effectiveLow < b.effectiveLow → desired < b.effectiveLow) ∧
    (b.effectiveLow < (b.widen current desired).effectiveLow → current < desired) ∧
    (b.mustMove current desired = true ↔
      (b.widen current desired).effectiveLow ≠ b.effectiveLow ∨
        (b.widen current desired).high ≠ b.high) ∧
    ((b.widen current desired).effectiveLow = b.effectiveLow →
      (b.widen current desired).low = b.low) ∧
    (b.widen current desired).mustMove current desired = false ∧
    (b.widen current desired).widen current desired = b.widen current desired := by
  have hholds := holds_widen b current desired
  have hagain := not_mustMove_widen b current desired
  have hneeded := neededLow_eq b current desired
  refine ⟨⟨hholds.low, hholds.high⟩, ⟨?_, ?_⟩, fun hmoved => ?_, ?_, ?_,
    mustMove_iff b current desired, fun hsame => ?_, hagain, widen_of_not_mustMove hagain⟩
  · rw [high_widen]
    omega
  · rw [high_widen]
    omega
  · rw [effectiveLow_widen] at hmoved
    have hdesired : b.neededLow current desired = desired := by
      rw [hneeded] at hmoved ⊢
      split_ifs at hmoved ⊢ <;> omega
    rw [low_widen_of_ne b current desired hmoved, hdesired]
  · rw [effectiveLow_widen, hneeded]
    split_ifs <;> omega
  · rw [effectiveLow_widen, hneeded]
    split_ifs <;> omega
  · rw [effectiveLow_widen] at hsame
    exact low_widen_of_same b current desired hsame

end CronScale.Bounds
