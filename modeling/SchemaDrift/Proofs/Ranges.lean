import Mathlib
import SchemaDrift.Change
import SchemaDrift.Proofs.ExactValue

/-!
# The verdict on a bound that became another one

A finite range admits the rationals on its side of the bound. The verdict on a step from one range
to another is on the safe side, and between bounds of one kind, or from an exclusive bound to the
inclusive one on its side, it is exact.

* `Range.Admits` says which rationals satisfy a range.
* `Bound.relates_iff`: where a step can be harmless, the verdict asks for what keeps all rationals.
* `Range.mayShrink_eq_false_iff` is exactness for these steps, and `Edit.rangeChange_exact` the whole.
-/

namespace SchemaDrift

namespace Bound

/-- A rational is on the right side of the bound `v`. -/
def Admits : Bound → ℚ → ℚ → Prop
  | .minimum, v, q => v ≤ q
  | .exclusiveMinimum, v, q => v < q
  | .maximum, v, q => q ≤ v
  | .exclusiveMaximum, v, q => q < v

/-- The steps that can be harmless: between bounds of one kind, and from an exclusive bound to the
inclusive one on its side. -/
def Relaxes (old new : Bound) : Prop :=
  old = new ∨ old = .exclusiveMinimum ∧ new = .minimum ∨ old = .exclusiveMaximum ∧ new = .maximum

theorem keeps?_isSome_iff {old new : Bound} : (old.keeps? new).isSome ↔ old.Relaxes new := by
  cases old <;> cases new <;> simp [keeps?, Relaxes]

/-- A step that can be harmless keeps all rationals if and only if the values are related as the
verdict asks. If they are not, what is lost is one of the two values, or it lies between them. -/
theorem relates_iff {old new : Bound} {r : Relation} (h : old.keeps? new = some r) (v w : ℚ) :
    r.Relates v w ↔ ∀ q, old.Admits v q → new.Admits w q := by
  cases old <;> cases new <;> cases h
  case minimum.minimum => exact forall_ge_iff_le.symm
  case maximum.maximum => exact forall_le_iff_le.symm
  case exclusiveMinimum.exclusiveMinimum => exact forall_gt_iff_le.symm
  case exclusiveMaximum.exclusiveMaximum => exact forall_lt_iff_le.symm
  -- Here both values are admitted or neither is, so that only a rational between them can be lost.
  case exclusiveMinimum.minimum => exact forall_gt_imp_ge_iff_le_of_dense.symm
  case exclusiveMaximum.maximum => exact forall_lt_imp_le_iff_le_of_dense.symm

end Bound

namespace Range

/-- A rational satisfies a range with a finite value. -/
def Admits (r : Range) (q : ℚ) : Prop := ∃ v, r.value.rational? = some v ∧ r.bound.Admits v q

theorem admits_iff {r : Range} {v : ℚ} (h : r.value.rational? = some v) (q : ℚ) :
    r.Admits q ↔ r.bound.Admits v q := by
  simp [Admits, h]

variable {old new : Range}

/-- A step that can be harmless is called harmless if and only if it keeps all rationals. -/
theorem mayShrink_eq_false_iff (finite : old.value.isFinite = true)
    (finite' : new.value.isFinite = true) (h : old.bound.Relaxes new.bound) :
    old.mayShrink new = false ↔ ∀ q, old.Admits q → new.Admits q := by
  obtain ⟨v, hv⟩ := Number.rational_of_finite finite
  obtain ⟨w, hw⟩ := Number.rational_of_finite finite'
  obtain ⟨r, asked⟩ := Option.isSome_iff_exists.mp (Bound.keeps?_isSome_iff.mpr h)
  simp only [admits_iff hv, admits_iff hw]
  rw [← Bound.relates_iff asked, ← Number.related_rational hv hw, mayShrink, asked,
    Bool.not_eq_false']

/-- Every other step is called breaking. -/
theorem relaxes_of_mayShrink_eq_false (h : old.mayShrink new = false) :
    old.bound.Relaxes new.bound := by
  rw [← Bound.keeps?_isSome_iff]
  unfold mayShrink at h
  split at h
  · next asked => rw [asked]; rfl
  · exact nomatch h

end Range

/-- A changed range that is called harmless loses no rational. Where the step can be harmless, it
is called breaking only if it does lose one. -/
theorem Edit.rangeChange_exact (old new : Range) (finite : old.value.isFinite = true)
    (finite' : new.value.isFinite = true) :
    ((rangeChange old new).isBreaking = false → ∀ q, old.Admits q → new.Admits q) ∧
      (old.bound.Relaxes new.bound →
        ((rangeChange old new).isBreaking = true ↔ ∃ q, old.Admits q ∧ ¬ new.Admits q)) := by
  refine ⟨fun harmless => ?_, fun relaxes => ?_⟩
  · have relaxes := Range.relaxes_of_mayShrink_eq_false harmless
    exact (Range.mayShrink_eq_false_iff finite finite' relaxes).mp harmless
  · rw [← not_iff_not, Bool.not_eq_true]
    simp only [not_exists, not_and, not_not]
    exact Range.mayShrink_eq_false_iff finite finite' relaxes

/-- Nothing is lost where an exclusive bound becomes the inclusive one at the same value, be it
written as an integer or as a double; a rational is lost where the value grows. -/
theorem Edit.rangeChange_exact_touching :
    let strict : Range := ⟨.exclusiveMinimum, .int 1⟩
    let closed : Range := ⟨.minimum, .double (.finite false 1023 0)⟩
    let higher : Range := ⟨.minimum, .int 2⟩
    (strict.value.isFinite = true ∧ closed.value.isFinite = true ∧ higher.value.isFinite = true ∧
      strict.bound.Relaxes higher.bound) ∧
      (∀ q, strict.Admits q → closed.Admits q) ∧ ∃ q, strict.Admits q ∧ ¬ higher.Admits q := by
  have harmless : (rangeChange ⟨.exclusiveMinimum, .int 1⟩
      ⟨.minimum, .double (.finite false 1023 0)⟩).isBreaking = false := by decide +kernel
  have breaking : (rangeChange ⟨.exclusiveMinimum, .int 1⟩ ⟨.minimum, .int 2⟩).isBreaking = true :=
    by decide +kernel
  have relaxes : Bound.Relaxes .exclusiveMinimum .minimum := .inr (.inl ⟨rfl, rfl⟩)
  exact ⟨⟨rfl, rfl, rfl, relaxes⟩, (rangeChange_exact _ _ rfl rfl).1 harmless,
    ((rangeChange_exact _ _ rfl rfl).2 relaxes).mp breaking⟩

end SchemaDrift
