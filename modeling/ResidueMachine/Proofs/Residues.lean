import Mathlib.Data.Int.ModEq
import ResidueMachine.Modulus

/-!
# Residues

Arithmetic is done on words of fixed width, which wrap around.  It never does: a product of two
64-bit words fits 128 bits, and so does a sum of three residues, each of which is less than the
modulus.  The sum of two products may not, which is why each term is reduced before the terms are
added.

* `Modulus.IsResidue` : the residue of an integer, told without any arithmetic on words;
* `Modulus.isResidue_iff` : there is just one, the Euclidean remainder;
* `Modulus.combine_exact` : nothing wraps around in a combination, and what it gives is the residue
  of the exact integer.
-/

namespace ResidueMachine

namespace Modulus

/-- `r` is the residue of `value`. -/
structure IsResidue (m : Modulus) (value r : Int) : Prop where
  /-- Residues are not negative. -/
  nonneg : 0 ≤ r
  /-- Residues are less than the modulus. -/
  lt : r < m.val.toInt
  /-- The residue differs from the value by a multiple of the modulus. -/
  modEq : r ≡ value [ZMOD m.val.toInt]

/-- **An integer has one residue.** -/
theorem isResidue_iff {m : Modulus} {value r : Int} :
    m.IsResidue value r ↔ r = value % m.val.toInt := by
  have hpos := m.pos
  constructor
  · rintro ⟨hnonneg, hlt, hmod⟩
    rw [← hmod.eq, Int.emod_eq_of_lt hnonneg hlt]
  · rintro rfl
    exact ⟨Int.emod_nonneg _ (by omega), Int.emod_lt_of_pos _ hpos, Int.mod_modEq _ _⟩

/-- **A combination is computed without wrapping around.**  Its two products and its two sums are
those of the integers, and what is narrowed to 64 bits is a remainder, which keeps its value.  So a
combination is the one residue of the exact integer, for all words, and a reduction is the one
residue of its 128-bit word. -/
theorem combine_exact (m : Modulus) (a x b y c : Int64) :
    let first := widen (m.reduce (widen a * widen x))
    let second := widen (m.reduce (widen b * widen y))
    let third := widen (m.reduce (widen c))
    m.combine a x b y c = m.reduce (first + second + third) ∧
      (widen a * widen x).toInt = a.toInt * x.toInt ∧
      (widen b * widen y).toInt = b.toInt * y.toInt ∧
      (widen c).toInt = c.toInt ∧
      (first + second).toInt = first.toInt + second.toInt ∧
      (first + second + third).toInt = first.toInt + second.toInt + third.toInt ∧
      (∀ value : BitVec 128,
        let remainder := value.smod (widen m.val)
        m.reduce value = Int64.ofBitVec (remainder.setWidth 64) ∧
          remainder.toInt = value.toInt % m.val.toInt ∧
          (remainder.setWidth 64).toInt = remainder.toInt) ∧
      (∀ r, m.IsResidue (a.toInt * x.toInt + b.toInt * y.toInt + c.toInt) r ↔
        r = (m.combine a x b y c).toInt) ∧
      ∀ (value : BitVec 128) (r : Int), m.IsResidue value.toInt r ↔
        r = (m.reduce value).toInt := by
  intro first second third
  refine ⟨rfl, toInt_widen_mul_widen a x, toInt_widen_mul_widen b y, toInt_widen c, ?_, ?_,
    fun value => ⟨rfl, toInt_smod_widen m value, toInt_setWidth_smod m value⟩, fun r => ?_,
    fun value r => ?_⟩
  · rw [toInt_reduce_add_reduce]
    simp only [first, second, toInt_widen]
  · rw [toInt_reduce_add_reduce_add_reduce]
    simp only [first, second, third, toInt_widen]
  · rw [isResidue_iff, toInt_combine]
  · rw [isResidue_iff, toInt_reduce]

end Modulus

end ResidueMachine
