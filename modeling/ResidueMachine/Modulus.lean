/-!
# Residues modulo a positive word

A machine works on 64-bit words and reduces them modulo a fixed positive word.  Products of two
words need 128 bits, so the arithmetic is done on 128-bit words and narrowed at the end:

* `Modulus` : a positive 64-bit word;
* `Modulus.reduce` : the residue of a 128-bit word, in `[0, M)` whatever the sign of the word;
* `Modulus.combine` : the residue of `a * x + b * y + c`.

Each term of a combination is reduced before the terms are added, so that the sum of three
residues is far from the end of the 128-bit range.  In integers, `toInt_reduce` and
`toInt_combine` say what the two compute: no product and no sum leaves the range.
-/

namespace ResidueMachine

/-- A positive 64-bit word to compute residues with. -/
structure Modulus where
  /-- The word itself. -/
  val : Int64
  /-- The word is positive. -/
  pos : 0 < val.toInt
  deriving DecidableEq

/-- A 64-bit word as a 128-bit word of the same value. -/
def widen (word : Int64) : BitVec 128 :=
  word.toBitVec.signExtend 128

/-- Widening keeps the value. -/
@[simp] theorem toInt_widen (word : Int64) : (widen word).toInt = word.toInt :=
  BitVec.toInt_signExtend_of_le (by decide)

namespace Modulus

/-- The modulus with value `word`, if `word` is positive. -/
def ofWord? (word : Int64) : Option Modulus :=
  if h : 0 < word.toInt then some ⟨word, h⟩ else none

/-- The residue of `value` in `[0, M)`. -/
def reduce (m : Modulus) (value : BitVec 128) : Int64 :=
  Int64.ofBitVec ((value.smod (widen m.val)).setWidth 64)

/-- The residue of `a * x + b * y + c`. -/
def combine (m : Modulus) (a x b y c : Int64) : Int64 :=
  let first := widen (m.reduce (widen a * widen x))
  let second := widen (m.reduce (widen b * widen y))
  let third := widen (m.reduce (widen c))
  m.reduce (first + second + third)

/-- The decimal text of the modulus. -/
def display (m : Modulus) : String :=
  toString m.val.toInt

/-- The modulus as it is shown to a developer, such as `Modulus(7)`. -/
def debug (m : Modulus) : String :=
  s!"Modulus({m.display})"

/-! ### Which words are moduli -/

theorem ofWord?_eq_some {word : Int64} (h : 0 < word.toInt) :
    ofWord? word = some ⟨word, h⟩ := by
  simp [ofWord?, h]

theorem ofWord?_eq_none_iff {word : Int64} : ofWord? word = none ↔ word.toInt ≤ 0 := by
  simp only [ofWord?]
  split <;> simp <;> omega

/-! ### The arithmetic in integers -/

/-- The remainder of a 128-bit word is the Euclidean one, since the modulus is positive. -/
theorem toInt_smod_widen (m : Modulus) (value : BitVec 128) :
    (value.smod (widen m.val)).toInt = value.toInt % m.val.toInt := by
  have hpos := m.pos
  rw [BitVec.toInt_smod, toInt_widen, Int.fmod_eq_emod_of_nonneg _ (by omega)]

/-- A remainder fits 64 bits. -/
theorem toInt_setWidth_smod (m : Modulus) (value : BitVec 128) :
    ((value.smod (widen m.val)).setWidth 64).toInt = (value.smod (widen m.val)).toInt := by
  have hpos := m.pos
  have hlt := m.val.toInt_lt
  have hsmod := m.toInt_smod_widen value
  have hnonneg := Int.emod_nonneg value.toInt (b := m.val.toInt) (by omega)
  have hsmall := Int.emod_lt_of_pos value.toInt hpos
  have hnat : ((value.smod (widen m.val)).toNat : Int) = (value.smod (widen m.val)).toInt := by
    have := BitVec.toInt_eq_toNat_cond (value.smod (widen m.val))
    split at this <;> omega
  rw [BitVec.toInt_setWidth, hnat]
  apply Int.bmod_eq_of_le <;> omega

/-- **Reducing gives the residue**, also of a negative word. -/
theorem toInt_reduce (m : Modulus) (value : BitVec 128) :
    (m.reduce value).toInt = value.toInt % m.val.toInt := by
  rw [reduce, Int64.toInt_ofBitVec, toInt_setWidth_smod, toInt_smod_widen]

theorem toInt_reduce_nonneg (m : Modulus) (value : BitVec 128) : 0 ≤ (m.reduce value).toInt := by
  have hpos := m.pos
  rw [toInt_reduce]
  exact Int.emod_nonneg _ (by omega)

theorem toInt_reduce_lt (m : Modulus) (value : BitVec 128) :
    (m.reduce value).toInt < m.val.toInt := by
  rw [toInt_reduce]
  exact Int.emod_lt_of_pos _ m.pos

/-- A product of two words fits 128 bits. -/
theorem toInt_widen_mul_widen (a x : Int64) :
    (widen a * widen x).toInt = a.toInt * x.toInt := by
  have ha : a.toInt.natAbs ≤ 2 ^ 63 := by
    have := a.le_toInt
    have := a.toInt_lt
    omega
  have hx : x.toInt.natAbs ≤ 2 ^ 63 := by
    have := x.le_toInt
    have := x.toInt_lt
    omega
  have hmul : (a.toInt * x.toInt).natAbs ≤ 2 ^ 63 * 2 ^ 63 := by
    rw [Int.natAbs_mul]
    exact Nat.mul_le_mul ha hx
  rw [BitVec.toInt_mul, toInt_widen, toInt_widen]
  apply Int.bmod_eq_of_le <;> omega

/-- A sum of two residues fits 128 bits. -/
theorem toInt_reduce_add_reduce (m : Modulus) (u v : BitVec 128) :
    (widen (m.reduce u) + widen (m.reduce v)).toInt = (m.reduce u).toInt + (m.reduce v).toInt := by
  have hlt := m.val.toInt_lt
  have hu := m.toInt_reduce_nonneg u
  have hu' := m.toInt_reduce_lt u
  have hv := m.toInt_reduce_nonneg v
  have hv' := m.toInt_reduce_lt v
  rw [BitVec.toInt_add, toInt_widen, toInt_widen]
  apply Int.bmod_eq_of_le <;> omega

/-- A sum of three residues fits 128 bits. -/
theorem toInt_reduce_add_reduce_add_reduce (m : Modulus) (u v w : BitVec 128) :
    (widen (m.reduce u) + widen (m.reduce v) + widen (m.reduce w)).toInt =
      (m.reduce u).toInt + (m.reduce v).toInt + (m.reduce w).toInt := by
  have hlt := m.val.toInt_lt
  have hu := m.toInt_reduce_nonneg u
  have hu' := m.toInt_reduce_lt u
  have hv := m.toInt_reduce_nonneg v
  have hv' := m.toInt_reduce_lt v
  have hw := m.toInt_reduce_nonneg w
  have hw' := m.toInt_reduce_lt w
  rw [BitVec.toInt_add, toInt_reduce_add_reduce, toInt_widen]
  apply Int.bmod_eq_of_le <;> omega

/-- **A combination is exact before it is reduced.** -/
theorem toInt_combine (m : Modulus) (a x b y c : Int64) :
    (m.combine a x b y c).toInt =
      (a.toInt * x.toInt + b.toInt * y.toInt + c.toInt) % m.val.toInt := by
  simp only [combine, toInt_reduce _ (_ + _), toInt_reduce_add_reduce_add_reduce, toInt_reduce,
    toInt_widen_mul_widen, toInt_widen]
  simp [Int.add_emod]

end Modulus

end ResidueMachine
